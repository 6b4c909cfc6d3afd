import NodeRules.Descriptor.Reader

namespace NodeRules

def startsCapital (name : String) : Bool := name.toList.head?.any Char.isUpper

def requireCapital (name : String) (span : Span) : Except ReadError Unit :=
  if startsCapital name then .ok () else .error ⟨.nameNotCapital name, span, 1⟩

namespace NodeRule

/-- Reads subtypes with bars between them. The names in `seen` were read before. -/
def readSubtypes (rule : String) (seen : List String) (p : Place) :
    Except ReadError (List String × Place) :=
  match p.demandName .subtype with
  | .error e => .error e
  | .ok ⟨name, p₁, h₁⟩ =>
    match requireCapital name p.span with
    | .error e => .error e
    | .ok () =>
      if name ∈ seen then .error ⟨.repeatedSubtype rule name, p.span, 1⟩
      else
        match h₂ : p₁.take? .bar with
        | none => .ok ([name], p₁)
        | some p₂ =>
          have := Place.length_take? h₂ (by simp)
          match readSubtypes rule (name :: seen) p₂ with
          | .error e => .error e
          | .ok (names, p₃) => .ok (name :: names, p₃)
termination_by p.unread.length

def childError? (rule : String) (alone : Bool) (placed : Child.Placed) : Option ReadError :=
  match placed.child with
  | .empty => if alone then none else some ⟨.emptyNotAlone rule, placed.span, 1⟩
  | .descriptor d =>
    if d.isDecorated then some ⟨.decorated d, placed.span, 1⟩
    else if startsCapital d.typeName then none
    else some ⟨.nameNotCapital d.typeName, placed.span, 1⟩

/-- The first error of a children list. A list child beside others comes before all other
errors. -/
def childrenError? (rule : String) (children : List Child.Placed) (stop : Span) :
    Option ReadError :=
  if children.isEmpty then some ⟨.noDescriptor rule, stop, 1⟩
  else
    let alone := children.length == 1
    match if alone then none else children.find? (·.child.isList) with
    | some placed => some ⟨.listNotAlone rule, placed.span, 1⟩
    | none => children.findSome? (childError? rule alone)

def readAbstract (name : String) (p : Place) : Except ReadError NodeRule := do
  let (subtypes, p) ← readSubtypes name [] p
  p.demandEnd
  return abstract name subtypes

def readOrdinary (name : String) (p : Place) : Except ReadError NodeRule := do
  let (children, p) ← Child.readAll p
  p.demandEnd
  match childrenError? name children p.span with
  | some e => throw e
  | none => return ordinary name (children.map Child.Placed.child)

def startsAbstract (p : Place) : Bool :=
  match p.kind with
  | .name _ => p.kindAfter == .bar
  | _ => false

def ofTokens (name : String) (span : Span) (ts : List Token) : Except ReadError NodeRule := do
  requireCapital name span
  let p := Place.ofTokens ts
  if startsAbstract p then readAbstract name p else readOrdinary name p

end NodeRule

namespace LiteralRule

def readParts (rule : String) (done : List String) (p : Place) :
    Except ReadError (List String × Place) :=
  match p.kind.template? with
  | none =>
    let part := Part.ofIndex done.length
    .error (if p.kind = .stop then ⟨.missingPart rule part, p.span, 1⟩
      else p.mismatch (.part part rule))
  | some text =>
    let done := done ++ [text]
    match h : p.forward.take? .comma with
    | none => .ok (done, p.forward)
    | some p₁ =>
      if done.length = 4 then .error ⟨.tooManyParts rule, p₁.spanBefore, 1⟩
      else
        have := Place.length_take? h (by simp)
        have := Place.length_forward_le p
        readParts rule done p₁
termination_by p.unread.length

def ofTokens (name : String) (span : Span) (ts : List Token) : Except ReadError LiteralRule := do
  requireCapital name span
  let (parts, p) ← readParts name [] (.ofTokens ts)
  p.demandEnd
  match parts with
  | nativeType :: serializer :: parser :: more =>
    return ⟨name, nativeType, serializer, parser, more.head?⟩
  | parts => throw ⟨.missingPart name (.ofIndex parts.length), p.span, 1⟩

end LiteralRule

end NodeRules
