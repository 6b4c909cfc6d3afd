import NodeRules.Proofs.Descriptor.LineEnds
import NodeRules.Proofs.Rule.Kinds
import NodeRules.Proofs.Token.Cursor

namespace NodeRules

namespace Cursor

open Place (Step)

section Readers

def head : Reader (Option String × String) := do
  let first ← demandName .descriptor
  if ← takes .atSign then
    let second ← demandName .taggedType
    return (some first, second)
  else return (none, first)

def data : Reader (Option Descriptor.Data) := do
  if ← takes .leftAngle then
    match Descriptor.Data.ofKind? (← kind) with
    | none => mismatch .data
    | some data =>
      forward
      demand .rightAngle
      return some data
  else return none

def multiplicity : Reader Multiplicity := do
  if ← takes .question then return .optional
  else if ← takes .star then return .list
  else return .one

def tail (tag : Option String) (typeName : String) (parameters : List Descriptor) :
    Reader Descriptor := do
  let data ← data
  let multiplicity ← multiplicity
  return ⟨tag, typeName, parameters, data, multiplicity⟩

mutual

/-- Reads a descriptor, with at most `n` calls inside of each other. -/
def descriptor : (n : Nat) → Reader Descriptor
  | 0 => throw .tooDeep
  | n + 1 => do
    let (tag, typeName) ← head
    if ← takes .leftParen then
      let ds ← parameters n
      demand .rightParen
      tail tag typeName ds
    else tail tag typeName []

def parameters : (n : Nat) → Reader (List Descriptor)
  | 0 => throw .tooDeep
  | n + 1 => do
    let d ← descriptor n
    if ← takes .comma then
      let ds ← parameters n
      return d :: ds
    else return [d]

end

def child (n : Nat) : Reader Child := do
  if (← kind) = .number 0 then
    forward
    return .empty
  else
    let d ← descriptor n
    return .descriptor d

def children : (n : Nat) → Reader (List Child.Placed)
  | 0 => throw .tooDeep
  | n + 1 => do
    let start ← span
    let child ← child n
    let stop ← spanBefore
    let placed : Child.Placed := ⟨child, start.cover stop⟩
    if ← takes .comma then
      let more ← children n
      return placed :: more
    else return [placed]

def childList (n : Nat) : Reader (List Child.Placed) := do
  if (← kind) = .stop then return [] else children n

def subtypes (rule : String) : (n : Nat) → (seen : List String) → Reader (List String)
  | 0, _ => throw .tooDeep
  | n + 1, seen => do
    let start ← span
    let name ← demandName .subtype
    require (requireCapital name start)
    if name ∈ seen then reject ⟨.repeatedSubtype rule name, start, 1⟩
    else if ← takes .bar then
      let names ← subtypes rule n (name :: seen)
      return name :: names
    else return [name]

def parts (rule : String) : (n : Nat) → (done : List String) → Reader (List String)
  | 0, _ => throw .tooDeep
  | n + 1, done => do
    let k ← kind
    match k.template? with
    | none =>
      if k = .stop then
        let stop ← span
        reject ⟨.missingPart rule (.ofIndex done.length), stop, 1⟩
      else mismatch (.part (.ofIndex done.length) rule)
    | some text =>
      forward
      if ← takes .comma then
        if (done ++ [text]).length = 4 then
          let comma ← spanBefore
          reject ⟨.tooManyParts rule, comma, 1⟩
        else parts rule n (done ++ [text])
      else return done ++ [text]

def childrenOfLine (n : Nat) : Reader (List Child) := do
  let children ← childList n
  demandEnd
  return children.map Child.Placed.child

def startsAbstract : Reader Bool := do
  match ← kind with
  | .name _ => return (← kindAfter) == .bar
  | _ => return false

def abstractOfLine (name : String) (n : Nat) : Reader NodeRule := do
  let names ← subtypes name n []
  demandEnd
  return .abstract name names

def ordinaryOfLine (name : String) (n : Nat) : Reader NodeRule := do
  let children ← childList n
  demandEnd
  let stop ← span
  match NodeRule.childrenError? name children stop with
  | some e => reject e
  | none => return .ordinary name (children.map Child.Placed.child)

def nodeRuleOfLine (name : String) (nameSpan : Span) (n : Nat) : Reader NodeRule := do
  require (requireCapital name nameSpan)
  if ← startsAbstract then abstractOfLine name n else ordinaryOfLine name n

def literalRuleOfLine (name : String) (nameSpan : Span) (n : Nat) : Reader LiteralRule := do
  require (requireCapital name nameSpan)
  let parts ← parts name n []
  demandEnd
  match parts with
  | nativeType :: serializer :: parser :: more =>
    return ⟨name, nativeType, serializer, parser, more.head?⟩
  | parts =>
    let stop ← span
    reject ⟨.missingPart name (.ofIndex parts.length), stop, 1⟩

end Readers

section Descriptors

variable {ts : List Token} {p : Place}

theorem follows_head : Follows ts p head (Step.pair <$> Descriptor.readHead p) := by
  rw [Descriptor.readHead_step]
  refine (follows_demandName _).bind fun first p₁ _ => ?_
  apply follows_takes_bind
  · intro _
    exact (follows_demandName _).bind fun second p₂ _ => follows_pure _
  · exact follows_pure _

theorem follows_data : Follows ts p data (Descriptor.readData p) := by
  rw [Descriptor.readData_step]
  apply follows_takes_bind
  · intro _
    apply leads_kind_bind
    cases Descriptor.Data.ofKind? p.forward.kind with
    | none => exact follows_mismatch _
    | some data =>
        exact leads_forward_bind ((follows_demand _ _).bind fun _ p₁ _ => follows_pure _)
  · exact follows_pure _

theorem follows_multiplicity :
    Follows ts p multiplicity (.ok (Descriptor.readMultiplicity p)) := by
  rw [Descriptor.readMultiplicity_step]
  apply leads_takes_bind
  · intro hquestion
    rw [if_pos hquestion]
    exact follows_pure _
  · intro hquestion
    rw [if_neg hquestion]
    apply leads_takes_bind
    · intro hstar
      rw [if_pos hstar]
      exact follows_pure _
    · intro hstar
      rw [if_neg hstar]
      exact follows_pure _

theorem follows_tail (tag : Option String) (typeName : String) (ds : List Descriptor) :
    Follows ts p (tail tag typeName ds) (Descriptor.readTail tag typeName ds p) := by
  rw [Descriptor.readTail_step]
  refine follows_data.bind fun data p₁ _ => ?_
  exact follows_multiplicity.bind fun multiplicity p₂ _ => follows_pure _

end Descriptors

mutual

theorem follows_descriptor {ts : List Token} {p : Place} {n : Nat}
    (hn : 2 * p.unread.length < n) :
    Follows ts p (descriptor n) (Step.pair <$> Descriptor.read p) := by
  obtain ⟨n, rfl⟩ := Nat.exists_eq_add_one_of_ne_zero (Nat.ne_zero_of_lt hn)
  rw [Descriptor.read_step, descriptor]
  refine follows_head.bind ?_
  rintro ⟨tag, typeName⟩ p₁ hhead
  have hshorter := Step.shorter_of_pair hhead
  apply follows_takes_bind
  · intro hparen
    have hforward := p₁.length_forward_le
    refine (follows_parameters (by omega)).bind fun ds p₂ _ => ?_
    exact (follows_demand _ (by simp)).bind fun _ p₃ _ => follows_tail _ _ _
  · exact follows_tail _ _ _
termination_by n

theorem follows_parameters {ts : List Token} {p : Place} {n : Nat}
    (hn : 2 * p.unread.length + 1 < n) :
    Follows ts p (parameters n) (Step.pair <$> Descriptor.readParameters p) := by
  obtain ⟨n, rfl⟩ := Nat.exists_eq_add_one_of_ne_zero (Nat.ne_zero_of_lt hn)
  rw [Descriptor.readParameters_step, parameters]
  refine (follows_descriptor (by omega)).bind fun d p₁ hread => ?_
  have hshorter := Step.shorter_of_pair hread
  apply follows_takes_bind
  · intro _
    have hforward := p₁.length_forward_le
    exact (follows_parameters (by omega)).bind fun ds p₂ _ => follows_pure _
  · exact follows_pure _
termination_by n

end

section Children

variable {ts : List Token} {p : Place} {n : Nat}

theorem follows_child (hn : 2 * p.unread.length < n) :
    Follows ts p (child n) (Step.pair <$> Child.read p) := by
  rw [Child.read_step]
  apply leads_kind_bind
  split
  · exact leads_forward_bind (follows_pure _)
  · exact (follows_descriptor hn).bind fun d p₁ _ => follows_pure _

theorem follows_children (hn : 2 * p.unread.length + 1 < n) :
    Follows ts p (children n) (Step.pair <$> Child.readSome p) := by
  induction n generalizing p with
  | zero => omega
  | succ n ih =>
      rw [Child.readSome_step, children]
      apply leads_span_bind
      refine (follows_child (by omega)).bind fun child p₁ hread => ?_
      have hshorter := Step.shorter_of_pair hread
      apply leads_spanBefore_bind
      apply follows_takes_bind
      · intro _
        have hforward := p₁.length_forward_le
        exact (ih (by omega)).bind fun more p₂ _ => follows_pure _
      · exact follows_pure _

theorem follows_childList (hn : 2 * p.unread.length + 1 < n) :
    Follows ts p (childList n) (Child.readAll p) := by
  rw [Child.readAll_step]
  apply leads_kind_bind
  split
  · exact follows_pure _
  · exact follows_children hn

end Children

theorem readSubtypes_eq (rule : String) (seen : List String) (p : Place) :
    NodeRule.readSubtypes rule seen p = (do
      let (name, p₁) ← Step.pair <$> p.demandName .subtype
      requireCapital name p.span
      if name ∈ seen then .error ⟨.repeatedSubtype rule name, p.span, 1⟩
      else if p₁.kind = .bar then
        let (names, p₂) ← NodeRule.readSubtypes rule (name :: seen) p₁.forward
        return (name :: names, p₂)
      else return ([name], p₁)) := by
  rw [NodeRule.readSubtypes_step, Place.demandName_step]
  cases p.kind with
  | name name => rfl
  | _ => rfl

theorem follows_subtypes {ts : List Token} {p : Place} {n : Nat} (rule : String)
    (seen : List String) (hn : p.unread.length < n) :
    Follows ts p (subtypes rule n seen) (NodeRule.readSubtypes rule seen p) := by
  induction n generalizing seen p with
  | zero => omega
  | succ n ih =>
      rw [readSubtypes_eq, subtypes]
      apply leads_span_bind
      refine (follows_demandName _).bind fun name p₁ hname => ?_
      have hshorter := Step.shorter_of_pair hname
      refine follows_require_bind fun _ => ?_
      split
      · exact follows_reject _
      apply follows_takes_bind
      · intro _
        have hforward := p₁.length_forward_le
        exact (ih (name :: seen) (by omega)).bind fun names p₂ _ => follows_pure _
      · exact follows_pure _

theorem follows_parts {ts : List Token} {p : Place} {n : Nat} (rule : String)
    (done : List String) (hn : p.unread.length < n) :
    Follows ts p (parts rule n done) (LiteralRule.readParts rule done p) := by
  induction n generalizing done p with
  | zero => omega
  | succ n ih =>
      rw [parts]
      apply leads_kind_bind
      cases htext : p.kind.template? with
      | none =>
          by_cases hstop : p.kind = .stop
          · rw [LiteralRule.readParts_stop rule done hstop, if_pos hstop]
            exact leads_span_bind (follows_reject _)
          · rw [LiteralRule.readParts_mismatch rule done htext hstop, if_neg hstop]
            exact follows_mismatch _
      | some text =>
          apply leads_forward_bind
          apply leads_takes_bind
          · intro hcomma
            have hfirst := p.length_forward_le
            have hsecond := Place.length_forward (p := p.forward) (by simp [hcomma])
            rw [LiteralRule.readParts_comma rule done htext (if_pos hcomma)]
            rw [if_pos rfl]
            split
            · exact leads_spanBefore_bind (follows_reject _)
            · exact ih _ (by omega)
          · intro hcomma
            rw [LiteralRule.readParts_noComma rule done htext (if_neg hcomma)]
            exact follows_pure _

section Lines

variable {ts : List Token} {n : Nat}

theorem yields_children (hn : 2 * ts.length + 1 < n) :
    Yields ts (.ofTokens ts) (childrenOfLine n) (Child.ofTokens ts) := by
  refine (follows_childList hn).bind_yields fun children p _ => ?_
  exact yields_demandEnd_bind (yields_pure _)

theorem leads_startsAbstract_bind {α : Type} {p : Place} {f : Bool → Reader α}
    {P : Except Fault α × Cursor → Prop} (h : Leads ts p (f (NodeRule.startsAbstract p)) P) :
    Leads ts p (startsAbstract >>= f) P := by
  rw [NodeRule.startsAbstract] at h
  rw [startsAbstract, bind_assoc]
  apply leads_kind_bind
  cases hkind : p.kind with
  | name value =>
      rw [hkind] at h
      rw [bind_assoc]
      exact leads_kindAfter_bind h
  | _ =>
      rw [hkind] at h
      exact h

theorem yields_nodeRule (name : String) (nameSpan : Span) (hn : 2 * ts.length + 1 < n) :
    Yields ts (.ofTokens ts) (nodeRuleOfLine name nameSpan n)
      (NodeRule.ofTokens name nameSpan ts) := by
  refine yields_require_bind fun _ => ?_
  apply leads_startsAbstract_bind
  dsimp only
  split
  · refine (follows_subtypes name [] ?_).bind_yields fun names p _ => ?_
    · change ts.length < n
      omega
    · exact yields_demandEnd_bind (yields_pure _)
  · refine (follows_childList hn).bind_yields fun children p _ => ?_
    refine yields_demandEnd_bind (leads_span_bind ?_)
    cases NodeRule.childrenError? name children p.span with
    | some e => exact yields_reject e
    | none => exact yields_pure _

theorem yields_literalRule (name : String) (nameSpan : Span) (hn : ts.length < n) :
    Yields ts (.ofTokens ts) (literalRuleOfLine name nameSpan n)
      (LiteralRule.ofTokens name nameSpan ts) := by
  refine yields_require_bind fun _ => ?_
  refine (follows_parts name [] hn).bind_yields fun parts p _ => ?_
  refine yields_demandEnd_bind ?_
  rcases parts with - | ⟨nativeType, - | ⟨serializer, - | ⟨parser, more⟩⟩⟩
  · exact leads_span_bind (yields_reject _)
  · exact leads_span_bind (yields_reject _)
  · exact leads_span_bind (yields_reject _)
  · exact yields_pure _

end Lines

end Cursor

end NodeRules
