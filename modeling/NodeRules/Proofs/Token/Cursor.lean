import NodeRules.Proofs.Descriptor.Alike

namespace NodeRules

/-- A list of tokens and an index into it. Nothing keeps the index inside of the list. -/
structure Cursor where
  tokens : List Token
  position : Nat
  /-- The positions that the cursor was at before. -/
  left : List Nat

namespace Cursor

def start (ts : List Token) : Cursor := ⟨ts, 0, []⟩

inductive Fault
  | rejected (e : ReadError)
  | outOfBounds
  | tooDeep

/-- What is read by moving a cursor, which stays where it is when an error occurs. -/
abbrev Reader (α : Type) := ExceptT Fault (StateM Cursor) α

namespace Reader

variable {α β : Type} {m : Reader α} {c c' : Cursor}

def on (m : Reader α) (c : Cursor) : Except Fault α × Cursor := m.run.run c

theorem on_bind_ok {a : α} (h : m.on c = (.ok a, c')) (f : α → Reader β) :
    (m >>= f).on c = (f a).on c' := by
  change (StateT.run (ExceptT.run m >>= ExceptT.bindCont f) c : Except Fault β × Cursor) = _
  rw [StateT.run_bind, show StateT.run (ExceptT.run m) c = (.ok a, c') from h]
  rfl

theorem on_bind_error {e : Fault} (h : m.on c = (.error e, c')) (f : α → Reader β) :
    (m >>= f).on c = (.error e, c') := by
  change (StateT.run (ExceptT.run m >>= ExceptT.bindCont f) c : Except Fault β × Cursor) = _
  rw [StateT.run_bind, show StateT.run (ExceptT.run m) c = (.error e, c') from h]
  rfl

end Reader

def current : Reader Token := return (← get).tokens.getD (← get).position ⟨.stop, .nowhere⟩

def kind : Reader Token.Kind := return (← current).kind

def span : Reader Span := return (← current).span

def kindAfter : Reader Token.Kind :=
  return ((← get).tokens.getD ((← get).position + 1) ⟨.stop, .nowhere⟩).kind

def spanBefore : Reader Span := do
  if (← get).position = 0 then return .nowhere
  else
    match (← get).tokens[(← get).position - 1]? with
    | some t => return t.span
    | none => throw .outOfBounds

def forward : Reader Unit := do
  if (← kind) = .stop then return ()
  else modify fun c => { c with position := c.position + 1, left := c.position :: c.left }

def takes (k : Token.Kind) : Reader Bool := do
  if (← kind) = k then
    forward
    return true
  else return false

def reject {α : Type} (e : ReadError) : Reader α := throw (.rejected e)

def mismatch {α : Type} (expected : ReadError.Expected) : Reader α := do
  reject ⟨.unexpectedToken expected (← kind), ← span, 1⟩

def demand (k : Token.Kind) : Reader Unit := do
  if (← kind) = k then forward else mismatch (.token k)

def demandName (expected : ReadError.Expected) : Reader String := do
  match ← kind with
  | .name value =>
    forward
    return value
  | _ => mismatch expected

def demandEnd : Reader Unit := do
  if (← kind) = .stop then return () else mismatch .endOfList

def require {α : Type} : Except ReadError α → Reader α
  | .ok a => return a
  | .error e => reject e

structure InBounds (ts : List Token) (c : Cursor) : Prop where
  position : c.position ≤ ts.length
  left : ∀ i ∈ c.left, i ≤ ts.length

/-- The cursor stands where the place is, and was never behind the last token. -/
structure At (ts : List Token) (p : Place) (c : Cursor) : Prop where
  tokens : c.tokens = ts
  split : p.read.reverse ++ p.unread = ts
  position : c.position = p.position
  left : ∀ i ∈ c.left, i ≤ ts.length

/-- The two results are one value, at the same place, or one error. -/
inductive Agrees (ts : List Token) {α : Type} :
    Except ReadError (α × Place) → Except Fault α × Cursor → Prop
  | ok {p : Place} {c : Cursor} (a : α) (h : At ts p c) : Agrees ts (.ok (a, p)) (.ok a, c)
  | error {c : Cursor} (e : ReadError) (h : InBounds ts c) :
      Agrees ts (.error e) (.error (.rejected e), c)

def Leads {α : Type} (ts : List Token) (p : Place) (m : Reader α)
    (P : Except Fault α × Cursor → Prop) : Prop :=
  ∀ c, At ts p c → P (m.on c)

abbrev Follows {α : Type} (ts : List Token) (p : Place) (m : Reader α)
    (x : Except ReadError (α × Place)) : Prop :=
  Leads ts p m (Agrees ts x)

/-- A cursor reads the value or the error that `x` is, and never goes past the last token. -/
abbrev Yields {α : Type} (ts : List Token) (p : Place) (m : Reader α)
    (x : Except ReadError α) : Prop :=
  Leads ts p m fun result => ∃ c, result = (x.mapError .rejected, c) ∧ InBounds ts c

def Reads {α : Type} (ts : List Token) (m : Reader α) (x : Except ReadError α) : Prop :=
  ∃ c, m.on (start ts) = (x.mapError .rejected, c) ∧ InBounds ts c

theorem at_start (ts : List Token) : At ts (.ofTokens ts) (start ts) :=
  ⟨rfl, rfl, rfl, by simp [start]⟩

theorem Yields.reads {α : Type} {ts : List Token} {m : Reader α} {x : Except ReadError α}
    (h : Yields ts (.ofTokens ts) m x) : Reads ts m x :=
  h _ (at_start ts)

namespace At

variable {ts : List Token} {p : Place} {c : Cursor} (h : At ts p c)

include h

theorem getD_eq (n : Nat) (t : Token) :
    c.tokens.getD (c.position + n) t = p.unread.getD n t := by
  rw [h.tokens, h.position, ← h.split, Place.position, ← List.length_reverse,
    List.getD_eq_getElem?_getD, List.getElem?_append_right (Nat.le_add_right _ _),
    Nat.add_sub_cancel_left, List.getD_eq_getElem?_getD]

theorem current_eq : c.tokens.getD c.position ⟨.stop, .nowhere⟩ = p.current := by
  rw [← Nat.add_zero c.position, h.getD_eq, Place.current]
  cases p.unread <;> rfl

theorem inBounds : InBounds ts c := by
  refine ⟨?_, h.left⟩
  rw [h.position, Place.position, ← h.split, List.length_append, List.length_reverse]
  exact Nat.le_add_right _ _

theorem on_kind : kind.on c = (.ok p.kind, c) := by
  rw [Place.kind, ← h.current_eq]
  rfl

theorem on_span : span.on c = (.ok p.span, c) := by
  rw [Place.span, ← h.current_eq]
  rfl

theorem on_kindAfter : kindAfter.on c = (.ok p.kindAfter, c) := by
  have hafter := h.getD_eq 1 ⟨.stop, .nowhere⟩
  have hplace : p.kindAfter = (p.unread.getD 1 ⟨.stop, .nowhere⟩).kind := by
    rw [Place.kindAfter]
    rcases p.unread with - | ⟨t, - | ⟨u, more⟩⟩ <;> rfl
  rw [hplace, ← hafter]
  rfl

/-- The index of the token in front of the cursor is inside of the list. -/
theorem on_spanBefore : spanBefore.on c = (.ok p.spanBefore, c) := by
  have hposition := h.position
  cases hread : p.read with
  | nil =>
      have hzero : c.position = 0 := by rw [hposition, Place.position, hread, List.length_nil]
      have hplace : p.spanBefore = .nowhere := by rw [Place.spanBefore, hread, List.headD_nil]
      rw [hplace]
      change Reader.on (if c.position = 0 then _ else _) c = _
      rw [if_pos hzero]
      rfl
  | cons t front =>
      have hpos : c.position = front.length + 1 := by
        rw [hposition, Place.position, hread, List.length_cons]
      have htoken : c.tokens[c.position - 1]? = some t := by
        rw [h.tokens, ← h.split, hread, hpos]
        simp
      have hplace : p.spanBefore = t.span := by rw [Place.spanBefore, hread, List.headD_cons]
      rw [hplace]
      change Reader.on (if c.position = 0 then _ else _) c = _
      rw [if_neg (by omega)]
      change Reader.on (match c.tokens[c.position - 1]? with | some t => _ | none => _) c = _
      rw [htoken]
      rfl

theorem on_forward : ∃ c', forward.on c = (.ok (), c') ∧ At ts p.forward c' := by
  have hforward := Reader.on_bind_ok h.on_kind fun k =>
    if k = .stop then return ()
    else modify fun c => { c with position := c.position + 1, left := c.position :: c.left }
  cases hunread : p.unread with
  | nil =>
      have hstop : p.kind = .stop := by rw [Place.kind, Place.current, hunread]; rfl
      have hplace : p.forward = p := by rw [Place.forward, hunread]
      rw [if_pos hstop] at hforward
      exact ⟨c, hforward, hplace.symm ▸ h⟩
  | cons t more =>
      have hkind : p.kind = t.kind := by rw [Place.kind, Place.current, hunread]; rfl
      by_cases hstop : t.kind = .stop
      · have hplace : p.forward = p := by
          rw [Place.forward, hunread]
          exact if_pos hstop
        rw [if_pos (hkind.trans hstop)] at hforward
        exact ⟨c, hforward, hplace.symm ▸ h⟩
      · have hplace : p.forward = ⟨t :: p.read, more⟩ := by
          rw [Place.forward, hunread]
          exact if_neg hstop
        rw [if_neg (hkind ▸ hstop)] at hforward
        refine ⟨_, hforward, ?_⟩
        rw [hplace]
        refine ⟨h.tokens, ?_, ?_, ?_⟩
        · simpa [hunread] using h.split
        · exact congrArg (· + 1) h.position
        · exact List.forall_mem_cons.mpr ⟨h.inBounds.position, h.left⟩

end At

section Leads

variable {α : Type} {ts : List Token} {p : Place} {P : Except Fault α × Cursor → Prop}

theorem leads_bind_of {β : Type} {m : Reader β} {b : β} {f : β → Reader α}
    (hm : ∀ c, At ts p c → m.on c = (.ok b, c)) (h : Leads ts p (f b) P) :
    Leads ts p (m >>= f) P := by
  intro c hc
  rw [Reader.on_bind_ok (hm c hc)]
  exact h c hc

theorem leads_kind_bind {f : Token.Kind → Reader α} (h : Leads ts p (f p.kind) P) :
    Leads ts p (kind >>= f) P :=
  leads_bind_of (fun _ hc => hc.on_kind) h

theorem leads_kindAfter_bind {f : Token.Kind → Reader α} (h : Leads ts p (f p.kindAfter) P) :
    Leads ts p (kindAfter >>= f) P :=
  leads_bind_of (fun _ hc => hc.on_kindAfter) h

theorem leads_span_bind {f : Span → Reader α} (h : Leads ts p (f p.span) P) :
    Leads ts p (span >>= f) P :=
  leads_bind_of (fun _ hc => hc.on_span) h

theorem leads_spanBefore_bind {f : Span → Reader α} (h : Leads ts p (f p.spanBefore) P) :
    Leads ts p (spanBefore >>= f) P :=
  leads_bind_of (fun _ hc => hc.on_spanBefore) h

theorem leads_forward_bind {f : Unit → Reader α} (h : Leads ts p.forward (f ()) P) :
    Leads ts p (forward >>= f) P := by
  intro c hc
  obtain ⟨c', hforward, hc'⟩ := hc.on_forward
  rw [Reader.on_bind_ok hforward]
  exact h c' hc'

theorem leads_takes_bind {k : Token.Kind} {f : Bool → Reader α}
    (hyes : p.kind = k → Leads ts p.forward (f true) P)
    (hno : p.kind ≠ k → Leads ts p (f false) P) : Leads ts p (takes k >>= f) P := by
  rw [takes, bind_assoc]
  apply leads_kind_bind
  split
  · rename_i hk
    rw [bind_assoc]
    exact leads_forward_bind (hyes hk)
  · rename_i hk
    exact hno hk

end Leads

section Follows

variable {α β : Type} {ts : List Token} {p : Place} {m : Reader α} {f : α → Reader β}

theorem follows_pure (a : α) : Follows ts p (pure a) (.ok (a, p)) := fun _ hc => .ok a hc

theorem follows_reject (e : ReadError) : Follows (α := α) ts p (reject e) (.error e) :=
  fun _ hc => .error e hc.inBounds

theorem follows_forward : Follows ts p forward (.ok ((), p.forward)) := by
  intro c hc
  obtain ⟨c', hforward, hc'⟩ := hc.on_forward
  rw [hforward]
  exact .ok () hc'

theorem follows_mismatch (expected : ReadError.Expected) :
    Follows (α := α) ts p (mismatch expected) (.error (p.mismatch expected)) :=
  leads_kind_bind (leads_span_bind (follows_reject _))

theorem Follows.bind_leads {x : Except ReadError (α × Place)} {P : Except Fault β × Cursor → Prop}
    (h : Follows ts p m x) (hok : ∀ a p', x = .ok (a, p') → Leads ts p' (f a) P)
    (herror : ∀ e c, x = .error e → InBounds ts c → P (.error (.rejected e), c)) :
    Leads ts p (m >>= f) P := by
  intro c hc
  have hm := h c hc
  generalize hresult : m.on c = result at hm
  cases hm with
  | ok a hc' =>
      rw [Reader.on_bind_ok hresult]
      exact hok a _ rfl _ hc'
  | error e hc' =>
      rw [Reader.on_bind_error hresult]
      exact herror e _ rfl hc'

theorem Follows.bind {x : Except ReadError (α × Place)}
    {g : α × Place → Except ReadError (β × Place)} (h : Follows ts p m x)
    (hnext : ∀ a p', x = .ok (a, p') → Follows ts p' (f a) (g (a, p'))) :
    Follows ts p (m >>= f) (x >>= g) := by
  refine h.bind_leads ?_ ?_
  · rintro a p' rfl
    exact hnext a p' rfl
  · rintro e c rfl hc
    exact .error e hc

theorem follows_takes_bind {k : Token.Kind} {f : Bool → Reader β}
    {x y : Except ReadError (β × Place)} (hyes : p.kind = k → Follows ts p.forward (f true) x)
    (hno : Follows ts p (f false) y) :
    Follows ts p (takes k >>= f) (if p.kind = k then x else y) := by
  apply leads_takes_bind
  · intro hk
    rw [if_pos hk]
    exact hyes hk
  · intro hk
    rwa [if_neg hk]

theorem follows_demand (k : Token.Kind) (hk : k ≠ .stop) :
    Follows ts p (demand k) (Place.Step.pair <$> p.demand k hk) := by
  rw [Place.demand_step]
  apply leads_kind_bind
  split
  · exact follows_forward
  · exact follows_mismatch _

theorem follows_demandName (expected : ReadError.Expected) :
    Follows ts p (demandName expected) (Place.Step.pair <$> p.demandName expected) := by
  rw [Place.demandName_step]
  apply leads_kind_bind
  cases p.kind with
  | name value => exact leads_forward_bind (follows_pure value)
  | _ => exact follows_mismatch _

theorem follows_require_bind {x : Except ReadError α} {g : α → Except ReadError (β × Place)}
    (h : ∀ a, Follows ts p (f a) (g a)) : Follows ts p (require x >>= f) (x >>= g) := by
  cases x with
  | error e => exact follows_reject e
  | ok a => exact h a

theorem yields_pure (a : α) : Yields ts p (pure a) (.ok a) := fun c hc => ⟨c, rfl, hc.inBounds⟩

theorem yields_reject (e : ReadError) : Yields (α := α) ts p (reject e) (.error e) :=
  fun c hc => ⟨c, rfl, hc.inBounds⟩

theorem Follows.bind_yields {x : Except ReadError (α × Place)} {g : α × Place → Except ReadError β}
    (h : Follows ts p m x)
    (hnext : ∀ a p', x = .ok (a, p') → Yields ts p' (f a) (g (a, p'))) :
    Yields ts p (m >>= f) (x >>= g) := by
  refine h.bind_leads ?_ ?_
  · rintro a p' rfl
    exact hnext a p' rfl
  · rintro e c rfl hc
    exact ⟨c, rfl, hc⟩

theorem yields_require_bind {x : Except ReadError α} {g : α → Except ReadError β}
    (h : ∀ a, Yields ts p (f a) (g a)) : Yields ts p (require x >>= f) (x >>= g) := by
  cases x with
  | error e => exact yields_reject e
  | ok a => exact h a

theorem yields_demandEnd_bind {f : Unit → Reader β} {g : Unit → Except ReadError β}
    (h : Yields ts p (f ()) (g ())) : Yields ts p (demandEnd >>= f) (p.demandEnd >>= g) := by
  rw [demandEnd, bind_assoc, Place.demandEnd]
  apply leads_kind_bind
  split
  · exact h
  · refine (follows_mismatch .endOfList).bind_yields (g := fun x => g x.1) ?_
    intro _ _ he
    cases he

end Follows

end Cursor

end NodeRules
