import NodeRules.Proofs.Disk.Places
import NodeRules.Proofs.Results

namespace NodeRules

theorem textOf_ok_iff {bytes : Array UInt8} {text : String} :
    textOf ⟨bytes⟩ = .ok text ↔ bytes = text.toUTF8.data := by
  rw [textOf, String.fromUTF8?]
  constructor
  · intro h
    split at h
    · rename_i s hs
      split at hs
      · cases h
        cases hs
        rfl
      · cases hs
    · cases h
  · rintro rfl
    have hvalid : (ByteArray.mk text.toUTF8.data).IsValidUTF8 := text.isValidUTF8
    rw [dif_pos hvalid]
    rfl

namespace Disk

def contentAt? (d : Disk) (l : Location) : Option (Array UInt8) :=
  match d.item? l with
  | some (.file bytes) => some bytes
  | _ => none

/-- Directories have been added, and nothing else has changed. -/
structure Grows (d d' : Disk) : Prop where
  workDirectory_eq : d'.workDirectory = d.workDirectory
  item? : ∀ l, d'.item? l = d.item? l ∨ (d.item? l = none ∧ d'.item? l = some .directory)

/-- No directory has been lost, so that paths can still be followed. -/
structure Keeps (d d' : Disk) : Prop where
  workDirectory_eq : d'.workDirectory = d.workDirectory
  directory : ∀ l, d.item? l = some .directory → d'.item? l = some .directory

variable {d d' d'' : Disk} {l : Location} {path content : String}

theorem lookup_filter_ne {items : List (Location × Item)} {other : Location} (h : other ≠ l) :
    (items.filter (·.1 != l)).lookup other = items.lookup other := by
  induction items with
  | nil => rfl
  | cons item items ih =>
      obtain ⟨first, value⟩ := item
      by_cases hfirst : first = l
      · have hother : (other == l) = false := by simpa using h
        simp [hfirst, ih, List.lookup_cons, hother]
      · simp [hfirst, List.lookup_cons, ih]

theorem item?_put (d : Disk) (hl : l ≠ []) (item : Item) (other : Location) :
    (d.put l item).item? other = if other = l then some item else d.item? other := by
  by_cases ho : other = l
  · simp [item?, put, ho, hl]
  · have hother : (other == l) = false := by simpa using ho
    simp [item?, put, ho, List.lookup_cons, hother, lookup_filter_ne ho]

namespace Grows

theorem refl (d : Disk) : d.Grows d := ⟨rfl, fun _ => .inl rfl⟩

theorem trans (h : d.Grows d') (h' : d'.Grows d'') : d.Grows d'' := by
  refine ⟨h'.workDirectory_eq.trans h.workDirectory_eq, fun l => ?_⟩
  rcases h.item? l with he | ⟨hnone, he⟩
  · rw [← he]
    exact h'.item? l
  · rcases h'.item? l with he' | ⟨hnone', -⟩
    · exact .inr ⟨hnone, he'.trans he⟩
    · rw [he] at hnone'
      cases hnone'

theorem put (hl : l ≠ []) (h : d.item? l = none) : d.Grows (d.put l .directory) := by
  refine ⟨rfl, fun other => ?_⟩
  rw [item?_put d hl]
  by_cases ho : other = l
  · exact .inr ⟨ho ▸ h, if_pos ho⟩
  · exact .inl (if_neg ho)

theorem contentAt?_eq (h : d.Grows d') (l : Location) : d'.contentAt? l = d.contentAt? l := by
  rcases h.item? l with he | ⟨hnone, he⟩
  · rw [contentAt?, contentAt?, he]
  · rw [contentAt?, contentAt?, he, hnone]

theorem keeps (h : d.Grows d') : d.Keeps d' := by
  refine ⟨h.workDirectory_eq, fun l hl => ?_⟩
  rcases h.item? l with he | ⟨hnone, -⟩
  · rw [he, hl]
  · rw [hl] at hnone
    cases hnone

end Grows

namespace Keeps

theorem trans (h : d.Keeps d') (h' : d'.Keeps d'') : d.Keeps d'' :=
  ⟨h'.workDirectory_eq.trans h.workDirectory_eq, fun l hl => h'.directory l (h.directory l hl)⟩

theorem start_eq (h : d.Keeps d') (path : String) : d'.start path = d.start path := by
  rw [start, start, h.workDirectory_eq]

theorem place_eq (h : d.Keeps d') (path : String) : d'.place path = d.place path := by
  rw [place, place, h.start_eq]

theorem follow (h : d.Keeps d') {l l' : Location} {parts : List String}
    (hfollow : d.follow l parts = .ok l') : d'.follow l parts = .ok l' := by
  fun_induction Disk.follow d l parts with
  | case1 => exact hfollow
  | case2 => cases hfollow
  | case3 => cases hfollow
  | case4 l part parts hdir hstay ih =>
      rw [Disk.follow, h.directory l hdir]
      simpa [hstay] using ih hfollow
  | case5 l parts hdir hstay ih =>
      rw [Disk.follow, h.directory l hdir]
      simpa using ih hfollow
  | case6 => cases hfollow
  | case7 l part parts hdir hstay hup hshort ih =>
      rw [Disk.follow, h.directory l hdir]
      simpa [hstay, hup, hshort] using ih hfollow

theorem locate (h : d.Keeps d') (hlocate : d.locate path = .ok l) : d'.locate path = .ok l := by
  rw [Disk.locate] at hlocate ⊢
  split at hlocate
  · cases hlocate
  · rename_i hne
    rw [if_neg hne]
    split at hlocate
    · cases hlocate
    · rw [h.start_eq]
      exact h.follow hlocate

end Keeps

theorem read_ok_iff :
    d.read path = .ok content ↔
      d.locate path = .ok (d.place path) ∧
        d.contentAt? (d.place path) = some content.toUTF8.data := by
  rw [read]
  cases hlocate : d.locate path with
  | error fault => simp [bind, Except.bind]
  | ok l =>
      rw [← locate_ok hlocate, contentAt?]
      simp only [bind, Except.bind]
      cases d.item? l with
      | none => simp [throw, throwThe, MonadExceptOf.throw]
      | some item =>
          cases item with
          | directory => simp [throw, throwThe, MonadExceptOf.throw]
          | file bytes => simp [textOf_ok_iff]

theorem Keeps.read (h : d.Keeps d')
    (hsame : d'.contentAt? (d.place path) = d.contentAt? (d.place path))
    (hread : d.read path = .ok content) : d'.read path = .ok content := by
  obtain ⟨hlocate, hcontent⟩ := read_ok_iff.mp hread
  rw [read_ok_iff, h.place_eq]
  exact ⟨h.locate hlocate, hsame.trans hcontent⟩

theorem makeDirectory_ok {parts : List String} (h : d.makeDirectory l parts = .ok d') :
    d.Grows d' := by
  cases parts with
  | nil => cases h
  | cons part above =>
      obtain ⟨l', -, h⟩ := bind_ok h
      split at h
      · cases h
      · cases h
      · split at h
        · cases h
        · split at h
          · cases h
          · rename_i hfree
            cases h
            rw [not_or, Option.not_isSome_iff_eq_none] at hfree
            exact .put (by simp) hfree.2

theorem makeDirectories_grows (d : Disk) (l : Location) (parts : List String) :
    d.Grows (d.makeDirectories l parts).2 := by
  induction parts generalizing d with
  | nil => exact .refl d
  | cons part above ih =>
      rw [makeDirectories]
      split
      · exact makeDirectory_ok ‹_›
      · split
        · rename_i e d' hrest
          have hgrows := ih d
          rwa [hrest] at hgrows
        · rename_i d' hrest
          have hgrows := ih d
          rw [hrest] at hgrows
          split
          · exact hgrows.trans (makeDirectory_ok ‹_›)
          · exact hgrows
      · exact .refl d

theorem makeParent_grows (d : Disk) (path : String) : d.Grows (d.makeParent path).2 := by
  rw [makeParent]
  split
  · exact .refl d
  · exact makeDirectories_grows d _ _

/-- What writing a file can lead to. -/
inductive Writes (d : Disk) (path content : String) : Except FileFault Unit → Disk → Prop
  | failed {fault : FileFault} {d' : Disk} (hgrows : d.Grows d') :
      Writes d path content (.error fault) d'
  | written {mid : Disk} (hgrows : d.Grows mid) (hlocate : mid.locate path = .ok (mid.place path))
      (hfree : mid.item? (mid.place path) ≠ some .directory) :
      Writes d path content (.ok ()) (mid.put (mid.place path) (.file content.toUTF8.data))

theorem write_writes {result : Except FileFault Unit} (h : d.write path content = (result, d')) :
    d.Writes path content result d' := by
  have hgrows := makeParent_grows d path
  rw [write] at h
  split at h
  · rename_i fault mid hparent
    cases h
    rw [hparent] at hgrows
    exact .failed hgrows
  · rename_i mid hparent
    rw [hparent] at hgrows
    split at h
    · cases h
      exact .failed hgrows
    · rename_i l hlocate
      obtain rfl := locate_ok hlocate
      rw [writeAt] at h
      split at h
      · cases h
        exact .failed hgrows
      · rename_i hfree
        cases h
        exact .written hgrows hlocate hfree

theorem ne_root (hfree : d.item? l ≠ some .directory) : l ≠ [] := by
  rintro rfl
  exact hfree rfl

theorem keeps_put (hfree : d.item? l ≠ some .directory) (bytes : Array UInt8) :
    d.Keeps (d.put l (.file bytes)) := by
  refine ⟨rfl, fun other hother => ?_⟩
  rw [item?_put d (ne_root hfree), if_neg]
  · exact hother
  · rintro rfl
    exact hfree hother

theorem contentAt?_put (hfree : d.item? l ≠ some .directory) (bytes : Array UInt8)
    (other : Location) : (d.put l (.file bytes)).contentAt? other =
      if other = l then some bytes else d.contentAt? other := by
  rw [contentAt?, item?_put d (ne_root hfree)]
  by_cases ho : other = l
  · rw [if_pos ho, if_pos ho]
  · rw [if_neg ho, if_neg ho, contentAt?]

end Disk

end NodeRules
