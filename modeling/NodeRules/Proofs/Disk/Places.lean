import Mathlib.Data.List.Basic
import NodeRules.Disk

namespace NodeRules

namespace Path

theorem split_ne_nil (cs : List Char) : split cs ≠ [] := by
  cases cs with
  | nil => simp [split]
  | cons c cs =>
      rw [split]
      split
      · simp
      · split <;> simp

theorem split_slash (cs rest : List Char) : split (cs ++ '/' :: rest) = split cs ++ split rest := by
  induction cs with
  | nil => simp [split]
  | cons c cs ih =>
      by_cases hc : c = '/'
      · simp [split, hc, ih]
      · obtain ⟨part, parts, hparts⟩ := List.exists_cons_of_ne_nil (split_ne_nil cs)
        simp [split, hc, ih, hparts]

theorem split_name {cs : List Char} (h : '/' ∉ cs) : split cs = [cs] := by
  induction cs with
  | nil => rfl
  | cons c cs ih =>
      simp only [List.mem_cons, not_or] at h
      simp [split, Ne.symm h.1, ih h.2]

theorem isAbsolute_append {path : String} (h : path ≠ "") (rest : String) :
    isAbsolute (path ++ rest) = isAbsolute path := by
  obtain ⟨c, cs, hcs⟩ := List.exists_cons_of_ne_nil (fun he => h (String.toList_eq_nil_iff.mp he))
  simp [isAbsolute, hcs]

theorem join_append {path : String} (h : path ≠ "") (directory rest : String) :
    join directory (path ++ rest) = join directory path ++ rest := by
  rw [join, join, isAbsolute_append h]
  split
  · rfl
  · split
    · rw [String.append_assoc]
    · rw [String.append_assoc, String.append_assoc, String.append_assoc]

theorem exists_join_slash (directory : String) {path : String} {cs : List Char}
    (h : path.toList = cs ++ ['/']) :
    ∃ front, (join directory path).toList = front ++ ['/'] := by
  rw [join]
  split
  · exact ⟨cs, h⟩
  · split
    · exact ⟨directory.toList ++ cs, by simp [h]⟩
    · exact ⟨directory.toList ++ '/' :: cs, by simp [h]⟩

end Path

namespace Disk

def Location.enter (l : Location) (part : String) : Location :=
  if part = "" ∨ part = "." then l else if part = ".." then l.dropLast else l ++ [part]

/-- Where a path leads, if it can be followed. -/
def place (d : Disk) (path : String) : Location :=
  (Path.parts path).foldl Location.enter (d.start path)

variable {d : Disk} {l l' : Location}

theorem follow_ok {parts : List String} (h : d.follow l parts = .ok l') :
    l' = parts.foldl Location.enter l := by
  fun_induction follow d l parts with
  | case1 => cases h; rfl
  | case2 => cases h
  | case3 => cases h
  | case4 l part parts _ hstay ih =>
      rw [List.foldl_cons, Location.enter, if_pos hstay]
      exact ih h
  | case5 l parts _ hstay ih =>
      rw [List.foldl_cons, Location.enter, if_neg hstay, if_pos rfl]
      exact ih h
  | case6 => cases h
  | case7 l part parts _ hstay hup _ ih =>
      rw [List.foldl_cons, Location.enter, if_neg hstay, if_neg hup]
      exact ih h

theorem locate_ok {path : String} (h : d.locate path = .ok l) : l = d.place path := by
  rw [locate] at h
  split at h
  · cases h
  · split at h
    · cases h
    · exact follow_ok h

/-- Names behind a directory lead below the place of the directory. -/
theorem exists_place_join (d : Disk) (directory : String) {path : String} {cs : List Char}
    (hpath : path.toList = cs ++ ['/']) :
    ∃ base : Location, ∀ inner name : String, '/' ∉ inner.toList → '/' ∉ name.toList →
      inner ∉ ["", ".", ".."] → name ∉ ["", ".", ".."] →
        d.place (Path.join directory (path ++ (inner ++ "/" ++ name))) = base ++ [inner, name] := by
  have hne : path ≠ "" := by
    rintro rfl
    simp at hpath
  obtain ⟨front, hfront⟩ := Path.exists_join_slash directory hpath
  have hjoin : Path.join directory path ≠ "" := by
    intro he
    simp [he] at hfront
  refine ⟨((Path.split front).map String.ofList).foldl Location.enter
    (d.start (Path.join directory path)), ?_⟩
  intro inner name hinner hname hinner' hname'
  have hparts : Path.parts (Path.join directory path ++ (inner ++ "/" ++ name)) =
      (Path.split front).map String.ofList ++ [inner, name] := by
    have hlist : (Path.join directory path ++ (inner ++ "/" ++ name)).toList =
        front ++ '/' :: (inner.toList ++ '/' :: name.toList) := by simp [hfront]
    rw [Path.parts, hlist, Path.split_slash, Path.split_slash, Path.split_name hinner,
      Path.split_name hname]
    simp
  simp only [List.mem_cons, List.not_mem_nil, or_false, not_or] at hinner' hname'
  rw [place, Path.join_append hne, hparts, start, start, Path.isAbsolute_append hjoin,
    List.foldl_append]
  simp [Location.enter, hinner', hname']

end Disk

end NodeRules
