import Scss.FileTree
import Scss.Proofs.Cleaning

/-!
# Locations of cleaned paths

A path is followed segment by segment: an empty one and `.` stay, `..` goes up, and a name goes
down. At the root, going up stays. `UrlPath.clean` writes a path in the one way that has no segment
too many, and the new path is followed to the same location from every directory.

Nothing has to be known of a directory that the path is followed from, but that going down and up
again comes back. So this holds for the locations of a file tree as it does for the stack of
segments that cleaning itself keeps (`IsWay`).
-/

namespace Scss

namespace UrlPath

open Text

/-! ## Following a path -/

/-- Goes from a directory through one segment. -/
def goThrough (location : Location) (segment : List Char) : Location :=
  if segment = [] ∨ segment = ['.'] then location
  else if segment = ['.', '.'] then location.dropLast
  else location ++ [String.ofList segment]

/-- The location that a path leads to from a directory. -/
def destination (directory : Location) (path : List Char) : Location :=
  follow goThrough (if isAbsolute path then [] else directory) path

theorem isWay_goThrough : IsWay goThrough where
  idle h := if_pos h
  back hname hup := by
    have hdown : ∀ location : Location, ∀ name, ¬ IsIdle name → name ≠ ['.', '.'] →
        goThrough location name = location ++ [String.ofList name] :=
      fun location name hname hup => (if_neg hname).trans (if_neg hup)
    rw [hdown _ _ hname hup]
    simp [goThrough]

/-- **A cleaned path leads where the path leads.** -/
theorem destination_cleanChars (directory : Location) (path : List Char) :
    destination directory (cleanChars path) = destination directory path := by
  rw [destination, destination, isAbsolute_cleanChars]
  refine isWay_goThrough.follow_cleanChars fun habsolute => ?_
  rw [if_pos habsolute]
  rfl

/-- **Behind a directory, a relative path leads where it leads once it is cleaned.** -/
theorem destination_append_cleanChars {x y : List Char} (hx : IsDirectory x)
    (hrelative : isAbsolute y = false) (directory : Location) :
    destination directory (x ++ cleanChars y) = destination directory (x ++ y) := by
  have hclean : isAbsolute (cleanChars y) = false := (isAbsolute_cleanChars y).trans hrelative
  have habsolute : isAbsolute (x ++ cleanChars y) = isAbsolute (x ++ y) := by
    by_cases hnil : x = []
    · rw [hnil]
      exact hclean.trans hrelative.symm
    · rw [isAbsolute_append _ hnil, isAbsolute_append _ hnil]
  rw [destination, destination, habsolute, isWay_goThrough.follow_append _ hx,
    isWay_goThrough.follow_append _ hx,
    isWay_goThrough.follow_cleanChars fun h => absurd h (hrelative ▸ Bool.false_ne_true)]

/-! ## Paths without a segment too many -/

/-- A path that is written without detours. What stands between two of its slashes is neither
nothing nor `.`, and it goes up only at its beginning and never from the root. -/
structure IsClean (path : List Char) : Prop where
  /-- There is nothing only in front of a slash at the beginning and behind one at the end. -/
  noEmpty : ∀ front back, splitAt '/' path = front ++ [] :: back → front = [] ∨ back = []
  noDot : ['.'] ∉ splitAt '/' path
  upsInFront : ∀ front back, splitAt '/' path = front ++ ['.', '.'] :: back →
    ∀ s ∈ front, s = ['.', '.']
  noUps : isAbsolute path = true → ['.', '.'] ∉ splitAt '/' path

/-- Below the names that have been entered, there are only steps upwards, and none at the root. -/
theorem exists_ups (absolute : Bool) (pieces : List (List Char)) : ∃ (ups : Nat) (names : List (List Char)),
    pieces.foldl (enter absolute) [] = names ++ List.replicate ups ['.', '.'] ∧
      ['.', '.'] ∉ names ∧ (absolute = true → ups = 0) := by
  induction pieces using List.reverseRecOn with
  | nil => exact ⟨0, [], rfl, List.not_mem_nil, fun _ => rfl⟩
  | append_singleton front piece ih =>
      obtain ⟨ups, names, hstack, hnames, hroot⟩ := ih
      rw [List.foldl_append, List.foldl_cons, List.foldl_nil, hstack]
      by_cases hidle : IsIdle piece
      · exact ⟨ups, names, enter_idle hidle, hnames, hroot⟩
      -- a step upwards leaves the last name; where there is none, it is kept, unless at the root
      by_cases hup : piece = ['.', '.']
      · subst hup
        cases names with
        | cons last outer =>
            obtain ⟨hlast, houter⟩ := not_or.mp (List.mem_cons.not.mp hnames)
            exact ⟨ups, outer, enter_up_name (Ne.symm hlast), houter, hroot⟩
        | nil =>
            cases ups with
            | zero =>
                cases absolute with
                | true => exact ⟨0, [], rfl, List.not_mem_nil, fun _ => rfl⟩
                | false => exact ⟨1, [], rfl, List.not_mem_nil, fun h => absurd h Bool.false_ne_true⟩
            | succ ups =>
                exact ⟨ups + 2, [], enter_up_up, List.not_mem_nil,
                  fun h => absurd (hroot h) (Nat.succ_ne_zero ups)⟩
      · refine ⟨ups, piece :: names, enter_name hidle hup, ?_, hroot⟩
        exact List.mem_cons.not.mpr (not_or.mpr ⟨Ne.symm hup, hnames⟩)

theorem segments_shape (path : List Char) : ∃ (ups : Nat) (names : List (List Char)),
    segments path = List.replicate ups ['.', '.'] ++ names ∧ ['.', '.'] ∉ names ∧
      (isAbsolute path = true → ups = 0) := by
  obtain ⟨ups, names, hstack, hnames, hroot⟩ := exists_ups (isAbsolute path) (splitAt '/' path)
  refine ⟨ups, names.reverse, ?_, fun h => hnames (List.mem_reverse.mp h), hroot⟩
  rw [segments, hstack, List.reverse_append, List.reverse_replicate]

theorem not_isIdle_of_mem_segments {path segment : List Char} (h : segment ∈ segments path) :
    ¬ IsIdle segment :=
  (mem_foldl_enter (List.mem_reverse.mp h)).2

/-- Between the slashes of a cleaned path stand the segments that are kept. -/
theorem splitAt_cleanChars (path : List Char) : ∃ closing : List (List Char),
    (closing = [] ∨ closing = [[]]) ∧ splitAt '/' (cleanChars path) =
      (if isAbsolute path then [[]] else []) ++ (segments path ++ closing) := by
  have hopening : ∀ x, splitAt '/' (root path ++ x) =
      (if isAbsolute path then [[]] else []) ++ splitAt '/' x := by
    intro x
    unfold root
    split
    · exact splitAt_append_cons [] x
    · rfl
  rw [cleanChars_eq, hopening]
  by_cases hnil : segments path = []
  · exact ⟨[[]], Or.inr rfl, by rw [hnil, close_eq_nil hnil]; rfl⟩
  have hjoined := splitAt_intercalate hnil fun s (hs : s ∈ segments path) => not_mem_of_mem_segments hs
  have hclose : close path = [] ∨ close path = ['/'] := by
    unfold close
    split
    · exact Or.inr rfl
    · exact Or.inl rfl
  rcases hclose with hclose | hclose
  · refine ⟨[], Or.inl rfl, ?_⟩
    rw [hclose, List.append_nil, List.append_nil, hjoined]
  · refine ⟨[[]], Or.inr rfl, ?_⟩
    rw [hclose, splitAt_append_cons, hjoined]
    rfl

/-- What is at most one piece behind others that differ from it ends the list. -/
theorem eq_nil_of_append_eq {front back kept closing : List (List Char)}
    (h : kept ++ closing = front ++ [] :: back) (hkept : [] ∉ kept)
    (hclosing : closing = [] ∨ closing = [[]]) : back = [] := by
  have hends : ∀ t, closing = t ++ [] :: back → back = [] := by
    rintro t rfl
    rcases hclosing with hclosing | hclosing
    · simp at hclosing
    · have hlength := congrArg List.length hclosing
      simp only [List.length_append, List.length_cons, List.length_nil] at hlength
      exact List.length_eq_zero_iff.mp (by omega)
  rcases List.append_eq_append_iff.mp h with ⟨t, -, hback⟩ | ⟨t, hfront, hback⟩
  · exact hends t hback
  · cases t with
    | nil => exact hends [] hback.symm
    | cons piece t =>
        obtain ⟨rfl, -⟩ := List.cons.inj hback
        exact absurd (hfront ▸ List.mem_append_right front List.mem_cons_self) hkept

/-- Between its slashes, nothing stands in a cleaned path but those segments. -/
theorem mem_segments_of_mem_splitAt {path s : List Char} (hs : s ≠ [])
    (h : s ∈ splitAt '/' (cleanChars path)) : s ∈ segments path := by
  obtain ⟨closing, hclosing, hpieces⟩ := splitAt_cleanChars path
  rw [hpieces] at h
  rcases List.mem_append.mp h with h | h
  · split at h
    · exact absurd (List.mem_singleton.mp h) hs
    · exact absurd h List.not_mem_nil
  rcases List.mem_append.mp h with h | h
  · exact h
  · rcases hclosing with rfl | rfl
    · exact absurd h List.not_mem_nil
    · exact absurd (List.mem_singleton.mp h) hs

/-- From the root nothing goes up. -/
theorem ups_notMem_of_isAbsolute {path : List Char} (h : isAbsolute path = true) :
    ['.', '.'] ∉ splitAt '/' (cleanChars path) := by
  intro hmem
  obtain ⟨ups, names, hsegments, hnames, hroot⟩ := segments_shape path
  have hmem := mem_segments_of_mem_splitAt (List.cons_ne_nil _ _) hmem
  rw [hsegments, hroot h] at hmem
  exact hnames hmem

/-- From elsewhere it goes up first of all. -/
theorem eq_ups_of_isRelative {path : List Char} (h : isAbsolute path = false)
    {front back : List (List Char)}
    (hpieces : splitAt '/' (cleanChars path) = front ++ ['.', '.'] :: back) :
    ∀ s ∈ front, s = ['.', '.'] := by
  obtain ⟨closing, hclosing, hsplit⟩ := splitAt_cleanChars path
  obtain ⟨ups, names, hsegments, hnames, -⟩ := segments_shape path
  have hbehind : ['.', '.'] ∉ names ++ closing := by
    intro hmem
    rcases List.mem_append.mp hmem with hmem | hmem
    · exact hnames hmem
    · rcases hclosing with rfl | rfl
      · exact List.not_mem_nil hmem
      · exact List.cons_ne_nil _ _ (List.mem_singleton.mp hmem)
  have hups : List.replicate ups ['.', '.'] ++ (names ++ closing) = front ++ ['.', '.'] :: back := by
    rw [← hpieces, hsplit, h, hsegments, List.append_assoc]
    rfl
  intro s hs
  rcases List.append_eq_append_iff.mp hups with ⟨t, -, hback⟩ | ⟨t, hfront, -⟩
  · exact absurd (hback ▸ List.mem_append_right t List.mem_cons_self) hbehind
  · exact List.eq_of_mem_replicate (hfront ▸ List.mem_append_left t hs)

/-- **A cleaned path has no detours.** -/
theorem isClean_cleanChars (path : List Char) : IsClean (cleanChars path) where
  noEmpty front back h := by
    obtain ⟨closing, hclosing, hpieces⟩ := splitAt_cleanChars path
    have hempty : [] ∉ segments path := fun h => not_isIdle_of_mem_segments h (Or.inl rfl)
    rw [hpieces] at h
    split at h
    · cases front with
      | nil => exact Or.inl rfl
      | cons first front =>
          rw [List.singleton_append, List.cons_append] at h
          exact Or.inr (eq_nil_of_append_eq (List.cons.inj h).2 hempty hclosing)
    · rw [List.nil_append] at h
      exact Or.inr (eq_nil_of_append_eq h hempty hclosing)
  noDot h :=
    not_isIdle_of_mem_segments (mem_segments_of_mem_splitAt (List.cons_ne_nil _ _) h) (Or.inr rfl)
  upsInFront front back h := by
    cases habsolute : isAbsolute path with
    | false => exact eq_ups_of_isRelative habsolute h
    | true =>
        refine absurd ?_ (ups_notMem_of_isAbsolute habsolute)
        exact h ▸ List.mem_append_right front List.mem_cons_self
  noUps h := ups_notMem_of_isAbsolute ((isAbsolute_cleanChars path).symm.trans h)

/--
**Cleaning a path moves nothing.**

A cleaned path is clean, and cleaning it again changes nothing: it has no empty segment and no `.`, and
`..` only at its beginning and not at all if it is absolute, which it is if the path is. It leads to
the same location as the path from every directory. And behind a directory, which is nothing or ends
with a slash, a relative path can be cleaned before the whole is: this leads to the same location too.
-/
theorem clean_moves_nothing (path : String) :
    clean (clean path) = clean path ∧ IsClean (clean path).toList ∧
    isAbsolute (clean path).toList = isAbsolute path.toList ∧
    (∀ directory, destination directory (clean path).toList = destination directory path.toList) ∧
    (isAbsolute path.toList = false → ∀ base : String, IsDirectory base.toList → ∀ directory,
      destination directory (clean (base ++ clean path)).toList =
        destination directory (clean (base ++ path)).toList) := by
  refine ⟨clean_clean path, ?_, ?_, fun directory => ?_, fun hrelative base hbase directory => ?_⟩
  · rw [toList_clean]
    exact isClean_cleanChars path.toList
  · rw [toList_clean]
    exact isAbsolute_cleanChars path.toList
  · rw [toList_clean]
    exact destination_cleanChars directory path.toList
  · rw [toList_clean, toList_clean, destination_cleanChars, destination_cleanChars,
      String.toList_append, String.toList_append, toList_clean,
      destination_append_cleanChars hbase hrelative]

/-- From the directory `w`, the path `a/./../../b/` behind `x/` leads to `w/b`. -/
theorem upAndDown_moves_nothing : isAbsolute "a/./../../b/".toList = false ∧ IsDirectory "x/".toList ∧
    destination ["w"] (clean ("x/" ++ clean "a/./../../b/")).toList = ["w", "b"] := by
  have hbase : IsDirectory "x/".toList := Or.inr ⟨['x'], by decide⟩
  refine ⟨by decide, hbase, ?_⟩
  rw [(clean_moves_nothing "a/./../../b/").2.2.2.2 (by decide) "x/" hbase]
  decide

example : clean "/x/../../y//" = "/y/" := by decide

end UrlPath

/-! ## In a file tree -/

namespace FileTree

open UrlPath

/-- A file tree goes through its directories in this way. -/
theorem step_eq (tree : FileTree) (location : Location) (segment : List Char) :
    tree.step location segment =
      if tree.isDirectoryAt location then some (goThrough location segment) else none := by
  cases hdirectory : tree.isDirectoryAt location with
  | false => simp [step, hdirectory]
  | true =>
      by_cases hidle : segment = [] ∨ segment = ['.']
      · simp [step, goThrough, Path.isIdle, hdirectory, hidle]
      · by_cases hup : segment = ['.', '.']
        · simp [step, goThrough, Path.isIdle, hdirectory, hup]
        · simp [step, goThrough, Path.isIdle, hdirectory, hidle, hup]

theorem foldl_goThrough_of_walk {tree : FileTree} {location found : Location} {pieces : List (List Char)}
    (h : tree.walk location pieces = some found) : pieces.foldl goThrough location = found := by
  induction pieces generalizing location with
  | nil => exact Option.some.inj h
  | cons segment rest ih =>
      rw [walk, step_eq] at h
      cases hdirectory : tree.isDirectoryAt location with
      | false =>
          rw [hdirectory] at h
          cases h
      | true =>
          rw [hdirectory] at h
          exact ih h

theorem destination_of_locate? {tree : FileTree} {path : String} {found : Location}
    (h : tree.locate? path = some found) : destination tree.current path.toList = found := by
  unfold locate? at h
  split at h
  · cases h
  · rw [startsWith_slash] at h
    exact foldl_goThrough_of_walk h

/-- **A cleaned path leads to the same file**, if both ways are there. -/
theorem locate?_clean {tree : FileTree} {path : String} {found cleaned : Location}
    (h : tree.locate? path = some found) (hclean : tree.locate? (clean path) = some cleaned) :
    cleaned = found := by
  rw [← destination_of_locate? h, ← destination_of_locate? hclean, toList_clean]
  exact destination_cleanChars tree.current path.toList

end FileTree

end Scss
