import Mathlib
import Scss.Resolver

/-!
# Where paths lead

`UrlPath.clean` walks along the segments of a path and keeps a stack of those that have been entered
and not left again. So what it makes of a path that goes on behind a directory depends on that stack
alone, and a part of a path can be cleaned before the whole is: a cleaned path leads wherever the
path itself leads, from any place (`foldl_enter_reverse`).

This needs that the parts meet at a slash. A path that is empty or ends with a slash is a
*directory* here, and a *leaf* is what can stand behind one without leading on: a segment that is
neither `.` nor `..`. Behind a directory a leaf stays as it is (`clean_append_leaf`), so the
directory of a cleaned path is the cleaned directory.
-/

namespace Scss

namespace Text

variable {separator : Char}

/-- A text is cut in the same way in front of a separator and behind it. -/
theorem splitAt_append_cons (front behind : List Char) :
    splitAt separator (front ++ separator :: behind) =
      splitAt separator front ++ splitAt separator behind := by
  induction front with
  | nil => simp [splitAt]
  | cons c rest ih =>
      rw [List.cons_append, splitAt, splitAt, ih]
      split
      · rfl
      · cases h : splitAt separator rest with
        | nil => exact absurd h (splitAt_ne_nil _ _)
        | cons piece pieces => rfl

/-- A text without the separator is one piece. -/
theorem splitAt_of_not_mem {piece : List Char} (h : separator ∉ piece) :
    splitAt separator piece = [piece] := by
  induction piece with
  | nil => rfl
  | cons c rest ih =>
      obtain ⟨hc, hrest⟩ := not_or.mp (List.mem_cons.not.mp h)
      rw [splitAt, if_neg (Ne.symm hc), ih hrest]

/-- Pieces without the separator are found again where they are joined by it. -/
theorem splitAt_intercalate {pieces : List (List Char)} (hne : pieces ≠ [])
    (h : ∀ piece ∈ pieces, separator ∉ piece) :
    splitAt separator (List.intercalate [separator] pieces) = pieces := by
  induction pieces with
  | nil => exact absurd rfl hne
  | cons piece rest ih =>
      obtain ⟨hpiece, hrest⟩ := List.forall_mem_cons.mp h
      cases rest with
      | nil => simpa [List.intercalate] using splitAt_of_not_mem hpiece
      | cons next rest =>
          have hjoined : List.intercalate [separator] (piece :: next :: rest) =
              piece ++ separator :: List.intercalate [separator] (next :: rest) := by
            simp [List.intercalate]
          rw [hjoined, splitAt_append_cons, splitAt_of_not_mem hpiece, ih (List.cons_ne_nil _ _) hrest]
          rfl

theorem not_mem_of_mem_splitAt {text piece : List Char} (h : piece ∈ splitAt separator text) :
    separator ∉ piece := by
  induction text generalizing piece with
  | nil =>
      obtain rfl := List.mem_singleton.mp h
      exact List.not_mem_nil
  | cons c rest ih =>
      rw [splitAt] at h
      split at h
      · rcases List.mem_cons.mp h with rfl | h
        · exact List.not_mem_nil
        · exact ih h
      next hc =>
        cases hrest : splitAt separator rest with
        | nil => exact absurd hrest (splitAt_ne_nil _ _)
        | cons first pieces =>
            rw [hrest] at h ih
            rcases List.mem_cons.mp h with rfl | h
            · exact List.mem_cons.not.mpr (not_or.mpr ⟨Ne.symm hc, ih List.mem_cons_self⟩)
            · exact ih (List.mem_cons_of_mem first h)

end Text

namespace UrlPath

open Text

/-! ## Directories and leaves -/

/-- A path that is empty or ends with a slash. -/
def IsDirectory (path : List Char) : Prop := path = [] ∨ ∃ front, path = front ++ ['/']

/-- What can stand behind a directory without leading on from it. -/
structure IsLeaf (name : List Char) : Prop where
  noSlash : '/' ∉ name
  ne_dot : name ≠ ['.']
  ne_dots : name ≠ ['.', '.']

theorem IsDirectory.nil : IsDirectory [] := Or.inl rfl

theorem IsDirectory.append {x y : List Char} (hx : IsDirectory x) (hy : IsDirectory y) :
    IsDirectory (x ++ y) := by
  obtain rfl | ⟨front, rfl⟩ := hy
  · rwa [List.append_nil]
  · exact Or.inr ⟨x ++ front, (List.append_assoc x front ['/']).symm⟩

/-- The part of a path up to its last slash is a directory, and there is no slash behind it. -/
theorem cutAfterLast_chars (path : String) :
    IsDirectory (cutAfterLast '/' path).1.toList ∧ '/' ∉ (cutAfterLast '/' path).2.toList ∧
      (cutAfterLast '/' path).1.toList ++ (cutAfterLast '/' path).2.toList = path.toList := by
  unfold cutAfterLast
  simp only [String.toList_ofList]
  refine ⟨?_, fun h => ?_, ?_⟩
  · cases h : path.toList.reverse.dropWhile (· != '/') with
    | nil => exact IsDirectory.nil
    | cons c rest =>
        have hc := List.head?_dropWhile_not (· != '/') path.toList.reverse
        rw [h] at hc
        obtain rfl : c = '/' := by simpa using hc
        exact Or.inr ⟨rest.reverse, List.reverse_cons⟩
  · have h := List.mem_takeWhile_imp (List.mem_reverse.mp h)
    simp at h
  · rw [← List.reverse_append, List.takeWhile_append_dropWhile, List.reverse_reverse]

/-- A path is cut where a directory is followed by something without a slash. -/
theorem cutAfterLast_eq {path : String} {front name : List Char} (hfront : IsDirectory front)
    (hname : '/' ∉ name) (h : path.toList = front ++ name) :
    cutAfterLast '/' path = (String.ofList front, String.ofList name) := by
  have hall : ∀ c ∈ name.reverse, (c != '/') = true := fun c hc => by
    have hmem := List.mem_reverse.mp hc
    simpa using fun (heq : c = '/') => hname (heq ▸ hmem)
  unfold cutAfterLast
  dsimp only
  rw [h, List.reverse_append, List.dropWhile_append_of_pos hall, List.takeWhile_append_of_pos hall]
  obtain rfl | ⟨outer, rfl⟩ := hfront
  · simp
  · simp

/-! ## Walking along segments -/

/-- A segment that leads nowhere. -/
def IsIdle (segment : List Char) : Prop := segment = [] ∨ segment = ['.']

theorem enter_idle {absolute : Bool} {stack : List (List Char)} {segment : List Char}
    (h : IsIdle segment) : enter absolute stack segment = stack := if_pos h

theorem enter_name {absolute : Bool} {stack : List (List Char)} {segment : List Char}
    (h : ¬ IsIdle segment) (hup : segment ≠ ['.', '.']) :
    enter absolute stack segment = segment :: stack :=
  (if_neg h).trans (if_neg hup)

/-- Going up leaves the segment that was entered last. -/
theorem enter_up_name {absolute : Bool} {last : List Char} {outer : List (List Char)}
    (h : last ≠ ['.', '.']) : enter absolute (last :: outer) ['.', '.'] = outer := by
  simp [enter, h]

/-- Where the last segment goes up itself, going up is remembered. -/
theorem enter_up_up {absolute : Bool} {outer : List (List Char)} :
    enter absolute (['.', '.'] :: outer) ['.', '.'] = ['.', '.'] :: ['.', '.'] :: outer := by
  simp [enter]

/-- At most one segment is put on the stack, and only one that leads somewhere. -/
theorem mem_enter {absolute : Bool} {stack : List (List Char)} {segment s : List Char}
    (h : s ∈ enter absolute stack segment) : s ∈ stack ∨ s = segment ∧ ¬ IsIdle segment := by
  by_cases hidle : IsIdle segment
  · rw [enter_idle hidle] at h
    exact Or.inl h
  have hpushed : s ∈ segment :: stack → s ∈ stack ∨ s = segment ∧ ¬ IsIdle segment := fun h =>
    (List.mem_cons.mp h).elim (fun heq => Or.inr ⟨heq, hidle⟩) Or.inl
  by_cases hup : segment = ['.', '.']
  · subst hup
    cases stack with
    | nil =>
        cases absolute with
        | false => exact hpushed h
        | true => exact absurd h List.not_mem_nil
    | cons last outer =>
        by_cases hlast : last = ['.', '.']
        · subst hlast
          rw [enter_up_up] at h
          exact hpushed h
        · rw [enter_up_name hlast] at h
          exact Or.inl (List.mem_cons_of_mem last h)
  · rw [enter_name hidle hup] at h
    exact hpushed h

/-- Only segments of the path that lead somewhere are on the stack. -/
theorem mem_foldl_enter {absolute : Bool} {pieces : List (List Char)} {segment : List Char}
    (h : segment ∈ pieces.foldl (enter absolute) []) : segment ∈ pieces ∧ ¬ IsIdle segment := by
  induction pieces using List.reverseRecOn generalizing segment with
  | nil => exact absurd h List.not_mem_nil
  | append_singleton front piece ih =>
      rw [List.foldl_append, List.foldl_cons, List.foldl_nil] at h
      rcases mem_enter h with h | ⟨rfl, hidle⟩
      · exact ⟨List.mem_append_left _ (ih h).1, (ih h).2⟩
      · exact ⟨List.mem_append_right _ List.mem_cons_self, hidle⟩

/-- A way to go on through segments: idle ones lead nowhere, and going up leaves what has been entered
just before. -/
structure IsWay {Place : Type} (go : Place → List Char → Place) : Prop where
  idle : ∀ {place segment}, IsIdle segment → go place segment = place
  back : ∀ {place name}, ¬ IsIdle name → name ≠ ['.', '.'] → go (go place name) ['.', '.'] = place

theorem isWay_enter (absolute : Bool) : IsWay (enter absolute) where
  idle := enter_idle
  back hname hup := by rw [enter_name hname hup, enter_up_name hup]

/-- **The segments that are kept lead wherever all of them lead**, from any place; those that were
kept knowing that they begin at a root do so from where going up stays. -/
theorem IsWay.foldl_reverse {Place : Type} {go : Place → List Char → Place} (hgo : IsWay go)
    {within : Bool} {start : Place} (h : within = true → go start ['.', '.'] = start)
    (pieces : List (List Char)) :
    (pieces.foldl (enter within) []).reverse.foldl go start = pieces.foldl go start := by
  induction pieces using List.reverseRecOn with
  | nil => rfl
  | append_singleton front piece ih =>
      simp only [List.foldl_append, List.foldl_cons, List.foldl_nil]
      rw [← ih]
      have hidle : ∀ s ∈ front.foldl (enter within) [], ¬ IsIdle s := fun s hs =>
        (mem_foldl_enter hs).2
      generalize front.foldl (enter within) [] = stack at hidle
      by_cases hpiece : IsIdle piece
      · rw [enter_idle hpiece, hgo.idle hpiece]
      by_cases hup : piece = ['.', '.']
      · subst hup
        cases stack with
        | nil =>
            -- nothing has been entered, so going up is remembered, but for the root
            cases within with
            | false => simp [enter]
            | true => simp [enter, h rfl]
        | cons last outer =>
            by_cases hlast : last = ['.', '.']
            · subst hlast
              rw [enter_up_up]
              simp
            · -- the last segment is entered and left again
              have hname : ¬ IsIdle last := hidle last List.mem_cons_self
              rw [enter_up_name hlast, List.reverse_cons, List.foldl_append, List.foldl_cons,
                List.foldl_nil, hgo.back hname hlast]
      · rw [enter_name hpiece hup, List.reverse_cons, List.foldl_append, List.foldl_cons,
          List.foldl_nil]

/-- Going on along a path from some place. -/
def follow {Place : Type} (go : Place → List Char → Place) (start : Place) (path : List Char) : Place :=
  (splitAt '/' path).foldl go start

/-- Walking along a path from some place. -/
def walk (absolute : Bool) (start : List (List Char)) (path : List Char) : List (List Char) :=
  (splitAt '/' path).foldl (enter absolute) start

section
variable {Place : Type} {go : Place → List Char → Place} (hgo : IsWay go) (start : Place)
include hgo

/-- A path behind a directory goes on from where the directory leads. -/
theorem IsWay.follow_append {x : List Char} (hx : IsDirectory x) (y : List Char) :
    follow go start (x ++ y) = follow go (follow go start x) y := by
  obtain rfl | ⟨front, rfl⟩ := hx
  · exact congrArg (follow go · y) (hgo.idle (Or.inl rfl)).symm
  · have hback : splitAt '/' (front ++ ['/']) = splitAt '/' front ++ [[]] := splitAt_append_cons front []
    unfold follow
    rw [List.append_assoc, List.singleton_append, splitAt_append_cons, hback, List.foldl_append,
      List.foldl_append, List.foldl_cons, List.foldl_nil, hgo.idle (Or.inl rfl)]

/-- A slash at the end leads nowhere. -/
theorem IsWay.follow_append_slash (x : List Char) : follow go start (x ++ ['/']) = follow go start x := by
  have hback : splitAt '/' (x ++ ['/']) = splitAt '/' x ++ [[]] := splitAt_append_cons x []
  unfold follow
  rw [hback, List.foldl_append, List.foldl_cons, List.foldl_nil, hgo.idle (Or.inl rfl)]

/-- Going on along segments that are written with slashes between them. -/
theorem IsWay.follow_intercalate {segments : List (List Char)} (h : ∀ s ∈ segments, '/' ∉ s) :
    follow go start (List.intercalate ['/'] segments) = segments.foldl go start := by
  by_cases hnil : segments = []
  · subst hnil
    exact hgo.idle (Or.inl rfl)
  · exact congrArg (List.foldl go start) (splitAt_intercalate hnil h)

end

/-- A path behind a directory goes on from where the directory leads. -/
theorem walk_append {absolute : Bool} {start : List (List Char)} {x : List Char}
    (hx : IsDirectory x) (y : List Char) :
    walk absolute start (x ++ y) = walk absolute (walk absolute start x) y :=
  (isWay_enter absolute).follow_append start hx y

/-- The segments of a path, each with a slash behind it. -/
def joined (segments : List (List Char)) : List Char := segments.flatMap (· ++ ['/'])

theorem joined_directory (segments : List (List Char)) : IsDirectory (joined segments) := by
  induction segments with
  | nil => exact IsDirectory.nil
  | cons s rest ih => exact IsDirectory.append (Or.inr ⟨s, rfl⟩) ih

theorem intercalate_eq_joined {segments : List (List Char)} (h : segments ≠ []) :
    List.intercalate ['/'] segments ++ ['/'] = joined segments := by
  induction segments with
  | nil => exact absurd rfl h
  | cons s rest ih =>
      cases rest with
      | nil => simp [joined, List.intercalate]
      | cons t rest =>
          have ih := ih (List.cons_ne_nil _ _)
          simp only [List.intercalate, List.intersperse, List.flatten_cons, joined,
            List.flatMap_cons, List.append_assoc] at ih ⊢
          rw [ih]

theorem intercalate_append_singleton (segments : List (List Char)) (last : List Char) :
    List.intercalate ['/'] (segments ++ [last]) = joined segments ++ last := by
  induction segments with
  | nil => simp [joined, List.intercalate]
  | cons s rest ih =>
      cases rest with
      | nil => simp [joined, List.intercalate]
      | cons t rest =>
          simp only [List.cons_append, List.intercalate, List.intersperse, List.flatten_cons, joined,
            List.flatMap_cons, List.append_assoc] at ih ⊢
          rw [ih]

/-! ## Cleaning directories -/

theorem segments_eq_walk (path : List Char) :
    segments path = (walk (isAbsolute path) [] path).reverse := rfl

theorem not_mem_of_mem_segments {path segment : List Char} (h : segment ∈ segments path) :
    '/' ∉ segment :=
  not_mem_of_mem_splitAt (mem_foldl_enter (List.mem_reverse.mp h)).1

/-- What stands in front of the segments. -/
def root (path : List Char) : List Char := if isAbsolute path then ['/'] else []

theorem cleanChars_directory {path : List Char} (h : IsDirectory path) :
    cleanChars path = root path ++ joined (segments path) := by
  unfold cleanChars
  dsimp only
  obtain rfl | ⟨front, rfl⟩ := h
  · rfl
  · cases hkept : segments (front ++ ['/']) with
    | nil => simp [root, joined]
    | cons s rest =>
        rw [← intercalate_eq_joined (List.cons_ne_nil s rest)]
        simp [root]

theorem IsDirectory.cleanChars {path : List Char} (h : IsDirectory path) :
    IsDirectory (cleanChars path) := by
  rw [cleanChars_directory h]
  refine IsDirectory.append ?_ (joined_directory _)
  unfold root
  split
  · exact Or.inr ⟨[], rfl⟩
  · exact IsDirectory.nil

theorem isAbsolute_append {x : List Char} (y : List Char) (hx : x ≠ []) :
    isAbsolute (x ++ y) = isAbsolute x := by
  obtain ⟨c, rest, rfl⟩ := List.exists_cons_of_ne_nil hx
  rfl

theorem isAbsolute_append_eq_false {x y : List Char} (hx : isAbsolute x = false)
    (hy : isAbsolute y = false) : isAbsolute (x ++ y) = false := by
  cases x with
  | nil => exact hy
  | cons c rest => exact hx

/-- Segments that are kept do not begin a path with a slash. -/
theorem isAbsolute_intercalate (path back : List Char) (hback : segments path = [] → back = []) :
    isAbsolute (List.intercalate ['/'] (segments path) ++ back) = false := by
  cases h : segments path with
  | nil =>
      rw [hback h]
      rfl
  | cons s rest =>
      have hs : s ∈ segments path := h ▸ List.mem_cons_self
      have hidle : ¬ IsIdle s := (mem_foldl_enter (List.mem_reverse.mp hs)).2
      have hslash := not_mem_of_mem_segments hs
      cases s with
      | nil => exact absurd (Or.inl rfl) hidle
      | cons c cs =>
          have hc : c ≠ '/' := fun hc => hslash (hc ▸ List.mem_cons_self)
          cases rest <;> simpa [isAbsolute, List.intercalate] using hc

/-- What stands behind the segments. -/
def close (path : List Char) : List Char :=
  if path.getLast? == some '/' && !(segments path).isEmpty then ['/'] else []

theorem close_eq_nil {path : List Char} (h : segments path = []) : close path = [] := by
  simp [close, h]

theorem cleanChars_eq (path : List Char) :
    cleanChars path = root path ++ (List.intercalate ['/'] (segments path) ++ close path) := by
  rw [← List.append_assoc]
  rfl

/-- A cleaned path leads from a root if the path does. -/
theorem isAbsolute_cleanChars (path : List Char) : isAbsolute (cleanChars path) = isAbsolute path := by
  rw [cleanChars_eq, root]
  cases habs : isAbsolute path with
  | false => exact isAbsolute_intercalate path (close path) close_eq_nil
  | true => rfl

/-- **A path can be cleaned before the way along it is gone**, if it is relative or going up stays
where the way begins. -/
theorem IsWay.follow_cleanChars {Place : Type} {go : Place → List Char → Place} (hgo : IsWay go)
    {start : Place} {path : List Char} (hstart : isAbsolute path = true → go start ['.', '.'] = start) :
    follow go start (cleanChars path) = follow go start path := by
  have hroot : IsDirectory (root path) ∧ follow go start (root path) = start := by
    unfold root
    split
    · exact ⟨Or.inr ⟨[], rfl⟩, (hgo.follow_append_slash start []).trans (hgo.idle (Or.inl rfl))⟩
    · exact ⟨IsDirectory.nil, hgo.idle (Or.inl rfl)⟩
  have hclose : ∀ x, follow go start (x ++ close path) = follow go start x := by
    intro x
    unfold close
    split
    · exact hgo.follow_append_slash start x
    · rw [List.append_nil]
  rw [cleanChars_eq, hgo.follow_append start hroot.1, hroot.2, hclose,
    hgo.follow_intercalate start fun _ => not_mem_of_mem_segments]
  exact hgo.foldl_reverse hstart (splitAt '/' path)

theorem walk_cleanChars {absolute : Bool} {start : List (List Char)} {path : List Char}
    (hstart : isAbsolute path = true → absolute = true ∧ start = []) :
    walk absolute start (cleanChars path) = walk absolute start path := by
  refine (isWay_enter absolute).follow_cleanChars fun h => ?_
  obtain ⟨rfl, rfl⟩ := hstart h
  rfl

theorem segments_cleanChars (path : List Char) : segments (cleanChars path) = segments path := by
  rw [segments_eq_walk, segments_eq_walk, isAbsolute_cleanChars, walk_cleanChars fun h => ⟨h, rfl⟩]

/-- The slash at the end of a path is kept, and none is added. -/
theorem close_cleanChars (path : List Char) : close (cleanChars path) = close path := by
  obtain hnil | ⟨front, last, hsegments⟩ := List.eq_nil_or_concat' (segments path)
  · rw [close_eq_nil hnil, close_eq_nil ((segments_cleanChars path).trans hnil)]
  have hmem : last ∈ segments path := by
    rw [hsegments]
    exact List.mem_append_right front List.mem_cons_self
  have hne : last ≠ [] := fun h => (mem_foldl_enter (List.mem_reverse.mp hmem)).2 (Or.inl h)
  have hlast : cleanChars path = root path ++ joined front ++ last ++ close path := by
    rw [cleanChars_eq, hsegments, intercalate_append_singleton]
    simp only [List.append_assoc]
  have hends : ((cleanChars path).getLast? == some '/') = (path.getLast? == some '/') := by
    cases hback : path.getLast? == some '/' with
    | true =>
        have hclose : close path = ['/'] := by simp [close, hback, hsegments]
        simp [hlast, hclose]
    | false =>
        have hclose : close path = [] := by simp [close, hback]
        rw [hlast, hclose, List.append_nil, List.getLast?_append_of_ne_nil _ hne]
        exact beq_false_of_ne fun h => not_mem_of_mem_segments hmem (List.mem_of_getLast? h)
  rw [close, close, hends, segments_cleanChars]

/-- **A cleaned path is clean.** -/
theorem cleanChars_cleanChars (path : List Char) : cleanChars (cleanChars path) = cleanChars path := by
  have hroot : root (cleanChars path) = root path := by rw [root, root, isAbsolute_cleanChars]
  rw [cleanChars_eq (cleanChars path), hroot, segments_cleanChars, close_cleanChars, ← cleanChars_eq]

section
variable {x y : List Char} (hx : IsDirectory x) (hy : IsDirectory y)
  (hrelative : isAbsolute y = false)
include hx hy hrelative

/-- **A relative directory behind another can be cleaned before.** -/
theorem cleanChars_append_cleanChars : cleanChars (x ++ cleanChars y) = cleanChars (x ++ y) := by
  have hclean : isAbsolute (cleanChars y) = false := (isAbsolute_cleanChars y).trans hrelative
  have habsolute : isAbsolute (x ++ cleanChars y) = isAbsolute (x ++ y) := by
    by_cases hnil : x = []
    · subst hnil
      exact hclean.trans hrelative.symm
    · rw [isAbsolute_append _ hnil, isAbsolute_append _ hnil]
  rw [cleanChars_directory (hx.append hy.cleanChars), cleanChars_directory (hx.append hy), root, root,
    segments_eq_walk, segments_eq_walk, habsolute, walk_append hx, walk_append hx,
    walk_cleanChars fun h => absurd h (hrelative ▸ Bool.false_ne_true)]

/-- **A directory can be cleaned before a relative one is put behind it.** -/
theorem cleanChars_cleanChars_append : cleanChars (cleanChars x ++ y) = cleanChars (x ++ y) := by
  have habsolute : isAbsolute (cleanChars x ++ y) = isAbsolute (x ++ y) := by
    by_cases hnil : cleanChars x = []
    · have hx' : isAbsolute x = false := (isAbsolute_cleanChars x).symm.trans (hnil ▸ rfl)
      rw [hnil]
      cases x with
      | nil => rfl
      | cons c rest => exact hrelative.trans hx'.symm
    · have hne : x ≠ [] := fun h => hnil (congrArg cleanChars h)
      rw [isAbsolute_append _ hnil, isAbsolute_append _ hne, isAbsolute_cleanChars x]
  have hstart : isAbsolute x = true →
      isAbsolute (x ++ y) = true ∧ ([] : List (List Char)) = [] := by
    intro h
    have hne : x ≠ [] := fun hnil => by
      rw [hnil] at h
      cases h
    exact ⟨(isAbsolute_append y hne).trans h, rfl⟩
  rw [cleanChars_directory (hx.cleanChars.append hy), cleanChars_directory (hx.append hy), root, root,
    segments_eq_walk, segments_eq_walk, habsolute, walk_append hx.cleanChars, walk_append hx,
    walk_cleanChars hstart]

end

/-- A segment behind a path does not make it absolute. -/
theorem isAbsolute_append_name (x : List Char) {name : List Char} (hslash : '/' ∉ name)
    (hnil : name ≠ []) (back : List Char) : isAbsolute (x ++ (name ++ back)) = isAbsolute x := by
  by_cases hne : x = []
  · subst hne
    obtain ⟨c, rest, rfl⟩ := List.exists_cons_of_ne_nil hnil
    have hc : c ≠ '/' := fun hc => hslash (hc ▸ List.mem_cons_self)
    simpa [isAbsolute] using hc
  · exact isAbsolute_append _ hne

/-- **A leaf stays as it is behind a directory.** -/
theorem cleanChars_append_leaf {x name : List Char} (hx : IsDirectory x) (hname : IsLeaf name) :
    cleanChars (x ++ name) = cleanChars x ++ name := by
  by_cases hnil : name = []
  · rw [hnil, List.append_nil, List.append_nil]
  have hidle : ¬ IsIdle name := fun h => h.elim hnil hname.ne_dot
  have habsolute : isAbsolute (x ++ name) = isAbsolute x := by
    have h := isAbsolute_append_name x hname.noSlash hnil []
    rwa [List.append_nil] at h
  have hsegments : segments (x ++ name) = segments x ++ [name] := by
    rw [segments_eq_walk, habsolute, walk_append hx]
    show (walk _ _ name).reverse = _
    rw [walk, splitAt_of_not_mem hname.noSlash, List.foldl_cons, List.foldl_nil,
      enter_name hidle hname.ne_dots, List.reverse_cons]
    rfl
  have hback : ((x ++ name).getLast? == some '/') = false := by
    rw [List.getLast?_append_of_ne_nil x hnil]
    exact beq_false_of_ne fun h => hname.noSlash (List.mem_of_getLast? h)
  rw [cleanChars_directory hx, cleanChars, hsegments, habsolute, intercalate_append_singleton, root,
    hback, Bool.false_and, if_neg Bool.false_ne_true, List.append_nil, List.append_assoc]

/-- So does the name of a directory. -/
theorem cleanChars_append_segment {x name : List Char} (hx : IsDirectory x) (hname : IsLeaf name)
    (hnil : name ≠ []) : cleanChars (x ++ (name ++ ['/'])) = cleanChars x ++ (name ++ ['/']) := by
  have hidle : ¬ IsIdle name := fun h => h.elim hnil hname.ne_dot
  have habsolute := isAbsolute_append_name x hname.noSlash hnil ['/']
  have hsegments : segments (x ++ (name ++ ['/'])) = segments x ++ [name] := by
    rw [segments_eq_walk, habsolute, walk_append hx]
    show (walk _ _ (name ++ ['/'])).reverse = _
    rw [walk, splitAt_append_cons, splitAt_of_not_mem hname.noSlash]
    show (enter _ _ name).reverse = _
    rw [enter_name hidle hname.ne_dots, List.reverse_cons]
    rfl
  rw [cleanChars_directory (hx.append (Or.inr ⟨name, rfl⟩)), cleanChars_directory hx, hsegments, root,
    habsolute]
  simp [root, joined]

/-- A second slash leads nowhere. -/
theorem cleanChars_append_slash {x : List Char} (hx : IsDirectory x) (hne : x ≠ []) :
    cleanChars (x ++ ['/']) = cleanChars x := by
  have habsolute := isAbsolute_append ['/'] hne
  have hsegments : segments (x ++ ['/']) = segments x := by
    rw [segments_eq_walk, habsolute, walk_append hx]
    rfl
  rw [cleanChars_directory (Or.inr ⟨x, rfl⟩), cleanChars_directory hx, hsegments, root, habsolute, root]

/-! ## Paths as texts -/

theorem toList_clean (path : String) : (clean path).toList = cleanChars path.toList :=
  String.toList_ofList

theorem startsWith_slash (path : String) : startsWith path "/" = isAbsolute path.toList := by
  show ['/'].isPrefixOf path.toList = isAbsolute path.toList
  cases path.toList with
  | nil => rfl
  | cons c rest => exact (Bool.and_true _).trans BEq.comm

theorem isDirectory_directory (path : String) : IsDirectory (directory path).toList :=
  (cutAfterLast_chars path).1

theorem isDirectory_append {x y : String} (hx : IsDirectory x.toList) (hy : IsDirectory y.toList) :
    IsDirectory (x ++ y).toList := by
  rw [String.toList_append]
  exact hx.append hy

theorem directory_append_name (path : String) :
    directory path ++ (cutAfterLast '/' path).2 = path :=
  String.toList_inj.mp (String.toList_append.trans (cutAfterLast_chars path).2.2)

theorem isDirectory_clean {path : String} (h : IsDirectory path.toList) :
    IsDirectory (clean path).toList := by
  rw [toList_clean]
  exact h.cleanChars

theorem clean_clean (path : String) : clean (clean path) = clean path := by
  apply String.toList_inj.mp
  rw [toList_clean, toList_clean, cleanChars_cleanChars]

/-- The directory of a relative path is relative. -/
theorem isAbsolute_directory {path : String} (h : isAbsolute path.toList = false) :
    isAbsolute (directory path).toList = false := by
  by_cases hnil : (directory path).toList = []
  · rw [hnil]
    rfl
  · rwa [← isAbsolute_append (cutAfterLast '/' path).2.toList hnil, ← String.toList_append,
      directory_append_name]

section
variable {x y name : String} (hx : IsDirectory x.toList)
include hx

theorem clean_append_leaf (hname : IsLeaf name.toList) : clean (x ++ name) = clean x ++ name := by
  apply String.toList_inj.mp
  rw [toList_clean, String.toList_append, String.toList_append, toList_clean,
    cleanChars_append_leaf hx hname]

/-- What is found behind a directory is in it. -/
theorem directory_append (hname : '/' ∉ name.toList) : directory (x ++ name) = x := by
  rw [directory, cutAfterLast_eq hx hname String.toList_append, String.ofList_toList]

theorem clean_append_segment (hname : IsLeaf name.toList) (hne : name ≠ "") :
    clean (x ++ (name ++ "/")) = clean x ++ (name ++ "/") := by
  apply String.toList_inj.mp
  simp only [toList_clean, String.toList_append]
  exact cleanChars_append_segment hx hname fun h => hne (String.toList_inj.mp h)

theorem clean_append_slash (hne : x ≠ "") : clean (x ++ "/") = clean x := by
  apply String.toList_inj.mp
  simp only [toList_clean, String.toList_append]
  exact cleanChars_append_slash hx fun h => hne (String.toList_inj.mp h)

theorem directory_clean_append (hname : IsLeaf name.toList) :
    directory (clean (x ++ name)) = clean x := by
  rw [clean_append_leaf hx hname, directory_append (isDirectory_clean hx) hname.noSlash]

variable (hy : IsDirectory y.toList) (hrelative : isAbsolute y.toList = false)
include hy hrelative

theorem clean_append_clean : clean (x ++ clean y) = clean (x ++ y) := by
  apply String.toList_inj.mp
  rw [toList_clean, toList_clean, String.toList_append, String.toList_append, toList_clean,
    cleanChars_append_cleanChars hx hy hrelative]

theorem clean_clean_append : clean (clean x ++ y) = clean (x ++ y) := by
  apply String.toList_inj.mp
  rw [toList_clean, toList_clean, String.toList_append, String.toList_append, toList_clean,
    cleanChars_cleanChars_append hx hy hrelative]

end

end UrlPath

end Scss
