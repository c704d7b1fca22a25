import Mathlib.Data.Set.Card
import Scss.Proofs.Closure
import Scss.Proofs.Redundancy

/-!
# What the worklist computes

The selectors that follow from a list in any number of steps are the least set that contains the list
and is closed under its extensions. Extending a rule computes this set, unless there are too many.

The set and the queue are one list, seen from both ends: what was taken from the queue comes first in
the set, and what still waits comes last (`Worked`). So at the end every selector of the set has been
looked at, which says what the marks of the extensions mean. When extending gives up, the set and the
selector that found no room in it all follow from what was written, and there are more of them than
the limit allows.

What is dropped afterwards stands behind the written selectors, so these come through in their order.
-/

namespace Scss

/-! ## Sets as lists -/

namespace SelectorSet

theorem toList_foldl_insert (selectors : List Selector) (set : SelectorSet) :
    (selectors.foldl insert set).toList =
      set.toList ++ (selectors.filter fun s => s ∉ set.toList).eraseDups := by
  induction selectors generalizing set with
  | nil => simp
  | cons s rest ih =>
      rw [List.foldl_cons, ih]
      by_cases hs : s ∈ set.toList
      · have hinsert : set.insert s = set := dif_pos hs
        rw [hinsert, List.filter_cons_of_neg (by simpa using hs)]
      · have hinsert : set.insert s = set.push s hs := dif_neg hs
        have hpush : (set.push s hs).toList = set.toList ++ [s] := rfl
        -- what is new after `s` was inserted is what was new before, without `s`
        have hfilter : (rest.filter fun t => t ∉ set.toList ++ [s]) =
            (rest.filter fun t => t ∉ set.toList).filter fun t => !t == s := by
          rw [List.filter_filter]
          refine List.filter_congr fun t _ => ?_
          by_cases hts : t = s <;> simp [hts]
        rw [hinsert, hpush, List.filter_cons_of_pos (by simpa using hs), List.eraseDups_cons, hfilter,
          List.append_assoc, List.singleton_append]

/-- A set made of a list holds its selectors where they first occur. -/
theorem toList_ofList (selectors : List Selector) :
    (ofList selectors).toList = selectors.eraseDups := by
  have hall : (selectors.filter fun s => s ∉ empty.toList) = selectors :=
    List.filter_eq_self.mpr fun s _ => by simp [empty]
  rw [ofList, toList_foldl_insert, hall]
  rfl

theorem encard_eq_size (set : SelectorSet) : {s | s ∈ set}.encard = set.size := by
  have hcoe : {s | s ∈ set} = ((set.toList.toFinset : Finset Selector) : Set Selector) := by
    ext s
    exact List.mem_toFinset.symm
  rw [hcoe, Set.encard_coe_eq_coe_finsetCard, List.toFinset_card_of_nodup set.nodup]
  rfl

/-- What is spared comes first and stays as it is. -/
theorem essential_append {before front rest : List Selector} {spared : Nat}
    (h : front.length = spared) : essential before spared (front ++ rest) =
      front ++ essential (before ++ front) 0 rest := by
  induction front generalizing before spared with
  | nil =>
      subst h
      rw [List.nil_append, List.nil_append, List.append_nil]
      rfl
  | cons s front ih =>
      subst h
      have hspared : (s :: front).length ≠ 0 := Nat.succ_ne_zero _
      simp only [List.cons_append, essential, decide_eq_false hspared, Bool.false_and,
        Bool.false_eq_true, if_false]
      rw [List.length_cons, Nat.add_sub_cancel, ih rfl, List.append_assoc]
      rfl

/-- What goes is subsumed by another selector of the list. -/
theorem exists_subsumes_of_not_mem_essential {spared : Nat} {rest : List Selector}
    (hnodup : rest.Nodup) {s : Selector} (hs : s ∈ rest) (hgone : s ∉ essential [] spared rest) :
    ∃ t ∈ rest, t ≠ s ∧ t.subsumes s = true := by
  obtain ⟨front, behind, rfl⟩ := List.append_of_mem hs
  have hredundant : isRedundant front s behind = true := by
    by_contra hkept
    refine hgone (mem_essential.mpr ⟨front, behind, rfl, Or.inr ?_⟩)
    exact Bool.eq_false_iff.mpr hkept
  have hapart : s ∉ front ∧ s ∉ behind := by
    rw [List.nodup_append, List.nodup_cons] at hnodup
    exact ⟨fun h => hnodup.2.2 s h s List.mem_cons_self rfl, hnodup.2.1.1⟩
  rw [isRedundant, Bool.or_eq_true, List.any_eq_true, List.any_eq_true] at hredundant
  rcases hredundant with ⟨t, ht, hts⟩ | ⟨t, ht, hts⟩
  · exact ⟨t, List.mem_append_left _ ht, fun h => hapart.1 (h ▸ ht), hts⟩
  · rw [Bool.and_eq_true] at hts
    refine ⟨t, List.mem_append_right _ (List.mem_cons_of_mem s ht), ?_, hts.1⟩
    exact fun h => hapart.2 (h ▸ ht)

end SelectorSet

namespace Extending

/-! ## What has been looked at -/

/-- The mark of an extension after some selectors have been looked at: whether it had a mark, or has
brought something for one of them. -/
def markAfter (seen : List Selector) (pair : Extension × Bool) : Bool :=
  pair.2 || seen.any fun s => !(s.extendWith pair.1).isEmpty

theorem markAfter_append (seen more : List Selector) (pair : Extension × Bool) :
    markAfter (seen ++ more) pair = markAfter more (pair.1, markAfter seen pair) := by
  simp only [markAfter, List.any_append, Bool.or_assoc]

/-- One selector brings each extension up to date. -/
theorem extendBy_matched {limit : Nat} {s : Selector} {pairs : List (Extension × Bool)}
    {p q : Progress} (h : extendBy limit s p pairs = .ok q) :
    q.matched = p.matched.reverse ++ pairs.map (markAfter [s]) := by
  induction pairs generalizing p with
  | nil =>
      obtain rfl := Except.ok.inj h
      exact (List.append_nil _).symm
  | cons pair rest ih =>
      obtain ⟨e, mark⟩ := pair
      rw [extendBy] at h
      obtain ⟨mid, hadd, hrest⟩ := bind_eq_ok_iff.mp h
      have hmark : markAfter [s] (e, mark) = (mark || !(s.extendWith e).isEmpty) := by
        simp [markAfter]
      rw [ih hrest, (addAll_grows hadd).2.2, List.reverse_cons, List.append_assoc, List.map_cons,
        hmark]
      rfl

/-- How far the search has come from the set it began with: the selectors `seen` have been taken from
the queue, and the others of the set wait in it. -/
structure Worked (limit : Nat) (marked : List (Extension × Bool)) (start : SelectorSet)
    (seen : List Selector) (p : Progress) : Prop where
  order : p.set.toList = seen ++ p.queue
  gained : ∃ added, p.set.toList = start.toList ++ added ∧ (added = [] ∨ p.set.size ≤ limit)
  marks : p.matched = marked.map (markAfter seen)

theorem worked_step {limit : Nat} {marked : List (Extension × Bool)} {start : SelectorSet}
    {seen queue : List Selector} {s : Selector} {p q : Progress}
    (hp : Worked limit marked start seen p) (hqueue : p.queue = s :: queue)
    (h : extendBy limit s { p with queue, matched := [] }
      ((marked.map Prod.fst).zip p.matched) = .ok q) :
    Worked limit marked start (seen ++ [s]) q := by
  obtain ⟨added, hset, hwaiting, -, hsize⟩ := (extendBy_grows h).1
  refine ⟨?_, ?_, ?_⟩
  · rw [hset, hwaiting, hp.order, hqueue]
    simp only [List.append_assoc, List.cons_append, List.nil_append]
  · obtain ⟨before, hbefore, hlimit⟩ := hp.gained
    refine ⟨before ++ added, by rw [hset, hbefore, List.append_assoc], ?_⟩
    rcases hsize with rfl | hsize
    · rw [List.append_nil] at hset ⊢
      rwa [SelectorSet.size, hset]
    · exact Or.inr hsize
  · rw [extendBy_matched h, hp.marks, List.zip_map', List.map_map]
    exact List.map_congr_left fun pair _ => (markAfter_append seen [s] pair).symm

theorem close_worked {limit fuel : Nat} {marked : List (Extension × Bool)} {start : SelectorSet}
    {seen : List Selector} {p q : Progress} (hp : Worked limit marked start seen p)
    (h : close limit (marked.map Prod.fst) fuel p = .ok q) :
    ∃ seen, Worked limit marked start seen q := by
  induction fuel generalizing seen p with
  | zero =>
      obtain rfl := Except.ok.inj h
      exact ⟨seen, hp⟩
  | succ fuel ih =>
      rw [close] at h
      split at h
      · obtain rfl := Except.ok.inj h
        exact ⟨seen, hp⟩
      next s queue hqueue =>
        obtain ⟨next, hstep, hrest⟩ := bind_eq_ok_iff.mp h
        exact ih (worked_step hp hqueue hstep) hrest

/-! ## Giving up -/

/-- A selector has been found that the set has no room for. -/
structure Overfull (limit : Nat) (P : Selector → Prop) (p : Progress) (s : Selector) : Prop where
  new : s ∉ p.set
  full : limit < p.set.size + 1
  follows : P s

theorem add_fails {limit : Nat} {p : Progress} {s : Selector} {failure : Failure}
    (h : add limit p s = .error failure) :
    failure = .limitExceeded .extendedSelectors limit ∧ Overfull limit (· = s) p s := by
  unfold add at h
  split at h
  · cases h
  next hnew =>
    dsimp only at h
    split at h
    next hsize =>
      have hpush : (p.set.push s hnew).size = p.set.size + 1 := List.length_append
      exact ⟨(Except.error.inj h).symm, hnew, hpush ▸ hsize, rfl⟩
    · cases h

theorem addAll_fails {limit : Nat} {ss : List Selector} {p : Progress} {failure : Failure}
    (h : ss.foldlM (add limit) p = .error failure) :
    failure = .limitExceeded .extendedSelectors limit ∧
      ∃ mid s, Grows limit (· ∈ ss) p mid ∧ Overfull limit (· ∈ ss) mid s := by
  induction ss generalizing p with
  | nil => cases h
  | cons s rest ih =>
      rw [List.foldlM_cons] at h
      cases hadd : add limit p s with
      | error _ =>
          rw [hadd] at h
          obtain rfl := Except.error.inj h
          obtain ⟨hfailure, hfull⟩ := add_fails hadd
          exact ⟨hfailure, p, s, Grows.refl rfl rfl, hfull.new, hfull.full, List.mem_cons_self⟩
      | ok mid =>
          rw [hadd] at h
          obtain ⟨hfailure, last, t, hgrows, hfull⟩ := ih h
          refine ⟨hfailure, last, t, ?_, hfull.new, hfull.full, List.mem_cons_of_mem s hfull.follows⟩
          refine ((add_grows hadd).1.mono ?_).trans (hgrows.mono fun t => List.mem_cons_of_mem s)
          rintro t rfl
          exact List.mem_cons_self

theorem extendBy_fails {limit : Nat} {s : Selector} {pairs : List (Extension × Bool)}
    {p : Progress} {failure : Failure} (h : extendBy limit s p pairs = .error failure) :
    failure = .limitExceeded .extendedSelectors limit ∧
      ∃ mid t, Grows limit (fun t => ∃ e ∈ pairs.map Prod.fst, t ∈ s.extendWith e) p mid ∧
        Overfull limit (fun t => ∃ e ∈ pairs.map Prod.fst, t ∈ s.extendWith e) mid t := by
  induction pairs generalizing p with
  | nil => cases h
  | cons pair rest ih =>
      obtain ⟨e, mark⟩ := pair
      rw [extendBy] at h
      cases hadd : (s.extendWith e).foldlM (add limit) p with
      | error _ =>
          rw [hadd] at h
          obtain rfl := Except.error.inj h
          obtain ⟨hfailure, mid, t, hgrows, hfull⟩ := addAll_fails hadd
          exact ⟨hfailure, mid, t, hgrows.mono fun u hu => ⟨e, by simp, hu⟩, hfull.new, hfull.full,
            e, by simp, hfull.follows⟩
      | ok mid =>
          rw [hadd] at h
          obtain ⟨hfailure, last, t, hgrows, hfull⟩ := ih h
          have hlater : ∀ u, (∃ e' ∈ rest.map Prod.fst, u ∈ s.extendWith e') →
              ∃ e' ∈ ((e, mark) :: rest).map Prod.fst, u ∈ s.extendWith e' := by
            rintro u ⟨e', he', hu⟩
            exact ⟨e', List.mem_cons_of_mem e he', hu⟩
          refine ⟨hfailure, last, t, ?_, hfull.new, hfull.full, hlater t hfull.follows⟩
          refine ((addAll_grows hadd).1.mono fun u hu => ⟨e, by simp, hu⟩).trans ?_
          exact (Grows.refl rfl rfl).trans (hgrows.mono hlater)

/-- When the search gives up, what it has found follows from what was written, and the selector for
which there is no room does so too. -/
theorem close_fails {limit fuel : Nat} {extensions : List Extension} {written : List Selector}
    {p : Progress} {failure : Failure} (hp : Closing extensions written p)
    (h : close limit extensions fuel p = .error failure) :
    failure = .limitExceeded .extendedSelectors limit ∧
      ∃ mid t, (∀ s ∈ written, s ∈ mid.set) ∧ (∀ s ∈ mid.set, Derived extensions written s) ∧
        Overfull limit (Derived extensions written) mid t := by
  induction fuel generalizing p with
  | zero => cases h
  | succ fuel ih =>
      rw [close] at h
      split at h
      · cases h
      next s queue hqueue =>
        -- one more round: it goes on with what was added, or there is no room for a selector in it
        cases hstep : extendBy limit s { p with queue, matched := [] }
            (extensions.zip p.matched) with
        | ok next =>
            rw [hstep] at h
            exact ih (closing_step hp hqueue hstep) h
        | error _ =>
            rw [hstep] at h
            obtain rfl := Except.error.inj h
            obtain ⟨hfailure, mid, t, hgrows, hfull⟩ := extendBy_fails hstep
            rw [List.map_fst_zip (Nat.le_of_eq hp.marks.symm)] at hgrows hfull
            have hs : Derived extensions written s :=
              hp.derived s (hp.queued s (hqueue ▸ List.mem_cons_self))
            have hnext : ∀ u, (∃ e ∈ extensions, u ∈ s.extendWith e) →
                Derived extensions written u := by
              rintro u ⟨e, he, hu⟩
              exact .extended hs he hu
            refine ⟨hfailure, mid, t, fun u hu => hgrows.mem (hp.begins u hu), fun u hu => ?_,
              hfull.new, hfull.full, hnext t hfull.follows⟩
            obtain ⟨added, hset, -, hadded, -⟩ := hgrows
            have hu : u ∈ mid.set.toList := hu
            rw [hset] at hu
            rcases List.mem_append.mp hu with hu | hu
            · exact hp.derived u hu
            · exact hnext u (hadded u hu)

/-! ## The selectors of a rule -/

/-- The least set that contains the written selectors and all that follows from its members. -/
def closure (extensions : List Extension) (written : List Selector) : Set Selector :=
  ⋂₀ {C | (∀ s ∈ written, s ∈ C) ∧ ∀ s ∈ C, ∀ e ∈ extensions, ∀ t ∈ s.extendWith e, t ∈ C}

/-- In the least set are the selectors that follow in finitely many steps. -/
theorem mem_closure {extensions : List Extension} {written : List Selector} {s : Selector} :
    s ∈ closure extensions written ↔ Derived extensions written s := by
  constructor
  · intro h
    exact h {s | Derived extensions written s}
      ⟨fun _ ht => .written ht, fun _ ht _ he _ hu => .extended ht he hu⟩
  · rintro h C ⟨hwritten, hextended⟩
    induction h with
    | written hs => exact hwritten _ hs
    | extended _ he ht ih => exact hextended _ ih _ he _ ht

/-- Whether more selectors follow than a rule may have, and more than were written. -/
def Exceeds (extensions : List Extension) (written : List Selector) : Prop :=
  maxSelectors < (closure extensions written).encard ∧
    {s | s ∈ written}.encard < (closure extensions written).encard

/-- What a rule with the selectors `written` gets: the selectors `result`, and the marks of the
extensions. -/
structure Extended (marked : List (Extension × Bool)) (written result : List Selector)
    (marks : List Bool) : Prop where
  /-- An extension has a mark if it had one, or brings something for a selector that follows. -/
  marks : List.Forall₂ (fun pair mark => mark = true ↔ pair.2 = true ∨
    ∃ s ∈ closure (marked.map Prod.fst) written, s.extendWith pair.1 ≠ []) marked marks
  /-- The written selectors that can match come first, each where it was first written. -/
  begins : written.eraseDups.filter Selector.canMatch <+: result
  nodup : result.Nodup
  sound : ∀ s ∈ result, s ∈ closure (marked.map Prod.fst) written ∧ s.canMatch = true
  /-- What can match and is not there is subsumed by another such selector. -/
  complete : ∀ s ∈ closure (marked.map Prod.fst) written, s.canMatch = true → s ∉ result →
    ∃ t ∈ closure (marked.map Prod.fst) written,
      t.canMatch = true ∧ t ≠ s ∧ t.subsumes s = true

section
variable {extensions : List Extension} {written : List Selector}

/-- More selectors follow than there is room for, if the search finds one too many. -/
theorem exceeds_of_overfull {p : Progress} {s : Selector}
    (hwritten : ∀ s ∈ written, s ∈ p.set) (hderived : ∀ s ∈ p.set, Derived extensions written s)
    (hfull : Overfull maxSelectors (Derived extensions written) p s) :
    Exceeds extensions written := by
  let more := p.set.push s hfull.new
  have hsub : {t | t ∈ more} ⊆ closure extensions written := by
    intro t ht
    rcases List.mem_append.mp ht with ht | ht
    · exact mem_closure.mpr (hderived t ht)
    · exact mem_closure.mpr (List.mem_singleton.mp ht ▸ hfull.follows)
  have hsize : more.size = p.set.size + 1 := List.length_append
  constructor
  · refine lt_of_lt_of_le ?_ (Set.encard_le_encard hsub)
    rw [SelectorSet.encard_eq_size, hsize]
    exact_mod_cast hfull.full
  · refine (List.finite_toSet written).encard_lt_encard
      ⟨fun t ht => mem_closure.mpr (.written ht), fun h => ?_⟩
    exact hfull.new (hwritten s (h (mem_closure.mpr hfull.follows)))

/-- A search that ends has kept the limit, or has found nothing. -/
theorem not_exceeds_of_worked {marked : List (Extension × Bool)} {seen : List Selector}
    {p : Progress} (hp : Worked maxSelectors marked (.ofList written) seen p)
    (hderived : ∀ s, s ∈ p.set ↔ Derived extensions written s) : ¬ Exceeds extensions written := by
  have hclosure : closure extensions written = {s | s ∈ p.set} := by
    ext s
    exact mem_closure.trans (hderived s).symm
  rintro ⟨hlimit, hmore⟩
  rw [hclosure, SelectorSet.encard_eq_size] at hlimit hmore
  obtain ⟨added, hset, rfl | hsize⟩ := hp.gained
  · have hwritten : {s | s ∈ written} = {s | s ∈ SelectorSet.ofList written} := by
      ext s
      exact SelectorSet.mem_ofList.symm
    rw [hwritten, SelectorSet.encard_eq_size, SelectorSet.size, SelectorSet.size, hset,
      List.append_nil] at hmore
    exact lt_irrefl _ hmore
  · exact absurd (Nat.cast_lt.mp hlimit) (Nat.not_lt.mpr hsize)

end

/-- The result is taken from the set so that what was written comes first. -/
theorem eliminate_written {closed start : SelectorSet} {added : List Selector}
    (h : closed.toList = start.toList ++ added) :
    start.toList.filter Selector.canMatch <+: ((closed.filter Selector.canMatch).eliminate
      (start.toList.filter Selector.canMatch).length).toList := by
  have hfilter : (closed.filter Selector.canMatch).toList =
      start.toList.filter Selector.canMatch ++ added.filter Selector.canMatch := by
    rw [← List.filter_append, ← h]
    rfl
  show _ <+: SelectorSet.essential [] _ (closed.filter Selector.canMatch).toList
  rw [hfilter, SelectorSet.essential_append rfl]
  exact List.prefix_append _ _

/-- The ways in which extending a rule ends: it gives up, or it takes its result from the closure,
in which the written selectors come first. -/
theorem extendSelectors_cases (marked : List (Extension × Bool)) (written : List Selector) :
    (Exceeds (marked.map Prod.fst) written ∧
      extendSelectors (marked.map Prod.fst) (marked.map Prod.snd) written =
        .error (.limitExceeded .extendedSelectors maxSelectors)) ∨
    (¬ Exceeds (marked.map Prod.fst) written ∧ ∃ closed : SelectorSet, ∃ added,
      (∀ s, s ∈ closed ↔ Derived (marked.map Prod.fst) written s) ∧
      closed.toList = (SelectorSet.ofList written).toList ++ added ∧
      extendSelectors (marked.map Prod.fst) (marked.map Prod.snd) written =
        .ok (((closed.filter Selector.canMatch).eliminate
          ((SelectorSet.ofList written).toList.filter Selector.canMatch).length).toList,
            marked.map (markAfter closed.toList))) := by
  have hmarks : (marked.map Prod.snd).length = (marked.map Prod.fst).length := by simp
  have hworked : Worked maxSelectors marked (.ofList written) []
      ⟨.ofList written, (SelectorSet.ofList written).toList, marked.map Prod.snd⟩ := by
    refine ⟨rfl, ⟨[], (List.append_nil _).symm, Or.inl rfl⟩, ?_⟩
    exact List.map_congr_left fun pair _ => (Bool.or_false pair.2).symm
  match hclose : close maxSelectors (marked.map Prod.fst)
      ((SelectorSet.ofList written).size + maxSelectors)
      ⟨.ofList written, (SelectorSet.ofList written).toList, marked.map Prod.snd⟩ with
  | .error failure =>
      obtain ⟨rfl, mid, s, hwritten, hderived, hfull⟩ :=
        close_fails (closing_start hmarks written) hclose
      refine Or.inl ⟨exceeds_of_overfull hwritten hderived hfull, ?_⟩
      rw [extendSelectors, hclose]
      rfl
  | .ok last =>
      obtain ⟨hderived, hempty, -⟩ := close_complete hmarks hclose
      obtain ⟨seen, hlast⟩ := close_worked hworked hclose
      have hseen : last.set.toList = seen := by rw [hlast.order, hempty, List.append_nil]
      obtain ⟨added, hadded, -⟩ := hlast.gained
      refine Or.inr ⟨not_exceeds_of_worked hlast hderived, last.set, added, hderived, hadded, ?_⟩
      rw [extendSelectors, hclose, hseen, ← hlast.marks]
      rfl

/--
**Extending a rule computes the least closure of its selectors.**

It gives up, with a failure that names the limit, if the closure has more selectors than a rule may
have and than were written. Otherwise it marks the extensions that bring something for a selector of
the closure; and of the selectors in the closure that can match, it leaves out only such as another
one of them subsumes. The written ones all stay, in front of the others.
-/
theorem extendSelectors_computes_closure (marked : List (Extension × Bool))
    (written : List Selector) :
    (Exceeds (marked.map Prod.fst) written →
      extendSelectors (marked.map Prod.fst) (marked.map Prod.snd) written =
        .error (.limitExceeded .extendedSelectors maxSelectors)) ∧
    (¬ Exceeds (marked.map Prod.fst) written → ∃ result marks,
      extendSelectors (marked.map Prod.fst) (marked.map Prod.snd) written = .ok (result, marks) ∧
        Extended marked written result marks) := by
  rcases extendSelectors_cases marked written with
    ⟨hmany, hfails⟩ | ⟨hfew, closed, added, hderived, hadded, hextended⟩
  · exact ⟨fun _ => hfails, fun hfew => absurd hmany hfew⟩
  refine ⟨fun hmany => absurd hmany hfew, fun _ => ⟨_, _, hextended, ?_⟩⟩
  have hclosed : ∀ s, s ∈ closed ↔ s ∈ closure (marked.map Prod.fst) written := fun s =>
    (hderived s).trans mem_closure.symm
  refine ⟨?_, ?_, SelectorSet.nodup _, ?_, ?_⟩
  · rw [List.forall₂_map_right_iff, List.forall₂_same]
    intro pair _
    simp only [markAfter, Bool.or_eq_true, List.any_eq_true, Bool.not_eq_true',
      List.isEmpty_eq_false_iff]
    exact or_congr Iff.rfl (exists_congr fun s => and_congr (hclosed s) Iff.rfl)
  · rw [← SelectorSet.toList_ofList]
    exact eliminate_written hadded
  · intro s hs
    have hs := SelectorSet.mem_filter.mp ((SelectorSet.essential_sublist _ _ _).subset hs)
    exact ⟨(hclosed s).mp hs.1, hs.2⟩
  · intro s hs hmatch hgone
    have hmem : s ∈ (closed.filter Selector.canMatch).toList :=
      SelectorSet.mem_filter.mpr ⟨(hclosed s).mpr hs, hmatch⟩
    obtain ⟨t, ht, hne, hsub⟩ :=
      SelectorSet.exists_subsumes_of_not_mem_essential (SelectorSet.nodup _) hmem hgone
    obtain ⟨ht, htmatch⟩ := SelectorSet.mem_filter.mp ht
    exact ⟨t, (hclosed t).mp ht, htmatch, hne, hsub⟩

end Extending

end Scss
