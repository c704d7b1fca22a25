import Mathlib.Data.List.Perm.Basic
import Scss.Proofs.Containment

/-!
# The order in which parts are written

The parts of a union stand in the order of their ranks. Within one rank they stand as they came: first
those of the first compound, then what the second one adds. So the order tells which compound a part
came from first, and two compounds that ask for the same may differ in it.

This is what the two laws come to. Taking a compound out of a union and putting it in again moves the
parts that both have behind those that only the first has; it changes nothing exactly if they stood
there (`Overlaps`). And a compound that is unified with itself comes back with its parts in the order
of their ranks.
-/

namespace Scss.Compound

/-! ## The parts of one rank -/

section

variable {xs ys : List SimpleSelector}

theorem ofRank_append (r : Nat) (xs ys : List SimpleSelector) :
    ofRank r (xs ++ ys) = ofRank r xs ++ ofRank r ys := List.filter_append ..

/-- The parts of another rank are gone. -/
theorem ofRank_ofRank (r s : Nat) (xs : List SimpleSelector) :
    ofRank r (ofRank s xs) = if s = r then ofRank r xs else [] := by
  simp only [ofRank, List.filter_filter]
  split
  next h => subst h; simp
  next h =>
    refine List.filter_eq_nil_iff.mpr fun x _ => ?_
    simp only [Bool.and_eq_true, decide_eq_true_eq, not_and]
    rintro rfl
    exact fun heq => h heq.symm

/-- Writing the parts in order keeps the order within a rank. -/
theorem ofRank_inOrder {r : Nat} (hr : r < 4) (xs : List SimpleSelector) :
    ofRank r (inOrder xs) = ofRank r xs := by
  have hcases : r = 0 ∨ r = 1 ∨ r = 2 ∨ r = 3 := by omega
  rcases hcases with rfl | rfl | rfl | rfl <;>
    simp [inOrder, ofRank_append, ofRank_ofRank]

/-- Two lists are the same in order if they are the same in each rank. -/
theorem inOrder_eq_iff : inOrder xs = inOrder ys ↔ ∀ r < 4, ofRank r xs = ofRank r ys := by
  constructor
  · intro h r hr
    rw [← ofRank_inOrder hr, h, ofRank_inOrder hr]
  · intro h
    simp only [inOrder, h 0 (by decide), h 1 (by decide), h 2 (by decide), h 3 (by decide)]

/-- Whether parts stand in the order of their ranks. -/
def IsInOrder (xs : List SimpleSelector) : Prop := xs.Pairwise fun x y => x.rank ≤ y.rank

theorem isInOrder_ofRank (r : Nat) (xs : List SimpleSelector) : IsInOrder (ofRank r xs) := by
  have hany : (ofRank r xs).Pairwise fun _ _ => True := List.pairwise_of_forall fun _ _ => trivial
  refine List.Pairwise.imp_of_mem (fun hx hy _ => ?_) hany
  rw [(mem_ofRank.mp hx).2, (mem_ofRank.mp hy).2]

theorem isInOrder_inOrder (xs : List SimpleSelector) : IsInOrder (inOrder xs) := by
  have happend : ∀ {r : Nat} {front behind : List SimpleSelector}, (∀ x ∈ front, x.rank = r) →
      (∀ y ∈ behind, r ≤ y.rank) → IsInOrder front → IsInOrder behind →
        IsInOrder (front ++ behind) := fun hfront hbehind hf hb =>
    List.pairwise_append.mpr ⟨hf, hb, fun x hx y hy => hfront x hx ▸ hbehind y hy⟩
  have hrank : ∀ r, ∀ x ∈ ofRank r xs, x.rank = r := fun _ _ hx => (mem_ofRank.mp hx).2
  refine happend (hrank 0) (fun _ _ => Nat.zero_le _) (isInOrder_ofRank 0 xs)
    (happend (hrank 1) ?_ (isInOrder_ofRank 1 xs)
      (happend (hrank 2) ?_ (isInOrder_ofRank 2 xs) (isInOrder_ofRank 3 xs)))
  · intro y hy
    rcases List.mem_append.mp hy with hy | hy
    · rw [hrank 2 y hy]; decide
    · rw [hrank 3 y hy]; decide
  · intro y hy
    rw [hrank 3 y hy]; decide

/-- Parts that stand in order are left as they are. -/
theorem inOrder_eq_self (h : IsInOrder xs) : inOrder xs = xs := by
  induction xs with
  | nil => rfl
  | cons x xs ih =>
      obtain ⟨hx, hxs⟩ := List.pairwise_cons.mp h
      have hnone : ∀ r < x.rank, ofRank r xs = [] := by
        intro r hr
        refine List.filter_eq_nil_iff.mpr fun y hy => ?_
        have hle := hx y hy
        simp only [decide_eq_true_eq]
        omega
      have hhead : ∀ r, ofRank r (x :: xs) = if x.rank = r then x :: ofRank r xs else ofRank r xs := by
        intro r
        by_cases hr : x.rank = r <;> simp [ofRank, hr]
      have hlt := x.rank_lt
      conv_rhs => rw [← ih hxs]
      simp only [inOrder, hhead]
      have hcases : x.rank = 0 ∨ x.rank = 1 ∨ x.rank = 2 ∨ x.rank = 3 := by omega
      rcases hcases with hr | hr | hr | hr
      · simp [hr]
      · simp [hr, hnone 0 (by omega)]
      · simp [hr, hnone 0 (by omega), hnone 1 (by omega)]
      · simp [hr, hnone 0 (by omega), hnone 1 (by omega), hnone 2 (by omega)]

end

/-! ## Taking a compound out of a union -/

variable {c d : Compound}

theorem parts_union (c d : Compound) :
    (c.union d).parts = inOrder (c.parts ++ d.parts.filter (· ∉ c.parts)) :=
  congrArg inOrder (foldl_addNew_eq d.nodup)

/-- The parts of one rank in a union. -/
theorem ofRank_union {r : Nat} (hr : r < 4) (c d : Compound) : ofRank r (c.union d).parts =
    ofRank r c.parts ++ (ofRank r d.parts).filter (· ∉ c.parts) := by
  rw [parts_union, ofRank_inOrder hr, ofRank_append]
  simp only [ofRank, List.filter_filter, Bool.and_comm]

/-- Two unions are the same if they are the same in each rank. -/
theorem union_eq_union_iff {e f : Compound} :
    c.union d = e.union f ↔ ∀ r < 4, ofRank r (c.union d).parts = ofRank r (e.union f).parts := by
  constructor
  · exact fun h _ _ => h ▸ rfl
  · intro h
    have hparts : (c.union d).parts = (e.union f).parts := by
      simp only [parts_union] at h ⊢
      exact inOrder_eq_iff.mpr fun r hr => by
        rw [← ofRank_inOrder hr, h r hr, ofRank_inOrder hr]
    cases hcd : c.union d
    cases hef : e.union f
    simpa [hcd, hef] using hparts

/-- Where a compound is taken out of a union and put in again, its parts come behind those that only
the other one has. -/
theorem ofRank_union_again {r : Nat} (hr : r < 4) (c d : Compound) :
    ofRank r (((c.union d).difference d).union d).parts =
      (ofRank r c.parts).filter (· ∉ d.parts) ++ ofRank r d.parts := by
  have hall : (ofRank r d.parts).filter (· ∉ ((c.union d).difference d).parts) =
      ofRank r d.parts := by
    refine List.filter_eq_self.mpr fun x hx => ?_
    simp [mem_difference, (mem_ofRank.mp hx).1]
  have hfirst : ofRank r ((c.union d).difference d).parts =
      (ofRank r c.parts).filter (· ∉ d.parts) := by
    have hnone : ((ofRank r d.parts).filter (· ∉ c.parts)).filter (· ∉ d.parts) = [] := by
      refine List.filter_eq_nil_iff.mpr fun x hx => ?_
      simp [(mem_ofRank.mp (List.mem_filter.mp hx).1).1]
    have hcomm : ofRank r ((c.union d).difference d).parts =
        (ofRank r (c.union d).parts).filter (· ∉ d.parts) := by
      simp only [ofRank, difference, List.filter_filter, Bool.and_comm]
    rw [hcomm, ofRank_union hr, List.filter_append, hnone, List.append_nil]
  rw [ofRank_union hr, hall, hfirst]

/-- What two lists share stands at the end of the first and at the beginning of the second. -/
def Overlaps (xs ys : List SimpleSelector) : Prop :=
  ∃ own shared other, xs = own ++ shared ∧ ys = shared ++ other ∧ (∀ x ∈ own, x ∉ ys) ∧
    ∀ y ∈ other, y ∉ xs

/-- Only where they overlap can shared parts be counted to either of the two. -/
theorem overlaps_iff {xs ys : List SimpleSelector} :
    xs.filter (· ∉ ys) ++ ys = xs ++ ys.filter (· ∉ xs) ↔ Overlaps xs ys := by
  constructor
  · intro h
    have hown : ∀ x ∈ xs.filter (· ∉ ys), x ∉ ys := fun x hx => by
      simpa using (List.mem_filter.mp hx).2
    have hother : ∀ y ∈ ys.filter (· ∉ xs), y ∉ xs := fun y hy => by
      simpa using (List.mem_filter.mp hy).2
    rcases List.append_eq_append_iff.mp h with ⟨shared, hxs, hys⟩ | ⟨extra, hxs, hys⟩
    · exact ⟨_, shared, _, hxs, hys, hown, hother⟩
    · -- nothing is left out of the first list, so the two share nothing
      have hle := (List.filter_sublist (p := (· ∉ ys)) (l := xs)).length_le
      rw [hxs, List.length_append] at hle
      obtain rfl := List.length_eq_zero_iff.mp (by omega : extra.length = 0)
      rw [List.append_nil] at hxs
      have hall : ys.filter (· ∉ xs) = ys := hys
      exact ⟨xs, [], ys, (List.append_nil xs).symm, rfl, hxs ▸ hown, hall ▸ hother⟩
  · rintro ⟨own, shared, other, rfl, rfl, hown, hother⟩
    have hleft : (own ++ shared).filter (· ∉ shared ++ other) = own := by
      rw [List.filter_append, List.filter_eq_self.mpr fun x hx => by simpa using hown x hx,
        List.filter_eq_nil_iff.mpr fun x hx => by simp [hx], List.append_nil]
    have hright : (shared ++ other).filter (· ∉ own ++ shared) = other := by
      rw [List.filter_append, List.filter_eq_nil_iff.mpr fun x hx => by simp [hx],
        List.filter_eq_self.mpr fun y hy => by simpa using hother y hy, List.nil_append]
    rw [hleft, hright, List.append_assoc]

/--
**Taking a compound out of a union and putting it in again** changes at most the order of the parts of
one rank. It changes nothing exactly if, in each rank, the parts that the two compounds share stand at
the end of the first one and at the beginning of the second one.
-/
theorem union_difference_union (c d : Compound) :
    (∀ r < 4, (ofRank r (((c.union d).difference d).union d).parts).Perm
        (ofRank r (c.union d).parts)) ∧
      (((c.union d).difference d).union d = c.union d ↔
        ∀ r < 4, Overlaps (ofRank r c.parts) (ofRank r d.parts)) := by
  -- a part of one rank is in a compound if it is in the parts of that rank
  have hrank : ∀ {r : Nat} {e f : Compound}, (ofRank r e.parts).filter (· ∉ f.parts) =
      (ofRank r e.parts).filter (· ∉ ofRank r f.parts) := by
    intro r e f
    refine List.filter_congr fun x hx => ?_
    simp [mem_ofRank, (mem_ofRank.mp hx).2]
  constructor
  · intro r _
    have hnodup : ∀ e : Compound, (ofRank r e.parts).Nodup := fun e => e.nodup.filter _
    refine (List.perm_ext_iff_of_nodup (hnodup _) (hnodup _)).mpr fun x => ?_
    simp only [mem_ofRank, mem_union, mem_difference]
    tauto
  · rw [union_eq_union_iff]
    refine forall₂_congr fun r hr => ?_
    rw [ofRank_union_again hr, ofRank_union hr, hrank, hrank, overlaps_iff]

/-- Taking `.y` out of the union of `.y.x` and `.y` and putting it in again turns `.y.x` into `.x.y`. -/
theorem union_again_differs :
    (((ofList [.ofClass "y", .ofClass "x"]).union (ofList [.ofClass "y"])).difference
        (ofList [.ofClass "y"])).union (ofList [.ofClass "y"]) ≠
      (ofList [.ofClass "y", .ofClass "x"]).union (ofList [.ofClass "y"]) := by
  decide

/-! ## Unifying a compound with itself -/

/-- Nothing that asks for two ids comes of unifying. -/
theorem asksOneId_of_unify? {target extending u : Compound}
    (h : c.unify? target extending = some u) : u.AsksOneId := by
  simp only [unify?, Option.ite_none_left_eq_some, Option.some.injEq] at h
  obtain ⟨-, -, hids, rfl⟩ := h
  exact isContradictory_eq_false_iff.mp (by simpa using hids)

/--
**A compound unified with itself** comes back with its parts in the order of their ranks. So it comes
back as it is exactly if they stood in that order. Nothing comes back only if it asks for two ids.
-/
theorem unify?_self (c : Compound) :
    (c.unify? c c = none ↔ ¬ c.AsksOneId) ∧
      ∀ u, c.unify? c c = some u → u.parts = inOrder c.parts ∧ (u = c ↔ IsInOrder c.parts) := by
  -- nothing of the compound is kept beside itself, so its parts come in once
  have hnothing : (c.kept c c).parts = [] := by
    refine List.filter_eq_nil_iff.mpr fun x hx => ?_
    simp [hx]
  have hparts : ((c.kept c c).union c).parts = inOrder c.parts := by
    rw [parts_union, hnothing, List.nil_append, List.filter_eq_self.mpr fun x _ => by simp]
  have hids : ((c.kept c c).union c).AsksOneId ↔ c.AsksOneId := by
    simp only [AsksOneId, hparts, mem_inOrder]
  constructor
  · constructor
    · intro hnone
      rcases of_unify?_eq_none c.subsumes_refl hnone with ⟨-, own, name, hown, hname, hne⟩ | htwo
      · rw [hown] at hname
        exact absurd (by simpa using hname) hne
      · rw [← hids, ← isContradictory_eq_false_iff, htwo]
        decide
    · intro htwo
      by_contra hsome
      obtain ⟨u, hu⟩ := Option.ne_none_iff_exists'.mp hsome
      have hone := asksOneId_of_unify? hu
      obtain ⟨-, rfl, -⟩ := exists_of_unify? hu
      exact htwo (hids.mp hone)
  · intro u hu
    obtain ⟨-, rfl, -⟩ := exists_of_unify? hu
    refine ⟨hparts, fun heq => ?_, fun hordered => ?_⟩
    · rw [← congrArg parts heq, hparts]
      exact isInOrder_inOrder _
    · have hsame := hparts.trans (inOrder_eq_self hordered)
      cases hunion : (c.kept c c).union c
      cases c
      simpa [hunion] using hsame

/-- Unified with itself, `:hover.x` becomes `.x:hover`. -/
theorem unify?_self_differs :
    ¬ ((ofList [.pseudoClass "hover" none, .ofClass "x"]).unify?
        (ofList [.pseudoClass "hover" none, .ofClass "x"])
        (ofList [.pseudoClass "hover" none, .ofClass "x"]) =
          some (ofList [.pseudoClass "hover" none, .ofClass "x"]) ∨
      (ofList [.pseudoClass "hover" none, .ofClass "x"]).unify?
        (ofList [.pseudoClass "hover" none, .ofClass "x"])
        (ofList [.pseudoClass "hover" none, .ofClass "x"]) = none) := by
  decide

end Scss.Compound
