import Scss.Buckets
import Scss.Selector

/-!
# Sets of selectors

A selector list keeps the order in which its selectors came and holds none twice. A selector is
redundant if another one asks for less; of two that ask for the same the later one is.
-/

namespace Scss

/-- A number for a selector, taken from its text. -/
def Selector.number (s : Selector) : Nat :=
  s.text.toList.foldl (fun n c => (31 * n + c.toNat) % 65521) 7

/-- How deep the index of a set is. -/
def SelectorSet.indexDepth : Nat := 12

/-- Selectors in the order in which they were inserted, without repetition. The index holds the
same selectors by their numbers. -/
structure SelectorSet where
  toList : List Selector
  index : Buckets Selector
  nodup : toList.Nodup
  mem_index : ∀ s, s ∈ index.find s.number ↔ s ∈ toList

namespace SelectorSet

def empty : SelectorSet := ⟨[], Buckets.empty indexDepth, List.Pairwise.nil, by simp⟩

instance : Inhabited SelectorSet := ⟨empty⟩

instance : EmptyCollection SelectorSet := ⟨empty⟩

instance : Membership Selector SelectorSet := ⟨fun set s => s ∈ set.toList⟩

/-- Membership is decided by the index. -/
instance (s : Selector) (set : SelectorSet) : Decidable (s ∈ set) :=
  decidable_of_iff (s ∈ set.index.find s.number) (set.mem_index s)

def size (set : SelectorSet) : Nat := set.toList.length

/-- The set with a new selector at its end. -/
def push (set : SelectorSet) (s : Selector) (new : s ∉ set) : SelectorSet where
  toList := set.toList ++ [s]
  index := set.index.put s.number s
  nodup := by
    rw [List.nodup_append]
    refine ⟨set.nodup, by simp, ?_⟩
    intro a ha b hb
    rw [List.mem_singleton] at hb
    rintro rfl
    exact new (hb ▸ ha)
  mem_index t := by
    rw [Buckets.mem_find_put, set.mem_index, List.mem_append, List.mem_singleton, or_comm]

/-- The set with a selector at its end, unless it is in it. -/
def insert (set : SelectorSet) (s : Selector) : SelectorSet :=
  if h : s ∈ set then set else set.push s h

theorem mem_insert {set : SelectorSet} {s t : Selector} : t ∈ set.insert s ↔ t ∈ set ∨ t = s := by
  unfold insert
  split
  next h => exact ⟨Or.inl, fun ht => ht.elim id fun e => e ▸ h⟩
  next h => exact List.mem_append.trans (or_congr Iff.rfl List.mem_singleton)

def ofList (selectors : List Selector) : SelectorSet := selectors.foldl insert empty

private theorem mem_index_ofNodup (selectors : List Selector) (s : Selector) :
    s ∈ (selectors.foldr (fun t index => index.put t.number t)
      (Buckets.empty indexDepth)).find s.number ↔ s ∈ selectors := by
  induction selectors with
  | nil => simp
  | cons t rest ih => rw [List.foldr_cons, Buckets.mem_find_put, ih, List.mem_cons]

/-- The set of selectors that are all different. -/
def ofNodup (selectors : List Selector) (nodup : selectors.Nodup) : SelectorSet where
  toList := selectors
  index := selectors.foldr (fun s index => index.put s.number s) (Buckets.empty indexDepth)
  nodup := nodup
  mem_index := mem_index_ofNodup selectors

/-- The selectors that satisfy a test. -/
def filter (set : SelectorSet) (test : Selector → Bool) : SelectorSet :=
  ofNodup (set.toList.filter test) (List.Pairwise.filter _ set.nodup)

/-! ## Redundancy -/

/-- Whether a selector in front of `s` asks for no more, or one behind it for less. -/
def isRedundant (before : List Selector) (s : Selector) (behind : List Selector) : Bool :=
  before.any (·.subsumes s) || behind.any fun t => t.subsumes s && !s.subsumes t

/-- The selectors of `rest` that are not redundant in the list `before ++ rest`. The first `spared` of
them stay in any case. -/
def essential (before : List Selector) (spared : Nat) : List Selector → List Selector
  | [] => []
  | s :: behind =>
    let kept := essential (before ++ [s]) (spared - 1) behind
    if spared = 0 && isRedundant before s behind then kept else s :: kept

theorem essential_sublist (before : List Selector) (spared : Nat) (rest : List Selector) :
    (essential before spared rest).Sublist rest := by
  induction rest generalizing before spared with
  | nil => exact List.Sublist.refl _
  | cons s behind ih =>
    simp only [essential]
    split
    · exact (ih _ _).cons s
    · exact (ih _ _).cons_cons s

/-- The set without its redundant selectors, the first `spared` left alone. -/
def eliminate (set : SelectorSet) (spared : Nat) : SelectorSet :=
  ofNodup (essential [] spared set.toList) (set.nodup.sublist (essential_sublist _ _ _))

end SelectorSet

end Scss
