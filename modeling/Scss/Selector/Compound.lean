import Scss.Selector.Simple

/-!
# Compound selectors

Simple selectors written without a space, all of which an element must meet. A compound never
holds one twice, and the operations keep that: adding, removing, and putting in writing order.
-/

namespace Scss

/-- Simple selectors that an element must all meet, without repetition. -/
structure Compound where
  parts : List SimpleSelector
  nodup : parts.Nodup := by exact List.Pairwise.nil
  deriving DecidableEq, Repr

namespace Compound

instance : Inhabited Compound := ⟨{ parts := [] }⟩

instance : Hashable Compound := ⟨fun c => hash c.parts⟩

/-! ## Adding and ordering keep the parts distinct -/

/-- The list with `x` at its end, unless it is there already. -/
def addNew (xs : List SimpleSelector) (x : SimpleSelector) : List SimpleSelector :=
  if x ∈ xs then xs else xs ++ [x]

theorem nodup_addNew {xs : List SimpleSelector} (h : xs.Nodup) (x : SimpleSelector) :
    (addNew xs x).Nodup := by
  unfold addNew
  split
  · exact h
  next hx =>
    rw [List.nodup_append]
    refine ⟨h, by simp, ?_⟩
    intro a ha b hb
    rw [List.mem_singleton] at hb
    rintro rfl
    exact hx (hb ▸ ha)

theorem nodup_foldl_addNew {xs : List SimpleSelector} (h : xs.Nodup) (ys : List SimpleSelector) :
    (ys.foldl addNew xs).Nodup := by
  induction ys generalizing xs with
  | nil => exact h
  | cons y ys ih => exact ih (nodup_addNew h y)

theorem mem_addNew {xs : List SimpleSelector} {x y : SimpleSelector} :
    y ∈ addNew xs x ↔ y ∈ xs ∨ y = x := by
  unfold addNew
  split
  next h => exact ⟨Or.inl, fun hy => hy.elim id fun e => e ▸ h⟩
  · simp

theorem mem_foldl_addNew {xs ys : List SimpleSelector} {y : SimpleSelector} :
    y ∈ ys.foldl addNew xs ↔ y ∈ xs ∨ y ∈ ys := by
  induction ys generalizing xs with
  | nil => simp
  | cons z zs ih => rw [List.foldl_cons, ih, mem_addNew, List.mem_cons, or_assoc]

/-- The selectors of one rank. -/
def ofRank (r : Nat) (xs : List SimpleSelector) : List SimpleSelector :=
  xs.filter fun x => x.rank = r

/-- The selectors in the order in which they are written; those of one rank keep theirs. -/
def inOrder (xs : List SimpleSelector) : List SimpleSelector :=
  ofRank 0 xs ++ (ofRank 1 xs ++ (ofRank 2 xs ++ ofRank 3 xs))

theorem mem_ofRank {r : Nat} {xs : List SimpleSelector} {x : SimpleSelector} :
    x ∈ ofRank r xs ↔ x ∈ xs ∧ x.rank = r := by
  simp [ofRank]

theorem mem_inOrder {xs : List SimpleSelector} {x : SimpleSelector} :
    x ∈ inOrder xs ↔ x ∈ xs := by
  simp only [inOrder, List.mem_append, mem_ofRank]
  refine ⟨?_, fun h => ?_⟩
  · rintro (h | h | h | h) <;> exact h.1
  · have bound := x.rank_lt
    have : x.rank = 0 ∨ x.rank = 1 ∨ x.rank = 2 ∨ x.rank = 3 := by omega
    rcases this with e | e | e | e <;> simp [h, e]

theorem nodup_inOrder {xs : List SimpleSelector} (h : xs.Nodup) : (inOrder xs).Nodup := by
  have apart : ∀ {r s : Nat} {x y : SimpleSelector}, r ≠ s → x ∈ ofRank r xs →
      y ∈ ofRank s xs → x ≠ y := by
    intro r s x y hrs hx hy e
    subst e
    exact hrs ((mem_ofRank.mp hx).2.symm.trans (mem_ofRank.mp hy).2)
  have each : ∀ r, (ofRank r xs).Nodup := fun r => List.Pairwise.filter _ h
  simp only [inOrder, List.nodup_append, List.mem_append]
  refine ⟨each 0, ⟨each 1, ⟨each 2, each 3, ?_⟩, ?_⟩, ?_⟩
  · exact fun _ hx _ hy => apart (by decide) hx hy
  · rintro _ hx _ (hy | hy)
    · exact apart (by decide) hx hy
    · exact apart (by decide) hx hy
  · rintro _ hx _ (hy | hy | hy)
    · exact apart (by decide) hx hy
    · exact apart (by decide) hx hy
    · exact apart (by decide) hx hy

/-! ## Building -/

/-- The compound of some simple selectors, each where it first occurs. -/
def ofList (xs : List SimpleSelector) : Compound :=
  ⟨xs.foldl addNew [], nodup_foldl_addNew List.Pairwise.nil xs⟩

def text (c : Compound) : String := String.join (c.parts.map SimpleSelector.text)

/-- The parts of `c` that are not in `d`. -/
def difference (c d : Compound) : Compound :=
  ⟨c.parts.filter fun x => x ∉ d.parts, List.Pairwise.filter _ c.nodup⟩

/-- The parts of both, in the order in which they are written. -/
def union (c d : Compound) : Compound :=
  ⟨inOrder (d.parts.foldl addNew c.parts), nodup_inOrder (nodup_foldl_addNew c.nodup d.parts)⟩

/-- The parts of `c` that satisfy a test. -/
def keep (c : Compound) (test : SimpleSelector → Bool) : Compound :=
  ⟨c.parts.filter test, List.Pairwise.filter _ c.nodup⟩

/-! ## Asking -/

/-- The first part that tests the element. -/
def elementTest? (c : Compound) : Option SimpleSelector := c.parts.find? SimpleSelector.isElementTest

/-- Whether the first test of the element names one. -/
def namesElement (c : Compound) : Bool := c.elementTest?.any SimpleSelector.isElement

def hasPlaceholder (c : Compound) : Bool := c.parts.any SimpleSelector.isPlaceholder

def hasParent (c : Compound) : Bool := c.parts.any SimpleSelector.isParent

def ids (c : Compound) : List String :=
  c.parts.filterMap fun
    | .id name => some name
    | _ => none

/-- Whether two different ids are asked for, which no element has. -/
def isContradictory (c : Compound) : Bool :=
  match c.ids with
  | first :: others => others.any (· != first)
  | [] => false

/-- Whether `c` asks for nothing that `d` does not ask for. A universal test in `c` asks for nothing. -/
def subsumes (c d : Compound) : Bool :=
  let anyElement := !c.namesElement
  c.parts.all fun x => (anyElement && x.isElementTest) || x ∈ d.parts

/-- What becomes of `c` where elements that meet `extending` count as meeting `target`: the parts of
`target` are replaced. There is no result if `target` does not apply or nothing could match. -/
def unify? (c target extending : Compound) : Option Compound :=
  if !target.subsumes c then none
  else
    let wanted := if extending.namesElement then extending.elementTest? else none
    let clash := !target.namesElement && match wanted, c.elementTest? with
      | some w, some (.element own) => w != .element own
      | _, _ => false
    if clash then none
    else
      let rest := c.difference target
      let rest := if wanted.isSome then rest.keep (· != .universal) else rest
      let unified := rest.union extending
      if unified.isContradictory then none else some unified

/-- The compound with its parent references replaced. A suffix goes to the last part of the parent;
where it cannot, it is returned as the error. -/
def substituteParent (c parent : Compound) : Except String Compound := do
  let pieces ← c.parts.mapM fun
    | .parent none => .ok parent.parts
    | .parent (some suffix) =>
      match parent.parts.getLast?.bind (SimpleSelector.withSuffix? suffix) with
      | some last => .ok (parent.parts.dropLast ++ [last])
      | none => .error suffix
    | part => .ok [part]
  .ok (ofList pieces.flatten)

end Compound

end Scss
