import Scss.Proofs.Agreement
import Scss.Proofs.Spacing

/-!
# Operators bind as their precedence says

A chain of operands and binary operators, with signs in front of the operands, is computed while it is
read. So the grouping, the order in which operands are evaluated, and the failure that comes first are
all decided by one function. What it comes to is a tree: the right operand of an operator is what
follows it as far as the operators there bind tighter (`OperatorChain.grow`), and the rest of the chain
goes on from what that makes.

Such a tree can be cut at the last of the operators that bind least. What stands in front of that one is
its left operand and what stands behind it is its right operand, each grown as a chain of its own. As
parentheses do nothing but make a chain of its own, the whole chain computes to what it computes to with
both sides in parentheses.
-/

namespace Scss

variable {α : Type}

/-! ## Chains -/

/-- An operand with the signs in front of it. -/
structure Term (α : Type) where
  signs : List Operator
  operand : α
  areSigns : ∀ op ∈ signs, op.canBeUnary = true

/-- A binary operator and the term behind it. -/
structure OperatorLink (α : Type) where
  op : Operator
  term : Term α
  isBinary : op ≠ .not

/-- Terms with binary operators between them. -/
structure OperatorChain (α : Type) where
  first : Term α
  links : List (OperatorLink α)

namespace Term

/-- A term without signs. -/
def bare (a : α) : Term α := ⟨[], a, fun _ h => absurd h List.not_mem_nil⟩

def tokens (t : Term α) : List (ExprToken α) := t.signs.map .operator ++ [.operand t.operand]

def tree (t : Term α) : OperationTree α := t.signs.foldr .unary (.operand t.operand)

end Term

namespace OperatorLink

def tokens (l : OperatorLink α) : List (ExprToken α) := .operator l.op :: l.term.tokens

/-- Whether an operator binds tighter than the one of this link. -/
def isLooser (l other : OperatorLink α) : Bool := l.op.precedence < other.op.precedence

end OperatorLink

namespace OperatorChain

def tokensOf (links : List (OperatorLink α)) : List (ExprToken α) := links.flatMap OperatorLink.tokens

def tokens (c : OperatorChain α) : List (ExprToken α) := c.first.tokens ++ tokensOf c.links

/-- The value that a chain is read as. -/
def value (c : OperatorChain Value) : Value := Value.ofTokens c.tokens

/-- The tree that grows from a left operand: behind an operator, the right operand takes in what binds
tighter. -/
def grow (left : OperationTree α) : List (OperatorLink α) → OperationTree α
  | [] => left
  | l :: rest =>
    grow (.binary l.op left (grow l.term.tree (rest.takeWhile l.isLooser)))
      (rest.dropWhile l.isLooser)
termination_by links => links.length
decreasing_by
  · exact Nat.lt_succ_of_le (List.takeWhile_prefix _).length_le
  · exact Nat.lt_succ_of_le (List.dropWhile_suffix _).length_le

theorem grow_nil (left : OperationTree α) : grow left [] = left := by rw [grow]

theorem grow_cons (left : OperationTree α) (l : OperatorLink α) (rest : List (OperatorLink α)) :
    grow left (l :: rest) =
      grow (.binary l.op left (grow l.term.tree (rest.takeWhile l.isLooser)))
        (rest.dropWhile l.isLooser) := by
  rw [grow]

def tree (c : OperatorChain α) : OperationTree α := grow c.first.tree c.links

/-- The last of the operators that bind least, with what stands in front of it and behind it. -/
structure LowestAt (links before : List (OperatorLink α)) (link : OperatorLink α)
    (after : List (OperatorLink α)) : Prop where
  split : links = before ++ link :: after
  before : ∀ l ∈ before, link.op.precedence ≤ l.op.precedence
  after : ∀ l ∈ after, link.op.precedence < l.op.precedence

/-! ## Reading a chain -/

variable (text : α → String)

/-- A term is read whole, whatever follows it. -/
theorem readUnary_term (t : Term α) (rest : List (ExprToken α)) :
    OperationTree.readUnary text (t.tokens ++ rest) = (t.tree, rest) := by
  obtain ⟨signs, operand, hsigns⟩ := t
  simp only [Term.tokens, Term.tree]
  induction signs with
  | nil => rfl
  | cons op signs ih =>
      obtain ⟨hop, hrest⟩ := List.forall_mem_cons.mp hsigns
      rw [List.map_cons, List.cons_append, List.cons_append, OperationTree.readUnary, if_pos hop,
        ih hrest]
      rfl

theorem readUnary_tokensOf (t : Term α) (links : List (OperatorLink α)) :
    OperationTree.readUnary text (t.tokens ++ tokensOf links) = (t.tree, tokensOf links) :=
  readUnary_term text t _

/-- Whether an operator binds at least so tightly. -/
def reaches (least : Nat) (l : OperatorLink α) : Bool := least ≤ l.op.precedence

/-- What binds tighter than a link is reached where the link is. So the links that are reached are
those that bind tighter, and those reached behind them. -/
theorem span_reaches {least : Nat} {l : OperatorLink α} (h : reaches least l = true)
    (rest : List (OperatorLink α)) :
    (rest.takeWhile (reaches least)).takeWhile l.isLooser = rest.takeWhile l.isLooser ∧
      (rest.takeWhile (reaches least)).dropWhile l.isLooser =
        (rest.dropWhile l.isLooser).takeWhile (reaches least) ∧
      (rest.dropWhile l.isLooser).dropWhile (reaches least) = rest.dropWhile (reaches least) := by
  induction rest with
  | nil => exact ⟨rfl, rfl, rfl⟩
  | cons m rest ih =>
      obtain ⟨htake, hbetween, hdrop⟩ := ih
      by_cases hm : l.isLooser m = true
      · -- what binds tighter than `l` binds tightly enough
        have hreached : reaches least m = true := by
          simp only [reaches, OperatorLink.isLooser, decide_eq_true_eq] at h hm ⊢
          omega
        simp only [List.takeWhile_cons, List.dropWhile_cons, hm, hreached, if_true]
        exact ⟨congrArg (m :: ·) htake, hbetween, hdrop⟩
      · by_cases hreached : reaches least m = true
        · simp [hm, hreached]
        · simp [hm, hreached]

/-- **A chain is read as far as its operators bind tightly enough**, and the tree grows from what has
been read before. -/
theorem extend_tokensOf (links : List (OperatorLink α)) :
    ∀ {least fuel : Nat} (left : OperationTree α), links.length ≤ fuel →
      OperationTree.extend text least fuel left (tokensOf links) =
        (grow left (links.takeWhile (reaches least)), tokensOf (links.dropWhile (reaches least))) := by
  -- the right operand and what follows it are both shorter than the chain
  induction hn : links.length using Nat.strongRecOn generalizing links with
  | ind n ih =>
      intro least fuel left hfuel
      subst hn
      cases links with
      | nil => cases fuel <;> simp [OperationTree.extend, tokensOf, grow_nil]
      | cons l rest =>
          obtain ⟨fuel, rfl⟩ : ∃ f, fuel = f + 1 :=
            Nat.exists_eq_succ_of_ne_zero (by rw [List.length_cons] at hfuel; omega)
          have hrest : rest.length ≤ fuel := Nat.le_of_succ_le_succ hfuel
          show OperationTree.extend text least (fuel + 1) left
            (.operator l.op :: (l.term.tokens ++ tokensOf rest)) = _
          rw [OperationTree.extend]
          by_cases hl : reaches least l = true
          · have hbinds : ¬ (l.op = .not ∨ l.op.precedence < least) := by
              rintro (hnot | hlt)
              · exact l.isBinary hnot
              · simp only [reaches, decide_eq_true_eq] at hl
                omega
            obtain ⟨htake, hbetween, hdrop⟩ := span_reaches hl rest
            have htighter : (reaches (l.op.precedence + 1) : OperatorLink α → Bool) = l.isLooser := rfl
            have hlength : (rest.dropWhile l.isLooser).length ≤ rest.length :=
              (List.dropWhile_suffix _).length_le
            rw [if_neg hbinds, readUnary_tokensOf]
            dsimp only
            rw [ih rest.length (Nat.lt_succ_self _) rest rfl _ hrest, htighter]
            dsimp only
            rw [ih _ (Nat.lt_succ_of_le hlength) (rest.dropWhile l.isLooser) rfl _
              (Nat.le_trans hlength hrest), hdrop]
            simp only [List.takeWhile_cons, List.dropWhile_cons, hl, if_true]
            rw [grow_cons, htake, hbetween]
          · -- the chain is left to whoever waits for a looser operator
            have hstops : l.op = .not ∨ l.op.precedence < least := by
              simp only [reaches, decide_eq_true_eq] at hl
              exact .inr (by omega)
            rw [if_pos hstops]
            simp only [List.takeWhile_cons, List.dropWhile_cons, hl]
            rw [if_neg Bool.false_ne_true, if_neg Bool.false_ne_true, grow_nil]
            rfl

theorem length_le_tokensOf (links : List (OperatorLink α)) :
    links.length ≤ (tokensOf links).length := by
  induction links with
  | nil => exact Nat.le_refl _
  | cons l rest ih =>
      show rest.length + 1 ≤ (l.tokens ++ tokensOf rest).length
      rw [List.length_append, OperatorLink.tokens, List.length_cons]
      omega

/-- **A chain is read whole**, as the tree that grows from its first term. -/
theorem read_tokens (c : OperatorChain α) :
    OperationTree.read text c.tokens = (c.tree, []) := by
  have hreached : ∀ l ∈ c.links, reaches 1 l = true := by
    intro l _
    have hbinary := l.isBinary
    cases hop : l.op with
    | not => exact absurd hop hbinary
    | _ => simp [reaches, hop, Operator.precedence]
  have hfuel : c.links.length ≤ c.tokens.length := by
    rw [tokens, List.length_append]
    exact Nat.le_add_left_of_le (length_le_tokensOf c.links)
  rw [OperationTree.read]
  show OperationTree.extend text 1 c.tokens.length
    (OperationTree.readUnary text (c.first.tokens ++ tokensOf c.links)).1
    (OperationTree.readUnary text (c.first.tokens ++ tokensOf c.links)).2 = _
  rw [readUnary_tokensOf, extend_tokensOf text c.links _ hfuel,
    List.takeWhile_eq_self_iff.mpr hreached, List.dropWhile_eq_nil_iff.mpr hreached]
  rfl

/-! ## Cutting a chain -/

omit text in
/-- Taking and dropping end at a link that stops them. -/
theorem while_append_stop (xs ys : List (OperatorLink α)) {p : OperatorLink α → Bool}
    {stop : OperatorLink α} (h : p stop = false) :
    (xs ++ stop :: ys).takeWhile p = xs.takeWhile p ∧
      (xs ++ stop :: ys).dropWhile p = xs.dropWhile p ++ stop :: ys := by
  induction xs with
  | nil => simp [h]
  | cons x xs ih =>
      obtain ⟨htake, hdrop⟩ := ih
      by_cases hx : p x = true
      · simp [hx, htake, hdrop]
      · simp [hx]

omit text in
/-- **A tree is cut at the last of the operators that bind least.** -/
theorem grow_lowest {links before after : List (OperatorLink α)} {link : OperatorLink α}
    (h : LowestAt links before link after) (left : OperationTree α) :
    grow left links = .binary link.op (grow left before) (grow link.term.tree after) := by
  obtain ⟨rfl, hbefore, hafter⟩ := h
  induction hn : before.length using Nat.strongRecOn generalizing before left with
  | ind n ih =>
      subst hn
      cases before with
      | nil =>
          have htighter : ∀ l ∈ after, link.isLooser l = true := fun l hl =>
            decide_eq_true (hafter l hl)
          rw [List.nil_append, grow_cons, List.takeWhile_eq_self_iff.mpr htighter,
            List.dropWhile_eq_nil_iff.mpr htighter, grow_nil, grow_nil]
      | cons b rest =>
          -- the right operand of `b` ends at the link at the latest
          have hstops : b.isLooser link = false := by
            have hle := hbefore b List.mem_cons_self
            exact decide_eq_false (by omega)
          obtain ⟨htake, hdrop⟩ := while_append_stop rest after hstops
          have hshorter : (rest.dropWhile b.isLooser).length < (b :: rest).length :=
            Nat.lt_succ_of_le (List.dropWhile_suffix _).length_le
          rw [List.cons_append, grow_cons, htake, hdrop, grow_cons]
          refine ih _ hshorter _ (fun l hl => ?_) rfl
          exact hbefore l (List.mem_cons_of_mem b ((List.dropWhile_suffix _).subset hl))

omit text in
/-- There is such an operator in every chain that has operators. -/
theorem exists_lowest {links : List (OperatorLink α)} (h : links ≠ []) :
    ∃ before link after, LowestAt links before link after := by
  induction links with
  | nil => exact absurd rfl h
  | cons l rest ih =>
      by_cases hrest : rest = []
      · subst hrest
        exact ⟨[], l, [], rfl, fun _ hm => absurd hm List.not_mem_nil,
          fun _ hm => absurd hm List.not_mem_nil⟩
      · obtain ⟨before, link, after, rfl, hbefore, hafter⟩ := ih hrest
        by_cases hlower : link.op.precedence ≤ l.op.precedence
        · exact ⟨l :: before, link, after, rfl, List.forall_mem_cons.mpr ⟨hlower, hbefore⟩, hafter⟩
        · -- the new operator binds less than the lowest one behind it, so less than all of them
          refine ⟨[], l, before ++ link :: after, rfl, fun _ hm => absurd hm List.not_mem_nil, ?_⟩
          intro m hm
          rcases List.mem_append.mp hm with hm | hm
          · have := hbefore m hm
            omega
          · rcases List.mem_cons.mp hm with rfl | hm
            · omega
            · have := hafter m hm
              omega

end OperatorChain

/-! ## Tokens without blanks -/

section
variable {tokens : List (ExprToken α)} (h : ∀ t ∈ tokens, t.isBlank = false)
include h

theorem isSpaced_solid : IsSpaced tokens where
  single := by
    refine List.Pairwise.isChain (List.pairwise_of_forall_mem_list fun _ _ u hu _ => ?_)
    exact h u hu
  first t ht := h t (List.mem_of_mem_head? ht)
  last t ht := h t (List.mem_of_getLast? ht)

/-- Only blanks part groups. -/
theorem Evaluation.spaceGroups_solid (hne : tokens ≠ []) : spaceGroups tokens = [tokens] := by
  have hparted := spaceGroups_parted (isSpaced_solid h) hne
  revert hparted
  generalize spaceGroups tokens = groups
  intro hparted
  cases hparted with
  | last => rfl
  | more _ _ _ => exact Bool.noConfusion (h .blank (List.mem_append_right _ List.mem_cons_self))

end

namespace OperatorChain

open Compile Evaluation

theorem tokens_ne_nil (c : OperatorChain α) : c.tokens ≠ [] := by
  simp [tokens, Term.tokens]

theorem isBlank_tokens (c : OperatorChain α) : ∀ t ∈ c.tokens, t.isBlank = false := by
  have hterm : ∀ (term : Term α), ∀ t ∈ term.tokens, t.isBlank = false := by
    intro term t ht
    rcases List.mem_append.mp ht with ht | ht
    · obtain ⟨op, -, rfl⟩ := List.mem_map.mp ht
      rfl
    · obtain rfl := List.mem_singleton.mp ht
      rfl
  intro t ht
  rcases List.mem_append.mp ht with ht | ht
  · exact hterm _ t ht
  · obtain ⟨l, -, ht⟩ := List.mem_flatMap.mp ht
    rcases List.mem_cons.mp ht with rfl | ht
    · rfl
    · exact hterm _ t ht

/-! ## Computing a chain -/

variable (call : Caller) (position : Position)

/-- A chain is computed as its tree. -/
theorem compute_tokens (c : OperatorChain Value) :
    compute call position (.expression c.tokens) =
      runTree position (c.tree.map (suspend call position true)) := by
  have hsolid : c.tokens.filter (fun t => !t.isBlank) = c.tokens :=
    List.filter_eq_self.mpr fun t ht => by rw [isBlank_tokens c t ht]; rfl
  rw [compute, evaluate]
  show runExpression position true (suspendTokens call position true c.tokens) = _
  rw [runExpression, suspendTokens_eq_map, spaceGroups_map,
    spaceGroups_solid (isBlank_tokens c) c.tokens_ne_nil]
  simp only [List.map_cons, List.map_nil, List.mapM_cons, List.mapM_nil, if_true,
    runArithmetic_suspend, hsolid, read_tokens, bind_pure, pure_bind, bind_assoc]

theorem compute_value (c : OperatorChain Value) :
    compute call position c.value = runTree position (c.tree.map (suspend call position true)) := by
  rw [← compute_tokens, value]
  have htrim := ExprToken.trim_eq_self (isSpaced_solid (isBlank_tokens c))
  rcases Value.ofTokens_cases c.tokens with ⟨hnil, -⟩ | ⟨v, htokens, hv⟩ | ⟨-, hvalue⟩
  · exact absurd (htrim ▸ hnil) c.tokens_ne_nil
  · -- one operand alone is a group of its own
    have hsingle := compute_tokens call position ⟨Term.bare v, []⟩
    rw [tree, grow_nil] at hsingle
    rw [hv, ← htrim, htokens]
    exact hsingle.symm
  · rw [hvalue, htrim]

/-- Parentheses ask for what is in them to be computed, so both sides of an operator are computed and
then put together. -/
theorem compute_sides {op : Operator} (h : op ≠ .not) (left right : Value) :
    compute call position (.expression
      [.operand (.paren left), .operator op, .operand (.paren right)]) = (do
        let l ← compute call position left
        let r ← compute call position right
        ofFault position (Value.applyBinary op l r)) := by
  have hchain := compute_tokens call position
    ⟨Term.bare (.paren left), [⟨op, Term.bare (.paren right), h⟩]⟩
  rw [tree, grow_cons, List.takeWhile_nil, List.dropWhile_nil, grow_nil, grow_nil] at hchain
  refine hchain.trans ?_
  show (do
    let l ← evaluate call position true (.paren left)
    let r ← evaluate call position true (.paren right)
    ofFault position (Value.applyBinary op l r)) = _
  rw [evaluate, evaluate]
  rfl

/-- **The operators of a chain bind as their precedence says, equal ones from the left.** A chain of
operands with signs in front of them is computed as if what stands on either side of the last operator
that binds least were in parentheses: to the same value or failure, with the same context left. -/
theorem compute_grouped (c : OperatorChain Value) (h : c.links ≠ []) :
    (∃ before link after, LowestAt c.links before link after) ∧
      ∀ before link after, LowestAt c.links before link after →
        compute call position c.value =
          compute call position (.expression
            [.operand (.paren (OperatorChain.mk c.first before).value), .operator link.op,
              .operand (.paren (OperatorChain.mk link.term after).value)]) := by
  refine ⟨exists_lowest h, fun before link after hlowest => ?_⟩
  rw [compute_sides call position link.isBinary, compute_value, compute_value, compute_value, tree,
    grow_lowest hlowest]
  rfl

/-- The links of `$a - -f() - not $b * $c` behind its first term. -/
def sampleLinks : List (OperatorLink Value) :=
  [⟨.minus, ⟨[.minus], .call "f" [], by decide⟩, by decide⟩,
    ⟨.minus, ⟨[.not], .variable "b", by decide⟩, by decide⟩,
    ⟨.times, Term.bare (.variable "c"), by decide⟩]

theorem compute_grouped_sample :
    sampleLinks ≠ [] ∧
      compute (invoke maxCallDepth) (Position.start "a.scss")
          (OperatorChain.mk (Term.bare (.variable "a")) sampleLinks).value =
        compute (invoke maxCallDepth) (Position.start "a.scss") (.expression
          [.operand (.paren (.expression [.operand (.variable "a"), .operator .minus,
              .operator .minus, .operand (.call "f" [])])),
            .operator .minus,
            .operand (.paren (.expression [.operator .not, .operand (.variable "b"),
              .operator .times, .operand (.variable "c")]))]) := by
  have hlinks : sampleLinks ≠ [] := List.cons_ne_nil _ _
  have hlowest : LowestAt sampleLinks [sampleLinks[0]] sampleLinks[1] [sampleLinks[2]] :=
    ⟨rfl, by decide, by decide⟩
  have hgrouped := (compute_grouped (invoke maxCallDepth) (Position.start "a.scss")
    ⟨Term.bare (.variable "a"), sampleLinks⟩ hlinks).2 _ _ _ hlowest
  refine ⟨hlinks, hgrouped.trans ?_⟩
  rfl

end OperatorChain

end Scss
