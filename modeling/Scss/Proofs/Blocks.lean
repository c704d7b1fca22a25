import Scss.Proofs.PlainCss

/-!
# Where declarations stand

The declarations and comments that stand directly in one directive make a block, and a block has a
path: the rules and other directives around it, from the outermost inwards. Trees of them, nested in
any way, are compared by their blocks.

In a flat tree the path of a block is a media directive, or a rule, or a rule in a media directive.
Where a block of the source belongs in a flat tree is read off its path (`Block.place`): the selectors
of its rules are resolved one in the other, and the queries of its media directives are joined.
Flattening does not work that way. It goes through the tree once and splits rules and media
directives on the way back, so it has to be seen what each splitting does to the blocks.
-/

namespace Scss

/-! ## Blocks -/

/-- A rule or another directive around a statement. -/
inductive Enclosing where
  | rule (selectors : List Selector)
  | media (query : String)
  | atRule (name : String)
  deriving DecidableEq

/-- What stands directly in one directive, in order, and the directives around it, the outermost
first. -/
structure Block where
  path : List Enclosing
  leaves : List Node

namespace Block

def within (e : Enclosing) (b : Block) : Block := { b with path := e :: b.path }

def isFull (b : Block) : Bool := !b.leaves.isEmpty

/-- Whether there is something in the block, and no rule around it is without selectors. -/
def isKept (b : Block) : Bool := b.isFull && decide (.rule [] ∉ b.path)

end Block

/-- The declarations and comments of a body. -/
def leavesOf (nodes : List Node) : List Node := nodes.filter fun n => n.statement.isLeaf

mutual

/-- The blocks of the directives in a body. -/
def nestedBlocks : List Node → List Block
  | [] => []
  | node :: rest => nodeBlocks node ++ nestedBlocks rest

def nodeBlocks : Node → List Block
  | .mk _ statement => statementBlocks statement

def statementBlocks : Statement → List Block
  | .rule (.parsed selectors) body =>
    (⟨[], leavesOf body⟩ :: nestedBlocks body).map (.within (.rule selectors))
  | .media query body =>
    (⟨[], leavesOf body⟩ :: nestedBlocks body).map (.within (.media (Interpolation.text query)))
  | .atRule name _ (some body) =>
    (⟨[], leavesOf body⟩ :: nestedBlocks body).map (.within (.atRule name))
  | _ => []

end

/-- All blocks of a body, its own first. -/
def blocksOf (nodes : List Node) : List Block := ⟨[], leavesOf nodes⟩ :: nestedBlocks nodes

/-! ## Where a block belongs -/

/-- The selectors of a rule, given those of the rule around it, if there is one. -/
def resolveRule (around : Option (List Selector)) (own : List Selector) :
    Except EvaluationFault (List Selector) :=
  match around with
  | none => .ok (Flatten.stripped own)
  | some parents => Flatten.nest own parents

/-- The selectors of the innermost of some rules, each of them resolved in the one around it. -/
def resolveRules (around : Option (List Selector)) :
    List (List Selector) → Except EvaluationFault (Option (List Selector))
  | [] => .ok around
  | own :: inner => do resolveRules (some (← resolveRule around own)) inner

/-- The query of some media directives inside each other, if there are any. Empty ones do not
count. -/
def joinQueries : List String → Option String
  | [] => none
  | queries => some (" and ".intercalate ((queries.map Text.trim).filter fun q => !q.isEmpty))

namespace Block

/-- The selectors of the rules around a block, as they are written. -/
def rules (b : Block) : List (List Selector) :=
  b.path.filterMap fun
    | .rule selectors => some selectors
    | _ => none

def queries (b : Block) : List String :=
  b.path.filterMap fun
    | .media query => some query
    | _ => none

/-- The block in its place in a flat tree, `around` being the selectors of the rule around the whole
tree. -/
def place (around : Option (List Selector)) (b : Block) : Except EvaluationFault Block := do
  let selectors ← resolveRules around b.rules
  return ⟨((joinQueries b.queries).map .media).toList ++ (selectors.map .rule).toList, b.leaves⟩

/-- A block of a flat tree inside a further media directive. -/
def underMedia (query : String) (b : Block) : Block :=
  match b.path with
  | .media inner :: rest => { b with path := .media (Flatten.mergeQueries query inner) :: rest }
  | path => { b with path := .media query :: path }

end Block

/-! ## Rules without selectors -/

/-- A rule in a rule without selectors has none either. -/
theorem resolveRules_some_nil (rules : List (List Selector)) :
    resolveRules (some []) rules = .ok (some []) := by
  induction rules with
  | nil => rfl
  | cons own inner ih => exact ih

/-! ## Joining queries -/

theorem intercalate_isEmpty {separator : String} {qs : List String} (hne : qs ≠ [])
    (hqs : ∀ q ∈ qs, q.isEmpty = false) : (separator.intercalate qs).isEmpty = false := by
  obtain ⟨q, rest, rfl⟩ := List.exists_cons_of_ne_nil hne
  have hq := hqs q List.mem_cons_self
  by_cases hrest : rest = []
  · rw [hrest, String.intercalate_singleton]
    exact hq
  · rw [String.intercalate_cons_of_ne_nil hrest]
    simp only [String.isEmpty_eq_false_iff] at hq ⊢
    simp [hq]

/-- The query around is merged with what the inner ones come to. -/
theorem joinQueries_cons (query : String) (inner : List String) :
    joinQueries (query :: inner) = some (match joinQueries inner with
      | none => Text.trim query
      | some joined => Flatten.mergeQueries (Text.trim query) joined) := by
  cases inner with
  | nil =>
      cases hempty : (Text.trim query).isEmpty with
      | true =>
          have hnil : Text.trim query = "" := String.isEmpty_iff.mp hempty
          simp [joinQueries, hnil]
      | false => simp [joinQueries, hempty]
  | cons next rest =>
      generalize hothers : ((next :: rest).map Text.trim).filter (fun q => !q.isEmpty) = others
      have hjoin : joinQueries (next :: rest) = some (" and ".intercalate others) := by
        rw [← hothers]
        rfl
      have hfilled : ∀ q ∈ others, q.isEmpty = false := by
        intro q hq
        rw [← hothers] at hq
        simpa using (List.mem_filter.mp hq).2
      show some (" and ".intercalate ((Text.trim query ::
        (next :: rest).map Text.trim).filter fun q => !q.isEmpty)) = _
      rw [hjoin, List.filter_cons, hothers]
      cases hempty : (Text.trim query).isEmpty with
      | true => simp [Flatten.mergeQueries, hempty]
      | false =>
          -- the inner queries come to nothing exactly if all of them are empty
          by_cases hnone : others = []
          · simp [Flatten.mergeQueries, hempty, hnone]
          · have hinner : (" and ".intercalate others).isEmpty = false :=
              intercalate_isEmpty hnone hfilled
            simp [Flatten.mergeQueries, hempty, hinner, String.intercalate_cons_of_ne_nil hnone]

/-! ## The place of a block, step by step -/

namespace Block

variable {around : Option (List Selector)} {b p : Block}

/-- Inside a rule, a block belongs where it belongs inside the resolved selectors. -/
theorem place_within_rule {own selectors : List Selector}
    (h : resolveRule around own = .ok selectors) :
    (b.within (.rule own)).place around = b.place (some selectors) := by
  have hrules : resolveRules around (b.within (.rule own)).rules =
      resolveRules (some selectors) b.rules := by
    show resolveRules around (own :: b.rules) = _
    rw [resolveRules, h]
    rfl
  rw [place, hrules]
  rfl

/-- Inside a media directive, it belongs in the merged one. -/
theorem place_within_media (query : String) (h : b.place around = .ok p) :
    (b.within (.media query)).place around = .ok (p.underMedia (Text.trim query)) := by
  obtain ⟨selectors, hselectors, hp⟩ := bind_eq_ok_iff.mp h
  obtain rfl := Except.ok.inj hp
  have hrules : (b.within (.media query)).rules = b.rules := rfl
  have hqueries : (b.within (.media query)).queries = query :: b.queries := rfl
  rw [place, hrules, hselectors, hqueries, joinQueries_cons]
  cases hjoin : joinQueries b.queries with
  | some joined => rfl
  | none =>
      -- then the block is in a rule, or in nothing
      cases selectors <;> rfl

theorem isKept_underMedia (query : String) (b : Block) :
    (b.underMedia query).isKept = b.isKept := by
  unfold underMedia
  split
  next inner rest hpath => simp [isKept, isFull, hpath]
  · simp [isKept, isFull]

theorem isFull_underMedia (query : String) (b : Block) :
    (b.underMedia query).isFull = b.isFull := by
  unfold underMedia
  split <;> rfl

end Block

/-! ## What splitting does to the blocks -/

theorem leavesOf_append (as bs : List Node) : leavesOf (as ++ bs) = leavesOf as ++ leavesOf bs :=
  List.filter_append as bs

theorem nestedBlocks_append (as bs : List Node) :
    nestedBlocks (as ++ bs) = nestedBlocks as ++ nestedBlocks bs := by
  induction as with
  | nil => rfl
  | cons n rest ih => rw [List.cons_append, nestedBlocks, nestedBlocks, ih, List.append_assoc]

/-- A declaration or a comment has no body. -/
theorem nodeBlocks_of_isLeaf {n : Node} (h : n.statement.isLeaf = true) : nodeBlocks n = [] := by
  obtain ⟨position, statement⟩ := n
  cases statement <;> first | rfl | cases h

theorem nestedBlocks_leaves {nodes : List Node} (h : ∀ n ∈ nodes, n.statement.isLeaf = true) :
    nestedBlocks nodes = [] := by
  induction nodes with
  | nil => rfl
  | cons n rest ih =>
      rw [nestedBlocks, nodeBlocks_of_isLeaf (h n List.mem_cons_self),
        ih fun m hm => h m (List.mem_cons_of_mem n hm)]
      rfl

theorem nestedBlocks_others (nodes : List Node) :
    nestedBlocks (nodes.filter fun n => !n.statement.isLeaf) = nestedBlocks nodes := by
  induction nodes with
  | nil => rfl
  | cons n rest ih =>
      cases hleaf : n.statement.isLeaf with
      | true =>
          rw [List.filter_cons_of_neg (by simp [hleaf]), nestedBlocks, nodeBlocks_of_isLeaf hleaf]
          exact ih
      | false => rw [List.filter_cons_of_pos (by simp [hleaf]), nestedBlocks, nestedBlocks, ih]

namespace Flatten

/-- A split rule stands among the statements without being a declaration or a comment. -/
theorem leavesOf_splitRule (position : Position) (selectors : List Selector) (body : List Node) :
    leavesOf (splitRule position selectors body) = [] := by
  have hothers : leavesOf (body.filter fun n => !n.statement.isLeaf) = [] := by
    rw [leavesOf, List.filter_filter]
    simp
  unfold splitRule
  dsimp only
  split
  · exact hothers
  · exact hothers

/-- **Splitting a rule** puts its own block in front of the blocks inside it. -/
theorem nestedBlocks_splitRule (position : Position) (selectors : List Selector)
    (body : List Node) :
    (nestedBlocks (splitRule position selectors body)).filter Block.isFull =
      ((⟨[.rule selectors], leavesOf body⟩ :: nestedBlocks body).filter Block.isFull) := by
  unfold splitRule
  dsimp only
  split
  next hnone =>
    rw [nestedBlocks_others, List.filter_cons_of_neg]
    simpa [Block.isFull, leavesOf] using hnone
  · have hleaves : nestedBlocks (leavesOf body) = [] :=
      nestedBlocks_leaves fun n hn => (List.mem_filter.mp hn).2
    have hown : leavesOf (leavesOf body) = leavesOf body := by
      rw [leavesOf, leavesOf, List.filter_filter]
      simp
    show ((statementBlocks (.rule (.parsed selectors) (leavesOf body)) ++
      nestedBlocks (body.filter fun n => !n.statement.isLeaf)).filter Block.isFull) = _
    rw [nestedBlocks_others, statementBlocks, hleaves, hown]
    rfl

/-- Merging takes the media directives of a body out of it, and puts all blocks of the body under the
query. -/
theorem nestedBlocks_mergedMedia (query : String) (body : List Node) :
    ((nestedBlocks (body.filter fun n => !n.statement.isMedia)).map (Block.within (.media query)) ++
      nestedBlocks (mergedMedia query body)).Perm ((nestedBlocks body).map (Block.underMedia query)) := by
  induction body with
  | nil => exact List.Perm.refl _
  | cons n rest ih =>
      obtain ⟨position, statement⟩ := n
      rw [nestedBlocks, List.map_append]
      by_cases hmedia : statement.isMedia = true
      · obtain ⟨inner, body, rfl⟩ : ∃ inner body, statement = .media inner body := by
          cases statement <;> first | exact ⟨_, _, rfl⟩ | cases hmedia
        rw [List.filter_cons_of_neg (by simp [Node.statement, Statement.isMedia]), mergedMedia,
          nestedBlocks]
        have hmerged : nodeBlocks (.mk position (.media (Interpolation.literal
            (mergeQueries query (Interpolation.text inner))) body)) =
            (nodeBlocks (.mk position (.media inner body))).map (Block.underMedia query) := by
          simp [nodeBlocks, statementBlocks, Block.within, Block.underMedia, Interpolation.literal,
            Interpolation.text]
        rw [hmerged]
        exact (List.perm_append_comm_assoc _ _ _).trans (ih.append_left _)
      · have hkeep : (!(Node.mk position statement).statement.isMedia) = true := by
          simpa [Node.statement] using hmedia
        have hmerged : mergedMedia query (.mk position statement :: rest) = mergedMedia query rest := by
          cases statement <;> first | rfl | exact absurd rfl hmedia
        -- a path that starts here does not start with a media directive
        have hown : (nodeBlocks (.mk position statement)).map (Block.within (.media query)) =
            (nodeBlocks (.mk position statement)).map (Block.underMedia query) := by
          cases statement with
          | rule source body =>
              cases source with
              | parsed selectors =>
                  simp [nodeBlocks, statementBlocks, Block.within, Block.underMedia]
              | interpolated text => rfl
          | media inner body => exact absurd rfl hmedia
          | atRule name prelude body =>
              cases body with
              | none => rfl
              | some body => simp [nodeBlocks, statementBlocks, Block.within, Block.underMedia]
          | _ => rfl
        rw [List.filter_cons, if_pos hkeep, nestedBlocks, List.map_append, hmerged, hown,
          List.append_assoc]
        exact ih.append_left _

/-- The body of a split media directive, in other words. -/
theorem splitMedia_eq (position : Position) (query : String) (body : List Node) :
    splitMedia position query body =
      if (body.filter fun n => !n.statement.isMedia).isEmpty then mergedMedia query body
      else .mk position (.media (Interpolation.literal query)
        (body.filter fun n => !n.statement.isMedia)) :: mergedMedia query body := by
  have hothers : ∀ test : Node → Bool, (∀ n, test n = !n.statement.isMedia) →
      body.filter test = body.filter fun n => !n.statement.isMedia :=
    fun test htest => List.filter_congr fun n _ => htest n
  unfold splitMedia
  rw [hothers]
  rintro ⟨position, statement⟩
  cases statement <;> rfl

theorem leavesOf_mergedMedia (query : String) (body : List Node) :
    leavesOf (mergedMedia query body) = [] := by
  induction body with
  | nil => rfl
  | cons n rest ih =>
      obtain ⟨position, statement⟩ := n
      cases statement <;> exact ih

theorem leavesOf_splitMedia (position : Position) (query : String) (body : List Node) :
    leavesOf (splitMedia position query body) = [] := by
  rw [splitMedia_eq]
  split
  · exact leavesOf_mergedMedia query body
  · exact leavesOf_mergedMedia query body

/-- **Splitting a media directive** puts all blocks of its body under the query. -/
theorem nestedBlocks_splitMedia (position : Position) (query : String) (body : List Node) :
    ((nestedBlocks (splitMedia position query body)).filter Block.isFull).Perm
      (((blocksOf body).map (Block.underMedia query)).filter Block.isFull) := by
  have hleaves : leavesOf (body.filter fun n => !n.statement.isMedia) = leavesOf body := by
    rw [leavesOf, leavesOf, List.filter_filter]
    refine List.filter_congr fun n _ => ?_
    obtain ⟨position, statement⟩ := n
    cases statement <;> rfl
  have hmerged := (nestedBlocks_mergedMedia query body).filter Block.isFull
  rw [splitMedia_eq, blocksOf, List.map_cons]
  split
  next hnone =>
    -- there are only media directives, and so the body has no block of its own
    rw [List.isEmpty_iff.mp hnone] at hmerged hleaves
    have hempty : ¬ ((⟨[], leavesOf body⟩ : Block).underMedia query).isFull = true := by
      rw [Block.isFull_underMedia, ← hleaves]
      simp [Block.isFull, leavesOf]
    rw [List.filter_cons_of_neg hempty]
    exact hmerged
  · -- otherwise its own block comes first, in the directive that is left
    have hown : nestedBlocks (.mk position (.media (Interpolation.literal query)
        (body.filter fun n => !n.statement.isMedia)) :: mergedMedia query body) =
        (⟨[], leavesOf body⟩ : Block).underMedia query ::
          ((nestedBlocks (body.filter fun n => !n.statement.isMedia)).map
            (Block.within (.media query)) ++ nestedBlocks (mergedMedia query body)) := by
      rw [nestedBlocks, nodeBlocks, statementBlocks, hleaves]
      simp [Block.within, Block.underMedia, Interpolation.literal, Interpolation.text]
    rw [hown, List.filter_cons, List.filter_cons]
    split
    · exact hmerged.cons _
    · exact hmerged

end Flatten

end Scss
