import Scss.Proofs.Blocks
import Scss.Proofs.Literals

/-!
# Flattening puts every declaration in its place

For trees of rules, media directives, declarations and comments without any variables, flattening is a
rearrangement. Every block of the source that is in no rule without selectors becomes one
block of the flat tree, with the same declarations in the same order, in the place that `Block.place`
says. So no declaration is lost, repeated or put under another rule or media directive.

What flattening does at some depth depends on the rule around, and it leaves media directives that are
not merged with those around. `Flattened` says where the blocks are at this stage: their paths are
resolved against the rule around, and the media directives around are not yet part of them. It is
kept by each way in which a tree is built up.
-/

namespace Scss

open Compile Evaluation Flatten

/-! ## Literal trees -/

namespace Node

/-- A declaration with its name as plain text, and its value evaluated. -/
def settled (c : Context) : Node → Node
  | .mk position (.declaration name value important) =>
    .mk position
      (.declaration (Interpolation.literal (Interpolation.text name)) (value.settled c position)
        important)
  | n => n

theorem isLeaf_settled (c : Context) (n : Node) :
    (n.settled c).statement.isLeaf = n.statement.isLeaf := by
  obtain ⟨position, statement⟩ := n
  cases statement <;> rfl

/-- A statement in a tree of rules, media directives, declarations and comments, in which all that is
evaluated are literal values. -/
inductive IsLiteral (c : Context) : Node → Prop where
  | declaration {position : Position} {name : Interpolation} {value : Value} {important : Bool}
      (hname : Interpolation.isPlain name = true) (hvalue : value.IsLiteral c) :
      IsLiteral c (.mk position (.declaration name value important))
  | comment {position : Position} {text : String} : IsLiteral c (.mk position (.comment text))
  | rule {position : Position} {selectors : List Selector} {body : List Node}
      (hbody : ∀ n ∈ body, IsLiteral c n) :
      IsLiteral c (.mk position (.rule (.parsed selectors) body))
  | media {position : Position} {query : Interpolation} {body : List Node}
      (hquery : Interpolation.isPlain query = true) (hbody : ∀ n ∈ body, IsLiteral c n) :
      IsLiteral c (.mk position (.media query body))

end Node

/-! ## Where blocks go -/

/-- A block with its declarations evaluated. -/
def Block.settled (c : Context) (b : Block) : Block :=
  { b with leaves := b.leaves.map (Node.settled c) }

/-- The blocks of the source, in place, are those of the flat tree, as far as they are kept. -/
def Goes (c : Context) (around : Option (List Selector)) (source flat : List Block) : Prop :=
  ∃ placed, List.Forall₂ (fun b p => b.place around = .ok p) source placed ∧
    (flat.filter Block.isFull).Perm ((placed.filter Block.isKept).map (Block.settled c))

namespace Goes

variable {c : Context} {around : Option (List Selector)} {source flat source' flat' : List Block}

theorem nil : Goes c around [] [] := ⟨[], .nil, List.Perm.refl _⟩

theorem append (h : Goes c around source flat) (h' : Goes c around source' flat') :
    Goes c around (source ++ source') (flat ++ flat') := by
  obtain ⟨placed, hplaced, hperm⟩ := h
  obtain ⟨placed', hplaced', hperm'⟩ := h'
  refine ⟨placed ++ placed', List.rel_append hplaced hplaced', ?_⟩
  rw [List.filter_append, List.filter_append, List.map_append]
  exact hperm.append hperm'

/-- Only blocks with something in them count. -/
theorem congr (h : Goes c around source flat)
    (hflat : (flat'.filter Block.isFull).Perm (flat.filter Block.isFull)) :
    Goes c around source flat' := by
  obtain ⟨placed, hplaced, hperm⟩ := h
  exact ⟨placed, hplaced, hflat.trans hperm⟩

/-- The block that stands directly in what is around. -/
theorem own (leaves : List Node) (hkept : around ≠ some []) (h : Goes c around source flat) :
    Goes c around (⟨[], leaves⟩ :: source)
      (⟨(around.map .rule).toList, leaves.map (Node.settled c)⟩ :: flat) := by
  obtain ⟨placed, hplaced, hperm⟩ := h
  have hpath : (⟨(around.map .rule).toList, leaves⟩ : Block).isKept = !leaves.isEmpty := by
    cases around with
    | none => simp [Block.isKept, Block.isFull]
    | some selectors =>
        have hne : ([] : List Selector) ≠ selectors := fun h => hkept (by rw [h])
        simp [Block.isKept, Block.isFull, hne]
  refine ⟨⟨(around.map .rule).toList, leaves⟩ :: placed, .cons rfl hplaced, ?_⟩
  have hfull : (⟨(around.map .rule).toList, leaves.map (Node.settled c)⟩ : Block).isFull =
      !leaves.isEmpty := by simp [Block.isFull]
  rw [List.filter_cons, List.filter_cons, hpath, hfull]
  cases leaves with
  | nil => exact hperm
  | cons n rest => exact hperm.cons _

/-- What is in a rule goes where it goes in the resolved selectors. -/
theorem within_rule {own selectors : List Selector} (h : resolveRule around own = .ok selectors) :
    Goes c around (source.map (.within (.rule own))) flat ↔ Goes c (some selectors) source flat := by
  simp only [Goes, List.forall₂_map_left_iff, Block.place_within_rule h]

/-- Nothing is kept in a rule without selectors. -/
theorem no_selectors (source : List Block) : Goes c (some []) source [] := by
  have hplace : ∀ b : Block, ∃ p, b.place (some []) = .ok p ∧ p.isKept = false := by
    intro b
    refine ⟨⟨((joinQueries b.queries).map .media).toList ++ [.rule []], b.leaves⟩, ?_, ?_⟩
    · rw [Block.place, resolveRules_some_nil]
      rfl
    · simp [Block.isKept]
  choose p hp hnot using hplace
  refine ⟨source.map p, List.forall₂_map_right_iff.mpr (List.forall₂_same.mpr fun b _ => hp b), ?_⟩
  have hnone : (source.map p).filter Block.isKept = [] := by
    refine List.filter_eq_nil_iff.mpr fun q hq => ?_
    obtain ⟨b, -, rfl⟩ := List.mem_map.mp hq
    rw [hnot b]
    exact Bool.false_ne_true
  rw [hnone]
  exact List.Perm.refl _

/-- What is in a media directive goes under its query. -/
theorem within_media (query : String) (h : Goes c around source flat) :
    Goes c around (source.map (.within (.media query)))
      (flat.map (.underMedia (Text.trim query))) := by
  obtain ⟨placed, hplaced, hperm⟩ := h
  refine ⟨placed.map (.underMedia (Text.trim query)), ?_, ?_⟩
  · rw [List.forall₂_map_left_iff, List.forall₂_map_right_iff]
    exact hplaced.imp fun b p h => Block.place_within_media query h
  · have hsettled : Block.settled c ∘ Block.underMedia (Text.trim query) =
        Block.underMedia (Text.trim query) ∘ Block.settled c := by
      funext b
      simp only [Function.comp, Block.underMedia, Block.settled]
      split <;> rfl
    have hfull : Block.isFull ∘ Block.underMedia (Text.trim query) = Block.isFull :=
      funext (Block.isFull_underMedia _)
    have hkept : Block.isKept ∘ Block.underMedia (Text.trim query) = Block.isKept :=
      funext (Block.isKept_underMedia _)
    rw [List.filter_map, List.filter_map, hfull, hkept, List.map_map, hsettled, ← List.map_map]
    exact hperm.map _

end Goes

/-! ## Flattening, step by step -/

/-- The selectors of the rule around, if there is one. -/
def ParentBlock.selectors? : ParentBlock → Option (List Selector)
  | .topLevel => none
  | .rule selectors _ => some selectors

/-- What holds of the context wherever statements of a literal tree are flattened. -/
structure Stands (c : Context) (around : Option (List Selector)) (d : Context) : Prop where
  parent : d.scopes.parent.selectors? = around
  resolved : ∀ selectors, around = some selectors → Resolved selectors
  functions : c.SameFunctions d
  base : d.urlBase = ""

namespace Stands

variable {c d : Context} {around : Option (List Selector)}

theorem warned (h : Stands c around d) (warnings : List String) :
    Stands c around { d with warnings } := ⟨h.parent, h.resolved, h.functions, h.base⟩

theorem entered (h : Stands c around d) : Stands c around (Compile.entered d) :=
  ⟨h.parent, h.resolved, h.functions, h.base⟩

theorem enteredRule (h : Stands c around d) {parent : ParentBlock}
    {inside : Option (List Selector)} (hparent : parent.selectors? = inside)
    (hresolved : ∀ selectors, inside = some selectors → Resolved selectors) :
    Stands c inside (Compile.enteredRule parent d) := ⟨hparent, hresolved, h.functions, h.base⟩

end Stands

/-- The statements of the source have become those of a flat tree, whose blocks are in place as far as
that is settled inside what is around. -/
structure Flattened (c : Context) (around : Option (List Selector)) (source flat : List Node) :
    Prop where
  leaves : leavesOf flat = (leavesOf source).map (Node.settled c)
  nested : Goes c around (nestedBlocks source) (nestedBlocks flat)

/-- Where the statements stand, the computation flattens them whenever it gives a result, and all that
it changes in the context are the warnings. -/
def Flattens (c : Context) (source : List Node) (m : Compile (List Node)) : Prop :=
  ∀ {around d flat d'}, Stands c around d → m.outcome d = (.ok flat, d') →
    (∃ warnings, d' = { d with warnings }) ∧ Flattened c around source flat

theorem Flattened.append {c : Context} {around : Option (List Selector)}
    {source flat source' flat' : List Node} (h : Flattened c around source flat)
    (h' : Flattened c around source' flat') :
    Flattened c around (source ++ source') (flat ++ flat') := by
  refine ⟨?_, ?_⟩
  · rw [leavesOf_append, leavesOf_append, List.map_append, h.leaves, h'.leaves]
  · rw [nestedBlocks_append, nestedBlocks_append]
    exact h.nested.append h'.nested

/-- A rule that gives a result has resolved its selectors, and changed nothing but the warnings. -/
theorem expandRule_of_flattenRule {position : Position} {own : List Selector}
    {m : Compile (List Node)} {d d' : Context} {flat : List Node}
    (h : (flattenRule position own m).outcome d = (.ok flat, d')) :
    ∃ selectors outer warnings, resolveRule d.scopes.parent.selectors? own = .ok selectors ∧
      (expandRule position selectors outer m).outcome { d with warnings } = (.ok flat, d') := by
  rw [outcome_flattenRule] at h
  cases hparent : d.scopes.parent with
  | topLevel =>
      rw [hparent] at h
      obtain ⟨warnings, hstrip⟩ := strip_outcome position own d
      exact ⟨stripped own, [], warnings, rfl, (outcome_bind_ok hstrip).symm.trans h⟩
  | rule parents outer =>
      rw [hparent] at h
      dsimp only at h
      cases hnest : nest own parents with
      | error fault => rw [hnest] at h; cases h
      | ok selectors => rw [hnest] at h; exact ⟨selectors, parents, d.warnings, hnest, h⟩

/-- Without selectors nothing is left of a rule, and its body is not looked at. Any other rule is split
from what its body comes to in the frame of the rule. -/
theorem expandRule_cases {position : Position} {selectors outer : List Selector}
    {m : Compile (List Node)} {d d' : Context} {flat : List Node}
    (h : (expandRule position selectors outer m).outcome d = (.ok flat, d')) :
    (selectors = [] ∧ flat = [] ∧ d' = d) ∨ selectors ≠ [] ∧ ∃ inner e,
      m.outcome (enteredRule (.rule selectors outer) d) = (.ok inner, e) ∧
        flat = splitRule position selectors inner ∧ d' = left e := by
  by_cases hnone : selectors = []
  · subst hnone
    obtain ⟨hflat, rfl⟩ := Prod.mk.inj h
    exact .inl ⟨rfl, (Except.ok.inj hflat).symm, rfl⟩
  · rw [expandRule, if_neg (by simpa using hnone)] at h
    obtain ⟨inner, e, hinner, hsplit⟩ := bind_eq_ok h
    rw [outcome_inRule] at hinner
    obtain ⟨hresult, rfl⟩ := Prod.mk.inj hinner
    obtain ⟨hflat, rfl⟩ := Prod.mk.inj hsplit
    exact .inr ⟨hnone, inner, _, Prod.ext hresult rfl, (Except.ok.inj hflat).symm, rfl⟩

/-- At the top level a body that bubbles is expanded as it stands, and inside a rule in a copy of the
rule, as if that stood at the top level. -/
theorem flattenBubbling_cases {position : Position} {m : Compile (List Node)} {d d' : Context}
    {flat : List Node} (h : (flattenBubbling position m).outcome d = (.ok flat, d')) :
    (d.scopes.parent = .topLevel ∧ ∃ e, m.outcome (entered d) = (.ok flat, e) ∧ d' = left e) ∨
      ∃ selectors outer, d.scopes.parent = .rule selectors outer ∧ ∃ e,
        (flattenRule position selectors m).outcome (enteredRule .topLevel d) = (.ok flat, e) ∧
          d' = left e := by
  rw [flattenBubbling, outcome_scopes_bind] at h
  cases hparent : d.scopes.parent with
  | topLevel =>
      rw [hparent, outcome_inScope] at h
      obtain ⟨hresult, rfl⟩ := Prod.mk.inj h
      exact .inl ⟨rfl, _, Prod.ext hresult rfl, rfl⟩
  | rule selectors outer =>
      rw [hparent] at h
      dsimp only at h
      rw [outcome_inRule] at h
      obtain ⟨hresult, rfl⟩ := Prod.mk.inj h
      exact .inr ⟨selectors, outer, rfl, _, Prod.ext hresult rfl, rfl⟩

/-- **A rule** puts the blocks of its body in the place that its selectors give them. -/
theorem flattenRule_flattens {c : Context} {body : List Node} {m : Compile (List Node)}
    (hm : Flattens c body m) (position : Position) (own : List Selector)
    {around : Option (List Selector)} {d d' : Context} {flat : List Node} (hd : Stands c around d)
    (h : (flattenRule position own m).outcome d = (.ok flat, d')) :
    (∃ warnings, d' = { d with warnings }) ∧ leavesOf flat = [] ∧
      Goes c around ((blocksOf body).map (.within (.rule own))) (nestedBlocks flat) := by
  obtain ⟨selectors, outer, warnings, hresolve, h⟩ := expandRule_of_flattenRule h
  rw [hd.parent] at hresolve
  rw [Goes.within_rule hresolve]
  -- without selectors the body is not even looked at, and nothing in it counts as kept
  obtain ⟨rfl, rfl, hd'⟩ | ⟨hnone, inner, e, hinner, rfl, rfl⟩ := expandRule_cases h
  · exact ⟨⟨warnings, hd'⟩, rfl, Goes.no_selectors _⟩
  · have hselectors : Resolved selectors := by
      refine ⟨hnone, ?_⟩
      cases around with
      | none =>
          obtain rfl := Except.ok.inj hresolve
          exact stripped_noParent own
      | some parents => exact nest_noParent hresolve (hd.resolved parents rfl).noParent
    have hinside : Stands c (some selectors)
        (enteredRule (.rule selectors outer) { d with warnings }) := by
      refine (hd.warned warnings).enteredRule rfl fun s hs => ?_
      obtain rfl := Option.some.inj hs
      exact hselectors
    obtain ⟨⟨warnings', hafter⟩, hflattened⟩ := hm hinside hinner
    refine ⟨⟨warnings', congrArg left hafter⟩, leavesOf_splitRule _ _ _, ?_⟩
    have hgoes := Goes.own (leavesOf body) (fun h => hnone (Option.some.inj h)) hflattened.nested
    refine hgoes.congr ?_
    rw [nestedBlocks_splitRule, hflattened.leaves]
    exact List.Perm.refl _

/-- **The body of a media directive** puts its blocks in place, also if it is moved out of a rule and
the rule is repeated in it. -/
theorem flattenBubbling_flattens {c : Context} {body : List Node} {m : Compile (List Node)}
    (hm : Flattens c body m) (position : Position) {around : Option (List Selector)}
    {d d' : Context} {flat : List Node} (hd : Stands c around d)
    (h : (flattenBubbling position m).outcome d = (.ok flat, d')) :
    (∃ warnings, d' = { d with warnings }) ∧ Goes c around (blocksOf body) (blocksOf flat) := by
  obtain ⟨hparent, e, hinner, rfl⟩ | ⟨selectors, outer, hparent, e, hrule, rfl⟩ :=
    flattenBubbling_cases h
  · have haround : around = none := hd.parent.symm.trans (by rw [hparent]; rfl)
    obtain ⟨⟨warnings, hafter⟩, hflattened⟩ := hm hd.entered hinner
    refine ⟨⟨warnings, congrArg left hafter⟩, ?_⟩
    rw [blocksOf, blocksOf, hflattened.leaves, haround]
    exact Goes.own (leavesOf body) (Option.some_ne_none _).symm (haround ▸ hflattened.nested)
  · have haround : around = some selectors := hd.parent.symm.trans (by rw [hparent]; rfl)
    have hresolved := hd.resolved selectors haround
    -- the body is flattened in a copy of the rule, as if that stood at the top level
    have hinside : Stands c none (enteredRule .topLevel d) :=
      hd.enteredRule rfl fun _ h => absurd h (Option.some_ne_none _).symm
    obtain ⟨⟨warnings, hafter⟩, hleaves, hgoes⟩ :=
      flattenRule_flattens hm position selectors hinside hrule
    refine ⟨⟨warnings, congrArg left hafter⟩, ?_⟩
    -- resolved selectors are not changed by resolving them at the top level
    have hsame : resolveRule none selectors = .ok selectors :=
      congrArg Except.ok (stripped_of_noParent hresolved.noParent)
    have hgoes := (Goes.within_rule hsame).mp hgoes
    rw [haround]
    refine hgoes.congr ?_
    rw [blocksOf, hleaves]
    exact List.Perm.refl _

/-! ## Statements -/

theorem flattenNodes_flattens {c : Context} {s : Site} {nodes : List Node}
    (h : ∀ n ∈ nodes, Flattens c [n] (flattenNode s n)) : Flattens c nodes (flattenNodes s nodes) := by
  induction nodes with
  | nil =>
      intro around d flat d' _ h
      obtain ⟨hflat, hd'⟩ := Prod.mk.inj h
      obtain rfl := Except.ok.inj hflat
      exact ⟨⟨d.warnings, hd'.symm⟩, rfl, Goes.nil⟩
  | cons n rest ih =>
      intro around d flat d' hd hflat
      rw [flattenNodes] at hflat
      obtain ⟨front, d₁, hfront, hflat⟩ := bind_eq_ok hflat
      obtain ⟨others, d₂, hothers, hflat⟩ := bind_eq_ok hflat
      obtain ⟨hresult, rfl⟩ := Prod.mk.inj hflat
      obtain rfl := Except.ok.inj hresult
      obtain ⟨⟨warnings, rfl⟩, hfirst⟩ := h n List.mem_cons_self hd hfront
      obtain ⟨⟨warnings', rfl⟩, hrest⟩ :=
        ih (fun m hm => h m (List.mem_cons_of_mem n hm)) (hd.warned warnings) hothers
      exact ⟨⟨warnings', rfl⟩, hfirst.append hrest⟩

/-- A statement without a body stays where it is. -/
theorem Flattened.leaf {c : Context} {around : Option (List Selector)} {n : Node}
    (hn : n.statement.isLeaf = true) : Flattened c around [n] [n.settled c] := by
  have hsettled : (n.settled c).statement.isLeaf = true := (Node.isLeaf_settled c n).trans hn
  refine ⟨?_, ?_⟩
  · simp [leavesOf, hn, hsettled]
  · simp only [nestedBlocks, nodeBlocks_of_isLeaf hn, nodeBlocks_of_isLeaf hsettled,
      List.append_nil]
    exact Goes.nil

/-- **Literal statements are flattened**, at every depth. -/
theorem flattenNode_flattens {c : Context} {s : Site} (hs : s.calls = callsLeft c) {n : Node}
    (hn : n.IsLiteral c) : Flattens c [n] (flattenNode s n) := by
  induction hn with
  | @declaration position name value important hname hvalue =>
      intro around d flat d' hd h
      rw [flattenNode, flattenStatement] at h
      obtain ⟨n, d₁, hn, h⟩ := bind_eq_ok h
      obtain ⟨hflat, rfl⟩ := Prod.mk.inj h
      obtain rfl := Except.ok.inj hflat
      rw [flattenDeclaration, outcome_bind_ok (interpolate_plain _ _ hname d)] at hn
      obtain ⟨w, d₂, hw, hrebased⟩ := bind_eq_ok hn
      rw [Site.caller, hs] at hw
      obtain ⟨rfl, rfl⟩ := evaluate_literal hvalue hd.functions hw
      rw [outcome_get_bind] at hrebased
      obtain ⟨hresult, rfl⟩ := Prod.mk.inj hrebased
      -- in the root stylesheet no url is rebased
      rw [hd.base] at hresult
      obtain rfl := Except.ok.inj hresult
      exact ⟨⟨_, rfl⟩, Flattened.leaf rfl⟩
  | @comment position text =>
      intro around d flat d' _ h
      obtain ⟨hflat, rfl⟩ := Prod.mk.inj h
      obtain rfl := Except.ok.inj hflat
      exact ⟨⟨_, rfl⟩, Flattened.leaf rfl⟩
  | @rule position selectors body _ ih =>
      intro around d flat d' hd h
      obtain ⟨hafter, hleaves, hgoes⟩ :=
        flattenRule_flattens (flattenNodes_flattens ih) position selectors hd h
      refine ⟨hafter, hleaves, ?_⟩
      rw [nestedBlocks, nestedBlocks, List.append_nil]
      exact hgoes
  | @media position query body hquery _ ih =>
      intro around d flat d' hd h
      rw [flattenNode, flattenStatement, outcome_bind_ok (interpolate_plain _ _ hquery d)] at h
      obtain ⟨inner, d₁, hinner, h⟩ := bind_eq_ok h
      obtain ⟨hflat, rfl⟩ := Prod.mk.inj h
      obtain rfl := Except.ok.inj hflat
      obtain ⟨hafter, hgoes⟩ :=
        flattenBubbling_flattens (flattenNodes_flattens ih) position hd hinner
      refine ⟨hafter, leavesOf_splitMedia _ _ _, ?_⟩
      rw [nestedBlocks, nestedBlocks, List.append_nil]
      exact (hgoes.within_media _).congr (nestedBlocks_splitMedia position _ inner)

/-! ## The whole stylesheet -/

theorem Context.Used.topLevel {c : Context} (h : c.Used) : c.scopes.parent = .topLevel := by
  induction h with
  | new _ _ _ => rfl
  | @compiled c s _ ih =>
      have hfollows : c.scopes.Follows (s.compile.outcome c).2.scopes := (s.compile_follows c).scopes
      exact hfollows.parent_eq.trans ih

/--
**Flattening neither loses, duplicates nor misplaces a declaration.**

Let a stylesheet consist of rules, media directives, comments and declarations of literal values,
nested in any way, and let it be flattened in a context that is new or was used by earlier compiles. If
that succeeds, every block has a place: the selectors of its rules resolve one in the other, from the
outermost inwards. The blocks in which there is something, and around which all rules have
selectors, are then in some order those of the flat tree, each in its place and with its declarations
in their order. No declaration is left at the top level.
-/
theorem flatten_puts_in_place {c c' : Context} {uri : String} {nodes flat : List Node}
    (hc : c.Used) (hnodes : ∀ n ∈ nodes, n.IsLiteral c)
    (h : (Flatten.run nodes).outcome (c.enterRoot uri) = (.ok flat, c')) :
    (∀ n ∈ flat, IsPlain Resolved n ∧ n.statement.isDeclaration = false) ∧
      ∃ placed, (blocksOf nodes).mapM (Block.place none) = .ok placed ∧
        ((blocksOf flat).filter Block.isFull).Perm
          ((placed.filter Block.isKept).map (Block.settled c)) := by
  have hentered : (c.enterRoot uri).IsClean := ⟨hc.isClean.parents, hc.isClean.extensions⟩
  obtain ⟨hplain, htop⟩ := (Flatten.run_gives nodes _ hentered).2 flat (congrArg Prod.fst h)
  refine ⟨fun n hn => ⟨hplain n hn, htop n hn⟩, ?_⟩
  obtain ⟨site, hcalls, hrun⟩ := exists_root_site (c.enterRoot uri)
  have hstands : Stands c none (c.enterRoot uri) := by
    refine ⟨?_, fun _ h => absurd h (Option.some_ne_none _).symm, fun _ => rfl, rfl⟩
    show c.scopes.parent.selectors? = none
    rw [hc.topLevel]
    rfl
  obtain ⟨-, hflattened⟩ :=
    flattenNodes_flattens (fun n hn => flattenNode_flattens (c := c) hcalls (hnodes n hn)) hstands
      (hrun.mp h).1
  have htopLevel : (none : Option (List Selector)) ≠ some [] := (Option.some_ne_none _).symm
  obtain ⟨placed, hplaced, hperm⟩ := Goes.own (leavesOf nodes) htopLevel hflattened.nested
  refine ⟨placed, mapM_eq_ok_iff.mpr hplaced, ?_⟩
  rw [blocksOf, hflattened.leaves]
  exact hperm

/-- `.a { color: red; @media print { color: blue; .b { color: green } } }`. -/
def nestedMedia : List Node :=
  let color name := .mk default (.declaration (.literal "color") (.word name) false)
  [.mk default (.rule (.parsed [.ofClass "a"]) [color "red",
    .mk default (.media (.literal "print") [color "blue",
      .mk default (.rule (.parsed [.ofClass "b"]) [color "green"])])])]

theorem nestedMedia_isLiteral (c : Context) : ∀ n ∈ nestedMedia, n.IsLiteral c := by
  simp only [nestedMedia, List.forall_mem_singleton]
  refine .rule ?_
  simp only [List.forall_mem_cons, List.not_mem_nil, false_implies, implies_true, and_true]
  refine ⟨.declaration rfl .word, .media rfl ?_⟩
  simp only [List.forall_mem_cons, List.not_mem_nil, false_implies, implies_true, and_true]
  refine ⟨.declaration rfl .word, .rule ?_⟩
  simp only [List.forall_mem_singleton]
  exact .declaration rfl .word

/-- All three blocks are left: the rule, and two rules in the media directive. -/
theorem nestedMedia_in_place : ∃ flat c',
    (Flatten.run nestedMedia).outcome (Context.isolated.enterRoot "") = (.ok flat, c') ∧
      ((blocksOf flat).filter Block.isFull).length = 3 ∧
      (∀ n ∈ flat, IsPlain Resolved n ∧ n.statement.isDeclaration = false) ∧
      ∃ placed, (blocksOf nestedMedia).mapM (Block.place none) = .ok placed ∧
        ((blocksOf flat).filter Block.isFull).Perm
          ((placed.filter Block.isKept).map (Block.settled .isolated)) := by
  obtain ⟨site, -, hrun⟩ := exists_root_site (Context.isolated.enterRoot "")
  have hflat : ∃ flat c',
      (flattenNodes site nestedMedia).outcome (Context.isolated.enterRoot "") = (.ok flat, c') ∧
      (∀ n ∈ flat, n.statement.isDeclaration = false) ∧
      ((blocksOf flat).filter Block.isFull).length = 3 := ⟨_, _, rfl, by decide, by decide⟩
  obtain ⟨flat, c', hflat, htop, hlength⟩ := hflat
  have h := hrun.mpr ⟨hflat, htop⟩
  exact ⟨flat, c', h, hlength,
    flatten_puts_in_place (.new _ _ _) (nestedMedia_isLiteral _) h⟩

end Scss
