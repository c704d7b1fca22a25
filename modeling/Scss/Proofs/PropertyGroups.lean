import Scss.Proofs.ReadingGroups

/-!
# Names in groups of properties

Expansion takes every statement of an item by itself, if at all, and a declaration in groups is expanded
as the declaration alone, behind the names of the groups. So a declaration gets the names of all groups
around it if no directive stands between, and only then (`PropertyGroup.group_names`).
-/

namespace Scss.PropertyGroup

open Scss.Parser

/-! ## What is written in groups -/

/-- A single statement where it is written. -/
structure Leaf where
  /-- The groups around the innermost directive of control, if the statement is in one. -/
  outer : List String
  /-- The groups in that directive, the outermost first. -/
  near : List String
  node : Node

/-- All groups around a statement, the outermost first. -/
def Leaf.groups (l : Leaf) : List String := l.outer ++ l.near

mutual

/-- The single statements that are written in an item. -/
def Item.leaves (outer near : List String) : Item → List Leaf
  | .single node => [⟨outer, near, node⟩]
  | .group position name own body =>
    (own.map fun o => ⟨outer, near, ownDeclaration position name o⟩).toList ++
      leavesAll outer (near ++ [name]) body
  | .branches _ alternatives => branchLeaves (outer ++ near) alternatives
  | .eachLoop _ _ _ body | .forLoop _ _ _ _ _ body | .whileLoop _ _ body =>
    leavesAll (outer ++ near) [] body

def leavesAll (outer near : List String) : List Item → List Leaf
  | [] => []
  | item :: rest => item.leaves outer near ++ leavesAll outer near rest

def branchLeaves (outer : List String) : List (Option Value × List Item) → List Leaf
  | [] => []
  | (_, body) :: rest => leavesAll outer [] body ++ branchLeaves outer rest

end

/-! ## What comes of it -/

open Compile Flatten Evaluation

/-- In some context, the statement is expanded to others among which is this one. -/
def FlattensTo (s : Site) (node n : Node) : Prop :=
  ∃ c c' nodes, (flattenNode s node).outcome c = (.ok nodes, c') ∧ n ∈ nodes

/-- All statements that the computation can answer have a property. -/
def Yields (m : Compile (List Node)) (Q : Node → Prop) : Prop :=
  ∀ c c' nodes, m.outcome c = (.ok nodes, c') → ∀ n ∈ nodes, Q n

namespace Yields

variable {α : Type} {Q Q' : Node → Prop} {m m' : Compile (List Node)}

theorem mono (h : Yields m Q) (hQ : ∀ n, Q n → Q' n) : Yields m Q' :=
  fun c c' nodes hm n hn => hQ n (h c c' nodes hm n hn)

theorem nothing : Yields (pure []) Q := by
  intro c c' nodes h n hn
  obtain rfl := Except.ok.inj (Prod.mk.inj h).1
  cases hn

theorem raise (failure : Failure) : Yields (throw failure) Q := nofun

/-- Behind a step of which nothing has to be known. -/
theorem after {m : Compile α} {f : α → Compile (List Node)} (h : ∀ a, Yields (f a) Q) :
    Yields (m >>= f) Q := by
  intro c c' nodes hm
  obtain ⟨a, d, -, hf⟩ := bind_eq_ok hm
  exact h a d c' nodes hf

theorem append (h : Yields m Q) (h' : Yields m' Q) :
    Yields (do let front ← m; return front ++ (← m')) Q := by
  intro c c' nodes hboth n hn
  obtain ⟨front, d, hfront, hrest⟩ := bind_eq_ok hboth
  obtain ⟨rest, d', hm', hpure⟩ := bind_eq_ok hrest
  obtain rfl := Except.ok.inj (Prod.mk.inj hpure).1
  exact (List.mem_append.mp hn).elim (h c d front hfront n) (h' d d' rest hm' n)

theorem inScope (h : Yields m Q) : Yields (Compile.inScope m) Q := by
  intro c c' nodes hm
  have hresult : (m.outcome (entered c)).1 = .ok nodes := congrArg Prod.fst hm
  exact h (entered c) _ nodes (Prod.ext hresult rfl)

theorem forEach {run : α → Compile (List Node)} (h : ∀ a, Yields (run a) Q) (rounds : List α) :
    Yields (Flatten.forEach run rounds) Q := by
  induction rounds with
  | nil => exact nothing
  | cons a rest ih => exact (h a).append ih

theorem whileHolds (condition : Compile Bool) (h : Yields m Q) (rounds : Nat) :
    Yields (Flatten.whileHolds condition m rounds) Q := by
  induction rounds with
  | zero =>
      refine after fun again => ?_
      cases again with
      | true => exact raise _
      | false => exact nothing
  | succ rounds ih =>
      refine after fun again => ?_
      cases again with
      | true => exact h.append ih
      | false => exact nothing

variable {s : Site}

theorem flattenNodes_append (front rest : List Node) : flattenNodes s (front ++ rest) = (do
    let nodes ← flattenNodes s front
    return nodes ++ (← flattenNodes s rest)) := by
  induction front with
  | nil => simp [flattenNodes]
  | cons n front ih =>
      rw [List.cons_append, flattenNodes, flattenNodes, ih]
      simp only [bind_assoc, pure_bind, List.append_assoc]

theorem nodes_append {front rest : List Node} (h : Yields (flattenNodes s front) Q)
    (h' : Yields (flattenNodes s rest) Q) : Yields (flattenNodes s (front ++ rest)) Q := by
  rw [flattenNodes_append]
  exact h.append h'

/-- What one statement is expanded to. -/
theorem single (node : Node) : Yields (flattenNodes s [node]) (FlattensTo s node) := by
  rw [flattenNodes, flattenNodes]
  exact append (fun c c' nodes h n hn => ⟨c, c', nodes, h, hn⟩) nothing

end Yields

/-- The statement comes from one of these, with the groups in the innermost directive around it. -/
def ComesFrom (s : Site) (leaves : List Leaf) (n : Node) : Prop :=
  ∃ l ∈ leaves, FlattensTo s (nameInGroups l.near l.node) n

mutual

theorem dissolveAll_yields (s : Site) (outer near : List String) : ∀ items : List Item,
    Yields (flattenNodes s (dissolveAll near items)) (ComesFrom s (leavesAll outer near items))
  | [] => Yields.nothing
  | item :: rest => by
      rw [dissolveAll, leavesAll]
      refine Yields.nodes_append ((dissolve_yields s outer near item).mono ?_)
        ((dissolveAll_yields s outer near rest).mono ?_)
      · exact fun n ⟨l, hl, h⟩ => ⟨l, List.mem_append_left _ hl, h⟩
      · exact fun n ⟨l, hl, h⟩ => ⟨l, List.mem_append_right _ hl, h⟩

theorem dissolve_yields (s : Site) (outer near : List String) : ∀ item : Item,
    Yields (flattenNodes s (item.dissolve near)) (ComesFrom s (item.leaves outer near))
  | .single node => (Yields.single _).mono fun n h => ⟨_, List.mem_singleton_self _, h⟩
  | .group position name own body => by
      rw [Item.dissolve, Item.leaves]
      refine Yields.nodes_append ?_ ((dissolveAll_yields s outer (near ++ [name]) body).mono ?_)
      · cases own with
        | none => exact Yields.nothing
        | some o =>
            exact (Yields.single _).mono fun n h => ⟨_, List.mem_cons_self, h⟩
      · exact fun n ⟨l, hl, h⟩ => ⟨l, List.mem_append_right _ hl, h⟩
  | .branches position alternatives => by
      rw [Item.dissolve, Item.leaves, flattenNodes, flattenNode, flattenStatement]
      exact (branches_yield s (outer ++ near) position alternatives).append Yields.nothing
  | .eachLoop position names list body => by
      rw [Item.dissolve, Item.leaves, flattenNodes, flattenNode, flattenStatement]
      have hbody := dissolveAll_yields s (outer ++ near) [] body
      refine Yields.append (Yields.after fun rounds => Yields.forEach (fun v => ?_) rounds) Yields.nothing
      exact (Yields.after fun _ => hbody).inScope
  | .forLoop position counter start stop inclusive body => by
      rw [Item.dissolve, Item.leaves, flattenNodes, flattenNode, flattenStatement]
      have hbody := dissolveAll_yields s (outer ++ near) [] body
      refine Yields.append (Yields.after fun rounds => Yields.forEach (fun v => ?_) rounds) Yields.nothing
      exact (Yields.after fun _ => hbody).inScope
  | .whileLoop position condition body => by
      rw [Item.dissolve, Item.leaves, flattenNodes, flattenNode, flattenStatement]
      have hbody := dissolveAll_yields s (outer ++ near) [] body
      exact (Yields.whileHolds _ hbody.inScope _).append Yields.nothing

theorem branches_yield (s : Site) (outer : List String) (position : Position) :
    ∀ alternatives : List (Option Value × List Item),
      Yields (flattenBranches s position (dissolveBranches alternatives))
        (ComesFrom s (branchLeaves outer alternatives))
  | [] => Yields.nothing
  | (condition, body) :: rest => by
      rw [dissolveBranches, branchLeaves]
      let leaves := leavesAll outer [] body ++ branchLeaves outer rest
      have hbody : Yields _ (ComesFrom s leaves) := (dissolveAll_yields s outer [] body).inScope.mono
        fun n ⟨l, hl, h⟩ => ⟨l, List.mem_append_left _ hl, h⟩
      have hrest : Yields _ (ComesFrom s leaves) := (branches_yield s outer position rest).mono
        fun n ⟨l, hl, h⟩ => ⟨l, List.mem_append_right _ hl, h⟩
      cases condition with
      | none =>
          rw [flattenBranches]
          exact hbody
      | some condition =>
          rw [flattenBranches]
          refine Yields.after fun taken => ?_
          cases taken with
          | true => exact hbody
          | false => exact hrest

end

/-! ## Names -/

theorem nameInGroups_declaration (groups : List String) (position : Position) (name : Interpolation)
    (value : Value) (important : Bool) :
    nameInGroups groups (.mk position (.declaration name value important)) =
      .mk position (.declaration (groups.map (fun g => .literal (g ++ "-")) ++ name) value
        important) := by
  induction groups with
  | nil => rfl
  | cons g groups ih =>
      rw [nameInGroups] at ih
      rw [nameInGroups, List.foldr_cons, ih]
      rfl

/-- Groups change nothing else than declarations. -/
theorem nameInGroups_other (groups : List String) {node : Node}
    (h : node.statement.isDeclaration = false) : nameInGroups groups node = node := by
  induction groups with
  | nil => rfl
  | cons g groups ih =>
      rw [nameInGroups] at ih
      rw [nameInGroups, List.foldr_cons, ih]
      obtain ⟨position, statement⟩ := node
      cases statement with
      | declaration => cases h
      | _ => rfl

/-- The names of groups in front of a name. -/
def fullName (groups : List String) (own : String) : String := "-".intercalate (groups ++ [own])

theorem fullName_cons (g : String) (groups : List String) (own : String) :
    fullName (g :: groups) own = g ++ "-" ++ fullName groups own :=
  String.intercalate_cons_of_ne_nil (by simp)

/-- Further groups make a name longer. -/
theorem fullName_append_eq_iff (outer near : List String) (own : String) :
    fullName near own = fullName (outer ++ near) own ↔ outer = [] := by
  have hlength : ∀ outer : List String,
      (fullName near own).length + outer.length ≤ (fullName (outer ++ near) own).length := by
    intro outer
    induction outer with
    | nil => exact le_rfl
    | cons g rest ih =>
        rw [List.cons_append, fullName_cons, String.length_append, String.length_append,
          List.length_cons]
        have hdash : "-".length = 1 := rfl
        omega
  constructor
  · intro h
    have := hlength outer
    rw [← h] at this
    exact List.eq_nil_of_length_eq_zero (by omega)
  · rintro rfl
    rfl

/-- A name in groups is evaluated to what it is evaluated to alone, behind the names of the groups. -/
theorem interpolate_groups (call : Caller) (position : Position) (groups : List String)
    (name : Interpolation) :
    interpolate call position (groups.map (fun g => .literal (g ++ "-")) ++ name) =
      fullName groups <$> interpolate call position name := by
  induction groups with
  | nil =>
      have hown : fullName [] = id := by
        funext own
        simp [fullName]
      rw [hown, id_map]
      rfl
  | cons g groups ih =>
      have hstep : interpolate call position
          ((g :: groups).map (fun g => .literal (g ++ "-")) ++ name) =
            (fun rest => g ++ "-" ++ rest) <$>
              interpolate call position (groups.map (fun g => .literal (g ++ "-")) ++ name) := by
        rw [map_eq_pure_bind]
        rfl
      rw [hstep, ih, Functor.map_map]
      congr 1
      funext own
      exact (fullName_cons g groups own).symm

/-- The value that a declaration gets, with its urls rebased if that is asked for. -/
def declaredValue (call : Caller) (position : Position) (value : Value) : Compile Value := do
  let value ← evaluate call position false value
  let c ← get
  let rebase := !c.urlBase.isEmpty && match c.urlMode with
    | .relative => true
    | .mixed => value.isUrl
    | .absolute => false
  return if rebase then value.rebaseUrls c.urlBase else value

/-- The name of a declaration is evaluated first, and not looked at again. -/
theorem flattenDeclaration_eq (call : Caller) (position : Position) (name : Interpolation)
    (value : Value) (important : Bool) :
    flattenDeclaration call position name value important = (do
      let own ← interpolate call position name
      let computed ← declaredValue call position value
      return .mk position (.declaration (Interpolation.literal own) computed important)) := by
  rw [flattenDeclaration]
  refine bind_congr fun own => ?_
  rw [declaredValue, bind_assoc]
  rfl

/-- What a declaration in groups is expanded to is what it is expanded to alone, with the names of the
groups in front of the name. -/
theorem flattensTo_nameInGroups {s : Site} {groups : List String} {position : Position}
    {name : Interpolation} {value : Value} {important : Bool} {n : Node}
    (h : FlattensTo s (nameInGroups groups (.mk position (.declaration name value important))) n) :
    ∃ own computed, n = .mk position (.declaration (Interpolation.literal (fullName groups own)) computed
        important) ∧
      FlattensTo s (.mk position (.declaration name value important))
        (.mk position (.declaration (Interpolation.literal own) computed important)) := by
  obtain ⟨c, c', nodes, hnodes, hn⟩ := h
  rw [nameInGroups_declaration, flattenNode, flattenStatement] at hnodes
  obtain ⟨node, d, hdeclaration, hpure⟩ := bind_eq_ok hnodes
  obtain rfl := Except.ok.inj (Prod.mk.inj hpure).1
  obtain rfl := List.mem_singleton.mp hn
  rw [flattenDeclaration_eq, interpolate_groups, bind_map_left] at hdeclaration
  obtain ⟨own, d₁, hown, hvalue⟩ := bind_eq_ok hdeclaration
  obtain ⟨computed, d₂, hcomputed, hnode⟩ := bind_eq_ok hvalue
  obtain rfl := Except.ok.inj (Prod.mk.inj hnode).1
  refine ⟨own, computed, rfl, c, d₂, _, ?_, List.mem_singleton_self _⟩
  rw [flattenNode, flattenStatement, flattenDeclaration_eq, bind_assoc, outcome_bind_ok hown, bind_assoc,
    outcome_bind_ok hcomputed]
  rfl

/--
**Declarations are named by the groups inside the innermost directive around them.**

Let a group of properties be read, and what is read be expanded anywhere. Each statement that comes of
it comes of a single statement that is written in the group, perhaps in further groups and in directives
of control. If that is a declaration, the name is that of the declaration itself behind the names of the
groups inside the innermost directive around it. These are all groups around it, if no directive stands
between a group and the declaration, and only then.
-/
theorem group_names {fuel : Nat} {cursor cursor' : Cursor} {nodes : List Node}
    (h : (Grammar.group fuel).run cursor = .ok (nodes, cursor')) :
    ∃ item, (group fuel).run cursor = .ok (item, cursor') ∧ nodes = item.dissolve [] ∧
      ∀ s c c' out, (flattenNodes s nodes).outcome c = (.ok out, c') → ∀ n ∈ out,
        ∃ l ∈ item.leaves [] [],
          (l.node.statement.isDeclaration = false ∧ FlattensTo s l.node n) ∨
          (l.node.statement.isDeclaration = true ∧ ∃ position own name value important,
            FlattensTo s l.node (.mk position (.declaration (Interpolation.literal own) value important)) ∧
            n = .mk position (.declaration (Interpolation.literal name) value important) ∧
            name = fullName l.near own ∧ (name = fullName l.groups own ↔ l.outer = [])) := by
  rw [(agreeAt fuel).group, StateT.run_map] at h
  cases hitem : (group fuel).run cursor with
  | error failure =>
      rw [hitem] at h
      cases h
  | ok r =>
      obtain ⟨item, cursor₁⟩ := r
      rw [hitem] at h
      obtain ⟨rfl, rfl⟩ := Prod.mk.inj (Except.ok.inj h)
      refine ⟨item, rfl, rfl, fun s c c' out hout n hn => ?_⟩
      obtain ⟨⟨outer, near, node⟩, hl, hfrom⟩ := dissolve_yields s [] [] item c c' out hout n hn
      refine ⟨_, hl, ?_⟩
      cases hkind : node.statement.isDeclaration with
      | false =>
          rw [nameInGroups_other near hkind] at hfrom
          exact .inl ⟨rfl, hfrom⟩
      | true =>
          obtain ⟨position, statement⟩ := node
          cases statement with
          | declaration name value important =>
              obtain ⟨own, computed, rfl, hown⟩ := flattensTo_nameInGroups hfrom
              exact .inr ⟨rfl, position, own, _, computed, important, hown, rfl, rfl,
                fullName_append_eq_iff outer near own⟩
          | _ => cases hkind

/-- The size in `font: { x: { size: big } }`, with a name. -/
def bigSize (name : String) : Node :=
  .mk ⟨"", 1, 10⟩ (.declaration (Interpolation.literal name) (.word "big") false)

/-- The size in `font: { @if b { size: small } }`, with a name. -/
def smallSize (name : String) : Node :=
  .mk ⟨"", 1, 25⟩ (.declaration (Interpolation.literal name) (.word "small") false)

/-- `font: { x: { size: big } @if b { size: small } }`. -/
def fontSizes : Item := .group ⟨"", 1, 1⟩ "font" none [
  .group ⟨"", 1, 7⟩ "x" none [.single (bigSize "size")],
  .branches ⟨"", 1, 19⟩ [(some (.word "b"), [.single (smallSize "size")])]]

/-- The one size is in two groups and gets the names of both. The other one is behind a directive, and
does not get that of the group in front. -/
theorem fontSize_named : ∃ (s : Site) (tokens : List Token) (cursor : Cursor) (c' : Context),
    Token.read "font:\x7bx:\x7bsize:big\x7d@if b\x7bsize:small\x7d\x7d" (.start "") = .ok tokens ∧
      (Grammar.group 30).run (.ofTokens (.start "") tokens) = .ok (fontSizes.dissolve [], cursor) ∧
      (flattenNodes s (fontSizes.dissolve [])).outcome .isolated =
        (.ok [bigSize "font-x-size", smallSize "size"], c') ∧
      fontSizes.leaves [] [] =
        [⟨[], ["font", "x"], bigSize "size"⟩, ⟨["font"], [], smallSize "size"⟩] ∧
      ∀ n ∈ [bigSize "font-x-size", smallSize "size"], ∃ l ∈ fontSizes.leaves [] [],
        ∃ position own name value important,
          FlattensTo s l.node (.mk position (.declaration (Interpolation.literal own) value important)) ∧
          n = .mk position (.declaration (Interpolation.literal name) value important) ∧
          name = fullName l.near own ∧ (name = fullName l.groups own ↔ l.outer = []) := by
  obtain ⟨s, -, -⟩ := exists_root_site .isolated
  obtain ⟨tokens, htokens, cursor, hitem, hnodes⟩ : ∃ tokens,
      Token.read "font:\x7bx:\x7bsize:big\x7d@if b\x7bsize:small\x7d\x7d" (.start "") = .ok tokens ∧
        ∃ cursor, (group 30).run (.ofTokens (.start "") tokens) = .ok (fontSizes, cursor) ∧
          (Grammar.group 30).run (.ofTokens (.start "") tokens) = .ok (fontSizes.dissolve [], cursor) :=
    ⟨_, by cbv, _, by cbv, by cbv⟩
  obtain ⟨c', hout⟩ : ∃ c', (flattenNodes s (fontSizes.dissolve [])).outcome .isolated =
      (.ok [bigSize "font-x-size", smallSize "size"], c') := ⟨_, by cbv⟩
  obtain ⟨item, hread, -, hnames⟩ := group_names hnodes
  obtain ⟨rfl, -⟩ := Prod.mk.inj (Except.ok.inj (hitem.symm.trans hread))
  refine ⟨s, tokens, cursor, c', htokens, hnodes, hout, rfl, fun n hn => ?_⟩
  obtain ⟨l, hl, ⟨hother, -⟩ | ⟨-, hname⟩⟩ := hnames s _ _ _ hout n hn
  · -- both leaves are declarations
    have hall : ∀ l ∈ fontSizes.leaves [] [], l.node.statement.isDeclaration = true := by decide
    rw [hall l hl] at hother
    cases hother
  · exact ⟨l, hl, hname⟩

/-- `.a { font: { @if b { size: c } } }`. -/
def sizeInIf : Stylesheet := ⟨"", none, [
  .mk ⟨"", 1, 1⟩ (.rule (.parsed [.ofClass "a"]) [
    .mk ⟨"", 1, 10⟩ (.branches [(some (.word "b"), [
      .mk ⟨"", 1, 16⟩ (.declaration (Interpolation.literal "size") (.word "c") false)])])])]⟩

/-- Behind the directive, the name of the group is gone. -/
theorem sizeInIf_loses_group : ∃ s css c',
    Stylesheet.read ".a\x7bfont:\x7b@if b\x7bsize:c\x7d\x7d\x7d" "" = .ok s ∧
      s.compile.outcome .isolated = (.ok css, c') ∧
      css.body = [.mk ⟨"", 1, 1⟩ (.rule (.parsed [.ofClass "a"]) [
        .mk ⟨"", 1, 16⟩ (.declaration (Interpolation.literal "size") (.word "c") false)])] ∧
      fullName ["font"] "size" ≠ "size" := by
  obtain ⟨_, c', hcompile, hbody⟩ := Stylesheet.exists_compile (s := sizeInIf) (c := .isolated)
    (P := fun printed _ => printed = [.mk ⟨"", 1, 1⟩ (.rule (.parsed [.ofClass "a"]) [
      .mk ⟨"", 1, 16⟩ (.declaration (Interpolation.literal "size") (.word "c") false)])])
    fun site => ⟨_, _, _, _, rfl, by decide, by cbv, rfl⟩
  exact ⟨sizeInIf, _, c', by cbv, hcompile, hbody, by decide⟩

end Scss.PropertyGroup
