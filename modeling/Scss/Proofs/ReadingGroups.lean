import Mathlib
import Scss.Proofs.Following

/-!
# Reading groups of properties

Nothing is left of a group of properties once it is read: the name of the group stands in front of the
names of its declarations. That is done where the group is read, and to the statements directly in it.
A declaration inside an `@if` or a loop is not reached.

To say what has been written, groups are read here as they stand, and with them the directives of
control (`PropertyGroup.Item`). The grammar reads what is left of them when groups are dissolved
(`PropertyGroup.agreeAt`).
-/

namespace Scss.PropertyGroup

open Scss.Parser

/-- What is written in a group of properties. -/
inductive Item where
  /-- A declaration, or anything else but a group and a directive of control. -/
  | single (node : Node)
  /-- A group, with the value and the flag of the property of its name if it has a value. -/
  | group (position : Position) (name : String) (own : Option (Value × Bool)) (body : List Item)
  | branches (position : Position) (alternatives : List (Option Value × List Item))
  | eachLoop (position : Position) (names : List String) (list : Value) (body : List Item)
  | forLoop (position : Position) (counter : String) (start stop : Value) (inclusive : Bool)
    (body : List Item)
  | whileLoop (position : Position) (condition : Value) (body : List Item)

/-! ## Dissolving -/

/-- A statement in groups, the outermost first. -/
def nameInGroups (groups : List String) (node : Node) : Node := groups.foldr Grammar.nameInGroup node

/-- The declaration that a group with a value stands for. -/
def ownDeclaration (position : Position) (name : String) (own : Value × Bool) : Node :=
  .mk position (.declaration [.literal name] own.1 own.2)

mutual

/-- The statements that are left of an item in groups. -/
def Item.dissolve (groups : List String) : Item → List Node
  | .single node => [nameInGroups groups node]
  | .group position name own body =>
    (own.map fun o => nameInGroups groups (ownDeclaration position name o)).toList ++
      dissolveAll (groups ++ [name]) body
  | .branches position alternatives => [.mk position (.branches (dissolveBranches alternatives))]
  | .eachLoop position names list body => [.mk position (.eachLoop names list (dissolveAll [] body))]
  | .forLoop position counter start stop inclusive body =>
    [.mk position (.forLoop counter start stop inclusive (dissolveAll [] body))]
  | .whileLoop position condition body => [.mk position (.whileLoop condition (dissolveAll [] body))]

def dissolveAll (groups : List String) : List Item → List Node
  | [] => []
  | item :: rest => item.dissolve groups ++ dissolveAll groups rest

def dissolveBranches : List (Option Value × List Item) → List (Option Value × List Node)
  | [] => []
  | (condition, body) :: rest => (condition, dissolveAll [] body) :: dissolveBranches rest

end

/-! ## Reading groups as they stand -/

/-- Whether a directive of this name decides how often its body is expanded. -/
def isControl (name : String) : Bool := name == "if" || name == "each" || name == "for" || name == "while"

mutual

/-- What is written up to and including the brace that closes it. -/
def items : Nat → Parser (List Item)
  | 0 => exhausted
  | fuel + 1 => do
    skipSeparators
    let t ← token
    match t.kind with
    | .finish => failAt t (.expected "'\x7d' before end of file")
    | .mark .closeBrace =>
      discard advance
      return []
    | .comment text =>
      discard advance
      return .single (.mk t.position (.comment text)) :: (← items fuel)
    | .atWord name =>
      discard advance
      let front ← directive fuel name.toLower t
      return front ++ (← items fuel)
    | kind =>
      let front ← match kind, (← get).colonFollows with
        | .variable name, true => do pure [.single (← Grammar.assignment fuel name)]
        | _, _ => ruleOrDeclaration fuel
      return front ++ (← items fuel)

def ruleOrDeclaration : Nat → Parser (List Item)
  | 0 => exhausted
  | fuel + 1 => do
    let tokens := (← get).tokens
    if !Grammar.opensBlock 0 0 tokens then
      return [.single (← Grammar.declaration fuel)]
    else if Grammar.opensGroup tokens then
      return [← group fuel]
    else
      return [.single (← Grammar.rule fuel)]

def group : Nat → Parser Item
  | 0 => exhausted
  | fuel + 1 => do
    let t ← advance
    let name := match t.kind with
      | .word name => name
      | _ => ""
    discard advance
    discard skipBlanks
    let own ← if ← isAt .openBrace then
        pure none
      else do
        let value ← Grammar.valueList fuel
        let isImportant ← Grammar.important
        discard skipBlanks
        pure (some (value, isImportant))
    expect .openBrace "'\x7b' after nested property"
    return .group t.position name own (← items fuel)

def body (fuel : Nat) (directive : String) : Parser (List Item) :=
  match fuel with
  | 0 => exhausted
  | fuel + 1 => do
    discard skipBlanks
    expect .openBrace ("'\x7b' after " ++ directive)
    items fuel

def otherBranches : Nat → Parser (List (Option Value × List Item))
  | 0 => exhausted
  | fuel + 1 => do
    let before ← get
    discard skipBlanks
    match ← peek with
    | .atWord name =>
      if name.toLower == "else" then
        discard advance
        discard skipBlanks
        match ← peek with
        | .word "if" =>
          discard advance
          discard skipBlanks
          let condition ← Grammar.valueList fuel
          let children ← body fuel "@else if"
          return (some condition, children) :: (← otherBranches fuel)
        | _ => return [(none, ← body fuel "@else")]
      else
        set before
        return []
    | _ =>
      set before
      return []

def directive (fuel : Nat) (name : String) (t : Token) : Parser (List Item) :=
  match fuel with
  | 0 => exhausted
  | fuel + 1 =>
    if isControl name then do
      discard skipBlanks
      return [← control fuel name t.position]
    else do
      return (← Grammar.directive (fuel + 1) name t).map .single

/-- What a directive of control stands for. -/
def control (fuel : Nat) (name : String) (position : Position) : Parser Item :=
  match fuel with
  | 0 => exhausted
  | fuel + 1 => do
    match name with
    | "if" =>
      let condition ← Grammar.valueList fuel
      let children ← body fuel "@if"
      return .branches position ((some condition, children) :: (← otherBranches fuel))
    | "each" =>
      let names ← Grammar.eachVariables fuel
      expectWord "in"
      discard skipBlanks
      let list ← Grammar.valueList fuel
      return .eachLoop position names list (← body fuel "@each")
    | "for" => forLoop fuel position
    | _ =>
      let condition ← Grammar.valueList fuel
      return .whileLoop position condition (← body fuel "@while")

def forLoop (fuel : Nat) (position : Position) : Parser Item :=
  match fuel with
  | 0 => exhausted
  | fuel + 1 => do
    let t ← advance
    match t.kind with
    | .variable counter =>
      discard skipBlanks
      expectWord "from"
      discard skipBlanks
      let start ← Grammar.spaceExpression fuel ["through", "to"]
      discard skipBlanks
      let t ← advance
      let isInclusive ← match t.kind with
        | .word "through" => pure true
        | .word "to" => pure false
        | _ => failExpected t "'through' or 'to' in @for"
      discard skipBlanks
      let stop ← Grammar.spaceExpression fuel []
      return .forLoop position counter start stop isInclusive (← body fuel "@for")
    | _ => failExpected t "a variable in @for"

end

/-! ## Both ways of reading agree -/

theorem dissolveAll_append (groups : List String) (items others : List Item) :
    dissolveAll groups (items ++ others) = dissolveAll groups items ++ dissolveAll groups others := by
  induction items with
  | nil => rfl
  | cons item rest ih => rw [List.cons_append, dissolveAll, dissolveAll, ih, List.append_assoc]

theorem dissolveAll_singles (nodes : List Node) : dissolveAll [] (nodes.map .single) = nodes := by
  induction nodes with
  | nil => rfl
  | cons n rest ih =>
      rw [List.map_cons, dissolveAll, ih]
      rfl

mutual

/-- In one group more, all statements are in one group more. -/
theorem map_dissolveAll (g : String) (groups : List String) : ∀ items : List Item,
    (dissolveAll groups items).map (Grammar.nameInGroup g) = dissolveAll (g :: groups) items
  | [] => rfl
  | item :: rest => by
      rw [dissolveAll, dissolveAll, List.map_append, map_dissolve g groups item,
        map_dissolveAll g groups rest]

theorem map_dissolve (g : String) (groups : List String) : ∀ item : Item,
    (item.dissolve groups).map (Grammar.nameInGroup g) = item.dissolve (g :: groups)
  | .single node => rfl
  | .group position name own body => by
      rw [Item.dissolve, Item.dissolve, List.map_append, map_dissolveAll g (groups ++ [name]) body]
      cases own <;> rfl
  | .branches .. | .eachLoop .. | .forLoop .. | .whileLoop .. => by
      rw [Item.dissolve, Item.dissolve]
      rfl

end

/-- Both ways of reading agree with so much fuel. -/
structure AgreeAt (fuel : Nat) : Prop where
  items : Grammar.statements fuel true = dissolveAll [] <$> items fuel
  ruleOrDeclaration : Grammar.ruleOrDeclaration fuel = dissolveAll [] <$> ruleOrDeclaration fuel
  group : Grammar.group fuel = Item.dissolve [] <$> group fuel
  body : ∀ directive, Grammar.body fuel directive = dissolveAll [] <$> body fuel directive
  otherBranches : Grammar.otherBranches fuel = dissolveBranches <$> otherBranches fuel
  directive : ∀ name t, Grammar.directive fuel name t = dissolveAll [] <$> directive fuel name t
  control : ∀ name t, isControl name = true →
    (fun statement => [Node.mk t.position statement]) <$> Grammar.statement fuel name t =
      Item.dissolve [] <$> control fuel name t.position
  forLoop : ∀ position : Position,
    (fun statement => [Node.mk position statement]) <$> Grammar.forLoop fuel =
      Item.dissolve [] <$> forLoop fuel position

/-- Statements in front of others. -/
theorem append_eq {front rest : Parser (List Node)} {front' rest' : Parser (List Item)}
    (h : front = dissolveAll [] <$> front') (h' : rest = dissolveAll [] <$> rest') :
    (do let nodes ← front; return nodes ++ (← rest)) =
      dissolveAll [] <$> (do let items ← front'; return items ++ (← rest')) := by
  rw [h, h', bind_map_left, map_bind]
  refine bind_congr fun items => ?_
  simp only [bind_pure_comp, Functor.map_map, dissolveAll_append]

/-- One statement that is neither a group nor a directive of control. -/
theorem single_eq (m : Parser Node) :
    (do return [← m]) = dissolveAll [] <$> (do return [.single (← m)]) := by
  rw [map_bind]
  exact bind_congr fun n => (map_pure (dissolveAll []) [Item.single n]).symm

section
variable {fuel : Nat} (h : AgreeAt fuel)
include h

theorem body_succ (directive : String) :
    Grammar.body (fuel + 1) directive = dissolveAll [] <$> body (fuel + 1) directive := by
  simp only [Grammar.body, body, h.items, map_bind]

/-- The statements in the braces of a group, behind what its own value stands for. -/
theorem groupBody_eq (position : Position) (name : String) (own : Option (Value × Bool)) :
    (do
      expect .openBrace "'\x7b' after nested property"
      let inner ← Grammar.statements fuel true
      return (own.map (ownDeclaration position name)).toList ++
        inner.map (Grammar.nameInGroup name)) =
      Item.dissolve [] <$> (do
        expect .openBrace "'\x7b' after nested property"
        return .group position name own (← items fuel)) := by
  rw [map_bind, h.items]
  refine bind_congr fun _ => ?_
  simp only [bind_pure_comp, Functor.map_map, map_dissolveAll]
  rfl

theorem group_succ : Grammar.group (fuel + 1) = Item.dissolve [] <$> group (fuel + 1) := by
  rw [Grammar.group, group, map_bind]
  refine bind_congr fun t => ?_
  cases t.kind
  all_goals
    simp only [map_bind]
    refine bind_congr fun _ => bind_congr fun _ => bind_congr fun hasNone => ?_
    cases hasNone with
    | true => exact groupBody_eq h t.position _ none
    | false =>
        rw [if_neg Bool.false_ne_true, if_neg Bool.false_ne_true, map_bind]
        refine bind_congr fun value => ?_
        rw [map_bind]
        refine bind_congr fun isImportant => ?_
        rw [map_bind]
        exact bind_congr fun _ => groupBody_eq h t.position _ (some (value, isImportant))

theorem ruleOrDeclaration_succ :
    Grammar.ruleOrDeclaration (fuel + 1) = dissolveAll [] <$> ruleOrDeclaration (fuel + 1) := by
  rw [Grammar.ruleOrDeclaration, ruleOrDeclaration, map_bind]
  refine bind_congr fun c => ?_
  dsimp only
  split
  · exact single_eq (Grammar.declaration fuel)
  · split
    · rw [h.group]
      simp only [bind_pure_comp, Functor.map_map, dissolveAll, List.append_nil]
    · exact single_eq (Grammar.rule fuel)

theorem items_succ : Grammar.statements (fuel + 1) true = dissolveAll [] <$> items (fuel + 1) := by
  rw [Grammar.statements, items, map_bind]
  refine bind_congr fun _ => ?_
  -- up to the token both readers do the same; what it is decides which of them goes on
  rw [map_bind]
  refine bind_congr fun t => ?_
  cases t.kind with
  | finish => rfl
  | mark m =>
      cases m with
      | closeBrace => rfl
      | _ =>
          dsimp only
          rw [map_bind]
          exact bind_congr fun c => append_eq h.ruleOrDeclaration h.items
  | comment text =>
      dsimp only
      rw [map_bind]
      refine bind_congr fun _ => ?_
      simp only [h.items, bind_pure_comp, Functor.map_map, dissolveAll]
      rfl
  | atWord name =>
      dsimp only
      rw [map_bind]
      exact bind_congr fun _ => append_eq (h.directive _ _) h.items
  | «variable» name =>
      dsimp only
      rw [map_bind]
      refine bind_congr fun c => ?_
      cases c.colonFollows with
      | true =>
          dsimp only
          rw [← bind_assoc, ← bind_assoc]
          exact append_eq (single_eq (Grammar.assignment fuel name)) h.items
      | false => exact append_eq h.ruleOrDeclaration h.items
  | _ =>
      dsimp only
      rw [map_bind]
      exact bind_congr fun c => append_eq h.ruleOrDeclaration h.items

theorem otherBranches_succ :
    Grammar.otherBranches (fuel + 1) = dissolveBranches <$> otherBranches (fuel + 1) := by
  -- the last branch, and one more with a condition of its own
  have helse : (do return [(none, ← Grammar.body fuel "@else")]) =
      dissolveBranches <$> (do return [(none, ← body fuel "@else")]) := by
    rw [h.body]
    simp only [bind_pure_comp, Functor.map_map, dissolveBranches]
  have hif : (do
      let condition ← Grammar.valueList fuel
      let children ← Grammar.body fuel "@else if"
      return (some condition, children) :: (← Grammar.otherBranches fuel)) =
      dissolveBranches <$> (do
        let condition ← Grammar.valueList fuel
        let children ← body fuel "@else if"
        return (some condition, children) :: (← otherBranches fuel)) := by
    rw [map_bind, h.body, h.otherBranches]
    refine bind_congr fun condition => ?_
    simp only [bind_map_left, map_bind, bind_pure_comp, Functor.map_map, dissolveBranches]
  rw [Grammar.otherBranches, otherBranches]
  simp only [map_bind]
  refine bind_congr fun before => bind_congr fun _ => bind_congr fun kind => ?_
  cases kind with
  | atWord name =>
      dsimp only
      split
      · rw [map_bind]
        refine bind_congr fun _ => ?_
        rw [map_bind]
        refine bind_congr fun _ => ?_
        rw [map_bind]
        refine bind_congr fun next => ?_
        split
        · show (discard advance >>= _) = dissolveBranches <$> (discard advance >>= _)
          rw [map_bind]
          refine bind_congr fun _ => ?_
          rw [map_bind]
          exact bind_congr fun _ => hif
        next hother => simpa only [hother] using helse
      · rfl
  | _ => rfl

theorem forLoop_succ (position : Position) :
    (fun statement => [Node.mk position statement]) <$> Grammar.forLoop (fuel + 1) =
      Item.dissolve [] <$> forLoop (fuel + 1) position := by
  have hstop : ∀ (counter : String) (start : Value) (isInclusive : Bool),
      (fun statement => [Node.mk position statement]) <$> (do
        discard skipBlanks
        let stop ← Grammar.spaceExpression fuel []
        return .forLoop counter start stop isInclusive (← Grammar.body fuel "@for")) =
      Item.dissolve [] <$> (do
        discard skipBlanks
        let stop ← Grammar.spaceExpression fuel []
        return .forLoop position counter start stop isInclusive (← body fuel "@for")) := by
    intro counter start isInclusive
    simp only [map_bind, map_pure, bind_map_left, h.body]
    rfl
  rw [Grammar.forLoop, forLoop]
  simp only [map_bind]
  refine bind_congr fun t => ?_
  cases t.kind with
  | «variable» counter =>
      simp only [map_bind]
      refine bind_congr fun _ => bind_congr fun _ => bind_congr fun _ => bind_congr fun start =>
        bind_congr fun _ => bind_congr fun direction => ?_
      generalize direction.kind = kind
      split
      · exact hstop counter start true
      · exact hstop counter start false
      next hthrough hto =>
        -- the fault is the same, whatever would have been read behind the word
        have hbind : ∀ {α β : Type} (f : α → Parser β), (do
            f (← failExpected direction "'through' or 'to' in @for")) =
              failExpected direction "'through' or 'to' in @for" := fun _ => rfl
        have hmap : ∀ {α β : Type} (f : α → β),
            f <$> (failExpected direction "'through' or 'to' in @for" : Parser α) =
              failExpected direction "'through' or 'to' in @for" := fun _ => rfl
        simp only [hbind, hmap]
  | _ => rfl

theorem control_succ (name : String) (t : Token) (hname : isControl name = true) :
    (fun statement => [Node.mk t.position statement]) <$> Grammar.statement (fuel + 1) name t =
      Item.dissolve [] <$> control (fuel + 1) name t.position := by
  rw [isControl] at hname
  simp only [Bool.or_eq_true, beq_iff_eq] at hname
  obtain ((rfl | rfl) | rfl) | rfl := hname
  · rw [Grammar.statement, control]
    simp only [map_bind, h.body, h.otherBranches, bind_map_left, bind_pure_comp, Functor.map_map]
    rfl
  · rw [Grammar.statement, control]
    simp only [map_bind, h.body, bind_pure_comp, Functor.map_map]
    rfl
  · exact h.forLoop t.position
  · rw [Grammar.statement, control]
    · simp only [map_bind, h.body, bind_pure_comp, Functor.map_map]
      rfl
    all_goals decide

theorem directive_succ (name : String) (t : Token) :
    Grammar.directive (fuel + 1) name t = dissolveAll [] <$> directive (fuel + 1) name t := by
  rw [directive]
  cases hname : isControl name with
  | false =>
      simp only [Bool.false_eq_true, if_false, bind_pure_comp, Functor.map_map, dissolveAll_singles,
        id_map']
  | true =>
      rw [if_pos rfl, Grammar.directive, map_bind]
      · refine bind_congr fun _ => ?_
        have hcontrol := h.control name t hname
        rw [map_eq_pure_bind] at hcontrol
        simp only [bind_pure_comp, Functor.map_map, dissolveAll, List.append_nil] at hcontrol ⊢
        exact hcontrol
      all_goals
        rintro rfl
        exact absurd hname (by decide)

end

/-- **Both ways of reading agree**, with any fuel. -/
theorem agreeAt (fuel : Nat) : AgreeAt fuel := by
  induction fuel with
  | zero =>
      constructor <;> intros <;> rfl
  | succ fuel ih =>
      exact ⟨items_succ ih, ruleOrDeclaration_succ ih, group_succ ih, body_succ ih,
        otherBranches_succ ih, directive_succ ih, control_succ ih, forLoop_succ ih⟩

end Scss.PropertyGroup
