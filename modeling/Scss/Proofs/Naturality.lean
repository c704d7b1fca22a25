import Scss.Proofs.Pieces

/-!
# Pieces are moved and not looked at

Tokens are grouped and read as a tree, and arguments are sorted by parameter, by the places where they
stand. What an operand or an argument is makes no difference. So it does not matter whether something
is done to each of them before the pieces are put in their places or afterwards, which is stated here
as one law for each of these steps. With it, whatever is suspended can be seen as made from the pieces
of the value itself.
-/

namespace Scss

variable {α β : Type} (f : α → β)

def ExprToken.map : ExprToken α → ExprToken β
  | .operand a => .operand (f a)
  | .operator op => .operator op
  | .blank => .blank

def Argument.map (a : Argument α) : Argument β := ⟨a.name, f a.value, a.splat⟩

def Binding.map : Binding α → Binding β
  | .given a => .given (f a)
  | .default v => .default v

theorem ExprToken.isBlank_map (t : ExprToken α) : (t.map f).isBlank = t.isBlank := by
  cases t <;> rfl

/-! ## Expressions -/

namespace Evaluation

/-- Whether a sign in front of the tokens touches an operand. -/
def beginsWithOperand : List (ExprToken α) → Bool
  | .operand _ :: _ => true
  | _ => false

theorem beginsWithOperand_map (tokens : List (ExprToken α)) :
    beginsWithOperand (tokens.map (ExprToken.map f)) = beginsWithOperand tokens := by
  cases tokens with
  | nil => rfl
  | cons t rest => cases t <;> rfl

/-- Where an operator goes: to the group being read, or to the next one. -/
theorem groupsFrom_operator (operandLast spaced : Bool) (group rest : List (ExprToken α))
    (op : Operator) : groupsFrom operandLast spaced group (.operator op :: rest) =
      if operandLast && spaced && beginsWithOperand rest && (op == .minus || op == .plus) then
        group :: groupsFrom false false [.operator op] rest
      else groupsFrom false false (group ++ [.operator op]) rest := by
  rw [groupsFrom.eq_def]
  cases rest with
  | nil => rfl
  | cons t rest => cases t <;> rfl

/-- The groups are those of the original tokens: where one ends is decided by blanks and operators. -/
theorem groupsFrom_map (tokens : List (ExprToken α)) :
    ∀ (operandLast spaced : Bool) (group : List (ExprToken α)),
      groupsFrom operandLast spaced (group.map (ExprToken.map f)) (tokens.map (ExprToken.map f)) =
        (groupsFrom operandLast spaced group tokens).map (List.map (ExprToken.map f)) := by
  induction tokens with
  | nil => exact fun _ _ _ => rfl
  | cons t rest ih =>
      intro operandLast spaced group
      -- the item goes on with the group, or begins the next one; neither looks at the operand
      have hjoin : ∀ last spaced, groupsFrom last spaced
          (group.map (ExprToken.map f) ++ [t.map f]) (rest.map (ExprToken.map f)) =
            (groupsFrom last spaced (group ++ [t]) rest).map (List.map (ExprToken.map f)) := by
        intro last spaced
        rw [← ih, List.map_append]
        rfl
      have hbegin : ∀ last, group.map (ExprToken.map f) ::
          groupsFrom last false [t.map f] (rest.map (ExprToken.map f)) =
            (group :: groupsFrom last false [t] rest).map (List.map (ExprToken.map f)) := by
        intro last
        rw [List.map_cons, ← ih]
        rfl
      cases t with
      | blank => exact hjoin operandLast true
      | operand a =>
          rw [List.map_cons, ExprToken.map, groupsFrom, groupsFrom]
          split
          · exact hbegin true
          · exact hjoin true false
      | operator op =>
          rw [List.map_cons, ExprToken.map, groupsFrom_operator, groupsFrom_operator,
            beginsWithOperand_map]
          split
          · exact hbegin false
          · exact hjoin false false

/-- Groups by space, without the ones that are only blanks. -/
theorem spaceGroups_map (tokens : List (ExprToken α)) :
    spaceGroups (tokens.map (ExprToken.map f)) =
      (spaceGroups tokens).map (List.map (ExprToken.map f)) := by
  have hblank : ∀ group : List (ExprToken α), ((group.map (ExprToken.map f)).any fun t => !t.isBlank) =
      group.any fun t => !t.isBlank := by
    intro group
    simp only [List.any_map, Function.comp_def, ExprToken.isBlank_map]
  have hgroups := groupsFrom_map f tokens false false []
  rw [spaceGroups, spaceGroups, List.map_nil] at *
  rw [hgroups, List.filter_map]
  simp only [Function.comp_def, hblank]

end Evaluation

namespace OperationTree

def map : OperationTree α → OperationTree β
  | .operand a => .operand (f a)
  | .fault e => .fault e
  | .unary op inner => .unary op inner.map
  | .binary op left right => .binary op left.map right.map

variable (text : β → String)

/-- Signs in front of an operand are read alike whatever the operand is. Its text is asked for in a
fault only. -/
theorem readUnary_map (tokens : List (ExprToken α)) :
    readUnary text (tokens.map (ExprToken.map f)) =
      ((readUnary (text ∘ f) tokens).1.map f, (readUnary (text ∘ f) tokens).2.map (ExprToken.map f)) := by
  induction tokens with
  | nil => rfl
  | cons t rest ih =>
      cases t with
      | operand a => rfl
      | blank => rfl
      | operator op =>
          rw [List.map_cons, ExprToken.map, readUnary, readUnary, ih]
          split <;> rfl

/-- Operators are taken up by precedence, which no operand has a say in. -/
theorem extend_map (fuel : Nat) : ∀ (least : Nat) (left : OperationTree α)
    (tokens : List (ExprToken α)),
    extend text least fuel (left.map f) (tokens.map (ExprToken.map f)) =
      ((extend (text ∘ f) least fuel left tokens).1.map f,
        (extend (text ∘ f) least fuel left tokens).2.map (ExprToken.map f)) := by
  induction fuel with
  | zero =>
      intro least left tokens
      simp only [extend]
  | succ fuel ih =>
      intro least left tokens
      cases tokens with
      | nil => rfl
      | cons t rest =>
          cases t with
          | operand a => rfl
          | blank => rfl
          | operator op =>
              rw [List.map_cons, ExprToken.map, extend, extend]
              split
              · rfl
              · -- the right operand is read first, and the tree goes on from both
                rw [readUnary_map]
                dsimp only
                rw [ih]
                exact ih least (.binary op left _) _

/-- The tree of the tokens and what is left behind it. -/
theorem read_map (tokens : List (ExprToken α)) :
    read text (tokens.map (ExprToken.map f)) =
      ((read (text ∘ f) tokens).1.map f, (read (text ∘ f) tokens).2.map (ExprToken.map f)) := by
  rw [read, readUnary_map, List.length_map]
  exact extend_map f text _ _ _ _

end OperationTree

/-! ## Arguments -/

namespace Entries

/-- The entries with something done to each value. -/
def mapValues (entries : Entries α) : Entries β := entries.map fun e => (e.1, f e.2)

/-- A key finds what it found, with `f` done to it. -/
theorem get?_mapValues (entries : Entries α) (key : String) :
    (entries.mapValues f).get? key = (entries.get? key).map f := by
  induction entries with
  | nil => rfl
  | cons e rest ih =>
      show (if e.1 = key then _ else get? key (mapValues f rest)) = Option.map f (if e.1 = key then _ else _)
      rw [ih]
      split <;> rfl

theorem has_mapValues (entries : Entries α) (key : String) :
    (entries.mapValues f).has key = entries.has key := by
  rw [has, has, get?_mapValues, Option.isSome_map]

/-- Putting under a key looks at the keys alone. -/
theorem put_mapValues (entries : Entries α) (key : String) (a : α) :
    put key (f a) (entries.mapValues f) = (put key a entries).mapValues f := by
  induction entries with
  | nil => rfl
  | cons e rest ih =>
      show (if e.1 = key then _ else _ :: put key (f a) (mapValues f rest)) =
        mapValues f (if e.1 = key then _ else _)
      rw [ih]
      split <;> rfl

theorem remove_mapValues (entries : Entries α) (key : String) :
    remove key (entries.mapValues f) = (remove key entries).mapValues f := by
  induction entries with
  | nil => rfl
  | cons e rest ih =>
      show (if e.1 = key then _ else _ :: remove key (mapValues f rest)) =
        mapValues f (if e.1 = key then _ else _)
      rw [ih]
      split <;> rfl

end Entries

/-- Bound arguments with something done to each that was given. -/
def BoundArguments.map (bound : BoundArguments α) : BoundArguments β :=
  ⟨Entries.mapValues (Binding.map f) bound.bindings, bound.restName, bound.rest.map f⟩

namespace Signature

/-- Arguments are sorted by their names and their number, and the fault, if there is one, is the
same. -/
theorem collect_map (s : Signature) (passed : Nat) (arguments : List (Argument α)) :
    ∀ (free : List Parameter) (named : Bool) (given : Entries α),
      s.collect passed free named (given.mapValues f) (arguments.map (Argument.map f)) =
        (s.collect passed free named given arguments).map fun r =>
          (Entries.mapValues f r.1, r.2.map f) := by
  induction arguments with
  | nil => exact fun _ _ _ => rfl
  | cons a rest ih =>
      intro free named given
      obtain ⟨name, value, splat⟩ := a
      rw [List.map_cons, Argument.map]
      -- a named argument needs a parameter of that name, any other one takes the first that is free
      cases name with
      | some name =>
          simp only [collect, Entries.has_mapValues, Entries.put_mapValues, ih]
          split
          · rfl
          · split <;> rfl
      | none =>
          simp only [collect]
          split
          · rfl
          · cases free with
            | cons p free => simp only [Entries.put_mapValues, ih]
            | nil =>
                -- no parameter is left, and a rest parameter takes the argument
                dsimp only
                split
                · rw [ih]
                  cases s.collect passed [] named given rest <;> rfl
                · rfl

/-- Parameters take what was given to them or their default, which is not touched. -/
theorem fill_map (parameters : List Parameter) :
    ∀ (given : Entries α) (bindings : Entries (Binding α)),
      fill (given.mapValues f) (Entries.mapValues (Binding.map f) bindings) parameters =
        (fill given bindings parameters).map (Entries.mapValues (Binding.map f)) := by
  induction parameters with
  | nil => exact fun _ _ => rfl
  | cons p rest ih =>
      intro given bindings
      simp only [fill, Entries.get?_mapValues]
      cases given.get? (Text.nameKey p.name) with
      | some value =>
          simp only [Option.map_some]
          rw [Entries.remove_mapValues, ← ih, ← Entries.put_mapValues]
          rfl
      | none =>
          simp only [Option.map_none]
          cases p.default with
          | some value =>
              dsimp only
              rw [← ih, ← Entries.put_mapValues]
              rfl
          | none => rfl

/-- **Binding arguments commutes with whatever is done to each of them.** -/
theorem bind_map (s : Signature) (callee : String) (arguments : List (Argument α)) :
    s.bind callee (arguments.map (Argument.map f)) =
      (s.bind callee arguments).map (BoundArguments.map f) := by
  have hcollect := collect_map f s arguments.length arguments s.parameters false []
  unfold bind
  dsimp only
  rw [List.length_map, show s.collect arguments.length s.parameters false []
    (arguments.map (Argument.map f)) = _ from hcollect]
  cases s.collect arguments.length s.parameters false [] arguments with
  | error fault => rfl
  | ok r =>
      have hfill := fill_map f s.parameters r.1 []
      show Except.mapError _ (fill (Entries.mapValues f r.1) [] s.parameters >>= _) =
        Except.map _ (Except.mapError _ (fill r.1 [] s.parameters >>= _))
      rw [show fill (Entries.mapValues f r.1) [] s.parameters = _ from hfill]
      cases fill r.1 [] s.parameters <;> rfl

end Signature

end Scss
