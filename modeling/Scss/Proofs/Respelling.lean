import Mathlib
import Scss.Builtin
import Scss.Proofs.Naturality
import Scss.Proofs.Parts

/-!
# Names in another spelling

In a name `-` and `_` are interchangeable. A tree is respelled by swapping some of them, at each place
where a name stands as one likes: in variables, mixins, parameters, the variables of loops, and in the
names of arguments. Names of functions stay, as do the names of arguments that would be written out,
because the call is left to CSS.

Two values that are spellings of each other have the same shape, and are related place by place
(`Value.Respelled`). What looks at the shape of a value only does the same for both.
-/

namespace Scss

/-- Two spellings of a name, which differ in `-` and `_` only. -/
def SameName (x y : String) : Prop := Text.nameKey x = Text.nameKey y

/-- Two spellings of a name come from each other by swapping some `-` and `_`. -/
theorem sameName_iff {x y : String} : SameName x y ↔
    List.Forall₂ (fun a b => a = b ∨ a = '-' ∧ b = '_' ∨ a = '_' ∧ b = '-') x.toList y.toList := by
  have hchar : ∀ a b : Char, ((if a = '_' then '-' else a) = if b = '_' then '-' else b) ↔
      a = b ∨ a = '-' ∧ b = '_' ∨ a = '_' ∧ b = '-' := by
    intro a b
    split <;> split <;> grind
  rw [SameName, Text.nameKey, Text.nameKey, ← String.toList_inj, String.toList_map, String.toList_map,
    ← List.forall₂_eq_eq_eq, List.forall₂_map_left_iff, List.forall₂_map_right_iff]
  simp only [hchar]

theorem SameName.refl (x : String) : SameName x x := rfl

theorem SameName.symm {x y : String} (h : SameName x y) : SameName y x := Eq.symm h

/-- Whether the arguments of a call are known to be bound to parameters: it is a call of a built-in
function, or of one of some functions of the stylesheet. -/
def BindsArguments (functions : List String) (callee : String) : Prop :=
  (Builtin.find? callee).isSome ∨ ∃ f ∈ functions, SameName f callee

/-- How the name of an argument can be respelled in a call. -/
def SameArgumentName (functions : List String) (callee x y : String) : Prop :=
  x = y ∨ BindsArguments functions callee ∧ SameName x y

theorem SameArgumentName.refl (functions : List String) (callee x : String) :
    SameArgumentName functions callee x x := Or.inl rfl

/-- Whatever it is the name of an argument to, a name that may be respelled differs in hyphens and
underscores only. -/
theorem SameArgumentName.sameName {functions : List String} {callee x y : String}
    (h : SameArgumentName functions callee x y) : SameName x y :=
  h.elim (fun heq => heq ▸ SameName.refl x) And.right

theorem SameArgumentName.symm {functions : List String} {callee x y : String}
    (h : SameArgumentName functions callee x y) : SameArgumentName functions callee y x :=
  h.imp Eq.symm (And.imp_right SameName.symm)

section
variable {α β : Type}

/-- Options with related entries: both are missing, or both are there. -/
theorem optionRel_refl {R : α → α → Prop} (hR : ∀ a, R a a) : ∀ o : Option α, Option.Rel R o o
  | none => .none
  | some a => .some (hR a)

theorem optionRel_isSome {R : α → β → Prop} {o : Option α} {o' : Option β} (h : Option.Rel R o o') :
    o.isSome = o'.isSome := by
  cases h <;> rfl

theorem optionRel_mono {R R' : α → β → Prop} (hR : ∀ a b, R a b → R' a b) {o : Option α}
    {o' : Option β} (h : Option.Rel R o o') : Option.Rel R' o o' := by
  cases h with
  | none => exact .none
  | some h => exact .some (hR _ _ h)

theorem optionRel_eq {o o' : Option α} (h : Option.Rel Eq o o') : o = o' := by
  cases h with
  | none => rfl
  | some h => exact congrArg some h

theorem optionRel_symm {R : α → β → Prop} {R' : β → α → Prop} (hR : ∀ a b, R a b → R' b a)
    {o : Option α} {o' : Option β} (h : Option.Rel R o o') : Option.Rel R' o' o := by
  cases h with
  | none => exact .none
  | some h => exact .some (hR _ _ h)

end

/-! ## Values -/

section
variable {α β γ : Type}

def TextPart.map (f : α → β) : TextPart α → TextPart β
  | .literal text => .literal text
  | .embedded a => .embedded (f a)

@[simp] theorem ExprToken.map_map (f : α → β) (g : β → γ) (t : ExprToken α) :
    (t.map f).map g = t.map (g ∘ f) := by
  cases t <;> rfl

@[simp] theorem TextPart.map_map (f : α → β) (g : β → γ) (t : TextPart α) :
    (t.map f).map g = t.map (g ∘ f) := by
  cases t <;> rfl

@[simp] theorem ExprToken.map_id (t : ExprToken α) : (t.map fun a => a) = t := by cases t <;> rfl

@[simp] theorem TextPart.map_id (t : TextPart α) : (t.map fun a => a) = t := by cases t <;> rfl

/-- The operands of mapped tokens come from operands. -/
theorem ExprToken.operand_mem_map {f : α → β} {tokens : List (ExprToken α)} {b : β} :
    .operand b ∈ tokens.map (ExprToken.map f) ↔ ∃ a, .operand a ∈ tokens ∧ f a = b := by
  rw [List.mem_map]
  constructor
  · rintro ⟨t, ht, heq⟩
    cases t with
    | operand a => exact ⟨a, ht, ExprToken.operand.inj heq⟩
    | operator op => cases heq
    | blank => cases heq
  · rintro ⟨a, ha, rfl⟩
    exact ⟨_, ha, rfl⟩

/-- The embedded parts of mapped text come from embedded parts. -/
theorem TextPart.embedded_mem_map {f : α → β} {parts : List (TextPart α)} {b : β} :
    .embedded b ∈ parts.map (TextPart.map f) ↔ ∃ a, .embedded a ∈ parts ∧ f a = b := by
  rw [List.mem_map]
  constructor
  · rintro ⟨t, ht, heq⟩
    cases t with
    | literal text => cases heq
    | embedded a => exact ⟨a, ht, TextPart.embedded.inj heq⟩
  · rintro ⟨a, ha, rfl⟩
    exact ⟨_, ha, rfl⟩

/-- Two arguments at one place, with related names and values. -/
structure Argument.Rel (N : String → String → Prop) (R : α → β → Prop) (a : Argument α)
    (b : Argument β) : Prop where
  name : Option.Rel N a.name b.name
  value : R a.value b.value
  splat : a.splat = b.splat

end

/-- Two spellings of a value, where the arguments of calls of some functions are bound to parameters.
What a value is built from stands in pairs. -/
inductive Value.Respelled (functions : List String) : Value → Value → Prop
  | null : Respelled functions .null .null
  | number (n : Number) : Respelled functions (.number n) (.number n)
  | color (c : Color) : Respelled functions (.color c) (.color c)
  | quoted (text : String) (quote : Char) :
      Respelled functions (.quoted text quote) (.quoted text quote)
  | word (text : String) : Respelled functions (.word text) (.word text)
  | var {x y : String} (h : SameName x y) : Respelled functions (.variable x) (.variable y)
  | call {callee : String} (arguments : List (Argument Value × Argument Value))
      (names : ∀ p ∈ arguments, Option.Rel (SameArgumentName functions callee) p.1.name p.2.name)
      (values : ∀ p ∈ arguments, Respelled functions p.1.value p.2.value)
      (splats : ∀ p ∈ arguments, p.1.splat = p.2.splat) :
      Respelled functions (.call callee (arguments.map Prod.fst))
        (.call callee (arguments.map Prod.snd))
  | list (items : List (Value × Value)) (separator : ListSeparator)
      (h : ∀ p ∈ items, Respelled functions p.1 p.2) :
      Respelled functions (.list (items.map Prod.fst) separator)
        (.list (items.map Prod.snd) separator)
  | expression (tokens : List (ExprToken (Value × Value)))
      (h : ∀ p, .operand p ∈ tokens → Respelled functions p.1 p.2) :
      Respelled functions (.expression (tokens.map (ExprToken.map Prod.fst)))
        (.expression (tokens.map (ExprToken.map Prod.snd)))
  | paren {v w : Value} (h : Respelled functions v w) : Respelled functions (.paren v) (.paren w)
  | interpolated (parts : List (TextPart (Value × Value))) (quote : Option Char)
      (h : ∀ p, .embedded p ∈ parts → Respelled functions p.1 p.2) :
      Respelled functions (.interpolated (parts.map (TextPart.map Prod.fst)) quote)
        (.interpolated (parts.map (TextPart.map Prod.snd)) quote)

/-- Two spellings of a text with expressions in it. -/
def Interpolation.Respelled (functions : List String) (i j : Interpolation) : Prop :=
  Value.Respelled functions (.interpolated i none) (.interpolated j none)

namespace Value.Respelled

variable {functions : List String}

/-- A value is a spelling of itself. -/
protected theorem refl (v : Value) : Respelled functions v v := by
  induction v using Value.induction with
  | null => exact .null
  | number n => exact .number n
  | color c => exact .color c
  | quoted text quote => exact .quoted text quote
  | word text => exact .word text
  | var name => exact .var (SameName.refl name)
  | call callee arguments ih =>
      have h : Respelled functions (.call callee _) (.call callee _) :=
        .call (arguments.map fun a => (a, a))
          (List.forall_mem_map.mpr fun a _ => optionRel_refl (SameArgumentName.refl _ _) a.name)
          (List.forall_mem_map.mpr ih) (List.forall_mem_map.mpr fun _ _ => rfl)
      simpa [Function.comp_def] using h
  | list items separator ih =>
      have h : Respelled functions _ _ :=
        .list (items.map fun v => (v, v)) separator (List.forall_mem_map.mpr ih)
      simpa [Function.comp_def] using h
  | expression tokens ih =>
      have h : Respelled functions _ _ :=
        .expression (tokens.map (ExprToken.map fun v => (v, v))) fun p hp => by
          obtain ⟨v, hv, rfl⟩ := ExprToken.operand_mem_map.mp hp
          exact ih v hv
      simpa [Function.comp_def] using h
  | paren inner ih => exact .paren ih
  | interpolated parts quote ih =>
      have h : Respelled functions _ _ :=
        .interpolated (parts.map (TextPart.map fun v => (v, v))) quote fun p hp => by
          obtain ⟨v, hv, rfl⟩ := TextPart.embedded_mem_map.mp hp
          exact ih v hv
      simpa [Function.comp_def] using h

/-- Respelling can be undone, as the two names of an argument are interchangeable. -/
protected theorem symm {v w : Value} (h : Respelled functions v w) : Respelled functions w v := by
  induction h with
  | null => exact .null
  | number n => exact .number n
  | color c => exact .color c
  | quoted text quote => exact .quoted text quote
  | word text => exact .word text
  | var h => exact .var h.symm
  | call arguments names _ splats ih =>
      have h := Respelled.call (arguments.map Prod.swap)
        (List.forall_mem_map.mpr fun p hp => optionRel_symm (fun _ _ => SameArgumentName.symm) (names p hp))
        (List.forall_mem_map.mpr ih) (List.forall_mem_map.mpr fun p hp => (splats p hp).symm)
      simpa [Function.comp_def] using h
  | list items separator _ ih =>
      have h := Respelled.list (items.map Prod.swap) separator (List.forall_mem_map.mpr ih)
      simpa [Function.comp_def] using h
  | expression tokens _ ih =>
      have h : Respelled functions _ _ :=
        .expression (tokens.map (ExprToken.map Prod.swap)) fun p hp => by
          obtain ⟨q, hq, rfl⟩ := ExprToken.operand_mem_map.mp hp
          exact ih q hq
      simpa [Function.comp_def] using h
  | paren _ ih => exact .paren ih
  | interpolated parts quote _ ih =>
      have h : Respelled functions _ _ :=
        .interpolated (parts.map (TextPart.map Prod.swap)) quote fun p hp => by
          obtain ⟨q, hq, rfl⟩ := TextPart.embedded_mem_map.mp hp
          exact ih q hq
      simpa [Function.comp_def] using h

end Value.Respelled

theorem Interpolation.Respelled.refl {functions : List String} (i : Interpolation) :
    i.Respelled functions i := Value.Respelled.refl _

theorem Interpolation.Respelled.symm {functions : List String} {i j : Interpolation}
    (h : i.Respelled functions j) : j.Respelled functions i := Value.Respelled.symm h

/-! ## What only depends on the shape of a value -/

namespace Value

theorem any_congr_of_mem {α : Type} {xs : List α} {p q : α → Bool} (h : ∀ x ∈ xs, p x = q x) :
    xs.any p = xs.any q := by
  induction xs with
  | nil => rfl
  | cons x xs ih =>
      obtain ⟨hx, hxs⟩ := List.forall_mem_cons.mp h
      rw [List.any_cons, List.any_cons, hx, ih hxs]

/-- Whether the operand of a token, if it is one, passes a test. -/
def tokenTest {α : Type} (test : α → Bool) : ExprToken α → Bool
  | .operand a => test a
  | _ => false

/-- A test on operands finds the same whether the one map or the other has made them, if it holds
alike of both. -/
theorem any_tokenTest_map {α : Type} {f g : α → Value} {test : Value → Bool}
    {tokens : List (ExprToken α)} (h : ∀ a, .operand a ∈ tokens → test (g a) = test (f a)) :
    (tokens.map (ExprToken.map g)).any (tokenTest test) =
      (tokens.map (ExprToken.map f)).any (tokenTest test) := by
  rw [List.any_map, List.any_map]
  refine any_congr_of_mem fun t ht => ?_
  cases t with
  | operand a => exact h a ht
  | operator op => rfl
  | blank => rfl

theorem hasInterpolationItems_eq_any (items : List Value) :
    hasInterpolationItems items = items.any hasInterpolation := by
  induction items with
  | nil => rfl
  | cons v rest ih => rw [hasInterpolationItems, ih, List.any_cons]

theorem hasInterpolationArguments_eq_any (arguments : List (Argument Value)) :
    hasInterpolationArguments arguments = arguments.any fun a => a.value.hasInterpolation := by
  induction arguments with
  | nil => rfl
  | cons a rest ih => rw [hasInterpolationArguments, ih, List.any_cons]

theorem hasInterpolationTokens_eq_any (tokens : List (ExprToken Value)) :
    hasInterpolationTokens tokens = tokens.any (tokenTest hasInterpolation) := by
  induction tokens with
  | nil => rfl
  | cons t rest ih => cases t <;> simp [hasInterpolationTokens, ih, tokenTest]

theorem someOperandIsArithmetic_eq_any (tokens : List (ExprToken Value)) :
    someOperandIsArithmetic tokens = tokens.any (tokenTest isArithmetic) := by
  induction tokens with
  | nil => rfl
  | cons t rest ih => cases t <;> simp [someOperandIsArithmetic, ih, tokenTest]

namespace Respelled

variable {functions : List String}

theorem isVariable_eq {v w : Value} (h : Respelled functions v w) : w.isVariable = v.isVariable := by
  cases h <;> rfl

/-- Names are no interpolation. -/
theorem hasInterpolation_eq {v w : Value} (h : Respelled functions v w) :
    w.hasInterpolation = v.hasInterpolation := by
  induction h with
  | null | number _ | color _ | quoted _ _ | word _ | var _ => rfl
  | call arguments _ _ _ ih =>
      simp only [hasInterpolation, hasInterpolationArguments_eq_any, List.any_map]
      exact any_congr_of_mem ih
  | list items _ _ ih =>
      simp only [hasInterpolation, hasInterpolationItems_eq_any, List.any_map]
      exact any_congr_of_mem ih
  | expression tokens _ ih =>
      simp only [hasInterpolation, hasInterpolationTokens_eq_any]
      exact any_tokenTest_map ih
  | paren _ ih => simpa only [hasInterpolation] using ih
  | interpolated parts quote _ _ =>
      have hplain : ∀ f : Value × Value → Value, Interpolation.isPlain (parts.map (TextPart.map f)) =
          parts.all TextPart.isLiteral := by
        intro f
        rw [Interpolation.isPlain, List.all_map]
        exact List.all_congr rfl fun t => by cases t <;> rfl
      simp only [hasInterpolation, hplain]

/-- Whether an operator counts depends on what kind of value stands beside it, and respelling keeps
the kind. -/
theorem operatorCounts_eq (op : Operator) {left right : Option (Value × Value)}
    (hleft : ∀ p ∈ left, Respelled functions p.1 p.2)
    (hright : ∀ p ∈ right, Respelled functions p.1 p.2) :
    operatorCounts op (left.map Prod.snd) (right.map Prod.snd) =
      operatorCounts op (left.map Prod.fst) (right.map Prod.fst) := by
  cases left with
  | none =>
      cases right with
      | none => rfl
      | some p => simp [operatorCounts, (hright p rfl).hasInterpolation_eq]
  | some p =>
      cases right with
      | none => rfl
      | some q =>
          simp [operatorCounts, (hleft p rfl).hasInterpolation_eq, (hright q rfl).hasInterpolation_eq,
            (hleft p rfl).isVariable_eq, (hright q rfl).isVariable_eq]

/-- Reading the tokens from the left, with the operand that was passed last. -/
theorem someOperatorCounts_eq {tokens : List (ExprToken (Value × Value))}
    (h : ∀ p, .operand p ∈ tokens → Respelled functions p.1 p.2) :
    ∀ {previous : Option (Value × Value)}, (∀ p ∈ previous, Respelled functions p.1 p.2) →
      someOperatorCounts (previous.map Prod.snd) (tokens.map (ExprToken.map Prod.snd)) =
        someOperatorCounts (previous.map Prod.fst) (tokens.map (ExprToken.map Prod.fst)) := by
  induction tokens with
  | nil => intros; rfl
  | cons t rest ih =>
      intro previous hprevious
      replace ih := @ih fun p hp => h p (List.mem_cons_of_mem t hp)
      have hnone := @ih none (by simp)
      cases t with
      | operand p => exact @ih (some p) (by simpa using h p List.mem_cons_self)
      | blank => exact hnone
      | operator op =>
          have hnext : ∀ next : Option (Value × Value), (∀ p ∈ next, Respelled functions p.1 p.2) →
              (operatorCounts op (previous.map Prod.snd) (next.map Prod.snd) ||
                someOperatorCounts none (rest.map (ExprToken.map Prod.snd))) =
              (operatorCounts op (previous.map Prod.fst) (next.map Prod.fst) ||
                someOperatorCounts none (rest.map (ExprToken.map Prod.fst))) := by
            intro next hnext
            rw [operatorCounts_eq op hprevious hnext]
            exact congrArg _ hnone
          cases rest with
          | nil => exact hnext none (by simp)
          | cons u rest =>
              cases u with
              | operand p => exact hnext (some p) (by simpa using h p (by simp))
              | operator _ => exact hnext none (by simp)
              | blank => exact hnext none (by simp)

/-- So an expression that is computed is computed in both spellings. -/
theorem isArithmetic_eq {v w : Value} (h : Respelled functions v w) :
    w.isArithmetic = v.isArithmetic := by
  induction h with
  | null | number _ | color _ | quoted _ _ | word _ | var _ | call _ _ _ _ _ | list _ _ _ _
  | paren _ _ | interpolated _ _ _ _ => rfl
  | expression tokens h ih =>
      have hfilter : ∀ f : Value × Value → Value, ((tokens.map (ExprToken.map f)).filter fun t => !t.isBlank) =
          (tokens.filter fun t => !t.isBlank).map (ExprToken.map f) := by
        intro f
        simp only [List.filter_map, Function.comp_def, ExprToken.isBlank_map]
      simp only [isArithmetic, someOperandIsArithmetic_eq_any, hfilter]
      rw [any_tokenTest_map ih]
      refine congrArg _ (@someOperatorCounts_eq functions _ (fun p hp => ?_) none (by simp))
      exact h p (List.mem_filter.mp hp).1

end Respelled

end Value

end Scss
