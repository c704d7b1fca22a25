import Scss.Builtin
import Scss.Proofs.Pieces
import Scss.Value.Operation
import Scss.Value.Url

/-!
# Kinds of values

What evaluation makes of values is put together from few forms: numbers, colors, texts, and lists,
calls and expressions of values that are there already. A property that these forms have is a `Kind`,
if it also passes from such a value to its parts. Operators and built-in functions then answer values
of the kind for values of the kind, whatever they compute, and so does everything that is built on
them.
-/

namespace Scss

/-! ## Results that satisfy something -/

/-- The result, if there is one, has a property. -/
def Answers {ε α : Type} (Q : α → Prop) (r : Except ε α) : Prop := ∀ a, r = .ok a → Q a

namespace Answers

variable {ε α β : Type} {Q : α → Prop} {P : β → Prop}

protected theorem ok {a : α} (h : Q a) : Answers Q (.ok a : Except ε α) :=
  fun _ hb => Except.ok.inj hb ▸ h

protected theorem error (e : ε) : Answers Q (.error e : Except ε α) := fun _ h => nomatch h

protected theorem bind {m : Except ε α} {f : α → Except ε β} (hm : Answers Q m)
    (hf : ∀ a, Q a → Answers P (f a)) : Answers P (m >>= f) := by
  cases m with
  | error e => exact Answers.error e
  | ok a => exact hf a (hm a rfl)

/-- After a step about whose result nothing has to be known. -/
theorem after {m : Except ε α} {f : α → Except ε β} (hf : ∀ a, Answers P (f a)) :
    Answers P (m >>= f) :=
  Answers.bind (Q := fun _ => True) (fun _ _ => trivial) fun a _ => hf a

protected theorem ite {p : Prop} [Decidable p] {m m' : Except ε α} (h : Answers Q m)
    (h' : Answers Q m') : Answers Q (if p then m else m') := by
  split
  · exact h
  · exact h'

protected theorem map {m : Except ε α} {f : α → β} (hf : ∀ a, P (f a)) : Answers P (m.map f) := by
  cases m with
  | error e => exact Answers.error e
  | ok a => exact Answers.ok (hf a)

protected theorem mapError {ε' : Type} {m : Except ε α} {f : ε → ε'} (hm : Answers Q m) :
    Answers Q (m.mapError f) := by
  cases m with
  | error e => exact Answers.error _
  | ok a => exact Answers.ok (hm a rfl)

end Answers

/-! ## Kinds -/

namespace Value

/-- A property of values that evaluation keeps: all that it computes without parts has it, and a value
with parts has it if they do. The parts of such a value have it in turn. -/
structure Kind (V : Value → Prop) : Prop where
  null : V .null
  number : ∀ n, V (.number n)
  color : ∀ c, V (.color c)
  quoted : ∀ text quote, V (.quoted text quote)
  word : ∀ text, V (.word text)
  list : ∀ {items separator}, (∀ v ∈ items, V v) → V (.list items separator)
  call : ∀ {name arguments}, (∀ a ∈ arguments, V a.value) → V (.call name arguments)
  expression : ∀ {tokens}, (∀ v, .operand v ∈ tokens → V v) → V (.expression tokens)
  ofList : ∀ {items separator}, V (.list items separator) → ∀ v ∈ items, V v
  ofCall : ∀ {name arguments}, V (.call name arguments) → ∀ a ∈ arguments, V a.value
  ofExpression : ∀ {tokens}, V (.expression tokens) → ∀ v, .operand v ∈ tokens → V v
  /-- Other text does not matter. -/
  interpolated : ∀ {parts others quote}, V (.interpolated parts quote) → V (.interpolated others quote)

/-- All values are one kind. -/
theorem Kind.all : Kind fun _ => True := by
  constructor <;> intros <;> trivial

variable {V : Value → Prop} (hV : Kind V)
include hV

theorem Kind.boolean (b : Bool) : V (boolean b) := hV.word _

/-- A value that is no list is its own only item. -/
theorem Kind.items {v : Value} (h : V v) : ∀ w ∈ v.items, V w := by
  cases v with
  | list items separator => exact hV.ofList h
  | null => exact fun _ hw => absurd hw List.not_mem_nil
  | _ => exact fun w hw => List.mem_singleton.mp hw ▸ h

/-- An expression loses no operands with the blanks around it. -/
theorem Kind.ofTokens {tokens : List (ExprToken Value)} (h : ∀ v, .operand v ∈ tokens → V v) :
    V (ofTokens tokens) := by
  have hinner : ∀ v, .operand v ∈ ((tokens.reverse.dropWhile ExprToken.isBlank).reverse).dropWhile
      ExprToken.isBlank → V v := by
    intro v hv
    have hv := List.mem_reverse.mp ((List.dropWhile_suffix _).subset hv)
    exact h v (List.mem_reverse.mp ((List.dropWhile_suffix _).subset hv))
  unfold Value.ofTokens
  dsimp only
  split
  · exact hV.null
  next v hone => exact hinner v (hone ▸ List.mem_cons_self)
  · exact hV.expression hinner

/-! ## Operators -/

/-- A sign makes a number or a text. -/
theorem Kind.applyUnary (op : Operator) (v : Value) : V (applyUnary op v) := by
  unfold Value.applyUnary
  split
  · exact hV.boolean _
  · exact hV.number _
  · exact hV.number _
  · exact hV.word _

/-- Numbers combine to a number, a truth value or a text, or not at all. -/
theorem Kind.combineNumbers (op : Operator) (m n : Number) :
    Answers V (combineNumbers op m n) := by
  unfold Value.combineNumbers
  dsimp only
  have hcomputed : ∀ x (unit : Except EvaluationFault String),
      Answers V (unit.map fun u => Value.number ⟨x, u⟩) :=
    fun _ _ => Answers.map fun _ => hV.number _
  have hcompared : ∀ b, Answers V ((sharedUnit m n).map fun _ => Value.boolean b) :=
    fun _ => Answers.map fun _ => hV.boolean _
  cases op with
  | plus | minus => exact hcomputed _ _
  | less | greater | atMost | atLeast => exact hcompared _
  | modulo | times | divide =>
      dsimp only
      split
      · exact Answers.error _
      · exact hcomputed _ _
  | _ => exact Answers.error _

theorem Kind.combineColors (op : Operator) (c d : Color) : Answers V (combineColors op c d) := by
  unfold Value.combineColors
  dsimp only
  split
  · exact Answers.ok (hV.color _)
  · exact Answers.error _

theorem Kind.combineColorNumber (op : Operator) (c : Color) (n : Number) :
    Answers V (combineColorNumber op c n) := by
  unfold Value.combineColorNumber
  cases op with
  | plus | minus | times => exact Answers.ok (hV.color _)
  | divide =>
      dsimp only
      split
      · exact Answers.error _
      · exact Answers.ok (hV.color _)
  | _ => exact Answers.error _

theorem Kind.concatenate (left right : Value) : V (concatenate left right) := by
  unfold Value.concatenate
  dsimp only
  split
  · exact hV.quoted _ _
  · exact hV.word _
  · exact hV.quoted _ _
  · exact hV.word _

/-- Texts are compared or put together. -/
theorem Kind.combineTexts (op : Operator) (left right : Value) :
    Answers V (combineTexts op left right) := by
  unfold Value.combineTexts
  cases op with
  | plus => exact Answers.ok (hV.concatenate left right)
  | minus | divide => exact Answers.ok (hV.word _)
  | _ => exact Answers.error _

/-- An operator answers one of its operands or something new. -/
theorem Kind.applyBinary (op : Operator) {left right : Value} (hleft : V left) (hright : V right) :
    Answers V (applyBinary op left right) := by
  unfold Value.applyBinary
  split
  · refine Answers.ok ?_
    split
    · exact hright
    · exact hleft
  · refine Answers.ok ?_
    split
    · exact hleft
    · exact hright
  · exact Answers.ok (hV.boolean _)
  · exact Answers.ok (hV.boolean _)
  · split
    · exact hV.combineNumbers op _ _
    · exact hV.combineColors op _ _
    · exact hV.combineColorNumber op _ _
    · split
      · exact Answers.ok (hV.color _)
      · exact Answers.ok (hV.color _)
      · exact hV.combineTexts op _ _
    · exact hV.combineTexts op _ _

/-! ## Urls -/

/-- The text that a path is moved to is of the kind as any other text is. -/
theorem Kind.rebasePath? (base : String) {v path : Value} (hv : V v)
    (h : rebasePath? base v = some path) : V path := by
  cases v with
  | quoted text quote => exact Option.some.inj h ▸ hV.quoted _ _
  | word text => exact Option.some.inj h ▸ hV.word _
  | interpolated parts quote =>
      obtain ⟨text, -, rfl⟩ := Option.map_eq_some_iff.mp h
      exact hV.interpolated hv
  | _ => cases h

/-- Rebasing changes paths and nothing else. -/
theorem Kind.rebaseUrls (base : String) {v : Value} (hv : V v) : V (v.rebaseUrls base) := by
  induction v using Value.induction with
  | null | number | color | quoted | word | var | paren | interpolated => exact hv
  -- only a call with a single argument may be a path; any other is left as it is
  | call name arguments _ =>
      match arguments with
      | [] => exact hv
      | _ :: _ :: _ => exact hv
      | [argument] =>
          rw [Value.rebaseUrls]
          split
          · split
            next path hpath =>
              have hpath := hV.rebasePath? base (hV.ofCall hv argument List.mem_cons_self) hpath
              exact hV.call fun a ha => List.mem_singleton.mp ha ▸ hpath
            · exact hv
          · exact hv
  | list items separator ih =>
      rw [Value.rebaseUrls]
      refine hV.list ?_
      have hitems := hV.ofList hv
      -- the items are rebased one by one, each of them of its own kind
      clear hv
      induction items with
      | nil => exact hitems
      | cons item rest ihrest =>
          rw [rebaseItems]
          refine List.forall_mem_cons.mpr ⟨ih item List.mem_cons_self (hitems item List.mem_cons_self), ?_⟩
          refine ihrest ?_ ?_
          · exact fun w hw => ih w (List.mem_cons_of_mem item hw)
          · exact fun w hw => hitems w (List.mem_cons_of_mem item hw)
  | expression tokens ih =>
      rw [Value.rebaseUrls]
      refine hV.expression ?_
      have hoperands := hV.ofExpression hv
      clear hv
      induction tokens with
      | nil => exact hoperands
      | cons token rest ihrest =>
          have hrest := ihrest (fun w hw => ih w (List.mem_cons_of_mem token hw))
            fun w hw => hoperands w (List.mem_cons_of_mem token hw)
          intro w hw
          cases token with
          | operand v =>
              rcases List.mem_cons.mp hw with hw | hw
              · obtain rfl := ExprToken.operand.inj hw
                exact ih v List.mem_cons_self (hoperands v List.mem_cons_self)
              · exact hrest w hw
          | operator op => exact hrest w ((List.mem_cons.mp hw).resolve_left nofun)
          | blank => exact hrest w ((List.mem_cons.mp hw).resolve_left nofun)

end Value

/-! ## Arguments -/

/-- A binding that is no default, or one of a kind. -/
def Binding.DefaultIs {α : Type} (V : Value → Prop) : Binding α → Prop
  | .given _ => True
  | .default v => V v

namespace Signature

/-- All defaults of a signature are of a kind. -/
def DefaultsAre (V : Value → Prop) (s : Signature) : Prop :=
  ∀ p ∈ s.parameters, ∀ v, p.default = some v → V v

variable {α : Type} {V : Value → Prop}

theorem fill_defaults {parameters : List Parameter}
    (hparameters : ∀ p ∈ parameters, ∀ v, p.default = some v → V v) :
    ∀ {given : Entries α} {bindings r : Entries (Binding α)},
      (∀ e ∈ bindings, e.2.DefaultIs V) → fill given bindings parameters = .ok r →
      ∀ e ∈ r, e.2.DefaultIs V := by
  induction parameters with
  | nil =>
      intro given bindings r hbindings h
      obtain rfl := Except.ok.inj h
      exact hbindings
  | cons p rest ih =>
      replace ih := @ih fun q hq => hparameters q (List.mem_cons_of_mem p hq)
      intro given bindings r hbindings h
      simp only [fill] at h
      split at h
      next value _ =>
        have hgiven : (Binding.given value).DefaultIs V := trivial
        exact ih (Entries.forall_put hbindings p.name hgiven) h
      next value _ hvalue =>
        have hdefault : (Binding.default value : Binding α).DefaultIs V :=
          hparameters p List.mem_cons_self value hvalue
        exact ih (Entries.forall_put hbindings p.name hdefault) h
      · cases h

/-- What is bound by default is a default of the signature. -/
theorem bind_defaults {s : Signature} (hs : s.DefaultsAre V) {callee : String}
    {arguments : List (Argument α)} {bound : BoundArguments α}
    (h : s.bind callee arguments = .ok bound) : ∀ e ∈ bound.bindings, e.2.DefaultIs V := by
  have hbound : Answers (fun bound : BoundArguments α => ∀ e ∈ bound.bindings, e.2.DefaultIs V)
      (s.bind callee arguments) := by
    refine Answers.mapError (Answers.after fun given => ?_)
    refine Answers.bind (Q := fun bindings => ∀ e ∈ bindings, e.2.DefaultIs V) ?_
      fun _ h => Answers.ok h
    exact fun r => fill_defaults hs fun _ he => absurd he List.not_mem_nil
  exact hbound bound h

end Signature

/-! ## Built-in functions -/

/-- All arguments that a built-in function looks at are of a kind. -/
structure BoundArguments.Have (V : Value → Prop) (bound : BoundArguments Value) : Prop where
  value : ∀ name, V (bound.value name)
  rest : ∀ v ∈ bound.rest, V v

namespace Builtin

/-- A built-in function stays within a kind: so do its defaults, and what it computes from arguments of
the kind. -/
structure StaysWithin (V : Value → Prop) (b : Builtin) : Prop where
  defaults : b.signature.DefaultsAre V
  computed : ∀ f, b.body = .compute f → ∀ bound : BoundArguments Value, bound.Have V →
    Answers V (f bound)

variable {V : Value → Prop} (hV : Value.Kind V)

theorem required_defaults (names : List String) : (required names).DefaultsAre V := by
  intro p hp v hv
  obtain ⟨name, -, rfl⟩ := List.mem_map.mp hp
  cases hv

/-- Parameters with the defaults of a table have defaults of the kind if the table does. -/
theorem withDefaults_defaults {s : Signature} (hs : s.DefaultsAre V)
    {defaults : List (String × Value)} (h : ∀ d ∈ defaults, V d.2) :
    (withDefaults s defaults).DefaultsAre V := by
  intro p hp v hv
  rcases List.mem_append.mp hp with hp | hp
  · exact hs p hp v hv
  · obtain ⟨d, hd, rfl⟩ := List.mem_map.mp hp
    exact Option.some.inj hv ▸ h d hd

/-- A function that computes from its bound arguments stays within the kind if the computation does. -/
theorem computing_staysWithin {name : String} {s : Signature} (hs : s.DefaultsAre V)
    {f : BoundArguments Value → Except ArgumentFault Value}
    (h : ∀ bound : BoundArguments Value, bound.Have V → Answers V (f bound)) :
    (computing name s f).StaysWithin V := by
  refine ⟨hs, fun g hg => ?_⟩
  obtain rfl := Body.compute.inj hg
  exact h

include hV

/-- Functions of colors answer with colors and their channels. -/
theorem colorFunctions_staysWithin : ∀ b ∈ colorFunctions, b.StaysWithin V := by
  have hofColor : ∀ name (f : Color → Number),
      (computing name (required ["color"]) fun b => do
        return .number (f (← colorArgument b "color"))).StaysWithin V :=
    fun _ _ => computing_staysWithin (required_defaults _) fun _ _ =>
      Answers.after fun _ => Answers.ok (hV.number _)
  have hhsl : ∀ (b : BoundArguments Value) (alpha : Float), Answers V (do
      let hue ← numberArgument b "hue"
      let saturation ← numberArgument b "saturation"
      let lightness ← numberArgument b "lightness"
      return .color (Color.hsla hue.value saturation.value lightness.value alpha)) :=
    fun _ _ => Answers.after fun _ => Answers.after fun _ => Answers.after fun _ =>
      Answers.ok (hV.color _)
  have hnull : ∀ d ∈ [("green", Value.null), ("blue", .null), ("alpha", .null)], V d.2 := by
    simp [hV.null]
  intro b hb
  simp only [colorFunctions, List.mem_cons, List.not_mem_nil, or_false] at hb
  rcases hb with rfl | rfl | rfl | rfl | rfl | rfl | rfl | rfl | rfl | rfl | rfl | rfl | rfl | rfl
  iterate 8 exact hofColor _ _
  -- `rgb`
  · refine computing_staysWithin (required_defaults _) fun bound _ => ?_
    exact Answers.after fun _ => Answers.ok (hV.color _)
  -- `rgba`
  · refine computing_staysWithin (withDefaults_defaults (required_defaults _) hnull) fun bound _ => ?_
    refine Answers.ite ?_ ?_
    · exact Answers.after fun _ => Answers.after fun _ => Answers.ok (hV.color _)
    · exact Answers.after fun _ => Answers.after fun _ => Answers.ok (hV.color _)
  -- `hsl` and `hsla`
  · refine computing_staysWithin (required_defaults _) fun bound _ => hhsl bound 1
  · refine computing_staysWithin (required_defaults _) fun bound _ => ?_
    exact Answers.after fun alpha => hhsl bound alpha.value
  -- `darken` and `lighten`
  all_goals
    refine computing_staysWithin (required_defaults _) fun bound _ => ?_
    refine Answers.after fun color => Answers.after fun amount => Answers.ite ?_ ?_
    · exact Answers.ok (hV.color _)
    · exact Answers.error _

/-- Functions of lists answer with lists, entries, numbers and `null`. -/
theorem listFunctions_staysWithin : ∀ b ∈ listFunctions, b.StaysWithin V := by
  have hauto : ∀ d ∈ [("separator", Value.word "auto")], V d.2 :=
    fun d hd => List.mem_singleton.mp hd ▸ hV.word "auto"
  intro b hb
  simp only [listFunctions, List.mem_cons, List.not_mem_nil, or_false] at hb
  rcases hb with rfl | rfl | rfl | rfl | rfl
  -- `append`
  · refine computing_staysWithin (withDefaults_defaults (required_defaults _) hauto) fun bound h => ?_
    refine Answers.after fun separator => Answers.ok (hV.list fun v hv => ?_)
    rcases List.mem_append.mp hv with hv | hv
    · exact hV.items (h.value "list") v hv
    · exact List.mem_singleton.mp hv ▸ h.value "val"
  -- `join`
  · refine computing_staysWithin (withDefaults_defaults (required_defaults _) hauto) fun bound h => ?_
    refine Answers.after fun separator => Answers.ok (hV.list fun v hv => ?_)
    rcases List.mem_append.mp hv with hv | hv
    · exact hV.items (h.value "list1") v hv
    · exact hV.items (h.value "list2") v hv
  -- `nth`
  · refine computing_staysWithin (required_defaults _) fun bound h => ?_
    refine Answers.after fun n => Answers.ite (Answers.error _) (Answers.ite (Answers.error _) ?_)
    dsimp only
    split
    next item hitem => exact Answers.ok (hV.items (h.value "list") item (List.mem_of_getElem? hitem))
    · exact Answers.error _
  · exact computing_staysWithin (required_defaults _) fun _ _ => Answers.ok (hV.number _)
  -- `index`, whose definition is reached by reduction, as it has no name here
  · refine computing_staysWithin (required_defaults _) fun bound _ => ?_
    conv => arg 2; whnf
    split
    · exact Answers.ok (hV.number _)
    · exact Answers.ok hV.null

/-- Functions of numbers answer with numbers, units and truth values. -/
theorem numberFunctions_staysWithin : ∀ b ∈ numberFunctions, b.StaysWithin V := by
  have hofNumber : ∀ name (f : Float → Float),
      (computing name (required ["number"]) fun b => do
        let n ← numberArgument b "number"
        return .number { n with value := f n.value }).StaysWithin V :=
    fun _ _ => computing_staysWithin (required_defaults _) fun _ _ =>
      Answers.after fun _ => Answers.ok (hV.number _)
  intro b hb
  simp only [numberFunctions, List.mem_cons, List.not_mem_nil, or_false] at hb
  rcases hb with rfl | rfl | rfl | rfl | rfl | rfl | rfl | rfl | rfl | rfl
  iterate 2
    refine computing_staysWithin (fun _ hp => absurd hp List.not_mem_nil) fun bound _ => ?_
    refine Answers.after fun numbers => ?_
    split
    · exact Answers.error _
    · exact Answers.ok (hV.number _)
  iterate 4 exact hofNumber _ _
  all_goals refine computing_staysWithin (required_defaults _) fun bound _ => ?_
  -- `percentage`
  · refine Answers.after fun n => Answers.ite ?_ ?_
    · exact Answers.ok (hV.number _)
    · exact Answers.error _
  -- `unit` and `unitless`
  · exact Answers.after fun n => Answers.ok (hV.quoted _ _)
  · exact Answers.after fun n => Answers.ok (hV.boolean _)
  -- `comparable`
  · conv => arg 2; whnf
    split <;> exact Answers.ok (hV.boolean _)

theorem textFunctions_staysWithin : ∀ b ∈ textFunctions, b.StaysWithin V := by
  intro b hb
  simp only [textFunctions, List.mem_cons, List.not_mem_nil, or_false] at hb
  rcases hb with rfl | rfl | rfl | rfl
  -- `quote`
  · refine computing_staysWithin (required_defaults _) fun bound _ => ?_
    conv => arg 2; whnf
    split <;> exact Answers.ok (hV.quoted _ _)
  -- `unquote`
  · refine computing_staysWithin (required_defaults _) fun bound h => ?_
    conv => arg 2; whnf
    split
    · exact Answers.ok (hV.word _)
    · exact Answers.ok (h.value "string")
  · exact computing_staysWithin (required_defaults _) fun _ _ => Answers.ok (hV.word _)
  -- `if` computes nothing itself
  · exact ⟨required_defaults _, fun f hf => nomatch hf⟩

/-- **Every built-in function stays within every kind.** -/
theorem staysWithin_of_find? {name : String} {b : Builtin} (h : find? name = some b) :
    b.StaysWithin V := by
  have hb : b ∈ all := List.mem_of_find?_eq_some h
  simp only [all, List.mem_append, or_assoc] at hb
  rcases hb with hb | hb | hb | hb
  · exact colorFunctions_staysWithin hV b hb
  · exact listFunctions_staysWithin hV b hb
  · exact numberFunctions_staysWithin hV b hb
  · exact textFunctions_staysWithin hV b hb

end Builtin

/-- Arguments of a kind, bound to parameters with defaults of the kind. -/
theorem Signature.bind_have {V : Value → Prop} (hV : Value.Kind V) {s : Signature}
    (hs : s.DefaultsAre V) {callee : String} {arguments : List (Argument Value)}
    {bound : BoundArguments Value} (ha : ∀ a ∈ arguments, V a.value)
    (h : s.bind callee arguments = .ok bound) : bound.Have V := by
  obtain ⟨hgiven, hrest⟩ := bind_holds ha h
  have hdefaults := bind_defaults hs h
  refine ⟨fun name => ?_, hrest⟩
  unfold BoundArguments.value
  split
  next v hget => exact hgiven _ (Entries.mem_of_get? hget)
  next v hget => exact hdefaults _ (Entries.mem_of_get? hget)
  · exact hV.null

end Scss
