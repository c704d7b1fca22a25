import Scss.Proofs.ContentScope

/-!
# Splats

An argument with a splat stands for the items of its value. Mixins, functions of a stylesheet and most
built-in functions are given the values of their arguments, and as these are computed, each splat is
replaced by its items. So a call with a splat does what the call does in which the items are written
out, whatever is in front of the splat and behind it.

`if` is given its arguments before they have values, when it is not known what a splat stands for. It
takes no notice of the mark: `$list...` is one argument to it, like `$list`.
-/

namespace Scss

/-- A variable is bound to a list, and others are bound to the items of it. -/
def Scopes.BindsItems (s : Scopes) (list : String) (names : List String) : Prop :=
  ∃ v, s.valueOf? list = some v ∧ names.map s.valueOf? = v.items.map some

/-- The argument `$list...`. -/
def splatOf (list : String) : Argument Value := ⟨none, .variable list, true⟩

/-- Variables as arguments, one after another. -/
def variablesOf (names : List String) : List (Argument Value) :=
  names.map fun name => .positional (.variable name)

/-- The argument without its splat. -/
def Argument.unmarked {α : Type} (a : Argument α) : Argument α := { a with splat := false }

/-! ## Binding takes no notice of splats -/

namespace Signature

variable {α : Type}

theorem collect_unmarked (s : Signature) (passed : Nat) (arguments : List (Argument α)) :
    ∀ (free : List Parameter) (named : Bool) (given : Entries α),
      s.collect passed free named given (arguments.map Argument.unmarked) =
        s.collect passed free named given arguments := by
  induction arguments with
  | nil => exact fun _ _ _ => rfl
  | cons a rest ih =>
      intro free named given
      obtain ⟨name, value, splat⟩ := a
      cases name with
      | some name => simp only [List.map_cons, Argument.unmarked, collect, ih]
      | none => cases free <;> simp only [List.map_cons, Argument.unmarked, collect, ih]

theorem bind_unmarked (s : Signature) (callee : String) (arguments : List (Argument α)) :
    s.bind callee (arguments.map Argument.unmarked) = s.bind callee arguments := by
  simp only [bind, collect_unmarked, List.length_map]

end Signature

namespace Builtin

/-- Whether the result is computed from the values of the arguments. -/
def computes (b : Builtin) : Bool :=
  match b.body with
  | .compute _ => true
  | .choose => false

/-- Every built-in function but `if` computes its result from the values of its arguments. -/
theorem exists_compute_of_find? {name : String} {b : Builtin} (h : find? name = some b)
    (hname : name ≠ "if") : ∃ f, b.body = .compute f := by
  have hall : ∀ b ∈ all, b.name ≠ "if" → b.computes = true := by decide +kernel
  have hb : b.name = name := by simpa using List.find?_some h
  have hcomputes := hall b (List.mem_of_find?_eq_some h) (hb ▸ hname)
  unfold computes at hcomputes
  split at hcomputes
  next f hf => exact ⟨f, hf⟩
  · cases hcomputes

end Builtin

namespace Evaluation

open Compile

/-! ## The values of arguments -/

theorem runArguments_append (front back : List (Argument Suspended)) :
    runArguments (front ++ back) = (do
      let passed ← runArguments front
      return passed ++ (← runArguments back)) := by
  induction front with
  | nil => simp only [List.nil_append, runArguments, pure_bind, bind_pure]
  | cons a rest ih =>
      simp only [List.cons_append, runArguments, ih, bind_assoc, pure_bind, List.append_assoc]

variable {call : Caller} {position : Position} {c d : Context} {list : String} {names : List String}

/-- The arguments are evaluated from left to right. -/
theorem runArguments_suspend_append (front back : List (Argument Value)) :
    runArguments (suspendArguments call position true (front ++ back)) = (do
      let passed ← runArguments (suspendArguments call position true front)
      return passed ++ (← runArguments (suspendArguments call position true back))) := by
  rw [suspendArguments_eq_map, List.map_append, runArguments_append, ← suspendArguments_eq_map,
    ← suspendArguments_eq_map]

theorem outcome_variable {name : String} {v : Value} (h : d.scopes.valueOf? name = some v)
    (arithmetic : Bool) :
    (evaluate call position arithmetic (.variable name)).outcome d = (.ok v, d) := by
  rw [evaluate, outcome_scopes_bind, h]
  rfl

/-- A splat passes the items of its value. -/
theorem outcome_splatOf {v : Value} (h : d.scopes.valueOf? list = some v) :
    (runArguments (suspendArguments call position true [splatOf list])).outcome d =
      (.ok (v.items.map .positional), d) := by
  rw [splatOf, suspendArguments, suspendArguments, runArguments,
    outcome_bind_ok (outcome_variable h true)]
  simp [runArguments]

/-- An argument in front of others. -/
theorem outcome_positional {c₁ : Context} {source v : Value} {rest passed : List (Argument Value)}
    (hsource : (evaluate call position true source).outcome c = (.ok v, c₁))
    (hrest : (runArguments (suspendArguments call position true rest)).outcome c₁ =
      (.ok passed, d)) :
    (runArguments (suspendArguments call position true (.positional source :: rest))).outcome c =
      (.ok (.positional v :: passed), d) := by
  rw [Argument.positional, suspendArguments, runArguments, outcome_bind_ok hsource,
    outcome_bind_ok hrest]
  rfl

/-- Variables pass their values. -/
theorem outcome_variables {names : List String} :
    ∀ {values : List Value}, names.map d.scopes.valueOf? = values.map some →
      (runArguments (suspendArguments call position true (variablesOf names))).outcome d =
        (.ok (values.map .positional), d) := by
  induction names with
  | nil =>
      intro values h
      obtain rfl : values = [] := by simpa using h.symm
      rfl
  | cons name rest ih =>
      intro values h
      cases values with
      | nil => cases h
      | cons v values =>
          obtain ⟨hv, hrest⟩ := List.cons.inj h
          exact outcome_positional (outcome_variable hv true) (ih hrest)

/-- Behind some arguments, a splat passes what the items of it pass. -/
theorem runArguments_written_out {leading : List (Argument Value)}
    (h : ∀ passed d, (runArguments (suspendArguments call position true leading)).outcome c =
      (.ok passed, d) → d.scopes.BindsItems list names) (trailing : List (Argument Value)) :
    (runArguments (suspendArguments call position true
        (leading ++ splatOf list :: trailing))).outcome c =
      (runArguments (suspendArguments call position true
        (leading ++ variablesOf names ++ trailing))).outcome c := by
  rw [List.append_assoc, ← List.singleton_append, runArguments_suspend_append leading,
    runArguments_suspend_append leading]
  refine outcome_bind_congr rfl fun passed d hleading => ?_
  obtain ⟨v, hlist, hnames⟩ := h passed d hleading
  refine outcome_bind_congr ?_ fun _ _ _ => rfl
  rw [runArguments_suspend_append [splatOf list], runArguments_suspend_append (variablesOf names),
    outcome_bind_ok (outcome_splatOf hlist), outcome_bind_ok (outcome_variables hnames)]

/-! ## Calls -/

/-- A function that is given the values of its arguments: one of the stylesheet, or a built-in one other
than `if`. -/
def TakesValues (s : Scopes) (function : String) : Prop :=
  (s.function? function).isSome ∨ (Builtin.find? function).isSome ∧ function ≠ "if"

variable {arguments arguments' : List (Argument Value)}

/-- A function that is given values does the same for arguments with the same values. -/
theorem outcome_call_congr {function : String} (hfunction : TakesValues c.scopes function)
    (h : (runArguments (suspendArguments call position true arguments)).outcome c =
      (runArguments (suspendArguments call position true arguments')).outcome c)
    (arithmetic : Bool) :
    (evaluate call position arithmetic (.call function arguments)).outcome c =
      (evaluate call position arithmetic (.call function arguments')).outcome c := by
  rw [evaluate, evaluate, runCall, runCall, outcome_scopes_bind, outcome_scopes_bind]
  cases hdefined : c.scopes.function? function with
  | some definition => exact outcome_bind_congr h fun _ _ _ => rfl
  | none =>
      rw [TakesValues, hdefined] at hfunction
      obtain hsome | ⟨hfound, hname⟩ := hfunction
      · cases hsome
      obtain ⟨b, hb⟩ := Option.isSome_iff_exists.mp hfound
      obtain ⟨f, hf⟩ := Builtin.exists_compute_of_find? hb hname
      simp only [hb, runBuiltin, hf]
      exact outcome_bind_congr h fun _ _ _ => rfl

/-- A mixin does the same for arguments with the same values. -/
theorem outcome_include_congr {s : Flatten.Site}
    (h : (runArguments (suspendArguments s.caller position true arguments)).outcome c =
      (runArguments (suspendArguments s.caller position true arguments')).outcome c)
    (mixin : String) (content : Option (List Node)) :
    (Flatten.flattenStatement s position (.includeMixin mixin arguments content)).outcome c =
      (Flatten.flattenStatement s position (.includeMixin mixin arguments' content)).outcome c := by
  rw [Flatten.flattenStatement, Flatten.flattenStatement, Flatten.expandMixin, Flatten.expandMixin,
    outcome_scopes_bind, outcome_scopes_bind]
  cases c.scopes.mixin? mixin with
  | none => rfl
  | some definition => exact outcome_bind_congr h fun _ _ _ => rfl

/-- `if` binds its arguments before they are evaluated, and takes no notice of splats. -/
theorem outcome_if_unmarked (hif : c.scopes.function? "if" = none) (arithmetic : Bool) :
    (evaluate call position arithmetic (.call "if" (arguments.map Argument.unmarked))).outcome c =
      (evaluate call position arithmetic (.call "if" arguments)).outcome c := by
  have hb : Builtin.find? "if" =
      some ⟨"if", Builtin.required ["condition", "if-true", "if-false"], .choose⟩ := by cbv
  have hmarks : ((suspendArguments call position true (arguments.map Argument.unmarked)).map
      fun a => (⟨a.name, a.value.run, a.splat⟩ : Argument (Compile Value))) =
        ((suspendArguments call position true arguments).map
          fun a => (⟨a.name, a.value.run, a.splat⟩ : Argument (Compile Value))).map
            Argument.unmarked := by
    simp only [suspendArguments_eq_map, List.map_map]
    rfl
  rw [evaluate, evaluate, runCall, runCall, outcome_scopes_bind, outcome_scopes_bind, hif]
  simp only [hb, runBuiltin, hmarks, Signature.bind_unmarked]

/-- **A splat is its items written out.** Let some variables be bound to the items of a list, whenever
the arguments in front are evaluated. Then the list with a splat and the variables are the same to every
mixin, and to every function of the stylesheet and built-in function other than `if`. To `if`, splats
are arguments like others. -/
theorem splat_written_out {s : Flatten.Site} {leading : List (Argument Value)}
    (h : ∀ passed d, (runArguments (suspendArguments s.caller position true leading)).outcome c =
      (.ok passed, d) → d.scopes.BindsItems list names) (trailing : List (Argument Value)) :
    let splatted := leading ++ splatOf list :: trailing
    let writtenOut := leading ++ variablesOf names ++ trailing
    (∀ mixin content,
        (Flatten.flattenStatement s position (.includeMixin mixin splatted content)).outcome c =
          (Flatten.flattenStatement s position (.includeMixin mixin writtenOut content)).outcome c) ∧
      (∀ function arithmetic, TakesValues c.scopes function →
        (evaluate s.caller position arithmetic (.call function splatted)).outcome c =
          (evaluate s.caller position arithmetic (.call function writtenOut)).outcome c) ∧
      (c.scopes.function? "if" = none → ∀ arithmetic,
        (evaluate s.caller position arithmetic (.call "if" splatted)).outcome c =
          (evaluate s.caller position arithmetic
            (.call "if" (splatted.map Argument.unmarked))).outcome c) := by
  have hpassed := runArguments_written_out h trailing
  exact ⟨outcome_include_congr hpassed, fun _ arithmetic hfunction =>
    outcome_call_congr hfunction hpassed arithmetic, fun hif arithmetic =>
    (outcome_if_unmarked hif arithmetic).symm⟩

/-- A context with variables at the root. -/
def withVariables (values : Entries Value) : Context :=
  { Context.isolated with
    scopes := values.foldl (fun s (name, value) => s.setGlobal name value) .initial }

/-- `$behind: b, comma`, and its items as `$item` and `$separator`. -/
def joinBehind : Context :=
  withVariables [("behind", .list [.word "b", .word "comma"] .comma), ("item", .word "b"),
    ("separator", .word "comma")]

theorem join_splat_written_out :
    (∀ passed d, (runArguments (suspendArguments (Flatten.siteOf 0 0 0).caller ⟨"", 1, 1⟩ true
      [.positional (.word "a")])).outcome joinBehind = (.ok passed, d) →
        d.scopes.BindsItems "behind" ["item", "separator"]) ∧
    TakesValues joinBehind.scopes "join" ∧
    (evaluate (Flatten.siteOf 0 0 0).caller ⟨"", 1, 1⟩ true
      (.call "join" ([.positional (.word "a")] ++ [splatOf "behind"]))).outcome joinBehind =
        (.ok (.list [.word "a", .word "b"] .comma), joinBehind) := by
  have hbinds : ∀ passed d, (runArguments (suspendArguments (Flatten.siteOf 0 0 0).caller ⟨"", 1, 1⟩
      true [.positional (.word "a")])).outcome joinBehind = (.ok passed, d) →
        d.scopes.BindsItems "behind" ["item", "separator"] := by
    rintro passed d hd
    obtain ⟨-, rfl⟩ := Prod.mk.inj hd
    exact ⟨.list [.word "b", .word "comma"] .comma, by cbv, by cbv⟩
  have hjoin : TakesValues joinBehind.scopes "join" := .inr ⟨by cbv, by decide⟩
  refine ⟨hbinds, hjoin, ?_⟩
  obtain ⟨-, hfunctions, -⟩ := splat_written_out hbinds []
  rw [hfunctions "join" true hjoin]
  cbv

/-- `$choice: true, yes, no`, and its items as `$condition`, `$first` and `$second`. -/
def choice : Context :=
  withVariables [("choice", .list [.word "true", .word "yes", .word "no"] .comma),
    ("condition", .word "true"), ("first", .word "yes"), ("second", .word "no")]

/-- `if($condition, $first, $second)` is `yes`. With a splat, `$choice` is the condition and there is
nothing to choose from. -/
theorem splatInIf_not_written_out :
    choice.scopes.BindsItems "choice" ["condition", "first", "second"] ∧
      (evaluate (Flatten.siteOf 0 0 0).caller ⟨"", 1, 1⟩ true
        (.call "if" (variablesOf ["condition", "first", "second"]))).outcome choice =
          (.ok (.word "yes"), choice) ∧
      (evaluate (Flatten.siteOf 0 0 0).caller ⟨"", 1, 1⟩ true
        (.call "if" [splatOf "choice"])).outcome choice =
          (.error (.compile ⟨"", 1, 1⟩ (.binding "if" (.missing "if-true"))), choice) := by
  refine ⟨⟨.list [.word "true", .word "yes", .word "no"] .comma, by cbv, by cbv⟩, by cbv, by cbv⟩

end Evaluation

end Scss
