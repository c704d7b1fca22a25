import Scss.Context

/-!
# What a computation leaves behind

A `Compile` answers a result or a failure, and the context it leaves counts in either case. Both are
read off by `outcome`, with one law for each way in which computations are built.

What steps done one after another keep (`Steps`) holds of all that is built from them. Most of what
holds of a compile is a relation between the context it began in and the one it left: `Leaves R` says
so of one computation. If `R` is reflexive and transitive, it passes from the steps to the whole,
whichever step fails.
-/

namespace Scss.Context

/-! ## Contexts that are entered -/

variable {c d : Context}

/-- A call is entered if the guard allows it, and then only the depth changes. -/
theorem of_enterCall {name : String} {position : Position}
    (h : c.enterCall name position = .ok d) :
    c.callDepth < maxCallDepth ∧ d = { c with callDepth := c.callDepth + 1 } := by
  unfold enterCall at h
  split at h
  · cases h
  next hdepth => exact ⟨Nat.lt_of_not_le hdepth, (Except.ok.inj h).symm⟩

/-- A stylesheet is entered if the guard allows it, and then it is on top of the stack. -/
theorem of_enterImport {uri base : String} (h : c.enterImport uri base = .ok d) :
    c.imports.length ≤ c.maxImportDepth ∧
      d = { c with imports := ⟨uri, base⟩ :: c.imports, importCount := c.importCount + 1 } := by
  unfold enterImport at h
  split at h
  · cases h
  next hdepth =>
    split at h
    · cases h
    · exact ⟨Nat.le_of_not_lt hdepth, (Except.ok.inj h).symm⟩

end Scss.Context

namespace Scss.Compile

variable {α β : Type}

/-- What a computation answers in a context, and the context it leaves. -/
def outcome (m : Compile α) (c : Context) : Except Failure α × Context := m.run.run c

/-! ## One law for each way to build a computation -/

@[simp] theorem outcome_pure (a : α) (c : Context) :
    (pure a : Compile α).outcome c = (.ok a, c) := rfl

@[simp] theorem outcome_throw (f : Failure) (c : Context) :
    (throw f : Compile α).outcome c = (.error f, c) := rfl

@[simp] theorem outcome_get (c : Context) : (get : Compile Context).outcome c = (.ok c, c) := rfl

@[simp] theorem outcome_modify (change : Context → Context) (c : Context) :
    (modify change : Compile Unit).outcome c = (.ok (), change c) := rfl

/-- One computation behind another: a failure ends the run, in the context where it happened. -/
theorem outcome_bind (m : Compile α) (f : α → Compile β) (c : Context) :
    (m >>= f).outcome c = match m.outcome c with
      | (.ok a, c') => (f a).outcome c'
      | (.error failure, c') => (.error failure, c') := by
  show outcome (ExceptT.bind m f) c = _
  simp only [outcome, ExceptT.bind, ExceptT.run, ExceptT.mk, StateT.run, bind, StateT.bind]
  cases m c with
  | mk r c' => cases r <;> rfl

/-- If the first of two steps gives a result, the second goes on from there. -/
theorem outcome_bind_ok {m : Compile α} {f : α → Compile β} {c c' : Context} {a : α}
    (h : m.outcome c = (.ok a, c')) : (m >>= f).outcome c = (f a).outcome c' := by
  rw [outcome_bind, h]

/-- If the first of two steps fails, that is all. -/
theorem outcome_bind_error {m : Compile α} {f : α → Compile β} {c c' : Context} {failure : Failure}
    (h : m.outcome c = (.error failure, c')) : (m >>= f).outcome c = (.error failure, c') := by
  rw [outcome_bind, h]

/-- A result of two steps comes from a result of the first. -/
theorem bind_eq_ok {m : Compile α} {f : α → Compile β} {c c' : Context} {b : β}
    (h : (m >>= f).outcome c = (.ok b, c')) :
    ∃ a c₁, m.outcome c = (.ok a, c₁) ∧ (f a).outcome c₁ = (.ok b, c') := by
  rw [outcome_bind] at h
  match hm : m.outcome c with
  | (.ok a, c₁) => rw [hm] at h; exact ⟨a, c₁, rfl, h⟩
  | (.error failure, c₁) => rw [hm] at h; simp at h

@[simp] theorem outcome_get_bind (f : Context → Compile β) (c : Context) :
    (get >>= f : Compile β).outcome c = (f c).outcome c := rfl

@[simp] theorem outcome_scopes_bind (f : Scopes → Compile β) (c : Context) :
    (scopes >>= f : Compile β).outcome c = (f c.scopes).outcome c := rfl

@[simp] theorem outcome_modifyScopes (change : Scopes → Scopes) (c : Context) :
    (modifyScopes change).outcome c = (.ok (), { c with scopes := change c.scopes }) := rfl

/-- The context in a scope of its own. -/
def entered (c : Context) : Context := { c with scopes := c.scopes.enter }

/-- The context after its innermost scope. -/
def left (c : Context) : Context := { c with scopes := c.scopes.leave }

/-- The frame is left whether the body fails or not. -/
theorem outcome_inScope (body : Compile α) (c : Context) :
    (inScope body).outcome c = ((body.outcome (entered c)).1, left (body.outcome (entered c)).2) :=
  rfl

/-- The context in a scope that is made the scope of a rule. -/
def enteredRule (parent : ParentBlock) (c : Context) : Context :=
  { c with scopes := c.scopes.enter.setParent parent }

theorem outcome_inRule (parent : ParentBlock) (body : Compile α) (c : Context) :
    (inScope do modifyScopes (·.setParent parent); body).outcome c =
      ((body.outcome (enteredRule parent c)).1, left (body.outcome (enteredRule parent c)).2) :=
  rfl

/-- A call runs in the context one call deeper, if there is one. -/
theorem outcome_calling (name : String) (position : Position) (body : Compile α) (c : Context) :
    (calling name position body).outcome c = match c.enterCall name position with
      | .error failure => (.error failure, c)
      | .ok entered => ((body.outcome entered).1, (body.outcome entered).2.exitCall) := by
  rw [calling, outcome_get_bind]
  cases c.enterCall name position <;> rfl

/-- The block is put back whether the body fails or not. -/
theorem outcome_settingAside (block : Option ContentBlock) (body : Compile α) (c : Context) :
    (settingAside block body).outcome c =
      ((body.outcome c.popContent).1, (body.outcome c.popContent).2.pushContent block) := rfl

/-! ## What every step keeps, the whole keeps -/

/-- A property that steps done one after another keep. -/
structure Steps (N : ∀ {α : Type}, Compile α → Prop) : Prop where
  pure : ∀ {α : Type} (a : α), N (pure a)
  throw : ∀ {α : Type} (failure : Failure), N (throw failure : Compile α)
  bind : ∀ {α β : Type} {m : Compile α} {f : α → Compile β}, N m → (∀ a, N (f a)) → N (m >>= f)

namespace Steps

variable {N : ∀ {α : Type}, Compile α → Prop}

protected theorem ite (_ : Steps N) {p : Prop} [Decidable p] {m m' : Compile α} (h : N m)
    (h' : N m') : N (if p then m else m') := by
  split
  · exact h
  · exact h'

variable (hN : Steps N)
include hN

theorem fail (position : Position) (fault : EvaluationFault) :
    N (Compile.fail position fault : Compile α) := hN.throw _

theorem ofFault (position : Position) (r : Except EvaluationFault α) :
    N (Compile.ofFault position r) := by
  cases r with
  | ok a => exact hN.pure a
  | error fault => exact hN.fail position fault

/-- A computation that goes on from a result only has to be looked at for that result. -/
theorem ofFault_bind (position : Position) {r : Except EvaluationFault α} {f : α → Compile β}
    (h : ∀ a, r = .ok a → N (f a)) : N (Compile.ofFault position r >>= f) := by
  cases r with
  | ok a => exact h a rfl
  | error fault => exact hN.fail position fault

protected theorem map {m : Compile α} (f : α → β) (hm : N m) : N (f <$> m) := by
  rw [map_eq_pure_bind]
  exact hN.bind hm fun a => hN.pure (f a)

theorem mapM {γ : Type} {f : γ → Compile β} {xs : List γ} (h : ∀ x ∈ xs, N (f x)) :
    N (xs.mapM f) := by
  induction xs with
  | nil => exact hN.pure []
  | cons x xs ih =>
      rw [List.mapM_cons]
      refine hN.bind (h x List.mem_cons_self) fun y => ?_
      refine hN.bind (ih fun z hz => h z (List.mem_cons_of_mem x hz)) fun ys => ?_
      exact hN.pure (y :: ys)

theorem forM {γ : Type} {f : γ → Compile Unit} {xs : List γ} (h : ∀ x ∈ xs, N (f x)) :
    N (xs.forM f) := by
  induction xs with
  | nil => exact hN.pure ()
  | cons x xs ih =>
      show N (f x >>= fun _ => xs.forM f)
      refine hN.bind (h x List.mem_cons_self) fun _ => ?_
      exact ih fun z hz => h z (List.mem_cons_of_mem x hz)

end Steps

/-- Whatever context the computation runs in, the one it leaves is related to it, also after a
failure. -/
def Leaves (R : Context → Context → Prop) (m : Compile α) : Prop := ∀ c, R c (m.outcome c).2

/-- What a reflexive and transitive relation says of a computation is kept by steps done one after
another. -/
theorem Leaves.steps {R : Context → Context → Prop} (hrefl : ∀ c, R c c)
    (htrans : ∀ c d e, R c d → R d e → R c e) : Steps (Leaves R) where
  pure _ := hrefl
  throw _ := hrefl
  bind {α β m f} hm hf c := by
    have h := hm c
    match hmc : m.outcome c with
    | (.ok a, c') =>
        rw [outcome_bind_ok hmc]
        rw [hmc] at h
        exact htrans c c' _ h (hf a c')
    | (.error failure, c') =>
        rw [outcome_bind_error hmc]
        rw [hmc] at h
        exact h

/-- A relation that evaluation can keep: from any context to itself, step by step, along the changes
that evaluation makes to variables, and from the inside of a scope or a call to the outside. -/
structure Scoping (R : Context → Context → Prop) : Prop where
  refl : ∀ c, R c c
  trans : ∀ {c d e}, R c d → R d e → R c e
  define : ∀ c name value, R c { c with scopes := c.scopes.define name value }
  assign : ∀ c name value, R c { c with scopes := c.scopes.assign name value }
  setGlobal : ∀ c name value, R c { c with scopes := c.scopes.setGlobal name value }
  warn : ∀ c position message, R c (Context.warn c position message)
  inScope : ∀ {c d}, R (entered c) d → R c (left d)
  calling : ∀ {c d e name position}, c.enterCall name position = .ok d → R d e → R c e.exitCall

namespace Leaves

variable {R : Context → Context → Prop}

protected theorem ite {p : Prop} [Decidable p] {m m' : Compile α} (h : Leaves R m)
    (h' : Leaves R m') : Leaves R (if p then m else m') := by
  split
  · exact h
  · exact h'

variable (hR : Scoping R)
include hR

protected theorem bind {m : Compile α} {f : α → Compile β} (hm : Leaves R m)
    (hf : ∀ a, Leaves R (f a)) : Leaves R (m >>= f) :=
  (Leaves.steps hR.refl fun _ _ _ => hR.trans).bind hm hf

protected theorem pure (a : α) : Leaves R (pure a) := fun c => hR.refl c

protected theorem get : Leaves R (get : Compile Context) := fun c => hR.refl c

theorem scopes : Leaves R Compile.scopes := fun c => hR.refl c

theorem define (name : String) (value : Value) : Leaves R (modifyScopes (·.define name value)) :=
  fun c => hR.define c name value

theorem warn (position : Position) (message : String) : Leaves R (Compile.warn position message) :=
  fun c => hR.warn c position message

theorem inScope {body : Compile α} (h : Leaves R body) : Leaves R (Compile.inScope body) :=
  fun c => hR.inScope (h (entered c))

/-- A call that is refused changes nothing, and around any other the calls are counted up and down. -/
theorem calling (name : String) (position : Position) {body : Compile α} (h : Leaves R body) :
    Leaves R (Compile.calling name position body) := by
  intro c
  rw [outcome_calling]
  cases henter : c.enterCall name position with
  | error failure => exact hR.refl c
  | ok entered => exact hR.calling henter (h entered)

end Leaves

theorem Scoping.steps {R : Context → Context → Prop} (hR : Scoping R) : Steps (Leaves R) :=
  Leaves.steps hR.refl fun _ _ _ => hR.trans

end Scss.Compile
