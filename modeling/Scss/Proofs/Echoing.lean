import Scss.Proofs.Outcome
import Scss.Proofs.RespelledTrees

/-!
# A computation that echoes another

Two computations are run next to each other, in contexts that are related. The second echoes the first
if it succeeds whenever the first does, with the same result, and leaves a context that is related to
the one the first leaves (`Compile.Echoes`). Nothing is asked of it where the first fails; so the
relation goes one way, and a function that can only fail may stand for the absence of one.

The contexts are those of two spellings of a tree (`Context.Matches`). What is bound to variables is
equal in both of them. What is known of mixins, functions and content blocks is spelled in two ways,
and so it is for all code that is still to be run.
-/

namespace Scss

open Text (nameKey)

namespace Compile

variable {α β : Type}

/-- A computation that never gives a result. -/
def Fails (m : Compile α) : Prop := ∀ c a d, m.outcome c ≠ (.ok a, d)

/-- A step that is followed by a failure in any case. -/
theorem Fails.bind {m : Compile α} {f : α → Compile β} (h : ∀ a, Fails (f a)) : Fails (m >>= f) := by
  intro c b d hout
  obtain ⟨a, e, -, hf⟩ := bind_eq_ok hout
  exact h a e b d hf

theorem Fails.throw (failure : Failure) : Fails (throw failure : Compile α) :=
  fun _ _ _ h => nomatch h

theorem Fails.fail (position : Position) (fault : EvaluationFault) :
    Fails (Compile.fail position fault : Compile α) := Fails.throw _

/-- Whenever the first of two computations succeeds in one of two related contexts, the second does in
the other, with a related result, and the contexts they leave are related. -/
def Echoes (I : Context → Context → Prop) (Q : α → β → Prop) (m : Compile α) (m' : Compile β) : Prop :=
  ∀ c c' a d, I c c' → m.outcome c = (.ok a, d) →
    ∃ a' d', m'.outcome c' = (.ok a', d') ∧ I d d' ∧ Q a a'

namespace Echoes

variable {I : Context → Context → Prop} {γ δ : Type} {Q : α → β → Prop} {P : γ → δ → Prop}
  {m : Compile α} {m' : Compile β}

protected theorem pure {a : α} {b : β} (h : Q a b) : Echoes I Q (pure a) (pure b) := by
  intro c c' a' d hc hout
  cases hout
  exact ⟨b, c', rfl, hc, h⟩

/-- Everything echoes a computation that always fails. -/
theorem of_fails (h : m.Fails) : Echoes I Q m m' := fun c _ a d _ hout => absurd hout (h c a d)

/-- Nothing is asked of what echoes a failure. -/
theorem fail {position : Position} {fault : EvaluationFault} :
    Echoes I Q (Compile.fail position fault) m' := of_fails (Fails.fail position fault)

protected theorem throw {failure : Failure} : Echoes I Q (throw failure) m' :=
  of_fails (Fails.throw failure)

protected theorem bind {f : α → Compile γ} {f' : β → Compile δ} (hm : Echoes I Q m m')
    (hf : ∀ a b, Q a b → Echoes I P (f a) (f' b)) : Echoes I P (m >>= f) (m' >>= f') := by
  intro c c' a d hc hout
  obtain ⟨b, e, hme, hfe⟩ := bind_eq_ok hout
  obtain ⟨b', e', hme', he, hb⟩ := hm _ _ _ _ hc hme
  rw [outcome_bind_ok hme']
  exact hf b b' hb _ _ _ _ he hfe

/-- A step with the same result for both. -/
theorem step {n n' : Compile α} {f : α → Compile γ} {f' : α → Compile δ} (hm : Echoes I Eq n n')
    (hf : ∀ a, Echoes I P (f a) (f' a)) : Echoes I P (n >>= f) (n' >>= f') :=
  Echoes.bind hm fun a _ h => h ▸ hf a

protected theorem ite {p : Prop} [Decidable p] {n : Compile α} {n' : Compile β}
    (h : Echoes I Q m m') (h' : Echoes I Q n n') :
    Echoes I Q (if p then m else n) (if p then m' else n') := by
  split
  · exact h
  · exact h'

/-- Computations that go on from the contexts they are in. -/
theorem reading {f : Context → Compile α} {f' : Context → Compile β}
    (h : ∀ c c', I c c' → Echoes I Q (f c) (f' c')) : Echoes I Q (get >>= f) (get >>= f') :=
  fun c c' _ _ hc hout => h c c' hc _ _ _ _ hc hout

/-- A step that looks at the scopes sees related ones. -/
theorem readingScopes {f : Scopes → Compile α} {f' : Scopes → Compile β}
    (h : ∀ c c', I c c' → Echoes I Q (f c.scopes) (f' c'.scopes)) :
    Echoes I Q (scopes >>= f) (scopes >>= f') :=
  fun c c' _ _ hc hout => h c c' hc _ _ _ _ hc hout

/-- A change that keeps the contexts related. -/
protected theorem modify {change change' : Context → Context}
    (h : ∀ {c c'}, I c c' → I (change c) (change' c')) :
    Echoes I Eq (modify change) (modify change') := by
  intro c c' a d hc hout
  cases hout
  exact ⟨(), _, rfl, h hc, rfl⟩

/-- Results that are computed without the context. -/
theorem ofFault {position : Position} {r : Except EvaluationFault α} {r' : Except EvaluationFault β}
    (h : ∀ a, r = .ok a → ∃ b, r' = .ok b ∧ Q a b) :
    Echoes I Q (Compile.ofFault position r) (Compile.ofFault position r') := by
  cases r with
  | error fault => exact fail
  | ok a =>
      obtain ⟨b, rfl, hb⟩ := h a rfl
      exact Echoes.pure hb

theorem ofFault_refl (position : Position) (r : Except EvaluationFault α) :
    Echoes I Eq (Compile.ofFault position r) (Compile.ofFault position r) :=
  ofFault fun a h => ⟨a, h, rfl⟩

/-- What is done to each of two lists of related pieces. -/
theorem mapM {ε ζ : Type} {R : ε → ζ → Prop} {xs : List ε} {ys : List ζ} {f : ε → Compile γ}
    {f' : ζ → Compile δ} (hxs : List.Forall₂ R xs ys) (h : ∀ x y, R x y → Echoes I P (f x) (f' y)) :
    Echoes I (List.Forall₂ P) (xs.mapM f) (ys.mapM f') := by
  induction hxs with
  | nil => exact Echoes.pure .nil
  | cons hx _ ih =>
      rw [List.mapM_cons, List.mapM_cons]
      refine Echoes.bind (h _ _ hx) fun a b hab => ?_
      exact Echoes.bind ih fun as bs has => Echoes.pure (.cons hab has)

/-- Steps done for related items, one after another. -/
theorem forM {ε ζ : Type} {R : ε → ζ → Prop} {xs : List ε} {ys : List ζ} {f : ε → Compile Unit}
    {f' : ζ → Compile Unit} (hxs : List.Forall₂ R xs ys)
    (h : ∀ x y, R x y → Echoes I Eq (f x) (f' y)) : Echoes I Eq (xs.forM f) (ys.forM f') := by
  induction hxs with
  | nil => exact Echoes.pure rfl
  | @cons x y xs ys hx _ ih =>
      show Echoes I Eq (f x >>= fun _ => xs.forM f) (f' y >>= fun _ => ys.forM f')
      exact Echoes.step (h x y hx) fun _ => ih

/-- Computations run elsewhere: in changed contexts, and with a change at the end. -/
theorem within {J : Context → Context → Prop} {w : Compile α} {w' : Compile β}
    (inside inside' : Context → Context) (outside outside' : Context → Context → Context)
    (hw : ∀ c, w.outcome c = ((m.outcome (inside c)).1, outside c (m.outcome (inside c)).2))
    (hw' : ∀ c, w'.outcome c = ((m'.outcome (inside' c)).1, outside' c (m'.outcome (inside' c)).2))
    (h : Echoes J Q m m') (hinside : ∀ {c c'}, I c c' → J (inside c) (inside' c'))
    (houtside : ∀ {c c' d d'}, I c c' → J d d' → I (outside c d) (outside' c' d')) :
    Echoes I Q w w' := by
  intro c c' a d hc hout
  rw [hw] at hout
  match hm : m.outcome (inside c) with
  | (.error failure, e) => rw [hm] at hout; cases hout
  | (.ok b, e) =>
      rw [hm] at hout
      cases hout
      obtain ⟨b', e', hm', he, hb⟩ := h _ _ _ _ (hinside hc) hm
      exact ⟨b', outside' c' e', by rw [hw', hm'], houtside hc he, hb⟩

end Echoes

end Compile

/-! ## Two spellings of what is known -/

/-- Two spellings of a mixin or a function. -/
structure Definition.Matches (functions : List String) (d d' : Definition) : Prop where
  signature : d.signature.Matches functions d'.signature
  body : NodesMatch functions d.body d'.body

/-- Two spellings of a content block. -/
structure ContentBlock.Matches (functions : List String) (b b' : ContentBlock) : Prop where
  body : NodesMatch functions b.body b'.body
  depth : b'.depth = b.depth

/-- What is found as a function: two spellings of it, nothing, or in one case a function that answers
nothing. -/
def Counterpart (functions : List String) (o o' : Option Definition) : Prop :=
  (∃ d, o = some d ∧ d.body = []) ∨ Option.Rel (Definition.Matches functions) o o'

/-- Two spellings of what is bound in a frame. -/
structure Frame.Matches (functions : List String) (f f' : Frame) : Prop where
  values : f'.values = f.values
  parent : f'.parent = f.parent
  mixins : ∀ key, Option.Rel (Definition.Matches functions) (f.mixins.get? key) (f'.mixins.get? key)
  functions : ∀ key, Counterpart functions (f.functions.get? key) (f'.functions.get? key)

/-- Two spellings of what is bound in all frames. The functions whose arguments are always bound are
found at least in the root frame of one of them. -/
structure Scopes.Matches (functions : List String) (s s' : Scopes) : Prop where
  inner : List.Forall₂ (Frame.Matches functions) s.inner s'.inner
  root : s.root.Matches functions s'.root
  guarded : ∀ f ∈ functions, (s.root.functions.get? (nameKey f)).isSome

/-- Two contexts that differ in the spelling of what is known only. -/
structure Context.Matches (functions : List String) (c c' : Context) : Prop where
  scopes : c.scopes.Matches functions c'.scopes
  contents : List.Forall₂ (Option.Rel (ContentBlock.Matches functions)) c.contents c'.contents
  rest : c' = { c with scopes := c'.scopes, contents := c'.contents }

namespace Frame.Matches

variable {functions : List String} {f f' : Frame}

theorem empty : Frame.empty.Matches functions Frame.empty :=
  ⟨rfl, rfl, fun _ => .none, fun _ => .inr .none⟩

theorem withValues (h : f.Matches functions f') (values : Entries Value) :
    Frame.Matches functions { f with values } { f' with values } :=
  ⟨rfl, h.parent, h.mixins, h.functions⟩

end Frame.Matches

namespace Scopes.Matches

variable {functions : List String} {s s' : Scopes} (h : s.Matches functions s')
include h

theorem frames : List.Forall₂ (Frame.Matches functions) s.frames s'.frames :=
  List.rel_append h.inner (.cons h.root .nil)

/-- Related scopes have as many frames. -/
theorem depth : s'.depth = s.depth := by
  rw [Scopes.depth, Scopes.depth, h.inner.length_eq]

/-! ## Lookups -/

/-- A variable has the same value in both, if it has one, as frames bind keys to equal values. -/
theorem valueOf?_eq {x y : String} (hname : SameName x y) : s'.valueOf? y = s.valueOf? x := by
  have hframes := h.frames
  rw [Scopes.valueOf?, Scopes.valueOf?, ← hname]
  clear h
  generalize s.frames = fs at hframes
  generalize s'.frames = fs' at hframes
  induction hframes with
  | nil => rfl
  | cons hf _ ih => rw [List.findSome?_cons, List.findSome?_cons, ih, hf.values]

theorem parent_eq : s'.parent = s.parent := by
  have hframes := h.frames
  rw [Scopes.parent, Scopes.parent]
  congr 1
  clear h
  generalize s.frames = fs at hframes
  generalize s'.frames = fs' at hframes
  induction hframes with
  | nil => rfl
  | cons hf _ ih => rw [List.findSome?_cons, List.findSome?_cons, ih, hf.parent]

/-- Both find a mixin, in the same frame, or neither does. -/
theorem mixin? {x y : String} (hname : SameName x y) :
    Option.Rel (Definition.Matches functions) (s.mixin? x) (s'.mixin? y) := by
  have hframes := h.frames
  rw [Scopes.mixin?, Scopes.mixin?, ← hname]
  clear h
  generalize s.frames = fs at hframes
  generalize s'.frames = fs' at hframes
  induction hframes with
  | nil => exact .none
  | @cons f f' _ _ hf _ ih =>
      have hfound := hf.mixins (nameKey x)
      rw [List.findSome?_cons, List.findSome?_cons]
      generalize f.mixins.get? (nameKey x) = o at hfound
      generalize f'.mixins.get? (nameKey x) = o' at hfound
      cases hfound with
      | some hd => exact .some hd
      | none => exact ih

/-- Both find a function, or neither does, or the first finds one that only guards a name. -/
theorem function? (x : String) : Counterpart functions (s.function? x) (s'.function? x) := by
  have hframes := h.frames
  rw [Scopes.function?, Scopes.function?]
  clear h
  generalize s.frames = fs at hframes
  generalize s'.frames = fs' at hframes
  induction hframes with
  | nil => exact .inr .none
  | @cons f f' _ _ hf _ ih =>
      have hfound := hf.functions (nameKey x)
      rw [List.findSome?_cons, List.findSome?_cons]
      generalize f.functions.get? (nameKey x) = o at hfound
      generalize f'.functions.get? (nameKey x) = o' at hfound
      obtain ⟨d, rfl, hd⟩ | hfound := hfound
      · exact .inl ⟨d, rfl, hd⟩
      · cases hfound with
        | some hd => exact .inr (.some hd)
        | none => exact ih

omit h in
/-- A function whose arguments are always bound is found. -/
theorem of_function?_eq_none (h : s.Matches functions s') {x : String} (hnone : s.function? x = none) :
    ∀ f ∈ functions, ¬ SameName f x := by
  intro f hf hname
  have hroot := List.findSome?_eq_none_iff.mp hnone s.root (by simp [Scopes.frames])
  have hguarded := h.guarded f hf
  rw [hname, hroot] at hguarded
  cases hguarded

/-! ## Changes -/

theorem enter : s.enter.Matches functions s'.enter :=
  ⟨.cons .empty h.inner, h.root, h.guarded⟩

theorem leave : s.leave.Matches functions s'.leave :=
  ⟨List.forall₂_drop 1 h.inner, h.root, h.guarded⟩

/-- Frames are hidden by their depth, and the same ones are. -/
theorem hideAbove (depth : Nat) :
    (s.hideAbove depth).2.Matches functions (s'.hideAbove depth).2 := by
  rw [Scopes.hideAbove, Scopes.hideAbove, h.depth]
  exact ⟨List.forall₂_drop _ h.inner, h.root, h.guarded⟩

/-- Hidden frames come back in both. -/
theorem restore {t t' : Scopes} (depth : Nat) (ht : t.Matches functions t') :
    (t.restore (s.hideAbove depth).1).Matches functions (t'.restore (s'.hideAbove depth).1) := by
  rw [Scopes.hideAbove, Scopes.hideAbove, h.depth]
  exact ⟨List.rel_append (List.forall₂_take _ h.inner) ht.inner, ht.root, ht.guarded⟩

/-- The innermost frames after a change that takes no function away. -/
theorem modifyCurrent {change change' : Frame → Frame}
    (hchange : ∀ {f f'}, f.Matches functions f' → (change f).Matches functions (change' f'))
    (hkeeps : ∀ f key, (f.functions.get? key).isSome → ((change f).functions.get? key).isSome) :
    (s.modifyCurrent change).Matches functions (s'.modifyCurrent change') := by
  obtain ⟨inner, root⟩ := s
  obtain ⟨inner', root'⟩ := s'
  obtain ⟨hinner, hroot, hguarded⟩ := h
  cases hinner with
  | nil => exact ⟨.nil, hchange hroot, fun f hf => hkeeps _ _ (hguarded f hf)⟩
  | cons hf hrest => exact ⟨.cons (hchange hf) hrest, hroot, hguarded⟩

theorem define {x y : String} (hname : SameName x y) (v : Value) :
    (s.define x v).Matches functions (s'.define y v) := by
  rw [Scopes.define, Scopes.define, ← hname]
  refine h.modifyCurrent (fun hf => ?_) fun _ _ h => h
  rw [hf.values]
  exact hf.withValues _

theorem setGlobal {x y : String} (hname : SameName x y) (v : Value) :
    (s.setGlobal x v).Matches functions (s'.setGlobal y v) := by
  rw [Scopes.setGlobal, Scopes.setGlobal, ← hname, h.root.values]
  exact ⟨h.inner, h.root.withValues _, h.guarded⟩

omit h in
/-- The innermost frame that binds the key is the same one in both. -/
theorem rebind? {fs fs' : List Frame} (key : String) (v : Value)
    (h : List.Forall₂ (Frame.Matches functions) fs fs') :
    Option.Rel (List.Forall₂ (Frame.Matches functions)) (Scopes.rebind? key v fs)
      (Scopes.rebind? key v fs') := by
  induction h with
  | nil => exact .none
  | cons hf hrest ih =>
      rw [Scopes.rebind?, Scopes.rebind?, hf.values]
      split
      · exact .some (.cons (hf.withValues _) hrest)
      · generalize Scopes.rebind? key v _ = o at ih
        generalize Scopes.rebind? key v _ = o' at ih
        cases ih with
        | some h => exact .some (.cons hf h)
        | none => exact .none

/-- An assignment reaches the same frame in both, or makes a variable in the innermost one. -/
theorem assign {x y : String} (hname : SameName x y) (v : Value) :
    (s.assign x v).Matches functions (s'.assign y v) := by
  have hrebound := rebind? (nameKey x) v h.inner
  rw [Scopes.assign, Scopes.assign, ← hname, h.root.values]
  generalize Scopes.rebind? (nameKey x) v s.inner = o at hrebound
  generalize Scopes.rebind? (nameKey x) v s'.inner = o' at hrebound
  cases hrebound with
  | some hinner => exact ⟨hinner, h.root, h.guarded⟩
  | none =>
      dsimp only
      split
      · exact h.setGlobal hname v
      · exact h.define hname v

theorem setParent (parent : ParentBlock) :
    (s.setParent parent).Matches functions (s'.setParent parent) :=
  h.modifyCurrent (fun hf => ⟨hf.values, rfl, hf.mixins, hf.functions⟩) fun _ _ h => h

theorem defineMixin {d d' : Definition} (hname : SameName d.name d'.name)
    (hd : d.Matches functions d') : (s.defineMixin d).Matches functions (s'.defineMixin d') := by
  refine h.modifyCurrent (fun hf => ⟨hf.values, hf.parent, fun key => ?_, hf.functions⟩)
    fun _ _ h => h
  rw [← hname, Entries.get?_put, Entries.get?_put]
  split
  · exact .some hd
  · exact hf.mixins key

/-- A function that is defined hides a guard of its name, or takes its place in the root frame. -/
theorem defineFunction {d d' : Definition} (hname : SameName d.name d'.name)
    (hd : d.Matches functions d') :
    (s.defineFunction d).Matches functions (s'.defineFunction d') := by
  refine h.modifyCurrent (fun hf => ⟨hf.values, hf.parent, hf.mixins, fun key => ?_⟩)
    fun f key hsome => ?_
  · rw [← hname, Entries.get?_put, Entries.get?_put]
    split
    · exact .inr (.some hd)
    · exact hf.functions key
  · rw [Entries.get?_put]
    split
    · rfl
    · exact hsome

end Scopes.Matches

namespace Context.Matches

variable {functions : List String} {c c' : Context} (h : c.Matches functions c')
include h

theorem withScopes {s s' : Scopes} (hs : s.Matches functions s') :
    Context.Matches functions { c with scopes := s } { c' with scopes := s' } :=
  ⟨hs, h.contents, by rw [h.rest]⟩

theorem withContents {bs bs' : List (Option ContentBlock)}
    (hbs : List.Forall₂ (Option.Rel (ContentBlock.Matches functions)) bs bs') :
    Context.Matches functions { c with contents := bs } { c' with contents := bs' } :=
  ⟨h.scopes, hbs, by rw [h.rest]⟩

theorem entered : (Compile.entered c).Matches functions (Compile.entered c') :=
  h.withScopes h.scopes.enter

theorem left : (Compile.left c).Matches functions (Compile.left c') := h.withScopes h.scopes.leave

/-- A change of what is spelled the same in both contexts. -/
theorem changed (change : Context → Context)
    (hscopes : ∀ c, (change c).scopes = c.scopes) (hcontents : ∀ c, (change c).contents = c.contents)
    (hchange : ∀ (c : Context) s bs, change { c with scopes := s, contents := bs } =
      { change c with scopes := s, contents := bs }) :
    (change c).Matches functions (change c') where
  scopes := by rw [hscopes, hscopes]; exact h.scopes
  contents := by rw [hcontents, hcontents]; exact h.contents
  rest := by
    conv_lhs => rw [h.rest, hchange]
    rw [hscopes, hcontents]

theorem callDepth : c'.callDepth = c.callDepth := by rw [h.rest]

theorem imports : c'.imports = c.imports := by rw [h.rest]

theorem maxImportDepth : c'.maxImportDepth = c.maxImportDepth := by rw [h.rest]

theorem urlMode : c'.urlMode = c.urlMode := by rw [h.rest]

theorem extensions : c'.extensions = c.extensions := by rw [h.rest]

theorem urlBase : c'.urlBase = c.urlBase := by rw [Context.urlBase, Context.urlBase, h.imports]

/-- Where an import leads to depends on the stylesheets being imported, which are the same. -/
theorem resolve (target : String) : c'.resolve target = c.resolve target := by
  rw [Context.resolve, Context.resolve, Context.currentUri, Context.currentUri, h.imports, h.rest]

/-- A call is entered in one context if it is in the other, whatever it is a call of. -/
theorem enterCall {name : String} (name' : String) {position : Position} {d : Context}
    (hd : c.enterCall name position = .ok d) :
    ∃ d', c'.enterCall name' position = .ok d' ∧ d.Matches functions d' := by
  obtain ⟨hdepth, rfl⟩ := Context.of_enterCall hd
  refine ⟨{ c' with callDepth := c'.callDepth + 1 }, ?_, ?_⟩
  · rw [Context.enterCall, h.callDepth, if_neg (Nat.not_le_of_lt hdepth)]
  · exact h.changed (fun c => { c with callDepth := c.callDepth + 1 }) (fun _ => rfl)
      (fun _ => rfl) fun _ _ _ => rfl

theorem exitCall : c.exitCall.Matches functions c'.exitCall :=
  h.changed Context.exitCall (fun _ => rfl) (fun _ => rfl) fun _ _ _ => rfl

/-- A stylesheet is entered in one context if it is in the other. -/
theorem enterImport {uri base : String} {d : Context} (hd : c.enterImport uri base = .ok d) :
    ∃ d', c'.enterImport uri base = .ok d' ∧ d.Matches functions d' := by
  unfold Context.enterImport at hd ⊢
  rw [h.imports, h.maxImportDepth]
  split at hd
  · cases hd
  next hdepth =>
    split at hd
    · cases hd
    next hcircular =>
      obtain rfl := Except.ok.inj hd
      rw [if_neg hdepth, if_neg hcircular]
      refine ⟨_, rfl, h.scopes, h.contents, ?_⟩
      conv_lhs => rw [h.rest]

/-- An import is left for the same stylesheet. -/
theorem exitImport : c.exitImport.Matches functions c'.exitImport := by
  refine h.changed Context.exitImport (fun c => ?_) (fun c => ?_) fun c s bs => ?_
  all_goals
    obtain ⟨_, _, _, _, _, imports, _, _, _, _⟩ := c
    rcases imports with _ | ⟨_, _ | _⟩ <;> rfl

theorem pushContent {block block' : Option ContentBlock}
    (hblock : Option.Rel (ContentBlock.Matches functions) block block') :
    (c.pushContent block).Matches functions (c'.pushContent block') :=
  h.withContents (.cons hblock h.contents)

theorem popContent : c.popContent.Matches functions c'.popContent := by
  refine h.withContents ?_
  rw [← List.drop_one, ← List.drop_one]
  exact List.forall₂_drop 1 h.contents

theorem addExtension (e : Extension) : (c.addExtension e).Matches functions (c'.addExtension e) :=
  h.changed (·.addExtension e) (fun _ => rfl) (fun _ => rfl) fun _ _ _ => rfl

theorem enterRoot (uri : String) : (c.enterRoot uri).Matches functions (c'.enterRoot uri) :=
  h.changed (·.enterRoot uri) (fun _ => rfl) (fun _ => rfl) fun _ _ _ => rfl

theorem warn (position : Position) (message : String) :
    (c.warn position message).Matches functions (c'.warn position message) :=
  h.changed (·.warn position message) (fun _ => rfl) (fun _ => rfl) fun _ _ _ => rfl

end Context.Matches

end Scss
