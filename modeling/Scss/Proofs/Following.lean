import Mathlib.Data.List.Forall2
import Scss.Compiler
import Scss.Proofs.Expanding
import Scss.Proofs.Parts

/-!
# A compile leaves the scopes it found

Everything that opens a scope closes it again, and frames that were hidden are put back, also where
something fails. So when statements have been flattened, the frames are those that were there
before, each in its place. What can have changed is what they bind:

* an **outer frame** binds the same names as before, and only variables have got new values;
* the **root frame**, seen from an inner scope, may have got new variables, which are those assigned
  with `!global`;
* the **innermost frame** is the one in which names are bound, so it may have gained any.

`Scopes.Follows` says this of the scopes before and after. It is kept by every step of flattening,
and the stack of imports is restored along the same lines.
-/

namespace Scss

/-! ## Frames -/

namespace Frame

/-- The frame later on, when names have at most been added to it. -/
structure Grows (f g : Frame) : Prop where
  parent : g.parent = f.parent
  values : ∀ key, f.values.has key → g.values.has key
  mixins : ∀ key, f.mixins.has key → g.mixins.has key
  functions : ∀ key, f.functions.has key → g.functions.has key

/-- The frame later on, when variables have at most been added to it and rebound. -/
structure GainsValues (f g : Frame) : Prop where
  parent : g.parent = f.parent
  values : ∀ key, f.values.has key → g.values.has key
  mixins : g.mixins = f.mixins
  functions : g.functions = f.functions

/-- The frame later on, when its variables have at most been rebound. -/
structure Stays (f g : Frame) : Prop where
  parent : g.parent = f.parent
  values : ∀ key, g.values.has key = f.values.has key
  mixins : g.mixins = f.mixins
  functions : g.functions = f.functions

theorem Grows.refl (f : Frame) : f.Grows f := ⟨rfl, fun _ h => h, fun _ h => h, fun _ h => h⟩

theorem GainsValues.refl (f : Frame) : f.GainsValues f := ⟨rfl, fun _ h => h, rfl, rfl⟩

theorem Stays.refl (f : Frame) : f.Stays f := ⟨rfl, fun _ => rfl, rfl, rfl⟩

theorem Grows.trans {f g h : Frame} (h₁ : f.Grows g) (h₂ : g.Grows h) : f.Grows h :=
  ⟨h₂.parent.trans h₁.parent, fun k hk => h₂.values k (h₁.values k hk),
    fun k hk => h₂.mixins k (h₁.mixins k hk), fun k hk => h₂.functions k (h₁.functions k hk)⟩

theorem GainsValues.trans {f g h : Frame} (h₁ : f.GainsValues g) (h₂ : g.GainsValues h) :
    f.GainsValues h :=
  ⟨h₂.parent.trans h₁.parent, fun k hk => h₂.values k (h₁.values k hk),
    h₂.mixins.trans h₁.mixins, h₂.functions.trans h₁.functions⟩

theorem Stays.trans {f g h : Frame} (h₁ : f.Stays g) (h₂ : g.Stays h) : f.Stays h :=
  ⟨h₂.parent.trans h₁.parent, fun k => (h₂.values k).trans (h₁.values k),
    h₂.mixins.trans h₁.mixins, h₂.functions.trans h₁.functions⟩

theorem GainsValues.grows {f g : Frame} (h : f.GainsValues g) : f.Grows g :=
  ⟨h.parent, h.values, fun _ hk => h.mixins ▸ hk, fun _ hk => h.functions ▸ hk⟩

theorem Stays.gainsValues {f g : Frame} (h : f.Stays g) : f.GainsValues g :=
  ⟨h.parent, fun k hk => (h.values k).trans hk, h.mixins, h.functions⟩

theorem has_put {β : Type} (entries : Entries β) (key other : String) (value : β) :
    (entries.put key value).has other = (decide (other = key) || entries.has other) := by
  simp only [Entries.has, Entries.get?_put]
  by_cases h : other = key <;> simp [h]

theorem has_put_of_has {β : Type} {entries : Entries β} {other : String} (key : String) (value : β)
    (h : entries.has other) : (entries.put key value).has other := by
  rw [has_put, h, Bool.or_true]

/-- Binding a variable in a frame. -/
theorem gainsValues_put (f : Frame) (key : String) (value : Value) :
    f.GainsValues { f with values := f.values.put key value } :=
  ⟨rfl, fun _ h => has_put_of_has key value h, rfl, rfl⟩

/-- Rebinding a variable of a frame. -/
theorem stays_put {f : Frame} {key : String} (value : Value) (h : f.values.has key) :
    f.Stays { f with values := f.values.put key value } := by
  refine ⟨rfl, fun k => ?_, rfl, rfl⟩
  show (f.values.put key value).has k = f.values.has k
  rw [has_put]
  by_cases hk : k = key
  · rw [hk, h, Bool.or_true]
  · rw [decide_eq_false hk, Bool.false_or]

end Frame

/-! ## Scopes -/

namespace Scopes

/-- What a body in a scope of its own does to the scopes around it. -/
structure Around (s s' : Scopes) : Prop where
  inner : List.Forall₂ Frame.Stays s.inner s'.inner
  root : s.root.GainsValues s'.root

/-- What statements do to the scopes they stand in. -/
inductive Follows : Scopes → Scopes → Prop where
  | root {r r' : Frame} : r.Grows r' → Follows ⟨[], r⟩ ⟨[], r'⟩
  | inner {f f' r r' : Frame} {outer outer' : List Frame} : f.Grows f' →
      Around ⟨outer, r⟩ ⟨outer', r'⟩ → Follows ⟨f :: outer, r⟩ ⟨f' :: outer', r'⟩

theorem forall₂_stays_refl (fs : List Frame) : List.Forall₂ Frame.Stays fs fs :=
  List.forall₂_same.mpr fun f _ => Frame.Stays.refl f

theorem forall₂_stays_trans {fs gs hs : List Frame} (h₁ : List.Forall₂ Frame.Stays fs gs)
    (h₂ : List.Forall₂ Frame.Stays gs hs) : List.Forall₂ Frame.Stays fs hs := by
  induction h₁ generalizing hs with
  | nil => exact h₂
  | cons hf _ ih =>
      cases h₂ with
      | cons hg htail => exact .cons (hf.trans hg) (ih htail)

theorem Around.refl (s : Scopes) : Around s s := ⟨forall₂_stays_refl _, Frame.GainsValues.refl _⟩

theorem Around.trans {s t u : Scopes} (h₁ : Around s t) (h₂ : Around t u) : Around s u :=
  ⟨forall₂_stays_trans h₁.inner h₂.inner, h₁.root.trans h₂.root⟩

theorem Follows.refl : ∀ s : Scopes, Follows s s
  | ⟨[], r⟩ => .root (Frame.Grows.refl r)
  | ⟨f :: outer, r⟩ => .inner (Frame.Grows.refl f) (Around.refl ⟨outer, r⟩)

theorem Follows.trans {s t u : Scopes} (h₁ : Follows s t) (h₂ : Follows t u) : Follows s u := by
  cases h₁ with
  | root hr =>
      cases h₂ with
      | root hr' => exact .root (hr.trans hr')
  | inner hf ha =>
      cases h₂ with
      | inner hf' ha' => exact .inner (hf.trans hf') (ha.trans ha')

theorem Around.follows {s s' : Scopes} (h : Around s s') : Follows s s' := by
  obtain ⟨inner, r⟩ := s
  obtain ⟨inner', r'⟩ := s'
  obtain ⟨hinner, hroot⟩ := h
  cases hinner with
  | nil => exact .root hroot.grows
  | cons hf htail => exact .inner hf.gainsValues.grows ⟨htail, hroot⟩

theorem Follows.depth {s s' : Scopes} (h : Follows s s') : s'.depth = s.depth := by
  cases h with
  | root _ => rfl
  | inner _ ha =>
      have hlen := ha.inner.length_eq
      simp only [Scopes.depth, List.length_cons] at hlen ⊢
      omega

/-- Every frame is in its place, belongs to the rule it belonged to, and has lost no name. -/
theorem Follows.frames {s s' : Scopes} (h : Follows s s') :
    List.Forall₂ Frame.Grows s.frames s'.frames := by
  cases h with
  | root hr => exact .cons hr .nil
  | inner hf ha =>
      refine .cons hf (List.rel_append ?_ ?_)
      · exact ha.inner.imp fun _ _ hs => hs.gainsValues.grows
      · exact .cons ha.root.grows .nil

/-- In frames that answer the same one after another, the same is found. -/
theorem findSome?_eq_of_forall₂ {β : Type} {look : Frame → Option β} {fs gs : List Frame}
    (h : List.Forall₂ (fun f g => look g = look f) fs gs) : gs.findSome? look = fs.findSome? look := by
  induction h with
  | nil => rfl
  | cons hf _ ih => rw [List.findSome?_cons, List.findSome?_cons, hf, ih]

/-- Statements stay in the rule they stand in. -/
theorem Follows.parent_eq {s s' : Scopes} (h : Follows s s') : s'.parent = s.parent := by
  unfold Scopes.parent
  rw [findSome?_eq_of_forall₂ (h.frames.imp fun _ _ hf => hf.parent)]

/-! ## What is visible -/

/-- Around a body, each frame keeps its mixins and functions. -/
theorem Around.definitions {s s' : Scopes} (h : Around s s') :
    List.Forall₂ (fun f g : Frame => g.mixins = f.mixins ∧ g.functions = f.functions)
      s.frames s'.frames := by
  refine List.rel_append (h.inner.imp fun f g hs => ⟨hs.mixins, hs.functions⟩) ?_
  exact .cons ⟨h.root.mixins, h.root.functions⟩ .nil

/-- Around a body, the same mixins are found. -/
theorem Around.mixin?_eq {s s' : Scopes} (h : Around s s') (name : String) :
    s'.mixin? name = s.mixin? name :=
  findSome?_eq_of_forall₂ (h.definitions.imp fun _ _ hf => by rw [hf.1])

/-- Around a body, the same functions are found. -/
theorem Around.function?_eq {s s' : Scopes} (h : Around s s') (name : String) :
    s'.function? name = s.function? name :=
  findSome?_eq_of_forall₂ (h.definitions.imp fun _ _ hf => by rw [hf.2])

theorem isSome_valueOf?_iff {s : Scopes} {name : String} :
    (s.valueOf? name).isSome ↔ ∃ f ∈ s.frames, f.values.has (Text.nameKey name) := by
  unfold Scopes.valueOf?
  rw [List.findSome?_isSome_iff]
  rfl

/-- Around a body, the same variables are bound, and perhaps more in the root frame. -/
theorem Around.isBound {s s' : Scopes} (h : Around s s') {name : String}
    (hbound : (s'.valueOf? name).isSome) :
    (s.valueOf? name).isSome ∨ s'.root.values.has (Text.nameKey name) := by
  obtain ⟨g, hg, hhas⟩ := isSome_valueOf?_iff.mp hbound
  rcases List.mem_append.mp hg with hg | hg
  · obtain ⟨f, hf, hstays⟩ := exists_of_mem_forall₂ h.inner hg
    refine Or.inl (isSome_valueOf?_iff.mpr ⟨f, List.mem_append_left _ hf, ?_⟩)
    rwa [← hstays.values]
  · obtain rfl := List.mem_singleton.mp hg
    exact Or.inr hhas

/-- The rule around a statement is the rule of one of the frames. -/
theorem exists_frame_of_parent {s : Scopes} {selectors outer : List Selector}
    (h : s.parent = .rule selectors outer) :
    ∃ f ∈ s.frames, f.parent = some (.rule selectors outer) := by
  unfold Scopes.parent at h
  cases hfound : s.frames.findSome? Frame.parent with
  | none => rw [hfound] at h; cases h
  | some parent =>
      rw [hfound] at h
      obtain ⟨f, hf, hparent⟩ := List.exists_of_findSome?_eq_some hfound
      exact ⟨f, hf, hparent.trans (congrArg some h)⟩

/-! ## Frames that are opened, closed and hidden -/

/-- Leaving a scope in which statements were run. -/
theorem Follows.leave {inner : List Frame} {f r : Frame} {s' : Scopes}
    (h : Follows ⟨f :: inner, r⟩ s') : Around ⟨inner, r⟩ s'.leave := by
  cases h with
  | inner _ ha => exact ha

/-- Frames that were hidden come back in front of those that were not. -/
theorem Around.restore {s s' : Scopes} (depth : Nat) (h : Around (s.hideAbove depth).2 s') :
    Around s (s'.restore (s.hideAbove depth).1) := by
  refine ⟨?_, h.root⟩
  have hsplit : (s.hideAbove depth).1 ++ (s.hideAbove depth).2.inner = s.inner :=
    congrArg Scopes.inner (restore_hideAbove s depth)
  rw [← hsplit]
  exact List.rel_append (forall₂_stays_refl _) h.inner

/-! ## Every frame -/

/-- What is left when inner frames are taken away was there before. -/
theorem mem_frames_of_drop {s : Scopes} {count : Nat} {f : Frame}
    (hf : f ∈ ({ s with inner := s.inner.drop count } : Scopes).frames) : f ∈ s.frames := by
  rcases List.mem_append.mp hf with hf | hf
  · exact List.mem_append_left _ (List.mem_of_mem_drop hf)
  · exact List.mem_append_right _ hf

/-- Frames that come back were there before they were hidden. -/
theorem mem_frames_of_restore {s t : Scopes} {depth : Nat} {f : Frame}
    (hf : f ∈ (t.restore (s.hideAbove depth).1).frames) : f ∈ s.frames ∨ f ∈ t.frames := by
  have hf : f ∈ (s.hideAbove depth).1 ++ t.inner ++ [t.root] := hf
  rw [List.append_assoc] at hf
  rcases List.mem_append.mp hf with hf | hf
  · exact Or.inl (List.mem_append_left _ (List.mem_of_mem_take hf))
  · exact Or.inr hf

section
variable {P : Frame → Prop} {s : Scopes} (hs : ∀ f ∈ s.frames, P f)
include hs

theorem every_enter (hempty : P Frame.empty) : ∀ f ∈ s.enter.frames, P f := by
  intro f hf
  rcases List.mem_cons.mp hf with rfl | hf
  · exact hempty
  · exact hs f hf

theorem every_modifyCurrent {change : Frame → Frame} (hchange : ∀ f, P f → P (change f)) :
    ∀ f ∈ (s.modifyCurrent change).frames, P f := by
  obtain ⟨inner, root⟩ := s
  cases inner with
  | nil =>
      intro f hf
      obtain rfl := List.mem_singleton.mp hf
      exact hchange root (hs root List.mem_cons_self)
  | cons frame outer =>
      intro f hf
      rcases List.mem_cons.mp hf with rfl | hf
      · exact hchange frame (hs frame List.mem_cons_self)
      · exact hs f (List.mem_cons_of_mem frame hf)

variable {value : Value}
  (hput : ∀ f key, P f → P { f with values := f.values.put key value })
include hput

theorem every_define (name : String) : ∀ f ∈ (s.define name value).frames, P f :=
  every_modifyCurrent hs fun f hf => hput f _ hf

theorem every_setGlobal (name : String) : ∀ f ∈ (s.setGlobal name value).frames, P f := by
  intro f hf
  rcases List.mem_append.mp hf with hf | hf
  · exact hs f (List.mem_append_left _ hf)
  · obtain rfl := List.mem_singleton.mp hf
    exact hput s.root _ (hs s.root (List.mem_append_right _ (List.mem_singleton_self _)))

omit hs in
theorem every_rebind? {key : String} {fs gs : List Frame} (hfs : ∀ f ∈ fs, P f)
    (h : rebind? key value fs = some gs) : ∀ g ∈ gs, P g := by
  induction fs generalizing gs with
  | nil => cases h
  | cons f outer ih =>
      have hf := hfs f List.mem_cons_self
      have houter := fun g hg => hfs g (List.mem_cons_of_mem f hg)
      rw [rebind?] at h
      split at h
      · obtain rfl := Option.some.inj h
        exact List.forall_mem_cons.mpr ⟨hput f key hf, houter⟩
      · obtain ⟨outer', hrebind, rfl⟩ := Option.map_eq_some_iff.mp h
        exact List.forall_mem_cons.mpr ⟨hf, ih houter hrebind⟩

/-- What rebinding a variable keeps in a frame holds of every frame after an assignment. -/
theorem every_assign (name : String) : ∀ f ∈ (s.assign name value).frames, P f := by
  unfold Scopes.assign
  split
  next inner hrebind =>
    intro f hf
    rcases List.mem_append.mp hf with hf | hf
    · exact every_rebind? hput (fun g hg => hs g (List.mem_append_left _ hg)) hrebind f hf
    · exact hs f (List.mem_append_right _ hf)
  · split
    · exact every_setGlobal hs hput name
    · exact every_define hs hput name

end

/-! ## Binding names -/

theorem follows_modifyCurrent {change : Frame → Frame} (h : ∀ f : Frame, f.Grows (change f)) :
    ∀ s : Scopes, Follows s (s.modifyCurrent change)
  | ⟨[], r⟩ => .root (h r)
  | ⟨f :: outer, r⟩ => .inner (h f) (Around.refl ⟨outer, r⟩)

theorem follows_define (s : Scopes) (name : String) (value : Value) :
    Follows s (s.define name value) :=
  follows_modifyCurrent (fun f => (f.gainsValues_put _ value).grows) s

theorem around_setGlobal (s : Scopes) (name : String) (value : Value) :
    Around s (s.setGlobal name value) :=
  ⟨forall₂_stays_refl s.inner, s.root.gainsValues_put _ value⟩

theorem rebind?_stays {key : String} {value : Value} {fs gs : List Frame}
    (h : rebind? key value fs = some gs) : List.Forall₂ Frame.Stays fs gs := by
  induction fs generalizing gs with
  | nil => simp [rebind?] at h
  | cons f outer ih =>
      rw [rebind?] at h
      split at h
      next hkey =>
        obtain rfl := Option.some.inj h
        exact .cons (Frame.stays_put value hkey) (forall₂_stays_refl outer)
      · obtain ⟨outer', hrebind, rfl⟩ := Option.map_eq_some_iff.mp h
        exact .cons (Frame.Stays.refl f) (ih hrebind)

theorem follows_assign (s : Scopes) (name : String) (value : Value) :
    Follows s (s.assign name value) := by
  unfold Scopes.assign
  split
  next inner hrebind =>
    exact Around.follows ⟨rebind?_stays hrebind, Frame.GainsValues.refl _⟩
  · split
    · exact (around_setGlobal s name value).follows
    · exact follows_define s name value

theorem follows_defineMixin (s : Scopes) (d : Definition) : Follows s (s.defineMixin d) := by
  refine follows_modifyCurrent (fun f => ?_) s
  exact ⟨rfl, fun _ h => h, fun _ h => Frame.has_put_of_has _ d h, fun _ h => h⟩

theorem follows_defineFunction (s : Scopes) (d : Definition) :
    Follows s (s.defineFunction d) := by
  refine follows_modifyCurrent (fun f => ?_) s
  exact ⟨rfl, fun _ h => h, fun _ h => h, fun _ h => Frame.has_put_of_has _ d h⟩

end Scopes

/-! ## Contexts -/

namespace Context

/-- The context later on: its scopes are related by `S`, and its stacks are as they were. The stack of
imports is not empty while a stylesheet is compiled. -/
structure Keeps (S : Scopes → Scopes → Prop) (c c' : Context) : Prop where
  scopes : S c.scopes c'.scopes
  contents : c'.contents = c.contents
  callDepth : c'.callDepth = c.callDepth
  imports : c.imports ≠ [] → c'.imports = c.imports

/-- What statements do to the context they stand in. -/
abbrev Follows : Context → Context → Prop := Keeps Scopes.Follows

/-- What a body in a scope of its own does to the context. -/
abbrev Around : Context → Context → Prop := Keeps Scopes.Around

theorem Keeps.ofScopes {S : Scopes → Scopes → Prop} {c : Context} {s : Scopes}
    (h : S c.scopes s) : Keeps S c { c with scopes := s } := ⟨h, rfl, rfl, fun _ => rfl⟩

theorem Keeps.trans {S : Scopes → Scopes → Prop} (hS : ∀ s t u, S s t → S t u → S s u)
    {c d e : Context} (h₁ : Keeps S c d) (h₂ : Keeps S d e) : Keeps S c e where
  scopes := hS _ _ _ h₁.scopes h₂.scopes
  contents := h₂.contents.trans h₁.contents
  callDepth := h₂.callDepth.trans h₁.callDepth
  imports hne := by
    have hd := h₁.imports hne
    exact (h₂.imports (hd.symm ▸ hne)).trans hd

theorem Follows.trans {c d e : Context} (h₁ : Follows c d) (h₂ : Follows d e) : Follows c e :=
  Keeps.trans (S := Scopes.Follows) (fun _ _ _ => Scopes.Follows.trans) h₁ h₂

theorem Around.follows {c c' : Context} (h : Around c c') : Follows c c' :=
  ⟨h.scopes.follows, h.contents, h.callDepth, h.imports⟩

theorem Follows.refl (c : Context) : Follows c c := Keeps.ofScopes (Scopes.Follows.refl c.scopes)

/-- Leaving a scope in which statements were run. It may have been made the scope of a rule. -/
theorem Follows.left {c d : Context} {f : Frame}
    (h : Follows { c with scopes := { c.scopes with inner := f :: c.scopes.inner } } d) :
    Around c (Compile.left d) :=
  ⟨h.scopes.leave, h.contents, h.callDepth, h.imports⟩

section
variable {S : Scopes → Scopes → Prop} {c d e : Context}

/-- Leaving a call. -/
theorem Keeps.exitCall {name : String} {position : Position}
    (hentered : c.enterCall name position = .ok d) (h : Keeps S d e) : Keeps S c e.exitCall := by
  obtain ⟨-, rfl⟩ := of_enterCall hentered
  refine ⟨h.scopes, h.contents, ?_, h.imports⟩
  show e.callDepth - 1 = c.callDepth
  rw [h.callDepth]
  rfl

/-- Taking a content block off the stack that was put there before. -/
theorem Keeps.popContent {block : Option ContentBlock} (h : Keeps S (c.pushContent block) d) :
    Keeps S c d.popContent :=
  ⟨h.scopes, congrArg List.tail h.contents, h.callDepth, h.imports⟩

/-- Putting a content block back on the stack that was taken off before. -/
theorem Keeps.pushContent {block : Option ContentBlock} {below : List (Option ContentBlock)}
    (hc : c.contents = block :: below) (h : Keeps S c.popContent d) :
    Keeps S c (d.pushContent block) := by
  refine ⟨h.scopes, ?_, h.callDepth, h.imports⟩
  show block :: d.contents = c.contents
  rw [h.contents, Context.popContent, hc]
  rfl

/-- Leaving an imported stylesheet. -/
theorem Keeps.exitImport {uri base : String} (hentered : c.enterImport uri base = .ok d)
    (h : Keeps S d e) : Keeps S c e.exitImport := by
  obtain ⟨-, rfl⟩ := of_enterImport hentered
  have himports : e.imports = ⟨uri, base⟩ :: c.imports := h.imports (List.cons_ne_nil _ _)
  unfold Context.exitImport
  rw [himports]
  split
  next hmatch =>
    have hrest := (List.cons.inj hmatch).2
    exact ⟨h.scopes, h.contents, h.callDepth, fun _ => hrest.symm⟩
  next hmatch =>
    refine ⟨h.scopes, h.contents, h.callDepth, fun hne => ?_⟩
    obtain ⟨top, below, hcons⟩ := List.exists_cons_of_ne_nil hne
    exact absurd (congrArg (List.cons _) hcons) (hmatch _ top below)

end

end Context

/-! ## Every step follows -/

namespace Compile

open Context

theorem scoping_follows : Scoping Follows where
  refl := Follows.refl
  trans := Follows.trans
  define c name value := Keeps.ofScopes (Scopes.follows_define c.scopes name value)
  assign c name value := Keeps.ofScopes (Scopes.follows_assign c.scopes name value)
  setGlobal c name value :=
    Keeps.ofScopes (Scopes.around_setGlobal c.scopes name value).follows
  warn _ _ _ := ⟨Scopes.Follows.refl _, rfl, rfl, fun _ => rfl⟩
  inScope h := (Follows.left h).follows
  calling := Keeps.exitCall

/-- A body in a scope of its own, which is made the scope of a rule. -/
theorem around_inScope {α : Type} {body : Compile α} (h : Leaves Follows body)
    (parent : ParentBlock) :
    Leaves Around (Compile.inScope do modifyScopes (·.setParent parent); body) :=
  fun c => Follows.left (h { c with scopes := c.scopes.enter.setParent parent })

theorem executing_follows : Evaluation.Executing (fun _ => True) (Leaves Follows) :=
  Evaluation.executing_of_scoping scoping_follows

end Compile

namespace Flatten

open Compile Context Evaluation

theorem flattenRule_follows (position : Position) (own : List Selector)
    {m : Compile (List Node)} (h : Leaves Follows m) :
    Leaves Follows (flattenRule position own m) :=
  flattenRule_keeps executing_follows.toEvaluating executing_follows.warn reading_of_leaves position
    own fun parent c => (around_inScope h parent c).follows

/-- The content block is run with the stack below it, and with fewer frames. -/
theorem expandContent_follows {s : Site} (h : ∀ nodes, Leaves Follows (s.contentBody nodes)) :
    Leaves Follows (expandContent s) := by
  intro c
  rw [expandContent, outcome_get_bind]
  cases hcontents : c.contents with
  | nil => exact Follows.refl c
  | cons top below =>
      cases top with
      | none => exact Follows.refl c
      | some block =>
          dsimp only
          rw [outcome_scopes_bind, outcome_settingAside]
          have hbody := around_inScope (h block.body) c.scopes.parent
            { c.popContent with scopes := (c.scopes.hideAbove block.depth).2 }
          -- the body is inside a scope above the frames it sees, and the hidden ones are not touched
          refine Keeps.pushContent hcontents (Around.follows ?_)
          exact ⟨hbody.scopes.restore block.depth, hbody.contents, hbody.callDepth, hbody.imports⟩

theorem importing_follows (uri base : String) {m : Compile (List Node)} (h : Leaves Follows m) :
    Leaves Follows (importing uri base m) := by
  intro c
  rw [importing, outcome_get_bind]
  cases hentered : c.enterImport uri base with
  | error failure => exact Follows.refl c
  | ok d => exact Keeps.exitImport hentered (h d)

/-- **Every step of flattening follows**, so flattening does. -/
theorem expanding_follows :
    Expanding (fun _ => True) (Leaves Follows) fun m => Leaves Follows m :=
  expanding_of_executing executing_follows reading_of_leaves
    (fun parent _ h c => (around_inScope h parent c).follows)
    (fun _ _ => ⟨Scopes.Follows.refl _, rfl, rfl, fun _ => rfl⟩)
    (fun _ c => Keeps.ofScopes (Scopes.follows_defineMixin c.scopes _))
    (fun _ c => Keeps.ofScopes (Scopes.follows_defineFunction c.scopes _))
    (fun _ h c => Keeps.popContent (h (c.pushContent _)))
    (fun h => expandContent_follows fun nodes => h nodes (Node.all_trivial nodes))
    importing_follows

theorem run_follows (nodes : List Node) : Leaves Follows (Flatten.run nodes) := by
  have hR := scoping_follows
  refine Leaves.bind hR (Leaves.get hR) fun c => ?_
  refine Leaves.bind hR (expand_meets expanding_follows _ _ _ nodes (Node.all_trivial nodes))
    fun flat => ?_
  split
  · exact hR.steps.fail _ _
  · exact Leaves.pure hR flat

end Flatten

/-! ## The whole compile -/

open Compile Context

theorem Extending.run_leaves {R : Context → Context → Prop} (hR : Scoping R) (nodes : List Node) :
    Leaves R (Extending.run nodes) := by
  refine Leaves.bind hR (Leaves.get hR) fun c => ?_
  dsimp only
  split
  · exact hR.steps.throw _
  next matched _ =>
    refine Leaves.bind hR (hR.steps.forM fun e _ => ?_) fun _ => Leaves.pure hR _
    exact Leaves.ite (Leaves.pure hR ()) (Leaves.warn hR _ _)

/-- A compile is the two passes, one after the other, in the context in which the stylesheet has been
entered. -/
theorem Stylesheet.outcome_compile (s : Stylesheet) (c : Context) :
    s.compile.outcome c = outcome (do
      let flat ← Flatten.run s.body
      return { s with body := ← Extending.run flat }) (c.enterRoot s.uri) := rfl

/-- What comes out if both passes succeed. -/
theorem Stylesheet.outcome_compile_ok {s : Stylesheet} {c c₁ c₂ : Context} {flat printed : List Node}
    (hflat : (Flatten.run s.body).outcome (c.enterRoot s.uri) = (.ok flat, c₁))
    (hprinted : (Extending.run flat).outcome c₁ = (.ok printed, c₂)) :
    s.compile.outcome c = (.ok { s with body := printed }, c₂) := by
  rw [s.outcome_compile, outcome_bind_ok hflat, outcome_bind_ok hprinted]
  rfl

/-- A stylesheet compiles if, at whatever site, the recursion on statements flattens it and the second
pass takes the result. -/
theorem Stylesheet.exists_compile {s : Stylesheet} {c : Context} {P : List Node → Context → Prop}
    (h : ∀ site, ∃ flat c₁ printed c₂,
      (Flatten.flattenNodes site s.body).outcome (c.enterRoot s.uri) = (.ok flat, c₁) ∧
      (∀ n ∈ flat, n.statement.isDeclaration = false) ∧
      (Extending.run flat).outcome c₁ = (.ok printed, c₂) ∧ P printed c₂) :
    ∃ printed c', s.compile.outcome c = (.ok { s with body := printed }, c') ∧ P printed c' := by
  obtain ⟨site, -, hrun⟩ := Flatten.exists_root_site (c.enterRoot s.uri)
  obtain ⟨flat, c₁, printed, c₂, hflat, htop, hprinted, hP⟩ := h site
  exact ⟨printed, c₂, outcome_compile_ok (hrun.mpr ⟨hflat, htop⟩) hprinted, hP⟩

/-- A compile follows the context in which its stylesheet has been entered. -/
theorem Stylesheet.compile_follows (s : Stylesheet) (c : Context) :
    Follows (c.enterRoot s.uri) (s.compile.outcome c).2 := by
  have hR := scoping_follows
  rw [s.outcome_compile]
  refine Leaves.bind hR (Flatten.run_follows s.body) (fun flat => ?_) _
  exact Leaves.bind hR (Extending.run_leaves hR flat) fun body => Leaves.pure hR _

/--
**No state leaks from a compile, whether it succeeds or fails.**

In whatever context a stylesheet is compiled, and whatever the resolver finds for its imports, the
compile leaves as many frames as there were, each in its place: in it no name is gone, and it belongs
to the rule it belonged to. The content blocks and the call depth are as they were, and the stylesheet
itself is the only one being compiled.
-/
theorem Stylesheet.compile_leaks_nothing (s : Stylesheet) (c : Context) :
    let after := (s.compile.outcome c).2
    after.scopes.depth = c.scopes.depth ∧
      List.Forall₂ Frame.Grows c.scopes.frames after.scopes.frames ∧
      c.scopes.Follows after.scopes ∧
      after.contents = c.contents ∧
      after.callDepth = c.callDepth ∧
      after.imports = [⟨s.uri, ""⟩] := by
  intro after
  have h : Follows (c.enterRoot s.uri) after := s.compile_follows c
  have hfollows : c.scopes.Follows after.scopes := h.scopes
  refine ⟨hfollows.depth, hfollows.frames, hfollows, h.contents, h.callDepth, ?_⟩
  exact h.imports (List.cons_ne_nil _ _)

end Scss
