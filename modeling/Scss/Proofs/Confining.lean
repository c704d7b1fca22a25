import Mathlib
import Scss.Proofs.Code

/-!
# Names do not leave their scope

A rule, a directive, a branch, a round of a loop, a call and a content block each run in a scope of
their own. When the scope is left, whether the body has succeeded or failed, the frames around it
bind exactly the names that they bound before, and the mixins and functions in them are the same
definitions (`Scopes.Confined`). One thing gets out: the root frame may have gained variables, and
these are assigned with `!global`. As code is never computed, the names of those variables can be read
off it (`Statement.SetsOnly`).

Statements that are run without a scope of their own may bind names in the innermost frame, and
nowhere else (`Scopes.Within`). That is what carries the induction over flattening, since a body in a
scope is made of such statements.
-/

namespace Scss

/-- Assigning with `!global`, if at all, to a variable whose key is in `G`. -/
def Statement.SetsOnly (G : String → Prop) : Statement → Prop
  | .assignment name _ _ true => G (Text.nameKey name)
  | _ => True

namespace Scopes

variable {G : String → Prop}

/-! ## The root frame -/

/-- Variables that are new in the root frame have their keys in `G`. -/
def RootGains (G : String → Prop) (s s' : Scopes) : Prop :=
  ∀ key, s'.root.values.has key → s.root.values.has key ∨ G key

/-- What a body in a scope of its own does to the scopes around it. -/
structure Confined (G : String → Prop) (s s' : Scopes) : Prop where
  around : Around s s'
  gained : RootGains G s s'

/-- What statements do to the scopes they stand in. At the root they may bind any name. -/
structure Within (G : String → Prop) (s s' : Scopes) : Prop where
  follows : Follows s s'
  gained : s.inner ≠ [] → RootGains G s s'

theorem RootGains.refl (s : Scopes) : RootGains G s s := fun _ h => Or.inl h

theorem RootGains.of_eq {s s' : Scopes} (h : s'.root = s.root) : RootGains G s s' :=
  fun _ hkey => Or.inl (h ▸ hkey)

theorem RootGains.trans {s t u : Scopes} (h₁ : RootGains G s t) (h₂ : RootGains G t u) :
    RootGains G s u :=
  fun key hkey => (h₂ key hkey).elim (h₁ key) Or.inr

theorem rootGains_setGlobal (s : Scopes) {name : String} (value : Value)
    (h : s.root.values.has (Text.nameKey name) ∨ G (Text.nameKey name)) :
    RootGains G s (s.setGlobal name value) := by
  intro key hkey
  have hput : (s.root.values.put (Text.nameKey name) value).has key = true := hkey
  rw [Frame.has_put, Bool.or_eq_true, decide_eq_true_eq] at hput
  rcases hput with rfl | hput
  · exact h
  · exact Or.inl hput

theorem Confined.refl (s : Scopes) : Confined G s s := ⟨Around.refl s, RootGains.refl s⟩

theorem Confined.trans {s t u : Scopes} (h₁ : Confined G s t) (h₂ : Confined G t u) :
    Confined G s u :=
  ⟨h₁.around.trans h₂.around, h₁.gained.trans h₂.gained⟩

theorem Confined.within {s s' : Scopes} (h : Confined G s s') : Within G s s' :=
  ⟨h.around.follows, fun _ => h.gained⟩

theorem Within.refl (s : Scopes) : Within G s s := (Confined.refl s).within

theorem Within.trans {s t u : Scopes} (h₁ : Within G s t) (h₂ : Within G t u) : Within G s u := by
  refine ⟨h₁.follows.trans h₂.follows, fun hs => (h₁.gained hs).trans (h₂.gained fun ht => hs ?_)⟩
  have hdepth := h₁.follows.depth
  rw [Scopes.depth, Scopes.depth, ht] at hdepth
  exact List.eq_nil_of_length_eq_zero (by simpa using hdepth.symm)

/-- Leaving a scope in which statements were run. -/
theorem Within.leave {inner : List Frame} {f r : Frame} {s' : Scopes}
    (h : Within G ⟨f :: inner, r⟩ s') : Confined G ⟨inner, r⟩ s'.leave :=
  ⟨h.follows.leave, h.gained (List.cons_ne_nil f inner)⟩

/-- Frames that were hidden come back in front of those that were not. -/
theorem Confined.restore {s s' : Scopes} (depth : Nat) (h : Confined G (s.hideAbove depth).2 s') :
    Confined G s (s'.restore (s.hideAbove depth).1) :=
  ⟨h.around.restore depth, h.gained⟩

/-! ## Binding names -/

theorem root_modifyCurrent {s : Scopes} (hs : s.inner ≠ []) (change : Frame → Frame) :
    (s.modifyCurrent change).root = s.root := by
  obtain ⟨inner, root⟩ := s
  cases inner with
  | nil => exact absurd rfl hs
  | cons f outer => rfl

theorem within_define (s : Scopes) (name : String) (value : Value) :
    Within G s (s.define name value) :=
  ⟨follows_define s name value, fun hs => .of_eq (root_modifyCurrent hs _)⟩

theorem within_assign (s : Scopes) (name : String) (value : Value) :
    Within G s (s.assign name value) := by
  refine ⟨follows_assign s name value, fun hs => ?_⟩
  unfold Scopes.assign
  split
  · exact RootGains.refl s
  · split
    next hroot => exact rootGains_setGlobal s value (Or.inl hroot)
    · exact .of_eq (root_modifyCurrent hs _)

theorem confined_setGlobal (s : Scopes) {name : String} (value : Value)
    (h : G (Text.nameKey name)) : Confined G s (s.setGlobal name value) :=
  ⟨around_setGlobal s name value, rootGains_setGlobal s value (Or.inr h)⟩

theorem within_defineMixin (s : Scopes) (d : Definition) : Within G s (s.defineMixin d) :=
  ⟨follows_defineMixin s d, fun hs => .of_eq (root_modifyCurrent hs _)⟩

theorem within_defineFunction (s : Scopes) (d : Definition) : Within G s (s.defineFunction d) :=
  ⟨follows_defineFunction s d, fun hs => .of_eq (root_modifyCurrent hs _)⟩

/-- A variable that is visible was visible, or it was assigned with `!global`. -/
theorem Confined.isBound {s s' : Scopes} (h : Confined G s s') {name : String}
    (hbound : (s'.valueOf? name).isSome) :
    (s.valueOf? name).isSome ∨ G (Text.nameKey name) := by
  rcases h.around.isBound hbound with hbound | hroot
  · exact Or.inl hbound
  · refine (h.gained _ hroot).imp_left fun hroot => isSome_valueOf?_iff.mpr ⟨s.root, ?_, hroot⟩
    exact List.mem_append_right _ (List.mem_singleton_self _)

end Scopes

/-! ## Contexts -/

namespace Context

variable {G : String → Prop}

/-- If all code sets only globals of `G`, the scopes of the context later on are related by `T`, its
stacks are as they were, and its code still sets only such globals. -/
def Guards (G : String → Prop) (T : Scopes → Scopes → Prop) (c c' : Context) : Prop :=
  c.AllCode (Statement.SetsOnly G) → c.Keeps T c' ∧ c'.AllCode (Statement.SetsOnly G)

theorem Guards.refl {T : Scopes → Scopes → Prop} (hT : ∀ s, T s s) (c : Context) : Guards G T c c :=
  fun hc => ⟨Keeps.ofScopes (hT c.scopes), hc⟩

theorem Guards.trans {T : Scopes → Scopes → Prop} (hT : ∀ s t u, T s t → T t u → T s u)
    {c d e : Context} (h₁ : Guards G T c d) (h₂ : Guards G T d e) : Guards G T c e := by
  intro hc
  obtain ⟨hd, hdcode⟩ := h₁ hc
  obtain ⟨he, hecode⟩ := h₂ hdcode
  exact ⟨hd.trans hT he, hecode⟩

/-- What statements do to a context. -/
abbrev GuardsWithin (G : String → Prop) : Context → Context → Prop := Guards G (Scopes.Within G)

/-- What a body in a scope of its own does to a context. -/
abbrev GuardsConfined (G : String → Prop) : Context → Context → Prop :=
  Guards G (Scopes.Confined G)

theorem GuardsConfined.within {c c' : Context} (h : GuardsConfined G c c') :
    GuardsWithin G c c' := by
  intro hc
  obtain ⟨hkeeps, hcode⟩ := h hc
  exact ⟨⟨hkeeps.scopes.within, hkeeps.contents, hkeeps.callDepth, hkeeps.imports⟩, hcode⟩

end Context

namespace Compile

open Context Evaluation

variable {G : String → Prop} {α : Type}

theorem reading_guards {T : Scopes → Scopes → Prop} :
    Reading (Statement.SetsOnly G) (Leaves (Guards G T)) := fun h c hc => h c hc c hc

/-- Whatever the steps keep, evaluation keeps it, too. -/
theorem evaluating_guards {T : Scopes → Scopes → Prop} (hrefl : ∀ s, T s s)
    (htrans : ∀ s t u, T s t → T t u → T s u) :
    Evaluating (Statement.SetsOnly G) (Leaves (Guards G T)) :=
  reading_guards.evaluating (Leaves.steps (Guards.refl hrefl) fun _ _ _ => Guards.trans htrans)

theorem evaluating_confined : Evaluating (Statement.SetsOnly G) (Leaves (GuardsConfined G)) :=
  evaluating_guards Scopes.Confined.refl fun _ _ _ => Scopes.Confined.trans

/-- **A body in a scope of its own is confined**, whatever its statements do there. -/
theorem inScope_confined {m : Compile α} (h : Leaves (GuardsWithin G) m) :
    Leaves (GuardsConfined G) (inScope m) := by
  intro c hc
  obtain ⟨hkeeps, hcode⟩ := h (entered c) hc.entered
  exact ⟨⟨hkeeps.scopes.leave, hkeeps.contents, hkeeps.callDepth, hkeeps.imports⟩, hcode.drop 1⟩

/-- The scope may be made the scope of a rule. -/
theorem inRule_confined {m : Compile α} (h : Leaves (GuardsWithin G) m) (parent : ParentBlock) :
    Leaves (GuardsConfined G) (inScope do modifyScopes (·.setParent parent); m) := by
  intro c hc
  obtain ⟨hkeeps, hcode⟩ := h (enteredRule parent c) (hc.entered.setParent parent)
  exact ⟨⟨hkeeps.scopes.leave, hkeeps.contents, hkeeps.callDepth, hkeeps.imports⟩, hcode.drop 1⟩

theorem calling_guards {T : Scopes → Scopes → Prop} (hT : ∀ s, T s s) (name : String)
    (position : Position) {m : Compile α} (h : Leaves (Guards G T) m) :
    Leaves (Guards G T) (calling name position m) := by
  intro c
  rw [outcome_calling]
  cases hentered : c.enterCall name position with
  | error failure => exact Guards.refl hT c
  | ok d =>
      intro hc
      obtain ⟨hkeeps, hcode⟩ := h d (hc.enterCall hentered)
      exact ⟨hkeeps.exitCall hentered, hcode.exitCall⟩

theorem passing_guards {T : Scopes → Scopes → Prop} {block : Option ContentBlock}
    (hblock : ∀ b ∈ block, ∀ n ∈ b.body, n.All (Statement.SetsOnly G)) {m : Compile α}
    (h : Leaves (Guards G T) m) : Leaves (Guards G T) (passing block m) := by
  intro c hc
  obtain ⟨hkeeps, hcode⟩ := h (c.pushContent block) (hc.pushContent hblock)
  exact ⟨hkeeps.popContent, hcode.popContent⟩

/-- **Every step of a function stays within its scopes.** -/
theorem executing_within : Executing (Statement.SetsOnly G) (Leaves (GuardsWithin G)) where
  toEvaluating := evaluating_guards Scopes.Within.refl fun _ _ _ => Scopes.Within.trans
  define name value c hc :=
    ⟨Keeps.ofScopes (Scopes.within_define c.scopes name value), hc.define name value⟩
  assign name value c hc :=
    ⟨Keeps.ofScopes (Scopes.within_assign c.scopes name value), hc.assign name value⟩
  setGlobal hS value c hc :=
    ⟨Keeps.ofScopes (Scopes.confined_setGlobal c.scopes value hS).within, hc.setGlobal _ value⟩
  warn position message c hc :=
    ⟨⟨Scopes.Within.refl c.scopes, rfl, rfl, fun _ => rfl⟩, hc.warn position message⟩
  inScope h c := GuardsConfined.within (inScope_confined h c)
  calling := calling_guards Scopes.Within.refl

end Compile

namespace Flatten

open Compile Context Evaluation

variable {G : String → Prop}

/-- The content block is run with the stack below it, and with fewer frames. -/
theorem expandContent_confined {s : Site}
    (h : ∀ nodes, (∀ n ∈ nodes, n.All (Statement.SetsOnly G)) →
      Leaves (GuardsWithin G) (s.contentBody nodes)) :
    Leaves (GuardsConfined G) (expandContent s) := by
  intro c hc
  rw [expandContent, outcome_get_bind]
  split
  next block below hcontents =>
    rw [outcome_scopes_bind, outcome_settingAside]
    have hblock : ∀ n ∈ block.body, n.All (Statement.SetsOnly G) :=
      hc.contents block (hcontents ▸ List.mem_cons_self)
    obtain ⟨hkeeps, hcode⟩ := inRule_confined (h block.body hblock) c.scopes.parent
      { c.popContent with scopes := (c.scopes.hideAbove block.depth).2 } (hc.popContent.drop _)
    have hrestored := hc.restore hcode block.depth
    refine ⟨Keeps.pushContent hcontents ?_, hrestored.pushContent fun b hb => ?_⟩
    · exact ⟨hkeeps.scopes.restore block.depth, hkeeps.contents, hkeeps.callDepth, hkeeps.imports⟩
    · obtain rfl := Option.some.inj hb
      exact hblock
  · exact ⟨Keeps.ofScopes (Scopes.Confined.refl c.scopes), hc⟩

theorem importing_within (uri base : String) {m : Compile (List Node)}
    (h : Leaves (GuardsWithin G) m) : Leaves (GuardsWithin G) (importing uri base m) := by
  intro c hc
  rw [importing, outcome_get_bind]
  cases hentered : c.enterImport uri base with
  | error failure => exact ⟨Keeps.ofScopes (Scopes.Within.refl c.scopes), hc⟩
  | ok d =>
      obtain ⟨hkeeps, hcode⟩ := h d (hc.enterImport hentered)
      exact ⟨Keeps.exitImport hentered hkeeps, hcode.exitImport⟩

/-- **Every step of flattening stays within its scopes**, so flattening does. -/
theorem expanding_within :
    Expanding (Statement.SetsOnly G) (Leaves (GuardsWithin G)) fun m => Leaves (GuardsWithin G) m :=
  expanding_of_executing executing_within reading_guards
    (fun parent _ h c => GuardsConfined.within (inRule_confined h parent c))
    (fun e c hc => ⟨⟨Scopes.Within.refl c.scopes, rfl, rfl, fun _ => rfl⟩, hc.addExtension e⟩)
    (fun hd c hc =>
      ⟨Keeps.ofScopes (Scopes.within_defineMixin c.scopes _), hc.defineMixin hd⟩)
    (fun hd c hc =>
      ⟨Keeps.ofScopes (Scopes.within_defineFunction c.scopes _), hc.defineFunction hd⟩)
    (fun hblock h => passing_guards hblock h)
    (fun h c => GuardsConfined.within (expandContent_confined h c))
    importing_within

end Flatten

/-! ## Bodies in a scope of their own -/

open Compile Context Evaluation Flatten

/-- What a function runs in a scope of its own, besides its body. -/
inductive Evaluation.Enclosed (S : Statement → Prop) (call : Caller) :
    Compile (Option Value) → Prop where
  /-- A branch, or a round of `@while`. -/
  | block {body : List Node} (h : ∀ n ∈ body, n.All S) :
      Enclosed S call (inScope (runBody call body))
  /-- A round of `@each`. -/
  | item (names : List String) (item : Value) {body : List Node} (h : ∀ n ∈ body, n.All S) :
      Enclosed S call (inScope do bindItem names item; runBody call body)
  /-- A round of `@for`. -/
  | index (counter : String) (i : Value) {body : List Node} (h : ∀ n ∈ body, n.All S) :
      Enclosed S call (inScope do modifyScopes (·.define counter i); runBody call body)

/-- What is expanded in a scope of its own. -/
inductive Flatten.Enclosed (S : Statement → Prop) (s : Site) : Compile (List Node) → Prop where
  | rule (position : Position) (own : List Selector) {body : List Node} (h : ∀ n ∈ body, n.All S) :
      Enclosed S s (flattenRule position own (flattenNodes s body))
  /-- A directive that moves out of the rule around it. -/
  | directive (position : Position) {body : List Node} (h : ∀ n ∈ body, n.All S) :
      Enclosed S s (flattenBubbling position (flattenNodes s body))
  /-- The body that an at-rule keeps for itself. -/
  | atRule {body : List Node} (h : ∀ n ∈ body, n.All S) :
      Enclosed S s (inScope do modifyScopes (·.setParent .topLevel); flattenNodes s body)
  /-- A branch, or a round of `@while`. -/
  | block {body : List Node} (h : ∀ n ∈ body, n.All S) :
      Enclosed S s (inScope (flattenNodes s body))
  /-- A round of `@each`. -/
  | item (names : List String) (item : Value) {body : List Node} (h : ∀ n ∈ body, n.All S) :
      Enclosed S s (inScope do bindItem names item; flattenNodes s body)
  /-- A round of `@for`. -/
  | index (counter : String) (i : Value) {body : List Node} (h : ∀ n ∈ body, n.All S) :
      Enclosed S s (inScope do modifyScopes (·.define counter i); flattenNodes s body)
  | mixin (position : Position) (name : String) (arguments : List (Argument Value))
      {content : Option (List Node)} (h : ∀ body ∈ content, ∀ n ∈ body, n.All S) :
      Enclosed S s (expandMixin s position name arguments content)
  | content : Enclosed S s (expandContent s)

section
variable {G : String → Prop}

/-- The body of a function and its parameters are in a scope of their own. -/
theorem Evaluation.invoke_confined (calls : Nat) :
    CallerKeeps (Statement.SetsOnly G) (Leaves (GuardsConfined G)) (invoke calls) :=
  invoke_keeps_around evaluating_confined.toSteps executing_within
    (fun name position _ h =>
      calling_guards Scopes.Confined.refl name position (inScope_confined h)) calls

theorem Evaluation.Enclosed.confined {calls : Nat} {m : Compile (Option Value)}
    (h : Evaluation.Enclosed (Statement.SetsOnly G) (invoke calls) m) :
    Leaves (GuardsConfined G) m := by
  have hE := executing_within (G := G)
  have hcall := invoke_keeps hE calls
  cases h with
  | block hbody => exact inScope_confined (runBody_keeps hE hcall _ hbody)
  | item names item hbody =>
      exact inScope_confined (hE.bind (bindItem_keeps hE names item) fun _ =>
        runBody_keeps hE hcall _ hbody)
  | index counter i hbody =>
      exact inScope_confined (hE.bind (hE.define counter i) fun _ =>
        runBody_keeps hE hcall _ hbody)

/-- A mixin evaluates its arguments in the scopes around it, and all else in a scope of its own. -/
theorem Flatten.expandMixin_confined {s : Site} (hs : s.Meets (Statement.SetsOnly G)
      fun m => Leaves (GuardsWithin G) m)
    (position : Position) (name : String) (arguments : List (Argument Value))
    {content : Option (List Node)}
    (hcontent : ∀ body ∈ content, ∀ n ∈ body, n.All (Statement.SetsOnly G)) :
    Leaves (GuardsConfined G) (expandMixin s position name arguments content) := by
  have hN := evaluating_confined (G := G)
  have hE := executing_within (G := G)
  refine reading_guards.scopes fun c hc => ?_
  split
  · exact hN.fail position _
  next mixin hmixin =>
    refine hN.bind (runArguments_keeps hN.toSteps (suspendArguments_holds fun a _ =>
      evaluate_keeps hN (invoke_confined s.calls) position true a.value)) fun passed => ?_
    refine hN.bind (hN.ofFault position _) fun bound => ?_
    refine reading_guards.scopes fun c' _ => ?_
    dsimp only
    split
    · exact hN.fail position _
    next calls _ =>
      refine calling_guards Scopes.Confined.refl _ _ (passing_guards (fun block hblock => ?_) ?_)
      · obtain ⟨body, hbody, rfl⟩ := Option.map_eq_some_iff.mp hblock
        exact hcontent body hbody
      · refine inScope_confined (hE.bind ?_ fun _ => hs.mixinBody _ _ (hc.of_mixin? hmixin))
        exact bindParameters_keeps hE (invoke_keeps hE calls) position bound

theorem Flatten.flattenRule_confined (position : Position) (own : List Selector)
    {m : Compile (List Node)} (h : Leaves (GuardsWithin G) m) :
    Leaves (GuardsConfined G) (flattenRule position own m) := by
  refine flattenRule_keeps evaluating_confined (fun at_ message c hc => ?_) reading_guards position
    own (inRule_confined h)
  exact ⟨⟨Scopes.Confined.refl c.scopes, rfl, rfl, fun _ => rfl⟩, hc.warn at_ message⟩

theorem Flatten.Enclosed.confined {calls imports blocks : Nat} {m : Compile (List Node)}
    (h : Flatten.Enclosed (Statement.SetsOnly G) (siteOf calls imports blocks) m) :
    Leaves (GuardsConfined G) m := by
  have hN := evaluating_confined (G := G)
  have hE := executing_within (G := G)
  have hs := siteOf_meets (expanding_within (G := G)) calls imports blocks
  have hnodes := flattenNodes_meets expanding_within hs
  cases h with
  | rule position own hbody => exact flattenRule_confined position own (hnodes _ hbody)
  | directive position hbody =>
      -- the directive is alone at the top level, and repeats the rule around it elsewhere
      refine reading_guards.scopes fun c _ => ?_
      split
      · exact inScope_confined (hnodes _ hbody)
      next selectors _ _ =>
        have hrule := flattenRule_confined position selectors (hnodes _ hbody)
        exact inRule_confined (fun c => (hrule c).within) .topLevel
  | atRule hbody => exact inRule_confined (hnodes _ hbody) .topLevel
  | block hbody => exact inScope_confined (hnodes _ hbody)
  | item names item hbody =>
      exact inScope_confined (hE.bind (bindItem_keeps hE names item) fun _ => hnodes _ hbody)
  | index counter i hbody =>
      exact inScope_confined (hE.bind (hE.define counter i) fun _ => hnodes _ hbody)
  | mixin position name arguments hcontent =>
      exact expandMixin_confined hs position name arguments hcontent
  | content => exact expandContent_confined hs.contentBody

/-- No name has left a scope of its own. Every frame around it binds the variables that it bound
before, with perhaps other values, and has the same mixins and functions; in the root frame only
variables of `G` are new. So whatever name is looked up from there, it was visible before, or it is
that of a variable of `G`. -/
structure Context.NamesStay (G : String → Prop) (c c' : Context) : Prop where
  inner : List.Forall₂ Frame.Stays c.scopes.inner c'.scopes.inner
  root : c.scopes.root.GainsValues c'.scopes.root
  gained : ∀ key, c'.scopes.root.values.has key → c.scopes.root.values.has key ∨ G key
  values : ∀ name, (c'.scopes.valueOf? name).isSome →
    (c.scopes.valueOf? name).isSome ∨ G (Text.nameKey name)
  mixins : ∀ name, c'.scopes.mixin? name = c.scopes.mixin? name
  functions : ∀ name, c'.scopes.function? name = c.scopes.function? name

theorem Compile.Leaves.namesStay {α : Type} {m : Compile α} (h : Leaves (GuardsConfined G) m)
    {c : Context} (hc : c.AllCode (Statement.SetsOnly G)) : c.NamesStay G (m.outcome c).2 := by
  have hconfined := (h c hc).1.scopes
  have haround := hconfined.around
  exact ⟨haround.inner, haround.root, hconfined.gained, fun _ => hconfined.isBound,
    haround.mixin?_eq, haround.function?_eq⟩

/--
**Names never leave a scope**, whether its body succeeds or fails.

Let all code that can be run from a context assign with `!global` only to variables of `G`: the body
itself, the mixins and functions in the frames, the content blocks on the stack, and the stylesheets
that the resolver finds. Then no name leaves

* a rule, a directive, a branch, a round of a loop, a mixin or a content block, wherever a stylesheet
  is being flattened, and however many calls, imports and content blocks may still nest there;
* a branch or a round of a loop in the body of a function;
* a function.
-/
theorem names_stay_in_scope (calls imports blocks : Nat) {c : Context}
    (hc : c.AllCode (Statement.SetsOnly G)) :
    (∀ m, Flatten.Enclosed (Statement.SetsOnly G) (siteOf calls imports blocks) m →
      c.NamesStay G (m.outcome c).2) ∧
    (∀ m, Evaluation.Enclosed (Statement.SetsOnly G) (invoke calls) m →
      c.NamesStay G (m.outcome c).2) ∧
    ∀ (d : Definition) arguments position, (∀ n ∈ d.body, n.All (Statement.SetsOnly G)) →
      c.NamesStay G ((invoke calls d arguments position).outcome c).2 := by
  refine ⟨fun m hm => ?_, fun m hm => ?_, fun d arguments position hbody => ?_⟩
  · exact hm.confined.namesStay hc
  · exact hm.confined.namesStay hc
  · exact (invoke_confined calls d hbody arguments position).namesStay hc

end

/-- A mixin that assigns to a variable of its own, and to one with `!global`. -/
def setsCounter : Definition where
  name := "count"
  signature := ⟨[⟨"step", none⟩], none⟩
  body := [.mk ⟨"", 2, 3⟩ (.assignment "own" (.variable "step") false false),
    .mk ⟨"", 3, 3⟩ (.assignment "counter" (.variable "own") false true)]

/-- A context in which the mixin is defined. -/
def countingContext : Context :=
  { Context.isolated with scopes := Context.isolated.scopes.defineMixin setsCounter }

/-- Of the parameter, the variable and the global of the mixin, the global stays. -/
theorem counter_stays :
    let included := expandMixin (siteOf 1 0 0) ⟨"", 6, 1⟩ "count" [⟨none, .word "one", false⟩] none
    let c' := (included.outcome countingContext).2
    countingContext.AllCode (Statement.SetsOnly (· = "counter")) ∧
      countingContext.NamesStay (· = "counter") c' ∧
      (c'.scopes.valueOf? "counter").isSome ∧ c'.scopes.valueOf? "own" = none ∧
      c'.scopes.valueOf? "step" = none := by
  have hbody : ∀ n ∈ setsCounter.body, n.All (Statement.SetsOnly (· = "counter")) := by
    intro n hn
    rcases List.mem_cons.mp hn with rfl | hn
    · exact .mk trivial fun _ h => absurd h List.not_mem_nil
    · obtain rfl := List.mem_singleton.mp hn
      exact .mk (by cbv) fun _ h => absurd h List.not_mem_nil
  have hcode : countingContext.AllCode (Statement.SetsOnly (· = "counter")) := by
    refine ⟨fun f hf => ?_, fun _ h => absurd h List.not_mem_nil, fun h => ?_⟩
    · obtain rfl := List.mem_singleton.mp hf
      refine ⟨fun e he => ?_, fun _ he => absurd he List.not_mem_nil⟩
      obtain rfl := List.mem_singleton.mp he
      exact hbody
    · cases h
  refine ⟨hcode, ?_, ?_⟩
  · refine (names_stay_in_scope 1 0 0 hcode).1 _ (.mixin _ _ _ fun _ h => ?_)
    cases h
  · cbv

end Scss
