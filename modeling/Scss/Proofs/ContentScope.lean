import Scss.Proofs.Following
import Scss.Proofs.Termination

/-!
# Content blocks are lexically scoped

A block that is passed to a mixin belongs to the place where it is written: it should see what is
visible at the `@include`, and an `@content` inside it should mean the block that is passed to the
mixin around that place. What a compile keeps of this is little. It counts the frames at the
`@include`, and takes away those above that number while the block is expanded; and it keeps one
stack of blocks, whose top is taken off in the meantime.

Here the blocks are expanded with what belongs to them instead. With every body it is known, as an
argument and not as a state, what was passed to the mixins around it (`Passing`): the block, and the
scopes themselves. A content block is expanded with what was passed to the mixins around its
`@include`. This is no different from what a compile does (`expandScoped`), and whenever a
content block begins, it finds the frames that were visible where it was passed, each in its place,
and one of its own (`Seen`).

The induction carries that the stack holds what is known, and that the frames below the number are
still those of the `@include` (`Inside`). Both are kept by whatever is done to the frames above.
-/

namespace Scss

/-! ## Frames below a depth -/

namespace Scopes

theorem one_le_depth (s : Scopes) : 1 ≤ s.depth := Nat.le_add_left _ _

/-- Frames that are all below the depth are not taken away. -/
theorem hideAbove_depth (s : Scopes) : (s.hideAbove s.depth).2 = s := by
  have hcount : s.depth - max 1 s.depth = 0 := by omega
  rw [hideAbove, hcount]
  rfl

theorem depth_hideAbove {s : Scopes} {depth : Nat} (h : depth ≤ s.depth) :
    (s.hideAbove depth).2.depth = max 1 depth := by
  have hone := s.one_le_depth
  show (s.inner.drop (s.depth - max 1 depth)).length + 1 = max 1 depth
  rw [List.length_drop]
  unfold Scopes.depth at h hone ⊢
  omega

/-- Frames can be taken away in two steps. -/
theorem hideAbove_hideAbove {s : Scopes} {lower depth : Nat} (hlower : lower ≤ depth)
    (h : depth ≤ s.depth) :
    ((s.hideAbove depth).2.hideAbove lower).2 = (s.hideAbove lower).2 := by
  have hcount : s.depth - max 1 depth + ((s.hideAbove depth).2.depth - max 1 lower) =
      s.depth - max 1 lower := by
    have hone := s.one_le_depth
    rw [depth_hideAbove h]
    omega
  show Scopes.mk ((s.inner.drop _).drop _) s.root = Scopes.mk (s.inner.drop _) s.root
  rw [List.drop_drop, hcount]

/-- The innermost frame is not below a smaller depth. -/
theorem hideAbove_leave {s : Scopes} {depth : Nat} (h : depth < s.depth) :
    (s.leave.hideAbove depth).2 = (s.hideAbove depth).2 := by
  obtain ⟨inner, root⟩ := s
  cases inner with
  | nil =>
      -- there is only the root frame, and it is never taken away
      rfl
  | cons f outer =>
      have hlength : depth < outer.length + 1 + 1 := h
      have hcount : outer.length + 1 + 1 - max 1 depth = outer.length + 1 - max 1 depth + 1 := by
        omega
      show Scopes.mk (outer.drop (outer.length + 1 - max 1 depth)) root =
        Scopes.mk ((f :: outer).drop (outer.length + 1 + 1 - max 1 depth)) root
      rw [hcount]
      rfl

/-- What is done around some frames is done around those below a depth. -/
theorem Around.hideAbove {s s' : Scopes} (h : Around s s') (depth : Nat) :
    Around (s.hideAbove depth).2 (s'.hideAbove depth).2 := by
  have hcount : s'.depth - max 1 depth = s.depth - max 1 depth := by
    rw [h.follows.depth]
  refine ⟨?_, h.root⟩
  show List.Forall₂ Frame.Stays (s.inner.drop _) (s'.inner.drop _)
  rw [hcount]
  exact List.forall₂_drop _ h.inner

/-- What follows has only been around the frames below a smaller depth. -/
theorem Follows.hideAbove {s s' : Scopes} (h : Follows s s') {depth : Nat} (hone : 1 ≤ depth)
    (hdepth : depth < s.depth) : Around (s.hideAbove depth).2 (s'.hideAbove depth).2 := by
  have hdepth' : depth < s'.depth := h.depth.symm ▸ hdepth
  rw [← hideAbove_leave hdepth, ← hideAbove_leave hdepth']
  cases h with
  | root _ =>
      -- below the root frame there is none
      exact absurd hdepth (Nat.not_lt.mpr hone)
  | inner _ ha => exact ha.hideAbove depth

end Scopes

namespace Compile

variable {α β : Type}

/-! ## Computations that go on alike -/

/-- Two computations that begin in the same way come to the same if they go on alike from there. -/
theorem outcome_bind_congr {m m' : Compile α} {f f' : α → Compile β} {c : Context}
    (hm : m'.outcome c = m.outcome c)
    (hf : ∀ a d, m.outcome c = (.ok a, d) → (f' a).outcome d = (f a).outcome d) :
    (m' >>= f').outcome c = (m >>= f).outcome c := by
  rw [outcome_bind, outcome_bind, hm]
  match h : m.outcome c with
  | (.ok a, d) => exact hf a d h
  | (.error failure, d) => rfl

theorem outcome_calling_congr {name : String} {position : Position} {m m' : Compile α} {c : Context}
    (h : ∀ d, c.enterCall name position = .ok d → m'.outcome d = m.outcome d) :
    (calling name position m').outcome c = (calling name position m).outcome c := by
  rw [outcome_calling, outcome_calling]
  cases hentered : c.enterCall name position with
  | error failure => rfl
  | ok d => simp only [h d hentered]

theorem outcome_passing_congr {block : Option ContentBlock} {m m' : Compile α} {c : Context}
    (h : m'.outcome (c.pushContent block) = m.outcome (c.pushContent block)) :
    (passing block m').outcome c = (passing block m).outcome c := by
  show ((m'.outcome _).1, (m'.outcome _).2.popContent) = _
  rw [h]
  rfl

theorem outcome_inScope_congr {m m' : Compile α} {c : Context}
    (h : m'.outcome (entered c) = m.outcome (entered c)) :
    (inScope m').outcome c = (inScope m).outcome c := by
  rw [outcome_inScope, outcome_inScope, h]

theorem outcome_importing_congr {uri base : String} {m m' : Compile α} {c : Context}
    (h : ∀ d, c.enterImport uri base = .ok d → m'.outcome d = m.outcome d) :
    (importing uri base m').outcome c = (importing uri base m).outcome c := by
  rw [importing, importing, outcome_get_bind, outcome_get_bind]
  cases hentered : c.enterImport uri base with
  | error failure => rfl
  | ok d =>
      show ((m'.outcome d).1, (m'.outcome d).2.exitImport) = _
      rw [h d hentered]
      rfl

end Compile

namespace Flatten

open Compile Context Evaluation

/-! ## Bodies from elsewhere -/

/-- What the body of a mixin finds when it begins: on top of the stack the block, with the number of
frames where the mixin is included, and behind the frame of the parameters these frames. -/
structure Included (c : Context) (content : Option (List Node)) (d : Context) : Prop where
  stack : d.contents = (content.map fun body => ⟨body, c.scopes.depth⟩) :: c.contents
  own : d.scopes.inner ≠ []
  frames : c.scopes.Follows d.scopes.leave

/-- Including a mixin comes to the same at two sites if the body does. -/
theorem expandMixin_congr {s s' : Site} (hcalls : s'.calls = s.calls) {c : Context}
    {content : Option (List Node)}
    (hbody : ∀ d nodes, Included c content d →
      (s'.mixinBody (s'.blocks + 1) nodes).outcome d = (s.mixinBody (s.blocks + 1) nodes).outcome d)
    (position : Position) (name : String) (arguments : List (Argument Value)) :
    (expandMixin s' position name arguments content).outcome c =
      (expandMixin s position name arguments content).outcome c := by
  have hE := executing_follows
  have hcaller : s'.caller = s.caller := congrArg invoke hcalls
  unfold expandMixin
  rw [hcaller, hcalls, outcome_scopes_bind, outcome_scopes_bind]
  cases c.scopes.mixin? name with
  | none => rfl
  | some mixin =>
      refine outcome_bind_congr rfl fun passed c₁ hpassed => ?_
      refine outcome_bind_congr rfl fun bound c₂ hbound => ?_
      -- evaluating the arguments leaves the frames and the stack
      have hfollows : Follows c c₂ := by
        have harguments : Leaves Follows
            (runArguments (suspendArguments s.caller position true arguments)) :=
          runArguments_keeps hE.toSteps (suspendArguments_holds fun a _ =>
            evaluate_keeps hE.toEvaluating (invoke_keeps hE s.calls) position true a.value)
        have hfirst := harguments c
        have hsecond := hE.ofFault position (mixin.signature.bind mixin.name passed) c₁
        rw [hpassed] at hfirst
        rw [hbound] at hsecond
        exact hfirst.trans hsecond
      rw [outcome_scopes_bind, outcome_scopes_bind]
      dsimp only
      split
      · rfl
      next calls _ =>
        refine outcome_calling_congr fun d hentered => ?_
        obtain ⟨-, rfl⟩ := of_enterCall hentered
        refine outcome_passing_congr (outcome_inScope_congr ?_)
        refine outcome_bind_congr rfl fun _ d hparameters => hbody d mixin.body ?_
        have hbinds := bindParameters_keeps hE (invoke_keeps hE calls) position bound (entered
          (Context.pushContent { c₂ with callDepth := c₂.callDepth + 1 }
            (content.map fun body => ⟨body, c₂.scopes.depth⟩)))
        rw [hparameters] at hbinds
        -- the parameters are bound in the innermost frame, and the others are those of the include
        have hscopes : Scopes.Follows ⟨Frame.empty :: c₂.scopes.inner, c₂.scopes.root⟩ d.scopes :=
          hbinds.scopes
        refine ⟨?_, ?_, hfollows.scopes.trans hscopes.leave.follows⟩
        · rw [hbinds.contents, ← hfollows.contents, ← hfollows.scopes.depth]
          rfl
        · intro hnil
          have hdepth := hscopes.depth
          rw [Scopes.depth, hnil] at hdepth
          exact absurd hdepth (by simp [Scopes.depth])

/-- The context in which a content block begins: without the block on the stack, without the frames
above those that it sees, in a scope of its own that is in the rule around the `@content`. -/
def atBlock (c : Context) (block : ContentBlock) : Context :=
  enteredRule c.scopes.parent
    { c.popContent with scopes := (c.scopes.hideAbove block.depth).2 }

/-- After a content block its scope is closed, the frames are put back and the block is on the stack
again. -/
theorem outcome_expandContent {s : Site} {c : Context} {block : ContentBlock}
    {below : List (Option ContentBlock)} (h : c.contents = some block :: below) :
    (expandContent s).outcome c =
      let (result, d) := (s.contentBody block.body).outcome (atBlock c block)
      (result, Context.pushContent
        { left d with scopes := (left d).scopes.restore (c.scopes.hideAbove block.depth).1 }
        (some block)) := by
  rw [expandContent, outcome_get_bind, h]
  rfl

theorem outcome_expandContent_nothing {s : Site} {c : Context}
    (h : ∀ block below, c.contents ≠ some block :: below) :
    (expandContent s).outcome c = (.ok [], c) := by
  rw [expandContent, outcome_get_bind]
  split
  next block below hcontents => exact absurd hcontents (h block below)
  · rfl

/-- A content block comes to the same at two sites if its body does where it begins. -/
theorem expandContent_congr {s s' : Site} {c : Context}
    (hbody : ∀ block below, c.contents = some block :: below →
      (s'.contentBody block.body).outcome (atBlock c block) =
        (s.contentBody block.body).outcome (atBlock c block)) :
    (expandContent s').outcome c = (expandContent s).outcome c := by
  by_cases h : ∃ block below, c.contents = some block :: below
  · obtain ⟨block, below, h⟩ := h
    rw [outcome_expandContent h, outcome_expandContent h, hbody block below h]
  · have hnone : ∀ block below, c.contents ≠ some block :: below := fun block below hc =>
      h ⟨block, below, hc⟩
    rw [outcome_expandContent_nothing hnone, outcome_expandContent_nothing hnone]

/-- An import comes to the same at two sites if the imported stylesheet does, where the frames and
the stack are as they were. -/
theorem expandImport_congr {s s' : Site} {c : Context}
    (hbody : ∀ d nodes, d.contents = c.contents → d.scopes = c.scopes →
      (s'.importedBody nodes).outcome d = (s.importedBody nodes).outcome d)
    (position : Position) (target : String) :
    (expandImport s' position target).outcome c = (expandImport s position target).outcome c := by
  unfold expandImport
  rw [outcome_get_bind, outcome_get_bind]
  cases c.resolve target with
  | error failure => rfl
  | ok found =>
      cases found with
      | none => rfl
      | some found =>
          dsimp only
          cases Stylesheet.read found.content found.uri with
          | error failure => rfl
          | ok stylesheet =>
              refine outcome_importing_congr fun d hentered => ?_
              obtain ⟨-, rfl⟩ := of_enterImport hentered
              exact hbody _ stylesheet.body rfl rfl

/-! ## What was passed -/

/-- What was passed to a mixin: the block, if any, and the scopes that were visible there. -/
structure Passing where
  block : Option (List Node)
  visible : Scopes

/-- How it stands on the stack of blocks: with the number of frames instead of the frames. -/
def Passing.entry (p : Passing) : Option ContentBlock :=
  p.block.map fun body => ⟨body, p.visible.depth⟩

/-- What was passed to a mixin whose body begins. -/
def passedIn (c : Context) : Passing :=
  ⟨(c.contents.head?.join).map ContentBlock.body, c.scopes.leave⟩

theorem Included.passedIn {c d : Context} {content : Option (List Node)}
    (h : Included c content d) : passedIn d = ⟨content, d.scopes.leave⟩ := by
  unfold Flatten.passedIn
  rw [h.stack]
  cases content <;> rfl

theorem Included.depth {c d : Context} {content : Option (List Node)} (h : Included c content d) :
    d.scopes.leave.depth = c.scopes.depth ∧ c.scopes.depth < d.scopes.depth := by
  have hleave : d.scopes.leave.depth = c.scopes.depth := h.frames.depth
  obtain ⟨f, outer, hinner⟩ := List.exists_cons_of_ne_nil h.own
  refine ⟨hleave, ?_⟩
  rw [← hleave]
  unfold Scopes.depth Scopes.leave
  rw [hinner]
  exact Nat.lt_succ_self _

/-- What a content block finds when it begins. -/
structure Seen (p : Passing) (outer : List Passing) (body : List Node) (c : Context) : Prop where
  /-- It is the block that was passed. -/
  passed : p.block = some body
  /-- It has a frame of its own, in which nothing is bound. -/
  own : ∃ parent, c.scopes.inner.head? = some { Frame.empty with parent := some parent }
  /-- Behind that are the frames that were visible where it was passed, each in its place, with the
  same names and at most other values. -/
  frames : p.visible.Around c.scopes.leave
  /-- In it `@content` stands for what was passed to the mixin around the place where it was passed
  itself. -/
  stack : c.contents = outer.map Passing.entry

/-- What holds while statements are expanded to whose mixins `around` was passed, the innermost
first: this is on the stack, and below each number of frames are still the frames that were
visible. -/
structure Inside (around : List Passing) (c : Context) : Prop where
  stack : c.contents = around.map Passing.entry
  nested : around.Pairwise fun p q => q.visible.depth < p.visible.depth
  below : ∀ p ∈ around, p.visible.depth < c.scopes.depth
  frames : ∀ p ∈ around, p.visible.Around (c.scopes.hideAbove p.visible.depth).2

namespace Inside

variable {around : List Passing} {c d : Context}

theorem nil (h : c.contents = []) : Inside [] c :=
  ⟨h, .nil, fun _ hp => absurd hp List.not_mem_nil, fun _ hp => absurd hp List.not_mem_nil⟩

theorem follows (h : Inside around c) (hd : Follows c d) : Inside around d where
  stack := hd.contents.trans h.stack
  nested := h.nested
  below p hp := hd.scopes.depth.symm ▸ h.below p hp
  frames p hp := (h.frames p hp).trans
    (hd.scopes.hideAbove p.visible.one_le_depth (h.below p hp))

/-- It holds in a scope above as well. -/
theorem above (h : Inside around c) (hstack : d.contents = c.contents)
    (hleave : d.scopes.leave = c.scopes) (hdepth : c.scopes.depth < d.scopes.depth) :
    Inside around d where
  stack := hstack.trans h.stack
  nested := h.nested
  below p hp := (h.below p hp).trans hdepth
  frames p hp := by
    rw [← Scopes.hideAbove_leave ((h.below p hp).trans hdepth), hleave]
    exact h.frames p hp

theorem congr (h : Inside around c) (hstack : d.contents = c.contents)
    (hscopes : d.scopes = c.scopes) : Inside around d :=
  ⟨hstack.trans h.stack, h.nested, hscopes ▸ h.below, hscopes ▸ h.frames⟩

theorem entered (h : Inside around c) : Inside around (entered c) :=
  h.above rfl rfl (Nat.lt_succ_self _)

theorem enteredRule (h : Inside around c) (parent : ParentBlock) :
    Inside around (enteredRule parent c) := h.above rfl rfl (Nat.lt_succ_self _)

/-- In the body of a mixin, what was passed to it is known besides. -/
theorem included (h : Inside around c) {content : Option (List Node)}
    (hd : Included c content d) : Inside (passedIn d :: around) d := by
  obtain ⟨hleave, hdepth⟩ := hd.depth
  have houtside : Inside around { c with scopes := d.scopes.leave } :=
    h.follows (Keeps.ofScopes hd.frames)
  have hinside : ∀ p ∈ around, p.visible.Around (d.scopes.hideAbove p.visible.depth).2 := by
    intro p hp
    rw [← Scopes.hideAbove_leave ((h.below p hp).trans hdepth)]
    exact houtside.frames p hp
  rw [hd.passedIn]
  refine ⟨?_, .cons (fun p hp => ?_) h.nested, ?_, ?_⟩
  · rw [hd.stack, h.stack, List.map_cons, ← hleave]
    rfl
  · rw [hleave]
    exact h.below p hp
  · refine List.forall_mem_cons.mpr ⟨?_, fun p hp => (h.below p hp).trans hdepth⟩
    rw [hleave]
    exact hdepth
  · refine List.forall_mem_cons.mpr ⟨?_, hinside⟩
    rw [← Scopes.hideAbove_leave (hleave.symm ▸ hdepth), Scopes.hideAbove_depth]
    exact Scopes.Around.refl _

/-- Where a content block begins, only what was passed around its own place is known. -/
theorem atBlock {p : Passing} {outer : List Passing} (h : Inside (p :: outer) c)
    {block : ContentBlock} {below : List (Option ContentBlock)}
    (hblock : c.contents = some block :: below) :
    Seen p outer block.body (atBlock c block) ∧ Inside outer (Flatten.atBlock c block) := by
  obtain ⟨hentry, hbelow⟩ := List.cons.inj (hblock.symm.trans h.stack)
  obtain ⟨body, hbody, rfl⟩ := Option.map_eq_some_iff.mp hentry.symm
  have hdepth := h.below p List.mem_cons_self
  have hvisible : (c.scopes.hideAbove p.visible.depth).2.depth = p.visible.depth := by
    rw [Scopes.depth_hideAbove (Nat.le_of_lt hdepth)]
    exact Nat.max_eq_right p.visible.one_le_depth
  have hstack : c.popContent.contents = outer.map Passing.entry := by
    rw [Context.popContent, hblock]
    exact hbelow
  refine ⟨⟨hbody, ⟨_, rfl⟩, h.frames p List.mem_cons_self, hstack⟩, ?_⟩
  -- the frames of those around were below those of `p`
  have houter : Inside outer
      { c.popContent with scopes := (c.scopes.hideAbove p.visible.depth).2 } := by
    obtain ⟨hlower, hnested⟩ := List.pairwise_cons.mp h.nested
    refine ⟨hstack, hnested, fun q hq => ?_, fun q hq => ?_⟩
    · rw [hvisible]
      exact hlower q hq
    · rw [Scopes.hideAbove_hideAbove (Nat.le_of_lt (hlower q hq)) (Nat.le_of_lt hdepth)]
      exact h.frames q (List.mem_cons_of_mem p hq)
  exact houter.enteredRule c.scopes.parent

end Inside

/-! ## The two ways to expand -/

/-- Expands statements, given what was passed to the mixins around them, the innermost first. -/
abbrev ScopedExpansion := List Passing → List Node → Compile (List Node)

section
variable (probe : Passing → List Passing → List Node → Compile Unit)

/-- Expands the body of a mixin, which begins when something has been passed to it. -/
def beginMixin (mixinBody : ScopedExpansion) (around : List Passing) (body : List Node) :
    Compile (List Node) := do
  mixinBody (passedIn (← get) :: around) body

/-- Expansion where so many calls may still nest. A content block is expanded with what was passed
around the place where it was passed itself, after a probe. -/
def expandBlocks (calls : Nat) (mixinBody importedBody : ScopedExpansion) : ScopedExpansion
  | [], nodes =>
    flattenNodes ⟨calls, 0, fun _ => beginMixin mixinBody [], importedBody [],
      fun _ => return []⟩ nodes
  | p :: outer, nodes =>
    flattenNodes ⟨calls, outer.length + 1, fun _ => beginMixin mixinBody (p :: outer),
      importedBody (p :: outer), fun body => do
        probe p outer body
        expandBlocks calls mixinBody importedBody outer body⟩ nodes

/-- Expansion by recursion on the imports that may still nest. -/
def importBlocks (calls : Nat) (mixinBody : Nat → ScopedExpansion) : Nat → ScopedExpansion
  | 0 => expandBlocks probe calls (mixinBody 0) fun _ _ => do
    throw (.limitExceeded .imports (← get).maxImportDepth)
  | imports + 1 =>
    expandBlocks probe calls (mixinBody (imports + 1)) (importBlocks calls mixinBody imports)

/-- Expansion by recursion on the calls that may still nest. -/
def expandScoped : Nat → Nat → ScopedExpansion
  | 0, imports => importBlocks probe 0 (fun _ _ _ => return []) imports
  | calls + 1, imports => importBlocks probe (calls + 1) (expandScoped calls) imports

/-- Where statements are expanded, given what was passed to the mixins around them. -/
def scopedSite (calls imports : Nat) (around : List Passing) : Site where
  calls := calls
  blocks := around.length
  mixinBody := match calls with
    | 0 => fun _ => beginMixin (fun _ _ => return []) around
    | calls + 1 => fun _ => beginMixin (expandScoped probe calls imports) around
  importedBody := match imports with
    | 0 => fun _ => do throw (.limitExceeded .imports (← get).maxImportDepth)
    | imports + 1 => expandScoped probe calls imports around
  contentBody := match around with
    | [] => fun _ => return []
    | p :: outer => fun body => do
      probe p outer body
      expandScoped probe calls imports outer body

theorem expandScoped_eq_flattenNodes (calls imports : Nat) (around : List Passing)
    (nodes : List Node) : expandScoped probe calls imports around nodes =
      flattenNodes (scopedSite probe calls imports around) nodes := by
  cases calls <;> cases imports <;> cases around <;> rfl

end

/-- Wherever it is known what was passed around, the one expansion does what the other does. -/
def SameInside (around : List Passing) (m m' : Compile (List Node)) : Prop :=
  Leaves Follows m ∧ ∀ c, Inside around c → m'.outcome c = m.outcome c

namespace SameInside

variable {around : List Passing} {m m' n n' : Compile (List Node)}

theorem append (h : SameInside around m m') (h' : SameInside around n n') :
    SameInside around (do let front ← m; return front ++ (← n))
      (do let front ← m'; return front ++ (← n')) := by
  have hE := executing_follows
  refine ⟨hE.bind h.1 fun _ => hE.bind h'.1 fun _ => hE.pure _, fun c hc => ?_⟩
  refine outcome_bind_congr (h.2 c hc) fun front d hfront => ?_
  have hd : Inside around d := hc.follows (by have := h.1 c; rwa [hfront] at this)
  exact outcome_bind_congr (h'.2 d hd) fun _ _ _ => rfl

theorem expandRule (h : SameInside around m m') (position : Position)
    (selectors outer : List Selector) {c : Context} (hc : Inside around c) :
    (expandRule position selectors outer m').outcome c =
      (Flatten.expandRule position selectors outer m).outcome c := by
  unfold Flatten.expandRule
  split
  · rfl
  · refine outcome_bind_congr ?_ fun _ _ _ => rfl
    rw [outcome_inRule, outcome_inRule, h.2 _ (hc.enteredRule (.rule selectors outer))]

theorem flattenRule (h : SameInside around m m') (position : Position) (own : List Selector) :
    SameInside around (flattenRule position own m) (Flatten.flattenRule position own m') := by
  refine ⟨flattenRule_follows position own h.1, fun c hc => ?_⟩
  rw [outcome_flattenRule, outcome_flattenRule]
  -- resolving the selectors leaves the frames and the stack
  split
  · refine outcome_bind_congr rfl fun selectors d hd => h.expandRule position _ _ (hc.follows ?_)
    have hstrip := strip_keeps executing_follows.toEvaluating executing_follows.warn position own c
    rwa [hd] at hstrip
  next parents outer _ =>
    refine outcome_bind_congr rfl fun selectors d hd => h.expandRule position _ _ (hc.follows ?_)
    have hnest := scoping_follows.steps.ofFault position (nest own parents) c
    rwa [hd] at hnest

theorem inRule (h : SameInside around m m') (parent : ParentBlock) :
    SameInside around (Compile.inScope do modifyScopes (·.setParent parent); m)
      (Compile.inScope do modifyScopes (·.setParent parent); m') := by
  refine ⟨fun c => (around_inScope h.1 parent c).follows, fun c hc => ?_⟩
  rw [outcome_inRule, outcome_inRule, h.2 _ (hc.enteredRule parent)]

theorem after {α : Type} {first : Compile α} {f f' : α → Compile (List Node)}
    (hfirst : Leaves Follows first) (hf : ∀ a, SameInside around (f a) (f' a)) :
    SameInside around (first >>= f) (first >>= f') := by
  refine ⟨executing_follows.bind hfirst fun a => (hf a).1, fun c hc => ?_⟩
  refine outcome_bind_congr rfl fun a d hd => (hf a).2 d (hc.follows ?_)
  have hleft := hfirst c
  rwa [hd] at hleft

theorem inScope (h : SameInside around m m') :
    SameInside around (Compile.inScope m) (Compile.inScope m') :=
  ⟨executing_follows.inScope h.1, fun _ hc => outcome_inScope_congr (h.2 _ hc.entered)⟩

/-- **Every step of flattening does the same** where the frames below are those that are known. -/
theorem relating : Relating (fun _ => True) (Leaves Follows) (SameInside around) where
  executing := executing_follows
  context := reading_of_leaves.get executing_follows.toSteps
  nothing := ⟨executing_follows.pure [], fun _ _ => rfl⟩
  raise failure := ⟨executing_follows.throw failure, fun _ _ => rfl⟩
  bare _ _ _ := ⟨executing_follows.pure _, fun _ _ => rfl⟩
  after := after
  append := append
  inScope := inScope
  topLevel h := h.inRule .topLevel
  rule {_ source _} hcall _ position _ _ h :=
    after (sourceSelectors_keeps executing_follows.toEvaluating hcall position source) fun own =>
      h.flattenRule position own
  bubbling position _ _ h := by
    refine after (Leaves.scopes scoping_follows) fun s => ?_
    split
    · exact h.inScope
    · exact (h.flattenRule position _).inRule .topLevel
  media position query _ _ h :=
    ⟨executing_follows.bind h.1 fun _ => executing_follows.pure _,
      fun c hc => outcome_bind_congr (h.2 c hc) fun _ _ _ => rfl⟩
  atRule position name prelude _ _ h :=
    ⟨executing_follows.bind h.1 fun _ => executing_follows.pure _,
      fun c hc => outcome_bind_congr (h.2 c hc) fun _ _ _ => rfl⟩
  recordExtend hcall _ position := expanding_follows.recordExtend hcall trivial position
  defineMixin := expanding_follows.defineMixin
  defineFunction := expanding_follows.defineFunction

end SameInside

section
variable {probe : Passing → List Passing → List Node → Compile Unit}

/-- The bodies of mixins come to the same, with what was passed known besides. -/
theorem expandMixin_sameInside {calls imports : Nat} {around : List Passing}
    (hbody : ∀ fewer, calls = fewer + 1 → ∀ p nodes, SameInside (p :: around)
      (expand fewer imports (around.length + 1) nodes)
      (expandScoped probe fewer imports (p :: around) nodes))
    (position : Position) (name : String) (arguments : List (Argument Value))
    (content : Option (List Node)) : SameInside around
      (expandMixin (siteOf calls imports around.length) position name arguments content)
      (expandMixin (scopedSite probe calls imports around) position name arguments content) := by
  have hsite := siteOf_meets expanding_follows calls imports around.length
  have hcalls : (scopedSite probe calls imports around).calls =
      (siteOf calls imports around.length).calls := rfl
  refine ⟨expandMixin_meets expanding_follows hsite position name arguments
    fun body _ => Node.all_trivial body, fun c hc => ?_⟩
  refine expandMixin_congr hcalls (fun d body hd => ?_) position name arguments
  cases calls with
  | zero => rfl
  | succ fewer => exact (hbody fewer rfl (passedIn d) body).2 d (hc.included hd)

/-- Imported stylesheets come to the same. -/
theorem expandImport_sameInside {calls imports : Nat} {around : List Passing}
    (hbody : ∀ fewer, imports = fewer + 1 → ∀ nodes, SameInside around
      (expand calls fewer around.length nodes) (expandScoped probe calls fewer around nodes))
    (position : Position) (target : String) : SameInside around
      (expandImport (siteOf calls imports around.length) position target)
      (expandImport (scopedSite probe calls imports around) position target) := by
  have hsite := siteOf_meets expanding_follows calls imports around.length
  refine ⟨expandImport_meets expanding_follows hsite position target, fun c hc => ?_⟩
  refine expandImport_congr (fun d body hstack hscopes => ?_) position target
  cases imports with
  | zero => rfl
  | succ fewer => exact (hbody fewer rfl body).2 d (hc.congr hstack hscopes)

variable
  (hprobe : ∀ p outer body c, Seen p outer body c → (probe p outer body).outcome c = (.ok (), c))
include hprobe

/-- Content blocks come to the same, with what was passed around their own places. -/
theorem expandContent_sameInside {calls imports : Nat} {around : List Passing}
    (hbody : ∀ p outer, around = p :: outer → ∀ nodes, SameInside outer
      (expand calls imports outer.length nodes) (expandScoped probe calls imports outer nodes)) :
    SameInside around (expandContent (siteOf calls imports around.length))
      (expandContent (scopedSite probe calls imports around)) := by
  have hsite := siteOf_meets expanding_follows calls imports around.length
  refine ⟨expandContent_follows fun nodes => hsite.contentBody nodes (Node.all_trivial nodes),
    fun c hc => ?_⟩
  refine expandContent_congr fun block below hblock => ?_
  cases around with
  | nil =>
      -- then there is no block on the stack
      rw [hc.stack] at hblock
      cases hblock
  | cons p outer =>
      obtain ⟨hseen, houter⟩ := hc.atBlock hblock
      have hsilent := hprobe p outer block.body (atBlock c block) hseen
      show (probe p outer block.body >>= fun _ =>
        expandScoped probe calls imports outer block.body).outcome _ = _
      rw [outcome_bind_ok hsilent]
      exact (hbody p outer rfl block.body).2 _ houter

/-- **What is known is what a compile goes by.** -/
theorem expand_sameInside (calls imports : Nat) (around : List Passing) (nodes : List Node) :
    SameInside around (expand calls imports around.length nodes)
      (expandScoped probe calls imports around nodes) := by
  have hsites : SitesRelate (fun _ => True) (SameInside around)
      (siteOf calls imports around.length) (scopedSite probe calls imports around) := by
    refine ⟨rfl, fun position name arguments content _ => ?_, fun position target => ?_, ?_⟩
    · refine expandMixin_sameInside (fun fewer hfewer p body => ?_) position name arguments content
      subst hfewer
      exact expand_sameInside fewer imports (p :: around) body
    · refine expandImport_sameInside (fun fewer hfewer body => ?_) position target
      subst hfewer
      exact expand_sameInside calls fewer around body
    · refine expandContent_sameInside hprobe fun p outer houter body => ?_
      subst houter
      exact expand_sameInside calls imports outer body
  rw [expand_eq_flattenNodes, expandScoped_eq_flattenNodes]
  exact flattenNodes_relate SameInside.relating hsites nodes (Node.all_trivial nodes)
termination_by (calls, imports, around.length)

end

/-! ## What a content block can reach -/

/-- In a content block the mixins and functions are found that are found where it was passed, and no
variables that are bound elsewhere than there or globally. -/
theorem Seen.finds {p : Passing} {outer : List Passing} {body : List Node} {c : Context}
    (h : Seen p outer body c) (name : String) :
    c.scopes.mixin? name = p.visible.mixin? name ∧
      c.scopes.function? name = p.visible.function? name ∧
      ((c.scopes.valueOf? name).isSome →
        (p.visible.valueOf? name).isSome ∨ c.scopes.root.values.has (Text.nameKey name)) := by
  obtain ⟨parent, hown⟩ := h.own
  obtain ⟨inner, hinner⟩ : ∃ inner,
      c.scopes.inner = { Frame.empty with parent := some parent } :: inner := by
    cases hc : c.scopes.inner with
    | nil => rw [hc] at hown; cases hown
    | cons f inner => rw [hc] at hown; exact ⟨inner, by rw [Option.some.inj hown]⟩
  -- nothing is found in its own frame
  have hframes : c.scopes.frames =
      { Frame.empty with parent := some parent } :: c.scopes.leave.frames := by
    unfold Scopes.frames Scopes.leave
    rw [hinner]
    rfl
  refine ⟨?_, ?_, fun hbound => h.frames.isBound ?_⟩
  · rw [← h.frames.mixin?_eq, Scopes.mixin?, hframes]
    rfl
  · rw [← h.frames.function?_eq, Scopes.function?, hframes]
    rfl
  · rw [Scopes.valueOf?, hframes] at hbound
    exact hbound

/-- A content block leaves the frames alone that it does not see. -/
theorem hidden_expandContent {s : Site} {c : Context} {block : ContentBlock}
    {below : List (Option ContentBlock)} (h : c.contents = some block :: below) :
    ∃ seen, ((expandContent s).outcome c).2.scopes.inner =
      (c.scopes.hideAbove block.depth).1 ++ seen := by
  rw [outcome_expandContent h]
  exact ⟨_, rfl⟩

/-- Expands the statements of a stylesheet, to which nothing was passed. -/
def expandAlone (probe : Passing → List Passing → List Node → Compile Unit) (nodes : List Node) :
    Compile (List Node) := do
  let c ← get
  expandScoped probe (callsLeft c) (c.maxImportDepth + 1) [] nodes

end Flatten

open Flatten Compile in
/--
**Content blocks are lexically scoped.**

A compile does what is done when every content block is expanded with what was passed to the mixins
around the place where it is passed itself, and it makes no difference if a probe is run whenever a
block begins, as long as it goes unnoticed where the block finds what it should (`Seen`): the frames
that were visible where it was passed, each in its place, behind a frame of its own, and on the
stack what `@content` is to stand for in it. What is passed to a mixin is known where its body
begins: it is the block that is written at the `@include`, and the scopes are those in which the
mixin is included, behind a frame for the parameters (`Included`).

So of the mixins and functions, a content block finds those that are found where it was passed, and
no variable that is bound neither there nor globally. The frames that it does not see are left as
they are.
-/
theorem content_is_lexically_scoped :
    (∀ (s : Stylesheet) (c : Context) (probe : Passing → List Passing → List Node → Compile Unit),
      c.contents = [] →
      (∀ p outer body d, Seen p outer body d → (probe p outer body).outcome d = (.ok (), d)) →
        (s.compileBy (expandAlone probe)).outcome c = s.compile.outcome c) ∧
    (∀ (s : Site) (c : Context) (content : Option (List Node)) (probe : Compile Unit),
      (∀ d, Included c content d → passedIn d = ⟨content, d.scopes.leave⟩ →
        probe.outcome d = (.ok (), d)) →
      ∀ position name arguments,
        let probing : Site := { s with mixinBody := fun blocks body => do
          probe
          s.mixinBody blocks body }
        (expandMixin probing position name arguments content).outcome c =
          (expandMixin s position name arguments content).outcome c) ∧
    (∀ p outer body d, Seen p outer body d → ∀ name,
      d.scopes.mixin? name = p.visible.mixin? name ∧
      d.scopes.function? name = p.visible.function? name ∧
      ((d.scopes.valueOf? name).isSome →
        (p.visible.valueOf? name).isSome ∨ d.scopes.root.values.has (Text.nameKey name))) ∧
    (∀ (s : Site) (c : Context) (block : ContentBlock) (below : List (Option ContentBlock)),
      c.contents = some block :: below →
        ∃ seen, ((expandContent s).outcome c).2.scopes.inner =
          (c.scopes.hideAbove block.depth).1 ++ seen) := by
  refine ⟨fun s c probe hc hprobe => ?_, fun s c content probe hprobe position name arguments => ?_,
    fun p outer body d h => h.finds, fun s c block below h => hidden_expandContent h⟩
  · refine Stylesheet.outcome_compileBy rfl ?_
    have hroot : (c.enterRoot s.uri).contents = [] := hc
    rw [expandAlone, outcome_get_bind, hroot]
    exact (expand_sameInside hprobe _ _ [] s.body).2 _ (Inside.nil hroot)
  · intro probing
    have hcalls : probing.calls = s.calls := rfl
    refine expandMixin_congr hcalls (fun d nodes hd => ?_) position name arguments
    exact outcome_bind_ok (hprobe d hd hd.passedIn)

/-- `@mixin inner { $x: 1; @content; } @mixin outer { @include inner { @content; } }`, and a rule
`.a { @include outer { color: red; } }`. -/
def passedOn : Stylesheet := ⟨"", none, [
  .mk default (.mixin "inner" ⟨[], none⟩ [
    .mk default (.assignment "x" (.word "red") false false),
    .mk default .content]),
  .mk default (.mixin "outer" ⟨[], none⟩ [
    .mk default (.includeMixin "inner" [] (some [.mk default .content]))]),
  .mk default (.rule (.parsed [.ofClass "a"]) [
    .mk default (.includeMixin "outer" [] (some [
      .mk default (.declaration (Interpolation.literal "color") (.word "red") false)]))])]⟩

namespace Flatten

open Compile

/-- Fails unless there is one frame more than where the block was passed. -/
def countFrames (p : Passing) (_ : List Passing) (_ : List Node) : Compile Unit := do
  let s ← scopes
  if s.depth = p.visible.depth + 1 then return () else throw (.limitExceeded .imports 0)

set_option maxRecDepth 2000 in
/-- A block that is passed on from mixin to mixin stands in the rule at last, and each time it
begins there is one frame more than where it was passed. -/
theorem passedOn_scoped : deepContext.contents = [] ∧
    ((passedOn.compileBy (expandAlone countFrames)).outcome deepContext).1.toOption.map
      (fun css => css.body.length) = some 1 := by
  have hsilent : ∀ p outer body d, Seen p outer body d →
      (countFrames p outer body).outcome d = (.ok (), d) := by
    intro p outer body d hseen
    have hbehind : d.scopes.leave.depth = p.visible.depth := hseen.frames.follows.depth
    obtain ⟨parent, hown⟩ := hseen.own
    have hdepth : d.scopes.depth = p.visible.depth + 1 := by
      rw [← hbehind]
      unfold Scopes.depth Scopes.leave
      cases hinner : d.scopes.inner with
      | nil => rw [hinner] at hown; cases hown
      | cons f inner => rfl
    rw [countFrames, outcome_scopes_bind, if_pos hdepth]
    rfl
  refine ⟨rfl, ?_⟩
  rw [content_is_lexically_scoped.1 passedOn deepContext countFrames rfl hsilent]
  cbv

end Flatten

end Scss
