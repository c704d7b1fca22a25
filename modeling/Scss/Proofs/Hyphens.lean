import Scss.Proofs.EvaluatingRespelled
import Scss.Proofs.Expanding
import Scss.Proofs.Following

/-!
# Hyphens and underscores are interchangeable

Two spellings of a stylesheet are compiled next to each other. Every step that looks up or binds a name
does so by its key, and bodies that are kept for later are kept in both spellings; so by induction on
statements, and on what may still nest, both are expanded to the same (`expand_same`). The statements
that are left have no names of this kind any more, and applying the extensions is the same for both.

One direction needs that the arguments whose names are spelled in two ways are bound, and not written
out with a call that is left to CSS. It is asked for by a context in which such a call fails
(`Context.guarding`): where a stylesheet compiles all the same, there was none.
-/

namespace Scss

namespace Flatten

open Compile Evaluation

variable {functions : List String}

/-! ## Rules and directives -/

section
variable {call : Caller} (hcall : CallerEchoes functions call)
include hcall

/-- Respelling a text leaves what it evaluates to, and selectors are read off that. -/
theorem sourceSelectors_same {source source' : SelectorSource}
    (h : source.Respelled functions source') (position : Position) :
    Same functions (sourceSelectors call position source)
      (sourceSelectors call position source') := by
  cases h with
  | parsed selectors => exact Echoes.pure rfl
  | interpolated h =>
      refine Echoes.step (interpolate_same hcall h position) fun text => ?_
      split
      · exact Echoes.pure rfl
      · exact Echoes.throw

/-- Both spellings of a name evaluate to one text, and both spellings of a value to one value. -/
theorem flattenDeclaration_same {name name' : Interpolation} {value value' : Value}
    (hname : name.Respelled functions name') (hvalue : value.Respelled functions value')
    (position : Position) (important : Bool) :
    Same functions (flattenDeclaration call position name value important)
      (flattenDeclaration call position name' value' important) := by
  refine Echoes.step (interpolate_same hcall hname position) fun text => ?_
  refine Echoes.step (evaluate_same hcall hvalue position false) fun v => ?_
  refine Echoes.reading fun c c' hc => ?_
  rw [hc.urlBase, hc.urlMode]
  exact Echoes.pure rfl

/-- The same extension is recorded, at the same place. -/
theorem recordExtend_same {target target' : SelectorSource} (h : target.Respelled functions target')
    (position : Position) (optional : Bool) :
    Same functions (recordExtend call position target optional)
      (recordExtend call position target' optional) := by
  refine Echoes.readingScopes fun c c' hc => ?_
  rw [hc.scopes.parent_eq]
  split
  · exact Echoes.fail
  · refine Echoes.step (sourceSelectors_same hcall h position) fun targets => ?_
    refine Echoes.forM (List.forall₂_same.mpr fun _ _ => rfl) fun t t' ht => ?_
    obtain rfl : t = t' := ht
    split
    · exact Echoes.throw
    · refine Echoes.forM (List.forall₂_same.mpr fun _ _ => rfl) fun s s' hs => ?_
      obtain rfl : s = s' := hs
      exact Echoes.modify fun hc => hc.addExtension _

end

theorem strip_same (position : Position) (selectors : List Selector) :
    Same functions (strip position selectors) (strip position selectors) := by
  induction selectors with
  | nil => exact Echoes.pure rfl
  | cons s rest ih =>
      refine Echoes.ite ?_ (Echoes.step ih fun _ => Echoes.pure rfl)
      exact Echoes.step (warn_same position _) fun _ => Echoes.step ih fun _ => Echoes.pure rfl

theorem inRule_same (parent : ParentBlock) {m m' : Compile (List Node)} (h : Same functions m m') :
    Same functions (inScope do modifyScopes (·.setParent parent); m)
      (inScope do modifyScopes (·.setParent parent); m') :=
  inScope_same (Echoes.step (Echoes.modify fun hc => hc.withScopes (hc.scopes.setParent parent))
    fun _ => h)

/-- The frames around the body match, as the selectors do. -/
theorem flattenRule_same (position : Position) (own : List Selector) {m m' : Compile (List Node)}
    (h : Same functions m m') :
    Same functions (flattenRule position own m) (flattenRule position own m') := by
  have hrule : ∀ selectors outer, Same functions (expandRule position selectors outer m)
      (expandRule position selectors outer m') := fun _ _ =>
    Echoes.ite (Echoes.pure rfl) (Echoes.step (inRule_same _ h) fun _ => Echoes.pure rfl)
  refine Echoes.readingScopes fun c c' hc => ?_
  rw [hc.scopes.parent_eq]
  split
  · exact Echoes.step (strip_same position own) fun kept => hrule kept []
  next parents _ _ =>
    exact Echoes.step (Echoes.ofFault_refl position _) fun selectors => hrule selectors parents

theorem flattenBubbling_same (position : Position) {m m' : Compile (List Node)}
    (h : Same functions m m') :
    Same functions (flattenBubbling position m) (flattenBubbling position m') := by
  refine Echoes.readingScopes fun c c' hc => ?_
  rw [hc.scopes.parent_eq]
  split
  · exact inScope_same h
  · exact inRule_same _ (flattenRule_same position _ h)

/-! ## Loops -/

theorem forEach_same {α : Type} {run run' : α → Compile (List Node)}
    (h : ∀ a, Same functions (run a) (run' a)) (items : List α) :
    Same functions (forEach run items) (forEach run' items) := by
  induction items with
  | nil => exact Echoes.pure rfl
  | cons a rest ih => exact Echoes.step (h a) fun _ => Echoes.step ih fun _ => Echoes.pure rfl

theorem whileHolds_same {condition condition' : Compile Bool} {run run' : Compile (List Node)}
    (hc : Same functions condition condition') (h : Same functions run run') (rounds : Nat) :
    Same functions (whileHolds condition run rounds) (whileHolds condition' run' rounds) := by
  induction rounds with
  | zero => exact Echoes.step hc fun again => Echoes.ite Echoes.throw (Echoes.pure rfl)
  | succ rounds ih =>
      refine Echoes.step hc fun again => Echoes.ite ?_ (Echoes.pure rfl)
      exact Echoes.step h fun _ => Echoes.step ih fun _ => Echoes.pure rfl

/-! ## Bodies from elsewhere -/

/-- A site at which two spellings of a body from elsewhere are expanded to the same. -/
structure Site.Echoes (functions : List String) (s : Site) : Prop where
  mixinBody : ∀ blocks {nodes nodes' : List Node}, NodesMatch functions nodes nodes' →
    Same functions (s.mixinBody blocks nodes) (s.mixinBody blocks nodes')
  importedBody : ∀ nodes, Same functions (s.importedBody nodes) (s.importedBody nodes)
  contentBody : ∀ {nodes nodes' : List Node}, NodesMatch functions nodes nodes' →
    Same functions (s.contentBody nodes) (s.contentBody nodes')

section
variable {s : Site} (hs : s.Echoes functions)

theorem caller_echoes : CallerEchoes functions s.caller := invoke_echoes s.calls

include hs

/-- An imported file is the same in both runs, and found by the same target. -/
theorem expandImport_same (position : Position) (target : String) :
    Same functions (expandImport s position target) (expandImport s position target) := by
  refine Echoes.reading fun c c' hc => ?_
  rw [hc.resolve, hc.urlBase]
  split
  · exact Echoes.throw
  · exact Echoes.throw
  next found _ =>
    split
    · exact Echoes.throw
    next stylesheet _ =>
      refine Echoes.reading fun c c' hc => ?_
      cases hentered : c.enterImport found.uri _ with
      | error failure => exact Echoes.throw
      | ok e =>
          obtain ⟨e', hentered', he⟩ := hc.enterImport hentered
          rw [hentered']
          exact Echoes.within (fun _ => e) (fun _ => e') (fun _ => Context.exitImport)
            (fun _ => Context.exitImport) (fun _ => rfl) (fun _ => rfl)
            (hs.importedBody stylesheet.body) (fun _ => he) fun _ hd => hd.exitImport

theorem importAs_same (position : Position) (target : Value) (media : String) :
    Same functions (importAs s position target media) (importAs s position target media) := by
  unfold importAs
  split
  · exact expandImport_same hs position _
  · refine Echoes.reading fun c c' hc => ?_
    rw [hc.urlBase, hc.urlMode]
    exact Echoes.pure rfl

theorem flattenImport_same {target target' : Value} {media media' : Option Interpolation}
    (htarget : target.Respelled functions target')
    (hmedia : Option.Rel (Interpolation.Respelled functions) media media') (position : Position) :
    Same functions (flattenImport s position target media)
      (flattenImport s position target' media') := by
  refine Echoes.step (evaluate_same caller_echoes htarget position false) fun value => ?_
  cases hmedia with
  | none => exact importAs_same hs position value ""
  | some h =>
      exact Echoes.step (interpolate_same caller_echoes h position) fun text =>
        importAs_same hs position value (Text.trim text)

/-- The mixin is found under both spellings, its parameters take the same arguments, and its body
matches. -/
theorem expandMixin_same {name name' : String} {arguments arguments' : List (Argument Value)}
    {content content' : Option (List Node)} (hname : SameName name name')
    (harguments : List.Forall₂ (Argument.Rel SameName (Value.Respelled functions)) arguments
      arguments') (hcontent : Option.Rel (NodesMatch functions) content content')
    (position : Position) :
    Same functions (expandMixin s position name arguments content)
      (expandMixin s position name' arguments' content') := by
  refine Echoes.readingScopes fun c c' hc => ?_
  -- both spellings find a mixin, or neither does
  have hmixin := hc.scopes.mixin? hname
  generalize c.scopes.mixin? name = o at hmixin ⊢
  generalize c'.scopes.mixin? name' = o' at hmixin ⊢
  cases hmixin with
  | none => exact Echoes.fail
  | @some d d' hd =>
      obtain ⟨N, hN, hsame, hsignature⟩ := hd.signature
      refine Echoes.bind (passed_same caller_echoes harguments position) fun passed passed' ha => ?_
      refine Echoes.bind (Echoes.ofFault fun bound hbound =>
        Signature.bind_rel hN hsame hsignature ha hbound) fun bound bound' hbound => ?_
      refine Echoes.readingScopes fun e e' he => ?_
      rw [he.scopes.depth]
      dsimp only
      split
      · -- the mixin is called too deep, in both
        exact Echoes.fail
      next calls _ =>
        -- the block of the call goes with the depth of the scopes that it sees
        have hblock : Option.Rel (ContentBlock.Matches functions)
            (content.map fun body => (⟨body, e.scopes.depth⟩ : ContentBlock))
            (content'.map fun body => ⟨body, e.scopes.depth⟩) := by
          cases hcontent with
          | none => exact .none
          | some h => exact .some ⟨h, rfl⟩
        have hrun : Same functions
            (do bindParameters (invoke calls) position bound; s.mixinBody (s.blocks + 1) d.body)
            (do bindParameters (invoke calls) position bound'; s.mixinBody (s.blocks + 1) d'.body) :=
          Echoes.step (bindParameters_same (invoke_echoes calls) hsame hbound position) fun _ =>
            hs.mixinBody _ hd.body
        refine calling_same ?_
        exact Echoes.within (·.pushContent _) (·.pushContent _) (fun _ d => d.popContent)
          (fun _ d => d.popContent) (fun _ => rfl) (fun _ => rfl) (inScope_same hrun)
          (fun hc => hc.pushContent hblock) fun _ hd => hd.popContent

/-- The block is the one that was passed, respelled, and runs in the frames of its own scope. -/
theorem expandContent_same : Same functions (expandContent s) (expandContent s) := by
  refine Echoes.reading fun c c' hc => ?_
  have hcontents := hc.contents
  generalize c.contents = bs at hcontents ⊢
  generalize c'.contents = bs' at hcontents ⊢
  cases hcontents with
  | nil => exact Echoes.pure rfl
  | cons hblock _ =>
      cases hblock with
      | none => exact Echoes.pure rfl
      | @some b b' hb =>
          refine Echoes.readingScopes fun e e' he => ?_
          -- the block runs in the scopes of its caller, and the frames above these are hidden
          rw [he.scopes.parent_eq, hb.depth]
          have hseen : Same functions
              (seeing b.depth (inScope do modifyScopes (·.setParent e.scopes.parent); s.contentBody b.body))
              (seeing b.depth (inScope do modifyScopes (·.setParent e.scopes.parent); s.contentBody b'.body)) :=
            Echoes.within (fun c => { c with scopes := (c.scopes.hideAbove b.depth).2 })
              (fun c => { c with scopes := (c.scopes.hideAbove b.depth).2 })
              (fun c d => { d with scopes := d.scopes.restore (c.scopes.hideAbove b.depth).1 })
              (fun c d => { d with scopes := d.scopes.restore (c.scopes.hideAbove b.depth).1 })
              (fun _ => rfl) (fun _ => rfl) (inRule_same _ (hs.contentBody hb.body))
              (fun hc => hc.withScopes (hc.scopes.hideAbove _))
              fun hc hd => hd.withScopes (hc.scopes.restore _ hd.scopes)
          exact Echoes.within (·.popContent) (·.popContent) (fun _ d => d.pushContent _)
            (fun _ d => d.pushContent _) (fun _ => rfl) (fun _ => rfl) hseen
            (fun hc => hc.popContent) fun _ hd => hd.pushContent (.some hb)

/-! ## Statements -/

omit hs in
/-- Matching statement by statement is enough. -/
theorem flattenNodes_of_nodes {nodes nodes' : List Node}
    (h : List.Forall₂ (fun n n' => Same functions (flattenNode s n) (flattenNode s n')) nodes nodes') :
    Same functions (flattenNodes s nodes) (flattenNodes s nodes') := by
  induction h with
  | nil => exact Echoes.pure rfl
  | cons hn _ ih =>
      rw [flattenNodes, flattenNodes]
      exact Echoes.step hn fun _ => Echoes.step ih fun _ => Echoes.pure rfl

omit hs in
theorem flattenBranches_of_bodies {position : Position}
    {alternatives alternatives' : List (Option Value × List Node)}
    (h : List.Forall₂ (fun a a' => Option.Rel (Value.Respelled functions) a.1 a'.1) alternatives
      alternatives')
    (hbodies : List.Forall₂ (fun body body' => Same functions (flattenNodes s body)
      (flattenNodes s body')) (alternatives.map Prod.snd) (alternatives'.map Prod.snd)) :
    Same functions (flattenBranches s position alternatives)
      (flattenBranches s position alternatives') := by
  induction h with
  | nil => exact Echoes.pure rfl
  | @cons a a' rest rest' ha _ ih =>
      obtain ⟨condition, body⟩ := a
      obtain ⟨condition', body'⟩ := a'
      obtain ⟨hbody, hrest⟩ := List.forall₂_cons.mp hbodies
      cases ha with
      | none =>
          rw [flattenBranches, flattenBranches]
          exact inScope_same hbody
      | some hv =>
          rw [flattenBranches, flattenBranches]
          refine Echoes.step (holds_same caller_echoes hv position) fun taken => ?_
          exact Echoes.ite (inScope_same hbody) (ih hrest)

/-- **Two spellings of a statement are expanded to the same**, if the bodies from elsewhere are. -/
theorem flattenNode_same {n n' : Node} (h : Node.Paired (Statement.Matches functions) n n') :
    Same functions (flattenNode s n) (flattenNode s n') := by
  refine h.induction (P := fun n n' => Same functions (flattenNode s n) (flattenNode s n'))
    fun position t t' own inside => ?_
  have hnodes : List.Forall₂ (NodesMatch functions) t.bodies t'.bodies :=
    inside.imp fun body body' h => h.imp fun n n' h => h.1
  have hbodies : List.Forall₂ (fun body body' => Same functions (flattenNodes s body)
      (flattenNodes s body')) t.bodies t'.bodies :=
    inside.imp fun body body' h => flattenNodes_of_nodes (h.imp fun n n' h => h.2)
  -- a body is kept as it was spelled where it is run later, and expanded where it is run here
  clear inside h
  obtain ⟨own, hsignature⟩ := own
  rw [flattenNode, flattenNode]
  cases own with
  | rule h body body' =>
      rw [flattenStatement, flattenStatement]
      refine Echoes.step (sourceSelectors_same caller_echoes h position) fun selectors => ?_
      exact flattenRule_same position selectors (List.forall₂_cons.mp hbodies).1
  | declaration important hname hvalue =>
      rw [flattenStatement, flattenStatement]
      exact Echoes.step (flattenDeclaration_same caller_echoes hname hvalue position _) fun _ =>
        Echoes.pure rfl
  | assignment ifUnset isGlobal hname hvalue =>
      rw [flattenStatement, flattenStatement]
      exact Echoes.step (assign_same caller_echoes hname hvalue position _ _) fun _ => Echoes.pure rfl
  | media h body body' =>
      rw [flattenStatement, flattenStatement]
      refine Echoes.step (interpolate_same caller_echoes h position) fun text => ?_
      exact Echoes.step (flattenBubbling_same position (List.forall₂_cons.mp hbodies).1) fun _ =>
        Echoes.pure rfl
  | extend optional h =>
      rw [flattenStatement, flattenStatement]
      exact Echoes.step (recordExtend_same caller_echoes h position _) fun _ => Echoes.pure rfl
  -- a mixin and a function are kept as they are spelled, and run where they are called
  | @mixin name name' signature signature' hname _ body body' =>
      have hd : Definition.Matches functions ⟨name, signature, body⟩ ⟨name', signature', body'⟩ :=
        ⟨hsignature _ rfl _ rfl, (List.forall₂_cons.mp hnodes).1⟩
      exact Echoes.step (Echoes.modify fun hc => hc.withScopes (hc.scopes.defineMixin hname hd))
        fun _ => Echoes.pure rfl
  | @function name signature signature' _ body body' =>
      have hd : Definition.Matches functions ⟨name, signature, body⟩ ⟨name, signature', body'⟩ :=
        ⟨hsignature _ rfl _ rfl, (List.forall₂_cons.mp hnodes).1⟩
      exact Echoes.step (Echoes.modify fun hc => hc.withScopes
        (hc.scopes.defineFunction (SameName.refl name) hd)) fun _ => Echoes.pure rfl
  | @includeMixin _ _ _ _ content content' hname harguments hcontent =>
      rw [flattenStatement, flattenStatement]
      refine expandMixin_same hs hname harguments ?_ position
      cases content with
      -- there is a block in both spellings or in neither
      | none => cases content' with
        | none => exact .none
        | some _ => cases hcontent
      | some _ => cases content' with
        | none => cases hcontent
        | some _ => exact .some (List.forall₂_cons.mp hnodes).1
  | content =>
      rw [flattenStatement]
      exact expandContent_same hs
  | returnValue _ => exact Echoes.fail
  | branches h =>
      rw [flattenStatement, flattenStatement]
      exact flattenBranches_of_bodies h hbodies
  | eachLoop hnames hlist body body' =>
      rw [flattenStatement, flattenStatement]
      refine Echoes.step (eachItems_same caller_echoes hlist position) fun items => ?_
      refine forEach_same (fun item => inScope_same ?_) items
      exact Echoes.step (bindItem_same hnames item) fun _ => (List.forall₂_cons.mp hbodies).1
  | forLoop isInclusive hcounter hstart hstop body body' =>
      rw [flattenStatement, flattenStatement]
      refine Echoes.step (loopValues_same caller_echoes hstart hstop position _) fun values => ?_
      refine forEach_same (fun i => inScope_same ?_) values
      exact Echoes.step (define_same hcounter i) fun _ => (List.forall₂_cons.mp hbodies).1
  | whileLoop h body body' =>
      rw [flattenStatement, flattenStatement]
      exact whileHolds_same (holds_same caller_echoes h position)
        (inScope_same (List.forall₂_cons.mp hbodies).1) maxRounds
  | importFile htarget hmedia =>
      rw [flattenStatement, flattenStatement]
      exact flattenImport_same hs htarget hmedia position
  | comment text => exact Echoes.pure rfl
  | @atRule name prelude prelude' body body' hprelude hbody =>
      cases body with
      | none => cases body' with
        | some _ => cases hbody
        | none =>
            rw [flattenStatement, flattenStatement]
            exact Echoes.step (interpolate_same caller_echoes hprelude position) fun _ =>
              Echoes.pure rfl
      | some body => cases body' with
        | none => cases hbody
        | some body' =>
            have hinner := (List.forall₂_cons.mp hbodies).1
            rw [flattenStatement, flattenStatement]
            refine Echoes.step (interpolate_same caller_echoes hprelude position) fun text => ?_
            -- what keeps its place at the top is outside of any rule
            split
            · exact Echoes.step (inRule_same .topLevel hinner) fun _ => Echoes.pure rfl
            · exact Echoes.step (flattenBubbling_same position hinner) fun _ => Echoes.pure rfl
  | diagnostic level h =>
      rw [flattenStatement, flattenStatement]
      exact Echoes.step (report_same caller_echoes h position _) fun _ => Echoes.pure rfl

theorem flattenNodes_same {nodes nodes' : List Node} (h : NodesMatch functions nodes nodes') :
    Same functions (flattenNodes s nodes) (flattenNodes s nodes') :=
  flattenNodes_of_nodes (h.imp fun _ _ hn => flattenNode_same hs hn)

end

/-- **Two spellings of statements are expanded to the same**, whatever may still nest. -/
theorem expand_same (calls imports blocks : Nat) {nodes nodes' : List Node}
    (h : NodesMatch functions nodes nodes') :
    Same functions (expand calls imports blocks nodes) (expand calls imports blocks nodes') := by
  rw [expand_eq_flattenNodes, expand_eq_flattenNodes]
  refine flattenNodes_same ⟨fun blocks nodes nodes' h => ?_, fun nodes => ?_, fun h => ?_⟩ h
  · cases calls with
    | zero => exact Echoes.pure rfl
    | succ calls => exact expand_same calls imports blocks h
  · cases imports with
    | zero => exact Echoes.reading fun _ _ _ => Echoes.throw
    | succ imports => exact expand_same calls imports blocks (.refl nodes)
  · cases blocks with
    | zero => exact Echoes.pure rfl
    | succ below => exact expand_same calls imports below h
termination_by (calls, imports, blocks)

theorem run_same {nodes nodes' : List Node} (h : NodesMatch functions nodes nodes') :
    Same functions (Flatten.run nodes) (Flatten.run nodes') := by
  refine Echoes.reading fun c c' hc => ?_
  rw [callsLeft, callsLeft, hc.callDepth, hc.maxImportDepth, hc.contents.length_eq]
  refine Echoes.step (expand_same _ _ _ h) fun flat => ?_
  split
  · exact Echoes.fail
  · exact Echoes.pure rfl

end Flatten

open Compile Evaluation

variable {functions : List String}

/-- Extending looks at selectors alone. -/
theorem Extending.run_same (nodes : List Node) :
    Same functions (Extending.run nodes) (Extending.run nodes) := by
  refine Echoes.reading fun c c' hc => ?_
  rw [hc.extensions]
  dsimp only
  split
  · exact Echoes.throw
  · refine Echoes.step (Echoes.forM (List.forall₂_same.mpr fun _ _ => rfl) fun p q h => ?_)
      fun _ => Echoes.pure rfl
    obtain rfl : p = q := h
    exact Echoes.ite (Echoes.pure rfl) (warn_same _ _)

/-- Two spellings of a stylesheet. -/
structure Stylesheet.Respelled (functions : List String) (s s' : Stylesheet) : Prop where
  uri : s'.uri = s.uri
  charset : s'.charset = s.charset
  body : List.Forall₂ (Node.Paired (Statement.Respelled functions)) s.body s'.body

/-- Both passes do the same, and so does the whole compilation. -/
theorem Stylesheet.compile_same {s s' : Stylesheet} (huri : s'.uri = s.uri)
    (hcharset : s'.charset = s.charset) (h : NodesMatch functions s.body s'.body) :
    Same functions s.compile s'.compile := by
  obtain ⟨uri, charset, body⟩ := s
  obtain ⟨uri', charset', body'⟩ := s'
  obtain rfl : uri' = uri := huri
  obtain rfl : charset' = charset := hcharset
  refine Echoes.step (Echoes.modify fun hc => hc.enterRoot _) fun _ => ?_
  refine Echoes.step (Flatten.run_same h) fun flat => ?_
  exact Echoes.step (Extending.run_same flat) fun _ => Echoes.pure rfl

/-! ## In a fresh context -/

/-- Functions that can be called and answer nothing. -/
def bodiless (functions : List String) : Entries Definition :=
  functions.map fun f => (Text.nameKey f, ⟨f, ⟨[], none⟩, []⟩)

theorem get?_bodiless {key : String} {d : Definition}
    (h : (bodiless functions).get? key = some d) : d.body = [] := by
  obtain ⟨f, -, heq⟩ := List.mem_map.mp (Entries.mem_of_get? h)
  rw [← (Prod.mk.inj heq).2]

theorem isSome_get?_bodiless {f : String} (hf : f ∈ functions) :
    ((bodiless functions).get? (Text.nameKey f)).isSome := by
  induction functions with
  | nil => cases hf
  | cons g rest ih =>
      rw [bodiless, List.map_cons, Entries.get?]
      split
      · rfl
      next hkey => exact ih ((List.mem_cons.mp hf).resolve_left fun heq => hkey (by rw [heq]))

/-- A context in which calls of some functions fail where they would be left to CSS otherwise: what is
not defined is found in the root frame, and answers nothing. -/
def Context.guarding (functions : List String) (c : Context) : Context :=
  { c with scopes := { c.scopes with root :=
    { c.scopes.root with functions := c.scopes.root.functions ++ bodiless functions } } }

/-- If a stylesheet compiles at all, no call of some functions is left to CSS: it also compiles where
such a call fails. A context knows functions by their names only, so this is asked of every call of
them, also of one that names no arguments. -/
def Stylesheet.BindsCalls (functions : List String) (c : Context) (s : Stylesheet) : Prop :=
  (∃ t d, s.compile.outcome c = (.ok t, d)) →
    ∃ t d, s.compile.outcome (c.guarding functions) = (.ok t, d)

/-- Where such calls fail, the other spelling does not have to do better, whether they fail there or
are left to CSS. -/
theorem Context.guarding_matches (mode : UrlMode) (resolver : Resolver) (depth : Nat) :
    let fresh := Context.new mode resolver depth
    (fresh.guarding functions).Matches functions fresh ∧
      (fresh.guarding functions).Matches functions (fresh.guarding functions) := by
  have hfunctions : ∀ entries : Entries Definition, (∀ key, entries.get? key = none ∨
      (bodiless functions).get? key = entries.get? key) → ∀ key,
        Counterpart functions ((bodiless functions).get? key) (entries.get? key) := by
    intro entries hentries key
    cases hfound : (bodiless functions).get? key with
    | some d => exact .inl ⟨d, rfl, get?_bodiless hfound⟩
    | none =>
        obtain hnone | hsame := hentries key
        · rw [hnone]
          exact .inr .none
        · rw [← hsame, hfound]
          exact .inr .none
  refine ⟨⟨⟨.nil, ⟨rfl, rfl, fun _ => .none, hfunctions [] fun _ => .inl rfl⟩,
    fun f hf => isSome_get?_bodiless hf⟩, .nil, rfl⟩, ⟨⟨.nil, ⟨rfl, rfl, fun _ => .none,
    hfunctions _ fun _ => .inr rfl⟩, fun f hf => isSome_get?_bodiless hf⟩, .nil, rfl⟩⟩

section
variable {mode : UrlMode} {resolver : Resolver} {depth : Nat} {s s' t : Stylesheet}

/-- One spelling compiles to what the other does, if none of the calls is left to CSS. Then none is in
this spelling either. -/
theorem Stylesheet.compile_of_matches (huri : s'.uri = s.uri) (hcharset : s'.charset = s.charset)
    (h : NodesMatch functions s.body s'.body)
    (hs : s.BindsCalls functions (.new mode resolver depth)) {d : Context}
    (hcompiled : s.compile.outcome (.new mode resolver depth) = (.ok t, d)) :
    (∃ d', s'.compile.outcome (.new mode resolver depth) = (.ok t, d')) ∧
      s'.BindsCalls functions (.new mode resolver depth) := by
  obtain ⟨u, e, hguarded⟩ := hs ⟨t, d, hcompiled⟩
  obtain ⟨hfresh, hself⟩ := @Context.guarding_matches functions mode resolver depth
  -- without the guards, the stylesheet compiles to the same tree as with them
  obtain ⟨_, _, hsame, -, rfl⟩ := Stylesheet.compile_same rfl rfl (.refl s.body) _ _ _ _ hfresh hguarded
  obtain rfl : t = u := by
    rw [hcompiled] at hsame
    exact Except.ok.inj (congrArg Prod.fst hsame)
  have hecho := Stylesheet.compile_same huri hcharset h
  obtain ⟨_, d', hsame', -, rfl⟩ := hecho _ _ _ _ hfresh hguarded
  obtain ⟨_, e', hguarded', -, -⟩ := hecho _ _ _ _ hself hguarded
  exact ⟨⟨d', hsame'⟩, fun _ => ⟨_, e', hguarded'⟩⟩

/--
**Hyphens and underscores are interchangeable.**

Two spellings of a stylesheet differ in `-` and `_` only, in the names of variables, mixins,
parameters, variables of loops, and of the arguments of mixins and functions. Names of arguments may
differ where the call is one of a built-in function, or of one of some functions of the stylesheet. Of
these, no call must be left to CSS (`BindsCalls`), because it would be written out with the names of its
arguments.

If no two parameters of a signature in the stylesheet agree in all but `-` and `_`, then in a new context
both compile to the same tree, or neither compiles. This is also so if stylesheets are imported, whose
code is spelled in one way only.
-/
theorem Stylesheet.compile_respelled (h : s.Respelled functions s')
    (hdistinct : ∀ n ∈ s.body, n.All Statement.HasDistinctParameters)
    (hs : s.BindsCalls functions (.new mode resolver depth))
    (hs' : s'.BindsCalls functions (.new mode resolver depth)) :
    (∃ d, s.compile.outcome (.new mode resolver depth) = (.ok t, d)) ↔
      ∃ d, s'.compile.outcome (.new mode resolver depth) = (.ok t, d) := by
  have hmatch : NodesMatch functions s.body s'.body := .of_distinct hdistinct h.body
  exact ⟨fun ⟨_, hcompiled⟩ => (compile_of_matches h.uri h.charset hmatch hs hcompiled).1,
    fun ⟨_, hcompiled⟩ =>
      (compile_of_matches h.uri.symm h.charset.symm hmatch.symm hs' hcompiled).1⟩

/-- A stylesheet compiles if its statements are expanded at the root and the extensions applied. -/
theorem Stylesheet.outcome_compile_of_nodes {c c₁ c₂ : Context} {flat printed : List Node}
    (hflat : (Flatten.flattenNodes (Flatten.siteOf (Flatten.callsLeft c) (c.maxImportDepth + 1)
      c.contents.length) s.body).outcome (c.enterRoot s.uri) = (.ok flat, c₁))
    (htop : ∀ n ∈ flat, n.statement.isDeclaration = false)
    (hprinted : (Extending.run flat).outcome c₁ = (.ok printed, c₂)) :
    s.compile.outcome c = (.ok { s with body := printed }, c₂) := by
  refine Stylesheet.outcome_compile_ok ?_ hprinted
  rw [Flatten.run, outcome_get_bind, Flatten.expand_eq_flattenNodes]
  refine (outcome_bind_ok hflat).trans ?_
  rw [List.find?_eq_none.mpr fun n hn => by simp [htop n hn]]
  rfl

end

/-- `$x: teal; @mixin x($x) { color: $y } @function tint($x) { @return $y }`, and a rule
`.a { @include y($y: $y); fill: tint($y: $y) }`. -/
def toned (x y : String) : Stylesheet := ⟨"toned.scss", none, [
  .mk default (.assignment x (.word "teal") false false),
  .mk default (.mixin x ⟨[⟨x, none⟩], none⟩
    [.mk default (.declaration (.literal "color") (.variable y) false)]),
  .mk default (.function "tint" ⟨[⟨x, none⟩], none⟩ [.mk default (.returnValue (.variable y))]),
  .mk default (.rule (.parsed [.ofClass "a"]) [
    .mk default (.includeMixin y [⟨some y, .variable y, false⟩] none),
    .mk default (.declaration (.literal "fill") (.call "tint" [⟨some y, .variable y, false⟩])
      false)])]⟩

theorem toned_respelled {x y z : String} (h : SameName y z) :
    (toned x y).Respelled ["tint"] (toned x z) := by
  -- a statement without a body, and one that has a single body
  have hbare : ∀ {t t' : Statement}, t.Respelled ["tint"] t' → t.bodies = [] → t'.bodies = [] →
      Node.Paired (Statement.Respelled ["tint"]) (.mk default t) (.mk default t') :=
    fun h hb hb' => .of_bodies h (by rw [hb, hb']; exact .nil)
  have hone : ∀ {t t' : Statement} {body body' : List Node}, t.Respelled ["tint"] t' →
      t.bodies = [body] → t'.bodies = [body'] →
      List.Forall₂ (Node.Paired (Statement.Respelled ["tint"])) body body' →
      Node.Paired (Statement.Respelled ["tint"]) (.mk default t) (.mk default t') :=
    fun h hb hb' hbody => .of_bodies h (by rw [hb, hb']; exact .cons hbody .nil)
  have hvalue : Value.Respelled ["tint"] (.variable y) (.variable z) := .var h
  have hsignature : Signature.Rel SameName (Value.Respelled ["tint"]) ⟨[⟨x, none⟩], none⟩
      ⟨[⟨x, none⟩], none⟩ := ⟨.cons ⟨rfl, .none⟩ .nil, .none⟩
  have htint : SameArgumentName ["tint"] "tint" y z := .inr ⟨.inr ⟨"tint", by simp, rfl⟩, h⟩
  have hcall : Value.Respelled ["tint"] (.call "tint" [⟨some y, .variable y, false⟩])
      (.call "tint" [⟨some z, .variable z, false⟩]) :=
    .call [(⟨some y, .variable y, false⟩, ⟨some z, .variable z, false⟩)] (by simpa using htint)
      (by simpa using hvalue) (by simp)
  exact ⟨rfl, rfl, .cons (hbare (.assignment _ _ rfl (.word _)) rfl rfl)
    (.cons (hone (.mixin rfl hsignature _ _) rfl rfl
      (.cons (hbare (.declaration _ (.refl _) hvalue) rfl rfl) .nil))
    (.cons (hone (.function _ hsignature _ _) rfl rfl
      (.cons (hbare (.returnValue hvalue) rfl rfl) .nil))
    (.cons (hone (.rule (.refl _) _ _) rfl rfl
      (.cons (hbare (.includeMixin h (.cons ⟨.some h, hvalue, rfl⟩ .nil) rfl) rfl rfl)
        (.cons (hbare (.declaration _ (.refl _) hcall) rfl rfl) .nil))) .nil)))⟩

theorem toned_distinct (x y : String) :
    ∀ n ∈ (toned x y).body, n.All Statement.HasDistinctParameters := by
  have hall : ∀ {t : Statement}, t.HasDistinctParameters →
      (∀ body ∈ t.bodies, ∀ n ∈ body, n.All Statement.HasDistinctParameters) →
      Node.All Statement.HasDistinctParameters (.mk default t) := .mk
  have hbare : ∀ {t : Statement}, t.signature? = none → t.bodies = [] →
      Node.All Statement.HasDistinctParameters (.mk default t) := fun hnone hb =>
    hall (fun signature h => by rw [hnone] at h; cases h) (by rw [hb]; simp)
  have hone : ∀ signature ∈ some (⟨[⟨x, none⟩], none⟩ : Signature), signature.Distinct := by
    intro signature h
    obtain rfl := Option.some.inj h
    exact List.nodup_singleton _
  simp only [toned, List.forall_mem_cons]
  refine ⟨hbare rfl rfl, hall hone ?_, hall hone ?_, hall (fun _ h => nomatch h) ?_, by simp⟩
  · simpa [Statement.bodies] using hbare rfl rfl
  · simpa [Statement.bodies] using hbare rfl rfl
  · simpa [Statement.bodies] using ⟨hbare rfl rfl, hbare rfl rfl⟩

/-- With `a-b` throughout, or with `a_b` wherever the name is used, the colors are filled in. -/
theorem toned_compiles : (toned "a-b" "a-b").Respelled ["tint"] (toned "a-b" "a_b") ∧
    ∃ t d d', (toned "a-b" "a-b").compile.outcome .isolated = (.ok t, d) ∧
      (toned "a-b" "a_b").compile.outcome .isolated = (.ok t, d') ∧
      t.body = [.mk default (.rule (.parsed [.ofClass "a"])
        [.mk default (.declaration (.literal "color") (.word "teal") false),
          .mk default (.declaration (.literal "fill") (.word "teal") false)])] := by
  have hcompile : ∀ c ∈ [Context.isolated, Context.isolated.guarding ["tint"]],
      ∃ t d, (toned "a-b" "a-b").compile.outcome c = (.ok t, d) ∧
        t.body = [.mk default (.rule (.parsed [.ofClass "a"])
          [.mk default (.declaration (.literal "color") (.word "teal") false),
            .mk default (.declaration (.literal "fill") (.word "teal") false)])] := by
    intro c hc
    -- whether the call is guarded or not, the passes can be run
    have hpasses : ∃ flat c₁ printed c₂,
        (Flatten.flattenNodes (Flatten.siteOf (Flatten.callsLeft c) (c.maxImportDepth + 1)
          c.contents.length) (toned "a-b" "a-b").body).outcome (c.enterRoot "toned.scss") =
            (.ok flat, c₁) ∧ (∀ n ∈ flat, n.statement.isDeclaration = false) ∧
        (Extending.run flat).outcome c₁ = (.ok printed, c₂) ∧
        printed = [.mk default (.rule (.parsed [.ofClass "a"])
          [.mk default (.declaration (.literal "color") (.word "teal") false),
            .mk default (.declaration (.literal "fill") (.word "teal") false)])] := by
      simp only [List.mem_cons, List.not_mem_nil, or_false] at hc
      obtain rfl | rfl := hc
      · exact ⟨_, _, _, _, by cbv, by decide, by cbv, rfl⟩
      · exact ⟨_, _, _, _, by cbv, by decide, by cbv, rfl⟩
    obtain ⟨flat, c₁, printed, c₂, hflat, htop, hprinted, hbody⟩ := hpasses
    exact ⟨_, _, Stylesheet.outcome_compile_of_nodes hflat htop hprinted, hbody⟩
  have hrespelled : (toned "a-b" "a-b").Respelled ["tint"] (toned "a-b" "a_b") :=
    toned_respelled (sameName_iff.mpr (by decide))
  have hdistinct := toned_distinct "a-b" "a-b"
  obtain ⟨t, d, hfresh, hbody⟩ := hcompile _ List.mem_cons_self
  obtain ⟨u, e, hguarded, -⟩ := hcompile _ (List.mem_cons_of_mem _ List.mem_cons_self)
  have hbinds : (toned "a-b" "a-b").BindsCalls ["tint"] .isolated := fun _ => ⟨u, e, hguarded⟩
  have hbinds' := (Stylesheet.compile_of_matches hrespelled.uri hrespelled.charset
    (.of_distinct hdistinct hrespelled.body) hbinds hfresh).2
  obtain ⟨d', hfresh'⟩ :=
    (Stylesheet.compile_respelled hrespelled hdistinct hbinds hbinds').mp ⟨d, hfresh⟩
  exact ⟨hrespelled, t, d, d', hfresh, hfresh', hbody⟩

end Scss
