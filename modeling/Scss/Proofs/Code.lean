import Scss.Proofs.Following

/-!
# The code of a context stays what it is

Statements are never computed: what a compile runs was written in the stylesheet, defined before it
began, or read from a file that its resolver finds. So if all of this satisfies `S` when a step
begins, and the step defines and passes on only such code, it does when the step is done.
-/

namespace Scss

/-- A frame with the code of another. -/
theorem Frame.AllCode.congr {S : Statement → Prop} {f g : Frame} (hf : f.AllCode S)
    (hmixins : g.mixins = f.mixins) (hfunctions : g.functions = f.functions) : g.AllCode S :=
  ⟨hmixins ▸ hf.mixins, hfunctions ▸ hf.functions⟩

namespace Context.AllCode

variable {S : Statement → Prop} {c : Context} (hc : c.AllCode S)
include hc

/-- Other scopes, in which all code satisfies `S` too. -/
theorem withScopes {s : Scopes} (hs : ∀ f ∈ s.frames, f.AllCode S) :
    ({ c with scopes := s } : Context).AllCode S := ⟨hs, hc.contents, hc.stylesheets⟩

/-! ## Frames -/

/-- A new frame holds no code. -/
theorem entered : (Compile.entered c).AllCode S :=
  hc.withScopes (Scopes.every_enter hc.frames
    ⟨fun _ he => absurd he List.not_mem_nil, fun _ he => absurd he List.not_mem_nil⟩)

theorem setParent (parent : ParentBlock) :
    ({ c with scopes := c.scopes.setParent parent } : Context).AllCode S :=
  hc.withScopes (Scopes.every_modifyCurrent hc.frames fun _ hf => hf.congr rfl rfl)

theorem drop (count : Nat) :
    ({ c with scopes := { c.scopes with inner := c.scopes.inner.drop count } } : Context).AllCode S :=
  hc.withScopes fun f hf => hc.frames f (Scopes.mem_frames_of_drop hf)

/-- Frames that were hidden come back in front of those of another context. -/
theorem restore {d : Context} (hd : d.AllCode S) (depth : Nat) :
    ({ d with scopes := d.scopes.restore (c.scopes.hideAbove depth).1 } : Context).AllCode S :=
  hd.withScopes fun f hf => (Scopes.mem_frames_of_restore hf).elim (hc.frames f) (hd.frames f)

theorem define (name : String) (value : Value) :
    ({ c with scopes := c.scopes.define name value } : Context).AllCode S :=
  hc.withScopes (Scopes.every_define hc.frames (fun _ _ hf => hf.congr rfl rfl) name)

theorem assign (name : String) (value : Value) :
    ({ c with scopes := c.scopes.assign name value } : Context).AllCode S :=
  hc.withScopes (Scopes.every_assign hc.frames (fun _ _ hf => hf.congr rfl rfl) name)

theorem setGlobal (name : String) (value : Value) :
    ({ c with scopes := c.scopes.setGlobal name value } : Context).AllCode S :=
  hc.withScopes (Scopes.every_setGlobal hc.frames (fun _ _ hf => hf.congr rfl rfl) name)

/-- What is stored has to be code of the kind, and is the only code that is added. -/
theorem defineMixin {d : Definition} (hd : ∀ n ∈ d.body, n.All S) :
    ({ c with scopes := c.scopes.defineMixin d } : Context).AllCode S :=
  hc.withScopes (Scopes.every_modifyCurrent hc.frames fun _ hf =>
    ⟨Entries.forall_put (P := fun d : Definition => ∀ n ∈ d.body, n.All S) hf.mixins _ hd,
      hf.functions⟩)

theorem defineFunction {d : Definition} (hd : ∀ n ∈ d.body, n.All S) :
    ({ c with scopes := c.scopes.defineFunction d } : Context).AllCode S :=
  hc.withScopes (Scopes.every_modifyCurrent hc.frames fun _ hf =>
    ⟨hf.mixins,
      Entries.forall_put (P := fun d : Definition => ∀ n ∈ d.body, n.All S) hf.functions _ hd⟩)

/-! ## Stacks -/

/-- A block that is passed is code that may be expanded later. -/
theorem pushContent {block : Option ContentBlock} (hblock : ∀ b ∈ block, ∀ n ∈ b.body, n.All S) :
    (c.pushContent block).AllCode S := by
  refine ⟨hc.frames, fun b hb => ?_, hc.stylesheets⟩
  rcases List.mem_cons.mp hb with hb | hb
  · exact hblock b hb.symm
  · exact hc.contents b hb

theorem popContent : c.popContent.AllCode S :=
  ⟨hc.frames, fun b hb => hc.contents b (List.mem_of_mem_tail hb), hc.stylesheets⟩

/-- Calls are counted, and hold no code themselves. -/
theorem enterCall {d : Context} {name : String} {position : Position}
    (h : c.enterCall name position = .ok d) : d.AllCode S := by
  obtain ⟨-, rfl⟩ := of_enterCall h
  exact ⟨hc.frames, hc.contents, hc.stylesheets⟩

theorem exitCall : c.exitCall.AllCode S := ⟨hc.frames, hc.contents, hc.stylesheets⟩

theorem enterImport {d : Context} {uri base : String} (h : c.enterImport uri base = .ok d) :
    d.AllCode S := by
  obtain ⟨-, rfl⟩ := of_enterImport h
  exact ⟨hc.frames, hc.contents, hc.stylesheets⟩

theorem exitImport : c.exitImport.AllCode S := by
  unfold Context.exitImport
  split
  · exact ⟨hc.frames, hc.contents, hc.stylesheets⟩
  · exact hc

theorem warn (position : Position) (message : String) : (c.warn position message).AllCode S :=
  ⟨hc.frames, hc.contents, hc.stylesheets⟩

theorem addExtension (e : Extension) : (c.addExtension e).AllCode S :=
  ⟨hc.frames, hc.contents, hc.stylesheets⟩

end Context.AllCode

end Scss
