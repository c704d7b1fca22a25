import Scss.Proofs.Following

/-!
# Frames in which nothing is bound

A directive that moves out of its rule runs its body behind two frames that bind no name. Evaluation
overlooks such frames: variables and functions are looked up past them, and a variable is bound in the
innermost frame, or where it is bound already. So, with vacant frames inserted somewhere behind the
innermost ones, a computation has the same result, and it leaves the scopes that it would leave without
them, with the same frames inserted at the same place (`Overlooks`).

The place is counted from the innermost frame. The body of a function needs one frame in front, to bind
its variables there. A function brings that frame itself; so values need none.
-/

namespace Scss

open Text (nameKey)

/-- Neither variables nor functions are bound in the frame. -/
structure Frame.IsVacant (f : Frame) : Prop where
  values : f.values = []
  functions : f.functions = []

/-- Puts frames behind so many others. -/
def insertFrames (added : List Frame) : Nat → List Frame → List Frame
  | 0, frames => added ++ frames
  | _ + 1, [] => added
  | place + 1, f :: frames => f :: insertFrames added place frames

/-- What is found in no frame that is added is found where it was. -/
theorem findSome?_insertFrames {β : Type} {look : Frame → Option β} {added : List Frame}
    (h : ∀ f ∈ added, look f = none) (place : Nat) (frames : List Frame) :
    (insertFrames added place frames).findSome? look = frames.findSome? look := by
  have hadded : added.findSome? look = none := List.findSome?_eq_none_iff.mpr h
  induction place generalizing frames with
  | zero => rw [insertFrames, List.findSome?_append, hadded, Option.none_or]
  | succ place ih =>
      cases frames with
      | nil => exact hadded
      | cons f frames => rw [insertFrames, List.findSome?_cons, List.findSome?_cons, ih]

namespace Scopes

/-- Puts frames behind so many others. -/
def insert (added : List Frame) (place : Nat) (s : Scopes) : Scopes :=
  { s with inner := insertFrames added place s.inner }

section
variable {added : List Frame} (h : ∀ f ∈ added, f.IsVacant) {place : Nat} {s : Scopes}

section
include h

theorem valueOf?_insert (name : String) : (s.insert added place).valueOf? name = s.valueOf? name := by
  unfold valueOf? frames Scopes.insert
  rw [List.findSome?_append, List.findSome?_append, findSome?_insertFrames fun f hf => ?_]
  rw [(h f hf).values]
  rfl

theorem function?_insert (name : String) :
    (s.insert added place).function? name = s.function? name := by
  unfold function? frames Scopes.insert
  rw [List.findSome?_append, List.findSome?_append, findSome?_insertFrames fun f hf => ?_]
  rw [(h f hf).functions]
  rfl

/-- A frame that binds nothing is not where a variable is bound. -/
theorem rebind?_insertFrames (key : String) (value : Value) (place : Nat) (frames : List Frame) :
    rebind? key value (insertFrames added place frames) =
      (rebind? key value frames).map (insertFrames added place) := by
  have hfront : ∀ frames, rebind? key value (added ++ frames) =
      (rebind? key value frames).map (added ++ ·) := by
    intro frames
    induction added with
    | nil => simp
    | cons f rest ih =>
        obtain ⟨hf, hrest⟩ := List.forall_mem_cons.mp h
        have hunbound : f.values.has key = false := by rw [hf.values]; rfl
        rw [List.cons_append, rebind?, if_neg (by simp [hunbound]), ih hrest, Option.map_map]
        rfl
  -- what is in front of the place is rebound first, with or without the frames behind it
  induction place generalizing frames with
  | zero => exact hfront frames
  | succ place ih =>
      cases frames with
      | nil =>
          have hnone := hfront []
          rw [List.append_nil] at hnone
          exact hnone
      | cons f frames =>
          rw [insertFrames, rebind?, rebind?]
          split
          · rfl
          · rw [ih, Option.map_map, Option.map_map]
            rfl

end

/-- The innermost frame is changed in front of the frames that are added. -/
theorem modifyCurrent_insert (change : Frame → Frame) (hplace : 1 ≤ place)
    (hs : place ≤ s.inner.length) :
    (s.insert added place).modifyCurrent change = (s.modifyCurrent change).insert added place := by
  obtain ⟨inner, root⟩ := s
  cases place with
  | zero => exact absurd hplace (Nat.not_succ_le_zero 0)
  | succ place =>
      cases inner with
      | nil => exact absurd hs (Nat.not_succ_le_zero place)
      | cons f inner => rfl

theorem assign_insert (h : ∀ f ∈ added, f.IsVacant) (name : String) (value : Value)
    (hplace : 1 ≤ place) (hs : place ≤ s.inner.length) :
    (s.insert added place).assign name value = (s.assign name value).insert added place := by
  have hinner : (s.insert added place).inner = insertFrames added place s.inner := rfl
  rw [assign, assign, hinner, rebind?_insertFrames h]
  cases rebind? (nameKey name) value s.inner with
  | some inner => rfl
  | none =>
      show (if s.root.values.has (nameKey name) then (s.insert added place).setGlobal name value
        else (s.insert added place).define name value) =
          Scopes.insert added place (if s.root.values.has (nameKey name) then s.setGlobal name value
            else s.define name value)
      split
      · rfl
      · exact modifyCurrent_insert _ hplace hs

theorem leave_insert (hs : place + 1 ≤ s.inner.length) :
    (s.insert added (place + 1)).leave = s.leave.insert added place := by
  obtain ⟨inner, root⟩ := s
  cases inner with
  | nil => exact absurd hs (Nat.not_succ_le_zero place)
  | cons f inner => rfl

end

end Scopes

/-- Puts frames behind so many others. -/
def Context.insert (added : List Frame) (place : Nat) (c : Context) : Context :=
  { c with scopes := c.scopes.insert added place }

namespace Compile

open Evaluation

variable {α β : Type} {added : List Frame} {least : Nat}

/-- Frames that are added, behind at least so many others, make no difference to the computation. -/
def Overlooks (added : List Frame) (least : Nat) (m : Compile α) : Prop :=
  ∀ place, least ≤ place → ∀ c : Context, place ≤ c.scopes.inner.length →
    place ≤ (m.outcome c).2.scopes.inner.length ∧
      m.outcome (c.insert added place) =
        ((m.outcome c).1, (m.outcome c).2.insert added place)

theorem steps_overlook : Steps (Overlooks added least) where
  pure _ _ _ _ hc := ⟨hc, rfl⟩
  throw _ _ _ _ hc := ⟨hc, rfl⟩
  bind {α β m f} hm hf place hplace c hc := by
    obtain ⟨hleft, hsame⟩ := hm place hplace c hc
    match hmc : m.outcome c with
    | (.ok a, d) =>
        rw [hmc] at hleft hsame
        rw [outcome_bind_ok hmc, outcome_bind_ok hsame]
        exact hf a place hplace d hleft
    | (.error failure, d) =>
        rw [hmc] at hleft hsame
        rw [outcome_bind_error hmc, outcome_bind_error hsame]
        exact ⟨hleft, rfl⟩

/-- A change of the scopes that is the same with and without the frames that are added. -/
theorem overlooks_modifyScopes {change : Scopes → Scopes}
    (hfollows : ∀ s : Scopes, s.Follows (change s))
    (h : ∀ {place} {s : Scopes}, least ≤ place → place ≤ s.inner.length →
      change (s.insert added place) = (change s).insert added place) :
    Overlooks added least (modifyScopes change) := by
  intro place hplace c hc
  have hdepth : (change c.scopes).inner.length = c.scopes.inner.length :=
    Nat.succ.inj (hfollows c.scopes).depth
  refine ⟨hdepth ▸ hc, ?_⟩
  rw [outcome_modifyScopes, outcome_modifyScopes]
  show (_, { c with scopes := change (c.scopes.insert added place) }) = _
  rw [h hplace hc]
  rfl

/-- A scope that is closed was in front of the frames that are added. -/
theorem left_insert {place : Nat} {d : Context} (hd : place + 1 ≤ d.scopes.inner.length) :
    left (d.insert added (place + 1)) = (left d).insert added place := by
  show { d with scopes := (d.scopes.insert added (place + 1)).leave } = _
  rw [Scopes.leave_insert hd]
  rfl

/-- In a scope of its own, a computation has one more frame in front. -/
theorem overlooks_inScope {m : Compile α} (h : Overlooks added (least + 1) m) :
    Overlooks added least (inScope m) := by
  intro place hplace c hc
  -- the frame of the scope comes in front, so inside the place is one further back
  obtain ⟨hleft, hsame⟩ := h (place + 1) (Nat.succ_le_succ hplace) (entered c) (Nat.succ_le_succ hc)
  rw [outcome_inScope, outcome_inScope]
  refine ⟨?_, ?_⟩
  · show place ≤ (List.drop 1 _).length
    rw [List.length_drop]
    omega
  · have hentered : entered (c.insert added place) = (entered c).insert added (place + 1) := rfl
    rw [hentered, hsame, left_insert hleft]

theorem overlooks_calling (name : String) (position : Position) {m : Compile α}
    (h : Overlooks added least m) : Overlooks added least (calling name position m) := by
  intro place hplace c hc
  rw [outcome_calling, outcome_calling]
  have hguard : (c.insert added place).enterCall name position =
      (c.enterCall name position).map (Context.insert added place) := by
    unfold Context.enterCall
    show (if maxCallDepth ≤ c.callDepth then _ else _) = _
    split <;> rfl
  rw [hguard]
  cases hentered : c.enterCall name position with
  | error failure => exact ⟨hc, rfl⟩
  | ok d =>
      obtain ⟨-, rfl⟩ := Context.of_enterCall hentered
      obtain ⟨hleft, hsame⟩ := h place hplace { c with callDepth := c.callDepth + 1 } hc
      refine ⟨hleft, ?_⟩
      show ((m.outcome _).1, (m.outcome _).2.exitCall) = _
      rw [hsame]
      rfl

section
variable (hadded : ∀ f ∈ added, f.IsVacant)
include hadded

/-- **Values are looked up past the frames**, wherever they are added. -/
theorem evaluating_overlook : Evaluating (fun _ => True) (Overlooks added least) where
  toSteps := steps_overlook
  lookUp name f hf h place hplace c hc := by
    have hsame : f (c.insert added place).scopes = f c.scopes :=
      hf _ _ (Scopes.valueOf?_insert hadded name) (Scopes.function?_insert hadded name)
    rw [outcome_scopes_bind, outcome_scopes_bind, hsame]
    exact h c (.of_forall (fun _ => trivial) c) place hplace c hc

/-- **Statements of a function bind names in front of the frames**, or where they are bound. -/
theorem executing_overlook : Executing (fun _ => True) (Overlooks added 1) where
  toEvaluating := evaluating_overlook hadded
  define name value := overlooks_modifyScopes (Scopes.follows_define · name value) fun hplace hs =>
    Scopes.modifyCurrent_insert _ hplace hs
  assign name value := overlooks_modifyScopes (Scopes.follows_assign · name value) fun hplace hs =>
    Scopes.assign_insert hadded name value hplace hs
  setGlobal _ value := overlooks_modifyScopes (fun s => (Scopes.around_setGlobal s _ value).follows)
    fun _ _ => rfl
  warn _ _ _ _ _ hc := ⟨hc, rfl⟩
  inScope h := overlooks_inScope fun place hplace => h place (Nat.le_of_succ_le hplace)
  calling name position _ h := overlooks_calling name position h

/-- A function needs no frame in front, since it brings one. -/
theorem invoke_overlooks (calls : Nat) :
    CallerKeeps (fun _ => True) (Overlooks added 0) (invoke calls) :=
  invoke_keeps_around steps_overlook (executing_overlook hadded)
    (fun name position _ h => overlooks_calling name position (overlooks_inScope h)) calls

end

end Compile

end Scss
