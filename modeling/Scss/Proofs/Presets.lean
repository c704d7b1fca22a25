import Mathlib
import Scss.Compilation
import Scss.Proofs.Literals

/-!
# Variables set from outside

Variables that are set from outside are defined one after another, in the order in which their table
happens to give them. Each text is evaluated where the variables in front of it have their values
already. So the order is seen if a text mentions another variable of the table, or if two names of the
table stand for one variable.

It is not seen otherwise (`definePresets_reordered`). Whether one entry can be defined and what it is
defined as depends on the variables that its text mentions and on nothing else (`presetOf?_withPreset`).
So all entries do what each of them would do first, in any order (`definePresets_apart`).
-/

namespace Scss

open Compile Evaluation
open Flatten (callsLeft)
open Text (nameKey)

/-- The variable that a name from outside stands for. -/
def presetKey (name : String) : String := nameKey (withoutSigil name)

/-- What the text of a variable from outside stands for. -/
def presetValue (text : String) : Compile Value := do
  let source ← MonadExcept.ofExcept (Grammar.readValue text outside)
  evaluate (invoke (callsLeft (← get))) outside true source

/-- The value itself is not a certain variable. -/
def Value.IsOther (key : String) : Value → Prop
  | .variable name => nameKey name ≠ key
  | _ => True

/-- A variable is not mentioned in a text from outside. -/
def Avoids (text key : String) : Prop :=
  ∀ source, Grammar.readValue text outside = .ok source → source.All (Value.IsOther key)

/-- Neither of two entries mentions the variable of the other, and if they are for one variable, they
set it to one text. -/
structure Apart (e f : String × String) : Prop where
  text : presetKey e.1 = presetKey f.1 → e.2 = f.2
  left : Avoids e.2 (presetKey f.1)
  right : Avoids f.2 (presetKey e.1)

theorem Apart.symm {e f : String × String} (h : Apart e f) : Apart f e :=
  ⟨fun heq => (h.text heq.symm).symm, h.right, h.left⟩

namespace Context

/-- No scope is open, and no function is defined. -/
structure AtRoot (c : Context) : Prop where
  inner : c.scopes.inner = []
  functions : c.scopes.root.functions = []

/-- The context in which a variable has its value from outside. -/
def withPreset (c : Context) (name : String) (v : Value) : Context :=
  { c with scopes := c.scopes.setGlobal (withoutSigil name) v }

/-- What a variable of the root scope is bound to. -/
def globalOf? (c : Context) (key : String) : Option Value := c.scopes.root.values.get? key

/-- What an entry sets its variable to, if it can be defined. -/
def presetOf? (c : Context) (e : String × String) : Option Value :=
  if isPlainName (withoutSigil e.1).toList then ((presetValue e.2).outcome c).1.toOption else none

@[simp] theorem globalOf?_withPreset (c : Context) (name : String) (v : Value) (key : String) :
    (c.withPreset name v).globalOf? key =
      if key = presetKey name then some v else c.globalOf? key :=
  Entries.get?_put _ _ _ _

/-- What an entry sets its variable to is what its text stands for. -/
theorem presetOf?_congr {c : Context} {e f : String × String} (he : (c.presetOf? e).isSome)
    (hf : (c.presetOf? f).isSome) (htext : e.2 = f.2) : c.presetOf? e = c.presetOf? f := by
  unfold presetOf? at he hf ⊢
  split at he
  next hplain =>
    split at hf
    next hplain' => rw [if_pos hplain, if_pos hplain', htext]
    next => cases hf
  next => cases he

theorem presetOf?_of_read {text : String} {source : Value}
    (hread : Grammar.readValue text outside = .ok source) (c : Context) (name : String) :
    c.presetOf? (name, text) =
      if isPlainName (withoutSigil name).toList then
        ((evaluate (invoke (callsLeft c)) outside true source).outcome c).1.toOption
      else none := by
  rw [presetOf?, presetValue, hread]
  rfl

theorem atRoot_new (urlMode : UrlMode) (resolver : Resolver) (maxImportDepth : Nat) :
    (Context.new urlMode resolver maxImportDepth).AtRoot := ⟨rfl, rfl⟩

namespace AtRoot

variable {c : Context} (h : c.AtRoot)
include h

theorem withPreset (name : String) (v : Value) : (c.withPreset name v).AtRoot :=
  ⟨h.inner, h.functions⟩

theorem function?_eq (name : String) : c.scopes.function? name = none := by
  simp [Scopes.function?, Scopes.frames, h.inner, h.functions, Entries.get?]

theorem valueOf?_eq (name : String) : c.scopes.valueOf? name = c.globalOf? (nameKey name) := by
  simp [Scopes.valueOf?, Scopes.frames, h.inner, globalOf?]

end AtRoot

end Context

/-! ## One entry -/

/-- A text stands for the same in some contexts if its variables do. -/
theorem presetValue_uniform {D : Context → Prop} {calls : Nat} {text : String}
    (hcalls : ∀ d, D d → callsLeft d = calls)
    (h : ∀ source, Grammar.readValue text outside = .ok source →
      source.All (Value.IsUniformPart D)) : Uniform D (presetValue text) := by
  unfold presetValue
  cases hread : Grammar.readValue text outside with
  | error failure => exact (uniform_steps D).throw failure
  | ok source =>
      obtain ⟨r, hr⟩ := evaluate_uniform (invoke calls) outside (h source hread) true
      refine ⟨r, fun d hd => ?_⟩
      show (evaluate (invoke (callsLeft d)) outside true source).outcome d = (r, d)
      rw [hcalls d hd]
      exact hr d hd

/-- A word mentions no variable. -/
theorem avoids_of_word {text word : String} (h : Grammar.readValue text outside = .ok (.word word))
    (key : String) : Avoids text key := by
  intro source hsource
  obtain rfl := Except.ok.inj (h.symm.trans hsource)
  exact .mk trivial fun _ hw => absurd hw List.not_mem_nil

/-- A word stands for itself. -/
theorem presetValue_of_word {text word : String} (h : Grammar.readValue text outside = .ok (.word word))
    (c : Context) : (presetValue text).outcome c = (.ok (.word word), c) := by
  rw [presetValue, h]
  rfl

theorem presetOf?_of_word {text word : String} (h : Grammar.readValue text outside = .ok (.word word))
    {name : String} (hname : isPlainName (withoutSigil name).toList = true) (c : Context) :
    c.presetOf? (name, text) = some (.word word) := by
  rw [Context.presetOf?, if_pos hname, presetValue_of_word h]
  rfl

theorem definePreset_eq (name text : String) : definePreset name text = (do
    if !isPlainName (withoutSigil name).toList then
      throw (.setting (.variableName (withoutSigil name)))
    let value ← presetValue text
    modifyScopes fun s => s.setGlobal (withoutSigil name) value) := by
  simp only [definePreset, presetValue, bind_assoc]

theorem definePresets_append (front behind : Entries String) :
    definePresets (front ++ behind) = (do definePresets front; definePresets behind) := by
  induction front with
  | nil => rfl
  | cons e rest ih =>
      obtain ⟨name, text⟩ := e
      simp only [List.cons_append, definePresets, ih, bind_assoc]

section
variable {c : Context} (hc : c.AtRoot)
include hc

/-- What a text stands for is computed without a change of the context. -/
theorem exists_presetValue (text : String) : ∃ r, (presetValue text).outcome c = (r, c) := by
  have hparts : ∀ w : Value, w.IsUniformPart (· = c) := by
    intro w
    cases w with
    | «variable» name => exact ⟨_, fun d hd => by rw [hd]⟩
    | call name arguments => exact fun d hd => by rw [hd, hc.function?_eq]
    | _ => trivial
  obtain ⟨r, hr⟩ := presetValue_uniform (D := (· = c)) (fun d hd => by rw [hd])
    fun source _ => Value.all_of_forall hparts source
  exact ⟨r, hr c rfl⟩

/-- What a text stands for does not depend on the variables that it does not mention. -/
theorem presetValue_withPreset {text name : String} (h : Avoids text (presetKey name)) (v : Value) :
    ((presetValue text).outcome (c.withPreset name v)).1 = ((presetValue text).outcome c).1 := by
  -- the two contexts differ in one variable, and that is not in the text
  let D (d : Context) : Prop := d = c ∨ d = c.withPreset name v
  have hparts : ∀ w : Value, w.IsOther (presetKey name) → w.IsUniformPart D := by
    intro w hw
    cases w with
    | «variable» other =>
        refine ⟨c.scopes.valueOf? other, fun d hd => ?_⟩
        rcases hd with rfl | rfl
        · rfl
        · rw [hc.valueOf?_eq, (hc.withPreset name v).valueOf?_eq, Context.globalOf?_withPreset,
            if_neg hw]
    | call other arguments =>
        intro d hd
        rcases hd with rfl | rfl
        · exact hc.function?_eq other
        · exact (hc.withPreset name v).function?_eq other
    | _ => trivial
  have hcalls : ∀ d, D d → callsLeft d = callsLeft c := by
    rintro d (rfl | rfl) <;> rfl
  obtain ⟨r, hr⟩ := presetValue_uniform hcalls fun source hread => (h source hread).mono hparts
  rw [hr _ (.inl rfl), hr _ (.inr rfl)]

/-- What an entry sets its variable to does not depend on the variables that it does not mention. -/
theorem presetOf?_withPreset {e : String × String} {name : String}
    (h : Avoids e.2 (presetKey name)) (v : Value) :
    (c.withPreset name v).presetOf? e = c.presetOf? e := by
  rw [Context.presetOf?, Context.presetOf?, presetValue_withPreset hc h]

theorem presetOf?_eq_some_iff {name text : String} {v : Value} :
    c.presetOf? (name, text) = some v ↔
      isPlainName (withoutSigil name).toList = true ∧ (presetValue text).outcome c = (.ok v, c) := by
  obtain ⟨r, hr⟩ := exists_presetValue hc text
  rw [Context.presetOf?, hr]
  by_cases hname : isPlainName (withoutSigil name).toList = true
  · cases r <;> simp [hname, Except.toOption]
  · simp [hname]

/-- An entry that can be defined sets its variable. -/
theorem outcome_definePreset {name text : String} {v : Value} (h : c.presetOf? (name, text) = some v) :
    (definePreset name text).outcome c = (.ok (), c.withPreset name v) := by
  obtain ⟨hname, hv⟩ := (presetOf?_eq_some_iff hc).mp h
  simp only [definePreset_eq, hname, Bool.not_true, Bool.false_eq_true, if_false]
  rw [outcome_bind_ok hv]
  rfl

/-- An entry that cannot be defined leaves the context as it is. -/
theorem outcome_definePreset_none {name text : String} (h : c.presetOf? (name, text) = none) :
    ∃ failure, (definePreset name text).outcome c = (.error failure, c) := by
  by_cases hname : isPlainName (withoutSigil name).toList = true
  · obtain ⟨r, hr⟩ := exists_presetValue hc text
    cases r with
    | error failure =>
        refine ⟨failure, ?_⟩
        simp only [definePreset_eq, hname, Bool.not_true, Bool.false_eq_true, if_false]
        exact outcome_bind_error hr
    | ok v =>
        rw [(presetOf?_eq_some_iff hc).mpr ⟨hname, hr⟩] at h
        cases h
  · refine ⟨.setting (.variableName (withoutSigil name)), ?_⟩
    simp only [definePreset_eq, Bool.not_eq_true _ ▸ hname, Bool.not_false, if_true]
    rfl

/-! ## A run through a table -/

theorem definePresets_cons {name text : String} {v : Value} (h : c.presetOf? (name, text) = some v)
    (rest : Entries String) :
    (definePresets ((name, text) :: rest)).outcome c =
      (definePresets rest).outcome (c.withPreset name v) := by
  rw [definePresets, outcome_bind_ok (outcome_definePreset hc h)]

theorem definePresets_cons_none {name text : String} (h : c.presetOf? (name, text) = none)
    (rest : Entries String) :
    ∃ failure, (definePresets ((name, text) :: rest)).outcome c = (.error failure, c) := by
  obtain ⟨failure, hfailure⟩ := outcome_definePreset_none hc h
  exact ⟨failure, outcome_bind_error hfailure⟩

/-- What is kept when any of the entries sets its variable is kept by the run, also if it fails. -/
theorem definePresets_keeps {P : Context → Prop} {presets : Entries String} (hP : P c)
    (hkeeps : ∀ d : Context, d.AtRoot → P d → ∀ e ∈ presets, ∀ v, P (d.withPreset e.1 v)) :
    ((definePresets presets).outcome c).2.AtRoot ∧ P ((definePresets presets).outcome c).2 := by
  induction presets generalizing c with
  | nil => exact ⟨hc, hP⟩
  | cons e rest ih =>
      obtain ⟨name, text⟩ := e
      cases hv : c.presetOf? (name, text) with
      | none =>
          obtain ⟨failure, hfailure⟩ := definePresets_cons_none hc hv rest
          rw [hfailure]
          exact ⟨hc, hP⟩
      | some v =>
          rw [definePresets_cons hc hv]
          exact ih (hc.withPreset name v) (hkeeps c hc hP _ List.mem_cons_self v)
            fun d hd hPd f hf => hkeeps d hd hPd f (List.mem_cons_of_mem _ hf)

theorem atRoot_definePresets (presets : Entries String) :
    ((definePresets presets).outcome c).2.AtRoot :=
  (definePresets_keeps (P := fun _ => True) hc trivial fun _ _ _ _ _ _ => trivial).1

/-- A variable that the table does not set stays as it is. -/
theorem globalOf?_definePresets {presets : Entries String} {key : String}
    (h : ∀ e ∈ presets, presetKey e.1 ≠ key) :
    ((definePresets presets).outcome c).2.globalOf? key = c.globalOf? key := by
  refine (definePresets_keeps (P := (·.globalOf? key = c.globalOf? key)) hc rfl ?_).2
  intro d _ hd e he v
  rw [Context.globalOf?_withPreset, if_neg (h e he).symm, hd]

/-- A text that mentions no variable of the table stands for what it stands for without the table. -/
theorem presetValue_definePresets {presets : Entries String} {text : String}
    (h : ∀ e ∈ presets, Avoids text (presetKey e.1)) :
    ((presetValue text).outcome ((definePresets presets).outcome c).2).1 =
      ((presetValue text).outcome c).1 := by
  refine (definePresets_keeps
    (P := fun d => ((presetValue text).outcome d).1 = ((presetValue text).outcome c).1) hc rfl ?_).2
  intro d hd hsame e he v
  rw [presetValue_withPreset hd (h e he), hsame]

/-- The last entry for a variable sets it to what its text stands for where its turn comes. -/
theorem globalOf?_of_definePresets {front behind : Entries String} {name text : String} {d : Context}
    (hrun : (definePresets (front ++ (name, text) :: behind)).outcome c = (.ok (), d))
    (hbehind : ∀ e ∈ behind, presetKey e.1 ≠ presetKey name) :
    ∃ between v, (definePresets front).outcome c = (.ok (), between) ∧
      ((presetValue text).outcome between).1 = .ok v ∧ d.globalOf? (presetKey name) = some v := by
  rw [definePresets_append] at hrun
  obtain ⟨⟨⟩, between, hfront, hrest⟩ := bind_eq_ok hrun
  have hbetween : between.AtRoot := by simpa [hfront] using atRoot_definePresets hc front
  cases hv : between.presetOf? (name, text) with
  | none =>
      obtain ⟨failure, hfailure⟩ := definePresets_cons_none hbetween hv behind
      rw [hfailure] at hrest
      cases hrest
  | some v =>
      -- no entry behind this one sets the variable again
      have hkept := globalOf?_definePresets (hbetween.withPreset name v) hbehind
      rw [← definePresets_cons hbetween hv, hrest, Context.globalOf?_withPreset, if_pos rfl] at hkept
      exact ⟨between, v, hfront, congrArg Prod.fst ((presetOf?_eq_some_iff hbetween).mp hv).2, hkept⟩

/-! ## Entries that are apart -/

/-- Entries that are apart all set their variables to what each of them would set it to at first. -/
theorem definePresets_apart {presets : Entries String} (hapart : presets.Pairwise Apart)
    (h : ∀ e ∈ presets, (c.presetOf? e).isSome) :
    ∃ d, (definePresets presets).outcome c = (.ok (), d) ∧
      ∀ e ∈ presets, d.globalOf? (presetKey e.1) = c.presetOf? e := by
  induction presets generalizing c with
  | nil => exact ⟨c, rfl, fun _ h => absurd h List.not_mem_nil⟩
  | cons e rest ih =>
      obtain ⟨name, text⟩ := e
      obtain ⟨hhead, hrest⟩ := List.pairwise_cons.mp hapart
      obtain ⟨v, hv⟩ := Option.isSome_iff_exists.mp (h _ List.mem_cons_self)
      have hnext : ∀ f ∈ rest, (c.withPreset name v).presetOf? f = c.presetOf? f :=
        fun f hf => presetOf?_withPreset hc (hhead f hf).right v
      obtain ⟨d, hrun, hset⟩ := ih (hc.withPreset name v) hrest fun f hf =>
        (hnext f hf).symm ▸ h f (List.mem_cons_of_mem _ hf)
      refine ⟨d, by rw [definePresets_cons hc hv, hrun], List.forall_mem_cons.mpr ⟨?_, fun f hf => ?_⟩⟩
      · by_cases hsame : ∃ f ∈ rest, presetKey f.1 = presetKey name
        · -- the variable is set once more, to what the same text stands for
          obtain ⟨f, hf, hkey⟩ := hsame
          rw [← hkey, hset f hf, hnext f hf]
          exact Context.presetOf?_congr (h f (List.mem_cons_of_mem _ hf)) (h _ List.mem_cons_self)
            ((hhead f hf).text hkey.symm).symm
        · have hkept := globalOf?_definePresets (hc.withPreset name v)
            fun f hf heq => hsame ⟨f, hf, heq⟩
          rw [hrun, Context.globalOf?_withPreset, if_pos rfl] at hkept
          rw [hkept, hv]
      · rw [hset f hf, hnext f hf]

/-- If one of the entries could not be defined at first, they cannot all be defined. -/
theorem definePresets_apart_error {presets : Entries String} (hapart : presets.Pairwise Apart)
    {e : String × String} (he : e ∈ presets) (h : c.presetOf? e = none) :
    ∃ failure d, (definePresets presets).outcome c = (.error failure, d) := by
  induction presets generalizing c with
  | nil => exact absurd he List.not_mem_nil
  | cons f rest ih =>
      obtain ⟨name, text⟩ := f
      obtain ⟨hhead, hrest⟩ := List.pairwise_cons.mp hapart
      cases hv : c.presetOf? (name, text) with
      | none =>
          obtain ⟨failure, hfailure⟩ := definePresets_cons_none hc hv rest
          exact ⟨failure, c, hfailure⟩
      | some v =>
          -- the first entry succeeds, so the failing one is still to come, and fails there too
          have hmem : e ∈ rest := (List.mem_cons.mp he).resolve_left fun heq => by
            rw [heq, hv] at h
            cases h
          rw [definePresets_cons hc hv]
          exact ih (hc.withPreset name v) hrest hmem
            ((presetOf?_withPreset hc (hhead e hmem).right v).trans h)

end

/-- **Variables from outside can be set in any order if none depends on another.** Let the entries of a
table be apart: no text mentions the variable of another entry, and names for one variable come with one
text. Then in any two orders either both runs through the table fail, or both succeed and leave every
variable with the same value. -/
theorem definePresets_reordered {first second : Entries String} (hperm : first.Perm second)
    (hapart : first.Pairwise Apart) (options : Options) (tree : FileTree) :
    (∃ d d', (definePresets first).outcome (options.context tree) = (.ok (), d) ∧
        (definePresets second).outcome (options.context tree) = (.ok (), d') ∧
        ∀ name, d'.scopes.valueOf? name = d.scopes.valueOf? name) ∨
      ∃ failure failure' d d',
        (definePresets first).outcome (options.context tree) = (.error failure, d) ∧
          (definePresets second).outcome (options.context tree) = (.error failure', d') := by
  have hc : (options.context tree).AtRoot := Context.atRoot_new _ _ _
  have hapart' : second.Pairwise Apart := (hperm.pairwise_iff Apart.symm).mp hapart
  -- either every text can be read, and each variable has its own, or some cannot, in both orders
  by_cases hall : ∀ e ∈ first, ((options.context tree).presetOf? e).isSome
  · have hall' : ∀ e ∈ second, ((options.context tree).presetOf? e).isSome :=
      fun e he => hall e (hperm.mem_iff.mpr he)
    obtain ⟨d, hrun, hset⟩ := definePresets_apart hc hapart hall
    obtain ⟨d', hrun', hset'⟩ := definePresets_apart hc hapart' hall'
    refine .inl ⟨d, d', hrun, hrun', fun name => ?_⟩
    have hd : d.AtRoot := by simpa [hrun] using atRoot_definePresets hc first
    have hd' : d'.AtRoot := by simpa [hrun'] using atRoot_definePresets hc second
    rw [hd.valueOf?_eq, hd'.valueOf?_eq]
    -- a variable has what its entry says, or what it had before
    by_cases hkey : ∃ e ∈ first, presetKey e.1 = nameKey name
    · obtain ⟨e, he, hkey⟩ := hkey
      rw [← hkey, hset e he, hset' e (hperm.mem_iff.mp he)]
    · have hunset : ∀ e ∈ first, presetKey e.1 ≠ nameKey name := fun e he heq => hkey ⟨e, he, heq⟩
      have hkept := globalOf?_definePresets hc hunset
      have hkept' := globalOf?_definePresets hc fun e he => hunset e (hperm.mem_iff.mpr he)
      rw [hrun] at hkept
      rw [hrun'] at hkept'
      rw [hkept, hkept']
  · obtain ⟨e, he, hnone⟩ : ∃ e ∈ first, (options.context tree).presetOf? e = none := by
      simpa [Option.not_isSome_iff_eq_none] using hall
    obtain ⟨failure, d, hrun⟩ := definePresets_apart_error hc hapart he hnone
    obtain ⟨failure', d', hrun'⟩ :=
      definePresets_apart_error hc hapart' (hperm.mem_iff.mp he) hnone
    exact .inr ⟨failure, failure', d, d', hrun, hrun'⟩

/-- Two spellings of one variable with one text, and another variable. -/
def apartPresets : Entries String :=
  [("$line_width", "thin"), ("accent", "red"), ("line-width", "thin")]

theorem apartPresets_reordered : apartPresets.Perm apartPresets.reverse ∧
    apartPresets.Pairwise Apart ∧ ∃ d d',
      (definePresets apartPresets).outcome (Options.standard.context (.empty [])) = (.ok (), d) ∧
        (definePresets apartPresets.reverse).outcome (Options.standard.context (.empty [])) =
          (.ok (), d') ∧
        ∀ name, d'.scopes.valueOf? name = d.scopes.valueOf? name := by
  have hperm : apartPresets.Perm apartPresets.reverse := (List.reverse_perm _).symm
  have hthin : Grammar.readValue "thin" outside = .ok (.word "thin") := by cbv
  have hred : Grammar.readValue "red" outside = .ok (.word "red") := by cbv
  have hthin' := avoids_of_word hthin
  have hred' := avoids_of_word hred
  have hapart : apartPresets.Pairwise Apart := by
    have hne : presetKey "accent" ≠ presetKey "$line_width" ∧
        presetKey "accent" ≠ presetKey "line-width" := by cbv
    refine .cons (List.forall_mem_cons.mpr
      ⟨⟨fun h => absurd h.symm hne.1, hthin' _, hred' _⟩, ?_⟩) ?_
    · exact List.forall_mem_singleton.mpr ⟨fun _ => rfl, hthin' _, hthin' _⟩
    · refine .cons (List.forall_mem_singleton.mpr ⟨fun h => absurd h hne.2, hred' _, hthin' _⟩) ?_
      exact List.pairwise_singleton Apart _
  have hdefined : ∀ e ∈ apartPresets,
      ((Options.standard.context (.empty [])).presetOf? e).isSome := by
    refine List.forall_mem_cons.mpr ⟨?_, List.forall_mem_cons.mpr ⟨?_, ?_⟩⟩
    · rw [presetOf?_of_word hthin (by cbv)]
      rfl
    · rw [presetOf?_of_word hred (by cbv)]
      rfl
    · rw [List.forall_mem_singleton, presetOf?_of_word hthin (by cbv)]
      rfl
  refine ⟨hperm, hapart, ?_⟩
  -- one of the two outcomes is left, since every text of the table can be read
  obtain hsame | ⟨failure, -, d, -, hfailed, -⟩ :=
    definePresets_reordered hperm hapart .standard (.empty [])
  · exact hsame
  · have hc : (Options.standard.context (.empty [])).AtRoot := Context.atRoot_new _ _ _
    obtain ⟨d', hrun, -⟩ := definePresets_apart hc hapart hdefined
    rw [hfailed] at hrun
    cases hrun

/-- A text can mention another variable of the table only if that comes first. -/
theorem mentionedLater_fails :
    (∃ d, (definePresets [("base", "red"), ("accent", "$base")]).outcome
        (Options.standard.context (.empty [])) = (.ok (), d) ∧
          d.scopes.valueOf? "accent" = some (.word "red")) ∧
      ∃ failure d, (definePresets [("accent", "$base"), ("base", "red")]).outcome
        (Options.standard.context (.empty [])) = (.error failure, d) := by
  have hred : Grammar.readValue "red" outside = .ok (.word "red") := by cbv
  have hbase : Grammar.readValue "$base" outside = .ok (.variable "base") := by cbv
  let c := Options.standard.context (.empty [])
  have hc : c.AtRoot := Context.atRoot_new _ _ _
  constructor
  · have hfirst : c.presetOf? ("base", "red") = some (.word "red") :=
      presetOf?_of_word hred (by cbv) c
    have hsecond : (c.withPreset "base" (.word "red")).presetOf? ("accent", "$base") =
        some (.word "red") := by
      rw [Context.presetOf?_of_read hbase]
      cbv
    rw [definePresets_cons hc hfirst, definePresets_cons (hc.withPreset _ _) hsecond]
    exact ⟨_, rfl, by cbv⟩
  · have hunknown : c.presetOf? ("accent", "$base") = none := by
      rw [Context.presetOf?_of_read hbase]
      cbv
    obtain ⟨failure, hfailure⟩ := definePresets_cons_none hc hunknown [("base", "red")]
    exact ⟨failure, c, hfailure⟩

end Scss
