import Scss.CommandLine
import Scss.Proofs.Binding
import Scss.Proofs.Presets

/-!
# Variables from the command line and from a configuration

Variables can be set on the command line and in a configuration file. Both are put in one table, under
the names as they are written: of two definitions for a name the later counts, and an entry of the
configuration is left out if its name is defined on the command line (`get?_presets`).

The table is gone through in any order, and only then the names are read as those of variables. So if a
variable is written in one way throughout, it gets the value of its last definition, or else that of the
configuration (`definitions_before_config`). Where two spellings of it are in the table, the order
decides.
-/

namespace Scss

open Compile

theorem Entries.nodup_put {β : Type} {entries : Entries β} (h : (entries.map Prod.fst).Nodup)
    (key : String) (value : β) : ((entries.put key value).map Prod.fst).Nodup := by
  rw [map_fst_put]
  split
  · exact h
  next hkey =>
    rw [has_iff] at hkey
    exact List.nodup_append.mpr ⟨h, List.nodup_singleton key, fun k hk k' hk' heq =>
      hkey (List.mem_singleton.mp hk' ▸ heq ▸ hk)⟩

namespace CommandLine

/-- A name stands on the command line or in the configuration. -/
def IsWritten (config : Config) (definitions : List String) (name : String) : Prop :=
  (∃ definition ∈ definitions, ∃ text, cutDefinition? definition = some (name, text)) ∨
    (config.presets.getD []).has name = true

/-- All names that are written for a variable are the same. -/
def SpelledOnce (config : Config) (definitions : List String) (key : String) : Prop :=
  ∀ name name', IsWritten config definitions name → IsWritten config definitions name' →
    presetKey name = key → presetKey name' = key → name' = name

/-- A run through a table, from one context to another, sets a variable to the value of a text: to what
the text stands for when its turn comes. If the text mentions no variable of the table, that is what it
stands for in the beginning. -/
structure SetsTo (order : Entries String) (c d : Context) (key text : String) (v : Value) : Prop where
  turn : ∃ name front behind between, order = front ++ (name, text) :: behind ∧ presetKey name = key ∧
    (definePresets front).outcome c = (.ok (), between) ∧
    ((presetValue text).outcome between).1 = .ok v
  alone : (∀ e ∈ order, Avoids text (presetKey e.1)) → ((presetValue text).outcome c).1 = .ok v
  bound : d.globalOf? key = some v

/-! ## One table -/

/-- The text that a definition gives a name. -/
def textFor? (name definition : String) : Option String :=
  match cutDefinition? definition with
  | some (defined, text) => if defined = name then some text else none
  | none => none

/-- The text that the last of the definitions for a name gives it. -/
def lastFor? (name : String) : List String → Option String
  | [] => none
  | definition :: rest => (lastFor? name rest).or (textFor? name definition)

theorem lastFor?_append (name : String) (front behind : List String) :
    lastFor? name (front ++ behind) = (lastFor? name behind).or (lastFor? name front) := by
  induction front with
  | nil => rw [List.nil_append, lastFor?, Option.or_none]
  | cons definition rest ih => rw [List.cons_append, lastFor?, ih, lastFor?, Option.or_assoc]

theorem lastFor?_eq_none {name : String} {definitions : List String}
    (h : ∀ definition ∈ definitions, textFor? name definition = none) :
    lastFor? name definitions = none := by
  induction definitions with
  | nil => rfl
  | cons definition rest ih =>
      rw [lastFor?, h definition List.mem_cons_self,
        ih fun later hlater => h later (List.mem_cons_of_mem _ hlater)]
      rfl

theorem exists_of_lastFor? {name text : String} {definitions : List String}
    (h : lastFor? name definitions = some text) :
    ∃ definition ∈ definitions, cutDefinition? definition = some (name, text) := by
  induction definitions with
  | nil => cases h
  | cons definition rest ih =>
      rw [lastFor?, Option.or_eq_some_iff] at h
      obtain hrest | ⟨-, hown⟩ := h
      · obtain ⟨later, hlater, hcut⟩ := ih hrest
        exact ⟨later, List.mem_cons_of_mem _ hlater, hcut⟩
      · refine ⟨definition, List.mem_cons_self, ?_⟩
        unfold textFor? at hown
        split at hown
        next defined value hcut =>
          split at hown
          next heq => rw [hcut, heq, Option.some.inj hown]
          next => cases hown
        next => cases hown

/-- Puts a definition in a table. -/
def define (found : Entries String) (definition : String) : Except Failure (Entries String) :=
  match cutDefinition? definition with
  | some (name, value) => .ok (Entries.put name value found)
  | none => .error (.setting (.definition definition))

theorem presetsOf_eq (definitions : List String) :
    presetsOf definitions = definitions.foldlM define [] := rfl

/-- Definitions are put in a table that may hold entries already. -/
theorem get?_foldlM_define {definitions : List String} {found found' : Entries String}
    (h : definitions.foldlM define found = .ok found') :
    (∀ name, found'.get? name = (lastFor? name definitions).or (found.get? name)) ∧
      ((found.map Prod.fst).Nodup → (found'.map Prod.fst).Nodup) := by
  induction definitions generalizing found with
  | nil =>
      obtain rfl := Except.ok.inj h
      exact ⟨fun _ => rfl, id⟩
  | cons definition rest ih =>
      rw [List.foldlM_cons] at h
      cases hcut : cutDefinition? definition with
      | none => rw [define, hcut] at h; cases h
      | some e =>
          obtain ⟨defined, value⟩ := e
          rw [define, hcut] at h
          obtain ⟨hget, hnodup⟩ := ih h
          refine ⟨fun name => ?_, fun hfound => hnodup (Entries.nodup_put hfound _ _)⟩
          rw [hget, lastFor?, Option.or_assoc, Entries.get?_put, textFor?, hcut]
          by_cases hname : name = defined
          · simp only [if_pos hname, if_pos hname.symm, Option.some_or]
          · simp only [if_neg hname, if_neg (Ne.symm hname), Option.none_or]

theorem addMissing_cons (name text : String) (rest found : Entries String) :
    addMissing ((name, text) :: rest) found =
      addMissing rest (if found.has name then found else found.put name text) := rfl

theorem get?_addMissing (more found : Entries String) (key : String) :
    (addMissing more found).get? key = (found.get? key).or (more.get? key) := by
  induction more generalizing found with
  | nil => rw [Entries.get?, Option.or_none]; rfl
  | cons e rest ih =>
      obtain ⟨name, text⟩ := e
      rw [addMissing_cons, ih, Entries.get?]
      by_cases hfound : found.has name
      · rw [if_pos hfound]
        by_cases hname : name = key
        · obtain ⟨own, hown⟩ := Option.isSome_iff_exists.mp (hname ▸ hfound : found.has key)
          rw [hown, Option.some_or, Option.some_or]
        · rw [if_neg hname]
      · rw [if_neg hfound, Entries.get?_put]
        by_cases hname : name = key
        · have hnone : found.get? key = none := by simpa [Entries.has, hname] using hfound
          rw [if_pos hname.symm, if_pos hname, hnone, Option.some_or, Option.none_or]
        · rw [if_neg (Ne.symm hname), if_neg hname]

theorem nodup_addMissing (more : Entries String) {found : Entries String}
    (h : (found.map Prod.fst).Nodup) : ((addMissing more found).map Prod.fst).Nodup := by
  induction more generalizing found with
  | nil => exact h
  | cons e rest ih =>
      rw [addMissing_cons]
      refine ih ?_
      split
      · exact h
      · exact Entries.nodup_put h _ _

section
variable {config : Config} {mode : Option UrlMode} {directories definitions : List String}
  {options : Options} (h : settings config mode directories definitions = .ok options)
include h

theorem exists_presetsOf : ∃ found, presetsOf definitions = .ok found ∧
    options.presets = addMissing (config.presets.getD []) found := by
  unfold settings at h
  cases hmode : chosenUrlMode config mode with
  | error failure => rw [hmode] at h; cases h
  | ok chosen =>
      cases hfound : presetsOf definitions with
      | error failure => rw [hmode, hfound] at h; cases h
      | ok found =>
          rw [hmode, hfound] at h
          obtain rfl := Except.ok.inj h
          exact ⟨found, rfl, rfl⟩

/-- **What the command line says of a name goes before what the configuration says of it.** -/
theorem get?_presets (name : String) : options.presets.get? name =
    (lastFor? name definitions).or ((config.presets.getD []).get? name) := by
  obtain ⟨found, hfound, hpresets⟩ := exists_presetsOf h
  rw [presetsOf_eq] at hfound
  rw [hpresets, get?_addMissing, (get?_foldlM_define hfound).1 name]
  exact congrArg (Option.or · _) (Option.or_none)

theorem nodup_presets : (options.presets.map Prod.fst).Nodup := by
  obtain ⟨found, hfound, hpresets⟩ := exists_presetsOf h
  rw [presetsOf_eq] at hfound
  rw [hpresets]
  exact nodup_addMissing _ ((get?_foldlM_define hfound).2 List.nodup_nil)

theorem isWritten_of_mem_presets {e : String × String} (he : e ∈ options.presets) :
    IsWritten config definitions e.1 := by
  have hhas : options.presets.has e.1 := Entries.has_iff.mpr (List.mem_map_of_mem he)
  rw [Entries.has, get?_presets h, Option.isSome_or, Bool.or_eq_true] at hhas
  refine hhas.imp (fun hlast => ?_) id
  obtain ⟨text, htext⟩ := Option.isSome_iff_exists.mp hlast
  obtain ⟨definition, hmem, hcut⟩ := exists_of_lastFor? htext
  exact ⟨definition, hmem, text, hcut⟩

/-- A variable that is spelled in one way gets its value from the one entry for it. -/
theorem exists_setsTo {order : Entries String} (horder : order.Perm options.presets) {c d : Context}
    (hc : c.AtRoot) (hrun : (definePresets order).outcome c = (.ok (), d)) {name text : String}
    (hspelling : SpelledOnce config definitions (presetKey name))
    (hget : options.presets.get? name = some text) :
    ∃ v, SetsTo order c d (presetKey name) text v := by
  have hmem : (name, text) ∈ order := horder.mem_iff.mpr (Entries.mem_of_get? hget)
  have hnodup : (order.map Prod.fst).Nodup :=
    (horder.map Prod.fst).nodup_iff.mpr (nodup_presets h)
  have hwritten : ∀ e ∈ order, IsWritten config definitions e.1 :=
    fun e he => isWritten_of_mem_presets h (horder.mem_iff.mp he)
  obtain ⟨front, behind, rfl⟩ := List.append_of_mem hmem
  have hbehind : ∀ e ∈ behind, presetKey e.1 ≠ presetKey name := by
    intro e he hkey
    have hin : e ∈ front ++ (name, text) :: behind :=
      List.mem_append_right _ (List.mem_cons_of_mem _ he)
    have hname : e.1 = name := hspelling name e.1 (hwritten _ hmem) (hwritten e hin) rfl hkey
    -- the entry would have the same name, but a table has each name once
    have hagain : name ∈ behind.map Prod.fst := hname ▸ List.mem_map_of_mem he
    rw [List.map_append, List.map_cons] at hnodup
    exact (List.nodup_cons.mp (List.nodup_append.mp hnodup).2.1).1 hagain
  obtain ⟨between, v, hfront, hv, hbound⟩ := globalOf?_of_definePresets hc hrun hbehind
  refine ⟨v, ⟨name, front, behind, between, rfl, rfl, hfront, hv⟩, fun havoids => ?_, hbound⟩
  have hsame : ((presetValue text).outcome ((definePresets front).outcome c).2).1 =
      ((presetValue text).outcome c).1 :=
    presetValue_definePresets hc fun e he => havoids e (List.mem_append_left _ he)
  rw [hfront] at hsame
  exact hsame.symm.trans hv

/-- **Definitions on the command line go before the configuration.** Let a variable be spelled in one way
wherever it is written, and let the table be gone through in any order without a failure. If the variable
is defined on the command line, it is bound to the value of its last definition. If it only stands in the
configuration, it is bound to the value there. -/
theorem definitions_before_config {order : Entries String} (horder : order.Perm options.presets)
    {tree : FileTree} {d : Context}
    (hrun : (definePresets order).outcome (options.context tree) = (.ok (), d)) {key : String}
    (hspelling : SpelledOnce config definitions key) :
    (∀ front definition behind name text, definitions = front ++ definition :: behind →
        cutDefinition? definition = some (name, text) → presetKey name = key →
          (∀ later ∈ behind, ∀ name text, cutDefinition? later = some (name, text) →
            presetKey name ≠ key) →
            ∃ v, SetsTo order (options.context tree) d key text v) ∧
      ((∀ definition ∈ definitions, ∀ name text, cutDefinition? definition = some (name, text) →
          presetKey name ≠ key) →
        ∀ name text, (config.presets.getD []).get? name = some text → presetKey name = key →
          ∃ v, SetsTo order (options.context tree) d key text v) := by
  have hc : (options.context tree).AtRoot := Context.atRoot_new _ _ _
  have hother : ∀ {name : String} {others : List String}, presetKey name = key →
      (∀ other ∈ others, ∀ name text, cutDefinition? other = some (name, text) →
        presetKey name ≠ key) → lastFor? name others = none := by
    intro name others hkey hothers
    refine lastFor?_eq_none fun other hmem => ?_
    unfold textFor?
    split
    next defined text hcut =>
      refine if_neg fun heq : defined = name => hothers other hmem defined text hcut ?_
      rw [heq, hkey]
    next => rfl
  constructor
  · rintro front definition behind name text rfl hcut rfl hlater
    have hget : options.presets.get? name = some text := by
      rw [get?_presets h, lastFor?_append, lastFor?, hother rfl hlater, textFor?, hcut]
      simp
    exact exists_setsTo h horder hc hrun hspelling hget
  · rintro hnone name text hconfig rfl
    have hget : options.presets.get? name = some text := by
      rw [get?_presets h, hother rfl hnone, Option.none_or, hconfig]
    exact exists_setsTo h horder hc hrun hspelling hget

end

/-- Two words under two names. -/
theorem definePresets_two_words {c : Context} (hc : c.AtRoot) {text text' word word' : String}
    (h : Grammar.readValue text outside = .ok (.word word))
    (h' : Grammar.readValue text' outside = .ok (.word word')) {name name' : String}
    (hname : isPlainName (withoutSigil name).toList = true)
    (hname' : isPlainName (withoutSigil name').toList = true) :
    (definePresets [(name, text), (name', text')]).outcome c =
      (.ok (), (c.withPreset name (.word word)).withPreset name' (.word word')) := by
  rw [definePresets_cons hc (presetOf?_of_word h hname c),
    definePresets_cons (hc.withPreset _ _) (presetOf?_of_word h' hname' _)]
  rfl

/-- A configuration with values for `$accent` and `$gutter`. -/
def colored : Config := ⟨none, none, some [("accent", "blue"), ("gutter", "wide")], none⟩

/-- `-D accent=green -D " accent =red"`. -/
def redDefined : List String := ["accent=green", " accent =red"]

theorem redDefined_before_colored : ∃ options d,
    settings colored none [] redDefined = .ok options ∧ SpelledOnce colored redDefined "accent" ∧
      (definePresets options.presets).outcome (options.context (.empty [])) = (.ok (), d) ∧
      d.globalOf? "accent" = some (.word "red") := by
  have hred : Grammar.readValue "red" outside = .ok (.word "red") := by cbv
  have hwide : Grammar.readValue "wide" outside = .ok (.word "wide") := by cbv
  let options : Options :=
    ⟨.standard, [], [("accent", "red"), ("gutter", "wide")], standardImportDepth⟩
  have hsettings : settings colored none [] redDefined = .ok options := by cbv
  have hc : (options.context (.empty [])).AtRoot := Context.atRoot_new _ _ _
  -- only the two names of the table are written, and they are names of different variables
  have hspelling : SpelledOnce colored redDefined "accent" := by
    have hother : presetKey "gutter" ≠ "accent" := by cbv
    have hnames : ∀ name, IsWritten colored redDefined name → name = "accent" ∨ name = "gutter" := by
      rintro name (⟨definition, hmem, text, hcut⟩ | hconfig)
      · have hcuts : redDefined.map cutDefinition? =
            [some ("accent", "green"), some ("accent", "red")] := by cbv
        have hin : some (name, text) ∈ redDefined.map cutDefinition? :=
          hcut ▸ List.mem_map_of_mem hmem
        rw [hcuts] at hin
        simp only [List.mem_cons, Option.some.injEq, Prod.mk.injEq, List.not_mem_nil, or_false] at hin
        exact .inl (hin.elim And.left And.left)
      · simpa [colored] using Entries.has_iff.mp hconfig
    intro name name' hname hname' hkey hkey'
    obtain rfl := (hnames name hname).resolve_right fun heq => hother (heq ▸ hkey)
    exact (hnames name' hname').resolve_right fun heq => hother (heq ▸ hkey')
  have haccent : isPlainName (withoutSigil "accent").toList = true := by cbv
  have hgutter : isPlainName (withoutSigil "gutter").toList = true := by cbv
  have hrun := definePresets_two_words hc hred hwide haccent hgutter
  obtain ⟨hdefined, -⟩ := definitions_before_config hsettings (List.Perm.refl _) hrun hspelling
  obtain ⟨v, hset⟩ := hdefined ["accent=green"] " accent =red" [] "accent" "red" rfl (by cbv) (by cbv)
    fun _ h => absurd h List.not_mem_nil
  have hv := hset.alone fun e _ => avoids_of_word hred _
  rw [presetValue_of_word hred] at hv
  exact ⟨options, _, hsettings, hspelling, hrun, Except.ok.inj hv ▸ hset.bound⟩

/-- The configuration names `$accent` with its sigil, the command line without it. Both are in the table,
and the one that comes later counts. -/
theorem otherSpelling_wins : ∃ options d,
    settings ⟨none, none, some [("$accent", "blue")], none⟩ none [] ["accent=red"] = .ok options ∧
      presetKey "$accent" = presetKey "accent" ∧
      (definePresets options.presets).outcome (options.context (.empty [])) = (.ok (), d) ∧
      d.globalOf? "accent" = some (.word "blue") := by
  have hred : Grammar.readValue "red" outside = .ok (.word "red") := by cbv
  have hblue : Grammar.readValue "blue" outside = .ok (.word "blue") := by cbv
  let options : Options :=
    ⟨.standard, [], [("accent", "red"), ("$accent", "blue")], standardImportDepth⟩
  have hc : (options.context (.empty [])).AtRoot := Context.atRoot_new _ _ _
  have haccent : isPlainName (withoutSigil "accent").toList = true := by cbv
  have hsigil : isPlainName (withoutSigil "$accent").toList = true := by cbv
  have hrun := definePresets_two_words hc hred hblue haccent hsigil
  exact ⟨options, _, by cbv, by cbv, hrun, by cbv⟩

end CommandLine

end Scss
