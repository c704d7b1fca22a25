import Scss.Proofs.RespelledTrees

/-!
# Arguments find their parameters

Arguments are first sorted by the keys of the parameters that they are meant for, and then the
parameters are gone through, and each takes what is found under its key. Where no two parameters have
one key, sorting does no more than to write down the arguments by position, one parameter after
another, and behind them those by name (`assigned`). It succeeds if none of these keys is written down
twice. So whether arguments fit (`Signature.Fits`) can be told from the list of arguments alone, and so
can what each parameter is bound to (`Takes`).
-/

namespace Scss

open Text (nameKey)

variable {α β : Type}

/-- Of two lists put side by side, each is left as far as the other one goes. -/
theorem map_zip (xs : List α) (ys : List β) :
    (xs.zip ys).map Prod.fst = xs.take ys.length ∧ (xs.zip ys).map Prod.snd = ys.take xs.length := by
  induction xs generalizing ys with
  | nil => simp
  | cons x xs ih =>
      cases ys with
      | nil => simp
      | cons y ys =>
          obtain ⟨hfst, hsnd⟩ := ih ys
          exact ⟨congrArg (x :: ·) hfst, congrArg (y :: ·) hsnd⟩

/-! ## Entries under new keys -/

namespace Entries

theorem has_iff {key : String} {entries : Entries β} :
    entries.has key = true ↔ key ∈ entries.map Prod.fst := by
  induction entries with
  | nil => simp [has, get?]
  | cons e rest ih =>
      obtain ⟨k, v⟩ := e
      rw [has, get?, List.map_cons, List.mem_cons]
      split
      next hk => simp [hk]
      next hk => exact ih.trans ⟨Or.inr, fun h => h.resolve_left (Ne.symm hk)⟩

theorem put_of_notMem {key : String} {entries : Entries β} (h : key ∉ entries.map Prod.fst)
    (value : β) : put key value entries = entries ++ [(key, value)] := by
  induction entries with
  | nil => rfl
  | cons e rest ih =>
      obtain ⟨k, v⟩ := e
      rw [List.map_cons, List.mem_cons, not_or] at h
      rw [put, if_neg (Ne.symm h.1), ih h.2, List.cons_append]

theorem get?_eq_none_iff {key : String} {entries : Entries β} :
    entries.get? key = none ↔ key ∉ entries.map Prod.fst := by
  rw [← has_iff, has, Option.isSome_iff_ne_none, not_not]

theorem remove_of_get?_eq_none {key : String} {entries : Entries β} (h : entries.get? key = none) :
    entries.remove key = entries := by
  induction entries with
  | nil => rfl
  | cons entry rest ih =>
      obtain ⟨k, v⟩ := entry
      rw [get?] at h
      rw [remove]
      split at h
      · cases h
      next hk => rw [if_neg hk, ih h]

theorem get?_remove_of_ne {key other : String} (h : other ≠ key) (entries : Entries β) :
    (entries.remove key).get? other = entries.get? other := by
  induction entries with
  | nil => rfl
  | cons e rest ih =>
      obtain ⟨k, v⟩ := e
      rw [remove]
      split
      next hk =>
        subst hk
        rw [get?, if_neg (Ne.symm h)]
      next => rw [get?, get?, ih]

/-- What is found under keys in a row, and behind them. -/
theorem get?_zip_append {keys : List String} (hkeys : keys.Nodup) {i : Nat} {key : String}
    (h : keys[i]? = some key) (values : List β) (entries : Entries β) :
    get? key (keys.zip values ++ entries) = values[i]?.or (get? key entries) := by
  induction keys generalizing i values with
  | nil => simp at h
  | cons k keys ih =>
      obtain ⟨hk, hkeys⟩ := List.nodup_cons.mp hkeys
      cases values with
      | nil => simp
      | cons v values =>
          rw [List.zip_cons_cons, List.cons_append, get?]
          cases i with
          | zero =>
              obtain rfl := Option.some.inj h
              rw [if_pos rfl]
              rfl
          | succ i =>
              rw [List.getElem?_cons_succ] at h
              have hne : k ≠ key := fun heq => hk (heq ▸ List.mem_of_getElem? h)
              rw [if_neg hne, ih hkeys h, List.getElem?_cons_succ]

/-- Going through all keys, each value is found once. -/
theorem filterMap_get?_perm {keys : List String} (hkeys : keys.Nodup) {entries : Entries β}
    (hentries : (entries.map Prod.fst).Nodup) (hsub : ∀ e ∈ entries, e.1 ∈ keys) :
    (keys.filterMap fun key => get? key entries).Perm (entries.map Prod.snd) := by
  induction entries generalizing keys with
  | nil => simp [get?]
  | cons e rest ih =>
      obtain ⟨k, v⟩ := e
      obtain ⟨hk, hrest⟩ := List.nodup_cons.mp hentries
      have hmem : k ∈ keys := hsub (k, v) List.mem_cons_self
      -- the keys besides the first one are found behind the first entry
      have hothers : (keys.erase k).filterMap (fun key => get? key ((k, v) :: rest)) =
          (keys.erase k).filterMap fun key => get? key rest := by
        refine List.filterMap_congr fun key hkey => ?_
        rw [get?, if_neg fun heq => (hkeys.mem_erase_iff.mp hkey).1 heq.symm]
      have hbehind : ∀ e ∈ rest, e.1 ∈ keys.erase k := by
        intro e he
        have hkey : e.1 ∈ rest.map Prod.fst := List.mem_map_of_mem he
        exact hkeys.mem_erase_iff.mpr
          ⟨fun heq => hk (heq ▸ hkey), hsub e (List.mem_cons_of_mem _ he)⟩
      refine ((List.perm_cons_erase hmem).filterMap _).trans ?_
      rw [List.filterMap_cons_some (b := v) (by rw [get?, if_pos rfl]), hothers]
      exact (ih (hkeys.erase k) hrest hbehind).cons v

end Entries

/-! ## Arguments by position and by name -/

/-- Whether an argument is meant for a parameter by its name, in any spelling. -/
def Argument.Names (a : Argument α) (parameter : String) : Prop :=
  ∃ name, a.name = some name ∧ SameName name parameter

/-- The values passed by position. -/
def byPosition (arguments : List (Argument α)) : List α :=
  (arguments.filter fun a => a.name.isNone).map Argument.value

/-- The values passed by name, under the keys of their names. -/
def byName (arguments : List (Argument α)) : Entries α :=
  arguments.filterMap fun a => a.name.map fun name => (nameKey name, a.value)

@[simp] theorem byPosition_named (name : String) (value : α) (splat : Bool)
    (arguments : List (Argument α)) :
    byPosition (⟨some name, value, splat⟩ :: arguments) = byPosition arguments := rfl

@[simp] theorem byPosition_unnamed (value : α) (splat : Bool) (arguments : List (Argument α)) :
    byPosition (⟨none, value, splat⟩ :: arguments) = value :: byPosition arguments := rfl

@[simp] theorem byName_named (name : String) (value : α) (splat : Bool)
    (arguments : List (Argument α)) :
    byName (⟨some name, value, splat⟩ :: arguments) =
      (nameKey name, value) :: byName arguments := rfl

@[simp] theorem byName_unnamed (value : α) (splat : Bool) (arguments : List (Argument α)) :
    byName (⟨none, value, splat⟩ :: arguments) = byName arguments := rfl

theorem byPosition_eq_nil_iff {arguments : List (Argument α)} :
    byPosition arguments = [] ↔ ∀ a ∈ arguments, a.name.isSome = true := by
  rw [byPosition, List.map_eq_nil_iff, List.filter_eq_nil_iff]
  refine forall₂_congr fun a _ => ?_
  cases a.name <;> simp

theorem mem_byName {arguments : List (Argument α)} {key : String} {value : α} :
    (key, value) ∈ byName arguments ↔
      ∃ a ∈ arguments, ∃ name, a.name = some name ∧ nameKey name = key ∧ a.value = value := by
  rw [byName, List.mem_filterMap]
  refine exists_congr fun a => and_congr_right fun _ => ?_
  rw [Option.map_eq_some_iff]
  exact exists_congr fun name => and_congr_right fun _ => Prod.mk_inj

theorem mem_keys_byName {arguments : List (Argument α)} {parameter : String} :
    nameKey parameter ∈ (byName arguments).map Prod.fst ↔ ∃ a ∈ arguments, a.Names parameter := by
  constructor
  · intro h
    obtain ⟨⟨key, value⟩, he, rfl⟩ := List.mem_map.mp h
    obtain ⟨a, ha, name, hname, hkey, -⟩ := mem_byName.mp he
    exact ⟨a, ha, name, hname, hkey⟩
  · rintro ⟨a, ha, name, hname, hkey⟩
    exact List.mem_map.mpr ⟨(_, a.value), mem_byName.mpr ⟨a, ha, name, hname, hkey, rfl⟩, rfl⟩

/-- No argument by position stands behind one by name. -/
def NamedLast (arguments : List (Argument α)) : Prop :=
  arguments.Pairwise fun a b => a.name.isSome = true → b.name.isSome = true

/-- From the first argument by name on, all are by name. -/
theorem namedLast_named {name : String} {value : α} {splat : Bool} {arguments : List (Argument α)} :
    NamedLast (⟨some name, value, splat⟩ :: arguments) ↔ byPosition arguments = [] := by
  rw [NamedLast, List.pairwise_cons, byPosition_eq_nil_iff]
  exact ⟨fun h a ha => h.1 a ha rfl, fun h =>
    ⟨fun a ha _ => h a ha, List.pairwise_of_forall_mem_list fun _ _ b hb _ => h b hb⟩⟩

theorem namedLast_unnamed {value : α} {splat : Bool} {arguments : List (Argument α)} :
    NamedLast (⟨none, value, splat⟩ :: arguments) ↔ NamedLast arguments := by
  rw [NamedLast, List.pairwise_cons]
  exact ⟨And.right, fun h => ⟨fun _ _ hnamed => Bool.noConfusion hnamed, h⟩⟩

/-- No argument is lost, and none counts twice. -/
theorem byPosition_append_byName_perm (arguments : List (Argument α)) :
    (byPosition arguments ++ (byName arguments).map Prod.snd).Perm
      (arguments.map Argument.value) := by
  induction arguments with
  | nil => exact List.Perm.nil
  | cons a rest ih =>
      obtain ⟨name, value, splat⟩ := a
      cases name with
      | none => exact ih.cons value
      | some name =>
          rw [byPosition_named, byName_named, List.map_cons, List.map_cons]
          exact List.perm_middle.trans (ih.cons value)

/-- The argument that is bound, if it is no default. -/
def Binding.given? : Binding α → Option α
  | .given value => some value
  | .default _ => none

/-- The values that arguments are sorted to, by key: those by position go to the parameters in turn. -/
def assigned (parameters : List Parameter) (arguments : List (Argument α)) : Entries α :=
  (parameters.map fun p => nameKey p.name).zip (byPosition arguments) ++ byName arguments

namespace Signature

variable {s : Signature} {arguments : List (Argument α)}

/-! ## Sorting arguments -/

/-- **Arguments by name are written down** if each names a parameter that nothing was passed for. -/
theorem collect_named_eq_ok_iff {passed : Nat} {free : List Parameter} {given : Entries α}
    {r : Entries α × List α} (hgiven : (given.map Prod.fst).Nodup) :
    s.collect passed free true given arguments = .ok r ↔
      byPosition arguments = [] ∧
        (∀ e ∈ byName arguments, e.1 ∈ s.parameters.map fun p => nameKey p.name) ∧
        ((given ++ byName arguments).map Prod.fst).Nodup ∧ r = (given ++ byName arguments, []) := by
  induction arguments generalizing given with
  | nil =>
      have hnil : byName ([] : List (Argument α)) = [] := rfl
      rw [collect, Except.ok.injEq, hnil, List.append_nil]
      exact ⟨fun h => ⟨rfl, List.forall_mem_nil _, hgiven, h.symm⟩, fun h => h.2.2.2.symm⟩
  | cons a rest ih =>
      obtain ⟨name, value, splat⟩ := a
      cases name with
      | none => simp [collect]
      | some name =>
          have hany : (s.parameters.any fun p => nameKey p.name == nameKey name) = true ↔
              nameKey name ∈ s.parameters.map fun p => nameKey p.name := by
            simp
          have hsplit : given ++ (nameKey name, value) :: byName rest =
              given ++ [(nameKey name, value)] ++ byName rest := by simp
          rw [collect_cons_named, byPosition_named, byName_named, List.forall_mem_cons, hany, hsplit]
          have hnew (hfresh : nameKey name ∉ given.map Prod.fst) :
              ((given ++ [(nameKey name, value)]).map Prod.fst).Nodup := by
            rw [List.map_append, List.nodup_append]
            refine ⟨hgiven, List.nodup_singleton _, fun k hk k' hk' heq => hfresh ?_⟩
            rwa [heq, List.mem_singleton.mp hk'] at hk
          constructor
          · rintro ⟨hparameter, hhas, h⟩
            have hfresh : nameKey name ∉ given.map Prod.fst := fun h =>
              Bool.eq_false_iff.mp hhas (Entries.has_iff.mpr h)
            rw [Entries.put_of_notMem hfresh] at h
            obtain ⟨hnone, hparameters, hnodup, hr⟩ := (ih (hnew hfresh)).mp h
            exact ⟨hnone, ⟨hparameter, hparameters⟩, hnodup, hr⟩
          · rintro ⟨hnone, ⟨hparameter, hparameters⟩, hnodup, hr⟩
            -- what is passed for the parameter is not passed twice, or its key came up again
            have hfresh : nameKey name ∉ given.map Prod.fst := by
              rw [List.append_assoc, List.map_append, List.nodup_append] at hnodup
              exact fun h => hnodup.2.2 _ h _ List.mem_cons_self rfl
            have hhas : given.has (nameKey name) = false :=
              Bool.eq_false_iff.mpr fun h => hfresh (Entries.has_iff.mp h)
            refine ⟨hparameter, hhas, ?_⟩
            rw [Entries.put_of_notMem hfresh]
            exact (ih (hnew hfresh)).mpr ⟨hnone, hparameters, hnodup, hr⟩

/-- **Sorting succeeds** if those by position stand in front and find room, and no key comes up twice. -/
theorem collect_eq_ok_iff {passed : Nat} {free : List Parameter} {given : Entries α}
    {r : Entries α × List α}
    (hfree : (given.map Prod.fst ++ free.map fun p => nameKey p.name).Nodup) :
    s.collect passed free false given arguments = .ok r ↔
      NamedLast arguments ∧
        (s.rest.isSome = true ∨ (byPosition arguments).length ≤ free.length) ∧
        (∀ e ∈ byName arguments, e.1 ∈ s.parameters.map fun p => nameKey p.name) ∧
        ((given ++ assigned free arguments).map Prod.fst).Nodup ∧
        r = (given ++ assigned free arguments, (byPosition arguments).drop free.length) := by
  induction arguments generalizing free given r with
  | nil =>
      have hnil : assigned free ([] : List (Argument α)) = [] := by
        rw [assigned, show byPosition ([] : List (Argument α)) = [] from rfl, List.zip_nil_right]
        rfl
      have hgiven : (given.map Prod.fst).Nodup := (List.nodup_append.mp hfree).1
      rw [collect, Except.ok.injEq, hnil, List.append_nil]
      have hdrop : (byPosition ([] : List (Argument α))).drop free.length = [] := List.drop_nil
      rw [hdrop]
      exact ⟨fun h => ⟨.nil, .inr (Nat.zero_le _), List.forall_mem_nil _, hgiven, h.symm⟩,
        fun h => h.2.2.2.2.symm⟩
  | cons a rest ih =>
      obtain ⟨name, value, splat⟩ := a
      cases name with
      | some name =>
          -- from the first argument by name on, none may be by position
          have hflag : s.collect passed free false given (⟨some name, value, splat⟩ :: rest) =
              s.collect passed free true given (⟨some name, value, splat⟩ :: rest) := rfl
          rw [hflag, collect_named_eq_ok_iff (List.nodup_append.mp hfree).1, namedLast_named,
            byPosition_named]
          refine and_congr_right fun hnone => ?_
          have hassigned : assigned free (⟨some name, value, splat⟩ :: rest) =
              byName (⟨some name, value, splat⟩ :: rest) := by
            rw [assigned, byPosition_named, hnone, List.zip_nil_right, List.nil_append]
          rw [hassigned, hnone, List.drop_nil]
          exact ⟨fun h => ⟨.inr (Nat.zero_le _), h⟩, fun h => h.2⟩
      | none =>
          rw [namedLast_unnamed, byPosition_unnamed, byName_unnamed]
          cases free with
          | cons p free =>
              -- the next free parameter takes the argument
              have hnew : nameKey p.name ∉ given.map Prod.fst := fun h =>
                (List.nodup_append.mp hfree).2.2 _ h _ List.mem_cons_self rfl
              have hrest : ((given ++ [(nameKey p.name, value)]).map Prod.fst ++
                  free.map fun p => nameKey p.name).Nodup := by
                rw [List.map_append, List.append_assoc]
                exact hfree
              have hassigned : assigned (p :: free) (⟨none, value, splat⟩ :: rest) =
                  (nameKey p.name, value) :: assigned free rest := rfl
              rw [collect_cons_taken, Entries.put_of_notMem hnew, ih hrest, hassigned]
              simp only [List.append_assoc, List.singleton_append, List.length_cons,
                Nat.add_le_add_iff_right, List.drop_succ_cons, true_and]
          | nil =>
              -- no parameter is free: the argument is left over, if there is a rest for it
              have hassigned : assigned [] (⟨none, value, splat⟩ :: rest) = assigned [] rest := rfl
              rw [collect_cons_left, hassigned]
              constructor
              · rintro ⟨-, hopen, given', left, h, rfl⟩
                obtain ⟨hordered, -, hnames, hnodup, hr⟩ := (ih hfree).mp h
                obtain ⟨rfl, rfl⟩ := Prod.mk.inj hr
                exact ⟨hordered, .inl hopen, hnames, hnodup, rfl⟩
              · rintro ⟨hordered, hroom, hnames, hnodup, rfl⟩
                have hopen : s.rest.isSome = true := by
                  refine hroom.resolve_right ?_
                  rw [List.length_cons, List.length_nil]
                  omega
                exact ⟨rfl, hopen, _, _, (ih hfree).mpr ⟨hordered, .inl hopen, hnames, hnodup, rfl⟩, rfl⟩

/-! ## Filling parameters -/

/-- What a parameter is bound to, if anything: to what was passed for it, or else to its default. -/
def source? (given : Option α) (p : Parameter) : Option (Binding α) :=
  (given.map Binding.given).or (p.default.map Binding.default)

/-- Bindings of parameters in their order, each to what is found for it. -/
abbrev Filled (source : Parameter → Option (Binding α)) :
    List Parameter → Entries (Binding α) → Prop :=
  List.Forall₂ fun p e => e.1 = p.name ∧ source p = some e.2

/-- Only what is found for the parameters themselves matters. -/
theorem filled_congr {parameters : List Parameter} {source source' : Parameter → Option (Binding α)}
    (h : ∀ p ∈ parameters, source p = source' p) {filled : Entries (Binding α)} :
    Filled source parameters filled ↔ Filled source' parameters filled := by
  unfold Filled
  rw [List.forall₂_iff_get, List.forall₂_iff_get]
  refine and_congr_right fun _ => forall₃_congr fun i hi hi' => ?_
  rw [h _ (List.get_mem _ _)]

theorem given?_of_source {given : Option α} {p : Parameter} {b : Binding α}
    (h : source? given p = some b) : b.given? = given := by
  cases given with
  | some value =>
      obtain rfl := Option.some.inj h
      rfl
  | none =>
      obtain ⟨_, -, rfl⟩ := Option.map_eq_some_iff.mp h
      rfl

theorem filterMap_given?_of_filled {parameters : List Parameter} {given : Entries α}
    {filled : Entries (Binding α)}
    (h : Filled (fun p => source? (given.get? (nameKey p.name)) p) parameters filled) :
    (filled.filterMap fun e => e.2.given?) =
      parameters.filterMap fun p => given.get? (nameKey p.name) := by
  induction h with
  | nil => rfl
  | cons he _ ih => rw [List.filterMap_cons, List.filterMap_cons, ih, given?_of_source he.2]

theorem exists_filled_iff {parameters : List Parameter} {source : Parameter → Option (Binding α)} :
    (∃ filled, Filled source parameters filled) ↔ ∀ p ∈ parameters, (source p).isSome = true := by
  induction parameters with
  | nil => exact ⟨fun _ => nofun, fun _ => ⟨[], .nil⟩⟩
  | cons p rest ih =>
      rw [List.forall_mem_cons, ← ih, Option.isSome_iff_exists]
      constructor
      · rintro ⟨_, _ | ⟨he, hfilled⟩⟩
        exact ⟨⟨_, he.2⟩, _, hfilled⟩
      · rintro ⟨⟨b, hb⟩, filled, hfilled⟩
        exact ⟨(p.name, b) :: filled, .cons ⟨rfl, hb⟩ hfilled⟩

/-- The first parameter gets what was passed for it or its default. What was passed for it is out of
the way of the others, whose keys are different anyway. -/
theorem fill_cons_eq_ok_iff {p : Parameter} {rest : List Parameter} {given : Entries α}
    {bindings r : Entries (Binding α)} : fill given bindings (p :: rest) = .ok r ↔
      ∃ b, source? (given.get? (nameKey p.name)) p = some b ∧
        fill (given.remove (nameKey p.name)) (bindings.put p.name b) rest = .ok r := by
  rw [fill]
  cases hget : given.get? (nameKey p.name) with
  | some value => simp [source?]
  | none =>
      rw [Entries.remove_of_get?_eq_none hget]
      cases hdefault : p.default with
      | some value => simp [source?, hdefault]
      | none => simp [source?, hdefault]

/-- **The parameters are filled in their order**, each with what was passed for it or its default. -/
theorem fill_eq_ok_iff {parameters : List Parameter} {given : Entries α}
    {bindings r : Entries (Binding α)}
    (hkeys : (parameters.map fun p => nameKey p.name).Nodup)
    (hnew : ∀ p ∈ parameters, p.name ∉ bindings.map Prod.fst) :
    fill given bindings parameters = .ok r ↔ ∃ filled, r = bindings ++ filled ∧
      Filled (fun p => source? (given.get? (nameKey p.name)) p) parameters filled := by
  induction parameters generalizing given bindings with
  | nil =>
      rw [fill, Except.ok.injEq]
      constructor
      · rintro rfl
        exact ⟨[], (List.append_nil _).symm, .nil⟩
      · rintro ⟨filled, rfl, hfilled⟩
        cases hfilled
        exact (List.append_nil _).symm
  | cons p rest ih =>
      obtain ⟨hp, hrest⟩ := List.nodup_cons.mp hkeys
      obtain ⟨hnewp, hnewrest⟩ := List.forall_mem_cons.mp hnew
      have hne : ∀ q ∈ rest, nameKey q.name ≠ nameKey p.name := fun q hq heq =>
        hp (List.mem_map.mpr ⟨q, hq, heq⟩)
      have hstill (b : Binding α) : ∀ q ∈ rest, q.name ∉ (bindings ++ [(p.name, b)]).map Prod.fst := by
        intro q hq hmem
        rw [List.map_append, List.mem_append] at hmem
        rcases hmem with hmem | hmem
        · exact hnewrest q hq hmem
        · exact hne q hq (congrArg nameKey (List.mem_singleton.mp hmem))
      -- what was passed for this parameter is not found under the keys of the others
      have hsame : ∀ {filled}, Filled (fun q => source? ((given.remove (nameKey p.name)).get?
          (nameKey q.name)) q) rest filled ↔
          Filled (fun q => source? (given.get? (nameKey q.name)) q) rest filled :=
        filled_congr fun q hq => congrArg (source? · q) (Entries.get?_remove_of_ne (hne q hq) given)
      simp only [fill_cons_eq_ok_iff, Entries.put_of_notMem hnewp, ih hrest (hstill _), hsame,
        List.append_assoc, List.singleton_append]
      constructor
      · rintro ⟨b, hb, filled, rfl, hfilled⟩
        exact ⟨_, rfl, .cons ⟨rfl, hb⟩ hfilled⟩
      · rintro ⟨_, rfl, hfilled⟩
        cases hfilled with
        | @cons _ e _ filled he hfilled =>
            obtain ⟨name, b⟩ := e
            obtain ⟨rfl, hb⟩ := he
            exact ⟨b, hb, filled, rfl, hfilled⟩

/-! ## Which arguments fit -/

/-- Arguments that can be sorted by the parameters that they are meant for. -/
structure Sortable (s : Signature) (arguments : List (Argument α)) : Prop where
  ordered : NamedLast arguments
  /-- Those by position find parameters, or a rest to go to. -/
  room : s.rest.isSome = true ∨ (byPosition arguments).length ≤ s.parameters.length
  /-- Those by name name parameters that those by position have left. -/
  named : ∀ a ∈ arguments, ∀ name, a.name = some name →
    ∃ p ∈ s.parameters.drop (byPosition arguments).length, SameName name p.name
  /-- No two of them name the same parameter. -/
  once : arguments.Pairwise fun a b => ∀ name, a.name = some name → ¬ b.Names name

/-- What arguments have to be like for a signature to bind them: parameters that those by position
leave have a default, or are named. -/
structure Fits (s : Signature) (arguments : List (Argument α)) : Prop extends
    s.Sortable arguments where
  filled : ∀ p ∈ s.parameters.drop (byPosition arguments).length, p.default = none →
    ∃ a ∈ arguments, a.Names p.name

/-- How the parameter in a place comes by its value: by position, or else by its name, or else by its
default. -/
inductive Takes (arguments : List (Argument α)) (place : Nat) (p : Parameter) : Binding α → Prop
  | position {value : α} (h : (byPosition arguments)[place]? = some value) :
    Takes arguments place p (.given value)
  | name {a : Argument α} (hplace : (byPosition arguments).length ≤ place) (ha : a ∈ arguments)
    (h : a.Names p.name) : Takes arguments place p (.given a.value)
  | default {value : Value} (hplace : (byPosition arguments).length ≤ place)
    (hnone : ∀ a ∈ arguments, ¬ a.Names p.name) (h : p.default = some value) :
    Takes arguments place p (.default value)

end Signature

/-- The arguments that are bound, to parameters or to the rest. -/
def BoundArguments.passed (bound : BoundArguments α) : List α :=
  (bound.bindings.filterMap fun e => e.2.given?) ++ bound.rest

namespace Signature

/-- Arguments in their places: each parameter has what it takes, and what is left over is the rest. -/
structure Places (s : Signature) (arguments : List (Argument α)) (bound : BoundArguments α) :
    Prop where
  names : bound.bindings.map Prod.fst = s.parameters.map Parameter.name
  taken : ∀ (place : Nat) (p : Parameter) (b : Binding α), s.parameters[place]? = some p →
    bound.bindings[place]? = some (p.name, b) → Takes arguments place p b
  restName : bound.restName = s.rest
  rest : bound.rest = (byPosition arguments).drop s.parameters.length
  /-- No argument is lost or used twice. -/
  passed : bound.passed.Perm (arguments.map Argument.value)

variable {s : Signature} {arguments : List (Argument α)}

/-- The keys that arguments are sorted to. -/
theorem keys_assigned (parameters : List Parameter) (arguments : List (Argument α)) :
    (assigned parameters arguments).map Prod.fst =
      (parameters.map fun p => nameKey p.name).take (byPosition arguments).length ++
        (byName arguments).map Prod.fst := by
  rw [assigned, List.map_append, (map_zip _ _).1]

/-- The arguments besides those that go to the rest. -/
theorem values_assigned (parameters : List Parameter) (arguments : List (Argument α)) :
    (assigned parameters arguments).map Prod.snd =
      (byPosition arguments).take parameters.length ++ (byName arguments).map Prod.snd := by
  rw [assigned, List.map_append, (map_zip _ _).2, List.length_map]

/-- Names are told apart by their keys. -/
theorem once_iff_nodup :
    (arguments.Pairwise fun a b => ∀ name, a.name = some name → ¬ b.Names name) ↔
      ((byName arguments).map Prod.fst).Nodup := by
  rw [byName, List.map_filterMap, List.Nodup, List.pairwise_filterMap]
  refine List.Pairwise.iff fun a b => ?_
  simp only [Option.map_map, Option.map_eq_some_iff, Function.comp_apply]
  constructor
  · rintro h _ ⟨name, hname, rfl⟩ _ ⟨name', hname', rfl⟩ heq
    exact h name hname ⟨name', hname', heq.symm⟩
  · rintro h name hname ⟨name', hname', hsame⟩
    exact h _ ⟨name, hname, rfl⟩ _ ⟨name', hname', rfl⟩ hsame.symm

theorem forall_named_iff (parameters : List Parameter) :
    (∀ a ∈ arguments, ∀ name, a.name = some name → ∃ p ∈ parameters, SameName name p.name) ↔
      ∀ e ∈ byName arguments, e.1 ∈ parameters.map fun p => nameKey p.name := by
  constructor
  · rintro h ⟨key, value⟩ he
    obtain ⟨a, ha, name, hname, rfl, -⟩ := mem_byName.mp he
    obtain ⟨p, hp, hsame⟩ := h a ha name hname
    exact List.mem_map.mpr ⟨p, hp, hsame.symm⟩
  · intro h a ha name hname
    obtain ⟨p, hp, hkey⟩ := List.mem_map.mp (h _ (mem_byName.mpr ⟨a, ha, name, hname, rfl, rfl⟩))
    exact ⟨p, hp, hkey.symm⟩

section
variable (hs : s.Distinct)
include hs

/-- No key comes up twice exactly if each argument by name names a parameter that is left, and no two
of them the same. -/
theorem nodup_assigned_iff (arguments : List (Argument α)) :
    ((∀ e ∈ byName arguments, e.1 ∈ s.parameters.map fun p => nameKey p.name) ∧
        ((assigned s.parameters arguments).map Prod.fst).Nodup) ↔
      (∀ e ∈ byName arguments, e.1 ∈
          (s.parameters.drop (byPosition arguments).length).map fun p => nameKey p.name) ∧
        ((byName arguments).map Prod.fst).Nodup := by
  rw [keys_assigned, List.nodup_append, List.map_drop]
  unfold Distinct at hs
  generalize s.parameters.map (fun p => nameKey p.name) = keys at hs
  generalize (byPosition arguments).length = count
  have hparts := hs
  rw [← List.take_append_drop count keys, List.nodup_append] at hparts
  obtain ⟨htaken, -, hdisjoint⟩ := hparts
  constructor
  · rintro ⟨hnames, -, hnodup, hapart⟩
    refine ⟨fun e he => ?_, hnodup⟩
    have hkey := hnames e he
    rw [← List.take_append_drop count keys, List.mem_append] at hkey
    exact hkey.resolve_left fun htaken => hapart _ htaken _ (List.mem_map_of_mem he) rfl
  · rintro ⟨hleft, hnodup⟩
    refine ⟨fun e he => List.mem_of_mem_drop (hleft e he), htaken, hnodup, ?_⟩
    intro key hkey key' hkey' heq
    obtain ⟨e, he, rfl⟩ := List.mem_map.mp hkey'
    exact hdisjoint key hkey _ (hleft e he) heq

theorem collect_eq_ok_iff_sortable {r : Entries α × List α} :
    s.collect arguments.length s.parameters false [] arguments = .ok r ↔
      s.Sortable arguments ∧
        r = (assigned s.parameters arguments,
          (byPosition arguments).drop s.parameters.length) := by
  have hfree : (([] : Entries α).map Prod.fst ++ s.parameters.map fun p => nameKey p.name).Nodup :=
    hs
  have hnodup := nodup_assigned_iff hs arguments
  rw [← forall_named_iff (s.parameters.drop _), ← once_iff_nodup] at hnodup
  rw [collect_eq_ok_iff hfree, List.nil_append]
  constructor
  · rintro ⟨hordered, hroom, hnames, hkeys, hr⟩
    obtain ⟨hnamed, honce⟩ := hnodup.mp ⟨hnames, hkeys⟩
    exact ⟨⟨hordered, hroom, hnamed, honce⟩, hr⟩
  · rintro ⟨h, hr⟩
    obtain ⟨hnames, hkeys⟩ := hnodup.mpr ⟨h.named, h.once⟩
    exact ⟨h.ordered, h.room, hnames, hkeys, hr⟩

/-- What a parameter is bound to by some arguments. -/
def boundTo? (s : Signature) (arguments : List (Argument α)) (p : Parameter) : Option (Binding α) :=
  source? ((assigned s.parameters arguments).get? (nameKey p.name)) p

/-- **Binding is sorting and filling**: each parameter has to find something. -/
theorem bind_eq_ok_iff_boundTo {callee : String} {bound : BoundArguments α} :
    s.bind callee arguments = .ok bound ↔ s.Sortable arguments ∧
      Filled (s.boundTo? arguments) s.parameters bound.bindings ∧
      bound.restName = s.rest ∧ bound.rest = (byPosition arguments).drop s.parameters.length := by
  have hfill : ∀ {given : Entries α} {r : Entries (Binding α)}, fill given [] s.parameters = .ok r ↔ _ :=
    fill_eq_ok_iff hs fun _ _ => List.not_mem_nil
  rw [bind_eq_ok_iff]
  simp only [collect_eq_ok_iff_sortable hs, hfill, List.nil_append]
  constructor
  · rintro ⟨_, _, _, ⟨hsortable, hr⟩, ⟨_, rfl, hfilled⟩, rfl⟩
    obtain ⟨rfl, rfl⟩ := Prod.mk.inj hr
    exact ⟨hsortable, hfilled, rfl, rfl⟩
  · obtain ⟨bindings, restName, rest⟩ := bound
    rintro ⟨hsortable, hfilled, rfl, rfl⟩
    exact ⟨_, _, _, ⟨hsortable, rfl⟩, ⟨_, rfl, hfilled⟩, rfl⟩

/-- What was sorted to the key of a parameter. -/
theorem get?_assigned {place : Nat} {p : Parameter} (h : s.parameters[place]? = some p) :
    (assigned s.parameters arguments).get? (nameKey p.name) =
      (byPosition arguments)[place]?.or ((byName arguments).get? (nameKey p.name)) :=
  Entries.get?_zip_append hs (by rw [List.getElem?_map, h]; rfl) _ _

/-- **A parameter is bound to what it takes.** -/
theorem takes_of_boundTo {place : Nat} {p : Parameter} {b : Binding α}
    (hp : s.parameters[place]? = some p) (h : s.boundTo? arguments p = some b) :
    Takes arguments place p b := by
  rw [boundTo?, get?_assigned hs hp, source?] at h
  cases hposition : (byPosition arguments)[place]? with
  | some value =>
      rw [hposition] at h
      obtain rfl := Option.some.inj h
      exact .position hposition
  | none =>
      have hplace : (byPosition arguments).length ≤ place := List.getElem?_eq_none_iff.mp hposition
      rw [hposition, Option.none_or] at h
      cases hget : (byName arguments).get? (nameKey p.name) with
      | some value =>
          rw [hget] at h
          obtain rfl := Option.some.inj h
          obtain ⟨a, ha, name, hname, hkey, rfl⟩ := mem_byName.mp (Entries.mem_of_get? hget)
          exact .name hplace ha ⟨name, hname, hkey⟩
      | none =>
          have hnone := Entries.get?_eq_none_iff.mp hget
          rw [hget, Option.map_none, Option.none_or] at h
          obtain ⟨value, hdefault, rfl⟩ := Option.map_eq_some_iff.mp h
          exact .default hplace (fun a ha hnames => hnone (mem_keys_byName.mpr ⟨a, ha, hnames⟩)) hdefault

/-- A parameter that those by position leave finds something exactly if it is named or has a default. -/
theorem isSome_boundTo_iff {place : Nat} {p : Parameter} (hp : s.parameters[place]? = some p) :
    (s.boundTo? arguments p).isSome = true ↔ place < (byPosition arguments).length ∨
      (∃ a ∈ arguments, a.Names p.name) ∨ p.default ≠ none := by
  rw [boundTo?, get?_assigned hs hp, source?, Option.isSome_or, Option.isSome_map, Option.isSome_map,
    Option.isSome_or, Bool.or_eq_true, Bool.or_eq_true, or_assoc, ← Option.isSome_iff_ne_none]
  refine or_congr ?_ (or_congr_left (Entries.has_iff.trans mem_keys_byName))
  rw [Option.isSome_iff_exists]
  exact ⟨fun ⟨_, h⟩ => (List.getElem?_eq_some_iff.mp h).1,
    fun h => ⟨_, List.getElem?_eq_getElem h⟩⟩

theorem fits_iff : s.Fits arguments ↔ s.Sortable arguments ∧
    ∀ p ∈ s.parameters, (s.boundTo? arguments p).isSome = true := by
  constructor
  · rintro ⟨hsortable, hfilled⟩
    refine ⟨hsortable, fun p hp => ?_⟩
    obtain ⟨place, hplace⟩ := List.getElem?_of_mem hp
    rw [isSome_boundTo_iff hs hplace]
    by_cases hposition : place < (byPosition arguments).length
    · exact .inl hposition
    · by_cases hdefault : p.default = none
      · have hleft : p ∈ s.parameters.drop (byPosition arguments).length := by
          refine List.mem_of_getElem? (i := place - (byPosition arguments).length) ?_
          rw [List.getElem?_drop, Nat.add_sub_cancel' (Nat.le_of_not_lt hposition), hplace]
        exact .inr (.inl (hfilled p hleft hdefault))
      · exact .inr (.inr hdefault)
  · rintro ⟨hsortable, hfilled⟩
    refine ⟨hsortable, fun p hp hdefault => ?_⟩
    obtain ⟨offset, hoffset⟩ := List.getElem?_of_mem hp
    rw [List.getElem?_drop] at hoffset
    rcases (isSome_boundTo_iff hs hoffset).mp (hfilled p (List.mem_of_mem_drop hp)) with h | h | h
    · exact absurd h (by omega)
    · exact h
    · exact absurd hdefault h

theorem exists_bind_iff {callee : String} :
    (∃ bound, s.bind callee arguments = .ok bound) ↔ s.Sortable arguments ∧
      ∀ p ∈ s.parameters, (s.boundTo? arguments p).isSome = true := by
  rw [← exists_filled_iff]
  simp only [bind_eq_ok_iff_boundTo hs]
  constructor
  · rintro ⟨bound, hsortable, hfilled, -⟩
    exact ⟨hsortable, _, hfilled⟩
  · rintro ⟨hsortable, filled, hfilled⟩
    exact ⟨⟨filled, s.rest, _⟩, hsortable, hfilled, rfl, rfl⟩

/-- **The arguments that are bound are those that were passed.** -/
theorem passed_perm {callee : String} {bound : BoundArguments α}
    (h : s.bind callee arguments = .ok bound) :
    bound.passed.Perm (arguments.map Argument.value) := by
  obtain ⟨hsortable, hfilled, -, hrest⟩ := (bind_eq_ok_iff_boundTo hs).mp h
  have hgiven : (bound.bindings.filterMap fun e => e.2.given?) =
      (s.parameters.map fun p => nameKey p.name).filterMap fun key =>
        (assigned s.parameters arguments).get? key := by
    rw [List.filterMap_map]
    exact filterMap_given?_of_filled hfilled
  obtain ⟨hnames, hnodup⟩ := (nodup_assigned_iff hs arguments).mpr
    ⟨(forall_named_iff _).mp hsortable.named, once_iff_nodup.mp hsortable.once⟩
  have hassigned : ∀ e ∈ assigned s.parameters arguments,
      e.1 ∈ s.parameters.map fun p => nameKey p.name := by
    intro e he
    rcases List.mem_append.mp he with he | he
    · exact (List.of_mem_zip he).1
    · exact hnames e he
  -- what goes to the rest is what the parameters leave of those by position
  have hmoved : ∀ taken named left : List α, (taken ++ named ++ left).Perm (taken ++ left ++ named) := by
    intro taken named left
    rw [List.append_assoc, List.append_assoc]
    exact List.perm_append_comm.append_left taken
  calc bound.passed
      = (s.parameters.map fun p => nameKey p.name).filterMap
            (fun key => (assigned s.parameters arguments).get? key) ++
          (byPosition arguments).drop s.parameters.length := by
        rw [BoundArguments.passed, hgiven, hrest]
    List.Perm _ ((assigned s.parameters arguments).map Prod.snd ++
        (byPosition arguments).drop s.parameters.length) :=
      (Entries.filterMap_get?_perm hs hnodup hassigned).append_right _
    List.Perm _ (byPosition arguments ++ (byName arguments).map Prod.snd) := by
      rw [values_assigned]
      refine (hmoved _ _ _).trans ?_
      rw [List.take_append_drop]
    List.Perm _ (arguments.map Argument.value) := byPosition_append_byName_perm arguments

end

/-- **Binding arguments is correct and complete.** Where no two parameters have the same name, binding
succeeds exactly if the arguments fit, and then every one of them is in its place. -/
theorem bind_places_arguments (s : Signature) (hs : s.Distinct) (callee : String)
    (arguments : List (Argument α)) :
    ((∃ bound, s.bind callee arguments = .ok bound) ↔ s.Fits arguments) ∧
      ∀ bound, s.bind callee arguments = .ok bound → s.Places arguments bound := by
  refine ⟨(exists_bind_iff hs).trans (fits_iff hs).symm, fun bound hbound => ?_⟩
  obtain ⟨-, hfilled, hrestName, hrest⟩ := (bind_eq_ok_iff_boundTo hs).mp hbound
  have hnames : bound.bindings.map Prod.fst = s.parameters.map Parameter.name := by
    rw [← List.forall₂_eq_eq_eq, List.forall₂_map_left_iff, List.forall₂_map_right_iff]
    exact hfilled.flip.imp fun _ _ h => h.1
  refine ⟨hnames, fun place p b hp hb => ?_, hrestName, hrest, passed_perm hs hbound⟩
  obtain ⟨hplace, rfl⟩ := List.getElem?_eq_some_iff.mp hp
  obtain ⟨hplace', he⟩ := List.getElem?_eq_some_iff.mp hb
  have hboundTo := ((List.forall₂_iff_get.mp hfilled).2 place hplace hplace').2
  rw [List.get_eq_getElem, List.get_eq_getElem, he] at hboundTo
  exact takes_of_boundTo hs hp hboundTo

/-- The parameters `$size, $line_height: normal, $color: black`. -/
def fontSignature : Signature :=
  ⟨[⟨"size", none⟩, ⟨"line_height", some (.word "normal")⟩, ⟨"color", some (.word "black")⟩], none⟩

/-- The arguments `large, $line-height: tight`. -/
def fontArguments : List (Argument Value) :=
  [.positional (.word "large"), ⟨some "line-height", .word "tight", false⟩]

theorem fontArguments_placed : fontSignature.Distinct ∧ fontSignature.Fits fontArguments ∧
    ∃ bound, fontSignature.bind "font" fontArguments = .ok bound ∧
      fontSignature.Places fontArguments bound ∧
      bound.bindings = [("size", .given (.word "large")), ("line_height", .given (.word "tight")),
        ("color", .default (.word "black"))] := by
  have hdistinct : fontSignature.Distinct := by unfold Distinct fontSignature; decide +kernel
  obtain ⟨hfits, hplaces⟩ := bind_places_arguments fontSignature hdistinct "font" fontArguments
  have hbound : fontSignature.bind "font" fontArguments = .ok ⟨[("size", .given (.word "large")),
      ("line_height", .given (.word "tight")), ("color", .default (.word "black"))], none, []⟩ := by
    cbv
  exact ⟨hdistinct, hfits.mp ⟨_, hbound⟩, _, hbound, hplaces _ hbound, rfl⟩

end Signature

end Scss
