import Scss.Proofs.Respelling

/-!
# Trees in another spelling

Arguments in two spellings are bound to the same parameters (`Signature.bind_respelled`). For that,
parameters of one signature must not be told apart by the spelling of their names, or no less in one of
the trees than in the other (`Signature.Alike`). Statements are spellings of each other if what they hold
is (`Statement.Respelled`), and trees if their statements stand in pairs (`Node.Paired`).
-/

namespace Scss

/-! ## Arguments -/

section
variable {α β : Type} {N : String → String → Prop} {Q : α → β → Prop}

theorem biUnique_eq : Relator.BiUnique (Eq : α → α → Prop) :=
  ⟨fun _ _ _ h h' => h.trans h'.symm, fun _ _ _ h h' => h.symm.trans h'⟩

/-- Entries in the same order with related keys and values. -/
def Entries.Rel (N : String → String → Prop) (Q : α → β → Prop) (xs : Entries α) (ys : Entries β) :
    Prop := List.Forall₂ (fun x y => N x.1 y.1 ∧ Q x.2 y.2) xs ys

namespace Entries.Rel

variable {xs : Entries α} {ys : Entries β} {k k' : String}

/-- Whether two keys are the same does not depend on how they are spelled. -/
theorem key_iff (hN : Relator.BiUnique N) {l l' : String} (hk : N k k') (hl : N l l') :
    l = k ↔ l' = k' :=
  ⟨fun h => hN.2 hl (h ▸ hk), fun h => hN.1 hl (h ▸ hk)⟩

variable (hN : Relator.BiUnique N) (hk : N k k')
include hN hk

/-- Related keys find related entries. -/
theorem get? (h : Entries.Rel N Q xs ys) : Option.Rel Q (xs.get? k) (ys.get? k') := by
  induction h with
  | nil => exact .none
  | cons h _ ih =>
      simp only [Entries.get?, key_iff hN hk h.1]
      split
      · exact .some h.2
      · exact ih

theorem has (h : Entries.Rel N Q xs ys) : xs.has k = ys.has k' :=
  optionRel_isSome (h.get? hN hk)

/-- Putting under related keys replaces in both or adds to both. -/
theorem put (h : Entries.Rel N Q xs ys) {a : α} {b : β} (hab : Q a b) :
    Entries.Rel N Q (xs.put k a) (ys.put k' b) := by
  induction h with
  | nil => exact .cons ⟨hk, hab⟩ .nil
  | cons h hrest ih =>
      simp only [Entries.put, key_iff hN hk h.1]
      split
      · exact .cons ⟨h.1, hab⟩ hrest
      · exact .cons h ih

theorem remove (h : Entries.Rel N Q xs ys) : Entries.Rel N Q (xs.remove k) (ys.remove k') := by
  induction h with
  | nil => exact .nil
  | cons h hrest ih =>
      simp only [Entries.remove, key_iff hN hk h.1]
      split
      · exact hrest
      · exact .cons h ih

end Entries.Rel

/-- What is bound to a parameter at one place of two signatures. -/
inductive Binding.Rel (Q : α → β → Prop) (D : Value → Value → Prop) : Binding α → Binding β → Prop
  | given {a : α} {b : β} (h : Q a b) : Rel Q D (.given a) (.given b)
  | default {v w : Value} (h : D v w) : Rel Q D (.default v) (.default w)

/-- Arguments bound to the same parameters. -/
structure BoundArguments.Rel (N : String → String → Prop) (Q : α → β → Prop)
    (D : Value → Value → Prop) (b : BoundArguments α) (b' : BoundArguments β) : Prop where
  bindings : Entries.Rel N (Binding.Rel Q D) b.bindings b'.bindings
  restName : Option.Rel SameName b.restName b'.restName
  rest : List.Forall₂ Q b.rest b'.rest

/-- Two signatures with the same parameters, and defaults that are related. -/
structure Signature.Rel (N : String → String → Prop) (D : Value → Value → Prop)
    (s s' : Signature) : Prop where
  parameters : List.Forall₂ (fun p p' => N p.name p'.name ∧ Option.Rel D p.default p'.default)
    s.parameters s'.parameters
  rest : Option.Rel SameName s.rest s'.rest

namespace Signature

variable {D : Value → Value → Prop}

/-- The keys of the parameters do not depend on how they are spelled. -/
theorem keys_eq {ps ps' : List Parameter}
    (h : List.Forall₂ (fun p p' => SameName p.name p'.name) ps ps') :
    (ps.map fun p => Text.nameKey p.name) = ps'.map fun p => Text.nameKey p.name := by
  rw [← List.forall₂_eq_eq_eq, List.forall₂_map_left_iff, List.forall₂_map_right_iff]
  exact h

/-- Arguments are sorted alike, if the parameters of both signatures have the same keys. -/
theorem collect_rel {s s' : Signature}
    (hkeys : ∀ key, (s.parameters.any fun p => Text.nameKey p.name == key) =
      s'.parameters.any fun p => Text.nameKey p.name == key)
    (hrest : s.rest.isSome = s'.rest.isSome) {passed passed' : Nat} {arguments : List (Argument α)}
    {arguments' : List (Argument β)}
    (h : List.Forall₂ (Argument.Rel SameName Q) arguments arguments') :
    ∀ {free free' : List Parameter} {named : Bool} {given : Entries α} {given' : Entries β}
      {r : Entries α × List α}, List.Forall₂ (fun p p' => SameName p.name p'.name) free free' →
      Entries.Rel Eq Q given given' → s.collect passed free named given arguments = .ok r →
      ∃ r', s'.collect passed' free' named given' arguments' = .ok r' ∧
        Entries.Rel Eq Q r.1 r'.1 ∧ List.Forall₂ Q r.2 r'.2 := by
  induction h with
  | nil =>
      intro free free' named given given' r _ hgiven h
      obtain rfl := Except.ok.inj h
      exact ⟨_, rfl, hgiven, .nil⟩
  | @cons a a' rest rest' ha _ ih =>
      obtain ⟨name, value, splat⟩ := a
      obtain ⟨name', value', splat'⟩ := a'
      obtain ⟨hname, hvalue, -⟩ := ha
      intro free free' named given given' r hfree hgiven h
      cases name with
      | some name =>
          cases name' with
          | none => simp at hname
          -- the keys are the same, so the other signature asks the same of them
          | some name' =>
              have hkey : SameName name name' := by cases hname with | some h => exact h
              obtain ⟨hparameter, hfirst, h⟩ := collect_cons_named.mp h
              obtain ⟨r', h', hr⟩ := ih hfree (Entries.Rel.put biUnique_eq hkey hgiven hvalue) h
              rw [hkey, hkeys] at hparameter
              rw [hkey, Entries.Rel.has biUnique_eq rfl hgiven] at hfirst
              exact ⟨r', collect_cons_named.mpr ⟨hparameter, hfirst, h'⟩, hr⟩
      | none =>
          cases name' with
          | some name' => simp at hname
          | none =>
              cases hfree with
              | cons hp hfree =>
                  obtain ⟨hnamed, h⟩ := collect_cons_taken.mp h
                  obtain ⟨r', h', hr⟩ := ih hfree (Entries.Rel.put biUnique_eq hp hgiven hvalue) h
                  exact ⟨r', collect_cons_taken.mpr ⟨hnamed, h'⟩, hr⟩
              | nil =>
                  obtain ⟨hnamed, hsome, given₁, rest₁, hcollect, rfl⟩ := collect_cons_left.mp h
                  obtain ⟨r', h', hgiven', hbehind⟩ := ih .nil hgiven hcollect
                  exact ⟨_, collect_cons_left.mpr ⟨hnamed, hrest ▸ hsome, _, _, h', rfl⟩, hgiven',
                    .cons hvalue hbehind⟩

/-- Parameters are filled alike; a default is looked at under related names. -/
theorem fill_rel (hN : Relator.BiUnique N) (hsame : ∀ {x y}, N x y → SameName x y)
    {parameters parameters' : List Parameter}
    (h : List.Forall₂ (fun p p' => N p.name p'.name ∧ Option.Rel D p.default p'.default)
      parameters parameters') :
    ∀ {given : Entries α} {given' : Entries β} {bindings r : Entries (Binding α)}
      {bindings' : Entries (Binding β)}, Entries.Rel Eq Q given given' →
      Entries.Rel N (Binding.Rel Q D) bindings bindings' → fill given bindings parameters = .ok r →
      ∃ r', fill given' bindings' parameters' = .ok r' ∧ Entries.Rel N (Binding.Rel Q D) r r' := by
  induction h with
  | nil =>
      intro given given' bindings r bindings' _ hbindings h
      obtain rfl := Except.ok.inj h
      exact ⟨_, rfl, hbindings⟩
  | @cons p p' _ _ hp _ ih =>
      intro given given' bindings r bindings' hgiven hbindings h
      obtain ⟨hname, hdefault⟩ := hp
      have hkey := hsame hname
      have hfound := hgiven.get? biUnique_eq hkey
      simp only [fill] at h ⊢
      generalize given.get? (Text.nameKey p.name) = found at h hfound
      generalize given'.get? (Text.nameKey p'.name) = found' at hfound ⊢
      cases hfound with
      | some hvalue =>
          exact ih (hgiven.remove biUnique_eq hkey) (hbindings.put hN hname (.given hvalue)) h
      | none =>
          generalize p.default = d at h hdefault
          generalize p'.default = d' at hdefault ⊢
          cases hdefault with
          | some hvalue => exact ih hgiven (hbindings.put hN hname (.default hvalue)) h
          | none => cases h

/-- Arguments are bound if they can be sorted and no parameter is missing. -/
theorem bind_eq_ok_iff {s : Signature} {callee : String} {arguments : List (Argument α)}
    {b : BoundArguments α} : s.bind callee arguments = .ok b ↔ ∃ given rest bindings,
      s.collect arguments.length s.parameters false [] arguments = .ok (given, rest) ∧
        fill given [] s.parameters = .ok bindings ∧ b = ⟨bindings, s.rest, rest⟩ := by
  refine mapError_eq_ok_iff.trans ?_
  constructor
  · intro h
    obtain ⟨⟨given, rest⟩, hcollect, h⟩ := Scss.bind_eq_ok_iff.mp h
    obtain ⟨bindings, hfill, h⟩ := Scss.bind_eq_ok_iff.mp h
    exact ⟨given, rest, bindings, hcollect, hfill, (Except.ok.inj h).symm⟩
  · rintro ⟨given, rest, bindings, hcollect, hfill, rfl⟩
    exact Scss.bind_eq_ok_iff.mpr ⟨_, hcollect, Scss.bind_eq_ok_iff.mpr ⟨_, hfill, rfl⟩⟩

theorem restName_of_bind {s : Signature} {callee : String} {arguments : List (Argument α)}
    {b : BoundArguments α} (h : s.bind callee arguments = .ok b) : b.restName = s.rest := by
  obtain ⟨_, _, _, -, -, rfl⟩ := bind_eq_ok_iff.mp h
  rfl

/-- **Arguments are bound to the same parameters** under all spellings of names, as long as two
parameters have one spelling in one of the signatures only if they have in the other. -/
theorem bind_rel (hN : Relator.BiUnique N) (hsame : ∀ {x y}, N x y → SameName x y)
    {s s' : Signature} (hs : s.Rel N D s') {arguments : List (Argument α)}
    {arguments' : List (Argument β)}
    (h : List.Forall₂ (Argument.Rel SameName Q) arguments arguments') {callee callee' : String}
    {b : BoundArguments α} (hb : s.bind callee arguments = .ok b) :
    ∃ b', s'.bind callee' arguments' = .ok b' ∧ b.Rel N Q D b' := by
  have hfree : List.Forall₂ (fun p p' => SameName p.name p'.name) s.parameters s'.parameters :=
    hs.parameters.imp fun _ _ hp => hsame hp.1
  have hkeys : ∀ key, (s.parameters.any fun p => Text.nameKey p.name == key) =
      s'.parameters.any fun p => Text.nameKey p.name == key := by
    intro key
    have h := congrArg (List.any · (· == key)) (keys_eq hfree)
    simpa only [List.any_map, Function.comp_def] using h
  obtain ⟨given, rest, bindings, hcollect, hfill, rfl⟩ := bind_eq_ok_iff.mp hb
  obtain ⟨⟨given', rest'⟩, hcollect', hgiven, hrests⟩ :=
    collect_rel hkeys (optionRel_isSome hs.rest) h hfree .nil hcollect
  obtain ⟨bindings', hfill', hbindings⟩ := fill_rel hN hsame hs.parameters hgiven .nil hfill
  exact ⟨_, bind_eq_ok_iff.mpr ⟨given', rest', bindings', hcollect', hfill', rfl⟩,
    hbindings, hs.rest, hrests⟩

end Signature

end

theorem Argument.eq_of_rel {arguments arguments' : List (Argument Value)}
    (h : List.Forall₂ (Argument.Rel Eq Eq) arguments arguments') : arguments = arguments' := by
  rw [← List.forall₂_eq_eq_eq]
  refine h.imp fun a a' ha => ?_
  obtain ⟨name, value, splat⟩ := a
  obtain ⟨name', value', splat'⟩ := a'
  obtain ⟨hname, hvalue, hsplat⟩ := ha
  obtain rfl : name = name' := optionRel_eq hname
  obtain rfl : value = value' := hvalue
  obtain rfl : splat = splat' := hsplat
  rfl

/-- Related by equality in all parts is equal. -/
theorem BoundArguments.Rel.eq {b b' : BoundArguments Value} (h : b.Rel Eq Eq Eq b')
    (hrest : b.restName = b'.restName) : b = b' := by
  obtain ⟨bindings, restName, rest⟩ := b
  obtain ⟨bindings', restName', rest'⟩ := b'
  obtain ⟨hbindings, -, hvalues⟩ := h
  rw [List.forall₂_eq_eq_eq] at hvalues
  obtain rfl : restName = restName' := hrest
  obtain rfl : rest = rest' := hvalues
  have hentries : List.Forall₂ Eq bindings bindings' := hbindings.imp fun e e' h => by
    obtain ⟨name, binding⟩ := e
    obtain ⟨name', binding'⟩ := e'
    obtain ⟨rfl, hbinding⟩ := h
    cases hbinding with
    | given h => rw [h]
    | default h => rw [h]
  rw [List.forall₂_eq_eq_eq] at hentries
  rw [show bindings = bindings' from hentries]

/-! ## Signatures -/

namespace Signature

variable {functions : List String}

/-- Two spellings of a signature that tell the same parameters apart. -/
def Matches (functions : List String) (s s' : Signature) : Prop :=
  ∃ N : String → String → Prop, Relator.BiUnique N ∧ (∀ {x y}, N x y → SameName x y) ∧
    s.Rel N (Value.Respelled functions) s'

theorem Rel.symm {N N' : String → String → Prop} {D : Value → Value → Prop}
    (hN : ∀ x y, N x y → N' y x) (hD : ∀ v w, D v w → D w v) {s s' : Signature} (h : s.Rel N D s') :
    s'.Rel N' D s where
  parameters := (h.parameters.imp fun _ _ hp => ⟨hN _ _ hp.1, optionRel_symm hD hp.2⟩).flip
  rest := optionRel_symm (fun _ _ => SameName.symm) h.rest

theorem Matches.refl (s : Signature) : s.Matches functions s :=
  ⟨Eq, biUnique_eq, fun h => h ▸ SameName.refl _,
    List.forall₂_same.mpr fun _ _ => ⟨rfl, optionRel_refl Value.Respelled.refl _⟩,
    optionRel_refl SameName.refl _⟩

theorem Matches.symm {s s' : Signature} (h : s.Matches functions s') : s'.Matches functions s := by
  obtain ⟨N, hN, hsame, hs⟩ := h
  exact ⟨fun y x => N x y, ⟨fun _ _ _ hx hy => hN.2 hx hy, fun _ _ _ hx hy => hN.1 hx hy⟩,
    fun h => (hsame h).symm, hs.symm (fun _ _ h => h) fun _ _ => Value.Respelled.symm⟩

/-- No two parameters agree in all but `-` and `_`. -/
def Distinct (s : Signature) : Prop := (s.parameters.map fun p => Text.nameKey p.name).Nodup

/-- Parameters that cannot be confused in one spelling cannot be confused in another. -/
theorem Distinct.matches {s s' : Signature} (h : s.Distinct)
    (hs : s.Rel SameName (Value.Respelled functions) s') : s.Matches functions s' := by
  have hkeys : s.parameters.map (fun p => Text.nameKey p.name) =
      s'.parameters.map fun p => Text.nameKey p.name :=
    Signature.keys_eq (hs.parameters.imp fun _ _ hp => hp.1)
  have hdistinct : s'.Distinct := by rw [Distinct, ← hkeys]; exact h
  refine ⟨fun x y => (∃ p ∈ s.parameters, p.name = x) ∧ (∃ p ∈ s'.parameters, p.name = y) ∧
    SameName x y, ⟨?_, ?_⟩, fun hN => hN.2.2, ?_, hs.rest⟩
  · rintro x x' y ⟨⟨p, hp, rfl⟩, -, hx⟩ ⟨⟨p', hp', rfl⟩, -, hx'⟩
    exact congrArg Parameter.name (List.inj_on_of_nodup_map h hp hp' (hx.trans hx'.symm))
  · rintro x y y' ⟨-, ⟨p, hp, rfl⟩, hy⟩ ⟨-, ⟨p', hp', rfl⟩, hy'⟩
    exact congrArg Parameter.name (List.inj_on_of_nodup_map hdistinct hp hp' (hy.symm.trans hy'))
  · refine List.forall₂_iff_zip.mpr ⟨hs.parameters.length_eq, fun hpair => ?_⟩
    obtain ⟨hp, hp'⟩ := List.of_mem_zip hpair
    obtain ⟨hname, hdefault⟩ := (List.forall₂_iff_zip.mp hs.parameters).2 hpair
    exact ⟨⟨⟨_, hp, rfl⟩, ⟨_, hp', rfl⟩, hname⟩, hdefault⟩

end Signature

/-! ## Statements -/

/-- Two spellings of the selectors of a rule. -/
inductive SelectorSource.Respelled (functions : List String) : SelectorSource → SelectorSource → Prop
  | parsed (selectors : List Selector) :
      Respelled functions (.parsed selectors) (.parsed selectors)
  | interpolated {i j : Interpolation} (h : i.Respelled functions j) :
      Respelled functions (.interpolated i) (.interpolated j)

namespace SelectorSource.Respelled

variable {functions : List String}

protected theorem refl (source : SelectorSource) : source.Respelled functions source := by
  cases source with
  | parsed selectors => exact .parsed selectors
  | interpolated text => exact .interpolated (.refl text)

protected theorem symm {source source' : SelectorSource} (h : source.Respelled functions source') :
    source'.Respelled functions source := by
  cases h with
  | parsed selectors => exact .parsed selectors
  | interpolated h => exact .interpolated h.symm

end SelectorSource.Respelled

/-- Two spellings of a statement, whatever the statements in it are. -/
inductive Statement.Respelled (functions : List String) : Statement → Statement → Prop
  | rule {source source' : SelectorSource} (h : source.Respelled functions source')
      (body body' : List Node) : Respelled functions (.rule source body) (.rule source' body')
  | declaration {name name' : Interpolation} {value value' : Value} (important : Bool)
      (hname : name.Respelled functions name') (hvalue : value.Respelled functions value') :
      Respelled functions (.declaration name value important) (.declaration name' value' important)
  | assignment {name name' : String} {value value' : Value} (ifUnset isGlobal : Bool)
      (hname : SameName name name') (hvalue : value.Respelled functions value') :
      Respelled functions (.assignment name value ifUnset isGlobal)
        (.assignment name' value' ifUnset isGlobal)
  | media {query query' : Interpolation} (h : query.Respelled functions query')
      (body body' : List Node) : Respelled functions (.media query body) (.media query' body')
  | extend {target target' : SelectorSource} (optional : Bool)
      (h : target.Respelled functions target') :
      Respelled functions (.extend target optional) (.extend target' optional)
  | mixin {name name' : String} {signature signature' : Signature} (hname : SameName name name')
      (hsignature : signature.Rel SameName (Value.Respelled functions) signature')
      (body body' : List Node) :
      Respelled functions (.mixin name signature body) (.mixin name' signature' body')
  | function (name : String) {signature signature' : Signature}
      (hsignature : signature.Rel SameName (Value.Respelled functions) signature')
      (body body' : List Node) :
      Respelled functions (.function name signature body) (.function name signature' body')
  | includeMixin {name name' : String} {arguments arguments' : List (Argument Value)}
      {content content' : Option (List Node)} (hname : SameName name name')
      (harguments : List.Forall₂ (Argument.Rel SameName (Value.Respelled functions)) arguments
        arguments') (hcontent : content.isSome = content'.isSome) :
      Respelled functions (.includeMixin name arguments content) (.includeMixin name' arguments' content')
  | content : Respelled functions .content .content
  | returnValue {value value' : Value} (h : value.Respelled functions value') :
      Respelled functions (.returnValue value) (.returnValue value')
  | branches {alternatives alternatives' : List (Option Value × List Node)}
      (h : List.Forall₂ (fun a a' => Option.Rel (Value.Respelled functions) a.1 a'.1) alternatives
        alternatives') :
      Respelled functions (.branches alternatives) (.branches alternatives')
  | eachLoop {names names' : List String} {list list' : Value}
      (hnames : List.Forall₂ SameName names names') (hlist : list.Respelled functions list')
      (body body' : List Node) :
      Respelled functions (.eachLoop names list body) (.eachLoop names' list' body')
  | forLoop {counter counter' : String} {start start' stop stop' : Value} (isInclusive : Bool)
      (hcounter : SameName counter counter') (hstart : start.Respelled functions start')
      (hstop : stop.Respelled functions stop') (body body' : List Node) :
      Respelled functions (.forLoop counter start stop isInclusive body)
        (.forLoop counter' start' stop' isInclusive body')
  | whileLoop {condition condition' : Value} (h : condition.Respelled functions condition')
      (body body' : List Node) :
      Respelled functions (.whileLoop condition body) (.whileLoop condition' body')
  | importFile {target target' : Value} {media media' : Option Interpolation}
      (htarget : target.Respelled functions target')
      (hmedia : Option.Rel (Interpolation.Respelled functions) media media') :
      Respelled functions (.importFile target media) (.importFile target' media')
  | comment (text : String) : Respelled functions (.comment text) (.comment text)
  | atRule (name : String) {prelude prelude' : Interpolation} {body body' : Option (List Node)}
      (hprelude : prelude.Respelled functions prelude') (hbody : body.isSome = body'.isSome) :
      Respelled functions (.atRule name prelude body) (.atRule name prelude' body')
  | diagnostic (level : DiagnosticLevel) {message message' : Value}
      (h : message.Respelled functions message') :
      Respelled functions (.diagnostic level message) (.diagnostic level message')

namespace Statement

variable {functions : List String}

/-- The signature of what a statement defines. -/
def signature? : Statement → Option Signature
  | .mixin _ signature _ | .function _ signature _ => some signature
  | _ => none

/-- Nothing has to be respelled. -/
protected theorem Respelled.refl (statement : Statement) :
    statement.Respelled functions statement := by
  have hsignature : ∀ s : Signature, s.Rel SameName (Value.Respelled functions) s := fun s =>
    ⟨List.forall₂_same.mpr fun _ _ => ⟨rfl, optionRel_refl Value.Respelled.refl _⟩,
      optionRel_refl SameName.refl _⟩
  cases statement with
  | rule source body => exact .rule (.refl source) body body
  | declaration name value important => exact .declaration important (.refl name) (.refl value)
  | assignment name value d g => exact .assignment d g rfl (.refl value)
  | media query body => exact .media (.refl query) body body
  | extend target optional => exact .extend optional (.refl target)
  | mixin name signature body => exact .mixin rfl (hsignature signature) body body
  | function name signature body => exact .function name (hsignature signature) body body
  | includeMixin name arguments content =>
      exact .includeMixin rfl (List.forall₂_same.mpr fun a _ =>
        ⟨optionRel_refl SameName.refl _, .refl a.value, rfl⟩) rfl
  | content => exact .content
  | returnValue value => exact .returnValue (.refl value)
  | branches alternatives =>
      exact .branches (List.forall₂_same.mpr fun a _ => optionRel_refl Value.Respelled.refl a.1)
  | eachLoop names list body =>
      exact .eachLoop (List.forall₂_same.mpr fun _ _ => rfl) (.refl list) body body
  | forLoop counter start stop inclusive body =>
      exact .forLoop inclusive rfl (.refl start) (.refl stop) body body
  | whileLoop condition body => exact .whileLoop (.refl condition) body body
  | importFile target media =>
      exact .importFile (.refl target) (optionRel_refl Interpolation.Respelled.refl media)
  | comment text => exact .comment text
  | atRule name prelude body => exact .atRule name (.refl prelude) rfl
  | diagnostic level message => exact .diagnostic level (.refl message)

/-- A statement that is respelled can be respelled back. -/
protected theorem Respelled.symm {statement statement' : Statement}
    (h : statement.Respelled functions statement') : statement'.Respelled functions statement := by
  have hsignature : ∀ {s s' : Signature}, s.Rel SameName (Value.Respelled functions) s' →
      s'.Rel SameName (Value.Respelled functions) s := fun h =>
    h.symm (fun _ _ => SameName.symm) fun _ _ => Value.Respelled.symm
  cases h with
  | rule h body body' => exact .rule h.symm body' body
  | declaration important hname hvalue => exact .declaration important hname.symm hvalue.symm
  | assignment d g hname hvalue => exact .assignment d g hname.symm hvalue.symm
  | media h body body' => exact .media h.symm body' body
  | extend optional h => exact .extend optional h.symm
  | mixin hname h body body' => exact .mixin hname.symm (hsignature h) body' body
  | function name h body body' => exact .function name (hsignature h) body' body
  | includeMixin hname harguments hcontent =>
      refine .includeMixin hname.symm (harguments.imp fun a a' h => ?_).flip hcontent.symm
      exact ⟨optionRel_symm (fun _ _ => SameName.symm) h.name, h.value.symm, h.splat.symm⟩
  | content => exact .content
  | returnValue h => exact .returnValue h.symm
  | branches h =>
      exact .branches (h.imp fun _ _ h => optionRel_symm (fun _ _ => Value.Respelled.symm) h).flip
  | eachLoop hnames hlist body body' =>
      exact .eachLoop (hnames.imp fun _ _ => SameName.symm).flip hlist.symm body' body
  | forLoop inclusive hcounter hstart hstop body body' =>
      exact .forLoop inclusive hcounter.symm hstart.symm hstop.symm body' body
  | whileLoop h body body' => exact .whileLoop h.symm body' body
  | importFile htarget hmedia =>
      exact .importFile htarget.symm
        (optionRel_symm (fun _ _ => Interpolation.Respelled.symm) hmedia)
  | comment text => exact .comment text
  | atRule name hprelude hbody => exact .atRule name hprelude.symm hbody.symm
  | diagnostic level h => exact .diagnostic level h.symm

end Statement

/-! ## Trees -/

/-- Two trees of one shape, with related statements at each place. -/
inductive Node.Paired (A : Statement → Statement → Prop) : Node → Node → Prop
  | mk {position : Position} {statement statement' : Statement} (own : A statement statement')
      (shape : statement.bodies.map List.length = statement'.bodies.map List.length)
      (inside : ∀ p ∈ statement.bodies.zip statement'.bodies, ∀ q ∈ p.1.zip p.2, Paired A q.1 q.2) :
      Paired A (.mk position statement) (.mk position statement')

namespace Node.Paired

variable {A : Statement → Statement → Prop}

/-- Bodies of the same lengths, in terms of the statements at each place. -/
theorem forall₂_iff_zip_zip {α β : Type} {R : α → β → Prop} {xs : List (List α)} {ys : List (List β)} :
    List.Forall₂ (List.Forall₂ R) xs ys ↔ xs.map List.length = ys.map List.length ∧
      ∀ p ∈ xs.zip ys, ∀ q ∈ p.1.zip p.2, R q.1 q.2 := by
  rw [← List.forall₂_eq_eq_eq, List.forall₂_map_left_iff, List.forall₂_map_right_iff]
  constructor
  · intro h
    refine ⟨h.imp fun _ _ => List.Forall₂.length_eq, fun p hp q hq => ?_⟩
    exact (List.forall₂_iff_zip.mp ((List.forall₂_iff_zip.mp h).2 hp)).2 hq
  · rintro ⟨hlength, h⟩
    refine List.forall₂_iff_zip.mpr ⟨hlength.length_eq, fun hp => ?_⟩
    exact List.forall₂_iff_zip.mpr ⟨(List.forall₂_iff_zip.mp hlength).2 hp, fun hq => h _ hp _ hq⟩

/-- The statements in two related trees are related. -/
theorem of_bodies {position : Position} {statement statement' : Statement}
    (own : A statement statement')
    (h : List.Forall₂ (List.Forall₂ (Node.Paired A)) statement.bodies statement'.bodies) :
    Node.Paired A (.mk position statement) (.mk position statement') :=
  .mk own (forall₂_iff_zip_zip.mp h).1 (forall₂_iff_zip_zip.mp h).2

/-- What holds of two statements in one place if it holds of those in them, holds in all places. -/
theorem induction {P : Node → Node → Prop}
    (mk : ∀ (position : Position) (statement statement' : Statement), A statement statement' →
      List.Forall₂ (List.Forall₂ fun n n' => Node.Paired A n n' ∧ P n n') statement.bodies
        statement'.bodies → P (.mk position statement) (.mk position statement'))
    {n n' : Node} (h : Node.Paired A n n') : P n n' := by
  induction h with
  | mk own shape inside ih =>
      exact mk _ _ _ own (forall₂_iff_zip_zip.mpr ⟨shape, fun p hp q hq =>
        ⟨inside p hp q hq, ih p hp q hq⟩⟩)

protected theorem refl (hA : ∀ statement, A statement statement) (n : Node) : Node.Paired A n n := by
  obtain ⟨position, statement⟩ := n
  refine .of_bodies (hA statement) (List.forall₂_same.mpr fun body hbody => ?_)
  exact List.forall₂_same.mpr fun m hm => Node.Paired.refl hA m
termination_by sizeOf n
decreasing_by
  have hlt := Statement.sizeOf_lt_of_mem_bodies hbody hm
  simp only [Node.mk.sizeOf_spec]
  omega

protected theorem symm (hA : ∀ s s', A s s' → A s' s) {n n' : Node} (h : Node.Paired A n n') :
    Node.Paired A n' n := by
  refine h.induction (P := fun n n' => Node.Paired A n' n) fun position s s' own inside => ?_
  refine .of_bodies (hA _ _ own) (inside.imp fun body body' h => ?_).flip
  exact (h.imp fun n n' h => h.2).flip

/-- More is known of the statements in two related trees if it is known of those in one of them. -/
theorem strengthen {A' : Statement → Statement → Prop} {S : Statement → Prop}
    (hA : ∀ {s s'}, S s → A s s' → A' s s') {n n' : Node} (h : Node.Paired A n n') (hn : n.All S) :
    Node.Paired A' n n' := by
  revert hn
  refine h.induction (P := fun n n' => n.All S → Node.Paired A' n n')
    fun position s s' own inside hn => ?_
  obtain ⟨hown, hinside⟩ := hn
  refine .of_bodies (hA hown own) (List.forall₂_iff_zip.mpr ⟨inside.length_eq, fun hp => ?_⟩)
  have hbody := (List.forall₂_iff_zip.mp inside).2 hp
  refine List.forall₂_iff_zip.mpr ⟨hbody.length_eq, fun hq => ?_⟩
  refine ((List.forall₂_iff_zip.mp hbody).2 hq).2 ?_
  exact hinside _ (List.of_mem_zip hp).1 _ (List.of_mem_zip hq).1

end Node.Paired

/-- Two spellings of a statement, with signatures that tell the same parameters apart. -/
def Statement.Matches (functions : List String) (s s' : Statement) : Prop :=
  s.Respelled functions s' ∧
    ∀ signature ∈ s.signature?, ∀ signature' ∈ s'.signature?, signature.Matches functions signature'

namespace Statement

variable {functions : List String}

protected theorem Matches.refl (s : Statement) : s.Matches functions s := by
  refine ⟨.refl s, fun signature h signature' h' => ?_⟩
  obtain rfl := Option.some.inj (h.symm.trans h')
  exact Signature.Matches.refl signature

protected theorem Matches.symm {s s' : Statement} (h : s.Matches functions s') :
    s'.Matches functions s :=
  ⟨h.1.symm, fun _ h' _ h'' => (h.2 _ h'' _ h').symm⟩

/-- No two parameters of the signature of a statement agree in all but `-` and `_`. -/
def HasDistinctParameters (s : Statement) : Prop := ∀ signature ∈ s.signature?, signature.Distinct

/-- If the parameters of a definition have distinct keys, its spellings match. -/
theorem HasDistinctParameters.matches {s s' : Statement} (h : s.HasDistinctParameters)
    (hs : s.Respelled functions s') : s.Matches functions s' := by
  refine ⟨hs, fun signature hsome signature' hsome' => ?_⟩
  cases hs with
  | mixin _ hsignature _ _ | function _ hsignature _ _ =>
      obtain rfl := Option.some.inj hsome
      obtain rfl := Option.some.inj hsome'
      exact (h _ rfl).matches hsignature
  | _ => cases hsome

end Statement

/-- Two spellings of some statements. -/
abbrev NodesMatch (functions : List String) (nodes nodes' : List Node) : Prop :=
  List.Forall₂ (Node.Paired (Statement.Matches functions)) nodes nodes'

namespace NodesMatch

variable {functions : List String}

protected theorem refl (nodes : List Node) : NodesMatch functions nodes nodes :=
  List.forall₂_same.mpr fun n _ => Node.Paired.refl Statement.Matches.refl n

protected theorem symm {nodes nodes' : List Node} (h : NodesMatch functions nodes nodes') :
    NodesMatch functions nodes' nodes :=
  (h.imp fun _ _ hn => hn.symm fun _ _ => Statement.Matches.symm).flip

/-- If parameters of one signature differ in more than `-` and `_`, no spelling confuses them. -/
theorem of_distinct {nodes nodes' : List Node}
    (hdistinct : ∀ n ∈ nodes, n.All Statement.HasDistinctParameters)
    (h : List.Forall₂ (Node.Paired (Statement.Respelled functions)) nodes nodes') :
    NodesMatch functions nodes nodes' := by
  refine List.forall₂_iff_zip.mpr ⟨h.length_eq, fun hpair => ?_⟩
  exact ((List.forall₂_iff_zip.mp h).2 hpair).strengthen (fun hdistinct => hdistinct.matches)
    (hdistinct _ (List.of_mem_zip hpair).1)

end NodesMatch

end Scss
