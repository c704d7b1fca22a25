import Mathlib.Data.List.Forall2
import Scss.Selector.Extension
import Scss.Selector.Nesting
import Scss.Selector.Set

/-!
# What selectors are made of

Nesting and extending take selectors apart and put the pieces together in a new way. What they never
do is make up a simple selector, apart from adding the suffix of an `&` to a name. So a property of
simple selectors that holds throughout the selectors that go in holds throughout those that come
out. Properties of that kind are how selectors are kept free of `&` and of much else.
-/

namespace Scss

/-! ## Results of a list of steps -/

/-- Two steps succeed if the first does and the second does with its result. -/
theorem bind_eq_ok_iff {α β ε : Type} {m : Except ε α} {f : α → Except ε β} {b : β} :
    (m >>= f) = .ok b ↔ ∃ a, m = .ok a ∧ f a = .ok b := by
  cases m with
  | error e => exact ⟨nofun, fun ⟨_, h, _⟩ => nomatch h⟩
  | ok a =>
      refine ⟨fun h => ⟨a, rfl, h⟩, ?_⟩
      rintro ⟨a', h, hf⟩
      obtain rfl := Except.ok.inj h
      exact hf

/-- A list of steps succeeds if each does, and then gives their results. -/
theorem mapM_eq_ok_iff {α β ε : Type} {f : α → Except ε β} {xs : List α} {ys : List β} :
    xs.mapM f = .ok ys ↔ List.Forall₂ (fun x y => f x = .ok y) xs ys := by
  induction xs generalizing ys with
  | nil =>
      rw [List.mapM_nil, List.forall₂_nil_left_iff]
      exact ⟨fun h => (Except.ok.inj h).symm, fun h => h ▸ rfl⟩
  | cons x xs ih =>
      rw [List.mapM_cons, List.forall₂_cons_left_iff]
      constructor
      · intro h
        obtain ⟨y, hy, h⟩ := bind_eq_ok_iff.mp h
        obtain ⟨rest, hrest, h⟩ := bind_eq_ok_iff.mp h
        exact ⟨y, rest, hy, ih.mp hrest, (Except.ok.inj h).symm⟩
      · rintro ⟨y, rest, hy, hrest, rfl⟩
        rw [hy, ih.mpr hrest]
        rfl

theorem mapError_eq_ok_iff {α ε ε' : Type} {m : Except ε α} {f : ε → ε'} {a : α} :
    m.mapError f = .ok a ↔ m = .ok a := by
  cases m with
  | error e => exact ⟨nofun, nofun⟩
  | ok b =>
      show Except.ok b = .ok a ↔ Except.ok b = .ok a
      rw [Except.ok.injEq, Except.ok.injEq]

theorem mapM_eq_ok_of_forall {α β ε : Type} {f : α → Except ε β} {g : α → β} {xs : List α}
    (h : ∀ x ∈ xs, f x = .ok (g x)) : xs.mapM f = .ok (xs.map g) := by
  rw [mapM_eq_ok_iff, List.forall₂_map_right_iff, List.forall₂_same]
  exact h

theorem exists_mapM_eq_ok {α β ε : Type} {f : α → Except ε β} {xs : List α}
    (h : ∀ x ∈ xs, ∃ y, f x = .ok y) : ∃ ys, xs.mapM f = .ok ys := by
  induction xs with
  | nil => exact ⟨[], rfl⟩
  | cons x xs ih =>
      obtain ⟨⟨y, hy⟩, hxs⟩ := List.forall_mem_cons.mp h
      obtain ⟨ys, hys⟩ := ih hxs
      exact ⟨y :: ys, mapM_eq_ok_iff.mpr (.cons hy (mapM_eq_ok_iff.mp hys))⟩

theorem exists_of_mem_forall₂ {α β : Type} {r : α → β → Prop} {xs : List α} {ys : List β}
    (h : List.Forall₂ r xs ys) {y : β} (hy : y ∈ ys) : ∃ x ∈ xs, r x y := by
  induction h with
  | nil => exact absurd hy List.not_mem_nil
  | cons hxy _ ih =>
      rcases List.mem_cons.mp hy with rfl | hy
      · exact ⟨_, List.mem_cons_self, hxy⟩
      · obtain ⟨x, hx, hr⟩ := ih hy
        exact ⟨x, List.mem_cons_of_mem _ hx, hr⟩

/-! ## Compounds -/

namespace Compound

theorem mem_union {c d : Compound} {x : SimpleSelector} :
    x ∈ (c.union d).parts ↔ x ∈ c.parts ∨ x ∈ d.parts := mem_inOrder.trans mem_foldl_addNew

theorem mem_difference {c d : Compound} {x : SimpleSelector} :
    x ∈ (c.difference d).parts ↔ x ∈ c.parts ∧ x ∉ d.parts := by
  simp [difference]

theorem mem_ofList {xs : List SimpleSelector} {x : SimpleSelector} :
    x ∈ (ofList xs).parts ↔ x ∈ xs := by
  show x ∈ xs.foldl addNew [] ↔ x ∈ xs
  rw [mem_foldl_addNew]
  simp

/-- Adding parts puts those that are new behind the others. -/
theorem foldl_addNew_eq {xs ys : List SimpleSelector} (h : ys.Nodup) :
    ys.foldl addNew xs = xs ++ ys.filter (· ∉ xs) := by
  induction ys generalizing xs with
  | nil => simp
  | cons y ys ih =>
      obtain ⟨hy, hys⟩ := List.nodup_cons.mp h
      rw [List.foldl_cons, ih hys, addNew]
      split
      next hmem => rw [List.filter_cons_of_neg (by simpa using hmem)]
      next hnew =>
        have hother : ys.filter (· ∉ xs ++ [y]) = ys.filter (· ∉ xs) := by
          refine List.filter_congr fun z hz => ?_
          have hne : z ≠ y := fun heq => hy (heq ▸ hz)
          simp [hne]
        rw [hother, List.filter_cons_of_pos (by simpa using hnew), List.append_assoc]
        rfl

theorem ofList_parts (c : Compound) : ofList c.parts = c := by
  have hparts : c.parts.foldl addNew [] = c.parts := by rw [foldl_addNew_eq c.nodup]; simp
  cases c
  simp only [ofList, mk.injEq]
  exact hparts

theorem subsumes_refl (c : Compound) : c.subsumes c = true := by
  simpa [subsumes] using fun x hx => Or.inr hx

/-- The compound of one class. -/
def ofClass (name : String) : Compound := ⟨[.ofClass name], by simp⟩

/-- A unified compound is made of the parts of both. -/
theorem mem_of_unify? {c target extending u : Compound}
    (h : c.unify? target extending = some u) {x : SimpleSelector} (hx : x ∈ u.parts) :
    x ∈ c.parts ∨ x ∈ extending.parts := by
  simp only [unify?, Option.ite_none_left_eq_some, Option.some.injEq] at h
  obtain ⟨-, -, -, rfl⟩ := h
  have hrest : ∀ (p : Prop) [Decidable p] (test : SimpleSelector → Bool),
      x ∈ (if p then (c.difference target).keep test else c.difference target).parts →
        x ∈ c.parts := by
    intro p _ test hx
    split at hx
    · exact (mem_difference.mp (List.mem_filter.mp hx).1).1
    · exact (mem_difference.mp hx).1
  exact (mem_union.mp hx).imp_left (hrest _ _)

/-- What stands in for an `&` with a suffix, if anything can. -/
def replacement? (parent : Compound) : Option String → Option (List SimpleSelector)
  | none => some parent.parts
  | some suffix => (parent.parts.getLast?.bind (SimpleSelector.withSuffix? suffix)).map
      (parent.parts.dropLast ++ [·])

/-- A suffix goes to the last part. -/
theorem replacement?_some_iff {parent : Compound} {suffix : String} {parts : List SimpleSelector} :
    parent.replacement? (some suffix) = some parts ↔ ∃ front last last',
      parent.parts = front ++ [last] ∧ last.withSuffix? suffix = some last' ∧
        parts = front ++ [last'] := by
  rw [replacement?, Option.map_eq_some_iff]
  constructor
  · rintro ⟨last', hlast', rfl⟩
    obtain ⟨last, hlast, hsuffix⟩ := Option.bind_eq_some_iff.mp hlast'
    obtain ⟨front, hfront⟩ := List.getLast?_eq_some_iff.mp hlast
    exact ⟨front, last, last', hfront, hsuffix, by rw [hfront, List.dropLast_concat]⟩
  · rintro ⟨front, last, last', hfront, hsuffix, rfl⟩
    rw [hfront, List.getLast?_concat, List.dropLast_concat]
    exact ⟨last', hsuffix, rfl⟩

/-- A part of the compound is one of its own, or it has come with an `&`. -/
theorem mem_of_substituteParent {c parent r : Compound} (h : c.substituteParent parent = .ok r)
    {x : SimpleSelector} (hx : x ∈ r.parts) : (x ∈ c.parts ∧ x.isParent = false) ∨
      ∃ suffix parts, .parent suffix ∈ c.parts ∧ parent.replacement? suffix = some parts ∧
        x ∈ parts := by
  obtain ⟨pieces, hpieces, hr⟩ := bind_eq_ok_iff.mp h
  obtain rfl := Except.ok.inj hr
  obtain ⟨piece, hpiece, hx⟩ := List.mem_flatten.mp (mem_ofList.mp hx)
  obtain ⟨part, hpart, heq⟩ := exists_of_mem_forall₂ (mapM_eq_ok_iff.mp hpieces) hpiece
  cases part with
  | parent suffix =>
      refine Or.inr ⟨suffix, piece, hpart, ?_, hx⟩
      cases suffix with
      | none => exact congrArg some (Except.ok.inj heq)
      | some suffix =>
          dsimp only at heq
          split at heq
          next last hlast =>
            rw [replacement?, hlast]
            exact congrArg some (Except.ok.inj heq)
          · cases heq
  | _ =>
      obtain rfl := Except.ok.inj heq
      obtain rfl := List.mem_singleton.mp hx
      exact Or.inl ⟨hpart, rfl⟩

end Compound

/-! ## Sets -/

theorem SelectorSet.mem_ofList {ss : List Selector} {s : Selector} : s ∈ ofList ss ↔ s ∈ ss := by
  have hfold : ∀ (ss : List Selector) (set : SelectorSet),
      s ∈ ss.foldl insert set ↔ s ∈ set ∨ s ∈ ss := by
    intro ss
    induction ss with
    | nil => intro set; simp
    | cons t rest ih =>
        intro set
        rw [List.foldl_cons, ih, mem_insert, List.mem_cons, or_assoc]
  have hempty : s ∉ empty := List.not_mem_nil
  rw [ofList, hfold]
  exact or_iff_right hempty

theorem SelectorSet.mem_filter {set : SelectorSet} {test : Selector → Bool} {s : Selector} :
    s ∈ set.filter test ↔ s ∈ set ∧ test s = true := List.mem_filter

/-- The segment with another combinator in front of it, if there is one. -/
def Segment.behind (combinator : Option Combinator) (s : Segment) : Segment :=
  { s with combinator := combinator.or s.combinator }

namespace Selector

/-- The simple selectors of a chain of compounds. -/
def simplesOf (segments : List Segment) : List SimpleSelector :=
  segments.flatMap fun s => s.compound.parts

/-- The selector of one class. -/
def ofClass (name : String) : Selector := .ofCompound (.ofClass name)

/-- The simple selectors that occur in a selector. -/
def simples (s : Selector) : List SimpleSelector := simplesOf s.segments

theorem mem_simplesOf {segments : List Segment} {x : SimpleSelector} :
    x ∈ simplesOf segments ↔ ∃ s ∈ segments, x ∈ s.compound.parts := List.mem_flatMap

theorem simplesOf_append (as bs : List Segment) :
    simplesOf (as ++ bs) = simplesOf as ++ simplesOf bs := List.flatMap_append

theorem simplesOf_cons (a : Segment) (as : List Segment) :
    simplesOf (a :: as) = a.compound.parts ++ simplesOf as := rfl

/-- The combinator of the first segment says nothing of what the segments are made of. -/
theorem simplesOf_modifyHead (combinator : Option Combinator) (segments : List Segment) :
    simplesOf (segments.modifyHead (·.behind combinator)) = simplesOf segments := by
  cases segments <;> rfl

theorem hasParent_eq_false_iff {s : Selector} :
    s.hasParent = false ↔ ∀ x ∈ s.simples, x.isParent = false := by
  simp only [hasParent, Compound.hasParent, List.any_eq_false, simples, mem_simplesOf,
    Bool.not_eq_true]
  exact ⟨fun h x ⟨s, hs, hx⟩ => h s hs x hx, fun h s hs x hx => h x ⟨s, hs, hx⟩⟩

/-- One selector subsumes another if it does so compound by compound. -/
theorem subsumes_iff {s t : Selector} : s.subsumes t = true ↔
    List.Forall₂ (fun a b : Segment => a.combinator = b.combinator ∧
      a.compound.subsumes b.compound = true) s.segments t.segments := by
  obtain ⟨as⟩ := s
  obtain ⟨bs⟩ := t
  induction as generalizing bs with
  | nil =>
      cases bs with
      | nil => exact ⟨fun _ => .nil, fun _ => rfl⟩
      | cons b bs => exact ⟨nofun, nofun⟩
  | cons a as ih =>
      cases bs with
      | nil => exact ⟨nofun, nofun⟩
      | cons b bs =>
          show (a.combinator == b.combinator && a.compound.subsumes b.compound &&
            subsumes ⟨as⟩ ⟨bs⟩) = true ↔ _
          rw [Bool.and_eq_true, Bool.and_eq_true, beq_iff_eq, ih, List.forall₂_cons]

theorem subsumes_refl (s : Selector) : s.subsumes s = true :=
  subsumes_iff.mpr (List.forall₂_same.mpr fun a _ => ⟨rfl, a.compound.subsumes_refl⟩)

/-- Asking for no more passes from compounds to selectors. Not all compounds are in order by it: a
universal test counts for nothing, and may hide the test of an element behind it. -/
theorem subsumes_trans {P : Compound → Prop} (hP : ∀ c d e, P c → P d → c.subsumes d = true →
      d.subsumes e = true → c.subsumes e = true) {s t u : Selector}
    (hs : ∀ a ∈ s.segments, P a.compound) (ht : ∀ a ∈ t.segments, P a.compound)
    (hst : s.subsumes t = true) (htu : t.subsumes u = true) : s.subsumes u = true := by
  rw [subsumes_iff] at hst htu ⊢
  obtain ⟨as⟩ := s
  obtain ⟨bs⟩ := t
  obtain ⟨cs⟩ := u
  dsimp only at hst htu hs ht ⊢
  induction hst generalizing cs with
  | nil => exact htu
  | @cons a b as bs hab _ ih =>
      cases htu with
      | @cons _ c _ cs hbc hrest =>
          have hac := hP _ _ c.compound (hs a List.mem_cons_self) (ht b List.mem_cons_self)
            hab.2 hbc.2
          refine .cons ⟨hab.1.trans hbc.1, hac⟩ (ih ?_ ?_ cs hrest)
          · exact fun a ha => hs a (List.mem_cons_of_mem _ ha)
          · exact fun b hb => ht b (List.mem_cons_of_mem _ hb)

/-! ## Extending -/

/-- A selector follows by an extension if it is a different one, and if it follows at one of the
compounds. -/
theorem mem_extendWith {s t : Selector} {e : Extension} :
    t ∈ s.extendWith e ↔ t ≠ s ∧ ∃ own at' behind, s.segments = own ++ at' :: behind ∧
      extendAt e own at' behind = some t := by
  -- with the compounds that have been passed over given, by induction on those that have not
  have key : ∀ segments own, t ∈ extendFrom e own segments ↔
      ∃ front at' behind, segments = front ++ at' :: behind ∧
        extendAt e (own ++ front) at' behind = some t := by
    intro segments
    induction segments with
    | nil => intro own; simp [extendFrom]
    | cons first rest ih =>
        intro own
        rw [extendFrom, List.mem_append, Option.mem_toList, ih]
        constructor
        · rintro (h | ⟨front, at', behind, rfl, h⟩)
          · exact ⟨[], first, rest, rfl, by rwa [List.append_nil]⟩
          · refine ⟨first :: front, at', behind, rfl, ?_⟩
            rwa [List.append_cons]
        · rintro ⟨front, at', behind, heq, h⟩
          cases front with
          | nil =>
              obtain ⟨rfl, rfl⟩ := List.cons.inj heq
              rw [List.append_nil] at h
              exact Or.inl h
          | cons _ front =>
              obtain ⟨rfl, rfl⟩ := List.cons.inj heq
              rw [List.append_cons] at h
              exact Or.inr ⟨front, at', behind, rfl, h⟩
  rw [extendWith, List.mem_filter, key]
  simp only [List.nil_append, bne_iff_ne, ne_eq]
  exact and_comm

/-- Weaving brings in no compounds of its own. -/
theorem mem_simplesOf_weave {own extending : List Segment} {context : List Selector}
    {x : SimpleSelector} (h : x ∈ simplesOf (weave own extending context)) :
    x ∈ simplesOf own ∨ x ∈ simplesOf extending := by
  unfold weave at h
  split at h
  · exact Or.inr h
  · split at h
    · exact Or.inl h
    · split at h
      · exact Or.inr h
      · rw [simplesOf_append, List.mem_append] at h
        refine h.imp id fun h => ?_
        have hjoined : ∀ segments, simplesOf (joined segments) = simplesOf segments := by
          intro segments
          cases segments <;> rfl
        rw [hjoined, mem_simplesOf] at h
        obtain ⟨seg, hseg, hx⟩ := h
        exact mem_simplesOf.mpr ⟨seg, List.mem_of_mem_drop hseg, hx⟩

/-- **Extending makes up no simple selector.** -/
theorem mem_simples_extendWith {s t : Selector} {e : Extension} (h : t ∈ s.extendWith e)
    {x : SimpleSelector} (hx : x ∈ t.simples) : x ∈ s.simples ∨ x ∈ e.extending.simples := by
  obtain ⟨-, own, at', behind, hs, hat⟩ := mem_extendWith.mp h
  simp only [extendAt, Option.bind_eq_bind, Option.bind_eq_some_iff] at hat
  obtain ⟨last, hlast, unified, hunified, ht⟩ := hat
  obtain rfl := Option.some.inj ht
  simp only [simples, simplesOf_append, simplesOf_cons, List.mem_append] at hx
  rcases hx with hx | hx | hx
  · refine (mem_simplesOf_weave hx).imp (fun h => ?_) fun h => ?_
    · rw [simples, hs, simplesOf_append]
      exact List.mem_append_left _ h
    · obtain ⟨seg, hseg, hx⟩ := mem_simplesOf.mp h
      exact mem_simplesOf.mpr ⟨seg, List.dropLast_subset _ hseg, hx⟩
  · refine (Compound.mem_of_unify? hunified hx).imp (fun h => ?_) fun h => ?_
    · rw [simples, hs, mem_simplesOf]
      exact ⟨at', by simp, h⟩
    · exact mem_simplesOf.mpr ⟨last, List.mem_of_getLast? hlast, h⟩
  · refine Or.inl ?_
    rw [simples, hs, simplesOf_append, simplesOf_cons]
    exact List.mem_append_right _ (List.mem_append_right _ hx)

/-! ## Nesting -/

/-- A simple selector that stands in for an `&` of `own`: one of the parent, or the name that one becomes
with the suffix of the `&`. -/
def ComesFrom (own parent : List SimpleSelector) (x : SimpleSelector) : Prop :=
  x ∈ parent ∨ ∃ y ∈ parent, ∃ suffix, .parent (some suffix) ∈ own ∧ y.withSuffix? suffix = some x

theorem ComesFrom.mono {as bs cs ds : List SimpleSelector} {x : SimpleSelector} (h : ComesFrom as cs x)
    (hown : ∀ y ∈ as, y ∈ bs) (hparent : ∀ y ∈ cs, y ∈ ds) : ComesFrom bs ds x :=
  h.imp (hparent x) fun ⟨y, hy, suffix, hmem, hsuffix⟩ =>
    ⟨y, hparent y hy, suffix, hown _ hmem, hsuffix⟩

theorem mem_substituteParent {c parent r : Compound} (h : c.substituteParent parent = .ok r)
    {x : SimpleSelector} (hx : x ∈ r.parts) :
    (x ∈ c.parts ∧ x.isParent = false) ∨ ComesFrom c.parts parent.parts x := by
  refine (Compound.mem_of_substituteParent h hx).imp_right ?_
  rintro ⟨suffix, parts, hmem, hparts, hx⟩
  cases suffix with
  | none =>
      obtain rfl := Option.some.inj hparts
      exact Or.inl hx
  | some suffix =>
      obtain ⟨front, last, last', hfront, hsuffix, rfl⟩ := Compound.replacement?_some_iff.mp hparts
      rw [ComesFrom, hfront]
      rcases List.mem_append.mp hx with hx | hx
      · exact Or.inl (List.mem_append_left _ hx)
      · rw [List.mem_singleton.mp hx]
        have hlast := List.mem_append_right front (List.mem_singleton_self last)
        exact Or.inr ⟨last, hlast, suffix, hmem, hsuffix⟩

theorem isParent_of_hasParent_eq_false {c : Compound} (h : c.hasParent = false)
    {x : SimpleSelector} (hx : x ∈ c.parts) : x.isParent = false := by
  simpa using List.any_eq_false.mp h x hx

theorem substitute_of_noParent {parent : Selector} {s : Segment}
    (h : s.compound.hasParent = false) : substitute parent s = .ok [s] := if_pos (by simp [h])

/-- A segment with `&` becomes those of the parent. The rest of its compound goes to the last of them,
and its combinator to the first. -/
theorem substitute_eq_ok_iff {parent : Selector} {s last : Segment} {front segments : List Segment}
    (hown : s.compound.hasParent = true) (hparent : parent.segments = front ++ [last]) :
    substitute parent s = .ok segments ↔
      ∃ compound, s.compound.substituteParent last.compound = .ok compound ∧
        segments = (front ++ [Segment.mk last.combinator compound]).modifyHead
          (·.behind s.combinator) := by
  unfold substitute
  rw [if_neg (by simp [hown]), hparent, List.getLast?_concat, List.dropLast_concat]
  dsimp only
  rw [bind_eq_ok_iff]
  simp only [mapError_eq_ok_iff]
  refine exists_congr fun compound => and_congr_right fun _ => ?_
  cases front with
  | nil => exact ⟨fun h => (Except.ok.inj h).symm, fun h => congrArg Except.ok h.symm⟩
  | cons first middle => exact ⟨fun h => (Except.ok.inj h).symm, fun h => congrArg Except.ok h.symm⟩

theorem mem_substitute {parent : Selector} {s : Segment} {segments : List Segment}
    (h : substitute parent s = .ok segments) {x : SimpleSelector} (hx : x ∈ simplesOf segments) :
    (x ∈ s.compound.parts ∧ x.isParent = false) ∨
      ComesFrom s.compound.parts parent.simples x := by
  by_cases hown : s.compound.hasParent = true
  · rcases List.eq_nil_or_concat' parent.segments with hnil | ⟨front, last, hparent⟩
    · rw [substitute, if_neg (by simp [hown]), hnil] at h
      obtain rfl := Except.ok.inj h
      exact absurd hx List.not_mem_nil
    obtain ⟨compound, hcompound, rfl⟩ := (substitute_eq_ok_iff hown hparent).mp h
    rw [simplesOf_modifyHead, simplesOf_append, List.mem_append] at hx
    have hsimples : parent.simples = simplesOf front ++ last.compound.parts := by
      rw [simples, hparent, simplesOf_append, simplesOf_cons]
      exact congrArg _ (List.append_nil _)
    rw [hsimples]
    rcases hx with hx | hx
    · exact Or.inr (Or.inl (List.mem_append_left _ hx))
    · rw [simplesOf_cons, List.mem_append] at hx
      -- what becomes of the compound that holds the `&`
      refine (mem_substituteParent hcompound (hx.resolve_right List.not_mem_nil)).imp_right fun hfrom => ?_
      exact hfrom.mono (fun _ hz => hz) fun z hz => List.mem_append_right _ hz
  · have hown : s.compound.hasParent = false := by simpa using hown
    obtain rfl := Except.ok.inj (substitute_of_noParent hown ▸ h)
    rw [simplesOf_cons, List.mem_append] at hx
    have hx := hx.resolve_right List.not_mem_nil
    exact Or.inl ⟨hx, isParent_of_hasParent_eq_false hown hx⟩

/-- **Nesting leaves no `&` of its own**, and takes everything else from the selector or its parent. -/
theorem mem_simples_resolve {s parent t : Selector} (h : s.resolve parent = .ok t)
    {x : SimpleSelector} (hx : x ∈ t.simples) :
    (x ∈ s.simples ∧ x.isParent = false) ∨ ComesFrom s.simples parent.simples x := by
  unfold resolve at h
  -- without an `&` the parent stands in front; with one, the parent takes its place
  split at h
  next hown =>
    obtain rfl := Except.ok.inj h
    have hfree := hasParent_eq_false_iff.mp (show s.hasParent = false by simpa using hown)
    unfold below at hx
    split at hx
    · exact Or.inr (Or.inl hx)
    next first later hsegments =>
      simp only [simples, simplesOf_append, List.mem_append] at hx
      rcases hx with hx | hx
      · exact Or.inr (Or.inl hx)
      · have hx : x ∈ s.simples := by rw [simples, hsegments]; exact hx
        exact Or.inl ⟨hx, hfree x hx⟩
  · obtain ⟨pieces, hpieces, h⟩ := bind_eq_ok_iff.mp h
    obtain rfl := Except.ok.inj h
    have hleading : ∀ segments, simplesOf (withoutLeadingSpace segments) = simplesOf segments := by
      intro segments
      unfold withoutLeadingSpace
      split <;> rfl
    rw [simples, hleading, mem_simplesOf] at hx
    obtain ⟨seg, hseg, hx⟩ := hx
    obtain ⟨piece, hpiece, hseg⟩ := List.mem_flatten.mp hseg
    obtain ⟨own, hown, hsub⟩ := exists_of_mem_forall₂ (mapM_eq_ok_iff.mp hpieces) hpiece
    have hx : x ∈ simplesOf piece := mem_simplesOf.mpr ⟨seg, hseg, hx⟩
    have hsimples : ∀ y ∈ own.compound.parts, y ∈ s.simples := fun y hy =>
      mem_simplesOf.mpr ⟨own, hown, hy⟩
    exact (mem_substitute hsub hx).imp (fun ⟨hx, hfree⟩ => ⟨hsimples x hx, hfree⟩) fun hfrom =>
      hfrom.mono hsimples fun _ hy => hy

theorem mem_simplesOf_stripSegments {segments : List Segment} {x : SimpleSelector} :
    ∀ {first : Bool}, x ∈ simplesOf (stripSegments first segments) →
      x ∈ simplesOf segments ∧ x.isParent = false := by
  induction segments with
  | nil => intro first hx; exact absurd hx List.not_mem_nil
  | cons s rest ih =>
      intro first hx
      rw [stripSegments] at hx
      dsimp only at hx
      split at hx
      · obtain ⟨hx, hfree⟩ := ih hx
        exact ⟨List.mem_append_right _ hx, hfree⟩
      · rw [simplesOf_cons, List.mem_append] at hx
        rcases hx with hx | hx
        · obtain ⟨hx, hfree⟩ := List.mem_filter.mp hx
          exact ⟨List.mem_append_left _ hx, by simpa using hfree⟩
        · obtain ⟨hx, hfree⟩ := ih hx
          exact ⟨List.mem_append_right _ hx, hfree⟩

/-- Stripping leaves the rest of the selector, without any `&`. -/
theorem mem_simples_stripParents? {s t : Selector} (h : s.stripParents? = some t)
    {x : SimpleSelector} (hx : x ∈ t.simples) : x ∈ s.simples ∧ x.isParent = false := by
  unfold stripParents? at h
  split at h
  · cases h
  · obtain rfl := Option.some.inj h
    exact mem_simplesOf_stripSegments hx

/-! ## Selectors without `&` -/

theorem isParent_of_comesFrom {own : List SimpleSelector} {parent : Selector}
    (hparent : parent.hasParent = false) {x : SimpleSelector}
    (h : ComesFrom own parent.simples x) : x.isParent = false := by
  rcases h with h | ⟨y, -, suffix, -, hsuffix⟩
  · exact hasParent_eq_false_iff.mp hparent x h
  · cases y <;> simp only [SimpleSelector.withSuffix?, Option.some.injEq, reduceCtorEq] at hsuffix
    all_goals
      subst hsuffix
      rfl

theorem resolve_noParent {s parent t : Selector} (h : s.resolve parent = .ok t)
    (hparent : parent.hasParent = false) : t.hasParent = false := by
  refine hasParent_eq_false_iff.mpr fun x hx => ?_
  rcases mem_simples_resolve h hx with ⟨-, h⟩ | h
  · exact h
  · exact isParent_of_comesFrom hparent h

theorem stripParents?_noParent {s t : Selector} (h : s.stripParents? = some t) :
    t.hasParent = false :=
  hasParent_eq_false_iff.mpr fun _ hx => (mem_simples_stripParents? h hx).2

theorem extendWith_noParent {s t : Selector} {e : Extension} (h : t ∈ s.extendWith e)
    (hs : s.hasParent = false) (he : e.extending.hasParent = false) : t.hasParent = false := by
  refine hasParent_eq_false_iff.mpr fun x hx => ?_
  rcases mem_simples_extendWith h hx with hx | hx
  · exact hasParent_eq_false_iff.mp hs x hx
  · exact hasParent_eq_false_iff.mp he x hx

end Selector

end Scss
