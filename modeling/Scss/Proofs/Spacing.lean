import Mathlib.Data.List.TakeWhile
import Scss.Proofs.Naturality
import Scss.Proofs.Written

/-!
# Blanks in expressions

Blanks are tokens of an expression, as they part the items of a list. The reader makes one blank of all
that stands between two other tokens, and leaves out those at either end (`IsSpaced`). It makes no
expression otherwise, wherever in a value it stands, and what stands between its tokens is never a list
with commas (`readValue_laidOut`).

Where blanks are single, each of them belongs either to the middle of a group or to the end of one that
another group follows. So an expression is its groups with one blank between them (`Parted`).
-/

namespace Scss

variable {α : Type}

/-! ## Spaced tokens -/

/-- Tokens with single blanks between them, and none at either end. -/
structure IsSpaced (tokens : List (ExprToken α)) : Prop where
  single : tokens.IsChain fun t u => t.isBlank = true → u.isBlank = false
  first : ∀ t ∈ tokens.head?, t.isBlank = false
  last : ∀ t ∈ tokens.getLast?, t.isBlank = false

theorem isSpaced_singleton {t : ExprToken α} (ht : t.isBlank = false) : IsSpaced [t] where
  single := List.isChain_singleton t
  first _ hu := Option.some.inj hu ▸ ht
  last _ hu := Option.some.inj hu ▸ ht

namespace IsSpaced

variable {tokens : List (ExprToken α)} {t : ExprToken α} (h : IsSpaced tokens)
include h

/-- Another token joins at the end. -/
theorem concat (ht : t.isBlank = false) : IsSpaced (tokens ++ [t]) where
  single := List.isChain_append.mpr ⟨h.single, List.isChain_singleton t, fun u hu _ _ hblank =>
    absurd hblank (by rw [h.last u hu]; exact Bool.false_ne_true)⟩
  first := by
    intro u hu
    rw [List.head?_append] at hu
    cases hhead : tokens.head? with
    | none => exact Option.some.inj (hhead ▸ hu) ▸ ht
    | some v => exact h.first u (by rwa [hhead] at hu ⊢)
  last := by
    intro u hu
    rw [List.getLast?_concat] at hu
    exact Option.some.inj hu ▸ ht

/-- Another token joins at the end, behind a blank. -/
theorem concat_blank (hne : tokens ≠ []) (ht : t.isBlank = false) :
    IsSpaced (tokens ++ [.blank] ++ [t]) where
  single := by
    rw [List.append_assoc]
    refine List.isChain_append.mpr ⟨h.single, ?_, fun u hu _ _ hblank => ?_⟩
    · exact List.isChain_pair.mpr fun _ => ht
    · exact absurd hblank (by rw [h.last u hu]; exact Bool.false_ne_true)
  first := by
    intro u hu
    rw [List.append_assoc, List.head?_append_of_ne_nil _ hne] at hu
    exact h.first u hu
  last := by
    intro u hu
    rw [List.getLast?_concat] at hu
    exact Option.some.inj hu ▸ ht

/-- What the operands are does not matter. -/
protected theorem map {β : Type} (f : α → β) : IsSpaced (tokens.map (ExprToken.map f)) where
  single := by
    rw [List.isChain_map]
    simp only [ExprToken.isBlank_map]
    exact h.single
  first := by
    intro u hu
    rw [List.head?_map, Option.mem_map] at hu
    obtain ⟨t, ht, rfl⟩ := hu
    rw [ExprToken.isBlank_map]
    exact h.first t ht
  last := by
    intro u hu
    rw [List.getLast?_map, Option.mem_map] at hu
    obtain ⟨t, ht, rfl⟩ := hu
    rw [ExprToken.isBlank_map]
    exact h.last t ht

end IsSpaced

namespace ExprToken

/-- The tokens without the blanks at their ends. -/
def trim (tokens : List (ExprToken α)) : List (ExprToken α) :=
  ((tokens.reverse.dropWhile isBlank).reverse).dropWhile isBlank

theorem isBlank_head_dropWhile (tokens : List (ExprToken α)) :
    ∀ t ∈ (tokens.dropWhile isBlank).head?, t.isBlank = false := by
  intro t ht
  have h := List.head?_dropWhile_not isBlank tokens
  rw [Option.mem_def.mp ht] at h
  exact h

theorem trim_within (tokens : List (ExprToken α)) : trim tokens <:+: tokens := by
  have hback : (tokens.reverse.dropWhile isBlank).reverse <+: tokens := by
    have h := List.reverse_prefix.mpr (List.dropWhile_suffix (isBlank (α := α)) (l := tokens.reverse))
    rwa [List.reverse_reverse] at h
  exact (List.dropWhile_suffix _).isInfix.trans hback.isInfix

theorem isSpaced_trim {tokens : List (ExprToken α)}
    (h : tokens.IsChain fun t u => t.isBlank = true → u.isBlank = false) : IsSpaced (trim tokens) where
  single := h.infix (trim_within tokens)
  first := isBlank_head_dropWhile _
  last := by
    intro t ht
    -- dropping from the front leaves the last token as it is
    obtain ⟨front, hfront⟩ : trim tokens <:+ (tokens.reverse.dropWhile isBlank).reverse :=
      List.dropWhile_suffix _
    have hlast : (tokens.reverse.dropWhile isBlank).reverse.getLast? = some t := by
      rw [← hfront, List.getLast?_append, Option.mem_def.mp ht, Option.some_or]
    rw [List.getLast?_reverse] at hlast
    exact isBlank_head_dropWhile _ t hlast

theorem trim_eq_self {tokens : List (ExprToken α)} (h : IsSpaced tokens) : trim tokens = tokens := by
  have hdrop : ∀ {ts : List (ExprToken α)}, (∀ t ∈ ts.head?, t.isBlank = false) →
      ts.dropWhile isBlank = ts := by
    intro ts hts
    cases ts with
    | nil => rfl
    | cons t rest =>
        exact List.dropWhile_cons_of_neg (by rw [hts t rfl]; exact Bool.false_ne_true)
  rw [trim, hdrop (fun t ht => h.last t (List.head?_reverse ▸ ht)), List.reverse_reverse, hdrop h.first]

theorem trim_concat_blank (tokens : List (ExprToken α)) : trim (tokens ++ [.blank]) = trim tokens := by
  rw [trim, List.reverse_append, List.reverse_singleton, List.singleton_append,
    List.dropWhile_cons_of_pos rfl, trim]

end ExprToken

/-- Without the blanks at its ends, an expression is nothing, one operand, or stays an expression. -/
theorem Value.ofTokens_cases (tokens : List (ExprToken Value)) :
    (ExprToken.trim tokens = [] ∧ Value.ofTokens tokens = .null) ∨
      (∃ v, ExprToken.trim tokens = [.operand v] ∧ Value.ofTokens tokens = v) ∨
      (ExprToken.trim tokens ≠ [] ∧ Value.ofTokens tokens = .expression (ExprToken.trim tokens)) := by
  unfold ExprToken.trim Value.ofTokens
  dsimp only
  split
  next htrim => exact .inl ⟨htrim, rfl⟩
  next v htrim => exact .inr (.inl ⟨v, htrim, rfl⟩)
  next hne _ => exact .inr (.inr ⟨hne, rfl⟩)

/-! ## Groups -/

/-- Tokens as groups: a blank stands behind each group that is followed by another. -/
inductive Parted : List (ExprToken α) → List (List (ExprToken α)) → Prop
  | last {group : List (ExprToken α)} (h : IsSpaced group) (hne : group ≠ []) : Parted group [group]
  | more {group rest : List (ExprToken α)} {groups : List (List (ExprToken α))} (h : IsSpaced group)
      (hne : group ≠ []) (hrest : Parted rest groups) :
      Parted (group ++ .blank :: rest) ((group ++ [.blank]) :: groups)

theorem Parted.ne_nil {tokens : List (ExprToken α)} {groups : List (List (ExprToken α))}
    (h : Parted tokens groups) : groups ≠ [] := by
  cases h <;> exact List.cons_ne_nil _ _

/-- No group is made of blanks only. -/
theorem Parted.visible {tokens : List (ExprToken α)} {groups : List (List (ExprToken α))}
    (h : Parted tokens groups) : ∀ g ∈ groups, (g.any fun t => !t.isBlank) = true := by
  have hgroup : ∀ {g back : List (ExprToken α)}, IsSpaced g → g ≠ [] →
      ((g ++ back).any fun t => !t.isBlank) = true := by
    intro g back hg hne
    obtain ⟨t, rest, rfl⟩ := List.exists_cons_of_ne_nil hne
    exact List.any_eq_true.mpr ⟨t, List.mem_cons_self, by rw [hg.first t rfl]; rfl⟩
  induction h with
  | @last g hg hne =>
      intro g' hg'
      obtain rfl := List.mem_singleton.mp hg'
      have hvisible := @hgroup _ [] hg hne
      rw [List.append_nil] at hvisible
      exact hvisible
  | more hg hne _ ih => exact List.forall_mem_cons.mpr ⟨hgroup hg hne, ih⟩

namespace Evaluation

/-- A token that is no blank joins the group being read, or begins another one behind a blank. -/
theorem groupsFrom_step {t : ExprToken α} (ht : t.isBlank = false) (operandLast spaced : Bool)
    (group rest : List (ExprToken α)) : ∃ last,
      groupsFrom operandLast spaced group (t :: rest) = groupsFrom last false (group ++ [t]) rest ∨
        spaced = true ∧
          groupsFrom operandLast spaced group (t :: rest) =
            group :: groupsFrom last false [t] rest := by
  cases t with
  | blank => cases ht
  | operand a =>
      refine ⟨true, ?_⟩
      rw [groupsFrom]
      split
      next hparts => exact .inr ⟨(Bool.and_eq_true_iff.mp hparts).2, rfl⟩
      next => exact .inl rfl
  | operator op =>
      refine ⟨false, ?_⟩
      rw [groupsFrom_operator]
      split
      next hparts =>
        simp only [Bool.and_eq_true] at hparts
        exact .inr ⟨hparts.1.1.2, rfl⟩
      next => exact .inl rfl

/-- Behind the beginning of a group, and behind a blank that ends it, the other groups follow. -/
theorem groupsFrom_parted {rest : List (ExprToken α)}
    (hsingle : rest.IsChain fun t u => t.isBlank = true → u.isBlank = false)
    (hlast : ∀ t ∈ rest.getLast?, t.isBlank = false) :
    ∀ (operandLast : Bool) {group : List (ExprToken α)}, IsSpaced group → group ≠ [] →
      Parted (group ++ rest) (groupsFrom operandLast false group rest) ∧
        (rest ≠ [] → (∀ t ∈ rest.head?, t.isBlank = false) →
          Parted (group ++ .blank :: rest)
            (groupsFrom operandLast true (group ++ [.blank]) rest)) := by
  induction rest with
  | nil =>
      intro operandLast group hgroup hne
      rw [List.append_nil]
      exact ⟨.last hgroup hne, fun h => absurd rfl h⟩
  | cons t rest ih =>
      intro operandLast group hgroup hne
      obtain ⟨hnext, hsingle⟩ := List.isChain_cons.mp hsingle
      have hrest : ∀ u ∈ rest.getLast?, u.isBlank = false := by
        intro u hu
        refine hlast u ?_
        rw [List.getLast?_cons, Option.mem_def.mp hu]
        rfl
      replace ih := fun (last : Bool) {group : List (ExprToken α)} => @ih hsingle hrest last group
      -- a blank goes with the group, and one behind it is no blank, so that the second half applies
      cases ht : t.isBlank with
      | true =>
          obtain rfl : t = .blank := by
            cases t <;> first | rfl | cases ht
          have hmore : rest ≠ [] := by
            rintro rfl
            exact Bool.noConfusion (hlast _ rfl)
          exact ⟨(ih operandLast hgroup hne).2 hmore fun u hu => hnext u hu rfl,
            fun _ hfirst => Bool.noConfusion (hfirst _ rfl)⟩
      | false =>
          have hjoins : ∀ {g : List (ExprToken α)} (last : Bool), IsSpaced (g ++ [t]) →
              Parted (g ++ t :: rest) (groupsFrom last false (g ++ [t]) rest) := by
            intro g last hg
            have h := (ih last hg (by simp)).1
            rwa [List.append_assoc, List.singleton_append] at h
          refine ⟨?_, fun _ _ => ?_⟩
          · obtain ⟨last, heq | ⟨hspaced, -⟩⟩ := groupsFrom_step ht operandLast false group rest
            · rw [heq]
              exact hjoins last (hgroup.concat ht)
            · cases hspaced
          · obtain ⟨last, heq | ⟨-, heq⟩⟩ :=
              groupsFrom_step ht operandLast true (group ++ [.blank]) rest
            · have h := hjoins last (hgroup.concat_blank hne ht)
              rw [heq]
              rwa [List.append_assoc, List.singleton_append] at h
            · rw [heq]
              exact .more hgroup hne (hjoins (g := []) last (isSpaced_singleton ht))

/-- **An expression is its groups with one blank between them.** -/
theorem spaceGroups_parted {tokens : List (ExprToken α)} (h : IsSpaced tokens) (hne : tokens ≠ []) :
    Parted tokens (spaceGroups tokens) := by
  obtain ⟨t, rest, rfl⟩ := List.exists_cons_of_ne_nil hne
  have ht : t.isBlank = false := h.first t rfl
  have hparted : Parted (t :: rest) (groupsFrom false false [] (t :: rest)) := by
    obtain ⟨last, heq | ⟨hspaced, -⟩⟩ := groupsFrom_step ht false false [] rest
    · rw [heq]
      refine (groupsFrom_parted (List.isChain_cons.mp h.single).2 (fun u hu => h.last u ?_) last
        (isSpaced_singleton ht) (List.cons_ne_nil t [])).1
      rw [List.getLast?_cons, Option.mem_def.mp hu]
      rfl
    · cases hspaced
  rw [spaceGroups, List.filter_eq_self.mpr hparted.visible]
  exact hparted

end Evaluation

/-! ## Values as they are laid out -/

namespace Value

/-- The tokens of an expression are spaced, and no comma stands between two of them. -/
def IsLaidOut : Value → Prop
  | .expression tokens =>
    tokens ≠ [] ∧ IsSpaced tokens ∧ ∀ v, .operand v ∈ tokens → v.isCommaList = false
  | _ => True

/-- Laid out, with no comma between its parts. -/
structure IsOperand (v : Value) : Prop where
  laidOut : v.All IsLaidOut
  joined : v.isCommaList = false

end Value

namespace Grammar

open Scss.Parser Value

/-! ## What is read -/

/-- Tokens as they are read: there may be a blank at either end. -/
structure AreRead (tokens : List (ExprToken Value)) : Prop where
  single : tokens.IsChain fun t u => t.isBlank = true → u.isBlank = false
  operands : ∀ v, .operand v ∈ tokens → v.IsOperand

/-- A value without parts. -/
theorem isOperand_leaf {v : Value} (hparts : v.parts = []) (hown : v.IsLaidOut)
    (hjoined : v.isCommaList = false) : v.IsOperand := by
  refine ⟨.mk hown fun w hw => ?_, hjoined⟩
  rw [hparts] at hw
  exact absurd hw List.not_mem_nil

theorem ofTokens_laidOut {tokens : List (ExprToken Value)} (h : AreRead tokens) :
    (Value.ofTokens tokens).All IsLaidOut := by
  have hoperands : ∀ v, .operand v ∈ ExprToken.trim tokens → v.IsOperand :=
    fun v hv => h.operands v ((ExprToken.trim_within tokens).subset hv)
  rcases Value.ofTokens_cases tokens with ⟨-, hvalue⟩ | ⟨v, htrim, hvalue⟩ | ⟨hne, hvalue⟩
  · have hnull : Value.null.IsOperand := isOperand_leaf rfl trivial rfl
    rw [hvalue]
    exact hnull.laidOut
  · rw [hvalue]
    exact (hoperands v (htrim ▸ List.mem_singleton_self _)).laidOut
  · rw [hvalue]
    refine .mk ⟨hne, ExprToken.isSpaced_trim h.single, fun v hv => (hoperands v hv).joined⟩ ?_
    intro w hw
    exact (hoperands w (ExprToken.mem_operands.mp hw)).laidOut

/-- With some fuel, the readers of values make such as are laid out. -/
structure MakesLaidOut (fuel : Nat) : Prop where
  valueList : Makes (valueList fuel) (·.All IsLaidOut)
  moreItems : Makes (moreItems fuel) fun items => ∀ v ∈ items, v.All IsLaidOut
  spaceExpression : ∀ stops, Makes (spaceExpression fuel stops) (·.All IsLaidOut)
  expressionTokens : ∀ stops isFirst, Makes (expressionTokens fuel stops isFirst) AreRead
  primary : Makes (primary fuel) IsOperand
  wordOrCall : ∀ name, Makes (wordOrCall fuel name) IsOperand
  interpolatedWord : ∀ pieces : Interpolation,
    (∀ v ∈ pieces.filterMap TextPart.embedded?, v.All IsLaidOut) →
      Makes (interpolatedWord fuel pieces) IsOperand
  arguments : Makes (arguments fuel) fun arguments => ∀ a ∈ arguments, a.value.All IsLaidOut
  embedded : Makes (embedded fuel) (·.All IsLaidOut)
  textParts : ∀ origin text, Makes (textParts fuel origin text) fun pieces =>
    ∀ v ∈ pieces.filterMap TextPart.embedded?, v.All IsLaidOut
  wholeValue : ∀ text origin, Makes (wholeValue fuel text origin) (·.All IsLaidOut)

section
variable {fuel : Nat} (ih : MakesLaidOut fuel)
include ih

theorem valueList_laidOut : Makes (valueList (fuel + 1)) (·.All IsLaidOut) := by
  rw [valueList]
  refine (ih.spaceExpression []).bind fun first hfirst => Makes.after fun _ => Makes.after fun _ => ?_
  refine Makes.ite (ih.moreItems.bind fun items hitems => Makes.pure ?_) (Makes.pure hfirst)
  exact .mk trivial (List.forall_mem_cons.mpr ⟨hfirst, hitems⟩)

theorem moreItems_laidOut :
    Makes (moreItems (fuel + 1)) fun items => ∀ v ∈ items, v.All IsLaidOut := by
  rw [moreItems]
  have hnone : Makes (pure []) fun items : List Value => ∀ v ∈ items, v.All IsLaidOut :=
    Makes.pure fun _ hv => absurd hv List.not_mem_nil
  refine Makes.after fun _ => Makes.ite ?_ hnone
  refine Makes.after fun _ => Makes.after fun _ => Makes.after fun _ => Makes.ite hnone ?_
  refine (ih.spaceExpression []).bind fun item hitem => Makes.after fun _ => ?_
  exact ih.moreItems.bind fun items hitems => Makes.pure (List.forall_mem_cons.mpr ⟨hitem, hitems⟩)

theorem spaceExpression_laidOut (stops : List String) :
    Makes (spaceExpression (fuel + 1) stops) (·.All IsLaidOut) := by
  rw [spaceExpression]
  refine (ih.expressionTokens stops true).bind fun tokens htokens => Makes.ite ?_ ?_
  · exact Makes.after fun _ => Makes.failExpected _ _
  · exact Makes.pure (ofTokens_laidOut htokens)

theorem expressionTokens_areRead (stops : List String) (isFirst : Bool) :
    Makes (expressionTokens (fuel + 1) stops isFirst) AreRead := by
  rw [expressionTokens]
  refine Makes.after fun spaced => ?_
  dsimp only
  -- what stands in front of the token is nothing or one blank
  have hfront : ∀ {t : ExprToken Value} {rest : List (ExprToken Value)}, t.isBlank = false →
      (∀ v, t = .operand v → v.IsOperand) → AreRead rest →
      AreRead ((if spaced && !isFirst then [.blank] else []) ++ t :: rest) := by
    intro t rest ht hoperand hrest
    have hcons : AreRead (t :: rest) :=
      ⟨hrest.single.cons fun u _ hblank => absurd hblank (by rw [ht]; exact Bool.false_ne_true),
        fun v hv => (List.mem_cons.mp hv).elim (fun h => hoperand v h.symm) (hrest.operands v)⟩
    split
    · refine ⟨hcons.single.cons fun u hu _ => Option.some.inj hu ▸ ht, fun v hv => ?_⟩
      rcases List.mem_cons.mp hv with h | h
      · cases h
      · exact hcons.operands v h
    · exact hcons
  refine Makes.after fun kind => Makes.ite (Makes.pure ?_) ?_
  · split
    · exact ⟨List.isChain_singleton _, fun v hv => nomatch List.mem_singleton.mp hv⟩
    · exact ⟨List.isChain_nil, fun v hv => absurd hv List.not_mem_nil⟩
  · split
    · refine Makes.after fun _ => (ih.expressionTokens stops false).bind fun rest hrest => ?_
      exact Makes.pure (hfront rfl (fun _ h => nomatch h) hrest)
    · refine ih.primary.bind fun operand hoperand => ?_
      refine (ih.expressionTokens stops false).bind fun rest hrest => ?_
      exact Makes.pure (hfront rfl (fun _ h => ExprToken.operand.inj h ▸ hoperand) hrest)

theorem primary_isOperand : Makes (primary (fuel + 1)) IsOperand := by
  rw [primary]
  -- a value that has no values in it is laid out if it is so itself
  have hleaf : ∀ {v : Value}, v.parts = [] → v.IsLaidOut → v.isCommaList = false →
      Makes (pure v) IsOperand :=
    fun hparts hown hjoined => Makes.pure (isOperand_leaf hparts hown hjoined)
  refine Makes.after fun _ => Makes.ite ?_ ?_
  · exact ih.interpolatedWord [] fun _ hv => absurd hv List.not_mem_nil
  refine Makes.after fun t => ?_
  have htext : ∀ {pieces : Interpolation} {quote : Option Char},
      (∀ v ∈ pieces.filterMap TextPart.embedded?, v.All IsLaidOut) →
      (Value.interpolated pieces quote).IsOperand := fun h => ⟨.mk trivial h, rfl⟩
  split
  · exact hleaf rfl trivial rfl
  next name _ =>
    cases Color.ofHex? name with
    | none => exact hleaf rfl trivial rfl
    | some color => exact hleaf rfl trivial rfl
  · refine Makes.ite ?_ (hleaf rfl trivial rfl)
    exact (ih.textParts _ _).bind fun pieces hpieces => Makes.pure (htext hpieces)
  · exact hleaf rfl trivial rfl
  · have hcall : ∀ {v : Value}, v.All IsLaidOut → ∀ name,
        Makes (pure (Value.call name [.positional v])) IsOperand := by
      intro v hv name
      refine Makes.pure ⟨.mk trivial fun w hw => ?_, rfl⟩
      obtain rfl := List.mem_singleton.mp hw
      exact hv
    refine Makes.ite ?_ ?_
    · refine (ih.textParts _ _).bind fun pieces hpieces => Makes.bind (Makes.pure ?_) fun v hv => hcall hv _
      exact (htext hpieces).laidOut
    · refine Makes.bind (Makes.pure ?_) fun v hv => hcall hv _
      exact (isOperand_leaf (v := .word _) rfl trivial rfl).laidOut
  · exact ih.wordOrCall _
  · refine Makes.after fun _ => Makes.after fun _ => Makes.ite ?_ ?_
    · exact Makes.after fun _ => hleaf rfl trivial rfl
    · refine ih.valueList.bind fun inner hinner => Makes.after fun _ => Makes.after fun _ => ?_
      exact Makes.pure ⟨.mk trivial fun w hw => List.mem_singleton.mp hw ▸ hinner, rfl⟩
  · exact hleaf rfl trivial rfl
  · exact hleaf rfl trivial rfl
  · exact Makes.failAt _ _

theorem wordOrCall_isOperand (name : String) : Makes (wordOrCall (fuel + 1) name) IsOperand := by
  rw [wordOrCall]
  refine Makes.after fun c => Makes.after fun _ => Makes.ite ?_ ?_
  · refine Makes.after fun _ => ih.arguments.bind fun arguments harguments => Makes.pure ?_
    exact ⟨.mk trivial (List.forall_mem_map.mpr harguments), rfl⟩
  · refine Makes.after fun _ => Makes.ite ?_ (Makes.ite ?_ ?_)
    · exact ih.interpolatedWord _ fun _ hv => absurd hv List.not_mem_nil
    · exact Makes.pure (isOperand_leaf rfl trivial rfl)
    · exact Makes.pure (isOperand_leaf rfl trivial rfl)

theorem interpolatedWord_isOperand (pieces : Interpolation)
    (h : ∀ v ∈ pieces.filterMap TextPart.embedded?, v.All IsLaidOut) :
    Makes (interpolatedWord (fuel + 1) pieces) IsOperand := by
  rw [interpolatedWord]
  have hend : Makes (pure (Value.interpolated pieces none)) IsOperand :=
    Makes.pure ⟨.mk trivial h, rfl⟩
  have hmore : ∀ p : TextPart Value, (∀ v ∈ p.embedded?, v.All IsLaidOut) →
      Makes (Grammar.interpolatedWord fuel (pieces ++ [p])) IsOperand := by
    intro p hp
    refine ih.interpolatedWord _ fun v hv => ?_
    rw [List.filterMap_append, List.mem_append] at hv
    rcases hv with hv | hv
    · exact h v hv
    · obtain ⟨q, hq, hembedded⟩ := List.mem_filterMap.mp hv
      obtain rfl := List.mem_singleton.mp hq
      exact hp v hembedded
  refine Makes.after fun c => Makes.ite hend (Makes.after fun kind => ?_)
  split
  · refine ih.embedded.bind fun inner hinner => hmore _ fun v hv => ?_
    exact Option.some.inj hv ▸ hinner
  · exact Makes.after fun t => hmore _ fun _ hv => nomatch hv
  · exact Makes.after fun t => hmore _ fun _ hv => nomatch hv
  · exact Makes.after fun t => hmore _ fun _ hv => nomatch hv
  · exact hend

theorem arguments_laidOut :
    Makes (arguments (fuel + 1)) fun arguments => ∀ a ∈ arguments, a.value.All IsLaidOut := by
  rw [arguments]
  refine Makes.after fun _ => Makes.after fun _ => Makes.ite ?_ (Makes.after fun name => ?_)
  · exact Makes.after fun _ => Makes.pure fun _ ha => absurd ha List.not_mem_nil
  · refine (ih.spaceExpression []).bind fun value hvalue => Makes.after fun splat => ?_
    refine Makes.after fun _ => Makes.after fun separator => ?_
    split
    · exact ih.arguments.bind fun rest hrest =>
        Makes.pure (List.forall_mem_cons.mpr ⟨hvalue, hrest⟩)
    · exact Makes.pure (List.forall_mem_singleton.mpr hvalue)
    · exact Makes.failExpected _ _

theorem embedded_laidOut : Makes (embedded (fuel + 1)) (·.All IsLaidOut) := by
  rw [embedded]
  refine Makes.after fun _ => Makes.after fun _ => ih.valueList.bind fun value hvalue => ?_
  exact Makes.after fun _ => Makes.after fun _ => Makes.pure hvalue

theorem textParts_laidOut (origin : Position) (text : List Char) :
    Makes (textParts (fuel + 1) origin text) fun pieces =>
      ∀ v ∈ pieces.filterMap TextPart.embedded?, v.All IsLaidOut := by
  rw [textParts]
  split
  · refine Makes.pure fun v hv => ?_
    split at hv <;> cases hv
  · split
    · exact Makes.throw _
    · refine (ih.wholeValue _ _).bind fun value hvalue => ?_
      refine (ih.textParts _ _).bind fun rest hrest => Makes.pure ?_
      split
      · exact List.forall_mem_cons.mpr ⟨hvalue, hrest⟩
      · exact List.forall_mem_cons.mpr ⟨hvalue, hrest⟩

theorem wholeValue_laidOut (text : List Char) (origin : Position) :
    Makes (wholeValue (fuel + 1) text origin) (·.All IsLaidOut) := by
  rw [wholeValue]
  refine Makes.after fun outer => Makes.after fun tokens => Makes.after fun _ => Makes.after fun _ => ?_
  refine ih.valueList.bind fun value hvalue => Makes.after fun _ => Makes.after fun kind => ?_
  split
  · exact Makes.after fun _ => Makes.pure hvalue
  · exact Makes.fail _

end

theorem makesLaidOut (fuel : Nat) : MakesLaidOut fuel := by
  induction fuel with
  | zero => constructor <;> intros <;> exact Makes.exhausted
  | succ fuel ih =>
      exact ⟨valueList_laidOut ih, moreItems_laidOut ih, spaceExpression_laidOut ih,
        expressionTokens_areRead ih, primary_isOperand ih, wordOrCall_isOperand ih,
        interpolatedWord_isOperand ih, arguments_laidOut ih, embedded_laidOut ih,
        textParts_laidOut ih, wholeValue_laidOut ih⟩

/-- **Every value that is read is laid out**, as are all values in it. -/
theorem readValue_laidOut {text : String} {origin : Position} {v : Value}
    (h : readValue text origin = .ok v) : v.All IsLaidOut := by
  obtain ⟨⟨w, c⟩, hrun, hw⟩ := bind_eq_ok_iff.mp h
  obtain rfl := Except.ok.inj hw
  exact (makesLaidOut _).wholeValue text.toList origin _ _ _ hrun

end Grammar

end Scss
