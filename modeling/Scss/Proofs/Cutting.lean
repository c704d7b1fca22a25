import Scss.Proofs.SelectorText

/-!
# Where a text is cut

A list of selectors is cut at its commas, and bracketed text ends at a closing bracket: in both cases
at the first of them that is free, with no string open in front of it and as many brackets closed as
opened. The two differ in the brackets that count. For a comma they are those of both kinds, whichever
closes which; for a closing bracket those of its own kind.

A text may be whole, so that no comma in it is free wherever it begins outside strings and brackets, and
texts that are whole can be put together. So it is bracketed text in which brackets are nested.
-/

namespace Scss.Selector

open Text

/-! ## What is open behind a text -/

/-- The quote that is open behind a text. -/
def quoteBehind (quote : Option Char) (cs : List Char) : Option Char := cs.foldl quoteAfter quote

/-- By how many brackets a text is deeper at its end, if so much is added at each character outside
strings. -/
def level (step : Char → Int) (quote : Option Char) : List Char → Int
  | [] => 0
  | c :: rest => (if quote.isNone then step c else 0) + level step (quoteAfter quote c) rest

/-- Neither a string nor a bracket is open behind `front`, where `quote` and `depth` were in front of
it. -/
def IsFree (step : Char → Int) (quote : Option Char) (depth : Int) (front : List Char) : Prop :=
  quoteBehind quote front = none ∧ depth + level step quote front = 0

instance (step : Char → Int) (quote : Option Char) (depth : Int) (front : List Char) :
    Decidable (IsFree step quote depth front) := by
  unfold IsFree
  infer_instance

/-- How a character changes the depth of brackets of one kind. -/
def pairStep (opening closing c : Char) : Int :=
  if c = opening then 1 else if c = closing then -1 else 0

section
variable {step : Char → Int} {quote : Option Char} {depth : Int} {c mark : Char}
  {cs ds rest : List Char}

theorem quoteBehind_append : quoteBehind quote (cs ++ ds) = quoteBehind (quoteBehind quote cs) ds :=
  List.foldl_append

theorem level_append :
    level step quote (cs ++ ds) = level step quote cs + level step (quoteBehind quote cs) ds := by
  induction cs generalizing quote with
  | nil => exact (zero_add _).symm
  | cons c cs ih => rw [List.cons_append, level, level, ih, add_assoc]; rfl

theorem isFree_nil : IsFree step quote depth [] ↔ quote = none ∧ depth = 0 := by
  rw [IsFree, level, add_zero]
  rfl

theorem isFree_cons : IsFree step quote depth (c :: cs) ↔
    IsFree step (quoteAfter quote c) (if quote.isNone then depth + step c else depth) cs := by
  have hlevel : depth + level step quote (c :: cs) =
      (if quote.isNone then depth + step c else depth) + level step (quoteAfter quote c) cs := by
    rw [level]
    split <;> ring
  rw [IsFree, IsFree, hlevel]
  rfl

theorem isFree_append (h : IsFree step quote depth cs) :
    IsFree step quote depth (cs ++ ds) ↔ IsFree step none 0 ds := by
  rw [IsFree, IsFree, quoteBehind_append, level_append, h.1, ← add_assoc, h.2]

/-- No `mark` in the text is free. -/
def NoneFree (mark : Char) (step : Char → Int) (quote : Option Char) (depth : Int) (cs : List Char) :
    Prop :=
  ∀ front behind, cs = front ++ mark :: behind → ¬IsFree step quote depth front

theorem noneFree_nil : NoneFree mark step quote depth [] := fun front behind h =>
  absurd h.symm (List.append_ne_nil_of_right_ne_nil front (List.cons_ne_nil mark behind))

theorem noneFree_cons : NoneFree mark step quote depth (c :: cs) ↔
    ¬(c = mark ∧ quote = none ∧ depth = 0) ∧
      NoneFree mark step (quoteAfter quote c) (if quote.isNone then depth + step c else depth) cs := by
  constructor
  · refine fun h => ⟨?_, fun front behind hcs hfree => ?_⟩
    · rintro ⟨rfl, hquote, hdepth⟩
      exact h [] cs rfl (isFree_nil.mpr ⟨hquote, hdepth⟩)
    · exact h (c :: front) behind (by rw [hcs]; rfl) (isFree_cons.mpr hfree)
  · rintro ⟨hfirst, hrest⟩ front behind hcs hfree
    cases front with
    | nil =>
        obtain ⟨rfl, rfl⟩ := List.cons.inj hcs
        exact hfirst ⟨rfl, isFree_nil.mp hfree⟩
    | cons d front =>
        obtain ⟨rfl, rfl⟩ := List.cons.inj hcs
        exact hrest front behind rfl (isFree_cons.mp hfree)

end

/-! ## Cutting a list -/

section
variable {quote : Option Char} {depth : Int} {cs : List Char}

theorem splitList_ne_nil (quote : Option Char) (depth : Int) (cs : List Char) :
    splitList quote depth cs ≠ [] := by
  cases cs with
  | nil => exact List.cons_ne_nil _ _
  | cons c rest =>
      unfold splitList
      split
      · exact List.cons_ne_nil _ _
      · dsimp only
        split <;> exact List.cons_ne_nil _ _

/-- Where a text is not cut, its first character goes to the first piece of what follows. -/
theorem splitList_cons {c : Char} (h : ¬(c = ',' ∧ quote = none ∧ depth = 0)) (rest : List Char) :
    ∃ piece pieces, splitList (quoteAfter quote c)
        (if quote.isNone then depth + bracketStep c else depth) rest = piece :: pieces ∧
      splitList quote depth (c :: rest) = (c :: piece) :: pieces := by
  obtain ⟨piece, pieces, hpieces⟩ := List.exists_cons_of_ne_nil (splitList_ne_nil
    (quoteAfter quote c) (if quote.isNone then depth + bracketStep c else depth) rest)
  refine ⟨piece, pieces, hpieces, ?_⟩
  have hgoes : ¬(quote.isNone = true ∧ c = ',' ∧ depth = 0) := fun ⟨hquote, hc, hdepth⟩ =>
    h ⟨hc, Option.isNone_iff_eq_none.mp hquote, hdepth⟩
  rw [splitList, if_neg hgoes]
  dsimp only
  rw [hpieces]

/-- **A list is cut exactly if one of its commas is free.** -/
theorem splitList_eq_singleton_iff {piece : List Char} :
    splitList quote depth cs = [piece] ↔ piece = cs ∧ NoneFree ',' bracketStep quote depth cs := by
  induction cs generalizing quote depth piece with
  | nil =>
      show [[]] = [piece] ↔ _
      rw [List.singleton_inj, eq_comm, and_iff_left noneFree_nil]
  | cons c rest ih =>
      rw [noneFree_cons]
      by_cases hcut : c = ',' ∧ quote = none ∧ depth = 0
      · -- behind the comma there is another piece
        obtain ⟨rfl, rfl, rfl⟩ := hcut
        have hsplit : splitList none 0 (',' :: rest) = [] :: splitList none 0 rest :=
          if_pos ⟨rfl, rfl, rfl⟩
        refine iff_of_false (fun h => ?_) fun h => h.2.1 ⟨rfl, rfl, rfl⟩
        rw [hsplit] at h
        exact splitList_ne_nil _ _ _ (List.cons.inj h).2
      · obtain ⟨first, pieces, hpieces, hsplit⟩ := splitList_cons hcut rest
        rw [hsplit, and_iff_right hcut]
        constructor
        · intro h
          obtain ⟨rfl, rfl⟩ := List.cons.inj h
          obtain ⟨rfl, hnone⟩ := ih.mp hpieces
          exact ⟨rfl, hnone⟩
        · rintro ⟨rfl, hnone⟩
          have hfirst := ih.mpr ⟨rfl, hnone⟩
          rw [hpieces] at hfirst
          obtain ⟨rfl, rfl⟩ := List.cons.inj hfirst
          rfl

end

/-! ## Finding a closing bracket -/

section
variable {opening closing : Char} (hopening : quoteAfter none opening = none)
  (hclosing : quoteAfter none closing = none) (hne : opening ≠ closing)
include hopening hclosing hne

/-- Where bracketed text does not end, it goes on with the next character. -/
theorem spanBalanced_cons {quote : Option Char} {depth : Nat} {c : Char}
    (h : ¬(c = closing ∧ quote = none ∧ depth = 0)) (rest : List Char) :
    ∃ deeper : Nat, (deeper : Int) =
        (if quote.isNone then (depth : Int) + pairStep opening closing c else depth) ∧
      spanBalanced opening closing quote depth (c :: rest) =
        (spanBalanced opening closing (quoteAfter quote c) deeper rest).map fun read =>
          (c :: read.1, read.2) := by
  generalize hread : spanBalanced opening closing quote depth (c :: rest) = read
  unfold spanBalanced at hread
  subst hread
  dsimp only
  cases quote with
  | some q => exact ⟨depth, rfl, if_pos rfl⟩
  | none =>
      by_cases hquote : (quoteAfter none c).isSome = true
      · -- a string begins, and its quote is no bracket
        have hother : ∀ {d : Char}, quoteAfter none d = none → c ≠ d := by
          rintro d hd rfl
          rw [hd] at hquote
          cases hquote
        refine ⟨depth, ?_, if_pos hquote⟩
        simp [pairStep, hother hopening, hother hclosing]
      · have hnone : quoteAfter none c = none := by simpa using hquote
        have houtside : ¬((none : Option Char).isSome || (quoteAfter none c).isSome) = true := by
          simpa using hnone
        rw [if_neg houtside, hnone]
        by_cases hc : c = opening
        · exact ⟨depth + 1, by simp [pairStep, hc], if_pos hc⟩
        rw [if_neg hc]
        by_cases hc' : c = closing
        · cases depth with
          | zero => exact absurd ⟨hc', rfl, rfl⟩ h
          | succ depth => exact ⟨depth, by simp [pairStep, hc', hne.symm], if_pos hc'⟩
        · exact ⟨depth, by simp [pairStep, hc, hc'], if_neg hc'⟩

/-- **Bracketed text ends at the first closing bracket that is free.** -/
theorem spanBalanced_eq_some_iff {quote : Option Char} {depth : Nat}
    {cs inner behind : List Char} :
    spanBalanced opening closing quote depth cs = some (inner, behind) ↔
      cs = inner ++ closing :: behind ∧ IsFree (pairStep opening closing) quote depth inner ∧
        NoneFree closing (pairStep opening closing) quote depth inner := by
  induction cs generalizing quote depth inner with
  | nil => exact iff_of_false nofun fun h => by simp at h
  | cons c rest ih =>
      by_cases hends : c = closing ∧ quote = none ∧ depth = 0
      · -- the bracket is free here, so nothing is inside
        obtain ⟨rfl, rfl, rfl⟩ := hends
        have hspan : spanBalanced opening c none 0 (c :: rest) = some ([], rest) := by
          unfold spanBalanced
          dsimp only
          rw [hclosing, if_neg (by decide), if_neg hne.symm, if_pos rfl]
        rw [hspan, Option.some.injEq, Prod.mk.injEq]
        constructor
        · rintro ⟨rfl, rfl⟩
          exact ⟨rfl, isFree_nil.mpr ⟨rfl, rfl⟩, noneFree_nil⟩
        · rintro ⟨hcs, -, hnone⟩
          cases inner with
          | nil => exact ⟨rfl, (List.cons.inj hcs).2⟩
          | cons d inner =>
              obtain ⟨rfl, -⟩ := List.cons.inj hcs
              exact absurd ⟨rfl, rfl, rfl⟩ (noneFree_cons.mp hnone).1
      · -- the text goes on, and the bracket may be one level further down or up
        obtain ⟨deeper, hdeeper, hspan⟩ := spanBalanced_cons hopening hclosing hne hends rest
        rw [hspan, Option.map_eq_some_iff]
        constructor
        · rintro ⟨⟨inner', behind'⟩, hread, heq⟩
          obtain ⟨rfl, rfl⟩ := Prod.mk.inj heq
          obtain ⟨rfl, hfree, hnone⟩ := ih.mp hread
          rw [hdeeper] at hfree hnone
          exact ⟨rfl, isFree_cons.mpr hfree, noneFree_cons.mpr ⟨mod_cast hends, hnone⟩⟩
        · rintro ⟨hcs, hfree, hnone⟩
          cases inner with
          | nil =>
              obtain ⟨rfl, -⟩ := List.cons.inj hcs
              exact absurd ⟨rfl, mod_cast isFree_nil.mp hfree⟩ hends
          | cons d inner =>
              obtain ⟨rfl, rfl⟩ := List.cons.inj hcs
              rw [isFree_cons, ← hdeeper] at hfree
              rw [noneFree_cons, ← hdeeper] at hnone
              exact ⟨(inner, behind), ih.mpr ⟨rfl, hfree, hnone.2⟩, rfl⟩

end

/-! ## Texts without a free comma -/

section
variable {mark : Char} {step : Char → Int} {quote : Option Char} {depth : Int} {cs ds : List Char}

theorem noneFree_append (h : IsFree step quote depth cs) :
    NoneFree mark step quote depth (cs ++ ds) ↔
      NoneFree mark step quote depth cs ∧ NoneFree mark step none 0 ds := by
  constructor
  · refine fun hnone => ⟨fun front behind hcs => ?_, fun front behind hds hfree => ?_⟩
    · exact hnone front (behind ++ ds) (by rw [hcs, List.append_assoc, List.cons_append])
    · exact hnone (cs ++ front) behind (by rw [hds, List.append_assoc]) ((isFree_append h).mpr hfree)
  · rintro ⟨hcs, hds⟩ front behind heq hfree
    rcases List.append_eq_append_iff.mp heq with ⟨more, rfl, rfl⟩ | ⟨more, rfl, hmore⟩
    · exact hds more behind rfl ((isFree_append h).mp hfree)
    · cases more with
      | nil => exact hds [] behind hmore.symm (isFree_nil.mpr ⟨rfl, rfl⟩)
      | cons c more =>
          obtain ⟨rfl, rfl⟩ := List.cons.inj hmore
          exact hcs front more rfl hfree

end

/-- A text in which no `mark` is free, and which leaves no string open and no bracket. -/
structure IsWhole (mark : Char) (step : Char → Int) (cs : List Char) : Prop where
  settled : IsFree step none 0 cs
  uncut : NoneFree mark step none 0 cs

/-- A text is cut at a comma or a bracket, and nothing but brackets counts for that. -/
structure Cuts (mark : Char) (step : Char → Int) : Prop where
  mark : isBracket mark = true ∨ mark = ','
  inert : ∀ c, isBracket c = false → step c = 0

theorem cuts_comma : Cuts ',' bracketStep where
  mark := Or.inr rfl
  inert _ := bracketStep_eq_zero

theorem cuts_pair {opening closing : Char} (hopening : isBracket opening = true)
    (hclosing : isBracket closing = true) : Cuts closing (pairStep opening closing) where
  mark := Or.inl hclosing
  inert c hc := by
    have hne : ∀ {d : Char}, isBracket d = true → c ≠ d := fun hd => (ne_of_test hd hc).symm
    simp [pairStep, hne hopening, hne hclosing]

/-- A quote opens a string, and is nothing else. -/
theorem isBracket_of_isQuote {quote : Char} (h : quote = '"' ∨ quote = '\'') :
    quoteAfter none quote = some quote ∧ isBracket quote = false ∧ quote ≠ ',' := by
  rcases h with rfl | rfl <;> decide

section
variable {step : Char → Int} {quote : Char} {text : List Char} (h : quote ∉ text)
include h

/-- A string goes on as long as its quote does not come. -/
theorem quoteBehind_string : quoteBehind (some quote) text = some quote := by
  induction text with
  | nil => rfl
  | cons c text ih =>
      obtain ⟨hc, htext⟩ := List.ne_and_not_mem_of_not_mem_cons h
      have hafter : quoteAfter (some quote) c = some quote := if_neg (Ne.symm hc)
      show quoteBehind (quoteAfter (some quote) c) text = _
      rw [hafter, ih htext]

theorem level_string : level step (some quote) text = 0 := by
  induction text with
  | nil => rfl
  | cons c text ih =>
      obtain ⟨hc, htext⟩ := List.ne_and_not_mem_of_not_mem_cons h
      have hafter : quoteAfter (some quote) c = some quote := if_neg (Ne.symm hc)
      rw [level, hafter, ih htext]
      rfl

end

namespace IsWhole

variable {mark : Char} {step : Char → Int} {cs ds : List Char}

theorem nil : IsWhole mark step [] := ⟨isFree_nil.mpr ⟨rfl, rfl⟩, noneFree_nil⟩

theorem append (h : IsWhole mark step cs) (h' : IsWhole mark step ds) :
    IsWhole mark step (cs ++ ds) where
  settled := (isFree_append h.settled).mpr h'.settled
  uncut := (noneFree_append h.settled).mpr ⟨h.uncut, h'.uncut⟩

theorem flatten {pieces : List (List Char)} (h : ∀ piece ∈ pieces, IsWhole mark step piece) :
    IsWhole mark step pieces.flatten := by
  induction pieces with
  | nil => exact nil
  | cons piece pieces ih =>
      obtain ⟨hpiece, hpieces⟩ := List.forall_mem_cons.mp h
      exact hpiece.append (ih hpieces)

variable (hcuts : Cuts mark step)
include hcuts

theorem cons {c : Char} (hc : IsPlain c) (h : IsWhole mark step cs) :
    IsWhole mark step (c :: cs) := by
  obtain ⟨hafter, hbracket, hcomma⟩ := hc
  have hmark : c ≠ mark := by
    rintro rfl
    exact hcuts.mark.elim (fun hmark => absurd hmark (by simp [hbracket])) hcomma
  constructor
  · rw [isFree_cons, hafter, hcuts.inert c hbracket]
    exact h.settled
  · rw [noneFree_cons, hafter, hcuts.inert c hbracket]
    exact ⟨fun hcut => hmark hcut.1, h.uncut⟩

theorem plain (h : ∀ c ∈ cs, IsPlain c) : IsWhole mark step cs := by
  induction cs with
  | nil => exact nil
  | cons c cs ih =>
      obtain ⟨hc, hcs⟩ := List.forall_mem_cons.mp h
      exact (ih hcs).cons hcuts hc

/-- A string is whole if its quote is not in it. -/
theorem string {quote : Char} (hquote : quote = '"' ∨ quote = '\'') (h : quote ∉ cs) :
    IsWhole mark step (quote :: (cs ++ [quote])) := by
  obtain ⟨hafter, hbracket, hcomma⟩ := isBracket_of_isQuote hquote
  have hmark : quote ≠ mark := by
    rintro rfl
    exact hcuts.mark.elim (fun hmark => absurd hmark (by simp [hbracket])) hcomma
  constructor
  · rw [isFree_cons, hafter, hcuts.inert quote hbracket]
    have hclosed : quoteAfter (some quote) quote = none := if_pos rfl
    rw [IsFree, quoteBehind_append, level_append, quoteBehind_string h, level_string h]
    exact ⟨hclosed, rfl⟩
  · rw [noneFree_cons, hafter]
    refine ⟨fun hcut => hmark hcut.1, fun front behind hsplit hfree => ?_⟩
    -- in front of the closing quote, the string is still open
    have hopen : quote ∉ front := by
      rcases List.append_eq_append_iff.mp hsplit with ⟨more, rfl, hmore⟩ | ⟨more, rfl, -⟩
      · cases more with
        | nil => exact absurd (List.cons.inj hmore).1 hmark
        | cons c more => simp at hmore
      · exact fun hfront => h (List.mem_append_left _ hfront)
    rw [IsFree, quoteBehind_string hopen] at hfree
    cases hfree.1

end IsWhole

/-- Bracketed text is read whole, and then trimmed. -/
theorem readBalanced_eq_ok_iff {opening closing : Char} (hopening : quoteAfter none opening = none)
    (hclosing : quoteAfter none closing = none) (hne : opening ≠ closing) {rest behind : List Char}
    {text : String} : readBalanced opening closing rest = .ok (text, behind) ↔
      ∃ inner, rest = inner ++ closing :: behind ∧
        IsWhole closing (pairStep opening closing) inner ∧
          dropBlanksEnd (dropBlanks inner) = text.toList := by
  have hspan : ∀ inner, spanBalanced opening closing none 0 rest = some (inner, behind) ↔
      rest = inner ++ closing :: behind ∧ IsWhole closing (pairStep opening closing) inner :=
    fun inner => (spanBalanced_eq_some_iff hopening hclosing hne).trans
      (and_congr_right fun _ => ⟨fun h => ⟨h.1, h.2⟩, fun h => ⟨h.settled, h.uncut⟩⟩)
  unfold readBalanced
  constructor
  · intro h
    split at h
    next inner after hread =>
      obtain ⟨rfl, rfl⟩ := Prod.mk.inj (Except.ok.inj h)
      obtain ⟨hrest, hwhole⟩ := (hspan inner).mp hread
      exact ⟨inner, hrest, hwhole, String.toList_ofList.symm⟩
    · cases h
  · rintro ⟨inner, hrest, hwhole, htext⟩
    rw [(hspan inner).mpr ⟨hrest, hwhole⟩]
    dsimp only
    rw [htext, String.ofList_toList]

/-- Strings are closed in the text, and every bracket is, behind where it is opened. -/
structure IsNested (cs : List Char) : Prop where
  settled : IsFree bracketStep none 0 cs
  sane : ∀ front ∈ cs.inits, 0 ≤ level bracketStep none front

instance (cs : List Char) : Decidable (IsNested cs) :=
  decidable_of_iff (IsFree bracketStep none 0 cs ∧ ∀ front ∈ cs.inits, 0 ≤ level bracketStep none front)
    ⟨fun h => ⟨h.1, h.2⟩, fun h => ⟨h.settled, h.sane⟩⟩

namespace IsNested

variable {cs ds : List Char}

theorem append (h : IsNested cs) (h' : IsNested ds) : IsNested (cs ++ ds) where
  settled := (isFree_append h.settled).mpr h'.settled
  sane front hfront := by
    rw [List.inits_append, List.mem_append, List.mem_map] at hfront
    rcases hfront with hfront | ⟨more, hmore, rfl⟩
    · exact h.sane front hfront
    · have hlevel : level bracketStep none cs = 0 := (zero_add _).symm.trans h.settled.2
      rw [level_append, h.settled.1, hlevel, zero_add]
      exact h'.sane more (List.mem_of_mem_tail hmore)

theorem plain (h : ∀ c ∈ cs, IsPlain c) : IsNested cs where
  settled := (IsWhole.plain cuts_comma h).settled
  sane front hfront := by
    have hsub := ((List.mem_inits front cs).mp hfront).subset
    have hplain := IsWhole.plain cuts_comma fun c hc => h c (hsub hc)
    exact ((zero_add _).symm.trans hplain.settled.2).ge

theorem string {quote : Char} (hquote : quote = '"' ∨ quote = '\'') (h : quote ∉ cs) :
    IsNested (quote :: (cs ++ [quote])) where
  settled := (IsWhole.string cuts_comma hquote h).settled
  sane front hfront := by
    obtain ⟨hafter, hbracket, -⟩ := isBracket_of_isQuote hquote
    have hinside : ∀ {more}, more <+: cs → level bracketStep (some quote) more = 0 := fun hmore =>
      level_string fun hmem => h (hmore.subset hmem)
    rw [List.mem_inits] at hfront
    cases front with
    | nil => exact le_rfl
    | cons c front =>
        obtain ⟨rfl, hfront⟩ := List.cons_prefix_cons.mp hfront
        rw [level, hafter, cuts_comma.inert _ hbracket]
        rcases List.prefix_concat_iff.mp hfront with rfl | hfront
        · rw [level_append, hinside (List.prefix_refl cs), quoteBehind_string h]
          rfl
        · rw [hinside hfront]
          rfl

/-- **Between brackets, no comma of such a text is free.** -/
theorem bracketed {opening closing : Char} (hopening : bracketStep opening = 1)
    (hclosing : bracketStep closing = -1) (h : IsNested cs) :
    IsWhole ',' bracketStep (opening :: (cs ++ [closing])) := by
  obtain ⟨hquote, hcomma⟩ := quoteAfter_of_bracketStep (c := opening) (by rw [hopening]; decide)
  obtain ⟨hquote', hcomma'⟩ := quoteAfter_of_bracketStep (c := closing) (by rw [hclosing]; decide)
  constructor
  · rw [isFree_cons, hquote, hopening]
    show IsFree bracketStep none 1 (cs ++ [closing])
    have hlevel : level bracketStep none (cs ++ [closing]) = -1 := by
      rw [level_append, h.settled.1, ← zero_add (level _ _ cs), h.settled.2, level, level, hclosing]
      rfl
    rw [IsFree, quoteBehind_append, h.settled.1, hlevel]
    exact ⟨hquote', rfl⟩
  · rw [noneFree_cons, hquote, hopening]
    refine ⟨fun hcut => hcomma hcut.1, fun front behind hsplit hfree => ?_⟩
    -- in front of the closing bracket, the opening one is still open
    rcases List.append_eq_append_iff.mp hsplit with ⟨more, rfl, hmore⟩ | ⟨more, hcs, -⟩
    · cases more with
      | nil => exact hcomma' (List.cons.inj hmore).1
      | cons c more => simp at hmore
    · have hsane := h.sane front ((List.mem_inits front cs).mpr ⟨more, hcs.symm⟩)
      have hlevel := hfree.2
      simp only [Option.isNone_none, if_true] at hlevel
      omega

end IsNested

end Scss.Selector
