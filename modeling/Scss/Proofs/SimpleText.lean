import Scss.Proofs.Chains
import Scss.Proofs.Passages

/-!
# Simple selectors are read back as they are written

A simple selector can be read from its text if its name is made of word characters, and what stands in
its brackets is trimmed and holds no other brackets, quotes or commas (`SimpleSelector.IsLegible`). It is
then found again whatever the rest of the compound behind it is, but for one exception: behind the
name of an element, a percent sign belongs to the name.
-/

namespace Scss

open Text

/-- A name that is not empty, made of word characters. -/
def IsName (name : String) : Prop := name.toList ≠ [] ∧ ∀ c ∈ name.toList, isWordChar c = true

instance (name : String) : Decidable (IsName name) :=
  decidable_of_iff (name.toList ≠ [] ∧ name.toList.all isWordChar = true) (by simp [IsName])

namespace Selector

/-! ## Pieces of a list -/

/-- Neither a quote, nor a bracket, nor a comma. -/
def IsPlain (c : Char) : Prop := quoteAfter none c = none ∧ isBracket c = false ∧ c ≠ ','

instance (c : Char) : Decidable (IsPlain c) := by
  unfold IsPlain
  infer_instance

/-- A character is plain if a test holds of it that none of the marks meets. -/
theorem isPlain_of_test {test : Char → Bool} {c : Char} (h : test c = true)
    (hmarks : ∀ d ∈ ['"', '\'', '(', '[', ')', ']', ','], test d = false) : IsPlain c := by
  have hne : ∀ d ∈ ['"', '\'', '(', '[', ')', ']', ','], c ≠ d := fun d hd =>
    ne_of_test h (hmarks d hd)
  simp only [List.forall_mem_cons] at hne
  obtain ⟨hdouble, hsingle, hparen, hbracket, hparen', hbracket', hcomma, -⟩ := hne
  refine ⟨by simp [quoteAfter, hdouble, hsingle], ?_, hcomma⟩
  simp only [isBracket, Bool.or_eq_false_iff, beq_eq_false_iff_ne]
  exact ⟨⟨⟨hparen, hbracket⟩, hparen'⟩, hbracket'⟩

theorem isPlain_of_isNameChar {c : Char} (h : isNameChar c = true) : IsPlain c :=
  isPlain_of_test h fun d hd => by fin_cases hd <;> decide

theorem isPlain_of_isBlank {c : Char} (h : isBlank c = true) : IsPlain c :=
  isPlain_of_test h fun d hd => by fin_cases hd <;> decide

theorem bracketStep_eq_zero {c : Char} (h : isBracket c = false) : bracketStep c = 0 := by
  simp only [isBracket, Bool.or_eq_false_iff, beq_eq_false_iff_ne] at h
  simp [bracketStep, h]

/-- A bracket is neither a quote nor a comma. -/
theorem quoteAfter_of_bracketStep {c : Char} (h : bracketStep c ≠ 0) :
    quoteAfter none c = none ∧ c ≠ ',' := by
  refine ⟨?_, ?_⟩
  · by_contra hquote
    have : c = '"' ∨ c = '\'' := by
      by_contra hne
      exact hquote (if_neg hne)
    rcases this with rfl | rfl <;> exact h rfl
  · rintro rfl
    exact h rfl

/-- Text in which no other piece of a list begins: without quotes and commas, and with as many brackets
closed as opened. -/
structure IsPiece (cs : List Char) : Prop where
  chars : ∀ c ∈ cs, quoteAfter none c = none ∧ c ≠ ','
  level : (cs.map bracketStep).sum = 0

namespace IsPiece

variable {cs ds : List Char}

/-- Pieces side by side are a piece: what the first one opens it closes. -/
theorem append (h : IsPiece cs) (h' : IsPiece ds) : IsPiece (cs ++ ds) :=
  ⟨List.forall_mem_append.mpr ⟨h.chars, h'.chars⟩, by simp [h.level, h'.level]⟩

theorem plain (h : ∀ c ∈ cs, IsPlain c) : IsPiece cs where
  chars c hc := ⟨(h c hc).1, (h c hc).2.2⟩
  level := by
    refine List.sum_eq_zero fun step hstep => ?_
    obtain ⟨c, hc, rfl⟩ := List.mem_map.mp hstep
    exact bracketStep_eq_zero (h c hc).2.1

theorem name {name : String} (h : IsName name) : IsPiece name.toList :=
  plain fun c hc => isPlain_of_isNameChar (isNameChar_of_isWordChar (h.2 c hc))

/-- A plain character in front of a piece. -/
theorem cons {c : Char} (hc : IsPlain c) (h : IsPiece cs) : IsPiece (c :: cs) :=
  (plain (List.forall_mem_singleton.mpr hc)).append h

/-- Brackets around a piece make a piece. -/
theorem bracketed {opening closing : Char} (hopening : bracketStep opening = 1)
    (hclosing : bracketStep closing = -1) (h : IsPiece cs) :
    IsPiece (opening :: (cs ++ [closing])) where
  chars := List.forall_mem_cons.mpr ⟨quoteAfter_of_bracketStep (by rw [hopening]; decide),
    List.forall_mem_append.mpr ⟨h.chars,
      List.forall_mem_singleton.mpr (quoteAfter_of_bracketStep (by rw [hclosing]; decide))⟩⟩
  level := by simp [hopening, hclosing, h.level]

theorem paren (h : IsPiece cs) : IsPiece ('(' :: (cs ++ [')'])) := h.bracketed rfl rfl

theorem bracket (h : IsPiece cs) : IsPiece ('[' :: (cs ++ [']'])) := h.bracketed rfl rfl

end IsPiece

/-- Text that can stand between brackets: plain characters, of which the first and the last are no
blanks. -/
structure IsInner (text : String) : Prop where
  plain : ∀ c ∈ text.toList, IsPlain c
  front : ∀ c ∈ text.toList.head?, isBlank c = false
  back : ∀ c ∈ text.toList.getLast?, isBlank c = false

instance (text : String) : Decidable (IsInner text) :=
  decidable_of_iff (text.toList.all (IsPlain ·) = true ∧ text.toList.head?.all (!isBlank ·) = true ∧
      text.toList.getLast?.all (!isBlank ·) = true) (by
    have hall : ∀ o : Option Char, o.all (!isBlank ·) = true ↔ ∀ c ∈ o, isBlank c = false := by
      rintro (_ | c) <;> simp
    rw [hall, hall, List.all_eq_true]
    simp only [decide_eq_true_eq]
    exact ⟨fun ⟨hplain, hfront, hback⟩ => ⟨hplain, hfront, hback⟩,
      fun h => ⟨h.plain, h.front, h.back⟩⟩)

/-- Word characters and `=` may stand in an argument. -/
theorem isInner_of_word {text : String} (h : ∀ c ∈ text.toList, isWordChar c = true ∨ c = '=') :
    IsInner text := by
  have hblank : ∀ c ∈ text.toList, isBlank c = false := by
    intro c hc
    rcases h c hc with hword | rfl
    · exact isBlank_of_isWordChar hword
    · decide
  refine ⟨fun c hc => ?_, fun c hc => hblank c (List.mem_of_mem_head? hc),
    fun c hc => hblank c (List.mem_of_getLast? hc)⟩
  rcases h c hc with hword | rfl
  · exact isPlain_of_isNameChar (isNameChar_of_isWordChar hword)
  · decide

end Selector

/-! ## Simple selectors -/

namespace SimpleSelector

open Selector

/-- The selector is no `&`, its names are made of word characters, and what stands between its
brackets is plain. -/
def IsLegible : SimpleSelector → Prop
  | element name | id name | ofClass name | placeholder name => IsName name
  | universal => True
  | .attribute test => IsInner test
  | pseudoClass name argument | pseudoElement name argument =>
    IsName name ∧ ∀ t ∈ argument, IsInner t
  | parent _ => False

instance : DecidablePred IsLegible
  | element name | id name | ofClass name | placeholder name => inferInstanceAs (Decidable (IsName name))
  | universal => inferInstanceAs (Decidable True)
  | .attribute test => inferInstanceAs (Decidable (IsInner test))
  | pseudoClass name argument | pseudoElement name argument =>
    inferInstanceAs (Decidable (IsName name ∧ ∀ t ∈ argument, IsInner t))
  | parent _ => inferInstanceAs (Decidable False)

theorem text_pseudoClass (name : String) (argument : Option String) :
    (pseudoClass name argument).text.toList =
      ':' :: (name.toList ++ (argument.elim "" fun a => "(" ++ a ++ ")").toList) := by
  show (":" ++ name ++ argument.elim "" fun a => "(" ++ a ++ ")").toList = _
  simp

theorem text_pseudoElement (name : String) (argument : Option String) :
    (pseudoElement name argument).text.toList =
      ':' :: ':' :: (name.toList ++ (argument.elim "" fun a => "(" ++ a ++ ")").toList) := by
  show ("::" ++ name ++ argument.elim "" fun a => "(" ++ a ++ ")").toList = _
  simp

theorem text_argument (a : String) : ("(" ++ a ++ ")").toList = '(' :: (a.toList ++ [')']) := by simp

variable {x : SimpleSelector} {behind : List Char}

theorem IsLegible.isParent (h : x.IsLegible) : x.isParent = false := by
  cases x with
  | parent suffix => exact h.elim
  | _ => rfl

theorem isPiece_argument {argument : Option String} (h : ∀ t ∈ argument, IsInner t) :
    IsPiece (argument.elim "" fun a => "(" ++ a ++ ")").toList := by
  cases argument with
  | none => exact .plain fun _ h => absurd h List.not_mem_nil
  | some a => exact text_argument a ▸ (IsPiece.plain (h a rfl).plain).paren

/-- A simple selector may stand in a list as it is. -/
theorem IsLegible.isPiece (h : x.IsLegible) : IsPiece x.text.toList := by
  cases x with
  | element name => exact .name h
  | universal => exact .plain (List.forall_mem_singleton.mpr (by decide))
  | id name => simpa [text] using (IsPiece.name h).cons (c := '#') (by decide)
  | ofClass name => simpa [text] using (IsPiece.name h).cons (c := '.') (by decide)
  | placeholder name => simpa [text] using (IsPiece.name h).cons (c := '%') (by decide)
  | «attribute» test => simpa [text] using (IsPiece.plain (IsInner.plain h)).bracket
  | pseudoClass name argument =>
      rw [text_pseudoClass]
      exact ((IsPiece.name h.1).append (isPiece_argument h.2)).cons (by decide)
  | pseudoElement name argument =>
      rw [text_pseudoElement]
      exact (((IsPiece.name h.1).append (isPiece_argument h.2)).cons (by decide)).cons (by decide)
  | parent suffix => exact h.elim

theorem isTrimmed_name {name : String} (h : IsName name) : IsTrimmed name.toList where
  nonempty := h.1
  front c hc := isBlank_of_isWordChar (h.2 c (List.mem_of_mem_head? hc))
  back c hc := isBlank_of_isWordChar (h.2 c (List.mem_of_getLast? hc))

theorem isTrimmed_pseudo {name : String} (h : IsName name) (argument : Option String) :
    IsTrimmed (name.toList ++ (argument.elim "" fun a => "(" ++ a ++ ")").toList) := by
  cases argument with
  | none => simpa using isTrimmed_name h
  | some a =>
      have hclosing : IsTrimmed [')'] := .singleton (by decide)
      simpa using (isTrimmed_name h).append ('(' :: a.toList) hclosing

/-- It neither begins nor ends with a blank. -/
theorem IsLegible.isTrimmed (h : x.IsLegible) : IsTrimmed x.text.toList := by
  have hmark : ∀ {c : Char} {cs : List Char}, isBlank c = false → IsTrimmed cs →
      IsTrimmed (c :: cs) := fun hc hcs => (IsTrimmed.singleton hc).append [] hcs
  cases x with
  | element name => exact isTrimmed_name h
  | universal => exact .singleton (by decide)
  | id name => simpa [text] using hmark (c := '#') (by decide) (isTrimmed_name h)
  | ofClass name => simpa [text] using hmark (c := '.') (by decide) (isTrimmed_name h)
  | placeholder name => simpa [text] using hmark (c := '%') (by decide) (isTrimmed_name h)
  | «attribute» test =>
      have hclosing : IsTrimmed [']'] := .singleton (by decide)
      have hopening : IsTrimmed ['['] := .singleton (by decide)
      simpa [text] using hopening.append test.toList hclosing
  | pseudoClass name argument =>
      exact text_pseudoClass name argument ▸ hmark (by decide) (isTrimmed_pseudo h.1 argument)
  | pseudoElement name argument =>
      rw [text_pseudoElement]
      exact hmark (by decide) (hmark (by decide) (isTrimmed_pseudo h.1 argument))
  | parent suffix => exact h.elim

/-- What can stand behind a part that does not name an element. -/
def EndsPart (behind : List Char) : Prop := ∀ d ∈ behind.head?, EndsName d ∧ d ≠ '('

end SimpleSelector

namespace Selector

open SimpleSelector

variable {name : String} {behind : List Char}

/-- A name is read up to where it ends. -/
theorem readName_append (kind : String) (hname : IsName name)
    (hbehind : ∀ d ∈ behind.head?, EndsName d) :
    readName kind (name.toList ++ behind) = .ok (name, behind) := by
  have hspan : spanName (name.toList ++ behind) = (name.toList, behind) :=
    spanName_append (fun c hc => isNameChar_of_isWordChar (hname.2 c hc)) hbehind
  rw [readName, hspan]
  dsimp only
  rw [if_neg (by simpa using hname.1), String.ofList_toList]

/-- Text between brackets is read up to the bracket that closes it. -/
theorem readBalanced_append {opening closing : Char} {inner : String} (h : IsInner inner)
    (hopening : isBracket opening = true) (hclosing : isBracket closing = true)
    (hne : closing ≠ opening) :
    readBalanced opening closing (inner.toList ++ closing :: behind) = .ok (inner, behind) := by
  have hquote : quoteAfter none closing = none := by
    have hcases : closing = '(' ∨ closing = '[' ∨ closing = ')' ∨ closing = ']' := by
      simpa [isBracket, or_assoc] using hclosing
    rcases hcases with rfl | rfl | rfl | rfl <;> rfl
  have hspan : ∀ cs : List Char, (∀ c ∈ cs, IsPlain c) →
      spanBalanced opening closing none 0 (cs ++ closing :: behind) = some (cs, behind) := by
    intro cs
    induction cs with
    | nil =>
        intro _
        rw [List.nil_append, spanBalanced, hquote]
        simp [hne]
    | cons c cs ih =>
        intro hcs
        obtain ⟨⟨hplain, hbracket, -⟩, hcs⟩ := List.forall_mem_cons.mp hcs
        have hother : ∀ {d : Char}, isBracket d = true → c ≠ d := fun hd =>
          (ne_of_test hd hbracket).symm
        rw [List.cons_append, spanBalanced, hplain]
        simp [hother hopening, hother hclosing, ih hcs]
  have htrim : dropBlanksEnd (dropBlanks inner.toList) = inner.toList := by
    by_cases hnil : inner.toList = []
    · rw [hnil]
      rfl
    · have htrimmed : IsTrimmed inner.toList := ⟨hnil, h.front, h.back⟩
      rw [htrimmed.dropBlanks_eq, htrimmed.dropBlanksEnd_eq]
  rw [readBalanced, hspan _ h.plain]
  dsimp only
  rw [htrim, String.ofList_toList]

/-- The argument in its brackets is read as text, and its absence as none. -/
theorem readPseudo_append {argument : Option String} (hname : IsName name)
    (hargument : ∀ t ∈ argument, IsInner t) (hbehind : EndsPart behind) :
    readPseudo (name.toList ++ ((argument.elim "" fun a => "(" ++ a ++ ")").toList ++ behind)) =
      .ok ((name, argument), behind) := by
  cases argument with
  | none =>
      show readPseudo (name.toList ++ behind) = _
      rw [readPseudo, readName_append _ hname fun d hd => (hbehind d hd).1]
      simp only [bind, Except.bind]
      split
      · exact absurd rfl (hbehind '(' rfl).2
      · rfl
  | some a =>
      have htext : ("(" ++ a ++ ")").toList ++ behind = '(' :: (a.toList ++ ')' :: behind) := by simp
      have hends : ∀ d ∈ ('(' :: (a.toList ++ ')' :: behind)).head?, EndsName d := by
        intro d hd
        obtain rfl := Option.some.inj hd
        exact ⟨by decide, by decide⟩
      show readPseudo (name.toList ++ (("(" ++ a ++ ")").toList ++ behind)) = _
      rw [htext, readPseudo, readName_append _ hname hends]
      have hread : readBalanced '(' ')' (a.toList ++ ')' :: behind) = .ok (a, behind) :=
        readBalanced_append (hargument a rfl) rfl rfl (by decide)
      simp only [bind, Except.bind, hread]

theorem endsCompound_of_isWordChar {c : Char} (hc : isWordChar c = true) :
    endsCompound c = false := by
  have hne : ∀ {d : Char}, isWordChar d = false → c ≠ d := ne_of_test hc
  have hgreater : c ≠ '>' := hne (by decide)
  have hplus : c ≠ '+' := hne (by decide)
  have htilde : c ≠ '~' := hne (by decide)
  simp [endsCompound, isBlank_of_isWordChar hc, hgreater, hplus, htilde]

theorem readSimple_colon {rest : List Char} (h : rest.head? ≠ some ':') :
    readSimple ':' rest = (readPseudo rest).bind fun r =>
      .ok (.pseudoClass r.1.1 r.1.2, r.2) := by
  unfold readSimple
  split
  all_goals try exact absurd (by assumption : ':' = _) (by decide)
  · exact absurd rfl h
  · rfl
  · simp_all

/-- In front of `behind`, the text is read as the simple selector. -/
def ReadsAs (cs behind : List Char) (x : SimpleSelector) : Prop :=
  ∃ c rest, cs = c :: rest ∧ endsCompound c = false ∧ readSimple c (rest ++ behind) = .ok (x, behind)

/-- A name in front is that of an element, or of a step with `%` behind it. -/
theorem readSimple_name {c : Char} (hc : isWordChar c = true) (rest : List Char) :
    readSimple c rest = match spanName (c :: rest) with
      | (name, '%' :: behind) => .ok (.element (String.ofList (name ++ ['%'])), behind)
      | (name, behind) => .ok (.element (String.ofList name), behind) := by
  have hstart : (isNameStart c || c == '-' || c.isDigit) = true := by
    rcases isWordChar_cases hc with h | h | rfl
    · simp [h]
    · simp [h]
    · decide
  unfold readSimple
  split
  all_goals try exact absurd hc (by decide)
  exact if_pos hstart

/-- The name of an element, in front of anything but a percent sign. -/
theorem readsAs_element (hname : IsName name) (hbehind : ∀ d ∈ behind.head?, EndsName d)
    (hpercent : behind.head? ≠ some '%') : ReadsAs name.toList behind (.element name) := by
  obtain ⟨c, more, hcons⟩ := List.exists_cons_of_ne_nil hname.1
  have hc : isWordChar c = true := hname.2 c (hcons ▸ List.mem_cons_self)
  have hspan : spanName (name.toList ++ behind) = (name.toList, behind) :=
    spanName_append (fun c hc => isNameChar_of_isWordChar (hname.2 c hc)) hbehind
  refine ⟨c, more, hcons, endsCompound_of_isWordChar hc, ?_⟩
  rw [readSimple_name hc, ← List.cons_append, ← hcons, hspan]
  split
  next heq =>
    obtain ⟨-, rfl⟩ := Prod.mk.inj heq
    exact absurd rfl hpercent
  next heq =>
    obtain ⟨rfl, rfl⟩ := Prod.mk.inj heq
    rw [String.ofList_toList]

/-- A percent sign is read with the name in front of it. -/
theorem readsAs_percent (hname : IsName name) (behind : List Char) :
    ReadsAs (name.toList ++ ['%']) behind (.element (name ++ "%")) := by
  obtain ⟨c, more, hcons⟩ := List.exists_cons_of_ne_nil hname.1
  have hc : isWordChar c = true := hname.2 c (hcons ▸ List.mem_cons_self)
  have hspan : spanName (name.toList ++ '%' :: behind) = (name.toList, '%' :: behind) := by
    refine spanName_append (fun c hc => isNameChar_of_isWordChar (hname.2 c hc)) fun d hd => ?_
    obtain rfl := Option.some.inj hd
    exact ⟨by decide, by decide⟩
  refine ⟨c, more ++ ['%'], by rw [hcons, List.cons_append], endsCompound_of_isWordChar hc, ?_⟩
  have htext : c :: (more ++ ['%'] ++ behind) = name.toList ++ '%' :: behind := by simp [hcons]
  have hname : String.ofList (name.toList ++ ['%']) = name ++ "%" := by
    rw [← String.toList_inj]
    simp
  rw [readSimple_name hc, htext, hspan]
  exact congrArg (fun name => Except.ok (SimpleSelector.element name, behind)) hname

/-- **A part that does not name an element is read back from its text.** -/
theorem readsAs_text {x : SimpleSelector} (h : x.IsLegible) (helement : x.isElement = false)
    (hbehind : EndsPart behind) : ReadsAs x.text.toList behind x := by
  have hends : ∀ d ∈ behind.head?, EndsName d := fun d hd => (hbehind d hd).1
  cases x with
  -- every part but an element has its mark in front, and the reader goes by that mark
  | element name => cases helement
  | universal => exact ⟨'*', [], rfl, by decide, rfl⟩
  | id name =>
      refine ⟨'#', name.toList, by simp [SimpleSelector.text], by decide, ?_⟩
      show (readName "id" (name.toList ++ behind) >>= fun r => _) = _
      rw [readName_append _ h hends]
      rfl
  | ofClass name =>
      refine ⟨'.', name.toList, by simp [SimpleSelector.text], by decide, ?_⟩
      show (readName "class" (name.toList ++ behind) >>= fun r => _) = _
      rw [readName_append _ h hends]
      rfl
  | placeholder name =>
      refine ⟨'%', name.toList, by simp [SimpleSelector.text], by decide, ?_⟩
      show (readName "placeholder" (name.toList ++ behind) >>= fun r => _) = _
      rw [readName_append _ h hends]
      rfl
  | «attribute» test =>
      refine ⟨'[', test.toList ++ [']'], by simp [SimpleSelector.text], by decide, ?_⟩
      rw [List.append_assoc]
      show (readBalanced '[' ']' (test.toList ++ ']' :: behind) >>= fun r => _) = _
      rw [readBalanced_append h rfl rfl (by decide)]
      rfl
  | pseudoClass name argument =>
      refine ⟨':', _, text_pseudoClass name argument, by decide, ?_⟩
      obtain ⟨c, more, hname⟩ := List.exists_cons_of_ne_nil h.1.1
      have hc : isWordChar c = true := h.1.2 c (hname ▸ List.mem_cons_self)
      have hcolon : c ≠ ':' := by
        rintro rfl
        exact absurd hc (by decide)
      have hread := readPseudo_append h.1 h.2 hbehind
      rw [List.append_assoc, readSimple_colon (by simpa [hname] using hcolon), hread]
      rfl
  | pseudoElement name argument =>
      refine ⟨':', _, text_pseudoElement name argument, by decide, ?_⟩
      rw [List.cons_append, List.append_assoc]
      show (readPseudo _ >>= fun r => _) = _
      rw [readPseudo_append h.1 h.2 hbehind]
      rfl
  | parent suffix => exact h.elim

end Selector

end Scss
