import Scss.Proofs.Lexing
import Scss.Proofs.Splitting

/-!
# Strings in tests of attributes

In the test of an attribute stands what is read as a string elsewhere. There a backslash keeps a quote
from closing the string; where a list of selectors is cut, and where the bracket is looked for that
closes the test, it does not. So a string in a test is read as such if its own quote is not in it, and
with any backslashes that do not stand in front of that. If it is, what follows may be taken for a
string, and the end of the test for a part of that.
-/

namespace Scss

open Text Selector

namespace Token

/-- A text that is read as one string is all there is from one quote to another. -/
theorem quoted_of_read {text inner : String} {quote : Char} {origin : Position} {t stop : Token}
    (h : read text origin = .ok [t, stop]) (htext : t.text = text)
    (hkind : t.kind = .quoted inner quote) :
    (quote = '"' ∨ quote = '\'') ∧ text.toList = quote :: (inner.toList ++ [quote]) := by
  unfold read at h
  generalize hplace : ({ origin with line := max origin.line 1, column := max origin.column 1 } :
    Position) = place at h
  clear hplace
  cases hcs : text.toList with
  | nil =>
      rw [hcs] at h
      exact absurd (Except.ok.inj h) (by simp)
  | cons first rest =>
      rw [hcs, readFrom] at h
      have hspells := scan_spells true first rest
      have hfits := scan_fits true first rest
      cases hscan : scan true first rest with
      | fail fault more =>
          rw [hscan] at h
          cases h
      | skip more =>
          -- what stands behind a comment is shorter than the text
          rw [hscan] at h hfits
          have hyields := readFrom_yields true (Position.uri_after place (first :: more))
            (0 + more.length + 1) hfits.isPrefix.length_le
          rw [show readFrom _ _ _ _ _ = _ from h] at hyields
          have hweight := hyields.2
          rw [weight_cons, htext, ← String.length_toList, hcs, List.length_cons] at hweight
          omega
      | token kind more =>
          rw [hscan] at h hspells
          obtain ⟨tokens, -, h⟩ := bind_eq_ok_iff.mp h
          obtain ⟨rfl, -⟩ := List.cons.inj (Except.ok.inj h)
          have hmore : first :: more = first :: rest := by
            rw [← hcs, ← htext, String.toList_ofList]
          obtain rfl : kind = _ := hkind
          exact ⟨hspells.1, hmore.symm.trans hspells.2⟩

end Token

namespace Selector

/-- **The test of an attribute is read as it stands** if it has no blanks at its ends, and if its end is
where the bracket is found that closes it. -/
theorem ofChars_test_iff {test : String} :
    ofChars ('[' :: (test.toList ++ [']'])) = .ok (.ofCompound (.ofList [.attribute test])) ↔
      dropBlanksEnd (dropBlanks test.toList) = test.toList ∧
        IsWhole ']' (pairStep '[' ']') test.toList := by
  have hbalanced : ∀ {found : String} {behind : List Char},
      readBalanced '[' ']' (test.toList ++ [']']) = .ok (found, behind) ↔
        ∃ inner, test.toList ++ [']'] = inner ++ ']' :: behind ∧
          IsWhole ']' (pairStep '[' ']') inner ∧ dropBlanksEnd (dropBlanks inner) = found.toList :=
    readBalanced_eq_ok_iff rfl rfl (by decide)
  constructor
  · intro h
    obtain ⟨x, hx, behind, hread⟩ := exists_readSimple_of_ofChars (by decide) (by decide) h
    have hx : x ∈ (Compound.ofList [.attribute test]).parts := by
      simpa [simples, simplesOf, ofCompound] using hx
    obtain rfl := List.mem_singleton.mp (Compound.mem_ofList.mp hx)
    obtain ⟨⟨found, after⟩, hfound, hread⟩ := bind_eq_ok_iff.mp hread
    obtain ⟨heq, rfl⟩ := Prod.mk.inj (Except.ok.inj hread)
    obtain rfl := SimpleSelector.attribute.inj heq
    obtain ⟨inner, hsplit, hwhole, htrim⟩ := hbalanced.mp hfound
    -- trimming adds nothing, so no other bracket closed the test
    obtain ⟨front, back, -, -, hinner, -⟩ := exists_dropBlanks inner
    have hlength := congrArg List.length hinner
    have htotal := congrArg List.length hsplit
    rw [htrim] at hlength
    simp only [List.length_append, List.length_cons, List.length_nil] at hlength htotal
    obtain rfl := (List.append_inj hsplit (by omega)).1
    exact ⟨htrim, hwhole⟩
  · rintro ⟨htrim, hwhole⟩
    refine ofChars_of_readSimple (by decide) (by decide) ?_
    show (readBalanced '[' ']' (test.toList ++ [']']) >>= fun read =>
      Except.ok (SimpleSelector.attribute read.1, read.2)) = _
    rw [hbalanced.mpr ⟨test.toList, rfl, hwhole, htrim⟩]
    rfl

variable {name text inner : String} {quote : Char}

/-- With a string at its end, a test is trimmed if no blank begins it. -/
theorem dropBlanks_quotedTest {name inner : List Char} (hquote : quote = '"' ∨ quote = '\'') :
    dropBlanksEnd (dropBlanks (name ++ '=' :: quote :: (inner ++ [quote]))) =
        name ++ '=' :: quote :: (inner ++ [quote]) ↔
      ∀ c ∈ name.head?, isBlank c = false := by
  have hblank : isBlank quote = false := by rcases hquote with rfl | rfl <;> decide
  have hstring : IsTrimmed ('=' :: quote :: (inner ++ [quote])) :=
    (IsTrimmed.singleton (c := '=') (by decide)).append (quote :: inner) (.singleton hblank)
  constructor
  · intro h c hc
    obtain ⟨-, -, -, -, -, hnil | htrimmed⟩ :=
      exists_dropBlanks (name ++ '=' :: quote :: (inner ++ [quote]))
    · rw [h] at hnil
      exact absurd hnil (List.append_ne_nil_of_right_ne_nil _ (List.cons_ne_nil _ _))
    · rw [h] at htrimmed
      refine htrimmed.front c ?_
      rw [List.head?_append, Option.mem_def.mp hc]
      rfl
  · intro hfront
    have htrimmed : IsTrimmed (name ++ '=' :: quote :: (inner ++ [quote])) := by
      cases name with
      | nil => exact hstring
      | cons c name => exact (IsTrimmed.singleton (hfront c rfl)).append name hstring
    rw [htrimmed.dropBlanks_eq, htrimmed.dropBlanksEnd_eq]

/--
**A string is read in the test of an attribute as it is read elsewhere**, but for backslashes in front of
its own quote. Let a text be read as one string. In the test `[name=text]` it is read as it stands exactly
if the name does not begin with a blank, the bracket that closes the test is found where it stands, and no
comma is free. This is so whenever nothing in the name is a bracket, a quote or a comma, as it could be
behind a backslash, and the quote of the string is not in it.
-/
theorem readList_quotedTest {origin position : Position} {t stop : Token}
    (h : Token.read text origin = .ok [t, stop]) (htext : t.text = text)
    (hkind : t.kind = .quoted inner quote) :
    (readList ("[" ++ (name ++ "=" ++ text) ++ "]") position =
        .ok [.ofCompound (.ofList [.attribute (name ++ "=" ++ text)])] ↔
      (∀ c ∈ name.toList.head?, isBlank c = false) ∧
        IsWhole ']' (pairStep '[' ']') (name ++ "=" ++ text).toList ∧
        NoneFree ',' bracketStep none 0 ("[" ++ (name ++ "=" ++ text) ++ "]").toList) ∧
    ((∀ c ∈ name.toList.head?, isBlank c = false) → (∀ c ∈ name.toList, IsPlain c) →
      quote ∉ inner.toList →
        readList ("[" ++ (name ++ "=" ++ text) ++ "]") position =
          .ok [.ofCompound (.ofList [.attribute (name ++ "=" ++ text)])]) := by
  obtain ⟨hquote, hchars⟩ := Token.quoted_of_read h htext hkind
  have hbrackets : ("[" ++ (name ++ "=" ++ text) ++ "]").toList =
      '[' :: ((name ++ "=" ++ text).toList ++ [']']) := by simp
  have htest : (name ++ "=" ++ text).toList =
      name.toList ++ '=' :: quote :: (inner.toList ++ [quote]) := by simp [hchars]
  have htrimmed : IsTrimmed ('[' :: ((name ++ "=" ++ text).toList ++ [']'])) :=
    (IsTrimmed.singleton (c := '[') (by decide)).append _ (.singleton (c := ']') (by decide))
  have hread : readList ("[" ++ (name ++ "=" ++ text) ++ "]") position =
        .ok [.ofCompound (.ofList [.attribute (name ++ "=" ++ text)])] ↔
      (∀ c ∈ name.toList.head?, isBlank c = false) ∧
        IsWhole ']' (pairStep '[' ']') (name ++ "=" ++ text).toList ∧
        NoneFree ',' bracketStep none 0 ("[" ++ (name ++ "=" ++ text) ++ "]").toList := by
    rw [readList_eq_singleton_iff, hbrackets, htrimmed.dropBlanks_eq, htrimmed.dropBlanksEnd_eq,
      ofChars_test_iff, htest, dropBlanks_quotedTest hquote, and_comm, and_assoc]
  refine ⟨hread, fun hfront hname hinner => hread.mpr ⟨hfront, ?_, ?_⟩⟩
  · have hcuts : Cuts ']' (pairStep '[' ']') := cuts_pair rfl rfl
    rw [htest]
    exact (IsWhole.plain hcuts hname).append ((IsWhole.string hcuts hquote hinner).cons hcuts (by decide))
  · have hplain : IsNested ['='] := .plain (List.forall_mem_singleton.mpr (by decide))
    rw [hbrackets, htest]
    exact (((IsNested.plain hname).append (hplain.append (.string hquote hinner))).bracketed rfl rfl).uncut

/-- `"],\'"`, a string with a bracket, a comma and an escaped quote in it. -/
theorem bracketInString_read : ∃ t stop : Token,
    Token.read "\"],\\'\"" (.start "input.scss") = .ok [t, stop] ∧ t.text = "\"],\\'\"" ∧
      t.kind = .quoted "],\\'" '"' ∧
      readList ("[" ++ ("a" ++ "=" ++ "\"],\\'\"") ++ "]") (.start "input.scss") =
        .ok [.ofCompound (.ofList [.attribute ("a" ++ "=" ++ "\"],\\'\"")])] := by
  obtain ⟨t, stop, hread, htext, hkind⟩ : ∃ t stop : Token,
      Token.read "\"],\\'\"" (.start "input.scss") = .ok [t, stop] ∧ t.text = "\"],\\'\"" ∧
        t.kind = .quoted "],\\'" '"' := ⟨_, _, by cbv, rfl, rfl⟩
  have hfront : ∀ c ∈ "a".toList.head?, isBlank c = false := by
    rintro _ ⟨⟩
    decide
  have hname : ∀ c ∈ "a".toList, IsPlain c := List.forall_mem_singleton.mpr (by decide)
  refine ⟨t, stop, hread, htext, hkind, ?_⟩
  exact (readList_quotedTest hread htext hkind).2 hfront hname (by decide)

/-- The quote in `"\""` does not close the string, but in a test it does, and then nothing closes the
test. -/
theorem escapedQuote_unclosed : (∃ t stop : Token,
      Token.read "\"\\\"\"" (.start "input.scss") = .ok [t, stop] ∧ t.text = "\"\\\"\"" ∧
        t.kind = .quoted "\\\"" '"') ∧
    readList ("[" ++ ("a" ++ "=" ++ "\"\\\"\"") ++ "]") (.start "input.scss") =
      .error (.parse (.start "input.scss") (.selector (.missingClose ']') "[a=\"\\\"\"]")) :=
  ⟨⟨_, _, by cbv, rfl, rfl⟩, by cbv⟩

end Selector

end Scss
