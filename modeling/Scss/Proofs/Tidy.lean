import Scss.Proofs.Printing
import Scss.Proofs.Written

/-!
# Trees that are printed as what can be read

A tree is tidy if it consists of rules around declarations, and of media directives around such rules,
with names made of word characters, values made of words, strings and lists, and queries of words,
parentheses and colons. What else has to hold of it, a compile sees to: its rules have selectors, none
of them twice, and nothing is empty. So it is printed as parts that can be read again.
-/

namespace Scss

open Text

/-! ## Queries -/

/-- A query of words, colons, and parentheses that are closed, with single spaces. -/
structure IsQuery (text : String) : Prop where
  chars : ∀ c ∈ text.toList, isWordChar c = true ∨ c ∈ ['(', ')', ':', ' ']
  spaced : text.toList.IsChain fun c d => c = ' ' → d ≠ ' '
  nested : Nested [] text.toList

namespace Text

/-- Behind the end of a text there may be characters that are no brackets. -/
theorem nested_append_left {stack cs ds : List Char} (h : ∀ c ∈ ds, isBracket c = false) :
    Nested stack (cs ++ ds) ↔ Nested stack cs := by
  induction cs generalizing stack with
  | nil =>
      have hds : Nested stack (ds ++ []) ↔ Nested stack [] := nested_append h
      rwa [List.append_nil] at hds
  | cons c cs ih => simp only [List.cons_append, Nested, ih]

end Text

/-- What is printed of a query can be read again. -/
theorem IsQuery.isPassage {text : String} (h : IsQuery text) :
    Token.IsPassage [] (trim text).toList ∧
      ((trim text).toList = [] ∨ IsTrimmed (trim text).toList) := by
  obtain ⟨front, back, hfront, hback, htext, htrimmed⟩ := exists_dropBlanks text.toList
  have htrim : (trim text).toList = dropBlanksEnd (dropBlanks text.toList) := String.toList_ofList
  rw [← htrim] at htext htrimmed
  have hpassage : ∀ c ∈ text.toList, isPassageChar c = true := by
    intro c hc
    rcases h.chars c hc with hword | hmark
    · simp [isPassageChar, hword]
    · fin_cases hmark <;> decide
  have hbracket : ∀ c, isBlank c = true → isBracket c = false := by
    intro c hc
    rw [Bool.eq_false_iff]
    intro hbracket
    simp only [isBracket, Bool.or_eq_true, beq_iff_eq] at hbracket
    rcases hbracket with ((rfl | rfl) | rfl) | rfl <;> exact absurd hc (by decide)
  have hspaced := h.spaced
  have hnested := h.nested
  rw [htext] at hpassage hspaced hnested
  refine ⟨⟨fun c hc => hpassage c ?_, ?_, ?_⟩, htrimmed⟩
  · exact List.mem_append_right _ (List.mem_append_left _ hc)
  · have hchain := (List.isChain_append.mp (List.isChain_append.mp hspaced).2.1).1
    rcases htrimmed with hnil | htrimmed
    · rw [hnil]
      exact List.isChain_singleton _
    · refine hchain.append (List.isChain_singleton _) fun c hc d _ heq => ?_
      exact absurd (htrimmed.back c hc) (by rw [heq]; decide)
  · rw [nested_append fun c hc => hbracket c (hfront c hc),
      nested_append_left fun c hc => hbracket c (hback c hc)] at hnested
    exact hnested

/-! ## Statements -/

namespace Statement

/-- A declaration with a name of word characters, but not of a custom property, and a value made of
words, strings and lists. -/
def IsTidyLine : Statement → Prop
  | declaration name value _ =>
    IsName (Interpolation.text name) ∧ startsWith (Interpolation.text name) "--" = false ∧
      value.IsPhrase
  | _ => False

/-- A rule around such declarations, with names of word characters in its selectors, and at most one
part in each compound that tests the element, in front of the others. -/
def IsTidyRule : Statement → Prop
  | rule (.parsed selectors) body =>
    (∀ s ∈ selectors, s.AllCompounds Compound.IsNamed) ∧ ∀ n ∈ body, n.statement.IsTidyLine
  | _ => False

/-- Such a rule, or a media directive around such rules. -/
def IsTidy : Statement → Prop
  | media query body =>
    IsQuery (Interpolation.text query) ∧ ∀ n ∈ body, n.statement.IsTidyRule
  | statement => statement.IsTidyRule

end Statement

/-- A tree made of such statements, without a character set. -/
structure Stylesheet.IsTidy (s : Stylesheet) : Prop where
  charset : s.charset = none
  body : ∀ n ∈ s.body, n.statement.IsTidy

/-! ## What they are printed as -/

namespace Printed

variable {n : Node} {nodes : List Node}

theorem Line.exists_isPrintOf (h : n.statement.IsTidyLine) : ∃ l, Line.IsPrintOf l n := by
  obtain ⟨position, statement⟩ := n
  cases statement with
  | declaration name value important =>
      obtain ⟨hname, hcustom, hvalue⟩ := h
      obtain ⟨rows, hrows⟩ := hvalue.exists_rows
      exact ⟨⟨_, rows, important, hname, hcustom⟩, name, value, rfl, rfl, hrows.text⟩
  | _ => exact h.elim

/-- The selectors of a rule that is left can be printed, and they are chains. -/
def IsLeft (n : Node) : Prop :=
  IsPlain Printable n ∧ n.All (Statement.RulesAre fun s => Selector.IsChain s.segments)

section

variable {position : Position} {selectors : List Selector} {query : Interpolation} {body : List Node}

theorem IsLeft.rule (h : IsLeft (.mk position (.rule (.parsed selectors) body))) :
    Printable selectors ∧ body ≠ [] ∧ ∀ s ∈ selectors, Selector.IsChain s.segments := by
  obtain ⟨hplain, hchains⟩ := h
  cases hchains with
  | mk hchain _ =>
      cases hplain with
      | bare h => exact h.elim
      | rule hselectors hne _ => exact ⟨hselectors, hne, hchain⟩

theorem IsLeft.media (h : IsLeft (.mk position (.media query body))) :
    body ≠ [] ∧ ∀ n ∈ body, IsLeft n := by
  obtain ⟨hplain, hchains⟩ := h
  cases hchains with
  | mk _ hinside =>
      cases hplain with
      | bare h => exact h.elim
      | media hne _ hbody =>
          exact ⟨hne, fun n hn => ⟨hbody n hn, hinside body List.mem_cons_self n hn⟩⟩

theorem Rule.exists_isPrintOf (h : n.statement.IsTidyRule) (hleft : IsLeft n) :
    ∃ r, Rule.IsPrintOf r n := by
  obtain ⟨position, statement⟩ := n
  cases statement with
  | rule source body =>
      cases source with
      | interpolated text => exact h.elim
      | parsed selectors =>
          obtain ⟨hnamed, hlines⟩ := h
          obtain ⟨hprintable, hne, hchain⟩ := hleft.rule
          obtain ⟨lines, hbody⟩ := exists_forall₂ fun n hn => Line.exists_isPrintOf (hlines n hn)
          refine ⟨⟨selectors, lines, hprintable.nonempty, ne_nil_of_forall₂ hbody hne, fun s hs => ?_,
            hprintable.nodup, hprintable.notContradictory⟩, body, rfl, hbody.flip⟩
          exact ⟨hchain s hs, hnamed s hs, hprintable.noParent s hs, hprintable.noPlaceholder s hs⟩
  | _ => exact h.elim

theorem Media.exists_isPrintOf (h : (Statement.media query body).IsTidy)
    (hleft : IsLeft (.mk position (.media query body))) :
    ∃ m, Media.IsPrintOf m (.mk position (.media query body)) := by
  obtain ⟨hquery, hrules⟩ := h
  obtain ⟨hne, hinside⟩ := hleft.media
  obtain ⟨rules, hbody⟩ := exists_forall₂ fun n hn => Rule.exists_isPrintOf (hrules n hn) (hinside n hn)
  exact ⟨⟨_, rules, ne_nil_of_forall₂ hbody hne, hquery.isPassage.1, hquery.isPassage.2⟩, query, body,
    rfl, rfl, hbody.flip⟩

end

theorem Part.exists_isPrintOf (h : n.statement.IsTidy) (hleft : IsLeft n) :
    ∃ p, Part.IsPrintOf p n := by
  obtain ⟨position, statement⟩ := n
  cases statement with
  | media query body =>
      obtain ⟨m, hm⟩ := Media.exists_isPrintOf h hleft
      exact ⟨.media m, hm⟩
  | rule source body =>
      obtain ⟨r, hr⟩ := Rule.exists_isPrintOf h hleft
      exact ⟨.rule r, hr⟩
  | _ => exact h.elim

/-- **What is left of a stylesheet is printed as parts that can be read again**, if it is tidy. -/
theorem exists_parts {s : Stylesheet} (h : s.IsTidy) (hleft : ∀ n ∈ s.body, IsLeft n) :
    ∃ parts, List.Forall₂ Part.IsPrintOf parts s.body := by
  obtain ⟨parts, hparts⟩ := exists_forall₂ fun n hn => Part.exists_isPrintOf (h.body n hn) (hleft n hn)
  exact ⟨parts, hparts.flip⟩

end Printed

end Scss
