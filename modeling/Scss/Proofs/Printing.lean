import Scss.Proofs.Printed
import Scss.Render

/-!
# What a tree is printed as

Of a declaration the printed text shows the name, the text of the value and the flag, and of rules and
media directives the selectors and the query without the blanks around it. Nothing else of a tree is
looked at (`IsPrintOf`), so trees that agree in this are printed as the same text.
-/

namespace Scss

open Text

namespace Printed

/-! ## Blocks -/

/-- A text on a line of its own. -/
def indented (depth : Nat) (text : List Char) : String := Render.indent depth ++ String.ofList text

theorem toList_indent (depth : Nat) : (Render.indent depth).toList = List.replicate depth '\t' :=
  String.toList_ofList

/-- A block that is not empty is its header, and in braces behind it each item on a line of its own. -/
theorem block_eq {items : List (List Char)} (hne : items ≠ []) (depth : Nat) (header : String) :
    Render.block depth header (items.map (indented (depth + 1))) =
      indented depth (header.toList ++ ' ' :: braced depth items) := by
  obtain ⟨first, rest, rfl⟩ := List.exists_cons_of_ne_nil hne
  -- the line break that `block` puts behind the brace begins the first line
  have hlines : '\n' :: ("\n".intercalate ((first :: rest).map (indented (depth + 1)))).toList =
      (first :: rest).flatMap (newline (depth + 1) ++ ·) := by
    rw [List.map_cons, toList_intercalate_cons, List.map_map, List.flatMap_map]
    simp [indented, toList_indent, newline]
  have hblock : (Render.block depth header ((first :: rest).map (indented (depth + 1)))).toList =
      List.replicate depth '\t' ++ header.toList ++ " \x7b".toList ++
        ('\n' :: ("\n".intercalate ((first :: rest).map (indented (depth + 1)))).toList) ++
        (newline depth ++ ['\x7d']) := by
    rw [Render.block, if_neg (by simp)]
    simp [toList_indent, newline, -String.toList_intercalate]
  rw [← String.toList_inj, hblock, hlines]
  simp [indented, toList_indent, braced]

section

variable {α : Type} {text : α → List Char} {p : α → Node → Prop} {items : List α} {nodes : List Node}

/-- Statements that are printed as texts that are not empty are those texts, one on each line. -/
theorem nodes_eq {depth : Nat} (h : List.Forall₂ p items nodes) (hne : ∀ a, text a ≠ [])
    (htext : ∀ a n, p a n → Render.node depth n = indented depth (text a)) :
    Render.nodes depth nodes = (items.map text).map (indented depth) := by
  induction h with
  | nil => rfl
  | @cons a n items nodes ha _ ih =>
      have hnonempty : ¬(indented depth (text a)).isEmpty = true := by
        simp [indented, hne]
      rw [Render.nodes, htext a n ha, if_neg hnonempty, ih]
      rfl

end

/-! ## Declarations -/

namespace Line

/-- The line is what the statement is printed as. -/
def IsPrintOf (l : Line) (n : Node) : Prop :=
  ∃ name value, n.statement = .declaration name value l.important ∧
    Interpolation.text name = l.name ∧ value.text = String.ofList l.rows.text

theorem text_ne_nil (l : Line) : l.text ≠ [] := by
  obtain ⟨c, rest, htext, -⟩ := l.spells.front
  exact htext ▸ List.cons_ne_nil _ _

/-- A declaration is a line: nothing is cut off its value, which begins and ends without a blank. -/
theorem IsPrintOf.render {l : Line} {n : Node} (h : l.IsPrintOf n) (depth : Nat) :
    Render.node depth n = indented depth l.text := by
  obtain ⟨position, statement⟩ := n
  obtain ⟨name, value, rfl, hname, hvalue⟩ := h
  have htrimmed : IsTrimmed value.text.toList := by
    rw [hvalue, String.toList_ofList]
    exact l.rows.isTrimmed
  have hnonempty : ¬value.text.isEmpty = true := by
    rw [String.isEmpty_iff]
    intro hempty
    rw [hempty] at htrimmed
    exact htrimmed.nonempty rfl
  rw [Render.node, Render.statementText, Render.declaration, htrimmed.trim_eq, if_neg hnonempty,
    hname, hvalue, ← String.toList_inj]
  cases himportant : l.important with
  | false => simp [indented, Line.text, flagText, himportant]
  | true => simp [indented, Line.text, flagText, himportant]

end Line

/-! ## Rules and media directives -/

namespace Rule

/-- The rule is what the statement is printed as, with its declarations. -/
def IsPrintOf (r : Rule) (n : Node) : Prop :=
  ∃ body, n.statement = .rule (.parsed r.selectors) body ∧ List.Forall₂ Line.IsPrintOf r.lines body

theorem text_ne_nil (r : Rule) (depth : Nat) : r.text depth ≠ [] := by
  obtain ⟨c, rest, htext, -⟩ := (r.spells depth).front
  exact htext ▸ List.cons_ne_nil _ _

/-- A rule is printed with its selectors as header and a line for each declaration, one step further
in. -/
theorem IsPrintOf.render {r : Rule} {n : Node} (h : r.IsPrintOf n) (depth : Nat) :
    Render.node depth n = indented depth (r.text depth) := by
  obtain ⟨position, statement⟩ := n
  obtain ⟨body, rfl, hbody⟩ := h
  rw [Render.node, Render.statementText,
    nodes_eq hbody Line.text_ne_nil fun _ _ hn => hn.render (depth + 1),
    block_eq (by simpa using r.lines_ne)]
  rfl

end Rule

namespace Media

/-- The directive is what the statement is printed as, with its rules. -/
def IsPrintOf (m : Media) (n : Node) : Prop :=
  ∃ query body, n.statement = .media query body ∧
    Text.trim (Interpolation.text query) = m.query ∧ List.Forall₂ Rule.IsPrintOf m.rules body

theorem text_ne_nil (m : Media) : m.text ≠ [] := List.cons_ne_nil _ _

/-- A media directive loses the blanks around its query, which are the ones that `IsPrintOf` leaves
open. -/
theorem IsPrintOf.render {m : Media} {n : Node} (h : m.IsPrintOf n) :
    Render.node 0 n = indented 0 m.text := by
  obtain ⟨position, statement⟩ := n
  obtain ⟨query, body, rfl, hquery, hbody⟩ := h
  rw [Render.node, Render.statementText,
    nodes_eq hbody (Rule.text_ne_nil · 1) fun _ _ hn => hn.render 1,
    block_eq (by simpa using m.rules_ne), Render.mediaHeader, hquery, ← String.toList_inj]
  simp [indented, Media.text]

end Media

/-! ## Stylesheets -/

namespace Part

def IsPrintOf : Part → Node → Prop
  | rule r => r.IsPrintOf
  | media m => m.IsPrintOf

theorem text_ne_nil : ∀ p : Part, p.text ≠ []
  | rule r => r.text_ne_nil 0
  | media m => m.text_ne_nil

theorem IsPrintOf.render {p : Part} {n : Node} (h : p.IsPrintOf n) :
    Render.node 0 n = indented 0 p.text := by
  cases p with
  | rule r => exact Rule.IsPrintOf.render h 0
  | media m => exact Media.IsPrintOf.render h

end Part

/-- **The text of a tree is that of what it is printed as.** -/
theorem css_eq {s : Stylesheet} {parts : List Part} (hcharset : s.charset = none)
    (h : List.Forall₂ Part.IsPrintOf parts s.body) : s.css = String.ofList (sheetText parts) := by
  rw [Stylesheet.css, nodes_eq h Part.text_ne_nil fun _ _ hn => hn.render, hcharset]
  cases parts with
  | nil => rfl
  | cons first rest =>
      -- a part stands at the margin, and the line break behind the last one ends the sheet
      have hline : String.toList ∘ indented 0 = id := funext fun t => by simp [indented, Render.indent]
      have hparts : (List.map String.toList (List.map (indented 0) (rest.map Part.text))) =
          rest.map Part.text := by rw [List.map_map, hline, List.map_id]
      show "\n\n".intercalate (indented 0 first.text :: _) ++ "\n" = _
      rw [← String.toList_inj, String.toList_append, toList_intercalate_cons, hparts]
      simp [sheetText, indented, Render.indent]

end Printed

end Scss
