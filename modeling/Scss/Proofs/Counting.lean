import Scss.Proofs.Written

/-!
# Whether the blocks that are counted are those that are printed

The figures of a compile say how many rules and media directives the tree has that is printed. The text
of a block is left out where nothing is written in it, so there can be more of them in the tree than in
the text.

To say which blocks are in the text, it is cut into pieces (`Layout`): the header of each block up to
its brace is one piece, and what is between headers is plain. Put together the pieces are the text
(`Stylesheet.text_layout`). Of each piece that opens a block it is known what was opened, so blocks can
be counted.

There are never more blocks in the text than in the tree, and the counts agree exactly if something is
written for each rule and each media directive (`Stylesheet.compile_counts`).
-/

namespace Scss

/-! ## Blocks -/

/-- What stands in front of a brace. -/
inductive Opening where
  | rule (selectors : SelectorSource)
  | media (query : Interpolation)
  | atRule (name : String) (prelude : Interpolation)

namespace Opening

def header : Opening → String
  | rule selectors => selectors.text
  | media query => Render.mediaHeader query
  | atRule name prelude => Render.atRuleHeader name prelude

/-- What one such block adds to the figures. -/
def counts : Opening → BlockCounts
  | rule _ => ⟨1, 0⟩
  | media _ => ⟨0, 1⟩
  | atRule .. => .none

end Opening

namespace Statement

/-- What stands in front of the braces of a statement, and what in them. -/
def block? : Statement → Option (Opening × List Node)
  | rule selectors body => some (.rule selectors, body)
  | media query body => some (.media query, body)
  | atRule name prelude (some body) => some (.atRule name prelude, body)
  | _ => none

/-- Blocks are those of rules, of media directives, and of other directives with a body. -/
theorem block?_cases {t : Statement} {o : Opening} {body : List Node}
    (h : t.block? = some (o, body)) :
    (∃ selectors, t = .rule selectors body ∧ o = .rule selectors) ∨
      (∃ query, t = .media query body ∧ o = .media query) ∨
        ∃ name prelude, t = .atRule name prelude (some body) ∧ o = .atRule name prelude := by
  cases t with
  | rule selectors =>
      cases h
      exact .inl ⟨selectors, rfl, rfl⟩
  | media query =>
      cases h
      exact .inr (.inl ⟨query, rfl, rfl⟩)
  | atRule name prelude content =>
      cases content with
      | none => cases h
      | some _ =>
          cases h
          exact .inr (.inr ⟨name, prelude, rfl, rfl⟩)
  | _ => cases h

/-- Whether the figures tell of the statement. -/
def isCounted : Statement → Bool
  | rule .. | media .. => true
  | _ => false

/-- Whether there is anything in the text for the statement. -/
def isWritten (t : Statement) : Bool := !(Render.statementText 0 t).isEmpty

end Statement

/-! ## The text in pieces -/

namespace Layout

/-- A piece of the text of a stylesheet. -/
inductive Piece where
  | plain (text : String)
  | opening (o : Opening)

def Piece.text : Piece → String
  | plain text => text
  | opening o => o.header ++ " \x7b\n"

/-- The text that pieces are cut from. -/
def text : List Piece → String
  | [] => ""
  | p :: rest => p.text ++ text rest

/-- The figures of the blocks that pieces open. -/
def counts : List Piece → BlockCounts
  | [] => .none
  | .plain _ :: rest => counts rest
  | .opening o :: rest => o.counts + counts rest

/-- Lines with something between them. -/
def join (between : String) : List (List Piece) → List Piece
  | [] => []
  | [line] => line
  | line :: rest => line ++ .plain between :: join between rest

def block (depth : Nat) (o : Opening) (lines : List (List Piece)) : List Piece :=
  if lines.isEmpty then []
  else
    .plain (Render.indent depth) :: .opening o ::
      (join "\n" lines ++ [.plain "\n", .plain (Render.indent depth), .plain "\x7d"])

mutual

/-- The pieces that the text of a statement consists of. -/
def node (depth : Nat) : Node → List Piece
  | .mk _ statement => pieces depth statement

def pieces (depth : Nat) : Statement → List Piece
  | .rule selectors body => block depth (.rule selectors) (lines (depth + 1) body)
  | .media query body => block depth (.media query) (lines (depth + 1) body)
  | .atRule name prelude (some body) => block depth (.atRule name prelude) (lines (depth + 1) body)
  | t => [.plain (Render.statementText depth t)]

/-- The pieces of the texts of statements for which something is written. -/
def lines (depth : Nat) : List Node → List (List Piece)
  | [] => []
  | n :: rest =>
    let line := node depth n
    if (text line).isEmpty then lines depth rest else line :: lines depth rest

end

end Layout

/-- The pieces of the text of a stylesheet. -/
def Stylesheet.layout (s : Stylesheet) : List Layout.Piece :=
  let charset := (s.charset.map fun c => [Layout.Piece.plain ("@charset \"" ++ c ++ "\";")]).toList
  let parts := charset ++ Layout.lines 0 s.body
  if parts.isEmpty then [] else Layout.join "\n\n" parts ++ [.plain "\n"]

namespace Layout

@[simp] theorem text_nil : text [] = "" := rfl

@[simp] theorem text_cons (p : Piece) (ps : List Piece) : text (p :: ps) = p.text ++ text ps := rfl

@[simp] theorem text_append (ps qs : List Piece) : text (ps ++ qs) = text ps ++ text qs := by
  induction ps with
  | nil => simp
  | cons p ps ih => simp [ih, String.append_assoc]

theorem text_join (between : String) (ls : List (List Piece)) :
    text (join between ls) = between.intercalate (ls.map text) := by
  fun_induction join between ls with
  | case1 => rfl
  | case2 line => simp
  | case3 line rest hrest ih =>
      rw [List.map_cons, String.intercalate_cons_of_ne_nil (by simpa using hrest), ← ih]
      simp [Piece.text, String.append_assoc]

theorem text_block (depth : Nat) (o : Opening) (ls : List (List Piece)) :
    text (block depth o ls) = Render.block depth o.header (ls.map text) := by
  cases ls with
  | nil => rfl
  | cons line rest =>
      rw [block, Render.block, if_neg (by simp), if_neg (by simp)]
      simp [text_join, Piece.text, String.append_assoc]

/-- What is one block in the text is one block in pieces. -/
theorem pieces_of_block? {t : Statement} {o : Opening} {body : List Node}
    (h : t.block? = some (o, body)) (depth : Nat) :
    pieces depth t = block depth o (lines (depth + 1) body) ∧
      Render.statementText depth t = Render.block depth o.header (Render.nodes (depth + 1) body) := by
  obtain ⟨selectors, rfl, rfl⟩ | ⟨query, rfl, rfl⟩ | ⟨name, prelude, rfl, rfl⟩ :=
    Statement.block?_cases h
  · exact ⟨rfl, rfl⟩
  · exact ⟨rfl, rfl⟩
  · exact ⟨rfl, rfl⟩

/-- Any other statement is plain. -/
theorem pieces_of_no_block {t : Statement} (h : t.block? = none) (depth : Nat) :
    pieces depth t = [.plain (Render.statementText depth t)] := by
  cases t with
  | rule | media => cases h
  | atRule name prelude content =>
      cases content with
      | none => rfl
      | some _ => cases h
  | _ => rfl

theorem bodies_of_block? {t : Statement} {o : Opening} {body : List Node}
    (h : t.block? = some (o, body)) : t.bodies = [body] := by
  obtain ⟨selectors, rfl, rfl⟩ | ⟨query, rfl, rfl⟩ | ⟨name, prelude, rfl, rfl⟩ :=
    Statement.block?_cases h
  · rfl
  · rfl
  · rfl

theorem text_lines {depth : Nat} {nodes : List Node}
    (h : ∀ n ∈ nodes, text (node depth n) = Render.node depth n) :
    (lines depth nodes).map text = Render.nodes depth nodes := by
  induction nodes with
  | nil => rfl
  | cons n rest ih =>
      have hrest := ih fun m hm => h m (List.mem_cons_of_mem n hm)
      rw [lines, Render.nodes]
      simp only [h n List.mem_cons_self]
      split
      · exact hrest
      · rw [List.map_cons, hrest, h n List.mem_cons_self]

/-- **The pieces of a statement, put together, are its text.** -/
theorem text_node (depth : Nat) (n : Node) : text (node depth n) = Render.node depth n := by
  have hall := Node.all_of_forall (S := fun _ => True) (fun _ => trivial) n
  induction hall generalizing depth with
  | @mk position t _ _ ih =>
      rw [node, Render.node]
      cases hblock : t.block? with
      | none =>
          rw [pieces_of_no_block hblock]
          simp [Piece.text]
      | some b =>
          obtain ⟨o, body⟩ := b
          obtain ⟨hpieces, htext⟩ := pieces_of_block? hblock depth
          have hbody := ih body (bodies_of_block? hblock ▸ List.mem_singleton_self body)
          rw [hpieces, htext, text_block, text_lines fun n hn => hbody n hn (depth + 1)]

end Layout

/-- **The pieces of a stylesheet, put together, are its text.** -/
theorem Stylesheet.text_layout (s : Stylesheet) : Layout.text s.layout = s.css := by
  have hlines := Layout.text_lines fun n (_ : n ∈ s.body) => Layout.text_node 0 n
  have hparts : ((s.charset.map fun c => [Layout.Piece.plain ("@charset \"" ++ c ++ "\";")]).toList ++
      Layout.lines 0 s.body).map Layout.text =
        (s.charset.map fun c => "@charset \"" ++ c ++ "\";").toList ++ Render.nodes 0 s.body := by
    rw [List.map_append, hlines]
    cases s.charset <;> simp [Layout.Piece.text]
  rw [layout, css, ← hparts]
  simp only [List.isEmpty_map]
  split
  · rfl
  · rw [Layout.text_append, Layout.text_join]
    simp [Layout.Piece.text]

/-! ## Nothing is written, wherever it stands -/

namespace Render

theorem isEmpty_nodes_iff {depth : Nat} {nodes : List Node} :
    (Render.nodes depth nodes).isEmpty = true ↔ ∀ n ∈ nodes, (Render.node depth n).isEmpty = true := by
  induction nodes with
  | nil => exact ⟨fun _ => nofun, fun _ => rfl⟩
  | cons n rest ih =>
      rw [Render.nodes, List.forall_mem_cons, ← ih]
      split
      next h => exact (and_iff_right h).symm
      next h => exact ⟨nofun, fun hboth => absurd hboth.1 h⟩

theorem isEmpty_block (depth : Nat) (header : String) (lines : List String) :
    (Render.block depth header lines).isEmpty = lines.isEmpty := by
  cases lines with
  | nil => rfl
  | cons => simp [Render.block]

/-- An indented text is not empty. -/
theorem isEmpty_indent_append (depth : Nat) (text : String) :
    (indent (depth + 1) ++ text).isEmpty = false := by
  rw [String.isEmpty_eq_false_iff, ← String.toList_inj.ne]
  simp [indent, List.replicate_succ]

/-- In a block, something is written for a statement or not, at any depth. -/
theorem isEmpty_node (depth : Nat) (n : Node) :
    (Render.node (depth + 1) n).isEmpty = (Render.node 1 n).isEmpty := by
  have hall := Node.all_of_forall (S := fun _ => True) (fun _ => trivial) n
  induction hall generalizing depth with
  | @mk position t _ _ ih =>
      rw [Render.node, Render.node]
      -- without a block the depth shows in the indentation only, and with one it is passed on
      cases hblock : t.block? with
      | none =>
          cases t with
          | declaration name value important =>
              simp only [Render.statementText, Render.declaration]
              split
              · rfl
              · simp only [String.append_assoc, isEmpty_indent_append]
          | comment | importFile => simp only [Render.statementText, isEmpty_indent_append]
          | atRule _ _ content =>
              cases content with
              | none => simp only [Render.statementText, String.append_assoc, isEmpty_indent_append]
              | some _ => cases hblock
          | rule | media => cases hblock
          | _ => rfl
      | some b =>
          obtain ⟨o, body⟩ := b
          have hbody := ih body (Layout.bodies_of_block? hblock ▸ List.mem_singleton_self body)
          rw [(Layout.pieces_of_block? hblock _).2, (Layout.pieces_of_block? hblock _).2, isEmpty_block,
            isEmpty_block, Bool.eq_iff_iff, isEmpty_nodes_iff, isEmpty_nodes_iff]
          refine forall₂_congr fun n hn => ?_
          rw [hbody n hn (depth + 1), hbody n hn 1]

end Render

/-! ## How many blocks are written -/

namespace BlockCounts

variable {P Q : Prop} {a b a' b' : BlockCounts}

theorem eq_iff : a = b ↔ a.rules = b.rules ∧ a.media = b.media := by
  obtain ⟨_, _⟩ := a
  obtain ⟨_, _⟩ := b
  exact ⟨fun h => by cases h; exact ⟨rfl, rfl⟩, fun ⟨h, h'⟩ => by cases h; cases h'; rfl⟩

@[simp] theorem rules_add : (a + b).rules = a.rules + b.rules := rfl

@[simp] theorem media_add : (a + b).media = a.media + b.media := rfl

@[simp] theorem none_add (a : BlockCounts) : none + a = a := eq_iff.mpr (by simp [none])

@[simp] theorem add_none (a : BlockCounts) : a + none = a := eq_iff.mpr (by simp [none])

theorem add_assoc (a b c : BlockCounts) : a + b + c = a + (b + c) :=
  eq_iff.mpr ⟨Nat.add_assoc .., Nat.add_assoc ..⟩

/-- There are no more blocks in a text than are counted, and as many exactly if `P`. -/
structure AtMost (P : Prop) (written counted : BlockCounts) : Prop where
  rules_le : written.rules ≤ counted.rules
  media_le : written.media ≤ counted.media
  eq_iff : counted = written ↔ P

theorem AtMost.self (h : P) (a : BlockCounts) : AtMost P a a := ⟨le_rfl, le_rfl, iff_of_true rfl h⟩

theorem AtMost.add (h : AtMost P a b) (h' : AtMost Q a' b') : AtMost (P ∧ Q) (a + a') (b + b') := by
  refine ⟨Nat.add_le_add h.rules_le h'.rules_le, Nat.add_le_add h.media_le h'.media_le, ?_⟩
  have hrules := h.rules_le
  have hmedia := h.media_le
  have hrules' := h'.rules_le
  have hmedia' := h'.media_le
  rw [← h.eq_iff, ← h'.eq_iff, BlockCounts.eq_iff, BlockCounts.eq_iff, BlockCounts.eq_iff]
  simp only [rules_add, media_add]
  omega

end BlockCounts

namespace Layout

open BlockCounts

theorem counts_append (ps qs : List Piece) : counts (ps ++ qs) = counts ps + counts qs := by
  fun_induction counts ps with
  | case1 => rw [List.nil_append, none_add]
  | case2 _ rest ih => rw [List.cons_append, counts, ih]
  | case3 o rest ih => rw [List.cons_append, counts, ih, add_assoc]

theorem counts_join (between : String) (ls : List (List Piece)) :
    counts (join between ls) = counts ls.flatten := by
  fun_induction join between ls with
  | case1 => rfl
  | case2 line => simp
  | case3 line rest _ ih => rw [counts_append, counts, ih, List.flatten_cons, counts_append]

theorem counts_block (depth : Nat) (o : Opening) (ls : List (List Piece)) :
    counts (block depth o ls) = (if ls.isEmpty then .none else o.counts) + counts ls.flatten := by
  cases ls with
  | nil => rfl
  | cons line rest =>
      rw [block, if_neg (by simp), if_neg (by simp), counts, counts, counts_append, counts_join]
      simp [counts]

theorem isEmpty_lines (depth : Nat) (nodes : List Node) :
    (lines depth nodes).isEmpty = (Render.nodes depth nodes).isEmpty := by
  rw [← text_lines fun n _ => text_node depth n, List.isEmpty_map]

/-- Something is written for a block if something is written in it. -/
theorem isWritten_of_block? {t : Statement} {o : Opening} {body : List Node}
    (h : t.block? = some (o, body)) (depth : Nat) :
    t.isWritten = !(lines (depth + 1) body).isEmpty := by
  rw [Statement.isWritten, (pieces_of_block? h 0).2, Render.isEmpty_block, isEmpty_lines,
    Bool.not_inj_iff, Bool.eq_iff_iff, Render.isEmpty_nodes_iff, Render.isEmpty_nodes_iff]
  exact forall₂_congr fun n _ => by rw [Render.isEmpty_node depth n]

/-- A statement that is counted is written. -/
abbrev Shows (t : Statement) : Prop := t.isCounted = true → t.isWritten = true

/-- A block is opened in the text, or is not counted, or is missing there. -/
theorem opening_atMost {t : Statement} {o : Opening} {body : List Node}
    (h : t.block? = some (o, body)) (depth : Nat) :
    AtMost (Shows t) (if (lines (depth + 1) body).isEmpty then .none else o.counts) o.counts := by
  rw [Shows, isWritten_of_block? h depth]
  cases (lines (depth + 1) body).isEmpty with
  | false => exact .self (fun _ => rfl) o.counts
  | true =>
      refine ⟨Nat.zero_le _, Nat.zero_le _, ?_⟩
      obtain ⟨selectors, rfl, rfl⟩ | ⟨query, rfl, rfl⟩ | ⟨name, prelude, rfl, rfl⟩ :=
        Statement.block?_cases h
      · exact iff_of_false (fun h => by cases h) fun h => nomatch h rfl
      · exact iff_of_false (fun h => by cases h) fun h => nomatch h rfl
      · exact iff_of_true rfl nofun

/-- Where a block is opened, there is text. -/
theorem counts_of_text {ps : List Piece} (h : (text ps).isEmpty = true) : counts ps = .none := by
  rw [String.isEmpty_iff] at h
  fun_induction counts ps with
  | case1 => rfl
  | case2 _ rest ih => exact ih (String.append_eq_empty_iff.mp h).2
  | case3 o rest => simp [Piece.text] at h

theorem lines_atMost {depth : Nat} {nodes : List Node}
    (h : ∀ n ∈ nodes, AtMost (n.All Shows) (counts (node depth n)) (ofNode n)) :
    AtMost (∀ n ∈ nodes, n.All Shows) (counts (lines depth nodes).flatten) (ofNodes nodes) := by
  induction nodes with
  | nil => exact .self nofun _
  | cons n rest ih =>
      have hboth := (h n List.mem_cons_self).add (ih fun m hm => h m (List.mem_cons_of_mem n hm))
      have hcounts : counts (lines depth (n :: rest)).flatten =
          counts (node depth n) + counts (lines depth rest).flatten := by
        rw [lines]
        split
        next hempty => rw [counts_of_text hempty, none_add]
        next => rw [List.flatten_cons, counts_append]
      rw [hcounts, ofNodes, List.forall_mem_cons]
      exact hboth

/-- A block in whose figures those of its body are. -/
theorem block_atMost {position : Position} {t : Statement} {o : Opening} {body : List Node}
    (hblock : t.block? = some (o, body)) (hcounts : ofStatement t = o.counts + ofNodes body) (depth : Nat)
    (hbody : ∀ n ∈ body, AtMost (n.All Shows) (counts (node (depth + 1) n)) (ofNode n)) :
    AtMost (Node.All Shows (.mk position t)) (counts (node depth (.mk position t)))
      (ofNode (.mk position t)) := by
  rw [Node.all_mk_iff, bodies_of_block? hblock, List.forall_mem_singleton, node,
    (pieces_of_block? hblock depth).1, counts_block, ofNode, hcounts]
  exact (opening_atMost hblock depth).add (lines_atMost hbody)

theorem bare_atMost {n : Node} (h : Flatten.IsBare n.statement) (depth : Nat) :
    AtMost (n.All Shows) (counts (node depth n)) (ofNode n) ∧ ofNode n = .none := by
  obtain ⟨position, t⟩ := n
  have hbare : Node.All Shows (.mk position t) ∧ ofStatement t = .none ∧ t.block? = Option.none := by
    cases t with
    | atRule name prelude content =>
        cases content with
        | none => exact ⟨.mk nofun nofun, rfl, rfl⟩
        | some _ => cases h
    | declaration | comment | importFile => exact ⟨.mk nofun nofun, rfl, rfl⟩
    | _ => cases h
  obtain ⟨hall, hnone, hblock⟩ := hbare
  rw [node, pieces_of_no_block hblock, ofNode, hnone]
  exact ⟨.self hall _, rfl⟩

theorem ofNodes_eq_none {nodes : List Node} (h : ∀ n ∈ nodes, ofNode n = .none) :
    ofNodes nodes = .none := by
  induction nodes with
  | nil => rfl
  | cons n rest ih =>
      rw [ofNodes, h n List.mem_cons_self, ih fun m hm => h m (List.mem_cons_of_mem n hm), none_add]

/-- **Of a plain statement there are no more blocks in the text than are counted**, and as many exactly
if something is written for each of them. -/
theorem node_atMost {Good : List Selector → Prop} {n : Node} (h : IsPlain Good n) (depth : Nat) :
    AtMost (n.All Shows) (counts (node depth n)) (ofNode n) := by
  induction h generalizing depth with
  | @bare position t h => exact (bare_atMost (n := .mk position t) h depth).1
  | @rule position selectors body _ _ hleaves =>
      have hbare : ∀ n ∈ body, Flatten.IsBare n.statement := by
        intro n hn
        have hleaf := hleaves n hn
        generalize n.statement = t at hleaf
        cases t with
        | declaration | comment => trivial
        | _ => cases hleaf
      have hnone : ofNodes body = .none := ofNodes_eq_none fun n hn => (bare_atMost (hbare n hn) 0).2
      have hcounts : ofStatement (.rule (.parsed selectors) body) = ⟨1, 0⟩ + ofNodes body := by
        rw [hnone, add_none, ofStatement]
      exact block_atMost rfl hcounts depth fun n hn => (bare_atMost (hbare n hn) _).1
  | media _ _ _ ih => exact block_atMost rfl rfl depth fun n hn => ih n hn (depth + 1)
  | atRule _ ih => exact block_atMost rfl (none_add _).symm depth fun n hn => ih n hn (depth + 1)

theorem counts_layout (s : Stylesheet) : counts s.layout = counts (lines 0 s.body).flatten := by
  have hparts : ∀ parts : List (List Piece),
      counts (if parts.isEmpty then [] else join "\n\n" parts ++ [.plain "\n"]) = counts parts.flatten := by
    intro parts
    cases parts with
    | nil => rfl
    | cons part rest =>
        rw [if_neg (by simp), counts_append, counts_join, counts, counts, add_none]
  rw [Stylesheet.layout, hparts, List.flatten_append, counts_append]
  cases s.charset <;> exact none_add _

end Layout

/--
**The figures tell of what is printed, but also of what is left out.**

The text of a compiled stylesheet consists of pieces, some of which open blocks. The rules and media
directives that are counted in the tree are as many as are opened in the text if something is written
for every rule and every media directive in the tree, at any depth and in any directives; and otherwise
they are not as many.
-/
theorem Stylesheet.compile_counts {s css : Stylesheet} {c c' : Context} (hc : c.InUse)
    (h : s.compile.outcome c = (.ok css, c')) :
    Layout.text css.layout = css.css ∧
      (BlockCounts.ofNodes css.body = Layout.counts css.layout ↔
        ∀ n ∈ css.body, n.All fun t => t.isCounted = true → t.isWritten = true) := by
  have hplain := (s.compile_gives c hc.isClean).2 css (congrArg Prod.fst h)
  refine ⟨css.text_layout, ?_⟩
  rw [Layout.counts_layout]
  exact (Layout.lines_atMost fun n hn => Layout.node_atMost (hplain n hn).1 0).eq_iff

/-- `@media screen { .a { /* b */ } }`. -/
def commentInMedia : Stylesheet := ⟨"", none, [
  .mk default (.media (Interpolation.literal "screen") [
    .mk default (.rule (.parsed [.ofClass "a"]) [.mk default (.comment "/* b */")])])]⟩

theorem commentInMedia_compile :
    ∃ css c', commentInMedia.compile.outcome .isolated = (.ok css, c') ∧ css = commentInMedia := by
  obtain ⟨_, c', hcompile, rfl⟩ := Stylesheet.exists_compile (s := commentInMedia)
    (c := .isolated) (P := fun printed _ => printed = commentInMedia.body)
    fun site => ⟨_, _, _, _, rfl, by decide, by cbv, rfl⟩
  exact ⟨_, c', hcompile, rfl⟩

/-- The rule and the directive are in the text, so they are counted rightly. -/
theorem commentInMedia_counted : ∃ css c',
    commentInMedia.compile.outcome .isolated = (.ok css, c') ∧ Context.isolated.InUse ∧
      (∀ n ∈ css.body, n.All fun t => t.isCounted = true → t.isWritten = true) ∧
      Layout.text css.layout = css.css ∧ Layout.counts css.layout = ⟨1, 1⟩ := by
  obtain ⟨css, c', hcompile, rfl⟩ := commentInMedia_compile
  have hfresh : Context.isolated.InUse := .new _ _ _
  have hshown : ∀ n ∈ commentInMedia.body, n.All Layout.Shows := by
    refine List.forall_mem_singleton.mpr (.mk (fun _ => by decide +kernel) ?_)
    refine List.forall_mem_singleton.mpr (List.forall_mem_singleton.mpr ?_)
    refine .mk (fun _ => by decide +kernel) ?_
    refine List.forall_mem_singleton.mpr (List.forall_mem_singleton.mpr ?_)
    exact .mk nofun nofun
  obtain ⟨htext, hcounts⟩ := Stylesheet.compile_counts hfresh hcompile
  exact ⟨_, c', hcompile, hfresh, hshown, htext, (hcounts.mpr hshown).symm⟩

/-- `.a { b: null }`. -/
def nullInRule : Stylesheet := ⟨"", none, [
  .mk ⟨"", 1, 1⟩ (.rule (.parsed [.ofClass "a"]) [
    .mk ⟨"", 1, 4⟩ (.declaration (Interpolation.literal "b") .null false)])]⟩

/-- Nothing is printed for the rule, and yet it is counted. -/
theorem nullInRule_counted : ∃ s css c',
    Stylesheet.read ".a\x7bb:null\x7d" "" = .ok s ∧ s.compile.outcome .isolated = (.ok css, c') ∧ css.css = "" ∧
      Layout.text css.layout = css.css ∧ Layout.counts css.layout = ⟨0, 0⟩ ∧
      BlockCounts.ofNodes css.body = ⟨1, 0⟩ := by
  obtain ⟨_, c', hcompile, rfl⟩ := Stylesheet.exists_compile (s := nullInRule)
    (c := .isolated) (P := fun printed _ => printed = nullInRule.body)
    fun site => ⟨_, _, _, _, rfl, by decide, by cbv, rfl⟩
  exact ⟨nullInRule, _, c', by cbv, hcompile, by cbv, Stylesheet.text_layout _, by cbv, rfl⟩

end Scss
