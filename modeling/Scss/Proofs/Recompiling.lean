import Scss.Proofs.ReadingPrinted
import Scss.Proofs.Repetition
import Scss.Proofs.Tidy

/-!
# Compiling what is printed

What is read of a printed stylesheet is plain already. The first pass evaluates the values of its
declarations, which are then written as before, and leaves everything where it is. The second pass finds
no extensions, and selectors that are all different and that can match something. So the stylesheet
is printed again as what it was read from.
-/

namespace Scss

open Compile Evaluation Text

/-! ## The second pass -/

namespace Extending

theorem close_none (limit fuel : Nat) {p : Progress} (hmatched : p.matched = []) :
    ∃ q, close limit [] fuel p = .ok q ∧ q.set = p.set ∧ q.matched = [] := by
  induction fuel generalizing p with
  | zero => exact ⟨p, rfl, rfl, hmatched⟩
  | succ fuel ih =>
      rw [close]
      split
      · exact ⟨p, rfl, rfl, hmatched⟩
      next s queue _ => exact ih (p := { p with queue, matched := [] }) rfl

/-- Without extensions a rule keeps the selectors that can match something. -/
theorem extendSelectors_none {written : List Selector} (hnodup : written.Nodup)
    (hmatch : ∀ s ∈ written, s.canMatch = true) : extendSelectors [] [] written = .ok (written, []) := by
  have hall : written.filter Selector.canMatch = written := List.filter_eq_self.mpr hmatch
  obtain ⟨closed, hclosed, hset, hmatched⟩ := close_none maxSelectors
    ((SelectorSet.ofList written).size + maxSelectors)
    (p := ⟨.ofList written, (SelectorSet.ofList written).toList, []⟩) rfl
  have hkept : ((closed.set.filter Selector.canMatch).eliminate written.length).toList = written := by
    show SelectorSet.essential [] written.length (closed.set.toList.filter Selector.canMatch) = written
    rw [hset, SelectorSet.toList_ofList_of_nodup hnodup, hall, SelectorSet.essential_eq_take_append]
    simp [SelectorSet.essential]
  rw [extendSelectors]
  dsimp only
  rw [hclosed, SelectorSet.toList_ofList_of_nodup hnodup, hall]
  show Except.ok (_, closed.matched) = _
  rw [hkept, hmatched]

end Extending

namespace Printed

variable {n : Node} {nodes : List Node}

/-- Without extensions the second pass leaves a rule as it is. -/
theorem Rule.IsPrintOf.fixed {r : Rule} (h : r.IsPrintOf n) : Extending.Fixed [] [n] := by
  obtain ⟨position, statement⟩ := n
  obtain ⟨body, rfl, -⟩ := h
  have hmatch : ∀ s ∈ r.selectors, s.canMatch = true := fun s hs => by
    simp [Selector.canMatch, r.notContradictory s hs, (r.written s hs).noPlaceholder]
  have hselectors := Extending.extendSelectors_none r.nodup hmatch
  refine .single fun marks hmarks => ⟨[], ?_, rfl⟩
  rw [List.eq_nil_of_length_eq_zero hmarks]
  refine Extending.extendStatement_rule_eq_ok_iff.mpr ⟨r.selectors, hselectors, ?_⟩
  rw [if_neg (by simpa using r.selectors_ne)]

theorem fixed_of_forall₂ {α : Type} {p : α → Node → Prop} {items : List α}
    (h : ∀ {a n}, p a n → Extending.Fixed [] [n]) (hnodes : List.Forall₂ p items nodes) :
    Extending.Fixed [] nodes := by
  induction hnodes with
  | nil => exact .nil
  | cons hn _ ih => exact (h hn).append ih

theorem Media.IsPrintOf.fixed {m : Media} (h : m.IsPrintOf n) : Extending.Fixed [] [n] := by
  obtain ⟨position, statement⟩ := n
  obtain ⟨query, body, rfl, -, hbody⟩ := h
  have hne : body ≠ [] := ne_nil_of_forall₂ hbody m.rules_ne
  refine .single fun marks hmarks => ?_
  obtain ⟨marks', hrules, hlength⟩ := fixed_of_forall₂ Rule.IsPrintOf.fixed hbody marks hmarks
  refine ⟨marks', Extending.extendStatement_media_eq_ok_iff.mpr ⟨body, hrules, ?_⟩, hlength⟩
  rw [if_neg (by simpa using hne)]

theorem Part.IsPrintOf.fixed {p : Part} (h : p.IsPrintOf n) : Extending.Fixed [] [n] := by
  cases p with
  | rule r => exact Rule.IsPrintOf.fixed h
  | media m => exact Media.IsPrintOf.fixed h

/-- **The second pass leaves what can be printed and read again as it is**, if nothing is extended. -/
theorem run_none {parts : List Part} (h : List.Forall₂ Part.IsPrintOf parts nodes) {c : Context}
    (hextensions : c.extensions = []) : (Extending.run nodes).outcome c = (.ok nodes, c) := by
  obtain ⟨marks, hfixed, -⟩ := fixed_of_forall₂ Part.IsPrintOf.fixed h [] rfl
  rw [Extending.run, outcome_get_bind]
  dsimp only
  rw [hextensions, List.map_nil, hfixed]
  rfl

/-! ## The first pass -/

open Flatten

section

variable {α : Type} {p q : α → Node → Prop} {items : List α} {site : Site} {P : Context → Prop}

/-- Where each statement becomes one, and the context does not change, that holds of all of them. -/
theorem flattenNodes_each (hnodes : List.Forall₂ p items nodes)
    (h : ∀ a n, p a n → ∃ m, q a m ∧ ∀ c, P c → (flattenNode site n).outcome c = (.ok [m], c)) :
    ∃ flat, List.Forall₂ q items flat ∧
      ∀ c, P c → (flattenNodes site nodes).outcome c = (.ok flat, c) := by
  induction hnodes with
  | nil => exact ⟨[], .nil, fun _ _ => rfl⟩
  | cons hn _ ih =>
      obtain ⟨m, hm, hnode⟩ := h _ _ hn
      obtain ⟨flat, hflat, hrest⟩ := ih
      refine ⟨m :: flat, .cons hm hflat, fun c hc => ?_⟩
      rw [flattenNodes, outcome_bind_ok (hnode c hc), outcome_bind_ok (hrest c hc)]
      rfl

end

theorem interpolate_literal (call : Caller) (position : Position) (text : String) (c : Context) :
    (interpolate call position [.literal text]).outcome c = (.ok text, c) := by
  show (Except.ok (text ++ ""), c) = _
  rw [String.append_empty]

/-- A declaration that was read is evaluated to one that is printed as the same line, where urls stay
as they are. -/
theorem Line.flattenNode {l : Line} (h : l.IsSource n) (site : Site) :
    ∃ m, l.IsPrintOf m ∧
      ∀ c : Context, c.urlBase = "" → (Flatten.flattenNode site n).outcome c = (.ok [m], c) := by
  obtain ⟨position, statement⟩ := n
  obtain rfl := h
  refine ⟨.mk position (.declaration (Interpolation.literal l.name) l.rows.settled l.important),
    ⟨_, _, rfl, by simp [Interpolation.literal, Interpolation.text], l.rows.text_settled⟩, ?_⟩
  intro c hbase
  have hdeclaration : (flattenDeclaration site.caller position [.literal l.name] l.rows.source
      l.important).outcome c =
        (.ok (.mk position (.declaration (Interpolation.literal l.name) l.rows.settled l.important)), c) := by
    rw [flattenDeclaration, outcome_bind_ok (interpolate_literal _ _ _ _),
      outcome_bind_ok (l.rows.settles _ _ _ c), outcome_get_bind, hbase]
    rfl
  rw [Flatten.flattenNode, flattenStatement, outcome_bind_ok hdeclaration]
  rfl

/-- The context of statements at the top level of a stylesheet that is not imported. -/
structure AtRoot (c : Context) : Prop where
  base : c.urlBase = ""
  parent : c.scopes.parent = .topLevel

theorem Rule.flattenNode {r : Rule} (h : r.IsSource n) (site : Site) :
    ∃ m, r.IsPrintOf m ∧
      ∀ c, AtRoot c → (Flatten.flattenNode site n).outcome c = (.ok [m], c) := by
  obtain ⟨position, statement⟩ := n
  obtain ⟨body, rfl, hbody⟩ := h
  obtain ⟨leaves, hleaves, hflat⟩ := flattenNodes_each hbody fun l n hn => Line.flattenNode hn site
  refine ⟨.mk position (.rule (.parsed r.selectors) leaves), ⟨leaves, rfl, hleaves⟩, fun c hc => ?_⟩
  have hleaf : ∀ n ∈ leaves, n.statement.isLeaf = true := fun n hn => by
    obtain ⟨l, -, name, value, hl, -⟩ := exists_of_mem_forall₂ hleaves hn
    rw [hl]
    rfl
  have hne : leaves ≠ [] := ne_nil_of_forall₂ hleaves r.lines_ne
  have hsplit : splitRule position r.selectors leaves =
      [.mk position (.rule (.parsed r.selectors) leaves)] := by
    have hall : leaves.filter (fun n => n.statement.isLeaf) = leaves := List.filter_eq_self.mpr hleaf
    have hnone : leaves.filter (fun n => !n.statement.isLeaf) = [] :=
      List.filter_eq_nil_iff.mpr fun n hn => by simp [hleaf n hn]
    rw [splitRule, hall, hnone]
    exact if_neg (by simpa using hne)
  have hstrip := strip_eq_self position (fun s hs => (r.written s hs).noParent) c
  have hinner := hflat (enteredRule (.rule r.selectors []) c) hc.base
  rw [Flatten.flattenNode, flattenStatement]
  show (flattenRule position r.selectors (flattenNodes site body)).outcome c = _
  rw [outcome_flattenRule, hc.parent]
  dsimp only
  rw [outcome_bind_ok hstrip, expandRule, if_neg (by simpa using r.selectors_ne)]
  have hrun : (inScope do
      modifyScopes (·.setParent (.rule r.selectors []))
      flattenNodes site body).outcome c = (.ok leaves, c) := by
    rw [outcome_inRule, hinner]
    rfl
  rw [outcome_bind_ok hrun, hsplit]
  rfl

/-- Rules stay in the media directive around them. -/
theorem splitMedia_rules {rules : List Rule} (h : List.Forall₂ Rule.IsPrintOf rules nodes)
    (hne : nodes ≠ []) (position : Position) (query : String) :
    splitMedia position query nodes = [.mk position (.media (Interpolation.literal query) nodes)] := by
  have hrule : ∀ n ∈ nodes, ∃ place source body, n = .mk place (.rule source body) := by
    rintro ⟨place, statement⟩ hn
    obtain ⟨r, -, body, hr, -⟩ := exists_of_mem_forall₂ h hn
    exact ⟨place, _, body, congrArg (Node.mk place) hr⟩
  have hmerged : mergedMedia query nodes = [] := by
    clear h hne
    induction nodes with
    | nil => rfl
    | cons n rest ih =>
        obtain ⟨⟨place, source, body, rfl⟩, hrest⟩ := List.forall_mem_cons.mp hrule
        exact ih hrest
  unfold splitMedia
  dsimp only
  rw [hmerged, List.filter_eq_self.mpr ?_, if_neg (by simpa using hne)]
  intro n hn
  obtain ⟨place, source, body, rfl⟩ := hrule n hn
  rfl

theorem Media.flattenNode {m : Media} (h : m.IsSource n) (site : Site) :
    ∃ k, m.IsPrintOf k ∧
      ∀ c, AtRoot c → (Flatten.flattenNode site n).outcome c = (.ok [k], c) := by
  obtain ⟨position, statement⟩ := n
  obtain ⟨body, rfl, hbody⟩ := h
  obtain ⟨rules, hrules, hflat⟩ := flattenNodes_each hbody fun l n hn => Rule.flattenNode hn site
  have hquery : Text.trim m.query = m.query := by
    rcases m.trimmed with hnil | htrimmed
    · rw [String.toList_eq_nil_iff.mp hnil]
      rfl
    · exact htrimmed.trim_eq
  have hsource : ∀ c, (interpolate site.caller position m.source).outcome c = (.ok m.query, c) := by
    intro c
    rw [source]
    split
    next hnil =>
      rw [String.toList_eq_nil_iff.mp hnil]
      rfl
    next => exact interpolate_literal _ _ _ _
  refine ⟨.mk position (.media (Interpolation.literal m.query) rules), ⟨_, rules, rfl, ?_, hrules⟩,
    fun c hc => ?_⟩
  · simpa [Interpolation.literal, Interpolation.text] using hquery
  have hne : rules ≠ [] := ne_nil_of_forall₂ hrules m.rules_ne
  have hrun : (flattenBubbling position (flattenNodes site body)).outcome c = (.ok rules, c) := by
    rw [flattenBubbling, outcome_scopes_bind, hc.parent]
    dsimp only
    rw [outcome_inScope, hflat (entered c) ⟨hc.base, hc.parent⟩]
    rfl
  rw [Flatten.flattenNode, flattenStatement, outcome_bind_ok (hsource c)]
  dsimp only
  rw [hquery, outcome_bind_ok hrun, splitMedia_rules hrules hne]
  rfl

theorem Part.flattenNode {p : Part} (h : p.IsSource n) (site : Site) :
    ∃ m, p.IsPrintOf m ∧
      ∀ c, AtRoot c → (Flatten.flattenNode site n).outcome c = (.ok [m], c) := by
  cases p with
  | rule r => exact Rule.flattenNode h site
  | media m => exact Media.flattenNode h site

/-! ## Both passes -/

theorem Part.IsPrintOf.not_declaration {p : Part} (h : p.IsPrintOf n) :
    n.statement.isDeclaration = false := by
  cases p with
  | rule r =>
      obtain ⟨body, hn, -⟩ := h
      rw [hn]
      rfl
  | media m =>
      obtain ⟨query, body, hn, -⟩ := h
      rw [hn]
      rfl

/-- **What is read of a printed stylesheet is compiled to what is printed as the same text**, in a
context in which nothing is extended. -/
theorem compile_source {parts : List Part} {s : Stylesheet} (hcharset : s.charset = none)
    (hsource : List.Forall₂ Part.IsSource parts s.body) {c : Context} (hextensions : c.extensions = [])
    (hparent : c.scopes.parent = .topLevel) :
    ∃ css, s.compile.outcome c = (.ok css, c.enterRoot s.uri) ∧
      css.css = String.ofList (sheetText parts) := by
  obtain ⟨site, -, hrun⟩ := exists_root_site (c.enterRoot s.uri)
  obtain ⟨flat, hflat, hpass⟩ := flattenNodes_each hsource fun p n hn => Part.flattenNode hn site
  have hfirst : (Flatten.run s.body).outcome (c.enterRoot s.uri) = (.ok flat, c.enterRoot s.uri) := by
    refine hrun.mpr ⟨hpass _ ⟨rfl, hparent⟩, fun n hn => ?_⟩
    obtain ⟨p, -, hp⟩ := exists_of_mem_forall₂ hflat hn
    exact hp.not_declaration
  have hsecond := run_none hflat (c := c.enterRoot s.uri) hextensions
  exact ⟨_, Stylesheet.outcome_compile_ok hfirst hsecond, css_eq hcharset hflat⟩

end Printed

/--
**What a compile prints is a fixpoint.**

Take any stylesheet that is read and compiled, in a new context or in one that was used before, to a tree
that is tidy: there is no character set, and only rules around declarations and media directives around
such rules are left, with names made of word characters, queries of words, parentheses and colons, and
values made of words, strings and lists. Whatever was used to get there, the text of the tree can be
read and compiled in a new context, and what comes out has the same text again.
-/
theorem Stylesheet.css_compiles_to_itself {source uri : String} {s css : Stylesheet} {c c' : Context}
    (hread : Stylesheet.read source uri = .ok s) (hc : c.InUse)
    (h : s.compile.outcome c = (.ok css, c')) (htidy : css.IsTidy) (place : String) (urlMode : UrlMode)
    (resolver : Resolver) (maxImportDepth : Nat) :
    ∃ t, Stylesheet.read css.css place = .ok t ∧ ∃ again d,
      t.compile.outcome (.new urlMode resolver maxImportDepth) = (.ok again, d) ∧
        again.css = css.css := by
  have hplain := (s.compile_gives c hc.isClean).2 css (congrArg Prod.fst h)
  have hchains := Stylesheet.compile_chains hread hc h
  obtain ⟨parts, hparts⟩ := Printed.exists_parts htidy fun n hn => ⟨(hplain n hn).1, hchains n hn⟩
  have htext := Printed.css_eq htidy.charset hparts
  obtain ⟨t, ht, hcharset, hsource⟩ := Printed.read_sheet parts place
  obtain ⟨again, hcompile, hagain⟩ := Printed.compile_source hcharset hsource
    (c := .new urlMode resolver maxImportDepth) rfl rfl
  exact ⟨t, htext ▸ ht, again, _, hcompile, hagain.trans htext.symm⟩

def extendedInMediaText : String :=
  "%p\x7bx:y,z\x7d.a\x7b@extend %p;&:hover\x7b@media(c)\x7bd:'e f'\x7d\x7d\x7d"

/-- `%p { x: y, z }`, and `.a` that extends it, around a media directive in a rule for `&:hover`. -/
def extendedInMedia : Stylesheet := ⟨"", none, [
  .mk ⟨"", 1, 1⟩ (.rule (.parsed [.ofCompound (.ofList [.placeholder "p"])])
    [.mk ⟨"", 1, 4⟩ (.declaration [.literal "x"] (.list [.word "y", .word "z"] .comma) false)]),
  .mk ⟨"", 1, 10⟩ (.rule (.parsed [.ofClass "a"]) [
    .mk ⟨"", 1, 13⟩ (.extend (.parsed [.ofCompound (.ofList [.placeholder "p"])]) false),
    .mk ⟨"", 1, 24⟩ (.rule (.parsed [.ofCompound (.ofList [.parent none, .pseudoClass "hover" none])])
      [.mk ⟨"", 1, 32⟩ (.media [.literal "(c)"]
        [.mk ⟨"", 1, 42⟩ (.declaration [.literal "d"] (.quoted "e f" '\'') false)])])])]⟩

set_option maxRecDepth 4000 in
theorem extendedInMedia_read :
    Stylesheet.read extendedInMediaText "" = .ok extendedInMedia := by
  cbv

/-- `.a { x: y, z }`, and a media directive around `.a:hover`. -/
def hoverInMedia : Stylesheet := ⟨"", none, [
  .mk ⟨"", 1, 1⟩ (.rule (.parsed [.ofClass "a"])
    [.mk ⟨"", 1, 4⟩ (.declaration [.literal "x"] (.list [.word "y", .word "z"] .comma) false)]),
  .mk ⟨"", 1, 32⟩ (.media [.literal "(c)"]
    [.mk ⟨"", 1, 32⟩ (.rule (.parsed [.ofCompound (.ofList [.ofClass "a", .pseudoClass "hover" none])])
      [.mk ⟨"", 1, 42⟩ (.declaration [.literal "d"] (.quoted "e f" '\'') false)])])]⟩

theorem extendedInMedia_compile :
    ∃ c', extendedInMedia.compile.outcome .isolated = (.ok hoverInMedia, c') := by
  obtain ⟨_, c', hcompile, rfl⟩ := Stylesheet.exists_compile (s := extendedInMedia) (c := .isolated)
    (P := fun printed _ => printed = hoverInMedia.body)
    fun site => ⟨_, _, _, _, by cbv, by decide, by cbv, rfl⟩
  exact ⟨c', hcompile⟩

theorem hoverInMedia_isTidy : hoverInMedia.IsTidy := by
  have hlist : (Value.list [.word "y", .word "z"] .comma).IsPhrase := by
    refine .list (by decide) (List.forall_mem_cons.mpr ⟨.word (by decide), ?_⟩)
    exact List.forall_mem_singleton.mpr (.word (by decide))
  have hstring : (Value.quoted "e f" '\'').IsPhrase := .quoted (Or.inr rfl) (by decide)
  have hquery : IsQuery (Interpolation.text [.literal "(c)"]) :=
    ⟨by simp [Interpolation.text]; decide, by decide, by simp [Interpolation.text, Nested]⟩
  refine ⟨rfl, List.forall_mem_cons.mpr ⟨⟨by decide, ?_⟩, List.forall_mem_singleton.mpr ⟨hquery, ?_⟩⟩⟩
  · exact List.forall_mem_singleton.mpr ⟨by decide, by decide, hlist⟩
  · refine List.forall_mem_singleton.mpr ⟨by decide, ?_⟩
    exact List.forall_mem_singleton.mpr ⟨by decide, by decide, hstring⟩

/-- What is printed for the second tree is read, and compiled to what has the same text. -/
theorem hoverInMedia_again : ∃ s css c',
    Stylesheet.read extendedInMediaText "" = .ok s ∧
    Context.isolated.InUse ∧ s.compile.outcome .isolated = (.ok css, c') ∧ css.IsTidy ∧
    css.body.length = 2 ∧
    ∃ t, Stylesheet.read css.css "printed.css" = .ok t ∧ ∃ again d,
      t.compile.outcome .isolated = (.ok again, d) ∧ again.css = css.css := by
  obtain ⟨c', hcompile⟩ := extendedInMedia_compile
  have hfresh : Context.isolated.InUse := .new _ _ _
  exact ⟨extendedInMedia, hoverInMedia, c', extendedInMedia_read, hfresh, hcompile, hoverInMedia_isTidy,
    rfl, Stylesheet.css_compiles_to_itself extendedInMedia_read hfresh hcompile hoverInMedia_isTidy
      "printed.css" _ _ _⟩

end Scss
