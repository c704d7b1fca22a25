import Scss.Proofs.References
import Scss.Proofs.Written

/-!
# Where an ampersand is left

An `&` that begins a compound is read as a reference, and resolving replaces it. In two other places an `&`
can stand. Behind a backslash it belongs to a name. And what stands in brackets is kept as it is written:
the test of an attribute, where an `&` means itself, and the argument of a pseudo-class, where it was meant
as a reference, unless it stands in a string or in a test again. So no reference is left in the rules that
come out of a compile; and if no argument was written with an `&` outside strings and tests, there is none
in any of theirs.

All of this holds of each simple selector by itself. Nesting and extending make up none, but for the names
that a suffix is added to.
-/

namespace Scss

open Compile Context Flatten Selector Text

/-! ## Names and arguments -/

namespace SimpleSelector

/-- The name of a simple selector, which is the suffix of an `&`. -/
def name : SimpleSelector → String
  | element name | id name | ofClass name | placeholder name => name
  | pseudoClass name _ | pseudoElement name _ => name
  | parent suffix => suffix.getD ""
  | universal | .attribute _ => ""

/-- What stands in the parentheses of a pseudo-class or pseudo-element. -/
def argument? : SimpleSelector → Option String
  | pseudoClass _ argument | pseudoElement _ argument => argument
  | _ => none

variable {x y : SimpleSelector} {suffix : String}

/-- A suffix is put behind the name. -/
theorem name_withSuffix? (h : x.withSuffix? suffix = some y) : y.name = x.name ++ suffix := by
  cases x with
  | element name | id name | ofClass name | placeholder name =>
      obtain rfl := Option.some.inj h
      rfl
  | _ => cases h

/-- What takes a suffix has no argument. -/
theorem argument?_withSuffix? (h : x.withSuffix? suffix = some y) : y.argument? = none := by
  cases x with
  | element name | id name | ofClass name | placeholder name =>
      obtain rfl := Option.some.inj h
      rfl
  | _ => cases h

end SimpleSelector

/-- Each `&` in the text is behind a backslash. -/
def EscapesAmpersands (cs : List Char) : Prop :=
  ∀ front behind, cs = front ++ '&' :: behind → front.getLast? = some '\\'

/-- Behind the text, a string or a square bracket is open, or it ends with a backslash. -/
def Quotes (front : List Char) : Prop :=
  quoteBehind none front ≠ none ∨ 0 < level (pairStep '[' ']') none front ∨
    front.getLast? = some '\\'

instance : DecidablePred Quotes := fun front => by
  unfold Quotes
  infer_instance

/-- Each `&` in the text is in a string, in square brackets, or behind a backslash. -/
def QuotesAmpersands (cs : List Char) : Prop :=
  ∀ front behind, cs = front ++ '&' :: behind → Quotes front

instance (cs : List Char) : Decidable (QuotesAmpersands cs) :=
  decidable_of_iff (∀ front ∈ cs.inits, front ++ ['&'] <+: cs → Quotes front) (by
    refine ⟨fun h front behind hcs => ?_, fun h front _ hfront => ?_⟩
    · refine h front ((List.mem_inits front cs).mpr ⟨_, hcs.symm⟩) ⟨behind, ?_⟩
      rw [hcs, List.append_assoc]
      rfl
    · obtain ⟨behind, hcs⟩ := hfront
      exact h front behind (by rw [← hcs, List.append_assoc]; rfl))

namespace EscapesAmpersands

variable {cs ds : List Char}

/-- Texts side by side in which every `&` is escaped. -/
theorem append (h : EscapesAmpersands cs) (h' : EscapesAmpersands ds) :
    EscapesAmpersands (cs ++ ds) := by
  intro front behind heq
  -- the `&` is in one of the two; at the front of the second, nothing would be in front of it there
  rcases List.append_eq_append_iff.mp heq with ⟨more, rfl, rfl⟩ | ⟨more, rfl, hmore⟩
  · rw [List.getLast?_append, h' more behind rfl]
    rfl
  · cases more with
    | nil => exact absurd (h' [] behind hmore.symm) nofun
    | cons c more =>
        obtain ⟨rfl, rfl⟩ := List.cons.inj hmore
        exact h front more rfl

theorem of_not_mem (h : '&' ∉ cs) : EscapesAmpersands cs := fun front _ hcs =>
  absurd (hcs ▸ List.mem_append_right front List.mem_cons_self) h

theorem of_isRun (h : IsRun cs) : EscapesAmpersands cs := fun _ _ hcs =>
  h.getLast?_eq ⟨by decide, by decide⟩ hcs

end EscapesAmpersands

/-- A name is spelled with a backslash in front of every `&`. -/
theorem SimpleSelector.IsSpelling.escapes {x : SimpleSelector} {cs : List Char} (h : x.IsSpelling cs) :
    EscapesAmpersands x.name.toList := by
  cases x with
  | element name =>
      obtain ⟨rfl, hrun | ⟨run, hrun, hname⟩⟩ := h
      · exact .of_isRun hrun
      · show EscapesAmpersands name.toList
        rw [hname]
        exact (EscapesAmpersands.of_isRun hrun).append (.of_not_mem (by decide))
  | id name | ofClass name | placeholder name | parent suffix => exact .of_isRun h.2
  | pseudoClass name argument | pseudoElement name argument =>
      obtain ⟨more, -, -, hrun⟩ := h
      exact .of_isRun hrun
  | universal | «attribute» test => exact .of_not_mem List.not_mem_nil

/-! ## Selectors -/

namespace Selector

/-- All simple selectors have a property. -/
def AllSimples (Q : SimpleSelector → Prop) (s : Selector) : Prop := ∀ x ∈ s.simples, Q x

instance {Q : SimpleSelector → Prop} [DecidablePred Q] (s : Selector) : Decidable (s.AllSimples Q) := by
  unfold AllSimples
  infer_instance

variable {Q : SimpleSelector → Prop}

/-- Nesting keeps what holds of names with a suffix if it holds of the name and of the `&`. -/
theorem nests_simples {Own : Selector → Prop} (hown : ∀ s, Own s → s.AllSimples Q)
    (hsuffix : ∀ {x y : SimpleSelector} {suffix : String}, Q x → Q (.parent (some suffix)) →
      x.withSuffix? suffix = some y → Q y) : Nests Own (AllSimples Q) where
  own := hown _
  strip hs h x hx := hs x (mem_simples_stripParents? h hx).1
  resolve hs hp h x hx := by
    rcases mem_simples_resolve h hx with ⟨hx, -⟩ | hx | ⟨y, hy, suffix, hmem, hx⟩
    · exact hown _ hs x hx
    · exact hp x hx
    · exact hsuffix (hp y hy) (hown _ hs _ hmem) hx

theorem AllSimples.extendWith {s t : Selector} {e : Extension} (hs : s.AllSimples Q)
    (he : e.extending.AllSimples Q) (h : t ∈ s.extendWith e) : t.AllSimples Q := fun x hx =>
  (mem_simples_extendWith h hx).elim (hs x) (he x)

/-- In each name, an `&` is behind a backslash. -/
abbrev EscapesInNames : Selector → Prop := AllSimples fun x => EscapesAmpersands x.name.toList

/-- In each argument, an `&` is in a string, in square brackets, or behind a backslash. -/
abbrev QuotesInArguments : Selector → Prop :=
  AllSimples fun x => ∀ a ∈ x.argument?, QuotesAmpersands a.toList

theorem IsListed.isReadable {s : Selector} (h : s.IsListed) : s.AllCompounds Compound.IsReadable := by
  obtain ⟨text, position, selectors, hread, hs⟩ := h
  obtain ⟨piece, -, hpiece⟩ := exists_ofChars_of_readList hread s hs
  exact (of_ofChars hpiece).1

/-- A selector that was read from a list escapes `&` in its names. -/
theorem IsListed.escapesInNames {s : Selector} (h : s.IsListed) : s.EscapesInNames := by
  intro x hx
  obtain ⟨a, ha, hx⟩ := mem_simplesOf.mp hx
  obtain ⟨cs, hspelling⟩ := (h.isReadable a ha).spelled x hx
  exact hspelling.escapes

theorem nests_escaped : Nests IsListed EscapesInNames :=
  nests_simples (fun _ hs => hs.escapesInNames) fun {x y suffix} hx hparent h => by
    rw [SimpleSelector.name_withSuffix? h, String.toList_append]
    exact hx.append hparent

theorem nests_quoted : Nests QuotesInArguments QuotesInArguments :=
  nests_simples (fun _ hs => hs) fun _ _ h a ha => by
    rw [SimpleSelector.argument?_withSuffix? h] at ha
    cases ha

end Selector

/-! ## Rules -/

/-- A rule is written with selectors in whose arguments no `&` is meant as a reference. -/
def Statement.ReadsQuoted : Statement → Prop
  | .rule source _ => source.ReadsAs QuotesInArguments
  | _ => True

theorem Statement.isBare_of_isLeaf {statement : Statement} (h : statement.isLeaf = true) :
    IsBare statement := by
  cases statement with
  | declaration | comment => trivial
  | _ => cases h

/-- What holds of the lists of selectors in plain CSS holds of its rules. -/
theorem allRules_of_isPlain {Good : List Selector → Prop} {P : Selector → Prop}
    (hP : ∀ selectors, Good selectors → ∀ s ∈ selectors, P s) {n : Node} (h : Scss.IsPlain Good n) :
    n.All (Statement.RulesAre P) := by
  induction h with
  | bare hbare => exact allRules_bare _ hbare _ (List.mem_singleton_self _)
  | rule hselectors _ hleaves =>
      refine .mk (hP _ hselectors) fun body hbody n hn => ?_
      obtain rfl := List.mem_singleton.mp hbody
      -- in a rule there are no rules
      have hbare := Statement.isBare_of_isLeaf (hleaves n hn)
      obtain ⟨position, statement⟩ := n
      exact allRules_bare position hbare _ (List.mem_singleton_self _)
  | media _ _ _ ih | atRule _ ih =>
      refine .mk trivial fun body hbody n hn => ?_
      obtain rfl := List.mem_singleton.mp hbody
      exact ih n hn

/-! ## Resolving -/

/-- What a selector in a rule for `p` becomes: the text of `p` is written for each `&` or, without one,
in front of the selector. -/
structure Selector.IsResolved (s p t : Selector) : Prop where
  replaced : s.hasParent = true → p.LeadsInto s → t.IsWrittenAs (s.textWith p.text.toList)
  below : s.hasParent = false → t.text.toList = p.text.toList ++ ' ' :: s.text.toList

/-- Resolving by the parent puts its compounds for `&` and leaves the others. -/
theorem Selector.isResolved_of_resolve {s p t : Selector} (hs : s.IsListed)
    (hp : IsChain p.segments) (h : s.resolve p = .ok t) : s.IsResolved p t where
  replaced hparent hlead := isWrittenAs_resolve hs.isReadable hparent hp hlead h
  below hparent := by
    rw [resolve, if_pos (by simp [hparent])] at h
    obtain rfl := Except.ok.inj h
    exact text_below hs.isChain hp

section
variable {own parents : List Selector} (hown : ∀ s ∈ own, s.IsListed)
  (hparents : ∀ p ∈ parents, IsChain p.segments)
include hown hparents

/-- Selectors can be nested if the parents take the suffixes. -/
theorem Flatten.exists_nest (htakes : ∀ p ∈ parents, ∀ s ∈ own, ∀ suffix,
    .parent (some suffix) ∈ s.simples → p.Takes suffix) :
    ∃ selectors, nest own parents = .ok selectors := by
  obtain ⟨rows, hrows⟩ : ∃ rows, (parents.mapM fun p => own.mapM fun s => s.resolve p) = .ok rows := by
    refine exists_mapM_eq_ok fun p hp => exists_mapM_eq_ok fun s hs => ?_
    exact exists_resolve (hown s hs).isReadable (hparents p hp).nonempty (htakes p hp s hs)
  rw [nest, hrows]
  exact ⟨_, rfl⟩

/-- What is nested are the selectors, resolved against each parent. -/
theorem Flatten.nest_resolves {selectors : List Selector} (h : nest own parents = .ok selectors) :
    (∀ p ∈ parents, ∀ s ∈ own, ∃ t ∈ selectors, s.IsResolved p t) ∧
      ∀ t ∈ selectors, ∃ p ∈ parents, ∃ s ∈ own, s.IsResolved p t := by
  refine ⟨fun p hp s hs => ?_, fun t ht => ?_⟩
  · obtain ⟨t, ht, hst⟩ := exists_mem_nest h hp hs
    exact ⟨t, ht, isResolved_of_resolve (hown s hs) (hparents p hp) hst⟩
  · obtain ⟨p, hp, s, hs, hst⟩ := resolve_of_mem_nest h ht
    exact ⟨p, hp, s, hs, isResolved_of_resolve (hown s hs) (hparents p hp) hst⟩

end

/-! ## Compiling -/

section
variable {source uri : String} {s css : Stylesheet} {c c' : Context}

theorem Stylesheet.compile_noParent (hc : c.InUse) (h : s.compile.outcome c = (.ok css, c')) :
    AllRules (·.hasParent = false) css.body := by
  have hplain := (s.compile_gives c hc.isClean).2 css (congrArg Prod.fst h)
  exact fun n hn => allRules_of_isPlain (fun _ hprint => hprint.noParent) (hplain n hn).1

theorem Stylesheet.compile_escapes (hs : Stylesheet.read source uri = .ok s) (hc : c.InUse)
    (h : s.compile.outcome c = (.ok css, c')) : AllRules EscapesInNames css.body :=
  (Stylesheet.compile_listed nests_escaped AllSimples.extendWith hs c
    (hc.rulesHold nests_escaped AllSimples.extendWith)).2.2 css (congrArg Prod.fst h)

theorem Stylesheet.compile_quotes (hs : ∀ n ∈ s.body, n.All Statement.ReadsQuoted)
    (hc : c.RulesHold Statement.ReadsQuoted QuotesInArguments)
    (h : s.compile.outcome c = (.ok css, c')) : AllRules QuotesInArguments css.body :=
  (Stylesheet.compile_rules nests_quoted (fun h => h) AllSimples.extendWith hs c hc).2.2 css
    (congrArg Prod.fst h)

/--
**Every reference is replaced, and none is left.**

The selectors of a rule, read from a list, are resolved in another rule, whose selectors are chains. This
succeeds if the last name of each of these takes the suffixes, and then gives what each selector becomes in a
rule for each of them: something that is written as the selector is, with the text of the parent for each
`&`; or, where there is none, the text of the selector behind that of the parent. Left open is a parent that
begins with a combinator, behind one in front of the `&`.

So in whatever is read and compiled, no reference is left in a rule, and in names an `&` is left only behind
a backslash. Arguments are kept as they are written: if no rule that can be expanded has an argument with an
`&` outside strings, square brackets and escapes, then there is none in the result.
-/
theorem Stylesheet.references_replaced (hs : Stylesheet.read source uri = .ok s) (hc : c.InUse) :
    (∀ own parents : List Selector, (∀ t ∈ own, t.IsListed) → (∀ p ∈ parents, IsChain p.segments) →
      (∀ t ∈ own, t.textWith ['&'] = t.text.toList) ∧
      ((∀ p ∈ parents, ∀ t ∈ own, ∀ suffix, .parent (some suffix) ∈ t.simples → p.Takes suffix) →
        ∃ selectors, nest own parents = .ok selectors) ∧
      ∀ selectors, nest own parents = .ok selectors →
        (∀ p ∈ parents, ∀ t ∈ own, ∃ u ∈ selectors, t.IsResolved p u) ∧
          ∀ u ∈ selectors, ∃ p ∈ parents, ∃ t ∈ own, t.IsResolved p u) ∧
    ∀ css c', s.compile.outcome c = (.ok css, c') →
      AllRules (·.hasParent = false) css.body ∧ AllRules EscapesInNames css.body ∧
      ((∀ n ∈ s.body, n.All Statement.ReadsQuoted) →
        c.RulesHold Statement.ReadsQuoted QuotesInArguments → AllRules QuotesInArguments css.body) := by
  constructor
  · intro own parents hown hparents
    refine ⟨fun t ht => textWith_ampersand (hown t ht).isChain, exists_nest hown hparents, ?_⟩
    exact fun selectors hnest => nest_resolves hown hparents hnest
  · intro css c' h
    exact ⟨compile_noParent hc h, compile_escapes hs hc h, fun hquoted hrules =>
      compile_quotes hquoted hrules h⟩

end

/-- `&:not([b="&"]) &-c`. -/
def testAndSuffix : Selector :=
  ⟨[⟨none, .ofList [.parent none, .pseudoClass "not" (some "[b=\"&\"]")]⟩,
    ⟨some .descendant, .ofList [.parent (some "-c")]⟩]⟩

/-- `.a { &:not([b="&"]) &-c { d: e } }`. -/
def suffixBehindTest : Stylesheet := ⟨"", none, [
  .mk ⟨"", 1, 1⟩ (.rule (.parsed [.ofClass "a"]) [
    .mk ⟨"", 1, 4⟩ (.rule (.parsed [testAndSuffix])
      [.mk ⟨"", 1, 23⟩ (.declaration [.literal "d"] (.word "e") false)])])]⟩

theorem suffixBehindTest_read :
    Stylesheet.read ".a\x7b&:not([b=\"&\"]) &-c\x7bd:e\x7d\x7d" "" = .ok suffixBehindTest := by
  cbv

/-- `.a:not([b="&"]) .a-c { d: e }`. -/
def suffixReplaced : Stylesheet := ⟨"", none, [
  .mk ⟨"", 1, 4⟩ (.rule (.parsed [⟨[
      ⟨none, .ofList [.ofClass "a", .pseudoClass "not" (some "[b=\"&\"]")]⟩,
      ⟨some .descendant, .ofList [.ofClass "a-c"]⟩]⟩])
    [.mk ⟨"", 1, 23⟩ (.declaration [.literal "d"] (.word "e") false)])]⟩

theorem suffixBehindTest_compile :
    ∃ c', suffixBehindTest.compile.outcome .isolated = (.ok suffixReplaced, c') := by
  obtain ⟨_, c', hcompile, rfl⟩ := Stylesheet.exists_compile (s := suffixBehindTest) (c := .isolated)
    (P := fun printed _ => printed = suffixReplaced.body)
    fun site => ⟨_, _, _, _, by cbv, by decide, by cbv, rfl⟩
  exact ⟨c', hcompile⟩

theorem suffixBehindTest_readsQuoted : ∀ n ∈ suffixBehindTest.body, n.All Statement.ReadsQuoted := by
  have hclass : ∀ t ∈ [Selector.ofClass "a"], t.QuotesInArguments := by decide
  have hnested : ∀ t ∈ [testAndSuffix], t.QuotesInArguments := by decide
  refine List.forall_mem_singleton.mpr (.mk (SelectorSource.readsAs_parsed hclass) ?_)
  refine List.forall_mem_singleton.mpr (List.forall_mem_singleton.mpr ?_)
  refine .mk (SelectorSource.readsAs_parsed hnested) ?_
  refine List.forall_mem_singleton.mpr (List.forall_mem_singleton.mpr ?_)
  exact .mk trivial fun _ h => absurd h List.not_mem_nil

/-- The test of `b` and the suffix are resolved, and an `&` is left in the string only. -/
theorem suffixBehindTest_replaced : ∃ s css c',
    Stylesheet.read ".a\x7b&:not([b=\"&\"]) &-c\x7bd:e\x7d\x7d" "" = .ok s ∧ Context.isolated.InUse ∧
      s.compile.outcome .isolated = (.ok css, c') ∧ css = suffixReplaced ∧
      AllRules (·.hasParent = false) css.body ∧ AllRules EscapesInNames css.body ∧
      AllRules QuotesInArguments css.body ∧
      ∃ selectors, nest [testAndSuffix] [.ofClass "a"] = .ok selectors ∧
        ∃ t ∈ selectors, testAndSuffix.IsResolved (.ofClass "a") t := by
  obtain ⟨c', hcompile⟩ := suffixBehindTest_compile
  have hfresh : Context.isolated.InUse := .new _ _ _
  have hrules : Context.isolated.RulesHold Statement.ReadsQuoted QuotesInArguments :=
    rulesHold_new _ _ _ fun hfound _ => nomatch hfound
  have hlisted : ∀ t ∈ [testAndSuffix], t.IsListed := by
    refine List.forall_mem_singleton.mpr ⟨"&:not([b=\"&\"]) &-c", default, [testAndSuffix], ?_, ?_⟩
    · cbv
    · exact List.mem_singleton_self _
  have hchain : ∀ p ∈ [Selector.ofClass "a"], IsChain p.segments := by decide
  have htakes : ∀ p ∈ [Selector.ofClass "a"], ∀ t ∈ [testAndSuffix], ∀ suffix,
      SimpleSelector.parent (some suffix) ∈ t.simples → p.Takes suffix := by
    refine List.forall_mem_singleton.mpr (List.forall_mem_singleton.mpr fun suffix _ => ?_)
    exact ⟨_, rfl, _, rfl⟩
  obtain ⟨hnest, hleft⟩ := Stylesheet.references_replaced suffixBehindTest_read hfresh
  obtain ⟨hparent, hnames, harguments⟩ := hleft _ _ hcompile
  obtain ⟨-, hexists, hresolved⟩ := hnest [testAndSuffix] [.ofClass "a"] hlisted hchain
  obtain ⟨selectors, hselectors⟩ := hexists htakes
  refine ⟨suffixBehindTest, suffixReplaced, c', suffixBehindTest_read, hfresh, hcompile, rfl, hparent,
    hnames, harguments suffixBehindTest_readsQuoted hrules, selectors, hselectors, ?_⟩
  exact (hresolved selectors hselectors).1 _ (List.mem_singleton_self _) _ (List.mem_singleton_self _)

/-- `.a { &:not(&.b) { c: d } }`. -/
def referenceInArgument : Stylesheet := ⟨"", none, [
  .mk ⟨"", 1, 1⟩ (.rule (.parsed [.ofClass "a"]) [
    .mk ⟨"", 1, 4⟩ (.rule
        (.parsed [.ofCompound (.ofList [.parent none, .pseudoClass "not" (some "&.b")])])
      [.mk ⟨"", 1, 15⟩ (.declaration [.literal "c"] (.word "d") false)])])]⟩

/-- `.a:not(&.b)`. -/
def referenceLeft : Selector :=
  .ofCompound (.ofList [.ofClass "a", .pseudoClass "not" (some "&.b")])

/-- The second `&` of `.a { &:not(&.b) { c: d } }` is no reference, and it is left. -/
theorem referenceInArgument_left : ∃ s css c' position body,
    Stylesheet.read ".a\x7b&:not(&.b)\x7bc:d\x7d\x7d" "" = .ok s ∧
      s.compile.outcome .isolated = (.ok css, c') ∧
      css.body = [.mk position (.rule (.parsed [referenceLeft]) body)] ∧
      referenceLeft.text = ".a:not(&.b)" ∧ ¬referenceLeft.QuotesInArguments := by
  obtain ⟨_, c', hcompile, rfl⟩ := Stylesheet.exists_compile (s := referenceInArgument)
    (c := .isolated) (P := fun printed _ => printed = [.mk ⟨"", 1, 4⟩ (.rule (.parsed [referenceLeft])
      [.mk ⟨"", 1, 15⟩ (.declaration [.literal "c"] (.word "d") false)])])
    fun site => ⟨_, _, _, _, rfl, by decide, by cbv, rfl⟩
  exact ⟨referenceInArgument, _, c', _, _, by cbv, hcompile, rfl, by decide, by decide⟩

end Scss
