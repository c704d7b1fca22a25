import Scss.Proofs.Placement

/-!
# Merged queries as conditions

A query is a list of alternatives with commas between them, and an alternative is a list of conditions
joined by `and`. So it holds, given which conditions do, if all conditions of one alternative hold.

Media directives inside each other are merged by putting `and` between the texts of their queries. Read
again, this joins the last alternative of the outer query with the first of the inner one, and leaves the
others as they are (`readQuery_merge`). Whatever both queries allow, the merged one allows. It allows
nothing else only if each of its alternatives contains one of every query, as it does where no query
has a comma.
-/

namespace Scss

open Compile Evaluation Flatten Text

/-! ## Queries as conditions -/

/-- The words of a condition. -/
abbrev QueryCondition := List (List Char)

/-- The alternatives of a query, each with its conditions. -/
abbrev Query := List (List QueryCondition)

namespace Query

/-- Whether a query holds, given which conditions do. -/
def Holds (truth : QueryCondition → Prop) (q : Query) : Prop :=
  ∃ a ∈ q, ∀ condition ∈ a, truth condition

/-- The last alternative of a query joined with the first of another one. -/
def join (p q : Query) : Query := p.dropLast ++ (p.getLastD [] ++ q.headD []) :: q.tail

/-- Queries joined, from the innermost outwards. -/
def joinAll : List Query → Query
  | [] => []
  | [q] => q
  | q :: rest => q.join (joinAll rest)

/-- What a query that merges others says. -/
structure Merges (queries : List Query) (merged : Query) : Prop where
  joined : merged = joinAll queries
  /-- Whatever all of them allow, it allows. -/
  allows : ∀ truth, (∀ q ∈ queries, q.Holds truth) → merged.Holds truth
  /-- It is their conjunction only if each alternative contains one of every query. -/
  conjoins_iff : (∀ truth, merged.Holds truth ↔ ∀ q ∈ queries, q.Holds truth) ↔
    ∀ a ∈ merged, ∀ q ∈ queries, ∃ b ∈ q, b ⊆ a
  /-- It is their conjunction if none of them has a second alternative. -/
  conjoins : (∀ q ∈ queries, q.length = 1) →
    ∀ truth, merged.Holds truth ↔ ∀ q ∈ queries, q.Holds truth

theorem holds_of_subset {truth : QueryCondition → Prop} {q : Query} {a b : List QueryCondition}
    (hb : b ∈ q) (hsubset : b ⊆ a) (ha : ∀ condition ∈ a, truth condition) : q.Holds truth :=
  ⟨b, hb, fun condition h => ha condition (hsubset h)⟩

/-- What both queries allow, they allow when joined. -/
theorem holds_join {truth : QueryCondition → Prop} {p q : Query} (hp : p.Holds truth)
    (hq : q.Holds truth) : (p.join q).Holds truth := by
  obtain ⟨a, ha, hatruth⟩ := hp
  obtain ⟨b, hb, hbtruth⟩ := hq
  obtain ⟨front, last, rfl⟩ : ∃ front last, p = front ++ [last] :=
    ⟨_, _, (List.dropLast_append_getLast (List.ne_nil_of_mem ha)).symm⟩
  obtain ⟨first, back, rfl⟩ := List.exists_cons_of_ne_nil (List.ne_nil_of_mem hb)
  have hjoin : join (front ++ [last]) (first :: back) = front ++ (last ++ first) :: back := by
    simp [join]
  rw [hjoin]
  -- only the last alternative outside and the first one inside need each other
  rcases List.mem_append.mp ha with ha | ha
  · exact ⟨a, List.mem_append_left _ ha, hatruth⟩
  · obtain rfl := List.mem_singleton.mp ha
    rcases List.mem_cons.mp hb with rfl | hb
    · refine ⟨a ++ b, List.mem_append_right _ List.mem_cons_self, ?_⟩
      exact List.forall_mem_append.mpr ⟨hatruth, hbtruth⟩
    · exact ⟨b, List.mem_append_right _ (List.mem_cons_of_mem _ hb), hbtruth⟩

theorem holds_joinAll {truth : QueryCondition → Prop} {queries : List Query} (hne : queries ≠ [])
    (h : ∀ q ∈ queries, q.Holds truth) : (joinAll queries).Holds truth := by
  induction queries with
  | nil => exact absurd rfl hne
  | cons q rest ih =>
      obtain ⟨hq, hrest⟩ := List.forall_mem_cons.mp h
      cases rest with
      | nil => exact hq
      | cons next rest => exact holds_join hq (ih (List.cons_ne_nil _ _) hrest)

/-- Queries of one alternative each are joined to one that has all conditions. -/
theorem joinAll_single {queries : List Query} (hne : queries ≠ []) (h : ∀ q ∈ queries, q.length = 1) :
    joinAll queries = [queries.flatten.flatten] := by
  induction queries with
  | nil => exact absurd rfl hne
  | cons q rest ih =>
      obtain ⟨hq, hrest⟩ := List.forall_mem_cons.mp h
      obtain ⟨a, rfl⟩ := List.length_eq_one_iff.mp hq
      cases rest with
      | nil => simp [joinAll]
      | cons next rest =>
          rw [joinAll, ih (List.cons_ne_nil _ _) hrest]
          · simp [join]
          · exact List.cons_ne_nil _ _

theorem merges_joinAll {queries : List Query} (hne : queries ≠ []) :
    Merges queries (joinAll queries) := by
  have hallows : ∀ truth, (∀ q ∈ queries, q.Holds truth) → (joinAll queries).Holds truth :=
    fun _ h => holds_joinAll hne h
  have hiff : (∀ truth, (joinAll queries).Holds truth ↔ ∀ q ∈ queries, q.Holds truth) ↔
      ∀ a ∈ joinAll queries, ∀ q ∈ queries, ∃ b ∈ q, b ⊆ a := by
    constructor
    · intro h a ha q hq
      -- let nothing but the conditions of this alternative be true
      obtain ⟨b, hb, hbtruth⟩ := (h (· ∈ a)).mp ⟨a, ha, fun _ h => h⟩ q hq
      exact ⟨b, hb, hbtruth⟩
    · intro h truth
      refine ⟨?_, hallows truth⟩
      rintro ⟨a, ha, hatruth⟩ q hq
      obtain ⟨b, hb, hsubset⟩ := h a ha q hq
      exact holds_of_subset hb hsubset hatruth
  refine ⟨rfl, hallows, hiff, fun hsingle => hiff.mpr fun a ha q hq => ?_⟩
  rw [joinAll_single hne hsingle] at ha
  obtain rfl := List.mem_singleton.mp ha
  obtain ⟨b, rfl⟩ := List.length_eq_one_iff.mp (hsingle q hq)
  exact ⟨b, List.mem_singleton_self b, fun condition h =>
    List.mem_flatten.mpr ⟨b, List.mem_flatten.mpr ⟨_, hq, List.mem_singleton_self b⟩, h⟩⟩

end Query

/-! ## Reading queries -/

/-- How many brackets are open behind a character. -/
def bracketsBehind (depth : Nat) (c : Char) : Nat :=
  if c = '(' ∨ c = '[' then depth + 1
  else if c = ')' ∨ c = ']' then depth - 1
  else depth

/-- Whether all brackets of a query are closed. -/
def ClosesBrackets (text : String) : Prop := text.toList.foldl bracketsBehind 0 = 0

def wordIfAny (word : List Char) : List (List Char) := if word.isEmpty then [] else [word]

/-- The words of a query; a comma is a word of its own. What stands in brackets belongs to one word.
`word` is the word being read. -/
def queryWords (depth : Nat) (word : List Char) : List Char → List (List Char)
  | [] => wordIfAny word
  | c :: rest =>
    if depth = 0 ∧ isBlank c = true then
      wordIfAny word ++ queryWords (bracketsBehind depth c) [] rest
    else if depth = 0 ∧ c = ',' then
      wordIfAny word ++ [c] :: queryWords (bracketsBehind depth c) [] rest
    else queryWords (bracketsBehind depth c) (word ++ [c]) rest

/-- A query: commas part its alternatives, and the word `and` the conditions of each. -/
def readQuery (text : String) : Query :=
  ((queryWords 0 [] text.toList).splitOn [',']).map (·.splitOn "and".toList)

/-- Outside of brackets, a blank ends the word in front of it. -/
theorem queryWords_append_blank {front : List Char} :
    ∀ {depth : Nat} {word : List Char}, front.foldl bracketsBehind depth = 0 → ∀ rest,
      queryWords depth word (front ++ ' ' :: rest) =
        queryWords depth word front ++ queryWords 0 [] rest := by
  induction front with
  | nil =>
      rintro depth word hdepth rest
      obtain rfl : depth = 0 := hdepth
      rfl
  | cons c front ih =>
      intro depth word hdepth rest
      -- whichever word is being read, the rest of the front closes the brackets
      have hrest := fun word => @ih (bracketsBehind depth c) word hdepth rest
      rw [List.cons_append, queryWords, queryWords]
      split
      · rw [hrest, List.append_assoc]
      · split
        · rw [hrest, List.append_assoc, List.cons_append]
        · exact hrest _

/-- What is split around one more word that is no separator. -/
theorem splitOn_append_middle {α : Type} [BEq α] {separator word : α}
    (h : (word == separator) = false) (xs ys : List α) : ∃ front last first back,
    xs.splitOn separator = front ++ [last] ∧
      ys.splitOn separator = first :: back ∧
      (xs ++ word :: ys).splitOn separator = front ++ (last ++ word :: first) :: back := by
  obtain ⟨first, back, hys⟩ := List.exists_cons_of_ne_nil (List.splitOn_ne_nil separator ys)
  induction xs with
  | nil =>
      refine ⟨[], [], first, back, rfl, hys, ?_⟩
      rw [List.nil_append, List.splitOn_cons_eq_if_modifyHead, h, if_neg Bool.false_ne_true, hys]
      rfl
  | cons x xs ih =>
      obtain ⟨front, last, first', back', hxs, hys', hboth⟩ := ih
      rw [List.cons_append, List.splitOn_cons_eq_if_modifyHead, List.splitOn_cons_eq_if_modifyHead, hboth,
        hxs]
      split
      · exact ⟨[] :: front, last, first', back', rfl, hys', rfl⟩
      · cases front with
        | nil => exact ⟨[], x :: last, first', back', rfl, hys', rfl⟩
        | cons a front => exact ⟨(x :: a) :: front, last, first', back', rfl, hys', rfl⟩

/-- **Merging joins the last alternative of one query with the first of the other.** -/
theorem readQuery_merge {outer inner : String} (houter : outer ≠ "") (hinner : inner ≠ "")
    (hcloses : ClosesBrackets outer) :
    readQuery (mergeQueries outer inner) = (readQuery outer).join (readQuery inner) := by
  have hmerge : mergeQueries outer inner = outer ++ " and " ++ inner := by
    rw [mergeQueries, if_neg, if_neg]
    · exact fun h => hinner (String.isEmpty_iff.mp h)
    · exact fun h => houter (String.isEmpty_iff.mp h)
  have hwords : queryWords 0 [] (mergeQueries outer inner).toList =
      queryWords 0 [] outer.toList ++ "and".toList :: queryWords 0 [] inner.toList := by
    have htext : (mergeQueries outer inner).toList =
        outer.toList ++ ' ' :: ("and".toList ++ ' ' :: inner.toList) := by
      rw [hmerge, String.toList_append, String.toList_append, List.append_assoc]
      rfl
    rw [htext, queryWords_append_blank hcloses, queryWords_append_blank (by decide)]
    rfl
  obtain ⟨front, last, first, back, hfront, hback, hboth⟩ :=
    splitOn_append_middle (show ("and".toList == [',']) = false by decide)
      (queryWords 0 [] outer.toList) (queryWords 0 [] inner.toList)
  rw [readQuery, readQuery, readQuery, hwords, hboth, hfront, hback, Query.join]
  simp [List.splitOn_append_cons_self]

/-- The query of media directives inside each other, the outermost first. -/
def mergeAll (queries : List String) : String := queries.foldr mergeQueries ""

theorem mergeQueries_empty (query : String) : mergeQueries query "" = query := by
  rw [mergeQueries]
  split
  next h => exact (String.isEmpty_iff.mp h).symm
  · rfl

theorem mergeAll_cons_ne_empty {query : String} (h : query ≠ "") (rest : List String) :
    mergeAll (query :: rest) ≠ "" := by
  show mergeQueries query (mergeAll rest) ≠ ""
  rw [mergeQueries, if_neg fun hempty => h (String.isEmpty_iff.mp hempty)]
  split
  · exact h
  · intro hempty
    rw [String.append_eq_empty_iff, String.append_eq_empty_iff] at hempty
    exact h hempty.1.1

/-- Queries that are merged are read as if they were joined. -/
theorem readQuery_mergeAll {queries : List String} (hne : queries ≠ [])
    (hfilled : ∀ q ∈ queries, q ≠ "") (hcloses : ∀ q ∈ queries.dropLast, ClosesBrackets q) :
    readQuery (mergeAll queries) = Query.joinAll (queries.map readQuery) := by
  induction queries with
  | nil => exact absurd rfl hne
  | cons q rest ih =>
      obtain ⟨hq, hrest⟩ := List.forall_mem_cons.mp hfilled
      cases rest with
      | nil =>
          show readQuery (mergeQueries q "") = readQuery q
          rw [mergeQueries_empty]
      | cons next rest =>
          rw [List.dropLast_cons_cons] at hcloses
          obtain ⟨hclosed, hcloses⟩ := List.forall_mem_cons.mp hcloses
          have hinner : mergeAll (next :: rest) ≠ "" :=
            mergeAll_cons_ne_empty (hrest next List.mem_cons_self) rest
          show readQuery (mergeQueries q (mergeAll (next :: rest))) = _
          rw [readQuery_merge hq hinner hclosed, ih (List.cons_ne_nil _ _) hrest hcloses]
          rfl

/-! ## Media directives inside each other -/

namespace Flatten

/-- Media directives around a body, the outermost first. -/
def nestMedia (queries : List (Position × Interpolation)) (body : List Node) : List Node :=
  queries.foldr (fun q inner => [.mk q.1 (.media q.2 inner)]) body

/-- The query of a media directive that has been expanded. -/
def mediaQuery? : Node → Option String
  | .mk _ (.media query _) => some (Interpolation.text query)
  | _ => none

theorem mediaQuery?_eq_none {n : Node} (h : n.statement.isMedia = false) : mediaQuery? n = none := by
  obtain ⟨position, statement⟩ := n
  cases statement <;> first | rfl | cases h

theorem isMedia_of_isLeaf {n : Node} (h : n.statement.isLeaf = true) :
    n.statement.isMedia = false := by
  obtain ⟨position, statement⟩ := n
  cases statement <;> first | rfl | cases h

/-- A text that a query comes to, wherever it is evaluated. -/
def ComesTo (s : Site) (query : Position × Interpolation) (text : String) : Prop :=
  ∃ d d' written, (interpolate s.caller query.1 query.2).outcome d = (.ok written, d') ∧
    text = trim written

/-- Expanding the body can leave a media directive with this query. -/
def LeavesMedia (s : Site) (body : List Node) (query : String) : Prop :=
  ∃ d d' nodes, (flattenNodes s body).outcome d = (.ok nodes, d') ∧
    ∃ n ∈ nodes, mediaQuery? n = some query

theorem text_literal (text : String) : Interpolation.text (Interpolation.literal text) = text :=
  Interpolation.text_eq_of_plain? (by simp [Interpolation.literal, Interpolation.plain?])

theorem mediaQuery_mergedMedia {query : String} {inner : List Node} {n : Node}
    (h : n ∈ mergedMedia query inner) : n.statement.isMedia = true ∧
      ∃ m ∈ inner, ∃ q, mediaQuery? m = some q ∧ mediaQuery? n = some (mergeQueries query q) := by
  obtain ⟨place, written, body, hmem, rfl⟩ := mem_mergedMedia h
  exact ⟨rfl, _, hmem, _, rfl, congrArg some (text_literal _)⟩

/-- A media directive that is split has its own query, if there is something else than media directives
in it, or that of a media directive in it, merged. -/
theorem mediaQuery_splitMedia {position : Position} {query : String} {inner : List Node} {n : Node}
    (h : n ∈ splitMedia position query inner) : n.statement.isMedia = true ∧
      ((mediaQuery? n = some query ∧ ∃ m ∈ inner, m.statement.isMedia = false) ∨
        ∃ m ∈ inner, ∃ q, mediaQuery? m = some q ∧ mediaQuery? n = some (mergeQueries query q)) := by
  obtain h | ⟨others, hne, hothers, rfl⟩ := mem_splitMedia h
  · obtain ⟨hmedia, hmerged⟩ := mediaQuery_mergedMedia h
    exact ⟨hmedia, .inr hmerged⟩
  · obtain ⟨m, hm⟩ := List.exists_mem_of_ne_nil _ hne
    obtain ⟨hinner, hother⟩ := hothers m hm
    exact ⟨rfl, .inl ⟨congrArg some (text_literal query), m, hinner,
      Statement.isMedia_eq_false hother⟩⟩

/-- What stands in a directive that moves out of its rule comes from its body, or is a copy of the rule
around declarations of the body. -/
theorem mem_flattenBubbling {position : Position} {m : Compile (List Node)} {d d' : Context}
    {inner : List Node} (h : (flattenBubbling position m).outcome d = (.ok inner, d')) {n : Node}
    (hn : n ∈ inner) : ∃ e e' nodes, m.outcome e = (.ok nodes, e') ∧
      (n ∈ nodes ∨ n.statement.isMedia = false ∧ ∃ leaf ∈ nodes, leaf.statement.isLeaf = true) := by
  obtain ⟨-, e, hbody, -⟩ | ⟨selectors, outer, -, e, hrule, -⟩ := flattenBubbling_cases h
  · exact ⟨_, _, inner, hbody, .inl hn⟩
  -- the rule that is repeated splits the body: its declarations first, then everything else
  obtain ⟨selectors', outer', warnings, -, hrule⟩ := expandRule_of_flattenRule hrule
  obtain ⟨-, rfl, -⟩ | ⟨-, nodes, e', hnodes, rfl, -⟩ := expandRule_cases hrule
  · exact absurd hn List.not_mem_nil
  refine ⟨_, _, nodes, hnodes, ?_⟩
  obtain hn | ⟨leaves, hne, hleaves, rfl⟩ := mem_splitRule hn
  · exact .inl hn
  · obtain ⟨leaf, hleaf⟩ := List.exists_mem_of_ne_nil _ hne
    exact .inr ⟨rfl, leaf, hleaves leaf hleaf⟩

/-- What is left of a media directive: its query merged with those in it. -/
theorem mem_flattenMedia {s : Site} {q : Position × Interpolation} {inside : List Node}
    {c c' : Context} {out : List Node}
    (h : (flattenNodes s [.mk q.1 (.media q.2 inside)]).outcome c = (.ok out, c')) {n : Node}
    (hn : n ∈ out) : n.statement.isMedia = true ∧ ∃ text, ComesTo s q text ∧
      ∃ d d' nodes, (flattenNodes s inside).outcome d = (.ok nodes, d') ∧
        ((mediaQuery? n = some text ∧ ∃ m ∈ nodes, m.statement.isMedia = false) ∨
          ∃ m ∈ nodes, ∃ q, mediaQuery? m = some q ∧ mediaQuery? n = some (mergeQueries text q)) := by
  obtain ⟨front, c₁, hfront, h⟩ := bind_eq_ok h
  obtain ⟨none, c₂, hnone, h⟩ := bind_eq_ok h
  obtain rfl := Except.ok.inj (congrArg Prod.fst hnone)
  obtain rfl := Except.ok.inj (congrArg Prod.fst h)
  rw [List.append_nil] at hn
  rw [flattenNode, flattenStatement] at hfront
  obtain ⟨written, d₁, hwritten, hfront⟩ := bind_eq_ok hfront
  obtain ⟨inner, d₂, hinner, hsplit⟩ := bind_eq_ok hfront
  obtain rfl := Except.ok.inj (congrArg Prod.fst hsplit)
  obtain ⟨hmedia, hquery⟩ := mediaQuery_splitMedia hn
  refine ⟨hmedia, trim written, ⟨_, _, written, hwritten, rfl⟩, ?_⟩
  rcases hquery with ⟨hown, m, hm, hother⟩ | ⟨m, hm, q, hq, hmerged⟩
  · obtain ⟨d, d', nodes, hnodes, hfrom | ⟨-, leaf, hleaf, hisLeaf⟩⟩ := mem_flattenBubbling hinner hm
    · exact ⟨d, d', nodes, hnodes, .inl ⟨hown, m, hfrom, hother⟩⟩
    · refine ⟨d, d', nodes, hnodes, .inl ⟨hown, leaf, hleaf, ?_⟩⟩
      exact isMedia_of_isLeaf hisLeaf
  · obtain ⟨d, d', nodes, hnodes, hfrom | ⟨hother, -⟩⟩ := mem_flattenBubbling hinner hm
    · exact ⟨d, d', nodes, hnodes, .inr ⟨m, hfrom, q, hq, hmerged⟩⟩
    · rw [mediaQuery?_eq_none hother] at hq
      cases hq

/-- **Media directives inside each other are merged, however many there are.** What is left of them are
media directives, each with all their queries, and with that of a media directive left by the innermost
body if it is made of one. -/
theorem flattenNodes_nestMedia {s : Site} {body : List Node} :
    ∀ {queries : List (Position × Interpolation)}, queries ≠ [] → ∀ {c c' : Context} {out : List Node},
      (flattenNodes s (nestMedia queries body)).outcome c = (.ok out, c') → ∀ n ∈ out,
        n.statement.isMedia = true ∧ ∃ texts, List.Forall₂ (ComesTo s) queries texts ∧
          (mediaQuery? n = some (mergeAll texts) ∨
            ∃ q, LeavesMedia s body q ∧ mediaQuery? n = some (mergeAll (texts ++ [q]))) := by
  intro queries hne
  induction queries with
  | nil => exact absurd rfl hne
  | cons q rest ih =>
      intro c c' out h n hn
      obtain ⟨hmedia, text, htext, d, d', nodes, hnodes, hquery⟩ := mem_flattenMedia h hn
      refine ⟨hmedia, ?_⟩
      by_cases hrest : rest = []
      · subst hrest
        refine ⟨[text], .cons htext .nil, ?_⟩
        rcases hquery with ⟨hown, -⟩ | ⟨m, hm, r, hr, hmerged⟩
        · exact .inl (hown.trans (congrArg some (mergeQueries_empty text).symm))
        · refine .inr ⟨r, ⟨d, d', nodes, hnodes, m, hm, hr⟩, hmerged.trans ?_⟩
          exact congrArg (fun inner => some (mergeQueries text inner)) (mergeQueries_empty r).symm
      · -- in the directives between, there is nothing but the next one
        have hinner := ih hrest hnodes
        rcases hquery with ⟨-, m, hm, hother⟩ | ⟨m, hm, r, hr, hmerged⟩
        · rw [(hinner m hm).1] at hother
          cases hother
        · obtain ⟨-, texts, htexts, hall⟩ := hinner m hm
          refine ⟨text :: texts, .cons htext htexts, ?_⟩
          rcases hall with hall | ⟨last, hlast, hall⟩
          · obtain rfl := Option.some.inj (hr.symm.trans hall)
            exact .inl hmerged
          · obtain rfl := Option.some.inj (hr.symm.trans hall)
            exact .inr ⟨last, hlast, hmerged⟩

/--
**Merged media directives hold whenever all their queries do, and otherwise only where alternatives are
left out.**

Let media directives stand directly in one another, each alone in the one around it, around a body of
any statements, anywhere in a stylesheet. Wherever that can be expanded, it leaves media directives
only. Each of them merges the queries of all those directives, and that of a media directive that the
body leaves directly in the innermost one, if it comes from there. If none of these queries is empty
and their brackets are closed, the query that is left reads as the last alternative of each joined with
the first of the next; so it holds where all of them hold. It holds nowhere else if and only if each of
its alternatives contains one of every query, as it does if none of them has a second alternative.
-/
theorem nestMedia_merges {s : Site} {queries : List (Position × Interpolation)} {body : List Node}
    (hne : queries ≠ []) {c c' : Context} {out : List Node}
    (h : (flattenNodes s (nestMedia queries body)).outcome c = (.ok out, c')) :
    ∀ n ∈ out, ∃ texts inner merged, List.Forall₂ (ComesTo s) queries texts ∧
      (inner = [] ∨ ∃ q, LeavesMedia s body q ∧ inner = [q]) ∧ mediaQuery? n = some merged ∧
      ((∀ q ∈ texts ++ inner, q ≠ "" ∧ ClosesBrackets q) →
        Query.Merges ((texts ++ inner).map readQuery) (readQuery merged)) := by
  intro n hn
  obtain ⟨-, texts, htexts, hquery⟩ := flattenNodes_nestMedia hne h n hn
  have hmerges : ∀ inner, (∀ q ∈ texts ++ inner, q ≠ "" ∧ ClosesBrackets q) →
      Query.Merges ((texts ++ inner).map readQuery) (readQuery (mergeAll (texts ++ inner))) := by
    intro inner hqueries
    have hsome : texts ++ inner ≠ [] := by
      intro hnil
      rw [(List.append_eq_nil_iff.mp hnil).1] at htexts
      cases htexts
      exact hne rfl
    rw [readQuery_mergeAll hsome (fun q hq => (hqueries q hq).1)
      fun q hq => (hqueries q (List.dropLast_subset _ hq)).2]
    exact Query.merges_joinAll (mt List.map_eq_nil_iff.mp hsome)
  rcases hquery with hquery | ⟨q, hq, hquery⟩
  · exact ⟨texts, [], _, htexts, .inl rfl, hquery, fun hqueries => by
      simpa using hmerges [] hqueries⟩
  · exact ⟨texts, [q], _, htexts, .inr ⟨q, hq, rfl⟩, hquery, hmerges [q]⟩

/-- `.a { b: c }`, as it is read at these positions. -/
def plainRule (column : Nat) : Node :=
  .mk ⟨"", 1, column⟩ (.rule (.parsed [.ofClass "a"])
    [.mk ⟨"", 1, column + 3⟩ (.declaration [.literal "b"] (.word "c") false)])

/-- The directives of `@media screen { @media (color) { … } }`. -/
def screenInColor : List (Position × Interpolation) :=
  [(⟨"", 1, 1⟩, [.literal "screen"]), (⟨"", 1, 15⟩, [.literal "(color)"])]

/-- `screen` and `(color)` are merged to their conjunction. -/
theorem screenInColor_merges : ∃ s : Site, ∃ n c', screenInColor ≠ [] ∧
    (flattenNodes s (nestMedia screenInColor [plainRule 30])).outcome .isolated = (.ok [n], c') ∧
      mediaQuery? n = some "screen and (color)" ∧
      ∃ texts inner merged, List.Forall₂ (ComesTo s) screenInColor texts ∧
        (inner = [] ∨ ∃ q, LeavesMedia s [plainRule 30] q ∧ inner = [q]) ∧
        mediaQuery? n = some merged ∧ ((∀ q ∈ texts ++ inner, q ≠ "" ∧ ClosesBrackets q) →
          Query.Merges ((texts ++ inner).map readQuery) (readQuery merged)) := by
  obtain ⟨site, -, -⟩ := exists_root_site .isolated
  have hflat : ∃ n c', (flattenNodes site (nestMedia screenInColor [plainRule 30])).outcome .isolated =
      (.ok [n], c') ∧ mediaQuery? n = some "screen and (color)" := ⟨_, _, rfl, by cbv⟩
  obtain ⟨n, c', h, hquery⟩ := hflat
  have hne : screenInColor ≠ [] := List.cons_ne_nil _ _
  exact ⟨site, n, c', hne, h, hquery, nestMedia_merges hne h n (List.mem_singleton_self n)⟩

/-- `@media screen, print { @media (color) { .a { b: c } } }`. -/
def colorInAlternatives : Stylesheet :=
  ⟨"", none, nestMedia [(⟨"", 1, 1⟩, [.literal "screen, print"]), (⟨"", 1, 22⟩, [.literal "(color)"])]
    [plainRule 37]⟩

/-- The first alternative is left without the condition around the rule: on a screen without color, the
merged query holds, and `(color)` does not. -/
theorem colorInAlternatives_not_conjoined : ∃ s css c' n,
    Stylesheet.read "@media screen, print\x7b@media (color)\x7b.a\x7bb:c\x7d\x7d\x7d" "" = .ok s ∧
      s.compile.outcome .isolated = (.ok css, c') ∧ css.body = [n] ∧
      mediaQuery? n = some "screen, print and (color)" ∧
      ∃ truth, (readQuery "screen, print and (color)").Holds truth ∧
        ¬ (readQuery "(color)").Holds truth := by
  obtain ⟨_, c', hcompile, n, rfl, hn⟩ := Stylesheet.exists_compile (s := colorInAlternatives)
    (c := .isolated)
    (P := fun printed _ => ∃ n, printed = [n] ∧ mediaQuery? n = some "screen, print and (color)")
    fun site => ⟨_, _, _, _, rfl, by decide, by cbv, _, rfl, by cbv⟩
  have hmerged : readQuery "screen, print and (color)" =
      [[["screen".toList]], [["print".toList], ["(color)".toList]]] := by cbv
  have hinner : readQuery "(color)" = [[["(color)".toList]]] := by cbv
  refine ⟨colorInAlternatives, _, c', n, by cbv, hcompile, rfl, hn, (· = ["screen".toList]), ?_, ?_⟩
  · rw [hmerged]
    exact ⟨_, List.mem_cons_self, List.forall_mem_singleton.mpr rfl⟩
  · rw [hinner]
    rintro ⟨a, ha, htruth⟩
    obtain rfl := List.mem_singleton.mp ha
    exact absurd (htruth _ (List.mem_singleton_self _)) (by decide)

end Flatten

end Scss
