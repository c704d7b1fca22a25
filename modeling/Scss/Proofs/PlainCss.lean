import Mathlib
import Scss.Proofs.Agreement
import Scss.Proofs.Closure
import Scss.Proofs.Following

/-!
# What a compile leaves is plain CSS

Two passes make the tree that is printed. The first one flattens: rules, media directives and at-rules
come out of each other, and everything else is expanded. The second one rewrites the selectors of
rules, and drops what has none left. It never looks inside a rule, and it does not move statements
around, so it relies on the shape that the first pass leaves.

That shape is `IsPlain`, with what is asked of selectors left open. After the first pass they are
resolved: there are some, and no `&` is left. After the second pass they can be printed. For the first
pass nothing has to be known about the source. What has to be known about the context is that the
selectors kept in it have no `&` left either: those of the rules around, which nested selectors are
resolved against, and those of extensions.
-/

namespace Scss

/-! ## Plain CSS -/

/-- Whether a statement is a media directive. -/
def Statement.isMedia : Statement → Bool
  | media .. => true
  | _ => false

theorem Statement.isMedia_eq_false {statement : Statement}
    (h : ∀ query body, statement ≠ .media query body) : statement.isMedia = false := by
  cases statement with
  | media query body => exact absurd rfl (h query body)
  | _ => rfl

open Flatten in
/-- A statement of plain CSS, in which the selector list of every rule has the property `Good`. -/
inductive IsPlain (Good : List Selector → Prop) : Node → Prop where
  | bare {position : Position} {statement : Statement} (h : IsBare statement) :
      IsPlain Good (.mk position statement)
  | rule {position : Position} {selectors : List Selector} {body : List Node}
      (hselectors : Good selectors) (hbody : body ≠ [])
      (hleaves : ∀ n ∈ body, n.statement.isLeaf = true) :
      IsPlain Good (.mk position (.rule (.parsed selectors) body))
  | media {position : Position} {query : Interpolation} {body : List Node} (hbody : body ≠ [])
      (hmedia : ∀ n ∈ body, n.statement.isMedia = false) (hplain : ∀ n ∈ body, IsPlain Good n) :
      IsPlain Good (.mk position (.media query body))
  | atRule {position : Position} {name : String} {prelude : Interpolation} {body : List Node}
      (hplain : ∀ n ∈ body, IsPlain Good n) :
      IsPlain Good (.mk position (.atRule name prelude (some body)))

/-- Selectors in which no `&` is left. -/
def NoParent (selectors : List Selector) : Prop := ∀ s ∈ selectors, s.hasParent = false

/-- The selectors of a rule once it is flattened. -/
structure Resolved (selectors : List Selector) : Prop where
  nonempty : selectors ≠ []
  noParent : NoParent selectors

/-- The selectors of a rule that is printed. -/
structure Printable (selectors : List Selector) : Prop where
  nonempty : selectors ≠ []
  nodup : selectors.Nodup
  noParent : NoParent selectors
  noPlaceholder : ∀ s ∈ selectors, s.hasPlaceholder = false
  /-- No compound asks for two different ids. -/
  notContradictory : ∀ s ∈ selectors, s.isContradictory = false

/-! ## The first pass: what it keeps in the context -/

/-- No selector kept in the context has an `&` left. -/
structure Context.IsClean (c : Context) : Prop where
  parents : ∀ f ∈ c.scopes.frames, ∀ selectors outer,
    f.parent = some (.rule selectors outer) → NoParent selectors
  extensions : ∀ e ∈ c.extensions, e.extending.hasParent = false

namespace Context

/-- From a context without `&` only such contexts are reached. -/
def KeepsClean (c d : Context) : Prop := c.IsClean → d.IsClean

/-- Statements do not change which rules the frames belong to. -/
theorem KeepsClean.ofFollows {c d : Context} (h : c.scopes.Follows d.scopes)
    (hextensions : d.extensions = c.extensions) : KeepsClean c d := by
  intro hc
  refine ⟨fun f hf selectors outer hparent => ?_, hextensions ▸ hc.extensions⟩
  obtain ⟨g, hg, hgrows⟩ := exists_of_mem_forall₂ h.frames hf
  exact hc.parents g hg selectors outer (hgrows.parent ▸ hparent)

/-- What holds of all frames holds of those that are left when some are taken away. -/
theorem IsClean.drop {c : Context} (hc : c.IsClean) (count : Nat) :
    ({ c with scopes := { c.scopes with inner := c.scopes.inner.drop count } } : Context).IsClean :=
  ⟨fun f hf => hc.parents f (Scopes.mem_frames_of_drop hf), hc.extensions⟩

theorem IsClean.parent {c : Context} (hc : c.IsClean) {selectors outer : List Selector}
    (h : c.scopes.parent = .rule selectors outer) : NoParent selectors := by
  obtain ⟨f, hf, hparent⟩ := Scopes.exists_frame_of_parent h
  exact hc.parents f hf selectors outer hparent

/-- A new scope belongs to no rule. -/
theorem IsClean.entered {c : Context} (hc : c.IsClean) : (Compile.entered c).IsClean := by
  refine ⟨fun f hf selectors outer hparent => ?_, hc.extensions⟩
  rcases List.mem_cons.mp hf with rfl | hf
  · cases hparent
  · exact hc.parents f hf selectors outer hparent

/-- A new scope that is made the scope of a rule. -/
theorem IsClean.enteredRule {c : Context} (hc : c.IsClean) {parent : ParentBlock}
    (hparent : ∀ selectors outer, parent = .rule selectors outer → NoParent selectors) :
    (Compile.enteredRule parent c).IsClean := by
  refine ⟨fun f hf selectors outer h => ?_, hc.extensions⟩
  rcases List.mem_cons.mp hf with rfl | hf
  · exact hparent selectors outer (Option.some.inj h)
  · exact hc.parents f hf selectors outer h

theorem IsClean.enterCall {c d : Context} {name : String} {position : Position} (hc : c.IsClean)
    (hentered : c.enterCall name position = .ok d) : d.IsClean := by
  obtain ⟨-, rfl⟩ := of_enterCall hentered
  exact ⟨hc.parents, hc.extensions⟩

theorem scoping_keepsClean : Compile.Scoping KeepsClean where
  refl _ h := h
  trans h₁ h₂ hc := h₂ (h₁ hc)
  define c name value := .ofFollows (Scopes.follows_define c.scopes name value) rfl
  assign c name value := .ofFollows (Scopes.follows_assign c.scopes name value) rfl
  setGlobal c name value := .ofFollows (Scopes.around_setGlobal c.scopes name value).follows rfl
  warn _ _ _ h := ⟨h.parents, h.extensions⟩
  inScope h hc := (h hc.entered).drop 1
  calling {c d e name position} hentered h hc := by
    obtain ⟨hparents, hextensions⟩ := h (hc.enterCall hentered)
    exact ⟨hparents, hextensions⟩

end Context

/-! ## The first pass: what it leaves -/

namespace Flatten

open Compile Context Evaluation

variable {α β : Type}

/-- In a clean context the computation leaves a clean one, and its result, if any, has a property. -/
def Gives (m : Compile α) (Q : α → Prop) : Prop :=
  ∀ c, c.IsClean → (m.outcome c).2.IsClean ∧ ∀ a, (m.outcome c).1 = .ok a → Q a

/-- So the computation agrees with itself in clean contexts. -/
theorem gives_iff_agree {m : Compile α} {Q : α → Prop} : Gives m Q ↔ Agree IsClean Q m m :=
  ⟨fun h c hc => ⟨rfl, h c hc⟩, fun h c hc => (h c hc).2⟩

namespace Gives

variable {m : Compile α} {Q : α → Prop}

protected theorem pure {a : α} (h : Q a) : Gives (pure a) Q := gives_iff_agree.mpr (Agree.pure h)

protected theorem throw (failure : Failure) : Gives (throw failure) Q :=
  gives_iff_agree.mpr (Agree.throw failure)

theorem ofFault (position : Position) {r : Except EvaluationFault α} (h : ∀ a, r = .ok a → Q a) :
    Gives (Compile.ofFault position r) Q :=
  gives_iff_agree.mpr (Agree.ofFault position h)

theorem ofLeaves (h : Leaves KeepsClean m) : Gives m fun _ => True :=
  fun c hc => ⟨h c hc, fun _ _ => trivial⟩

protected theorem bind {f : α → Compile β} {P : β → Prop} (hm : Gives m Q)
    (hf : ∀ a, Q a → Gives (f a) P) : Gives (m >>= f) P :=
  gives_iff_agree.mpr (Agree.bind (gives_iff_agree.mp hm) fun a ha => gives_iff_agree.mp (hf a ha))

protected theorem inScope (h : Gives m Q) : Gives (Compile.inScope m) Q := by
  intro c hc
  obtain ⟨hclean, hresult⟩ := h (entered c) hc.entered
  exact ⟨hclean.drop 1, hresult⟩

theorem passing (h : Gives m Q) (block : Option ContentBlock) :
    Gives (Compile.passing block m) Q :=
  gives_iff_agree.mpr (Agree.passing block (gives_iff_agree.mp h)
    (fun hc => ⟨hc.parents, hc.extensions⟩) fun hd => ⟨hd.parents, hd.extensions⟩)

theorem settingAside (block : Option ContentBlock) (h : Gives m Q) :
    Gives (Compile.settingAside block m) Q :=
  gives_iff_agree.mpr (Agree.settingAside block (gives_iff_agree.mp h)
    (fun hc => ⟨hc.parents, hc.extensions⟩) fun hd => ⟨hd.parents, hd.extensions⟩)

/-- A body in a scope that is made the scope of a rule. -/
theorem inRule (h : Gives m Q) {parent : ParentBlock}
    (hparent : ∀ selectors outer, parent = .rule selectors outer → NoParent selectors) :
    Gives (Compile.inScope do modifyScopes (·.setParent parent); m) Q := by
  intro c hc
  obtain ⟨hclean, hresult⟩ := h _ (hc.enteredRule hparent)
  exact ⟨hclean.drop 1, hresult⟩

end Gives

/-- The statements that the first pass leaves. -/
abbrev AllPlain (nodes : List Node) : Prop := ∀ n ∈ nodes, IsPlain Resolved n

theorem resolve_of_mem_nest {own parents selectors : List Selector}
    (h : nest own parents = .ok selectors) {t : Selector} (ht : t ∈ selectors) :
    ∃ parent ∈ parents, ∃ s ∈ own, s.resolve parent = .ok t := by
  obtain ⟨rows, hrows, hresult⟩ := bind_eq_ok_iff.mp h
  obtain rfl := Except.ok.inj hresult
  obtain ⟨row, hrow, ht⟩ := List.mem_flatten.mp (SelectorSet.mem_ofList.mp ht)
  obtain ⟨parent, hparent, hresolved⟩ := exists_of_mem_forall₂ (mapM_eq_ok_iff.mp hrows) hrow
  obtain ⟨s, hs, hst⟩ := exists_of_mem_forall₂ (mapM_eq_ok_iff.mp hresolved) ht
  exact ⟨parent, hparent, s, hs, hst⟩

/-- For each parent there is what becomes of each selector. -/
theorem exists_mem_nest {own parents selectors : List Selector}
    (h : nest own parents = .ok selectors) {parent s : Selector} (hparent : parent ∈ parents)
    (hs : s ∈ own) : ∃ t ∈ selectors, s.resolve parent = .ok t := by
  obtain ⟨rows, hrows, hresult⟩ := bind_eq_ok_iff.mp h
  obtain rfl := Except.ok.inj hresult
  obtain ⟨row, hrow, hresolved⟩ := exists_of_mem_forall₂ (mapM_eq_ok_iff.mp hrows).flip hparent
  obtain ⟨t, ht, hst⟩ := exists_of_mem_forall₂ (mapM_eq_ok_iff.mp hresolved).flip hs
  exact ⟨t, SelectorSet.mem_ofList.mpr (List.mem_flatten_of_mem hrow ht), hst⟩

theorem nest_noParent {own parents selectors : List Selector}
    (h : nest own parents = .ok selectors) (hparents : NoParent parents) : NoParent selectors := by
  intro t ht
  obtain ⟨parent, hparent, s, -, hst⟩ := resolve_of_mem_nest h ht
  exact Selector.resolve_noParent hst (hparents parent hparent)

/-- The selectors of a rule at the top level without their `&`. -/
def stripped (own : List Selector) : List Selector :=
  own.flatMap fun s => if s.hasParent then s.stripParents?.toList else [s]

theorem stripped_noParent (own : List Selector) : NoParent (stripped own) := by
  intro t ht
  obtain ⟨s, -, ht⟩ := List.mem_flatMap.mp ht
  split at ht
  · exact Selector.stripParents?_noParent (Option.mem_toList.mp ht)
  next hs =>
    obtain rfl := List.mem_singleton.mp ht
    exact Bool.eq_false_iff.mpr hs

/-- Selectors without `&` stay as they are. -/
theorem stripped_of_noParent {own : List Selector} (h : NoParent own) : stripped own = own := by
  induction own with
  | nil => rfl
  | cons s rest ih =>
      have hrest := ih fun t ht => h t (List.mem_cons_of_mem s ht)
      rw [stripped, List.flatMap_cons, h s List.mem_cons_self]
      exact congrArg (s :: ·) hrest

/-- Stripping never fails, and what it changes in the context are the warnings. -/
theorem strip_outcome (position : Position) (own : List Selector) (c : Context) :
    ∃ warnings, (strip position own).outcome c = (.ok (stripped own), { c with warnings }) := by
  induction own generalizing c with
  | nil => exact ⟨c.warnings, rfl⟩
  | cons s rest ih =>
      rw [strip, stripped, List.flatMap_cons]
      split
      · obtain ⟨warnings, hrest⟩ := ih (c.warn position _)
        exact ⟨warnings, outcome_bind_ok hrest⟩
      · obtain ⟨warnings, hrest⟩ := ih c
        exact ⟨warnings, outcome_bind_ok hrest⟩

/-- Of selectors without `&` nothing is stripped, and there is no warning. -/
theorem strip_eq_self (position : Position) {own : List Selector} (h : NoParent own) (c : Context) :
    (strip position own).outcome c = (.ok own, c) := by
  induction own with
  | nil => rfl
  | cons s rest ih =>
      obtain ⟨hs, hrest⟩ := List.forall_mem_cons.mp h
      rw [strip, hs, if_neg (by decide), outcome_bind_ok (ih hrest)]
      rfl

theorem strip_gives (position : Position) (own : List Selector) :
    Gives (strip position own) NoParent := by
  intro c hc
  obtain ⟨warnings, h⟩ := strip_outcome position own c
  rw [h]
  refine ⟨⟨hc.parents, hc.extensions⟩, fun kept hkept => ?_⟩
  obtain rfl := Except.ok.inj hkept
  exact stripped_noParent own

theorem splitRule_plain (position : Position) {selectors : List Selector}
    (hselectors : Resolved selectors) {body : List Node} (hbody : AllPlain body) :
    AllPlain (splitRule position selectors body) := by
  intro n hn
  obtain hn | ⟨leaves, hne, hleaves, rfl⟩ := mem_splitRule hn
  · exact hbody n hn
  · exact .rule hselectors hne fun m hm => (hleaves m hm).2

theorem mergedMedia_plain (query : String) {body : List Node} (hbody : AllPlain body) :
    AllPlain (mergedMedia query body) := by
  intro n hn
  obtain ⟨place, inner, nested, hmem, rfl⟩ := mem_mergedMedia hn
  cases hbody _ hmem with
  | bare h => cases h
  | media hne hmedia hplain => exact .media hne hmedia hplain

theorem splitMedia_plain (position : Position) (query : String) {body : List Node}
    (hbody : AllPlain body) : AllPlain (splitMedia position query body) := by
  intro n hn
  obtain hn | ⟨others, hne, hothers, rfl⟩ := mem_splitMedia hn
  · exact mergedMedia_plain query hbody n hn
  · refine .media hne (fun m hm => ?_) fun m hm => hbody m (hothers m hm).1
    exact Statement.isMedia_eq_false (hothers m hm).2

theorem flattenRule_gives (position : Position) (own : List Selector) {m : Compile (List Node)}
    (h : Gives m AllPlain) : Gives (flattenRule position own m) AllPlain := by
  have hrule : ∀ selectors outer, NoParent selectors →
      Gives (expandRule position selectors outer m) AllPlain := by
    intro selectors outer hfree
    unfold expandRule
    split
    · exact Gives.pure fun _ hn => absurd hn List.not_mem_nil
    next hne =>
      have hselectors : Resolved selectors := ⟨fun hnil => hne (by rw [hnil]; rfl), hfree⟩
      refine Gives.bind (h.inRule fun own outer' hparent => ?_) fun inner hinner => ?_
      · obtain ⟨rfl, -⟩ := ParentBlock.rule.inj hparent
        exact hfree
      · exact Gives.pure (splitRule_plain position hselectors hinner)
  intro c hc
  rw [outcome_flattenRule]
  cases hparent : c.scopes.parent with
  | topLevel =>
      exact Gives.bind (strip_gives position own) (fun kept hkept => hrule kept [] hkept) c hc
  | rule parents outer =>
      refine Gives.bind (Gives.ofFault position fun selectors hnest => ?_)
        (fun selectors hfree => hrule selectors parents hfree) c hc
      exact nest_noParent hnest (hc.parent hparent)

theorem executing_keepsClean : Executing (fun _ => True) (Leaves KeepsClean) :=
  executing_of_scoping scoping_keepsClean

/-- What is recorded are extensions by the selectors of the innermost rule: a property of contexts is
kept if it tells of these what the extensions have to meet. -/
theorem recordExtend_leaves {I : Context → Prop} {S : Statement → Prop} {Q : Selector → Prop}
    (hE : Executing S (Leaves fun c d => I c → I d))
    (hparent : ∀ {c selectors outer}, I c → c.scopes.parent = .rule selectors outer →
      ∀ s ∈ selectors, Q s)
    (hadd : ∀ {c e}, I c → Q e.extending → I (c.addExtension e)) {call : Caller}
    (hcall : CallerKeeps S (Leaves fun c d => I c → I d) call)
    (position : Position) (target : SelectorSource) (optional : Bool) :
    Leaves (fun c d => I c → I d) (recordExtend call position target optional) := by
  intro c hc
  unfold recordExtend
  rw [outcome_scopes_bind]
  cases hrule : c.scopes.parent with
  | topLevel => exact hc
  | rule selectors outer =>
      have hselectors := hparent hc hrule
      refine hE.bind (sourceSelectors_keeps hE.toEvaluating hcall position target)
        (fun targets => ?_) c hc
      refine hE.forM fun t _ => ?_
      cases t.compound? with
      | none => exact hE.throw _
      | some compound => exact hE.forM fun s hs d hd => hadd hd (hselectors s hs)

theorem recordExtend_keepsClean {call : Caller}
    (hcall : CallerKeeps (fun _ => True) (Leaves KeepsClean) call)
    (position : Position) (target : SelectorSource) (optional : Bool) :
    Leaves KeepsClean (recordExtend call position target optional) :=
  recordExtend_leaves executing_keepsClean (fun hc hrule => hc.parent hrule)
    (fun hc hfree => ⟨hc.parents, List.forall_mem_append.mpr
      ⟨hc.extensions, List.forall_mem_singleton.mpr hfree⟩⟩) hcall position target optional

/-- Frames come back that were hidden, while a body ran that saw the others. -/
theorem seeing_gives (depth : Nat) {m : Compile (List Node)} {Q : List Node → Prop}
    (h : Gives m Q) : Gives (seeing depth m) Q := by
  refine gives_iff_agree.mpr (Agree.seeing depth (gives_iff_agree.mp h) (fun hc => hc.drop _) ?_)
  intro c d hc hd
  refine ⟨fun f hf => ?_, hd.extensions⟩
  exact (Scopes.mem_frames_of_restore hf).elim (hc.parents f) (hd.parents f)

theorem importing_gives (uri base : String) {m : Compile (List Node)} {Q : List Node → Prop}
    (h : Gives m Q) : Gives (importing uri base m) Q := by
  refine gives_iff_agree.mpr (Agree.importing uri base (gives_iff_agree.mp h) ?_ fun {d} hd => ?_)
  · intro c d hc hentered
    obtain ⟨-, rfl⟩ := of_enterImport hentered
    exact ⟨hc.parents, hc.extensions⟩
  · unfold exitImport
    split
    · exact ⟨hd.parents, hd.extensions⟩
    · exact hd

theorem calling_gives (name : String) (position : Position) {m : Compile (List Node)}
    {Q : List Node → Prop} (h : Gives m Q) : Gives (calling name position m) Q :=
  gives_iff_agree.mpr (Agree.calling name position (gives_iff_agree.mp h)
    (fun hc hentered => hc.enterCall hentered) fun hd => ⟨hd.parents, hd.extensions⟩)

theorem expandContent_gives {s : Site} (h : ∀ nodes, Gives (s.contentBody nodes) AllPlain) :
    Gives (expandContent s) AllPlain := by
  intro c hc
  rw [expandContent, outcome_get_bind]
  split
  next block _ _ =>
    rw [outcome_scopes_bind]
    refine Gives.settingAside (some block) ?_ c hc
    refine seeing_gives block.depth ((h block.body).inRule fun selectors outer hparent => ?_)
    exact hc.parent hparent
  · exact Gives.pure (fun _ hn => absurd hn List.not_mem_nil) c hc

theorem after_gives {m : Compile α} {f : α → Compile (List Node)} (hm : Leaves KeepsClean m)
    (hf : ∀ a, Gives (f a) AllPlain) : Gives (m >>= f) AllPlain :=
  Gives.bind (Gives.ofLeaves hm) fun a _ => hf a

/-- **Every step of flattening leaves plain CSS**, so flattening does. -/
theorem expanding_gives :
    Expanding (fun _ => True) (Leaves KeepsClean) fun m => Gives m AllPlain where
  executing := executing_keepsClean
  context := reading_of_leaves.get executing_keepsClean.toSteps
  nothing := Gives.pure fun _ hn => absurd hn List.not_mem_nil
  raise failure := Gives.throw failure
  bare position _ h := Gives.pure fun n hn => by
    obtain rfl := List.mem_singleton.mp hn
    exact .bare h
  after := after_gives
  append h h' := Gives.bind h fun front hfront => Gives.bind h' fun rest hrest =>
    Gives.pure fun n hn => (List.mem_append.mp hn).elim (hfront n) (hrest n)
  inScope h := h.inScope
  topLevel h := h.inRule fun _ _ h => nomatch h
  rule hcall _ position _ _ h := sourcedRule_of (N := fun m => Gives m AllPlain) after_gives
    flattenRule_gives executing_keepsClean.toEvaluating hcall position _ h
  bubbling position _ _ h := flattenBubbling_of (N := fun m => Gives m AllPlain) after_gives
    flattenRule_gives executing_keepsClean.toEvaluating reading_of_leaves Gives.inScope
    (fun h => h.inRule fun _ _ h => nomatch h) position h
  media position query _ _ h := Gives.bind h fun body hbody =>
    Gives.pure (splitMedia_plain position query hbody)
  atRule position name prelude _ _ h := Gives.bind h fun body hbody => Gives.pure fun n hn => by
    obtain rfl := List.mem_singleton.mp hn
    exact .atRule hbody
  reading h c hc := h c (.of_forall (fun _ => trivial) c) c hc
  calling name position _ h := calling_gives name position h
  passing _ h := h.passing _
  content h := expandContent_gives fun nodes => h nodes (Node.all_trivial nodes)
  importing uri base _ h := importing_gives uri base h
  recordExtend hcall _ position := recordExtend_keepsClean hcall position _ _
  defineMixin _ c := .ofFollows (Scopes.follows_defineMixin c.scopes _) rfl
  defineFunction _ c := .ofFollows (Scopes.follows_defineFunction c.scopes _) rfl

/-- What flattening a stylesheet leaves: plain CSS without declarations at the top level. -/
theorem run_gives (nodes : List Node) : Gives (Flatten.run nodes) fun flat =>
    AllPlain flat ∧ ∀ n ∈ flat, n.statement.isDeclaration = false := by
  refine Gives.bind (Gives.ofLeaves (Leaves.get scoping_keepsClean)) fun c _ => ?_
  refine Gives.bind (expand_meets expanding_gives _ _ _ nodes (Node.all_trivial nodes))
    fun flat hflat => ?_
  split
  · exact Gives.throw _
  next hnone =>
    refine Gives.pure ⟨hflat, fun n hn => ?_⟩
    exact Bool.eq_false_iff.mpr (List.find?_eq_none.mp hnone n hn)

end Flatten

/-! ## The second pass -/

namespace Extending

/-- A statement that rewriting selectors leaves of another: it is of the same kind. -/
structure SameKind (m n : Node) : Prop where
  media : n.statement.isMedia = m.statement.isMedia
  declaration : n.statement.isDeclaration = m.statement.isDeclaration

section
variable {extensions : List Extension}

/-- What rewriting makes of some statements: statements that can be printed, each of the kind of one
that was there, and a mark for every extension. -/
structure Rewrites (extensions : List Extension) (nodes : List Node)
    (r : List Node × List Bool) : Prop where
  plain : ∀ n ∈ r.1, IsPlain Printable n
  kind : ∀ n ∈ r.1, ∃ m ∈ nodes, SameKind m n
  marks : r.2.length = extensions.length

/-- **What the pass makes of statements one by one, it makes of a list.** The induction is on the list;
the marks go from statement to statement, and there stays one for every extension. -/
theorem extendNodes_induction {Q : List Node → List Node → Prop} (nil : Q [] [])
    (cons : ∀ {node nodes front others}, Q [node] front → Q nodes others →
      Q (node :: nodes) (front ++ others)) {nodes : List Node}
    (hnodes : ∀ n ∈ nodes, ∀ {matched r}, matched.length = extensions.length →
      extendNode extensions matched n = .ok r → Q [n] r.1 ∧ r.2.length = extensions.length)
    {matched : List Bool} {r : List Node × List Bool} (hmarks : matched.length = extensions.length)
    (h : extendNodes extensions matched nodes = .ok r) :
    Q nodes r.1 ∧ r.2.length = extensions.length := by
  induction nodes generalizing matched r with
  | nil =>
      obtain rfl := Except.ok.inj h
      exact ⟨nil, hmarks⟩
  | cons node rest ih =>
      rw [extendNodes] at h
      obtain ⟨⟨front, marks⟩, hnode, h⟩ := bind_eq_ok_iff.mp h
      obtain ⟨⟨others, marks'⟩, hrest, h⟩ := bind_eq_ok_iff.mp h
      obtain rfl := Except.ok.inj h
      obtain ⟨hfront, hlength⟩ := hnodes node List.mem_cons_self hmarks hnode
      obtain ⟨hothers, hlength'⟩ :=
        ih (fun n hn => hnodes n (List.mem_cons_of_mem node hn)) hlength hrest
      exact ⟨cons hfront hothers, hlength'⟩

/-- Each rewriting hands on the marks of what it rewrites. -/
theorem bind_marks_eq_ok_iff {α β : Type} {m : Except Failure (α × List Bool)} (rewritten : α → β)
    {b : β} {marks : List Bool} : (m >>= fun r => .ok (rewritten r.1, r.2)) = .ok (b, marks) ↔
      ∃ a, m = .ok (a, marks) ∧ b = rewritten a := by
  rw [bind_eq_ok_iff]
  constructor
  · rintro ⟨⟨a, marks⟩, ha, h⟩
    obtain ⟨rfl, rfl⟩ := Prod.mk.inj (Except.ok.inj h)
    exact ⟨a, ha, rfl⟩
  · rintro ⟨a, ha, rfl⟩
    exact ⟨(a, marks), ha, rfl⟩

theorem extendNode_eq_ok_iff {matched marks : List Bool} {position : Position} {statement : Statement}
    {nodes : List Node} : extendNode extensions matched (.mk position statement) = .ok (nodes, marks) ↔
      ∃ left, extendStatement extensions matched statement = .ok (left, marks) ∧
        nodes = left.map (Node.mk position) := by
  rw [extendNode]
  exact bind_marks_eq_ok_iff (List.map (Node.mk position))

/-- A rule goes if it has no selectors left. -/
theorem extendStatement_rule_eq_ok_iff {matched marks : List Bool} {written : List Selector}
    {body : List Node} {left : List Statement} :
    extendStatement extensions matched (.rule (.parsed written) body) = .ok (left, marks) ↔
      ∃ result, extendSelectors extensions matched written = .ok (result, marks) ∧
        left = if result.isEmpty then [] else [.rule (.parsed result) body] := by
  rw [extendStatement]
  exact bind_marks_eq_ok_iff fun result : List Selector =>
    if result.isEmpty then [] else [Statement.rule (.parsed result) body]

/-- A media query goes with the last rule in it. -/
theorem extendStatement_media_eq_ok_iff {matched marks : List Bool} {query : Interpolation}
    {body : List Node} {left : List Statement} :
    extendStatement extensions matched (.media query body) = .ok (left, marks) ↔
      ∃ rest, extendNodes extensions matched body = .ok (rest, marks) ∧
        left = if rest.isEmpty then [] else [.media query rest] := by
  rw [extendStatement]
  exact bind_marks_eq_ok_iff fun rest : List Node =>
    if rest.isEmpty then [] else [Statement.media query rest]

/-- Any other at-rule is left, if only to be empty. -/
theorem extendStatement_atRule_eq_ok_iff {matched marks : List Bool} {name : String}
    {prelude : Interpolation} {body : List Node} {left : List Statement} :
    extendStatement extensions matched (.atRule name prelude (some body)) = .ok (left, marks) ↔
      ∃ rest, extendNodes extensions matched body = .ok (rest, marks) ∧
        left = [.atRule name prelude (some rest)] := by
  rw [extendStatement]
  exact bind_marks_eq_ok_iff fun rest : List Node => [Statement.atRule name prelude (some rest)]

/-- What rewriting makes of a statement, for each statement of a list. -/
theorem extendNodes_rewrites {nodes : List Node}
    (hnodes : ∀ n ∈ nodes, ∀ {matched r}, matched.length = extensions.length →
      extendNode extensions matched n = .ok r → Rewrites extensions [n] r)
    {matched : List Bool} {r : List Node × List Bool} (hmarks : matched.length = extensions.length)
    (h : extendNodes extensions matched nodes = .ok r) : Rewrites extensions nodes r := by
  have hall : ((∀ n ∈ r.1, IsPlain Printable n) ∧ ∀ n ∈ r.1, ∃ m ∈ nodes, SameKind m n) ∧
      r.2.length = extensions.length := by
    refine extendNodes_induction (Q := fun nodes left => (∀ n ∈ left, IsPlain Printable n) ∧
      ∀ n ∈ left, ∃ m ∈ nodes, SameKind m n) ⟨nofun, nofun⟩
      (fun {node nodes front others} hfront hothers => ?_) (fun n hn _ _ hmarks h => ?_) hmarks h
    · refine ⟨fun n hn => (List.mem_append.mp hn).elim (hfront.1 n) (hothers.1 n), fun n hn => ?_⟩
      rcases List.mem_append.mp hn with hn | hn
      · obtain ⟨m, hm, hkind⟩ := hfront.2 n hn
        exact ⟨m, List.mem_singleton.mp hm ▸ List.mem_cons_self, hkind⟩
      · obtain ⟨m, hm, hkind⟩ := hothers.2 n hn
        exact ⟨m, List.mem_cons_of_mem node hm, hkind⟩
    · have hone := hnodes n hn hmarks h
      exact ⟨⟨hone.plain, hone.kind⟩, hone.marks⟩
  exact ⟨hall.1.1, hall.1.2, hall.2⟩

variable (hextensions : ∀ e ∈ extensions, e.extending.hasParent = false)
include hextensions

theorem Derived.noParent {written : List Selector} (hwritten : NoParent written) {s : Selector}
    (hs : Derived extensions written s) : s.hasParent = false :=
  hs.keeps (fun e he _ _ hs ht => Selector.extendWith_noParent ht hs (hextensions e he)) hwritten

/-- The selectors of a rule can be printed after extending, if there are any. -/
theorem extendSelectors_printable {matched matched' : List Bool} {written result : List Selector}
    (hmarks : matched.length = extensions.length) (hwritten : NoParent written)
    (h : extendSelectors extensions matched written = .ok (result, matched')) (hne : result ≠ []) :
    Printable result := by
  obtain ⟨hresult, hnodup, -⟩ := extendSelectors_sound hmarks h
  have hmatch : ∀ s ∈ result, s.isContradictory = false ∧ s.hasPlaceholder = false := by
    intro s hs
    simpa only [Selector.canMatch, Bool.and_eq_true, Bool.not_eq_true'] using (hresult s hs).2
  refine ⟨hne, hnodup, fun s hs => ?_, fun s hs => (hmatch s hs).2, fun s hs => (hmatch s hs).1⟩
  exact (hresult s hs).1.noParent hextensions hwritten

/-- **The second pass fits the first.** A plain statement with resolved selectors becomes one that can
be printed, or goes. -/
theorem extendNode_rewrites {node : Node} (hplain : IsPlain Resolved node) {matched : List Bool}
    {r : List Node × List Bool} (hmarks : matched.length = extensions.length)
    (h : extendNode extensions matched node = .ok r) : Rewrites extensions [node] r := by
  -- what becomes of a statement that is left as one of its kind, or is dropped
  have hone : ∀ {node n : Node} {marks : List Bool}, IsPlain Printable n → SameKind node n →
      marks.length = extensions.length → Rewrites extensions [node] ([n], marks) := by
    intro node n marks hn hkind hmarks
    refine ⟨fun m hm => ?_, fun m hm => ?_, hmarks⟩
    · exact List.mem_singleton.mp hm ▸ hn
    · exact ⟨node, List.mem_cons_self, List.mem_singleton.mp hm ▸ hkind⟩
  have hnone : ∀ {node : Node} {marks : List Bool}, marks.length = extensions.length →
      Rewrites extensions [node] ([], marks) := fun hmarks =>
    ⟨fun _ hn => absurd hn List.not_mem_nil, fun _ hn => absurd hn List.not_mem_nil, hmarks⟩
  induction hplain generalizing matched r with
  | @bare position statement hbare =>
      have hsame : extendStatement extensions matched statement = .ok ([statement], matched) := by
        cases statement with
        | atRule name prelude body =>
            cases body with
            | none => rfl
            | some body => exact absurd hbare id
        | rule | media => exact absurd hbare id
        | _ => rfl
      rw [extendNode, hsame] at h
      obtain rfl := Except.ok.inj h
      exact hone (.bare hbare) ⟨rfl, rfl⟩ hmarks
  | @rule position selectors body hselectors hbody hleaves =>
      obtain ⟨left, hleft, hnodes⟩ := extendNode_eq_ok_iff.mp h
      obtain ⟨result, hresult, rfl⟩ := extendStatement_rule_eq_ok_iff.mp hleft
      have hlength := (extendSelectors_sound hmarks hresult).2.2
      obtain ⟨nodes, marks⟩ := r
      subst hnodes
      -- the body is left as it is, so only the selectors matter
      by_cases hempty : result = []
      · subst hempty
        exact hnone hlength
      · have hprint := extendSelectors_printable hextensions hmarks hselectors.noParent hresult hempty
        rw [if_neg (by simpa using hempty)]
        exact hone (.rule hprint hbody hleaves) ⟨rfl, rfl⟩ hlength
  | @media position query body hbody hmedia _ ih =>
      obtain ⟨left, hleft, hnodes⟩ := extendNode_eq_ok_iff.mp h
      obtain ⟨rest, hrest, rfl⟩ := extendStatement_media_eq_ok_iff.mp hleft
      have hinner := extendNodes_rewrites ih hmarks hrest
      obtain ⟨nodes, marks⟩ := r
      subst hnodes
      -- the directive goes with the last rule in it
      by_cases hempty : rest = []
      · subst hempty
        exact hnone hinner.marks
      · rw [if_neg (by simpa using hempty)]
        refine hone (.media hempty (fun n hn => ?_) hinner.plain) ⟨rfl, rfl⟩ hinner.marks
        obtain ⟨m, hm, hkind⟩ := hinner.kind n hn
        exact hkind.media.trans (hmedia m hm)
  | @atRule position name prelude body _ ih =>
      obtain ⟨left, hleft, hnodes⟩ := extendNode_eq_ok_iff.mp h
      obtain ⟨rest, hrest, rfl⟩ := extendStatement_atRule_eq_ok_iff.mp hleft
      have hinner := extendNodes_rewrites ih hmarks hrest
      obtain ⟨nodes, marks⟩ := r
      subst hnodes
      exact hone (.atRule hinner.plain) ⟨rfl, rfl⟩ hinner.marks

end

end Extending

/-! ## Both passes -/

/-- The contexts that a compile can begin in: new ones, and those left by earlier compiles, whether
these succeeded or failed. -/
inductive Context.Used : Context → Prop where
  | new (urlMode : UrlMode) (resolver : Resolver) (maxImportDepth : Nat) :
      Used (.new urlMode resolver maxImportDepth)
  | compiled {c : Context} (s : Stylesheet) (h : Used c) : Used (s.compile.outcome c).2

open Compile Context Flatten

/-- What the second pass leaves of plain CSS without declarations at the top level. -/
theorem Extending.run_gives {nodes : List Node} (hplain : AllPlain nodes)
    (htop : ∀ n ∈ nodes, n.statement.isDeclaration = false) :
    Gives (Extending.run nodes) fun printed =>
      ∀ n ∈ printed, IsPlain Printable n ∧ n.statement.isDeclaration = false := by
  intro c hc
  rw [Extending.run, outcome_get_bind]
  dsimp only
  cases hextend : extendNodes c.extensions (c.extensions.map fun _ => false) nodes with
  | error failure => exact Gives.throw failure c hc
  | ok r =>
      have hrewrites : Rewrites c.extensions nodes r := by
        refine extendNodes_rewrites (fun n hn _ _ => ?_) (List.length_map _) hextend
        exact extendNode_rewrites hc.extensions (hplain n hn)
      have hprinted : ∀ n ∈ r.1, IsPlain Printable n ∧ n.statement.isDeclaration = false := by
        intro n hn
        obtain ⟨m, hm, hkind⟩ := hrewrites.kind n hn
        exact ⟨hrewrites.plain n hn, hkind.declaration.trans (htop m hm)⟩
      refine Gives.bind (Gives.ofLeaves ?_) (fun _ _ => Gives.pure hprinted) c hc
      refine scoping_keepsClean.steps.forM fun e _ => ?_
      exact Leaves.ite (Leaves.pure scoping_keepsClean ()) (Leaves.warn scoping_keepsClean _ _)

theorem Stylesheet.compile_gives (s : Stylesheet) : Gives s.compile fun css =>
    ∀ n ∈ css.body, IsPlain Printable n ∧ n.statement.isDeclaration = false := by
  intro c hc
  have hentered : (c.enterRoot s.uri).IsClean := ⟨hc.parents, hc.extensions⟩
  refine Gives.bind (Flatten.run_gives s.body) (fun flat hflat => ?_) _ hentered
  exact Gives.bind (Extending.run_gives hflat.1 hflat.2) fun printed hprinted =>
    Gives.pure hprinted

theorem Context.isClean_new (urlMode : UrlMode) (resolver : Resolver) (maxImportDepth : Nat) :
    (Context.new urlMode resolver maxImportDepth).IsClean := by
  refine ⟨fun f hf selectors outer hparent => ?_, fun e he => absurd he List.not_mem_nil⟩
  obtain rfl := List.mem_singleton.mp hf
  cases Option.some.inj hparent

theorem Context.Used.isClean {c : Context} (h : c.Used) : c.IsClean := by
  induction h with
  | new urlMode resolver maxImportDepth => exact isClean_new urlMode resolver maxImportDepth
  | compiled s _ ih => exact (s.compile_gives _ ih).1

/--
**What a compile leaves is plain CSS.**

In a context that is new or was used by earlier compiles, a stylesheet that compiles becomes a tree of
rules, declarations, media directives, at-rules, imports of plain CSS and comments, and none of the
declarations is at the top level. Every rule has selectors, all different, which have neither `&` nor
placeholders and can match something; and it has a body, of declarations and comments only. No media
directive is empty or stands directly in another.
-/
theorem Stylesheet.compile_plain {s css : Stylesheet} {c c' : Context} (hc : c.Used)
    (h : s.compile.outcome c = (.ok css, c')) :
    ∀ n ∈ css.body, IsPlain Printable n ∧ n.statement.isDeclaration = false :=
  (s.compile_gives c hc.isClean).2 css (congrArg Prod.fst h)

/-- `.a { .b { /* inner */ @extend .c } } .c { /* extended */ }`. -/
def nestedRules : Stylesheet := ⟨"", none, [
  .mk default (.rule (.parsed [.ofClass "a"]) [.mk default (.rule (.parsed [.ofClass "b"])
    [.mk default (.comment "inner"), .mk default (.extend (.parsed [.ofClass "c"]) false)])]),
  .mk default (.rule (.parsed [.ofClass "c"]) [.mk default (.comment "extended")])]⟩

theorem nestedRules_compile : ∃ css c', nestedRules.compile.outcome .isolated = (.ok css, c') ∧
    css.body.length = 2 := by
  obtain ⟨printed, c', hcompile, hlength⟩ := Stylesheet.exists_compile (s := nestedRules)
    (c := .isolated) (P := fun printed _ => printed.length = 2)
    fun site => ⟨_, _, _, _, rfl, by decide, by cbv, rfl⟩
  exact ⟨_, c', hcompile, hlength⟩

/-- Both rules are left, and they are plain. -/
theorem nestedRules_plain : ∃ css c', nestedRules.compile.outcome .isolated = (.ok css, c') ∧
    css.body.length = 2 ∧
      ∀ n ∈ css.body, IsPlain Printable n ∧ n.statement.isDeclaration = false := by
  obtain ⟨css, c', h, hlength⟩ := nestedRules_compile
  exact ⟨css, c', h, hlength, Stylesheet.compile_plain (.new _ _ _) h⟩

end Scss
