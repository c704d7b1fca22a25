import Scss.Proofs.Balance

/-!
# Looking ahead

Whether a rule or a declaration begins is told by `opensBlock`, which runs over bare tokens and counts
brackets. Then a reader goes over the same tokens again and takes expressions on its way. The two agree
(`lookAhead_agrees`): what an expression takes up is balanced, and at every other token the look-ahead
does what the reader does (`piecesUntil_cases`, `opensBlock_cases`).
-/

namespace Scss

open Grammar

/-! ## Braces in brackets -/

/-- Braces open among the tokens only where a bracket is open. -/
def Confined (depth : Nat) (tokens : List Token) : Prop :=
  ∀ before brace after, tokens = before ++ brace :: after → brace.kind = .mark .openBrace →
    0 < openBrackets depth before

theorem confined_nil (depth : Nat) : Confined depth [] :=
  fun _ _ _ h _ => absurd h.symm (by simp)

/-- Without braces, brackets do not matter. -/
theorem confined_of_hasNoBrace {tokens : List Token} (h : HasNoBrace tokens) (depth : Nat) :
    Confined depth tokens := by
  intro before brace after htokens hbrace
  exact absurd hbrace (h brace (by rw [htokens]; simp))

/-- Behind some tokens, the brackets that are open count. -/
theorem Confined.append {depth : Nat} {front more : List Token} (h : Confined depth front)
    (h' : Confined (openBrackets depth front) more) : Confined depth (front ++ more) := by
  intro before brace after htokens hbrace
  rcases List.append_eq_append_iff.mp htokens with ⟨between, rfl, hmore⟩ | ⟨between, rfl, hafter⟩
  · rw [openBrackets_append]
    exact h' between brace after hmore hbrace
  · cases between with
    | nil =>
        rw [List.append_nil] at h'
        exact h' [] brace after hafter.symm hbrace
    | cons t between =>
        obtain ⟨rfl, -⟩ := List.cons.inj hafter
        exact h before brace between rfl hbrace

theorem Confined.cons {depth : Nat} {t : Token} {rest : List Token}
    (ht : t.kind = .mark .openBrace → 0 < depth) (h : Confined (t.kind.deepen depth) rest) :
    Confined depth (t :: rest) := by
  have hsingle : Confined depth [t] := by
    intro before brace after htokens hbrace
    obtain ⟨rfl, heq⟩ | ⟨_, _, heq⟩ := List.cons_eq_append_iff.mp htokens
    · obtain ⟨rfl, -⟩ := List.cons.inj heq
      exact ht hbrace
    · exact absurd heq (by simp)
  exact hsingle.append h

namespace Grammar

open Scss.Parser Token

/-! ## Where text ends -/

/-- What reading text does at a token: it stops, or goes on behind the token or the expression. -/
theorem piecesUntil_cases {stop : Kind → Bool} {substitute : Bool} {fuel depth : Nat}
    {c d : Cursor} {pieces : Interpolation}
    (h : (piecesUntil stop substitute (fuel + 1) depth).run c = .ok (pieces, d)) :
    d = c ∧ (depth = 0 ∧ stop c.current.kind = true ∨ c.current.kind = .finish) ∨
      ¬(depth = 0 ∧ stop c.current.kind = true) ∧ ∃ e rest,
        (piecesUntil stop substitute fuel (c.current.kind.deepen depth)).run e = .ok (rest, d) ∧
        (c.current.kind = .mark .interpolation ∧ c.Gets [] e ∨
          c.current.kind ≠ .mark .interpolation ∧ c.current.kind ≠ .finish ∧ e = c.advance) := by
  rw [piecesUntil, run_token_bind] at h
  by_cases hstop : depth = 0 ∧ stop c.current.kind = true
  · rw [if_pos (by simpa using hstop)] at h
    exact .inl ⟨(Prod.mk.inj (Except.ok.inj h)).2.symm, .inl hstop⟩
  rw [if_neg (by simpa using hstop)] at h
  -- what is read behind the token is all that is left to read, whatever is put in front of it
  have hrest : ∀ {g : Interpolation → Interpolation} {depth' : Nat} {e : Cursor},
      (do return g (← piecesUntil stop substitute fuel depth') : Parser Interpolation).run e =
          .ok (pieces, d) →
        ∃ rest, (piecesUntil stop substitute fuel depth').run e = .ok (rest, d) := by
    intro g depth' e hrun
    obtain ⟨⟨rest, d'⟩, hrest, hend⟩ := bind_eq_ok_iff.mp hrun
    obtain ⟨-, rfl⟩ := Prod.mk.inj (Except.ok.inj hend)
    exact ⟨rest, hrest⟩
  -- the parts of a quoted text are read from the token itself
  have hparts : ∀ {text : List Char} {k : Interpolation → Parser Interpolation},
      (textParts fuel c.current.position text >>= k).run c = .ok (pieces, d) →
        ∃ parts, (k parts).run c = .ok (pieces, d) := by
    intro text k hrun
    obtain ⟨⟨parts, e⟩, htext, hmore⟩ := bind_eq_ok_iff.mp hrun
    obtain rfl := textParts_stays _ _ _ _ _ _ htext
    exact ⟨parts, hmore⟩
  generalize hkind : c.current.kind = kind at h hstop ⊢
  split at h
  · exact .inl ⟨(Prod.mk.inj (Except.ok.inj h)).2.symm, .inr rfl⟩
  · obtain ⟨⟨inner, e⟩, hinner, hmore⟩ := bind_eq_ok_iff.mp h
    obtain ⟨rest, hmore⟩ := hrest hmore
    exact .inr ⟨hstop, e, rest, hmore, .inl ⟨rfl, (movesOn fuel).embedded c inner e hkind hinner⟩⟩
  -- every other token is passed over
  all_goals refine .inr ⟨hstop, c.advance, ?_⟩
  · obtain ⟨parts, h⟩ := hparts h
    rw [run_over_bind] at h
    obtain ⟨rest, hmore⟩ := hrest h
    exact ⟨rest, hmore, .inr ⟨nofun, nofun, rfl⟩⟩
  · obtain ⟨parts, h⟩ := hparts h
    rw [run_over_bind] at h
    obtain ⟨rest, hmore⟩ := hrest h
    exact ⟨rest, hmore, .inr ⟨nofun, nofun, rfl⟩⟩
  · rw [run_over_bind] at h
    obtain ⟨rest, hmore⟩ := hrest h
    exact ⟨rest, hmore, .inr ⟨nofun, nofun, rfl⟩⟩
  · rw [run_over_bind] at h
    exact ⟨pieces, h, .inr ⟨nofun, nofun, rfl⟩⟩
  next hfinish hinterpolation _ _ _ _ =>
    rw [run_over_bind] at h
    obtain ⟨rest, hmore⟩ := hrest h
    exact ⟨rest, hmore, .inr ⟨hinterpolation, hfinish, rfl⟩⟩

/-- On the last token reading text stays there, if it ends at all. -/
theorem piecesUntil_last {stop : Kind → Bool} {substitute : Bool} {fuel depth : Nat}
    {c d : Cursor} {pieces : Interpolation} (hlast : c.later = [])
    (h : (piecesUntil stop substitute fuel depth).run c = .ok (pieces, d)) :
    d.later = [] ∧ d.tokens = c.tokens := by
  induction fuel generalizing c depth pieces with
  | zero => cases h
  | succ fuel ih =>
      rcases piecesUntil_cases h with ⟨rfl, -⟩ | ⟨-, e, rest, hrest, ⟨-, front, hfront, -⟩ | ⟨-, hkind, rfl⟩⟩
      · exact ⟨hlast, rfl⟩
      · obtain ⟨rfl, he⟩ := Cursor.eq_nil_of_last hlast hfront
        exact (ih he hrest).imp_right fun htokens => htokens.trans hfront.symm
      · rw [Cursor.advance_last hlast] at hrest
        exact ih hlast hrest

/-- What the look-ahead does at a token that begins no expression: it has found a brace, or the end of
the statement, or it goes on. -/
theorem opensBlock_cases {t : Token} (ht : t.kind ≠ .mark .interpolation) (depth : Nat) :
    (depth = 0 ∧ t.kind = .mark .openBrace) ∨
      ((t.kind = .finish ∨ depth = 0 ∧ atEnd t.kind = true) ∧
        ∀ later, opensBlock depth 0 (t :: later) = false) ∨
      (t.kind = .mark .openBrace → 0 < depth) ∧
        ∀ later, opensBlock depth 0 (t :: later) = opensBlock (t.kind.deepen depth) 0 later := by
  simp only [opensBlock]
  generalize t.kind = kind at ht ⊢
  have hgoesOn : ∀ {p q : Prop} {r : Prop}, r → p ∨ q ∨ r := fun h => .inr (.inr h)
  have hends : ∀ {m : Mark}, atEnd (.mark m) = true → (0 : Nat) = 0 ∧ atEnd (.mark m) = true :=
    fun h => ⟨rfl, h⟩
  cases kind with
  | finish => exact .inr (.inl ⟨.inl rfl, fun _ => rfl⟩)
  | mark m =>
      cases m with
      | interpolation => exact absurd rfl ht
      | openBrace =>
          cases depth with
          | zero => exact .inl ⟨rfl, rfl⟩
          | succ depth => exact hgoesOn ⟨fun _ => Nat.succ_pos _, fun _ => rfl⟩
      | closeBrace | semicolon =>
          cases depth with
          | zero => exact .inr (.inl ⟨.inr (hends rfl), fun _ => rfl⟩)
          | succ depth => exact hgoesOn ⟨by simp, fun _ => rfl⟩
      | _ => exact hgoesOn ⟨by simp, fun _ => rfl⟩
  | _ => exact hgoesOn ⟨by simp, fun _ => rfl⟩

/-- No block is opened where no brace is found. -/
theorem opensBlock_of_hasNoBrace {tokens : List Token} (h : HasNoBrace tokens)
    (brackets interpolations : Nat) : opensBlock brackets interpolations tokens = false := by
  induction tokens generalizing brackets interpolations with
  | nil => rfl
  | cons t later ih =>
      obtain ⟨ht, hlater⟩ := List.forall_mem_cons.mp h
      rw [opensBlock]
      split
      all_goals try exact ih hlater _ _
      · split
        · exact ih hlater _ _
        split
        · rfl
        · exact ih hlater _ _
      next hbrace => exact absurd hbrace ht
      · rw [ih hlater, Bool.and_false]
      · rfl

/-- What is found is found however the text goes on. -/
theorem opensBlock_append {tokens : List Token} {brackets interpolations : Nat}
    (h : opensBlock brackets interpolations tokens = true) (more : List Token) :
    opensBlock brackets interpolations (tokens ++ more) = true := by
  induction tokens generalizing brackets interpolations with
  | nil => cases h
  | cons t later ih =>
      rw [opensBlock] at h
      rw [List.cons_append, opensBlock]
      split at h
      all_goals try exact ih h
      · split at h
        next hembedded =>
          rw [if_pos hembedded]
          exact ih h
        next hembedded =>
          rw [if_neg hembedded]
          split at h
          · cases h
          next hbrackets =>
            rw [if_neg hbrackets]
            exact ih h
      · rw [Bool.or_eq_true] at h ⊢
        exact h.imp_right ih
      · rw [Bool.and_eq_true] at h ⊢
        exact h.imp_right ih
      · cases h

/-- **A text that has a block behind it ends at the brace that was found.** -/
theorem piecesUntil_atBrace {substitute : Bool} {fuel depth : Nat} {c d : Cursor}
    {pieces : Interpolation} (hopens : opensBlock depth 0 c.tokens = true)
    (h : (piecesUntil atBrace substitute fuel depth).run c = .ok (pieces, d)) :
    ∃ front, c.tokens = front ++ d.tokens ∧ d.current.kind = .mark .openBrace ∧
      opensBlock depth 0 front = false ∧ opensBlock depth 0 (front ++ [d.current]) = true := by
  induction fuel generalizing c depth pieces with
  | zero => cases h
  | succ fuel ih =>
      rcases piecesUntil_cases h with
        ⟨rfl, ⟨rfl, hstop⟩ | hfinish⟩ | ⟨hgoesOn, e, rest, hrest, ⟨hkind, hgets⟩ | ⟨hkind, hfinish, rfl⟩⟩
      -- the text ends at a brace
      case inl.inl =>
        have hbrace : d.current.kind = .mark .openBrace := by
          unfold atBrace at hstop
          split at hstop
          next hbrace => exact hbrace
          next => cases hstop
        refine ⟨[], rfl, hbrace, rfl, ?_⟩
        rw [List.nil_append, opensBlock, hbrace]
        rfl
      -- at the end of the tokens there is no block, yet one was found
      case inl.inr =>
        rw [Cursor.tokens, opensBlock, hfinish] at hopens
        cases hopens
      case inr.inl =>
        rw [hkind] at hrest
        obtain ⟨front, hfront, hclosed | ⟨hbrace, hlast⟩⟩ := hgets
        · -- the look-ahead passes over the expression
          have hpass : ∀ later, opensBlock depth 0 (front ++ later) = opensBlock depth 0 later :=
            hclosed.opensBlock_append depth 0
          rw [hfront, hpass] at hopens
          obtain ⟨more, hmore, hbrace, hbefore, hfound⟩ := ih hopens hrest
          refine ⟨front ++ more, by rw [hfront, hmore, List.append_assoc], hbrace, ?_, ?_⟩
          · rw [hpass, hbefore]
          · rw [List.append_assoc, hpass, hfound]
        · -- no brace opens in the expression, so the last token is the one that was found
          obtain ⟨hlater, htokens⟩ := piecesUntil_last hlast hrest
          have hd : d.tokens = [d.current] := by rw [Cursor.tokens, hlater]
          rw [hfront, ← htokens, hd] at hopens
          refine ⟨front, by rw [hfront, htokens], ?_, opensBlock_of_hasNoBrace hbrace depth 0, hopens⟩
          by_contra hother
          rw [opensBlock_of_hasNoBrace (List.forall_mem_append.mpr
            ⟨hbrace, List.forall_mem_singleton.mpr hother⟩)] at hopens
          cases hopens
      -- a token that is passed over: an opening brace, the end of the declaration, or neither
      case inr.inr =>
        rcases opensBlock_cases hkind depth with ⟨rfl, hbrace⟩ | ⟨-, hends⟩ | ⟨-, hpass⟩
        · exact absurd ⟨rfl, by rw [hbrace]; rfl⟩ hgoesOn
        · rw [Cursor.tokens, hends] at hopens
          cases hopens
        · rcases c.tokens_advance with ⟨-, hstays | hlast⟩ | hmoves
          · exact absurd hstays hfinish
          · rw [Cursor.tokens, hpass, hlast] at hopens
            cases hopens
          · rw [hmoves, hpass] at hopens
            obtain ⟨more, hmore, hbrace, hbefore, hfound⟩ := ih hopens hrest
            refine ⟨c.current :: more, by rw [hmoves, hmore, List.cons_append], hbrace, ?_, ?_⟩
            · rw [hpass, hbefore]
            · rw [List.cons_append, hpass, hfound]

/-! ## Declarations -/

/-- **A text that has no block behind it leaves none behind**, and where it ends there is none ahead. -/
theorem piecesUntil_confined {stop : Kind → Bool} (hends : ∀ kind, atEnd kind = true → stop kind = true)
    {substitute : Bool} {fuel depth : Nat} {c d : Cursor} {pieces : Interpolation}
    (hopens : opensBlock depth 0 c.tokens = false)
    (h : (piecesUntil stop substitute fuel depth).run c = .ok (pieces, d)) :
    ∃ front, c.tokens = front ++ d.tokens ∧ Confined depth front ∧
      (d.current.kind = .finish ∨ d.later = [] ∨
        openBrackets depth front = 0 ∧ opensBlock 0 0 d.tokens = false) := by
  induction fuel generalizing c depth pieces with
  | zero => cases h
  | succ fuel ih =>
      rcases piecesUntil_cases h with
        ⟨rfl, ⟨rfl, hstop⟩ | hfinish⟩ | ⟨hgoesOn, e, rest, hrest, ⟨hkind, hgets⟩ | ⟨hkind, hfinish, rfl⟩⟩
      -- the text ends here, and the look-ahead stays what it was
      case inl.inl => exact ⟨[], rfl, confined_nil 0, .inr (.inr ⟨rfl, hopens⟩)⟩
      case inl.inr => exact ⟨[], rfl, confined_nil depth, .inl hfinish⟩
      case inr.inl =>
        rw [hkind] at hrest
        obtain ⟨front, hfront, hclosed | ⟨hbrace, hlast⟩⟩ := hgets
        · have hpass : ∀ later, opensBlock depth 0 (front ++ later) = opensBlock depth 0 later :=
            hclosed.opensBlock_append depth 0
          have hdepth : openBrackets depth front = depth := hclosed.openBrackets_eq depth
          rw [hfront, hpass] at hopens
          obtain ⟨more, hmore, hconfined, hend⟩ := ih hopens hrest
          refine ⟨front ++ more, by rw [hfront, hmore, List.append_assoc], ?_, ?_⟩
          · refine (confined_of_hasNoBrace hclosed.hasNoBrace depth).append ?_
            rwa [hdepth]
          · rwa [openBrackets_append, hdepth]
        · obtain ⟨hlater, htokens⟩ := piecesUntil_last hlast hrest
          exact ⟨front, by rw [hfront, htokens], confined_of_hasNoBrace hbrace depth, .inr (.inl hlater)⟩
      case inr.inr =>
        -- an opening brace would be a block, and the end of the declaration would end the text
        rcases opensBlock_cases hkind depth with ⟨rfl, hbrace⟩ | ⟨hend, -⟩ | ⟨hinside, hpass⟩
        · rw [Cursor.tokens, opensBlock, hbrace] at hopens
          cases hopens
        · rcases hend with hend | ⟨hdepth, hend⟩
          · exact absurd hend hfinish
          · exact absurd ⟨hdepth, hends _ hend⟩ hgoesOn
        · rcases c.tokens_advance with ⟨-, hstays | hlast⟩ | hmoves
          · exact absurd hstays hfinish
          · -- the cursor has come to the last token and cannot move on
            rw [Cursor.advance_last hlast] at hrest
            obtain ⟨hlater, htokens⟩ := piecesUntil_last hlast hrest
            exact ⟨[], htokens.symm, confined_nil depth, .inr (.inl hlater)⟩
          · rw [hmoves, hpass] at hopens
            obtain ⟨more, hmore, hconfined, hend⟩ := ih hopens hrest
            exact ⟨c.current :: more, by rw [hmoves, hmore, List.cons_append],
              hconfined.cons hinside, hend⟩

end Grammar

namespace Cursor

variable {c d e : Cursor}

/-- From `c` to `d`, braces open only where a bracket is open. -/
def Avoids (c d : Cursor) : Prop := ∃ front, c.tokens = front ++ d.tokens ∧ Confined 0 front

/-- Besides, at `d` no bracket is open and no block lies ahead, or there are no other tokens. -/
def Clears (c d : Cursor) : Prop :=
  ∃ front, c.tokens = front ++ d.tokens ∧ Confined 0 front ∧
    (d.later = [] ∨ openBrackets 0 front = 0 ∧ opensBlock 0 0 d.tokens = false)

theorem Clears.avoids (h : Clears c d) : Avoids c d := by
  obtain ⟨front, hfront, hconfined, -⟩ := h
  exact ⟨front, hfront, hconfined⟩

theorem Avoids.trans (h : Avoids c d) {front : List Token} (hfront : d.tokens = front ++ e.tokens)
    (hbrace : HasNoBrace front) : Avoids c e := by
  obtain ⟨before, hbefore, hconfined⟩ := h
  exact ⟨before ++ front, by rw [hbefore, hfront, List.append_assoc],
    hconfined.append (confined_of_hasNoBrace hbrace _)⟩

/-- What a reader moves over holds no brace, so none has been passed behind it either. -/
theorem Avoids.gets {pending : List Mark} (h : Avoids c d) (h' : Gets pending d e) : Avoids c e := by
  obtain ⟨front, hfront, hbrace⟩ := h'.hasNoBrace
  exact h.trans hfront hbrace

theorem Avoids.advance (h : Avoids c d) (hd : d.current.kind ≠ .mark .openBrace) :
    Avoids c d.advance := by
  rcases d.tokens_advance with ⟨hstays, -⟩ | hmoves
  · rwa [hstays]
  · have hfront : d.tokens = [d.current] ++ d.advance.tokens := hmoves
    exact h.trans hfront (List.forall_mem_singleton.mpr hd)

/-- What is read as a whole leaves nothing open. -/
theorem Clears.gets (h : Clears c d) (h' : Gets [] d e) : Clears c e := by
  obtain ⟨before, hbefore, hconfined, hd⟩ := h
  obtain ⟨front, hfront, hmoved⟩ := h'
  have hbrace : HasNoBrace front := hmoved.elim Closes.hasNoBrace And.left
  refine ⟨before ++ front, by rw [hbefore, hfront, List.append_assoc],
    hconfined.append (confined_of_hasNoBrace hbrace _), ?_⟩
  rcases hd with hlast | ⟨hdepth, hopens⟩
  · exact .inl (eq_nil_of_last hlast hfront).2
  rcases hmoved with hclosed | ⟨-, hlast⟩
  · refine .inr ⟨?_, ?_⟩
    · rw [openBrackets_append, hdepth]
      exact hclosed.openBrackets_eq 0
    · rw [hfront] at hopens
      exact (hclosed.opensBlock_append 0 0 e.tokens).symm.trans hopens
  · exact .inl hlast

end Cursor

namespace Grammar

open Scss.Parser Token

variable {α β : Type} {m : Parser α} {f : α → Parser β} {P Q R : Cursor → Prop}

/-- From cursors of one kind the reader gets to those of another. -/
def Leads (P : Cursor → Prop) (m : Parser α) (Q : Cursor → Prop) : Prop :=
  ∀ c a d, P c → m.run c = .ok (a, d) → Q d

namespace Leads

protected theorem pure (a : α) : Leads P (pure a) P := by
  intro c b d hc hrun
  obtain ⟨-, rfl⟩ := Prod.mk.inj (Except.ok.inj hrun)
  exact hc

protected theorem bind (hm : Leads P m Q) (hf : ∀ a, Leads Q (f a) R) : Leads P (m >>= f) R := by
  intro c b e hc hrun
  obtain ⟨⟨a, d⟩, ha, hb⟩ := bind_eq_ok_iff.mp hrun
  exact hf a d b e (hm c a d hc ha) hb

protected theorem throw (failure : Failure) : Leads P (throw failure : Parser α) Q :=
  fun _ _ _ _ h => nomatch h

theorem failAt_bind (t : Token) (fault : SyntaxFault) : Leads P (failAt t fault >>= f) Q :=
  fun _ _ _ _ h => nomatch h

protected theorem ite {p : Prop} [Decidable p] {m' : Parser α} (h : Leads P m Q) (h' : Leads P m' Q) :
    Leads P (if p then m else m') Q := by
  split
  · exact h
  · exact h'

theorem stays (hm : Stays m) : Leads P m P := fun c a d hc hrun => hm c a d hrun ▸ hc

theorem weaken (h : Leads Q m R) (hP : ∀ c, P c → Q c) : Leads P m R :=
  fun c a d hc hrun => h c a d (hP c hc) hrun

theorem peek_bind {f : Kind → Parser β}
    (h : ∀ kind, Leads (fun c => P c ∧ c.current.kind = kind) (f kind) Q) : Leads P (peek >>= f) Q :=
  fun c b d hc hrun => h c.current.kind c b d ⟨hc, rfl⟩ hrun

theorem isAt_not_ite {mark : Mark} {yes no : Parser α} (hno : Leads P no Q)
    (hyes : Leads (fun c => P c ∧ c.current.kind = .mark mark) yes Q) :
    Leads P (isAt mark >>= fun at? => if (!at?) = true then no else yes) Q := by
  intro c a d hc hrun
  obtain ⟨at?, hat, hmark⟩ := run_isAt mark c
  obtain ⟨⟨at?', c'⟩, hat', hrun⟩ := bind_eq_ok_iff.mp hrun
  obtain ⟨rfl, rfl⟩ := Prod.mk.inj (Except.ok.inj (hat.symm.trans hat'))
  cases at? with
  | false => exact hno c a d hc hrun
  | true => exact hyes c a d ⟨hc, hmark rfl⟩ hrun

theorem clears {c : Cursor} {At : Kind → Prop} (hm : Moves At m []) :
    Leads (fun d => c.Clears d ∧ At d.current.kind) m c.Clears :=
  fun d a e hd hrun => hd.1.gets (hm d a e hd.2 hrun)

theorem clears_anyKind {c : Cursor} (hm : Moves anyKind m []) : Leads c.Clears m c.Clears :=
  (clears hm).weaken fun _ hd => ⟨hd, trivial⟩

theorem avoids {c : Cursor} {pending : List Mark} (hm : Moves anyKind m pending) :
    Leads c.Avoids m c.Avoids :=
  fun d a e hd hrun => hd.gets (hm d a e trivial hrun)

end Leads

/-- Text up to a stop is moved over piece by piece, each of which clears the way. -/
theorem interpolationUntil_leads {stop : Kind → Bool} (hends : ∀ kind, atEnd kind = true → stop kind = true)
    (substitute : Bool) (fuel : Nat) (c : Cursor) :
    Leads c.Clears (interpolationUntil fuel stop substitute) fun d =>
      c.Avoids d ∧ (d.current.kind = .finish ∨ c.Clears d) := by
  intro d text e hd hrun
  obtain ⟨⟨pieces, e'⟩, hpieces, hend⟩ := bind_eq_ok_iff.mp hrun
  obtain ⟨-, rfl⟩ := Prod.mk.inj (Except.ok.inj hend)
  obtain ⟨before, hbefore, hconfined, hlast | ⟨hdepth, hopens⟩⟩ := hd
  · obtain ⟨hlater, htokens⟩ := piecesUntil_last hlast hpieces
    rw [← htokens] at hbefore
    exact ⟨⟨before, hbefore, hconfined⟩, .inr ⟨before, hbefore, hconfined, .inl hlater⟩⟩
  · obtain ⟨front, hfront, hmore, hend⟩ := piecesUntil_confined hends hopens hpieces
    have htokens : c.tokens = before ++ front ++ e'.tokens := by
      rw [hbefore, hfront, List.append_assoc]
    have hall : Confined 0 (before ++ front) := hconfined.append (by rwa [hdepth])
    refine ⟨⟨_, htokens, hall⟩, hend.imp_right fun hend => ⟨_, htokens, hall, hend.imp_right ?_⟩⟩
    rintro ⟨hclosed, hopens⟩
    exact ⟨by rw [openBrackets_append, hdepth, hclosed], hopens⟩

theorem important_moves : Moves anyKind important [] := by
  unfold important
  refine Moves.skipBlanks_bind (Moves.peek_bind fun kind _ => ?_)
  split
  · exact Moves.over_bind (.keeps rfl (Moves.pure _))
  · exact Moves.stays_bind .token fun _ => Moves.failAt _ _
  · exact Moves.pure _

/-- The end of a statement is at most a semicolon. -/
theorem endStatement_avoids (c : Cursor) : Leads c.Avoids endStatement c.Avoids := by
  unfold endStatement
  refine Leads.bind (Leads.avoids (Moves.skipBlanks_bind (Moves.pure ()))) fun _ => ?_
  refine Leads.peek_bind fun kind => ?_
  split
  · intro d a e hd hrun
    obtain ⟨-, rfl⟩ := Prod.mk.inj (Except.ok.inj hrun)
    exact hd.1.advance (hd.2 ▸ nofun)
  · exact (Leads.pure _).weaken fun d hd => hd.1
  · exact (Leads.pure _).weaken fun d hd => hd.1
  · exact (Leads.stays .token).bind fun _ => Leads.throw _

/-- **A declaration that has no block behind it swallows none.** -/
theorem declaration_avoids (fuel : Nat) (c : Cursor) : Leads c.Clears (declaration fuel) c.Avoids := by
  unfold declaration
  have hends : ∀ kind, atEnd kind = true → atColonOrEnd kind = true := by
    intro kind h
    unfold atEnd at h
    split at h <;> first | rfl | cases h
  refine (Leads.stays .token).bind fun start => ?_
  refine (interpolationUntil_leads hends false fuel c).bind fun name => ?_
  refine Leads.ite (Leads.failAt_bind _ _) (Leads.isAt_not_ite (Leads.failAt_bind _ _) ?_)
  -- the colon is in sight, so the text has not run to the end of the file
  refine Leads.weaken ?_ fun d (hd : _ ∧ d.current.kind = .mark .colon) =>
    (⟨hd.1.2.resolve_left (hd.2 ▸ nofun), hd.2⟩ : c.Clears d ∧ d.current.kind = .mark .colon)
  refine Leads.bind (Leads.clears (Moves.over_bind (.keeps rfl (Moves.pure ())))) fun _ => ?_
  refine Leads.bind (Leads.clears_anyKind (Moves.skipBlanks_bind (Moves.pure ()))) fun _ => ?_
  have hend : ∀ value, Leads c.Avoids (do
      let isImportant ← important
      endStatement
      return Node.mk start.position (.declaration name value isImportant)) c.Avoids := fun value =>
    (Leads.avoids important_moves).bind fun _ => (endStatement_avoids c).bind fun _ => Leads.pure _
  refine Leads.ite ?_ ?_
  · refine (interpolationUntil_leads (fun _ => id) false fuel c).bind fun text => ?_
    exact (hend _).weaken fun d hd => hd.1
  · refine (Leads.clears_anyKind (movesOn fuel).valueList).bind fun value => ?_
    exact (hend value).weaken fun d hd => hd.avoids

/-- **The look-ahead and the readers agree.** If it finds a block, the text of a selector ends at the
brace that it found, the first one that decides it. If it finds none, a declaration moves over no brace
outside brackets, up to its end and with what ends it. -/
theorem lookAhead_agrees (fuel : Nat) (c : Cursor) :
    (∀ substitute text d, opensBlock 0 0 c.tokens = true →
      (interpolationUntil fuel atBrace substitute).run c = .ok (text, d) →
      ∃ front, c.tokens = front ++ d.tokens ∧ d.current.kind = .mark .openBrace ∧
        ∀ n, opensBlock 0 0 (c.tokens.take n) = decide (front.length < n)) ∧
    (∀ node d, opensBlock 0 0 c.tokens = false → (declaration fuel).run c = .ok (node, d) →
      ∃ front, c.tokens = front ++ d.tokens ∧ Confined 0 front) := by
  constructor
  · intro substitute text d hopens hrun
    obtain ⟨⟨pieces, e⟩, hpieces, hend⟩ := bind_eq_ok_iff.mp hrun
    obtain ⟨-, rfl⟩ := Prod.mk.inj (Except.ok.inj hend)
    obtain ⟨front, hfront, hbrace, hbefore, hfound⟩ := piecesUntil_atBrace hopens hpieces
    refine ⟨front, hfront, hbrace, fun n => ?_⟩
    -- a prefix opens a block as soon as it reaches over the brace, and not before
    rcases Nat.lt_or_ge front.length n with hreached | hshort
    · -- the brace is among the tokens taken
      have htokens : c.tokens = front ++ [e.current] ++ e.later := by
        rw [hfront, Cursor.tokens, List.append_assoc, List.singleton_append]
      have hlength : (front ++ [e.current]).length ≤ n := by
        rw [List.length_append, List.length_singleton]
        exact hreached
      rw [htokens, List.take_append, List.take_of_length_le hlength, decide_eq_true hreached]
      exact opensBlock_append hfound _
    · rw [hfront, List.take_append_of_le_length hshort, decide_eq_false (Nat.not_lt.mpr hshort)]
      cases htaken : opensBlock 0 0 (front.take n) with
      | false => rfl
      | true =>
          have hall := opensBlock_append htaken (front.drop n)
          rw [List.take_append_drop, hbefore] at hall
          cases hall
  · intro node d hopens hrun
    have hstart : c.Clears c := ⟨[], rfl, confined_nil 0, .inr ⟨rfl, hopens⟩⟩
    exact declaration_avoids fuel c c node d hstart hrun

/-- A cursor on words and marks as they are written. -/
def cursorOn (kinds : List Kind) : Cursor :=
  .ofTokens default (kinds.map fun kind => ⟨kind, default, 0, 0, text kind⟩)
where
  text : Kind → String
    | .word name => name
    | .mark m => m.text
    | _ => ""

/-- A selector with groups and an expression in it: `a(([b]) #{(c)}) {`. -/
def groupedSelector : Cursor :=
  cursorOn [.word "a", .mark .openParen, .mark .openParen, .mark .openBracket, .word "b",
    .mark .closeBracket, .mark .closeParen, .blank, .mark .interpolation, .mark .openParen, .word "c",
    .mark .closeParen, .mark .closeBrace, .mark .closeParen, .blank, .mark .openBrace,
    .mark .closeBrace, .finish]

/-- A custom property with a brace in a group: `--a: (b {) ;`. -/
def bracedProperty : Cursor :=
  cursorOn [.word "--a", .mark .colon, .blank, .mark .openParen, .word "b", .blank, .mark .openBrace,
    .mark .closeParen, .blank, .mark .semicolon, .finish]

theorem lookAhead_agrees_groups :
    (∃ text d, opensBlock 0 0 groupedSelector.tokens = true ∧
      (interpolationUntil 32 atBrace false).run groupedSelector = .ok (text, d) ∧
      ∃ front, groupedSelector.tokens = front ++ d.tokens ∧ d.current.kind = .mark .openBrace ∧
        ∀ n, opensBlock 0 0 (groupedSelector.tokens.take n) = decide (front.length < n)) ∧
    (∃ node d, opensBlock 0 0 bracedProperty.tokens = false ∧
      (declaration 32).run bracedProperty = .ok (node, d) ∧
      ∃ front, bracedProperty.tokens = front ++ d.tokens ∧ Confined 0 front) := by
  have hselector : ∃ r, (interpolationUntil 32 atBrace false).run groupedSelector = .ok r := ⟨_, rfl⟩
  have hproperty : ∃ r, (declaration 32).run bracedProperty = .ok r := by
    cbv
    exact ⟨_, rfl⟩
  obtain ⟨⟨text, d⟩, hselector⟩ := hselector
  obtain ⟨⟨node, e⟩, hproperty⟩ := hproperty
  exact ⟨⟨text, d, rfl, hselector, (lookAhead_agrees 32 groupedSelector).1 false text d rfl hselector⟩,
    ⟨node, e, rfl, hproperty, (lookAhead_agrees 32 bracedProperty).2 node e rfl hproperty⟩⟩

end Grammar

end Scss
