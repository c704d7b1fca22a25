import Scss.Grammar.Statement
import Scss.Proofs.Parts

/-!
# Balance

What an expression takes up of the tokens is balanced (`Closes`): each parenthesis and each interpolation
that opens in it closes in it, and neither a brace nor the end of a statement stands between. So who
runs over the bare tokens and counts brackets finds all as it was behind the expression
(`Closes.opensBlock_append`, `Closes.openBrackets_eq`). It is shown for all readers of values at once
(`movesOn`).

A cursor that has come to its last token stays there, whatever is read. Lists of tokens end with the end
of the file, which no expression takes up; of other lists nothing more is promised once the last token is
reached (`Cursor.Gets`).
-/

namespace Scss

open Grammar

/-! ## What tokens leave open -/

/-- The marks that expressions stand between. -/
inductive Mark.Pairs : Mark → Mark → Prop
  | group : Pairs .openParen .closeParen
  | embedding : Pairs .interpolation .closeBrace

namespace Token

/-- Whether a token neither opens nor closes anything, nor ends a statement. -/
def Kind.isNeutral : Kind → Bool
  | .mark .openParen | .mark .closeParen | .mark .openBracket | .mark .closeBracket
  | .mark .interpolation | .mark .openBrace | .mark .closeBrace | .mark .semicolon | .finish => false
  | _ => true

/-- What has yet to be closed in front of a token and behind it. -/
inductive Kind.Shifts : Kind → List Mark → List Mark → Prop
  | keeps {kind : Kind} {pending : List Mark} (h : kind.isNeutral = true) :
      Shifts kind pending pending
  | opens {opening closing : Mark} {pending : List Mark} (h : opening.Pairs closing) :
      Shifts (.mark opening) pending (closing :: pending)
  | closes {opening closing : Mark} {pending : List Mark} (h : opening.Pairs closing) :
      Shifts (.mark closing) (closing :: pending) pending

/-- The brackets that are open behind a token, by those in front of it. -/
def Kind.deepen (depth : Nat) : Kind → Nat
  | .mark .openParen | .mark .openBracket => depth + 1
  | .mark .closeParen | .mark .closeBracket => depth - 1
  | _ => depth

end Token

/-- The brackets that are open behind some tokens. -/
def openBrackets (depth : Nat) (tokens : List Token) : Nat :=
  tokens.foldl (fun depth t => t.kind.deepen depth) depth

/-- No brace opens among the tokens. -/
def HasNoBrace (tokens : List Token) : Prop := ∀ t ∈ tokens, t.kind ≠ .mark .openBrace

/-- The tokens close what is pending, and all that they open themselves. -/
inductive Closes : List Mark → List Token → Prop
  | nil : Closes [] []
  | cons {pending pending' : List Mark} {t : Token} {rest : List Token}
      (h : t.kind.Shifts pending pending') (hrest : Closes pending' rest) : Closes pending (t :: rest)

theorem openBrackets_append (depth : Nat) (front more : List Token) :
    openBrackets depth (front ++ more) = openBrackets (openBrackets depth front) more :=
  List.foldl_append

namespace Token.Kind.Shifts

variable {kind : Kind} {pending pending' : List Mark} (h : kind.Shifts pending pending')
include h

/-- Further marks may be pending outside of those that count here. -/
theorem append (more : List Mark) : kind.Shifts (pending ++ more) (pending' ++ more) := by
  cases h with
  | keeps h => exact .keeps h
  | opens h => exact .opens h
  | closes h => exact .closes h

/-- No brace opens in an expression. -/
theorem ne_openBrace : kind ≠ .mark .openBrace := by
  rintro rfl
  cases h with
  | keeps h => cases h
  | opens h => cases h
  | closes h => cases h

theorem ne_finish : kind ≠ .finish := by
  rintro rfl
  cases h with
  | keeps h => cases h

/-- The look-ahead counts what is pending, and so does not notice. -/
theorem opensBlock_cons {t : Token} (ht : t.kind = kind) (brackets interpolations : Nat)
    (later : List Token) :
    opensBlock (brackets + pending.count .closeParen) (interpolations + pending.count .closeBrace)
        (t :: later) =
      opensBlock (brackets + pending'.count .closeParen)
        (interpolations + pending'.count .closeBrace) later := by
  rw [opensBlock, ht]
  cases h with
  | keeps h =>
      cases kind with
      | mark m => cases m <;> first | rfl | cases h
      | finish => cases h
      | _ => rfl
  | opens h =>
      cases h <;> simp [Nat.add_assoc]
  | closes h =>
      cases h <;> simp [← Nat.add_assoc]

/-- Counting parentheses comes to the same as the parentheses that are pending. -/
theorem deepen_count (depth : Nat) :
    kind.deepen (depth + pending.count .closeParen) = depth + pending'.count .closeParen := by
  cases h with
  | keeps h =>
      cases kind with
      | mark m => cases m <;> first | rfl | cases h
      | _ => rfl
  | opens h =>
      cases h <;> simp [deepen, Nat.add_assoc]
  | closes h =>
      cases h <;> simp [deepen, ← Nat.add_assoc]

end Token.Kind.Shifts

namespace Closes

variable {pending pending' : List Mark} {tokens more : List Token}

/-- What is pending in front is closed first, and then what is pending behind. -/
theorem append (h : Closes pending tokens) (h' : Closes pending' more) :
    Closes (pending ++ pending') (tokens ++ more) := by
  induction h with
  | nil => exact h'
  | cons h _ ih => exact .cons (h.append pending') ih

theorem hasNoBrace (h : Closes pending tokens) : HasNoBrace tokens := by
  induction h with
  | nil => exact List.forall_mem_nil _
  | cons h _ ih => exact List.forall_mem_cons.mpr ⟨h.ne_openBrace, ih⟩

/-- The look-ahead for a block finds what it would find from behind the tokens. -/
theorem opensBlock_append (h : Closes pending tokens) (brackets interpolations : Nat)
    (later : List Token) :
    opensBlock (brackets + pending.count .closeParen) (interpolations + pending.count .closeBrace)
      (tokens ++ later) = opensBlock brackets interpolations later := by
  induction h with
  | nil => rfl
  | cons h _ ih => exact (h.opensBlock_cons rfl brackets interpolations _).trans ih

/-- Behind the tokens, as many brackets are open as stand open around them. -/
theorem openBrackets_eq (h : Closes pending tokens) (depth : Nat) :
    openBrackets (depth + pending.count .closeParen) tokens = depth := by
  induction h with
  | nil => rfl
  | cons h _ ih =>
      rw [openBrackets, List.foldl_cons, h.deepen_count]
      exact ih

end Closes

/-! ## What a cursor moves over -/

namespace Cursor

variable {c d e : Cursor} {pending pending' : List Mark}

/-- Moving over tokens that close what is pending; or over tokens among which no brace opens, onto the
last token, where no cursor moves any further. -/
def Gets (pending : List Mark) (c d : Cursor) : Prop :=
  ∃ front, c.tokens = front ++ d.tokens ∧ (Closes pending front ∨ HasNoBrace front ∧ d.later = [])

theorem Gets.refl (c : Cursor) : Gets [] c c := ⟨[], rfl, .inl .nil⟩

/-- On the last token there is nothing to move over. -/
theorem eq_nil_of_last {front : List Token} (hc : c.later = []) (h : c.tokens = front ++ d.tokens) :
    front = [] ∧ d.later = [] := by
  have hlength := congrArg List.length h
  simp only [tokens, hc, List.length_append, List.length_cons, List.length_nil] at hlength
  exact ⟨List.eq_nil_of_length_eq_zero (by omega), List.eq_nil_of_length_eq_zero (by omega)⟩

theorem Gets.hasNoBrace (h : Gets pending c d) :
    ∃ front, c.tokens = front ++ d.tokens ∧ HasNoBrace front := by
  obtain ⟨front, hfront, hclosed | ⟨hbrace, -⟩⟩ := h
  · exact ⟨front, hfront, hclosed.hasNoBrace⟩
  · exact ⟨front, hfront, hbrace⟩

/-- A cursor moves on from where it has come to. If that is the last token, it does not move any
more. -/
theorem Gets.trans (h : Gets pending c d) (h' : Gets pending' d e) :
    Gets (pending ++ pending') c e := by
  obtain ⟨more, hmore, hmoved⟩ := h'
  obtain ⟨front, hfront, hclosed | ⟨hbrace, hlast⟩⟩ := h
  · refine ⟨front ++ more, by rw [hfront, hmore, List.append_assoc], ?_⟩
    rcases hmoved with hmoved | ⟨hbrace, hlast⟩
    · exact .inl (hclosed.append hmoved)
    · exact .inr ⟨List.forall_mem_append.mpr ⟨hclosed.hasNoBrace, hbrace⟩, hlast⟩
  · obtain ⟨rfl, hlast⟩ := eq_nil_of_last hlast hmore
    exact ⟨front, hfront.trans (congrArg (front ++ ·) hmore), .inr ⟨hbrace, hlast⟩⟩

/-- A cursor that moves at all leaves one token behind. -/
theorem tokens_advance (c : Cursor) :
    c.advance = c ∧ (c.current.kind = .finish ∨ c.later = []) ∨
      c.tokens = c.current :: c.advance.tokens := by
  unfold advance
  split
  next hfinish => exact .inl ⟨rfl, .inl hfinish⟩
  next hlater _ => exact .inr (by rw [tokens, hlater]; rfl)
  next hlater _ => exact .inl ⟨rfl, .inr hlater⟩

theorem advance_last (h : c.later = []) : c.advance = c := by
  rcases c.tokens_advance with ⟨hstays, -⟩ | hmoves
  · exact hstays
  · rw [tokens, h] at hmoves
    cases hmoves

/-- In front of other tokens, the next one is reached, but for the end of the file. -/
theorem tokens_advance_cons {t u : Token} {rest : List Token} (h : c.tokens = t :: u :: rest)
    (ht : t.kind ≠ .finish) : c.advance.tokens = u :: rest := by
  obtain ⟨hcurrent, hlater⟩ := List.cons.inj h
  rcases c.tokens_advance with ⟨-, hfinish | hlast⟩ | hmoves
  · exact absurd (hcurrent ▸ hfinish) ht
  · exact absurd (hlater.symm.trans hlast) (List.cons_ne_nil u rest)
  · exact (List.cons.inj (hmoves.symm.trans h)).2

/-- A first token, and the tokens from there on. -/
theorem Gets.cons (h : c.current.kind.Shifts pending pending') (hd : Gets pending' c.advance d) :
    Gets pending c d := by
  obtain ⟨front, hfront, hmoved⟩ := hd
  -- the cursor may be on the last token already, and then it does not move
  rcases c.tokens_advance with ⟨hstays, hfinish | hlast⟩ | hmoves
  · exact absurd hfinish h.ne_finish
  · rw [hstays] at hfront
    obtain ⟨rfl, hlast⟩ := eq_nil_of_last hlast hfront
    exact ⟨[], hfront, .inr ⟨List.forall_mem_nil _, hlast⟩⟩
  · refine ⟨c.current :: front, by rw [hmoves, hfront, List.cons_append], ?_⟩
    rcases hmoved with hmoved | ⟨hbrace, hlast⟩
    · exact .inl (.cons h hmoved)
    · exact .inr ⟨List.forall_mem_cons.mpr ⟨h.ne_openBrace, hbrace⟩, hlast⟩

/-- What is skipped passes the test, and what is met first does not, unless it is the last. -/
theorem tokens_skip (test : Token.Kind → Bool) (c : Cursor) :
    ∃ front, c.tokens = front ++ (c.skip test).tokens ∧ (∀ t ∈ front, test t.kind = true) ∧
      (test (c.skip test).current.kind = false ∨ (c.skip test).later = []) := by
  have hgo : ∀ later current stop, ∃ front,
      current :: later = front ++ (skip.go test c current stop later).tokens ∧
        (∀ t ∈ front, test t.kind = true) ∧
        (test (skip.go test c current stop later).current.kind = false ∨
          (skip.go test c current stop later).later = []) := by
    intro later
    induction later with
    | nil => exact fun current stop => ⟨[], rfl, List.forall_mem_nil _, .inr rfl⟩
    | cons next later ih =>
        intro current stop
        rw [skip.go]
        split
        next htest =>
          obtain ⟨front, hfront, hpass, hmet⟩ := ih next (some current.stop)
          exact ⟨current :: front, by rw [hfront]; rfl, List.forall_mem_cons.mpr ⟨htest, hpass⟩, hmet⟩
        next htest => exact ⟨[], rfl, List.forall_mem_nil _, .inl (Bool.not_eq_true _ ▸ htest)⟩
  exact hgo c.later c.current c.previousStop

/-- The first token that does not pass the test. -/
theorem current_skip {test : Token.Kind → Bool} {t : Token}
    (h : c.tokens.find? (fun t => !test t.kind) = some t) : (c.skip test).current = t := by
  obtain ⟨front, hfront, hpass, hmet⟩ := c.tokens_skip test
  have hnone : front.find? (fun t => !test t.kind) = none :=
    List.find?_eq_none.mpr fun t ht => by simp [hpass t ht]
  rw [hfront, List.find?_append, hnone, Option.none_or, tokens, List.find?_cons] at h
  split at h
  · exact Option.some.inj h
  next hpass =>
    rcases hmet with hmet | hlast
    · simp [hmet] at hpass
    · rw [hlast] at h
      cases h

/-- Blanks and comments leave nothing open. -/
theorem closes_of_isBlank {front : List Token} (h : ∀ t ∈ front, t.kind.isBlank = true) :
    Closes [] front := by
  induction front with
  | nil => exact .nil
  | cons t front ih =>
      obtain ⟨ht, hfront⟩ := List.forall_mem_cons.mp h
      refine .cons (.keeps ?_) (ih hfront)
      cases hkind : t.kind with
      | blank => rfl
      | comment => rfl
      | _ => rw [hkind] at ht; cases ht

theorem Gets.skipBlanks (c : Cursor) : Gets [] c (c.skip Token.Kind.isBlank) := by
  obtain ⟨front, hfront, hblank, -⟩ := c.tokens_skip Token.Kind.isBlank
  exact ⟨front, hfront, .inl (closes_of_isBlank hblank)⟩

end Cursor

/-! ## What a reader moves over -/

namespace Grammar

open Scss.Parser Token

variable {α β : Type} {At : Kind → Prop} {kind : Kind} {m : Parser α} {f : α → Parser β}
  {pending : List Mark} {c : Cursor}

theorem run_bind_of_ok {a : α} {d : Cursor} (h : m.run c = .ok (a, d)) :
    (m >>= f).run c = (f a).run d := by
  rw [StateT.run_bind, h]
  rfl

theorem run_token_bind (f : Token → Parser β) : (token >>= f).run c = (f c.current).run c := rfl

theorem run_over_bind (f : PUnit → Parser β) :
    (discard advance >>= f).run c = (f ⟨⟩).run c.advance := rfl

/-- Whatever the reader makes, the cursor stays where it is. -/
def Stays (m : Parser α) : Prop := ∀ c a d, m.run c = .ok (a, d) → d = c

/-- At a token of a certain kind, the reader moves over tokens that close what is pending. -/
def Moves (At : Kind → Prop) (m : Parser α) (pending : List Mark) : Prop :=
  ∀ c a d, At c.current.kind → m.run c = .ok (a, d) → c.Gets pending d

/-- Behind a token of that kind, the reader moves over the rest of what closes the pending. -/
def MovesBehind (kind : Kind) (m : Parser α) (pending : List Mark) : Prop :=
  ∀ c a d, m.run c = .ok (a, d) → ∃ pending', kind.Shifts pending pending' ∧ c.Gets pending' d

abbrev anyKind : Kind → Prop := fun _ => True

/-- Looking for a mark moves nothing, and tells what stands there. -/
theorem run_isAt (mark : Mark) (c : Cursor) :
    ∃ at?, (isAt mark).run c = .ok (at?, c) ∧ (at? = true → c.current.kind = .mark mark) := by
  have hpeek : peek.run c = .ok (c.current.kind, c) := rfl
  rw [isAt, run_bind_of_ok hpeek]
  cases c.current.kind with
  | mark n => exact ⟨_, rfl, fun h => by rw [eq_of_beq h]⟩
  | _ => exact ⟨false, rfl, by simp⟩

namespace Stays

protected theorem pure (a : α) : Stays (pure a) := by
  intro c b d hrun
  exact (Prod.mk.inj (Except.ok.inj hrun)).2.symm

protected theorem throw (failure : Failure) : Stays (throw failure : Parser α) :=
  fun _ _ _ h => nomatch h

protected theorem bind (hm : Stays m) (hf : ∀ a, Stays (f a)) : Stays (m >>= f) := by
  intro c b e hrun
  obtain ⟨⟨a, d⟩, ha, hb⟩ := bind_eq_ok_iff.mp hrun
  exact (hf a d b e hb).trans (hm c a d ha)

protected theorem get : Stays get := by
  intro c a d hrun
  exact (Prod.mk.inj (Except.ok.inj hrun)).2.symm

protected theorem token : Stays token := by
  intro c a d hrun
  exact (Prod.mk.inj (Except.ok.inj hrun)).2.symm

end Stays

namespace Moves

protected theorem pure (a : α) : Moves At (pure a) [] := by
  intro c b d _ hrun
  obtain ⟨-, rfl⟩ := Prod.mk.inj (Except.ok.inj hrun)
  exact .refl c

protected theorem throw (failure : Failure) : Moves At (throw failure : Parser α) pending :=
  fun _ _ _ _ h => nomatch h

theorem failAt (t : Token) (fault : SyntaxFault) : Moves At (Parser.failAt t fault : Parser α) pending :=
  Moves.throw _

theorem failExpected (t : Token) (what : String) :
    Moves At (Parser.failExpected t what : Parser α) pending := failAt _ _

theorem exhausted : Moves At (Parser.exhausted : Parser α) pending := Moves.throw _

protected theorem ite {p : Prop} [Decidable p] {m' : Parser α} (h : Moves At m pending)
    (h' : Moves At m' pending) : Moves At (if p then m else m') pending := by
  split
  · exact h
  · exact h'

theorem weaken (h : Moves anyKind m pending) : Moves At m pending :=
  fun c a d _ hrun => h c a d trivial hrun

/-- After a step that closes all that it opens. -/
theorem after (hm : Moves At m []) (hf : ∀ a, Moves anyKind (f a) pending) :
    Moves At (m >>= f) pending := by
  intro c b e hc hrun
  obtain ⟨⟨a, d⟩, ha, hb⟩ := bind_eq_ok_iff.mp hrun
  exact (hm c a d hc ha).trans (hf a d b e trivial hb)

/-- A step that closes the pending, and then others. -/
theorem andThen (hm : Moves At m pending) (hf : ∀ a, Moves anyKind (f a) []) :
    Moves At (m >>= f) pending := by
  intro c b e hc hrun
  obtain ⟨⟨a, d⟩, ha, hb⟩ := bind_eq_ok_iff.mp hrun
  have hmoved := (hm c a d hc ha).trans (hf a d b e trivial hb)
  rwa [List.append_nil] at hmoved

/-- After a step that moves nothing, the cursor is at the same token. -/
theorem stays_bind (hm : Stays m) (hf : ∀ a, Moves At (f a) pending) : Moves At (m >>= f) pending := by
  intro c b e hc hrun
  obtain ⟨⟨a, d⟩, ha, hb⟩ := bind_eq_ok_iff.mp hrun
  obtain rfl := hm c a d ha
  exact hf a d b e hc hb

/-- What is done next depends on the kind of the token there. -/
theorem peek_bind {f : Kind → Parser β} (h : ∀ kind, At kind → Moves (· = kind) (f kind) pending) :
    Moves At (peek >>= f) pending :=
  fun c b d hc hrun => h c.current.kind hc c b d rfl hrun

/-- A step over a token whose kind decides what is done behind it. -/
theorem advance_bind {f : Token → Parser β}
    (h : ∀ t kind, t.kind = kind → At kind → MovesBehind kind (f t) pending) :
    Moves At (advance >>= f) pending := by
  intro c b d hc hrun
  obtain ⟨pending', hshifts, hmoved⟩ := h c.current _ rfl hc c.advance b d hrun
  exact .cons hshifts hmoved

/-- A step over a token whose kind is known already. -/
theorem over_bind {f : PUnit → Parser β} (h : MovesBehind kind (f ⟨⟩) pending) :
    Moves (· = kind) (discard advance >>= f) pending := by
  intro c b d hc hrun
  obtain ⟨pending', hshifts, hmoved⟩ := h c.advance b d hrun
  exact .cons (hc ▸ hshifts) hmoved

theorem skipBlanks : Moves At skipBlanks [] := by
  intro c a d _ hrun
  obtain ⟨-, rfl⟩ := Prod.mk.inj (Except.ok.inj hrun)
  exact .skipBlanks c

theorem skipBlanks_bind {f : PUnit → Parser β} (h : Moves anyKind (f ⟨⟩) pending) :
    Moves At (discard Parser.skipBlanks >>= f) pending :=
  after (skipBlanks.after fun _ => Moves.pure _) fun _ => h

/-- Of two ways to go on, the one for a mark is taken only at that mark. -/
theorem isAt_and_ite {mark : Mark} {also : Bool} {yes no : Parser β}
    (hyes : Moves (· = .mark mark) yes pending) (hno : Moves At no pending) :
    Moves At (isAt mark >>= fun at? => if (also && at?) = true then yes else no) pending := by
  intro c b d hc hrun
  obtain ⟨at?, hat, hmark⟩ := run_isAt mark c
  obtain ⟨⟨at?', c'⟩, hat', hrun⟩ := bind_eq_ok_iff.mp hrun
  obtain ⟨rfl, rfl⟩ := Prod.mk.inj (Except.ok.inj (hat.symm.trans hat'))
  dsimp only at hrun
  split at hrun
  next h => exact hyes c b d (hmark (Bool.and_eq_true_iff.mp h).2) hrun
  next => exact hno c b d hc hrun

theorem isAt_ite {mark : Mark} {yes no : Parser β} (hyes : Moves (· = .mark mark) yes pending)
    (hno : Moves At no pending) :
    Moves At (isAt mark >>= fun at? => if at? = true then yes else no) pending :=
  @isAt_and_ite _ _ _ _ true _ _ hyes hno

end Moves

namespace MovesBehind

theorem throw (failure : Failure) : MovesBehind kind (throw failure : Parser α) pending :=
  fun _ _ _ h => nomatch h

theorem failAt (t : Token) (fault : SyntaxFault) :
    MovesBehind kind (Parser.failAt t fault : Parser α) pending := throw _

theorem failExpected (t : Token) (what : String) :
    MovesBehind kind (Parser.failExpected t what : Parser α) pending := throw _

/-- Behind a token that opens and closes nothing, the pending is the same. -/
theorem keeps (h : kind.isNeutral = true) (hm : Moves anyKind m pending) : MovesBehind kind m pending :=
  fun c a d hrun => ⟨pending, .keeps h, hm c a d trivial hrun⟩

/-- Behind a mark that opens, its counterpart is pending as well. -/
theorem opens {opening closing : Mark} (h : opening.Pairs closing)
    (hm : Moves anyKind m (closing :: pending)) : MovesBehind (.mark opening) m pending :=
  fun c a d hrun => ⟨_, .opens h, hm c a d trivial hrun⟩

/-- Behind a mark that was pending, it is not any more. -/
theorem closes {opening closing : Mark} (h : opening.Pairs closing) (hm : Moves anyKind m pending) :
    MovesBehind (.mark closing) m (closing :: pending) :=
  fun c a d hrun => ⟨_, .closes h, hm c a d trivial hrun⟩

end MovesBehind

namespace Moves

/-- A mark that has to stand here is taken up, and nothing else is. -/
theorem expect {opening closing : Mark} (h : opening.Pairs closing) (what : String) :
    Moves At (expect closing what) [closing] :=
  isAt_ite (over_bind (.closes h (Moves.pure _))) (stays_bind .token fun _ => failExpected _ _)

/-- Three dots. -/
theorem takeEllipsis : Moves At takeEllipsis [] := by
  intro c a d _ hrun
  have hdot : ∀ {c d : Cursor}, c.current.kind = .mark .dot → c.advance.Gets [] d → c.Gets [] d :=
    fun hc => .cons (.keeps (hc ▸ rfl))
  obtain ⟨hdots, rfl⟩ | rfl : c.atEllipsis = true ∧ d = c.advance.advance.advance ∨ d = c := by
    rw [Parser.takeEllipsis, StateT.run_bind, StateT.run_get, pure_bind] at hrun
    split at hrun
    next hdots => exact .inl ⟨hdots, (Prod.mk.inj (Except.ok.inj hrun)).2.symm⟩
    next => exact .inr (Prod.mk.inj (Except.ok.inj hrun)).2.symm
  · unfold Cursor.atEllipsis at hdots
    split at hdots
    next htokens =>
      have hsecond := Cursor.tokens_advance_cons htokens nofun
      have hthird := Cursor.tokens_advance_cons hsecond nofun
      have hkind : ∀ {c : Cursor} {t : Token} {rest : List Token}, c.tokens = t :: rest →
          c.current.kind = t.kind := fun h => congrArg Token.kind (List.cons.inj h).1
      exact hdot (hkind htokens) (hdot (hkind hsecond) (hdot (hkind hthird) (.refl _)))
    next => cases hdots
  · exact .refl _

end Moves

/-! ## Values -/

/-- Operators are no brackets. -/
theorem isNeutral_of_operatorOf? {op : Operator} (h : operatorOf? kind = some op) :
    kind.isNeutral = true := by
  unfold operatorOf? at h
  split at h <;> first | rfl | cases h

/-- The text of a token is read with a cursor of its own. -/
theorem wholeValue_stays (fuel : Nat) (text : List Char) (origin : Position) :
    Stays (wholeValue fuel text origin) := by
  cases fuel with
  | zero => exact Stays.throw _
  | succ fuel =>
      intro c a d hrun
      have hafter : ∀ {γ : Type} {m : Parser γ} {f : γ → Parser Value},
          (∀ b c', (f b).run c' = .ok (a, d) → d = c) → ∀ c', (m >>= f).run c' = .ok (a, d) → d = c := by
        intro γ m f hf c' hrun
        obtain ⟨⟨b, c''⟩, -, hrun⟩ := bind_eq_ok_iff.mp hrun
        exact hf b c'' hrun
      rw [wholeValue, StateT.run_bind, StateT.run_get, pure_bind] at hrun
      refine hafter (fun tokens => hafter fun _ => hafter fun _ => hafter fun value => hafter fun _ =>
        hafter fun kind c' hend => ?_) c hrun
      split at hend
      · exact (Prod.mk.inj (Except.ok.inj hend)).2.symm
      · cases hend

/-- So are the expressions in the text of a token. -/
theorem textParts_stays (fuel : Nat) (origin : Position) (text : List Char) :
    Stays (textParts fuel origin text) := by
  induction fuel generalizing text with
  | zero => exact Stays.throw _
  | succ fuel ih =>
      rw [textParts]
      split
      · exact Stays.pure _
      split
      · exact Stays.throw _
      exact (wholeValue_stays _ _ _).bind fun _ => (ih _).bind fun _ => Stays.pure _

/-- A name in front of an argument has a colon behind it. -/
theorem argumentName_moves : Moves anyKind arguments.argumentName [] := by
  rw [arguments.argumentName]
  refine Moves.peek_bind fun kind _ => ?_
  split
  next name =>
    intro c a d hkind hrun
    rw [StateT.run_bind, StateT.run_get, pure_bind] at hrun
    split at hrun
    next hcolon =>
      obtain ⟨-, rfl⟩ := Prod.mk.inj (Except.ok.inj hrun)
      -- the colon is what the cursor comes to behind the name and blanks
      have hat : (c.advance.skip Kind.isBlank).current.kind = .mark .colon := by
        unfold Cursor.colonFollows at hcolon
        split at hcolon
        next hfind =>
          -- there are other tokens behind the name, so the cursor gets to the first of them
          have hlater : c.advance.tokens = c.later := by
            cases hlater : c.later with
            | nil =>
                rw [hlater] at hfind
                cases hfind
            | cons u rest =>
                exact Cursor.tokens_advance_cons (congrArg (c.current :: ·) hlater) (hkind ▸ nofun)
          rw [← hlater] at hfind
          rw [Cursor.current_skip hfind]
        next => cases hcolon
      have hkeeps : ∀ {c d : Cursor}, c.current.kind.isNeutral = true → c.advance.Gets [] d →
          c.Gets [] d := fun h => .cons (.keeps h)
      exact hkeeps (hkind ▸ rfl) ((Cursor.Gets.skipBlanks _).trans
        (hkeeps (hat ▸ rfl) (Cursor.Gets.skipBlanks _)))
    next =>
      obtain ⟨-, rfl⟩ := Prod.mk.inj (Except.ok.inj hrun)
      exact .refl _
  · exact Moves.pure _

/-- With some fuel, the readers of values move over tokens that are balanced. -/
structure MovesOn (fuel : Nat) : Prop where
  valueList : Moves anyKind (valueList fuel) []
  moreItems : Moves anyKind (moreItems fuel) []
  spaceExpression : ∀ stops, Moves anyKind (spaceExpression fuel stops) []
  expressionTokens : ∀ stops isFirst, Moves anyKind (expressionTokens fuel stops isFirst) []
  primary : Moves anyKind (primary fuel) []
  wordOrCall : ∀ name, Moves anyKind (wordOrCall fuel name) []
  interpolatedWord : ∀ parts, Moves anyKind (interpolatedWord fuel parts) []
  arguments : Moves anyKind (arguments fuel) [.closeParen]
  embedded : Moves (· = .mark .interpolation) (embedded fuel) []

section
open Moves
variable {fuel : Nat} (ih : MovesOn fuel)
include ih

theorem valueList_moves : Moves anyKind (valueList (fuel + 1)) [] := by
  rw [valueList]
  refine (ih.spaceExpression []).after fun first => skipBlanks_bind ?_
  exact isAt_ite (ih.moreItems.weaken.after fun _ => Moves.pure _) (Moves.pure _)

theorem moreItems_moves : Moves anyKind (moreItems (fuel + 1)) [] := by
  rw [moreItems]
  refine isAt_ite (over_bind (.keeps rfl (skipBlanks_bind ?_))) (Moves.pure _)
  -- behind a comma the list may end
  refine peek_bind fun kind _ => Moves.ite (Moves.pure _) ?_
  refine (ih.spaceExpression []).weaken.after fun item => skipBlanks_bind ?_
  exact ih.moreItems.after fun _ => Moves.pure _

/-- An expression is made of tokens up to one that ends it; there is at least one. -/
theorem spaceExpression_moves (stops : List String) :
    Moves anyKind (spaceExpression (fuel + 1) stops) [] := by
  rw [spaceExpression]
  refine (ih.expressionTokens stops true).after fun tokens => Moves.ite ?_ (Moves.pure _)
  exact stays_bind .token fun _ => failExpected _ _

/-- An operator is one token, and an operand is read by itself. -/
theorem expressionTokens_moves (stops : List String) (isFirst : Bool) :
    Moves anyKind (expressionTokens (fuel + 1) stops isFirst) [] := by
  rw [expressionTokens]
  refine skipBlanks.after fun spaced => ?_
  refine peek_bind fun kind _ => Moves.ite (Moves.pure _) ?_
  have hmore : Moves anyKind (Grammar.expressionTokens fuel stops false) [] :=
    ih.expressionTokens stops false
  split
  next op hop =>
    refine over_bind (.keeps (isNeutral_of_operatorOf? hop) ?_)
    exact hmore.after fun _ => Moves.pure _
  next =>
    exact ih.primary.weaken.after fun operand => hmore.after fun _ => Moves.pure _

/-- An operand is one token, a call, a word with interpolations, or a value in parentheses. -/
theorem primary_moves : Moves anyKind (primary (fuel + 1)) [] := by
  rw [primary]
  refine isAt_ite (ih.interpolatedWord []).weaken (advance_bind fun t kind hkind _ => ?_)
  rw [hkind]
  have htext : ∀ {text : String} {f : Interpolation → Value},
      Moves anyKind (do return f (← textParts fuel t.position text.toList)) [] :=
    stays_bind (textParts_stays _ _ _) fun _ => Moves.pure _
  -- one case for each kind of token: only a parenthesis opens a group
  split
  · exact .keeps rfl (Moves.pure _)
  · exact .keeps rfl (Moves.pure _)
  · exact .keeps rfl (Moves.ite htext (Moves.pure _))
  · exact .keeps rfl (Moves.pure _)
  · refine .keeps rfl (Moves.ite ?_ ?_)
    · exact stays_bind (textParts_stays _ _ _) fun _ => Moves.pure _
    · exact Moves.pure _
  · exact .keeps rfl (ih.wordOrCall _)
  · refine .opens .group (skipBlanks_bind (isAt_ite ?_ ?_))
    -- an empty list, or a value that is closed
    · exact over_bind (.closes .group (Moves.pure _))
    · refine ih.valueList.after fun inner => skipBlanks_bind ?_
      exact (Moves.expect .group _).andThen fun _ => Moves.pure _
  · exact .keeps rfl (Moves.pure _)
  · exact .keeps rfl (Moves.pure _)
  · exact .failAt _ _

/-- A parenthesis that touches a name opens its arguments. -/
theorem wordOrCall_moves (name : String) : Moves anyKind (wordOrCall (fuel + 1) name) [] := by
  rw [wordOrCall]
  -- a call, a word that goes on with an interpolation, and a name alone
  refine stays_bind .get fun c => isAt_and_ite ?_ (isAt_and_ite ?_ (Moves.ite ?_ ?_))
  · exact over_bind (.opens .group (ih.arguments.andThen fun _ => Moves.pure _))
  · exact (ih.interpolatedWord _).weaken
  · exact Moves.pure _
  · exact Moves.pure _

/-- The pieces of a word touch each other, and each interpolation in it is closed. -/
theorem interpolatedWord_moves (parts : Interpolation) :
    Moves anyKind (interpolatedWord (fuel + 1) parts) [] := by
  rw [interpolatedWord]
  have hword : ∀ {kind : Kind}, kind.isNeutral = true → Moves (· = kind) (do
      let t ← advance
      Grammar.interpolatedWord fuel (parts ++ [.literal t.text])) [] := fun h =>
    advance_bind fun t _ _ heq => .keeps (heq ▸ h) (ih.interpolatedWord _)
  refine stays_bind .get fun c => Moves.ite (Moves.pure _) (peek_bind fun kind _ => ?_)
  split
  · exact ih.embedded.after fun inner => ih.interpolatedWord _
  · exact hword rfl
  · exact hword rfl
  · exact hword rfl
  · exact Moves.pure _

/-- Arguments are read up to the parenthesis that closes them, and with it. -/
theorem arguments_moves : Moves anyKind (arguments (fuel + 1)) [.closeParen] := by
  rw [arguments]
  refine skipBlanks_bind (isAt_ite (over_bind (.closes .group (Moves.pure _))) ?_)
  refine argumentName_moves.after fun name => (ih.spaceExpression []).after fun value => ?_
  refine takeEllipsis.after fun splat => skipBlanks_bind (advance_bind fun t kind hkind _ => ?_)
  rw [hkind]
  -- behind an argument stands a comma or the parenthesis that closes them all
  split
  · exact .keeps rfl (ih.arguments.andThen fun _ => Moves.pure _)
  · exact .closes .group (Moves.pure _)
  · exact .failExpected _ _

/-- An interpolation is read with the brace that closes it. -/
theorem embedded_moves : Moves (· = .mark .interpolation) (embedded (fuel + 1)) [] := by
  rw [embedded]
  refine over_bind (.opens .embedding (skipBlanks_bind ?_))
  refine ih.valueList.after fun value => skipBlanks_bind ?_
  exact (Moves.expect .embedding _).andThen fun _ => Moves.pure _

end

/-- **Every reader of values moves over tokens that are balanced.** -/
theorem movesOn (fuel : Nat) : MovesOn fuel := by
  induction fuel with
  | zero => constructor <;> intros <;> exact Moves.exhausted
  | succ fuel ih =>
      exact ⟨valueList_moves ih, moreItems_moves ih, spaceExpression_moves ih,
        expressionTokens_moves ih, primary_moves ih, wordOrCall_moves ih, interpolatedWord_moves ih,
        arguments_moves ih, embedded_moves ih⟩

end Grammar

end Scss
