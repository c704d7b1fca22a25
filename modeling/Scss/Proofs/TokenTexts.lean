import Scss.Proofs.ScanLocality
import Scss.Proofs.Parts

/-!
# Texts put together of tokens

The tokens of a text were found along it, each in front of what stands behind it (`FoundAlong`), and so
they are without its comments. Put together again they have a space for each blank and nothing for a
comment (`pieces`). What it takes for them to be read again is said here of the tokens themselves: that
nothing joins where comments are left out (`KeptApart`), and that trimming takes no blank from the last
token (`KeepsEnd`).
-/

namespace Scss.Token

open Text

/-! ## Where a token was read -/

/-- In front of some text, the text of the token is read as this token. -/
def ReadsBefore (signed : Bool) (t : Token) (behind : List Char) : Prop :=
  ∃ c more, t.text.toList = c :: more ∧ scan signed c (more ++ behind) = .token t.kind more

/-- A token found in a text. In front of it is a gap, of comments if it is not empty. -/
structure Found (signed : Bool) (offset : Nat) (cs : List Char) (t : Token)
    (gap behind : List Char) : Prop where
  split : cs = gap ++ (t.text.toList ++ behind)
  slash : ∀ c ∈ gap.head?, c = '/'
  start : t.start = offset + gap.length
  stop : t.stop = t.start + t.text.toList.length
  reads : t.ReadsBefore signed behind

theorem not_finish_of_scan {signed : Bool} {c : Char} {rest more : List Char} {kind : Kind}
    (h : scan signed c rest = .token kind more) : kind ≠ .finish := by
  have hfits := scan_fits signed c rest
  rw [h] at hfits
  exact hfits.1

/-- The first token of a text is its end, or the text goes on behind it. -/
theorem readFrom_cons {signed : Bool} {place : Position} {offset : Nat} {cs : List Char} {t : Token}
    {ts : List Token} (h : readFrom signed place offset 0 cs = .ok (t :: ts)) :
    (t.kind = .finish ∧ ts = [] ∧ ∀ c ∈ cs.head?, c = '/') ∨
      ∃ gap behind place', Found signed offset cs t gap behind ∧
        readFrom (!t.kind.endsOperand) place' t.stop 0 behind = .ok ts := by
  -- a comment to the end of a line leaves less of the text
  induction hlength : cs.length using Nat.strong_induction_on generalizing place offset cs with
  | h n ih =>
      cases cs with
      | nil =>
          obtain ⟨rfl, rfl⟩ := List.cons.inj (Except.ok.inj h)
          exact .inl ⟨rfl, rfl, nofun⟩
      | cons first rest =>
          rcases readFrom_step h with ⟨kind, more, behind, later, rfl, hscan, -, hlater, hcons⟩ |
            ⟨line, behind, rfl, rfl, -, -, h⟩
          · obtain ⟨rfl, rfl⟩ := List.cons.inj hcons
            refine .inr ⟨[], behind, _, ⟨?_, nofun, rfl, ?_, first, more, ?_, hscan⟩, hlater⟩
            · rw [String.toList_ofList]
              rfl
            · rw [String.toList_ofList]
              rfl
            · rw [String.toList_ofList]
          · have hshorter : behind.length < n := by
              rw [← hlength, List.length_cons, List.length_append]
              omega
            rcases ih _ hshorter h rfl with ⟨hfinish, hnone, -⟩ | ⟨gap, after, place', hfound, hts⟩
            · refine .inl ⟨hfinish, hnone, ?_⟩
              rintro c ⟨⟩
              rfl
            · refine .inr ⟨'/' :: '/' :: line ++ gap, after, place', ⟨?_, ?_, ?_, ?_, ?_⟩, hts⟩
              · rw [hfound.split, List.append_assoc]
                rfl
              · rintro c ⟨⟩
                rfl
              · rw [hfound.start]
                simp only [List.length_append, List.length_cons]
                omega
              · exact hfound.stop
              · exact hfound.reads

theorem spells_of_readFrom {signed : Bool} {place : Position} {offset : Nat} {cs : List Char}
    {ts : List Token} (h : readFrom signed place offset 0 cs = .ok ts) :
    ∀ t ∈ ts, t.kind.Spells t.text.toList := by
  induction ts generalizing signed place offset cs with
  | nil => exact List.forall_mem_nil _
  | cons t ts ih =>
      rcases readFrom_cons h with ⟨hfinish, rfl, -⟩ | ⟨gap, behind, place', hfound, hlater⟩
      · rw [List.forall_mem_singleton, hfinish]
        trivial
      · obtain ⟨c, more, htext, hscan⟩ := hfound.reads
        have hspells := scan_spells signed c (more ++ behind)
        rw [hscan] at hspells
        exact List.forall_mem_cons.mpr ⟨htext ▸ hspells, ih hlater⟩

/-! ## Tokens without comments -/

def Kind.isComment : Kind → Bool
  | .comment _ => true
  | _ => false

/-- The tokens that are no comments. -/
def kept (ts : List Token) : List Token := ts.filter fun t => !t.kind.isComment

theorem kept_cons_of_comment {t : Token} (h : t.kind.isComment = true) (ts : List Token) :
    kept (t :: ts) = kept ts := List.filter_cons_of_neg (by simp [h])

theorem kept_cons {t : Token} (h : t.kind.isComment = false) (ts : List Token) :
    kept (t :: ts) = t :: kept ts := List.filter_cons_of_pos (by simp [h])

/-- The tokens of a text that are no comments. What a comment leaves is a gap, behind which a dash can
begin a number. -/
inductive FoundAlong : Bool → Nat → List Char → List Token → Prop
  | finish {signed : Bool} {offset : Nat} {cs : List Char} {t : Token} (hkind : t.kind = .finish)
      (hslash : ∀ c ∈ cs.head?, c = '/') : FoundAlong signed offset cs [t]
  | cons {signed signed' : Bool} {offset : Nat} {cs gap behind : List Char} {t : Token}
      {ts : List Token} (hcomment : t.kind.isComment = false)
      (hfound : Found signed' offset cs t gap behind) (hsame : gap = [] → signed' = signed)
      (hsigned : signed = true → signed' = true)
      (hbehind : FoundAlong (!t.kind.endsOperand) t.stop behind ts) :
      FoundAlong signed offset cs (t :: ts)

namespace FoundAlong

variable {signed signed' : Bool} {offset : Nat} {cs gap : List Char} {ts : List Token}

theorem behindGap (h : FoundAlong signed' (offset + gap.length) cs ts) (hgap : gap ≠ [])
    (hslash : ∀ c ∈ gap.head?, c = '/') (hsigned : signed = true → signed' = true) :
    FoundAlong signed offset (gap ++ cs) ts := by
  have hhead : ∀ more, ∀ c ∈ (gap ++ more).head?, c = '/' := fun more c hc =>
    hslash c (List.head?_append_of_ne_nil _ hgap ▸ hc)
  cases h with
  | finish hkind _ => exact .finish hkind (hhead cs)
  | @cons _ s _ _ gap' behind t ts hcomment hfound hsame hsigned' hbehind =>
      refine .cons hcomment ⟨?_, hhead gap', ?_, hfound.stop, hfound.reads⟩ ?_ ?_ hbehind
      · rw [hfound.split, List.append_assoc]
      · rw [hfound.start, List.length_append, Nat.add_assoc]
      · exact fun hnil => absurd (List.append_eq_nil_iff.mp hnil).1 hgap
      · exact fun h => hsigned' (hsigned h)

end FoundAlong

theorem readFrom_ne_nil {signed : Bool} {place : Position} {offset : Nat} {cs : List Char}
    {ts : List Token} (h : readFrom signed place offset 0 cs = .ok ts) : ts ≠ [] := by
  have hyields := readFrom_yields signed (rfl : place.uri = place.uri) offset (Nat.zero_le cs.length)
  rw [h] at hyields
  obtain ⟨last, hlast, -⟩ := hyields.1.terminated
  rintro rfl
  cases hlast

/-- The tokens that are read of a text, without its comments. -/
theorem foundAlong_of_readFrom {signed : Bool} {place : Position} {offset : Nat} {cs : List Char}
    {ts : List Token} (h : readFrom signed place offset 0 cs = .ok ts) :
    FoundAlong signed offset cs (kept ts) := by
  induction ts generalizing signed place offset cs with
  | nil => exact absurd rfl (readFrom_ne_nil h)
  | cons t ts ih =>
      rcases readFrom_cons h with ⟨hfinish, rfl, hslash⟩ | ⟨gap, behind, place', hfound, hlater⟩
      · rw [kept_cons (by rw [hfinish]; rfl)]
        exact .finish hfinish hslash
      · have hbehind := ih hlater
        -- a comment is left out: its text goes to the gap in front of the next token
        cases hcomment : t.kind.isComment with
        | false =>
            rw [kept_cons hcomment]
            exact .cons hcomment hfound (fun _ => rfl) id hbehind
        | true =>
            have hoperand : t.kind.endsOperand = false := by
              cases hkind : t.kind <;> simp_all [Kind.isComment, Kind.endsOperand]
            obtain ⟨c, more, htext, hscan⟩ := hfound.reads
            have hc : c = '/' := by
              have hspells := scan_spells signed c (more ++ behind)
              rw [hscan] at hspells
              cases hkind : t.kind <;> simp_all [Kind.isComment, Scan.Spells, Kind.Spells]
            have hsplit : cs = gap ++ t.text.toList ++ behind := by
              rw [hfound.split, List.append_assoc]
            have hstop : t.stop = offset + (gap ++ t.text.toList).length := by
              rw [hfound.stop, hfound.start, List.length_append, Nat.add_assoc]
            rw [hoperand, hstop] at hbehind
            rw [kept_cons_of_comment hcomment, hsplit]
            refine hbehind.behindGap (by simp [htext]) ?_ fun _ => rfl
            intro d hd
            cases gap with
            | cons e gap => exact hfound.slash d hd
            | nil =>
                rw [List.nil_append, htext] at hd
                exact (Option.some.inj hd).symm.trans hc

/-- Where the tokens behind some others are read. -/
theorem readFrom_behind {signed : Bool} {place : Position} {offset : Nat} {cs : List Char}
    {before ts : List Token} (h : readFrom signed place offset 0 cs = .ok (before ++ ts))
    (hts : ts ≠ []) (hsigned : before = [] → signed = true)
    (hbefore : ∀ t ∈ before.getLast?, t.kind.endsOperand = false) :
    ∃ place' offset' cs', readFrom true place' offset' 0 cs' = .ok ts := by
  induction before generalizing signed place offset cs with
  | nil => exact ⟨place, offset, cs, hsigned rfl ▸ h⟩
  | cons t before ih =>
      rcases readFrom_cons h with ⟨-, hnil, -⟩ | ⟨gap, behind, place', -, hlater⟩
      · exact absurd (List.append_eq_nil_iff.mp hnil).2 hts
      · refine ih hlater ?_ fun u hu => ?_
        · rintro rfl
          rw [hbefore t rfl]
          rfl
        · refine hbefore u ?_
          rw [List.getLast?_cons, Option.mem_def.mp hu]
          rfl

/-! ## A text put together of tokens -/

/-- What a token is in a text that is put together of tokens: a blank is a space, a comment nothing. -/
def piece (t : Token) : List Char :=
  match t.kind with
  | .blank => [' ']
  | .comment _ => []
  | _ => t.text.toList

def pieces (ts : List Token) : List Char := ts.flatMap piece

/-- The kinds of tokens, but for comments and the end of the text. Blanks that follow one another are
one, and behind the last token are none. `spaced` tells whether there is a blank in front. -/
def tidy (spaced : Bool) : List Kind → List Kind
  | [] => []
  | .blank :: kinds => tidy true kinds
  | .comment _ :: kinds | .finish :: kinds => tidy spaced kinds
  | kind :: kinds => (if spaced then [.blank] else []) ++ kind :: tidy false kinds

/-- What was read, without comments and blanks at the ends, and with one blank for any number of them. -/
def gist (ts : List Token) : List Kind := tidy false ((ts.map (·.kind)).dropWhile Kind.isBlank)

/-- Nothing joins where the comments among tokens are left out. Tokens that touched may touch again. Of
two that did not, the first ends in front of the second, and the second is behind the first what it was
behind the comment. -/
def KeptApart : Bool → List Token → Prop
  | signed, t :: u :: ts =>
    (t.kind.isBlank = true ∨ t.stop = u.start ∨
      t.ReadsBefore signed u.piece ∧ u.ReadsBefore (!t.kind.endsOperand) []) ∧
      KeptApart (!t.kind.endsOperand) (u :: ts)
  | _, _ => True

/-- Without the comments in front of it, the token is read with the sign that it had behind them: there
are none, or a sign may stand here too, or it is read here by itself as it was. -/
def KeepsSign (signed : Bool) (offset : Nat) (t : Token) : Prop :=
  t.start = offset ∨ signed = true ∨ t.ReadsBefore signed []

/-- The last token that is no blank has no blank at its end, except for a sign without a flag. -/
def KeepsEnd (ts : List Token) : Prop :=
  ∀ t ∈ (ts.filter fun t => !t.kind.isBlank).getLast?,
    t.kind = .stray '!' ∨ ∀ c ∈ t.text.toList.getLast?, isBlank c = false

/-- Something stands behind each parenthesis, unless the text ends behind the tokens. -/
def Grouped (ts rest : List Token) : Prop :=
  ∀ t more, t :: more <:+ ts → t.kind = .mark .openParen →
    (∃ u ∈ more, u.kind.isBlank = false) ∨ ∀ u ∈ rest.head?, u.kind = .finish

section

variable {t : Token} {ts rest : List Token} {signed : Bool}

theorem KeptApart.tail (h : KeptApart signed (t :: ts)) : KeptApart (!t.kind.endsOperand) ts := by
  cases ts with
  | nil => trivial
  | cons u ts => exact h.2

theorem KeptApart.keepsSign (h : KeptApart signed (t :: ts)) (hblank : t.kind.isBlank = false) :
    ∀ u ∈ ts.head?, KeepsSign (!t.kind.endsOperand) t.stop u := by
  intro u hu
  cases ts with
  | nil => cases hu
  | cons v ts =>
      obtain rfl := Option.some.inj hu
      rcases h.1 with hnot | hstart | ⟨-, hagain⟩
      · exact absurd hnot (Bool.eq_false_iff.mp hblank)
      · exact .inl hstart.symm
      · exact .inr (.inr hagain)

theorem KeepsEnd.tail (h : KeepsEnd (t :: ts)) : KeepsEnd ts := by
  intro u hu
  refine h u ?_
  rw [List.filter_cons]
  split
  · rw [List.getLast?_cons, Option.mem_def.mp hu]
    rfl
  · exact hu

theorem Grouped.tail (h : Grouped (t :: ts) rest) : Grouped ts rest := fun u more hmore =>
  h u more (hmore.trans (List.suffix_cons t ts))

end

/-! ## What trimming leaves -/

theorem dropBlanksEnd_append_of_blank {ds : List Char} (hds : dropBlanksEnd ds = []) (cs : List Char) :
    dropBlanksEnd (cs ++ ds) = dropBlanksEnd cs := by
  have hblank : ∀ c ∈ ds.reverse, isBlank c = true := fun c hc =>
    List.rdropWhile_eq_nil_iff.mp hds c (List.mem_reverse.mp hc)
  rw [dropBlanksEnd, dropBlanks, List.reverse_append, List.dropWhile_append_of_pos hblank]
  rfl

theorem dropBlanksEnd_append_of_ne_nil {ds : List Char} (hds : dropBlanksEnd ds ≠ [])
    (cs : List Char) : dropBlanksEnd (cs ++ ds) = cs ++ dropBlanksEnd ds := by
  have hne : ¬(ds.reverse.dropWhile isBlank).isEmpty = true := fun hnil =>
    hds (congrArg List.reverse (List.isEmpty_iff.mp hnil))
  rw [dropBlanksEnd, dropBlanks, List.reverse_append, List.dropWhile_append, if_neg hne,
    List.reverse_append, List.reverse_reverse]
  rfl

theorem dropBlanksEnd_cons {c : Char} (hc : isBlank c = false) (cs : List Char) :
    dropBlanksEnd (c :: cs) = c :: dropBlanksEnd cs := by
  by_cases hnil : dropBlanksEnd cs = []
  · rw [hnil]
    exact (dropBlanksEnd_append_of_blank hnil [c]).trans
      (IsTrimmed.singleton hc).dropBlanksEnd_eq
  · exact dropBlanksEnd_append_of_ne_nil hnil [c]

theorem dropBlanksEnd_of_getLast {cs : List Char} (h : ∀ c ∈ cs.getLast?, isBlank c = false) :
    dropBlanksEnd cs = cs := by
  refine List.rdropWhile_eq_self_iff.mpr fun hne => ?_
  rw [h _ (List.getLast?_eq_some_getLast hne)]
  exact Bool.false_ne_true

/-! ## What a token and what is behind it -/

/-- A token is a blank where its text begins with one. -/
theorem isBlank_of_scan {signed : Bool} {c : Char} {rest more : List Char} {kind : Kind}
    (h : scan signed c rest = .token kind more) (hc : isBlank c = true) :
    kind = .blank ∧ more = rest.takeWhile isBlank := by
  unfold scan at h
  rw [if_pos hc] at h
  obtain ⟨rfl, rfl⟩ := Scan.token.inj h
  exact ⟨rfl, rfl⟩

theorem isBlank_eq_of_scan {signed : Bool} {c : Char} {rest more : List Char} {kind : Kind}
    (h : scan signed c rest = .token kind more) (hcomment : kind.isComment = false) :
    kind.isBlank = isBlank c := by
  cases hc : isBlank c with
  | true => rw [(isBlank_of_scan h hc).1, Kind.isBlank]
  | false =>
      have hspells := scan_spells signed c rest
      rw [h] at hspells
      cases kind with
      | blank => exact absurd (hspells c List.mem_cons_self) (Bool.eq_false_iff.mp hc)
      | comment => cases hcomment
      | _ => rfl

/-- Whether a token begins with a point and a digit tells whether it is a number. -/
theorem digit_of_scan {signed : Bool} {rest more : List Char} {kind : Kind}
    (h : scan signed '.' rest = .token kind more) :
    rest.head?.any Char.isDigit = true ↔ ∃ value unit, kind = .number value unit := by
  rw [scan_dot] at h
  split at h
  next hdigit =>
    obtain ⟨rfl, -⟩ := Scan.token.inj h
    exact ⟨fun _ => ⟨_, _, rfl⟩, fun _ => hdigit⟩
  next hdigit =>
    obtain ⟨rfl, -⟩ := Scan.token.inj h
    exact ⟨fun h => absurd h hdigit, nofun⟩

variable {signed : Bool} {offset : Nat} {cs : List Char} {t : Token} {ts rest : List Token}

/-- A character behind blanks begins the first token that is no blank. -/
theorem find?_of_head {q : Char} (h : FoundAlong signed offset cs ts)
    (hq : (dropBlanks cs).head? = some q) (hslash : q ≠ '/') :
    ∃ t, (ts.find? fun t => !t.kind.isBlank) = some t ∧ t.kind ≠ .finish ∧
      t.text.toList.head? = some q := by
  -- no gap begins with anything but a comment
  have hgap : ∀ {gap behind : List Char}, (dropBlanks (gap ++ behind)).head? = some q →
      (∀ c ∈ gap.head?, c = '/') → gap = [] := by
    intro gap behind hq hhead
    cases gap with
    | nil => rfl
    | cons c gap =>
        obtain rfl := hhead c rfl
        exact absurd (Option.some.inj hq).symm hslash
  induction h with
  | finish hkind hhead =>
      rename_i cs _
      obtain rfl := @hgap cs [] (by rwa [List.append_nil]) hhead
      cases hq
  | @cons signed signed' offset cs gap behind t ts hcomment hfound hsame hsigned hbehind ih =>
      obtain rfl := hgap (hfound.split ▸ hq) hfound.slash
      obtain ⟨c, more, htext, hscan⟩ := hfound.reads
      have hsplit : cs = c :: (more ++ behind) := by
        rw [hfound.split, htext]
        rfl
      by_cases hc : isBlank c = true
      · obtain ⟨hkind, hmore⟩ := isBlank_of_scan hscan hc
        have hblank : ∀ d ∈ more, isBlank d = true := fun d hd => List.mem_takeWhile_imp (hmore ▸ hd)
        rw [hsplit, dropBlanks, List.dropWhile_cons_of_pos hc,
          List.dropWhile_append_of_pos hblank] at hq
        obtain ⟨u, hu, hnot, hhead⟩ := ih hq
        exact ⟨u, by rw [List.find?_cons_of_neg (by simp [hkind, Kind.isBlank]), hu], hnot, hhead⟩
      · refine ⟨t, List.find?_cons_of_pos ?_, not_finish_of_scan hscan, ?_⟩
        · simp [isBlank_eq_of_scan hscan hcomment, hc]
        · rw [hsplit, dropBlanks, List.dropWhile_cons_of_neg hc] at hq
          rw [htext]
          exact hq

/-- What is found among tokens and others, where something stands among the tokens unless the text ends
behind them, is among the tokens. -/
theorem find?_of_append {u : Token}
    (h : ((ts ++ rest).find? fun t => !t.kind.isBlank) = some u) (hu : u.kind ≠ .finish)
    (hsolid : (∃ t ∈ ts, t.kind.isBlank = false) ∨ ∀ t ∈ rest.head?, t.kind = .finish) :
    (ts.find? fun t => !t.kind.isBlank) = some u := by
  rw [List.find?_append, Option.or_eq_some_iff] at h
  rcases h with hfound | ⟨hnone, hrest⟩
  · exact hfound
  · rcases hsolid with ⟨t, ht, hblank⟩ | hfinish
    · exact absurd (List.find?_eq_none.mp hnone t ht) (by simp [hblank])
    · cases rest with
      | nil => cases hrest
      | cons t rest =>
          have ht := hfinish t rfl
          rw [List.find?_cons_of_pos (by simp [ht, Kind.isBlank])] at hrest
          exact absurd (Option.some.inj hrest ▸ ht) hu

theorem piece_eq (h : t.kind.isBlank = false) : t.piece = t.text.toList := by
  unfold piece
  split
  next hkind => exact absurd h (by simp [hkind, Kind.isBlank])
  next hkind => exact absurd h (by simp [hkind, Kind.isBlank])
  next => rfl

theorem pieces_cons (t : Token) (ts : List Token) : pieces (t :: ts) = t.piece ++ pieces ts :=
  List.flatMap_cons

/-- What begins the first token that is no blank stands behind the blanks of what is put together. -/
theorem dropBlanks_pieces {u : Token} {q : Char} (h : (ts.find? fun t => !t.kind.isBlank) = some u)
    (hu : u.text.toList.head? = some q) (hq : isBlank q = false) :
    (dropBlanks (dropBlanksEnd (pieces ts))).head? = some q := by
  induction ts with
  | nil => cases h
  | cons t ts ih =>
      rw [pieces_cons]
      -- before the token that was found there are only blanks and comments, whose pieces are blank
      cases hblank : t.kind.isBlank with
      | false =>
          rw [List.find?_cons_of_pos (by simp [hblank])] at h
          obtain rfl := Option.some.inj h
          rw [piece_eq hblank]
          cases htext : t.text.toList with
          | nil =>
              rw [htext] at hu
              cases hu
          | cons c more =>
              rw [htext] at hu
              obtain rfl := Option.some.inj hu
              rw [List.cons_append, dropBlanksEnd_cons hq, dropBlanks,
                List.dropWhile_cons_of_neg (by simp [hq])]
              rfl
      | true =>
          rw [List.find?_cons_of_neg (by simp [hblank])] at h
          have hbehind := ih h
          have hpiece : ∀ c ∈ t.piece, isBlank c = true := by
            unfold piece
            split
            next => exact List.forall_mem_singleton.mpr rfl
            next => exact List.forall_mem_nil _
            next hnot hcomment => cases hkind : t.kind <;> simp_all [Kind.isBlank]
          have hne : dropBlanksEnd (pieces ts) ≠ [] := by
            intro hnil
            rw [hnil] at hbehind
            cases hbehind
          rw [dropBlanksEnd_append_of_ne_nil hne, dropBlanks, List.dropWhile_append_of_pos hpiece]
          exact hbehind

end Scss.Token
