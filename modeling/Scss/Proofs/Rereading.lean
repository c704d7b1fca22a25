import Scss.Proofs.TokenTexts

/-!
# Reading tokens a second time

Tokens are put together to a text again, and that text is read. A token then stands in front of another
text than it did, and behind another token. But little of what stands there is looked at (`scan_alike`,
`scan_unsigned`). So it is read as it was if nothing joins where comments are left out (`KeptApart`),
and if trimming takes no blank from the last token (`KeepsEnd`).

What is read is found from the end (`lexes_pieces`): the tokens behind a token tell enough of the text
that it stands in front of.
-/

namespace Scss.Token

open Text

variable {signed : Bool} {offset : Nat} {cs : List Char} {t : Token} {ts rest : List Token}

/-! ## Reading again what was put together -/

/-- What it takes to read tokens again that stand in front of others. -/
structure Rejoins (signed : Bool) (ts rest : List Token) : Prop where
  noFinish : ∀ t ∈ ts, t.kind ≠ .finish
  apart : KeptApart signed ts
  keepsEnd : KeepsEnd ts
  grouped : Grouped ts rest

theorem Rejoins.tail (h : Rejoins signed (t :: ts) rest) : Rejoins (!t.kind.endsOperand) ts rest where
  noFinish := (List.forall_mem_cons.mp h.noFinish).2
  apart := h.apart.tail
  keepsEnd := h.keepsEnd.tail
  grouped := h.grouped.tail

/-- The first token is read where it stands, with the sign that it has without the comments in front of
it. -/
theorem FoundAlong.first (h : FoundAlong signed offset cs (t :: ts)) (hkind : t.kind ≠ .finish)
    (hsign : KeepsSign signed offset t) :
    ∃ gap behind, cs = gap ++ (t.text.toList ++ behind) ∧ (t.start = offset → gap = []) ∧
      t.kind.isComment = false ∧ t.ReadsBefore signed behind ∧
        FoundAlong (!t.kind.endsOperand) t.stop behind ts := by
  cases h with
  | finish hfinish _ => exact absurd hfinish hkind
  | @cons _ signed' _ _ gap behind _ _ hcomment hfound hsame hsigned hbehind =>
      have hgap : t.start = offset → gap = [] := by
        intro hstart
        have hlength := hfound.start
        exact List.eq_nil_of_length_eq_zero (by omega)
      refine ⟨gap, behind, hfound.split, hgap, hcomment, ?_, hbehind⟩
      by_cases heq : signed' = signed
      · exact heq ▸ hfound.reads
      -- a comment stood in front of it, and a dash behind that could have begun a number
      · obtain ⟨rfl, rfl⟩ : signed = false ∧ signed' = true := by
          cases signed <;> cases signed' <;> simp_all
        rcases hsign with hstart | htrue | ⟨c, more, htext, halone⟩
        · exact absurd (hsame (hgap hstart)) heq
        · cases htrue
        · obtain ⟨c', more', htext', hscan⟩ := hfound.reads
          obtain ⟨rfl, rfl⟩ := List.cons.inj (htext'.symm.trans htext)
          rw [List.append_nil] at halone
          exact ⟨_, _, htext, scan_unsigned hscan halone⟩

/-- The text of a token that is no blank does not begin with one. -/
theorem FoundAlong.solid (h : FoundAlong signed offset cs ts) :
    ∀ t ∈ ts, t.kind ≠ .finish → t.kind.isBlank = false →
      ∃ c more, t.text.toList = c :: more ∧ isBlank c = false := by
  induction h with
  | finish hkind _ => exact List.forall_mem_singleton.mpr fun hnot => absurd hkind hnot
  | cons hcomment hfound _ _ _ ih =>
      refine List.forall_mem_cons.mpr ⟨fun _ hblank => ?_, ih⟩
      obtain ⟨c, more, htext, hscan⟩ := hfound.reads
      exact ⟨c, more, htext, (isBlank_eq_of_scan hscan hcomment).symm.trans hblank⟩

/-- Tokens of which trimming leaves nothing are blanks. -/
theorem FoundAlong.blank_of_trimmed (h : FoundAlong signed offset cs (ts ++ rest))
    (hfinish : ∀ t ∈ ts, t.kind ≠ .finish) (htrimmed : dropBlanksEnd (pieces ts) = []) :
    ∀ t ∈ ts, t.kind.isBlank = true := by
  intro t ht
  by_contra hblank
  rw [Bool.not_eq_true] at hblank
  obtain ⟨c, more, htext, hc⟩ := h.solid t (List.mem_append_left _ ht) (hfinish t ht) hblank
  have hmem : c ∈ pieces ts := by
    refine List.mem_flatMap.mpr ⟨t, ht, ?_⟩
    rw [piece_eq hblank, htext]
    exact List.mem_cons_self
  rw [List.rdropWhile_eq_nil_iff.mp htrimmed c hmem] at hc
  cases hc

theorem digit_of_lexes {l : Lexeme} {ls : List Lexeme} (h : Lexes signed ('.' :: cs) (l :: ls)) :
    cs.head?.any Char.isDigit = true ↔ ∃ value unit, l.kind = .number value unit := by
  obtain ⟨kind, more, hscan⟩ : ∃ kind more, scan signed '.' cs = .token kind more := by
    rw [scan_dot]
    split
    · exact ⟨_, _, rfl⟩
    · exact ⟨_, _, rfl⟩
  obtain ⟨tokens, hread, hlexemes⟩ := h (Position.start "") 0
  rw [readFrom, hscan] at hread
  obtain ⟨later, -, hcons⟩ := bind_eq_ok_iff.mp hread
  obtain rfl := Except.ok.inj hcons
  obtain ⟨rfl, -⟩ := List.cons.inj hlexemes
  exact digit_of_scan hscan

/-- What is put together begins with the token, which is read as it was if what stands behind it looks
the same. -/
theorem scan_pieces {behind more : List Char} {c : Char} (htext : t.text.toList = c :: more)
    (hscan : scan signed c (more ++ behind) = .token t.kind more) (hblank : t.kind.isBlank = false)
    (hc : isBlank c = false) (hkeeps : KeepsEnd (t :: ts))
    (hblanks : dropBlanksEnd (pieces ts) = [] → ∀ u ∈ ts, u.kind.isBlank = true)
    (halike : dropBlanksEnd (pieces ts) ≠ [] →
      ∃ b, t.ReadsBefore signed b ∧ Alike b (dropBlanksEnd (pieces ts))) :
    ∃ more', dropBlanksEnd (pieces (t :: ts)) = c :: (more' ++ dropBlanksEnd (pieces ts)) ∧
      scan signed c (more' ++ dropBlanksEnd (pieces ts)) = .token t.kind more' := by
  have hpieces : pieces (t :: ts) = c :: more ++ pieces ts := by
    rw [pieces_cons, piece_eq hblank, htext]
  rw [hpieces]
  by_cases htail : dropBlanksEnd (pieces ts) = []
  · have hfilter : (t :: ts).filter (fun t => !t.kind.isBlank) = [t] := by
      rw [List.filter_cons_of_pos (by simp [hblank]), List.filter_eq_nil_iff.mpr]
      exact fun u hu => by simp [hblanks htail u hu]
    rw [htail, dropBlanksEnd_append_of_blank htail]
    rcases hkeeps t (by rw [hfilter]; rfl) with hstray | hend
    · -- of a lone `!` and blanks behind it the sign is left
      have hspells := scan_spells signed c (more ++ behind)
      rw [hscan, hstray] at hspells
      obtain ⟨blanks, hsplit, hmore⟩ := hspells
      obtain ⟨rfl, rfl⟩ := List.cons.inj hsplit
      refine ⟨[], ?_, hstray ▸ rfl⟩
      have hnil : dropBlanksEnd more = [] := List.rdropWhile_eq_nil_iff.mpr hmore
      rw [dropBlanksEnd_cons hc, hnil]
      rfl
    · rw [htext] at hend
      refine ⟨more, ?_, scan_alike (.nil behind) hscan⟩
      rw [dropBlanksEnd_of_getLast hend, List.append_nil]
  · obtain ⟨b, ⟨c', more', htext', hscan'⟩, hb⟩ := halike htail
    obtain ⟨rfl, rfl⟩ := List.cons.inj (htext'.symm.trans htext)
    exact ⟨_, dropBlanksEnd_append_of_ne_nil htail _, scan_alike hb hscan'⟩

/-- Behind a token, a blank looks like the space it is put together as. -/
theorem alike_blank {behind : List Char} (hblank : t.kind = .blank)
    (hbehind : behind.head?.any isBlank = true) :
    Alike behind (dropBlanksEnd (pieces (t :: ts))) := by
  have hpiece : t.piece = [' '] := by rw [piece, hblank]
  rw [pieces_cons, hpiece]
  by_cases htail : dropBlanksEnd (pieces ts) = []
  · rw [dropBlanksEnd_append_of_blank htail]
    exact .nil behind
  · rw [dropBlanksEnd_append_of_ne_nil htail]
    exact ⟨.inr (.inr ⟨hbehind, rfl⟩), nofun, nofun⟩

/-- Where a quote stands behind a parenthesis and blanks, one stands there in what is put together. -/
theorem quoteFollows_pieces (h : FoundAlong signed offset cs (ts ++ rest))
    (hquote : quoteFollows ('(' :: cs) = true)
    (hsolid : (∃ t ∈ ts, t.kind.isBlank = false) ∨ ∀ t ∈ rest.head?, t.kind = .finish) :
    quoteFollows ('(' :: dropBlanksEnd (pieces ts)) = true := by
  obtain ⟨q, hq, hchar⟩ := (Option.any_eq_true _ _).mp hquote
  have hmark : q = '"' ∨ q = '\'' := by simpa using hchar
  have hslash : q ≠ '/' := by rcases hmark with rfl | rfl <;> decide
  have hblank : isBlank q = false := by rcases hmark with rfl | rfl <;> decide
  obtain ⟨u, hfind, hfinish, hhead⟩ := find?_of_head h hq hslash
  have hpieces := dropBlanks_pieces (find?_of_append hfind hfinish hsolid) hhead hblank
  rw [quoteFollows, List.tail_cons, hpieces]
  exact hchar

/-- Behind a token, the next one looks the same where it is put together with others and read again. -/
theorem alike_solid {d : Char} {more behind more' : List Char} {s : Bool} {l : Lexeme}
    {ls : List Lexeme}
    (hscan : scan s d (more ++ behind) = .token t.kind more)
    (hls : Lexes s (d :: more') (l :: ls)) (hl : l.kind = t.kind)
    (hquote : d = '(' → quoteFollows (d :: (more ++ behind)) = true →
      quoteFollows (d :: more') = true) :
    Alike (d :: (more ++ behind)) (d :: more') := by
  refine ⟨.inr (.inl rfl), fun hhead hnot => ?_, fun hhead => hquote (Option.some.inj hhead)⟩
  obtain rfl := Option.some.inj hhead
  have hnone : ¬∃ value unit, t.kind = .number value unit := fun hnumber =>
    Bool.eq_false_iff.mp hnot ((digit_of_scan hscan).mpr hnumber)
  exact Bool.eq_false_iff.mpr fun hdigit => hnone (hl ▸ (digit_of_lexes hls).mp hdigit)

theorem tidy_cons {kind : Kind} (hblank : kind.isBlank = false) (hfinish : kind ≠ .finish)
    (spaced : Bool) (kinds : List Kind) :
    tidy spaced (kind :: kinds) = (if spaced then [.blank] else []) ++ kind :: tidy false kinds := by
  rw [tidy.eq_5]
  · rintro rfl
    cases hblank
  · rintro text rfl
    cases hblank
  · exact hfinish

theorem parenthesis_of_scan {behind more : List Char} {kind : Kind}
    (h : scan signed '(' behind = .token kind more) : kind = .mark .openParen ∧ more = [] := by
  have hscan : scan signed '(' behind = .token (.mark .openParen) [] := rfl
  obtain ⟨rfl, rfl⟩ := Scan.token.inj (hscan.symm.trans h)
  exact ⟨rfl, rfl⟩

/-- Some text in front of which a token is read looks like what is put together behind the token. -/
theorem exists_alike {behind : List Char} {ls : List Lexeme} (hread : t.ReadsBefore signed behind)
    (hblank : t.kind.isBlank = false) (h : Rejoins signed (t :: ts) rest)
    (hbehind : FoundAlong (!t.kind.endsOperand) t.stop behind (ts ++ rest))
    (hls : Lexes (!t.kind.endsOperand) (dropBlanksEnd (pieces ts)) ls)
    (hkinds : ls.map Lexeme.kind = tidy false (ts.map (·.kind)) ++ [.finish])
    (hne : dropBlanksEnd (pieces ts) ≠ []) :
    ∃ b, t.ReadsBefore signed b ∧ Alike b (dropBlanksEnd (pieces ts)) := by
  cases ts with
  | nil => exact absurd rfl hne
  | cons u us =>
      have hfinish : u.kind ≠ .finish := h.noFinish u (by simp)
      obtain ⟨gap, after, hsplit, hgap, hcomment, hu, hafter⟩ := hbehind.first hfinish
        (h.apart.keepsSign hblank u rfl)
      obtain ⟨d, more, htext, hscan⟩ := hu
      have htouching : t.stop = u.start → behind = d :: (more ++ after) := by
        intro hstart
        rw [hsplit, hgap hstart.symm, htext]
        rfl
      cases hsolid : u.kind.isBlank with
      | true =>
          have hd : isBlank d = true := (isBlank_eq_of_scan hscan hcomment).symm.trans hsolid
          have hkind : u.kind = .blank := (isBlank_of_scan hscan hd).1
          -- where the two touch, the source shows how the first ends, and else it is given
          rcases h.apart.1 with hnot | hstart | ⟨hends, -⟩
          · exact absurd hnot (Bool.eq_false_iff.mp hblank)
          · refine ⟨behind, hread, alike_blank hkind ?_⟩
            rw [htouching hstart]
            exact hd
          · refine ⟨u.piece, hends, alike_blank hkind ?_⟩
            rw [piece, hkind]
            rfl
      | false =>
          have hd : isBlank d = false := (isBlank_eq_of_scan hscan hcomment).symm.trans hsolid
          have hpieces : dropBlanksEnd (pieces (u :: us)) = d :: dropBlanksEnd (more ++ pieces us) := by
            rw [pieces_cons, piece_eq hsolid, htext, List.cons_append, dropBlanksEnd_cons hd]
          rw [hpieces] at hls ⊢
          rw [List.map_cons, tidy_cons hsolid hfinish] at hkinds
          obtain ⟨l, ls, rfl⟩ := List.exists_cons_of_ne_nil (l := ls) (by rintro rfl; cases hkinds)
          have hl : l.kind = u.kind := (List.cons.inj hkinds).1
          rcases h.apart.1 with hnot | hstart | ⟨hends, hagain⟩
          · exact absurd hnot (Bool.eq_false_iff.mp hblank)
          · refine ⟨behind, hread, htouching hstart ▸ alike_solid hscan hls hl ?_⟩
            -- `url(` was not a call with raw arguments, for a quote stands behind the parenthesis
            rintro rfl hquote
            obtain ⟨hkind, rfl⟩ := parenthesis_of_scan hscan
            exact quoteFollows_pieces hafter hquote (h.grouped.tail u us List.suffix_rfl hkind)
          · obtain ⟨d', more', htext', hscan'⟩ := hagain
            obtain ⟨rfl, rfl⟩ := List.cons.inj (htext'.symm.trans htext)
            have hpiece : u.piece = d' :: (more' ++ []) := by
              rw [piece_eq hsolid, htext, List.append_nil]
            refine ⟨u.piece, hends, hpiece ▸ alike_solid hscan' hls hl ?_⟩
            rintro rfl hquote
            obtain ⟨-, rfl⟩ := parenthesis_of_scan hscan'
            cases hquote

/-- **What is put together of tokens is read as these tokens**, but for blanks at its end. It can stand
behind spaces. -/
theorem lexes_pieces {s : Bool} {w : List Char} (hreads : FoundAlong signed offset cs (ts ++ rest))
    (h : Rejoins signed ts rest)
    (hhead : ∀ t ∈ ts.head?, KeepsSign signed offset t)
    (hw : ∀ c ∈ w, c = ' ') (hsame : w = [] → s = signed) (hsigned : w ≠ [] → signed = true) :
    ∃ ls, Lexes s (dropBlanksEnd (w ++ pieces ts)) ls ∧
      ls.map Lexeme.kind = tidy (!w.isEmpty) (ts.map (·.kind)) ++ [.finish] := by
  have hspace : ∀ c ∈ w, isBlank c = true := fun c hc => hw c hc ▸ rfl
  -- blanks are put to the spaces in front, so that any number of them is read at once
  induction ts generalizing signed s offset cs w with
  | nil =>
      have hnil : dropBlanksEnd (w ++ pieces []) = [] :=
        List.rdropWhile_eq_nil_iff.mpr (List.forall_mem_append.mpr ⟨hspace, List.forall_mem_nil _⟩)
      rw [hnil]
      exact ⟨_, Lexes.nil s, rfl⟩
  | cons t ts ih =>
      have hfinish : t.kind ≠ .finish := h.noFinish t List.mem_cons_self
      obtain ⟨gap, behind, -, -, hcomment, hread, hbehind⟩ := hreads.first hfinish (hhead t rfl)
      cases hblank : t.kind.isBlank with
      | true =>
          obtain ⟨c, more, -, hscan⟩ := hread
          have hkind : t.kind = .blank :=
            (isBlank_of_scan hscan ((isBlank_eq_of_scan hscan hcomment).symm.trans hblank)).1
          have hopen : (!t.kind.endsOperand) = true := by rw [hkind]; rfl
          have hpieces : w ++ pieces (t :: ts) = w ++ [' '] ++ pieces ts := by
            rw [pieces_cons, piece, hkind, List.append_assoc]
          have hspaced : ∀ c ∈ w ++ [' '], c = ' ' :=
            List.forall_mem_append.mpr ⟨hw, List.forall_mem_singleton.mpr rfl⟩
          have hempty : (w ++ [' ']).isEmpty = false := by simp
          obtain ⟨ls, hls, hkinds⟩ := ih (hopen ▸ hbehind) (hopen ▸ h.tail)
            (fun _ _ => .inr (.inl rfl)) hspaced (fun hnil => absurd hnil (by simp)) (fun _ => rfl)
            fun c hc => hspaced c hc ▸ rfl
          refine ⟨ls, hpieces ▸ hls, ?_⟩
          rw [hkinds, hempty, List.map_cons, hkind]
          rfl
      | false =>
          obtain ⟨ls, hls, hkinds⟩ : ∃ ls, Lexes (!t.kind.endsOperand) (dropBlanksEnd (pieces ts)) ls ∧
              ls.map Lexeme.kind = tidy false (ts.map (·.kind)) ++ [Kind.finish] :=
            ih hbehind h.tail (h.apart.keepsSign hblank) (List.forall_mem_nil _) (fun _ => rfl)
              (fun hnil => absurd rfl hnil) (List.forall_mem_nil _)
          have halike := exists_alike hread hblank h hbehind hls hkinds
          obtain ⟨c, more, htext, hscan⟩ := hread
          have hc : isBlank c = false := (isBlank_eq_of_scan hscan hcomment).symm.trans hblank
          obtain ⟨more', hpieces, hscan'⟩ := scan_pieces htext hscan hblank hc h.keepsEnd
            (hbehind.blank_of_trimmed h.tail.noFinish) halike
          have htoken := Lexes.token hscan' hls
          rw [← hpieces] at htoken
          rw [List.map_cons, tidy_cons hblank hfinish, List.append_assoc, List.cons_append, ← hkinds]
          cases w with
          | nil => exact ⟨_, hsame rfl ▸ htoken, rfl⟩
          | cons d w =>
              have hne : dropBlanksEnd (pieces (t :: ts)) ≠ [] := by
                rw [hpieces]
                exact List.cons_ne_nil _ _
              have hnot : ∀ c ∈ (dropBlanksEnd (pieces (t :: ts))).head?, isBlank c = false := by
                rw [hpieces]
                rintro _ ⟨⟩
                exact hc
              rw [hsigned (List.cons_ne_nil d w)] at htoken
              rw [dropBlanksEnd_append_of_ne_nil hne]
              exact ⟨_, .blanks (List.cons_ne_nil d w) hspace hnot htoken, rfl⟩

/-! ## A phrase of a text -/

/-- Tokens that are read again where they are put together and trimmed. -/
structure Recoverable (ts : List Token) : Prop where
  apart : KeptApart true (kept ts)
  keepsEnd : KeepsEnd (kept ts)

theorem pieces_kept (ts : List Token) : pieces (kept ts) = pieces ts := by
  induction ts with
  | nil => rfl
  | cons t ts ih =>
      cases hcomment : t.kind.isComment with
      | false => rw [kept_cons hcomment, pieces_cons, pieces_cons, ih]
      | true =>
          have hpiece : t.piece = [] := by
            cases hkind : t.kind <;> simp_all [Kind.isComment, piece]
          rw [kept_cons_of_comment hcomment, pieces_cons, hpiece, ih, List.nil_append]

theorem tidy_kept (spaced : Bool) (ts : List Token) :
    tidy spaced ((kept ts).map (·.kind)) = tidy spaced (ts.map (·.kind)) := by
  induction ts generalizing spaced with
  | nil => rfl
  | cons t ts ih =>
      cases hcomment : t.kind.isComment with
      | false =>
          rw [kept_cons hcomment, List.map_cons, List.map_cons]
          cases hkind : t.kind <;> simp only [tidy, ih]
      | true =>
          rw [kept_cons_of_comment hcomment, ih, List.map_cons]
          cases hkind : t.kind <;> simp_all [Kind.isComment, tidy]

theorem gist_kept (ts : List Token) : gist (kept ts) = gist ts := by
  induction ts with
  | nil => rfl
  | cons t ts ih =>
      cases hblank : t.kind.isBlank with
      | false =>
          have hcomment : t.kind.isComment = false := by
            cases hkind : t.kind <;> simp_all [Kind.isComment, Kind.isBlank]
          have hkept := tidy_kept false (t :: ts)
          rw [kept_cons hcomment] at hkept ⊢
          simpa [gist, hblank] using hkept
      | true =>
          have hdrop : ∀ us, gist (t :: us) = gist us := by simp [gist, hblank]
          rw [hdrop, ← ih]
          cases hcomment : t.kind.isComment with
          | false => rw [kept_cons hcomment, hdrop]
          | true => rw [kept_cons_of_comment hcomment]

/-- There is nothing to tidy where that has been done. -/
theorem tidy_tidy (spaced : Bool) (kinds : List Kind) :
    tidy false (tidy spaced kinds ++ [.finish]) = tidy spaced kinds := by
  fun_induction tidy spaced kinds with
  | case1 => rfl
  | case2 _ _ ih | case3 _ _ _ ih | case4 _ _ ih => exact ih
  | case5 spaced kind kinds hblank hcomment hfinish ih =>
      have hcons : ∀ spaced kinds, tidy spaced (kind :: kinds) =
          (if spaced then [.blank] else []) ++ kind :: tidy false kinds := fun spaced kinds =>
        tidy.eq_5 spaced kind kinds hblank hcomment hfinish
      cases spaced with
      | false => exact (hcons false _).trans (congrArg (kind :: ·) ih)
      | true => exact (hcons true _).trans (congrArg (Kind.blank :: kind :: ·) ih)

theorem gist_cons_of_blank (h : t.kind.isBlank = true) (ts : List Token) :
    gist (t :: ts) = gist ts := by
  simp [gist, h]

/-- What is put together and trimmed is read as the tokens but for blanks at the ends. -/
theorem lexes_trimmed (hreads : FoundAlong true offset cs (ts ++ rest)) (h : Rejoins true ts rest) :
    ∃ ls, Lexes true (dropBlanksEnd (dropBlanks (pieces ts))) ls ∧
      ls.map Lexeme.kind = gist ts ++ [Kind.finish] := by
  induction ts generalizing offset cs with
  | nil => exact ⟨_, Lexes.nil true, rfl⟩
  | cons t ts ih =>
      obtain ⟨gap, behind, -, -, hcomment, ⟨c, more, htext, hscan⟩, hbehind⟩ :=
        hreads.first (h.noFinish t List.mem_cons_self) (.inr (.inl rfl))
      have hc := isBlank_eq_of_scan hscan hcomment
      cases hblank : t.kind.isBlank with
      | true =>
          have hkind : t.kind = .blank := (isBlank_of_scan hscan (hc.symm.trans hblank)).1
          have hopen : (!t.kind.endsOperand) = true := by rw [hkind]; rfl
          have hpieces : dropBlanks (pieces (t :: ts)) = dropBlanks (pieces ts) := by
            rw [pieces_cons, piece, hkind]
            rfl
          rw [hpieces, gist_cons_of_blank hblank]
          exact ih (hopen ▸ hbehind) (hopen ▸ h.tail)
      | false =>
          have hpieces : dropBlanks (pieces (t :: ts)) = pieces (t :: ts) := by
            rw [pieces_cons, piece_eq hblank, htext]
            exact List.dropWhile_cons_of_neg (by simp [hc.symm.trans hblank])
          have hgist : gist (t :: ts) = tidy false ((t :: ts).map (·.kind)) := by
            simp [gist, hblank]
          rw [hpieces, hgist]
          exact lexes_pieces hreads h (fun _ _ => .inr (.inl rfl)) (List.forall_mem_nil _)
            (fun _ => rfl) (fun hnil => absurd rfl hnil)

theorem gist_of_map {again : List Token} (hfinish : ∀ t ∈ ts, t.kind ≠ .finish)
    (h : again.map (·.kind) = gist ts ++ [.finish]) : gist again = gist ts := by
  have hkinds : ∀ kind ∈ (ts.map (·.kind)).dropWhile Kind.isBlank, kind ≠ .finish := by
    intro kind hkind
    obtain ⟨t, ht, rfl⟩ := List.mem_map.mp ((List.dropWhile_suffix _).mem hkind)
    exact hfinish t ht
  have hhead := List.head?_dropWhile_not Kind.isBlank (ts.map (·.kind))
  show tidy false ((again.map (·.kind)).dropWhile Kind.isBlank) = _
  rw [h, gist]
  cases hdrop : (ts.map (·.kind)).dropWhile Kind.isBlank with
  | nil => rfl
  | cons kind kinds =>
      rw [hdrop] at hkinds hhead
      have hblank : kind.isBlank = false := by simpa using hhead
      have hcons := tidy_cons hblank (hkinds kind List.mem_cons_self) false kinds
      have hstays : (tidy false (kind :: kinds) ++ [Kind.finish]).dropWhile Kind.isBlank =
          tidy false (kind :: kinds) ++ [.finish] := by
        rw [hcons]
        exact List.dropWhile_cons_of_neg (by simp [hblank])
      rw [hstays, tidy_tidy]

/-- **What is put together of a phrase is read as the phrase.** The tokens of a phrase stand somewhere in
a text, not right behind an operand, and parentheses that open among them have something in them. If
nothing joins where comments are left out, and no name loses a blank at the end, then their pieces are
read as the same tokens, but for comments, blanks at the ends, and how many blanks follow one another. -/
theorem read_pieces {source : String} {origin : Position} {before front rest : List Token}
    (hread : read source origin = .ok (before ++ (front ++ rest))) (hrest : rest ≠ [])
    (hbefore : ∀ t ∈ before.getLast?, t.kind.endsOperand = false)
    (hfinish : ∀ t ∈ front, t.kind ≠ .finish) (hgrouped : Grouped (kept front) (kept rest))
    (h : Recoverable front) (place : Position) :
    ∃ again, read (trim (String.ofList (pieces front))) place = .ok again ∧
      gist again = gist front := by
  have hne : front ++ rest ≠ [] := fun hnil => hrest (List.append_eq_nil_iff.mp hnil).2
  obtain ⟨place', offset, cs, hread⟩ := readFrom_behind hread hne (fun _ => rfl) hbefore
  have hreads := foundAlong_of_readFrom hread
  have hkept : kept (front ++ rest) = kept front ++ kept rest := List.filter_append _ _
  have hrejoins : Rejoins true (kept front) (kept rest) :=
    ⟨fun t ht => hfinish t (List.mem_of_mem_filter ht), h.apart, h.keepsEnd, hgrouped⟩
  obtain ⟨ls, hls, hkinds⟩ := lexes_trimmed (hkept ▸ hreads) hrejoins
  rw [pieces_kept] at hls
  rw [gist_kept] at hkinds
  obtain ⟨again, hagain, hlexemes⟩ :=
    hls { place with line := max place.line 1, column := max place.column 1 } 0
  refine ⟨again, ?_, gist_of_map hfinish ?_⟩
  · rw [read, trim, String.toList_ofList, String.toList_ofList]
    exact hagain
  · rw [← hkinds, ← hlexemes, List.map_map]
    rfl

end Scss.Token
