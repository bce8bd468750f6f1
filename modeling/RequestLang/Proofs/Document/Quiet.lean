import RequestLang.Proofs.Document.Exact.Run

/-! Ends of comments in printed terms. Where a term was read, no text behind it ends a comment that its arithmetic
could open, since the lexer would have taken the comment off. Printing adds no such end, so that a printed term is
cut as it was unless a comment ends in the text behind its new place. -/
namespace RequestLang
open Lexer Lexeme Cursor

/-- No comment ends in a text. -/
def Quiet (cs : List Char) : Prop := Text.holds ['*', '/'] cs = false

namespace Quiet
variable {cs ds : List Char}

theorem append_iff : Quiet (cs ++ ds) ↔ Quiet cs ∧ Quiet ds ∧ ¬(cs.getLast? = some '*' ∧ ds.head? = some '/') := by
  simp [Quiet, Text.holds_append, and_assoc]

theorem cons_iff {c : Char} : Quiet (c :: cs) ↔ Quiet cs ∧ ¬(c = '*' ∧ cs.head? = some '/') := by
  have hone : Quiet [c] := by simp [Quiet, Text.holds, Text.through?, List.isPrefixOf]
  rw [← List.singleton_append, append_iff]
  simp [hone]

theorem within (h : cs <:+: ds) (hds : Quiet ds) : Quiet cs := by
  rw [Quiet, ← Bool.not_eq_true, Text.holds_iff_infix (by decide)] at hds ⊢
  exact fun hmark => hds (hmark.trans h)

theorem of_not_mem {c : Char} (hc : c ∈ ['*', '/']) (h : c ∉ cs) : Quiet cs := by
  rw [Quiet, ← Bool.not_eq_true, Text.holds_iff_infix (by decide)]
  exact fun hmark => h (hmark.subset hc)

theorem append (hcs : Quiet cs) (hds : Quiet ds) (h : ds.head? ≠ some '/') : Quiet (cs ++ ds) :=
  append_iff.mpr ⟨hcs, hds, fun hmark => h hmark.2⟩

end Quiet

namespace Text.Quoted

/-- An escape stands for neither character of the end of a comment. -/
theorem unescape?_ne {c d : Char} (h : unescape? c = some d) : d ≠ '*' ∧ d ≠ '/' := by
  unfold unescape? at h
  split at h <;> cases h <;> decide

theorem head?_decode {cs : List Char} (h : (decode cs).head? = some '/') : cs.head? = some '/' := by
  cases cs using decode.fun_cases with
  | case1 c cs d hd =>
    rw [decode, hd] at h
    exact absurd (Option.some.inj h) (unescape?_ne hd).2
  | case2 c cs hd =>
    rw [decode, hd] at h
    cases h
  | case3 c cs hplain =>
    rw [decode.eq_2 _ _ hplain] at h
    exact h
  | case4 => exact h

/-- Resolving escapes brings no characters together. -/
theorem quiet_decode {cs : List Char} (h : Quiet cs) : Quiet (decode cs) := by
  induction cs using decode.induct with
  | case1 c cs d hd ih =>
    rw [decode, hd, Quiet.cons_iff]
    exact ⟨ih (Quiet.cons_iff.mp (Quiet.cons_iff.mp h).1).1, fun hmark => (unescape?_ne hd).1 hmark.1⟩
  | case2 c cs hd ih =>
    obtain ⟨hcs, hmark⟩ := Quiet.cons_iff.mp (Quiet.cons_iff.mp h).1
    rw [decode, hd]
    refine Quiet.cons_iff.mpr ⟨Quiet.cons_iff.mpr ⟨ih hcs, fun hends => ?_⟩, fun hends => absurd hends.1 (by decide)⟩
    exact hmark ⟨hends.1, head?_decode hends.2⟩
  | case3 c cs hplain ih =>
    obtain ⟨hcs, hmark⟩ := Quiet.cons_iff.mp h
    rw [decode.eq_2 _ _ hplain]
    exact Quiet.cons_iff.mpr ⟨ih hcs, fun hends => hmark ⟨hends.1, head?_decode hends.2⟩⟩
  | case4 => exact h

theorem escape_eq {q : Char} (hq : q = '"' ∨ q = '\'') (c : Char) :
    escape q c = [c] ∨ ∃ d, escape q c = ['\\', d] ∧ d ≠ '*' := by
  have hquote : q ≠ '*' := by rcases hq with rfl | rfl <;> decide
  unfold escape
  split_ifs
  · exact .inr ⟨_, rfl, by decide⟩
  · exact .inr ⟨_, rfl, by decide⟩
  · exact .inr ⟨_, rfl, by decide⟩
  · exact .inr ⟨_, rfl, by decide⟩
  · exact .inr ⟨_, rfl, hquote⟩
  · exact .inl rfl

/-- Writing escapes brings none together either. -/
theorem quiet_encode {q : Char} (hq : q = '"' ∨ q = '\'') {cs : List Char} (h : Quiet cs) :
    Quiet (encode q cs) ∧ ((encode q cs).head? = some '/' → cs.head? = some '/') := by
  induction cs with
  | nil => exact ⟨h, id⟩
  | cons c cs ih =>
    obtain ⟨hcs, hmark⟩ := Quiet.cons_iff.mp h
    obtain ⟨hquiet, hhead⟩ := ih hcs
    rw [encode, List.flatMap_cons]
    obtain hc | ⟨d, hc, hd⟩ := escape_eq hq c
    · rw [hc]
      exact ⟨Quiet.cons_iff.mpr ⟨hquiet, fun hends => hmark ⟨hends.1, hhead hends.2⟩⟩, id⟩
    · rw [hc]
      refine ⟨Quiet.cons_iff.mpr ⟨Quiet.cons_iff.mpr ⟨hquiet, fun hends => hd hends.1⟩, ?_⟩, ?_⟩
      · exact fun hends => absurd hends.1 (by decide)
      · exact fun hends => absurd (Option.some.inj hends) (by decide)

end Text.Quoted

/-- What is printed between quotes ends no comment unless the text does. -/
theorem quiet_quoteChars {cs : List Char} (h : Quiet cs) : Quiet (quoteChars cs) := by
  have hquoted {q : Char} (hq : q = '"' ∨ q = '\'') : Quiet (q :: Text.Quoted.encode q cs ++ [q]) := by
    have hne : q ≠ '*' ∧ q ≠ '/' := by rcases hq with rfl | rfl <;> decide
    refine Quiet.append (Quiet.cons_iff.mpr ⟨(Text.Quoted.quiet_encode hq h).1, fun hends => hne.1 hends.1⟩) ?_ ?_
    · exact Quiet.cons_iff.mpr ⟨rfl, fun hends => hne.1 hends.1⟩
    · simpa using hne.2
  unfold quoteChars
  split
  · exact hquoted (.inr rfl)
  · exact hquoted (.inl rfl)

theorem inner_within (n : Nat) (cs : List Char) : Text.Quoted.inner n cs <:+: cs :=
  (List.take_prefix _ _).isInfix.trans (List.drop_suffix n cs).isInfix

/-- A literal is printed without the end of a comment if it was read without one. -/
theorem quiet_literal {t : Token} (h : Quiet t.text.toList) : Quiet t.literal.written.toList := by
  have hvalue : Quiet t.literal.value.toList := by
    unfold Token.literal
    dsimp only
    split
    · rw [String.toList_ofList]
      exact h.within (inner_within 3 _)
    · rw [String.toList_ofList]
      exact Text.Quoted.quiet_decode (Quiet.within (inner_within 1 _) h)
  rcases t.literal.cases_written with ⟨q, hq, -, -, hwritten, -⟩ | ⟨-, hl⟩
  · have hne : q ≠ '*' ∧ q ≠ '/' := by rcases hq with rfl | rfl <;> decide
    have hquote {cs : List Char} (h : Quiet cs) : Quiet (q :: cs) :=
      Quiet.cons_iff.mpr ⟨h, fun hends => hne.1 hends.1⟩
    rw [hwritten]
    refine hquote (hquote (hquote (hvalue.append (hquote (hquote (hquote rfl))) ?_)))
    simpa using hne.2
  · have hwritten : t.literal.written = quoteText t.literal.value := by
      rw [← t.literal.text_lexeme, hl]
      rfl
    rw [hwritten, quoteText, String.toList_ofList]
    exact quiet_quoteChars hvalue

namespace Cursor
variable {c c' : Cursor}

theorem Reaches.textOf_suffix (h : c.Reaches c') : textOf c'.ahead <:+ textOf c.ahead := by
  obtain ⟨run, hahead, -⟩ := h
  exact ⟨textOf run, by rw [hahead, textOf_append]⟩

theorem Reaches.quiet (h : c.Reaches c') (hc : Quiet (textOf c.ahead)) : Quiet (textOf c'.ahead) :=
  hc.within h.textOf_suffix.isInfix

theorem quiet_token {t : Token} (ht : c.skip.token? = some t) (h : Quiet (textOf c.ahead)) : Quiet t.text.toList := by
  obtain ⟨ts, hts⟩ := token?_eq_some ht
  refine (c.reaches_skip.quiet h).within ?_
  rw [hts, textOf_cons]
  exact (List.prefix_append _ _).isInfix

end Cursor

/-- Neither character of the end of a comment begins a text. -/
def Parted (cs : List Char) : Prop := ∀ c ∈ cs.head?, c ∉ ['*', '/']

theorem Quiet.append_parted {cs ds : List Char} (hcs : Quiet cs) (hds : Quiet ds) (h : Parted ds) : Quiet (cs ++ ds) :=
  hcs.append hds fun hhead => h '/' hhead (by decide)

/-- Lexemes that stand for what was read between two cursors. They end no comment unless what was read does, and no
slash of theirs opens a comment before a text that is as quiet as what stands behind. -/
structure Tame (c c' : Cursor) (ls : List Lexeme) : Prop where
  reaches : c.Reaches c'
  quiet : Quiet (textOf c.ahead) → Quiet (chars ls)
  calm : ∀ rest, Parted rest → (Quiet (textOf c'.ahead) → Quiet rest) → Calm ls rest

namespace Tame
variable {c c₁ c₂ c' : Cursor} {l : Lexeme} {as bs ls : List Lexeme}

/-- Without a slash nothing opens a comment, and none ends. -/
theorem of_not_mem (hreach : c.Reaches c') (h : '/' ∉ chars ls) : Tame c c' ls where
  reaches := hreach
  quiet _ := Quiet.of_not_mem (by decide) h
  calm rest _ _ := calm_of_not_mem (fun hmem => h (List.mem_flatMap.mpr ⟨_, hmem, by decide⟩)) rest

theorem before (h : Tame c₁ c' ls) (hreach : c.Reaches c₁) : Tame c c' ls where
  reaches := hreach.trans h.reaches
  quiet hc := h.quiet (hreach.quiet hc)
  calm := h.calm

theorem tail (h : Tame c c' (l :: ls)) : Tame c c' ls where
  reaches := h.reaches
  quiet hc := (h.quiet hc).within (List.suffix_append _ _).isInfix
  calm rest hrest hquiet := (h.calm rest hrest hquiet).2

theorem append (has : Tame c c₁ as) (hreach : c₁.Reaches c₂) (hbs : Tame c₂ c' bs) (hparted : Parted (chars bs)) :
    Tame c c' (as ++ bs) where
  reaches := has.reaches.trans (hreach.trans hbs.reaches)
  quiet hc := by
    rw [chars_append]
    exact (has.quiet hc).append_parted (hbs.quiet (hreach.quiet (has.reaches.quiet hc))) hparted
  calm rest hrest hquiet := by
    refine (calm_append ..).mpr ⟨has.calm _ ?_ fun hc => ?_, hbs.calm rest hrest hquiet⟩
    · cases hhead : chars bs with
      | nil => exact hrest
      | cons d ds =>
        rw [hhead] at hparted
        exact hparted
    · have hc₂ := hreach.quiet hc
      exact (hbs.quiet hc₂).append_parted (hquiet (hbs.reaches.quiet hc₂)) hrest

/-- Marks and gaps may stand before. -/
theorem behind (h : Tame c c' ls) (has : ∀ d ∈ ['*', '/'], d ∉ chars as) : Tame c c' (as ++ ls) where
  reaches := h.reaches
  quiet hc := by
    rw [chars_append]
    refine Quiet.append_iff.mpr ⟨Quiet.of_not_mem (by decide) (has '/' (by decide)), h.quiet hc, fun hends => ?_⟩
    exact has '*' (by decide) (List.mem_of_getLast? hends.1)
  calm rest hrest hquiet := by
    refine (calm_append ..).mpr ⟨calm_of_not_mem (fun hmem => ?_) _, h.calm rest hrest hquiet⟩
    exact has '/' (by decide) (List.mem_flatMap.mpr ⟨_, hmem, by decide⟩)

/-- A lexeme that is no operator opens no comment. -/
theorem of_quiet (hreach : c.Reaches c') (hl : l.kind ≠ .operator)
    (hquiet : Quiet (textOf c.ahead) → Quiet l.text.toList) : Tame c c' [l] where
  reaches := hreach
  quiet hc := by
    rw [chars_cons, chars_nil, List.append_nil]
    exact hquiet hc
  calm rest _ _ := ⟨fun heq => absurd (congrArg Lexeme.kind heq) hl, trivial⟩

end Tame

namespace JsonTerm
variable {c c' : Cursor}

/-- Lines, each behind a separator. -/
def following (d : Nat) (lines : List (List Lexeme)) : List Lexeme :=
  lines.flatMap fun line => [mark ",", lineEnd] ++ gap d ++ line

theorem following_eq (d : Nat) {lines : List (List Lexeme)} (h : lines ≠ []) : following d lines =
    [mark ",", lineEnd] ++ List.intercalate [mark ",", lineEnd] (lines.map (gap d ++ ·)) := by
  induction lines with
  | nil => exact absurd rfl h
  | cons line lines ih =>
    cases lines with
    | nil => simp [following]
    | cons line' lines =>
      rw [following, List.flatMap_cons, ← following, ih (List.cons_ne_nil _ _)]
      simp [List.intercalate_cons_cons]

theorem parted_following (d : Nat) (lines : List (List Lexeme)) : Parted (chars (following d lines)) := by
  intro c hc
  cases lines with
  | nil => cases hc
  | cons line lines =>
    obtain rfl : c = ',' := by simpa [following, eq_comm] using hc
    decide

/-- What stands between lines is not of the end of a comment. -/
theorem ne_layout {m : Char} (hm : m ∈ ['*', '/']) : m ≠ ' ' ∧ m ≠ '\n' ∧ m ≠ ',' ∧ m ≠ ':' := by
  fin_cases hm <;> decide

/-- Lines between brackets are tame if they are behind separators. -/
theorem tame_block {opening closing : String} (hmarks : ∀ m ∈ ['*', '/'], m ∉ opening.toList ∧ m ∉ closing.toList)
    {depth : Nat} {lines : List (List Lexeme)} (h : Tame c c' (following (4 * (depth + 1)) lines)) :
    Tame c c' (blockLexemes opening closing depth lines) := by
  have hclosing : ∀ m ∈ ['*', '/'], m ∉ chars ([lineEnd] ++ gap (4 * depth) ++ [mark closing]) := by
    intro m hm
    simp [ne_layout hm, (hmarks m hm).2]
  unfold blockLexemes
  split
  · refine Tame.of_not_mem h.reaches ?_
    simp [(hmarks '/' (by decide)).1, (hmarks '/' (by decide)).2]
  · rename_i hne
    rw [following_eq _ (by simpa using hne)] at h
    have hlines : Tame c c' (List.intercalate [mark ",", lineEnd] (lines.map (gap (4 * (depth + 1)) ++ ·))) := h.tail.tail
    have hend : Tame c' c' ([lineEnd] ++ gap (4 * depth) ++ [mark closing]) :=
      .of_not_mem (.refl c') (hclosing '/' (by decide))
    have hopening : ∀ m ∈ ['*', '/'], m ∉ chars [mark opening, lineEnd] := fun m hm => by
      simp [ne_layout hm, (hmarks m hm).1]
    simpa using (hlines.append (.refl c') hend (by simp [Parted])).behind hopening

/-- A slash among the tokens of a text opens no comment, so none ends behind it where one could begin. -/
theorem calm_of_scanned {us ts : List Token} (h : Scanned (us ++ ts)) {rest : List Char} (hrest : Parted rest)
    (hquiet : Quiet (textOf ts) → Quiet rest) : Calm (us.map Token.lexeme) rest := by
  induction us with
  | nil => trivial
  | cons u us ih =>
    refine ⟨fun hslash => ?_, ih h.cons.2.2⟩
    have hcut : Cuts (op "/") (textOf (us ++ ts)) := by
      rw [← show u.lexeme = op "/" from hslash]
      exact h.cuts (by rw [show u.kind = .operator from congrArg Lexeme.kind hslash]; decide)
    have hopens := (stops_of_cuts_slash hcut).2
    rw [textOf_append] at hopens
    change opensComment (textOf us ++ rest) = false
    cases hus : textOf us with
    | nil => exact opensComment_eq_false fun hhead => hrest '*' hhead (by decide)
    | cons d ds =>
      rw [hus] at hopens
      by_cases hd : d = '*'
      · subst hd
        have hbehind : Quiet (ds ++ textOf ts) := hopens
        obtain ⟨hds, hts, -⟩ := Quiet.append_iff.mp hbehind
        exact hds.append_parted (hquiet hts) hrest
      · exact opensComment_eq_false fun hhead => hd (Option.some.inj hhead)

theorem cases_ofArithmetic (cs : List Char) : ofArithmetic cs = .arithmetic (String.ofList cs) ∨
    ∃ text, ofArithmetic cs = .number text ∧ '/' ∉ text.toList := by
  unfold ofArithmetic
  split
  · dsimp only
    split
    · rename_i hread
      refine .inr ⟨_, rfl, ?_⟩
      rw [String.toList_ofList, List.mem_cons, not_or]
      exact ⟨by decide, Numeral.not_mem_read? (by decide) hread⟩
    · exact .inl rfl
  · exact .inl rfl

theorem tame_readArithmetic {t : Token} {x : JsonTerm} (hc : c.Sound) (ht : c.token? = some t)
    (hopens : startsArithmetic c t) (h : readArithmetic c = .ok (x, c')) (hclose : Closes c'.ahead) (depth : Nat) :
    Tame c c' (x.lexemes depth) := by
  have hreach := reaches_readArithmetic h
  cases hrun : arithmeticRun 0 true c.ahead with
  | mk n final =>
    obtain ⟨parens, wanting⟩ := final
    simp only [readArithmetic, hrun] at h
    split at h
    · cases h
    rename_i hend
    obtain ⟨rfl, rfl⟩ := Prod.mk.inj (Except.ok.inj h)
    obtain ⟨rfl, rfl⟩ : parens = 0 ∧ wanting = false := by simpa using hend
    obtain hx | ⟨text, hx, hslash⟩ := cases_ofArithmetic (runText (c.ahead.take n))
    · obtain ⟨ts, hts⟩ := token?_eq_some ht
      have hcore := isRun_core hc.ahead hrun hclose fun u hu => by
        obtain rfl : u = t := by simpa [hts, eq_comm] using hu
        exact hopens
      obtain ⟨gs, hgs, -⟩ := core_append (c.ahead.take n)
      have hsplit : c.ahead = core (c.ahead.take n) ++ (gs ++ c.ahead.drop n) := by
        rw [← List.append_assoc, ← hgs, List.take_append_drop]
      rw [hx, lexemes, pieces_of_falls hcore.falls (by rw [String.toList_ofList, runText_eq])]
      refine ⟨hreach, fun hquiet => ?_, fun rest hrest hquiet => ?_⟩
      · rw [(congrArg textOf hsplit).trans (textOf_append ..)] at hquiet
        exact (Quiet.append_iff.mp hquiet).1
      · refine calm_of_scanned (hsplit ▸ hc.ahead) hrest fun hbehind => hquiet ?_
        rw [textOf_append] at hbehind
        exact (Quiet.append_iff.mp hbehind).2.1
    · refine .of_not_mem hreach ?_
      rw [hx, lexemes, chars_pieces]
      exact hslash

/-- A line is followed by more of them, or is the last one. -/
theorem tame_line {c₁ c₂ : Cursor} {line : List Lexeme} {lines : List (List Lexeme)} {d : Nat} (hline : Tame c c₁ line)
    (hreach : c₁.Reaches c₂) (hlines : Tame c₂ c' (following d lines)) :
    Tame c c' (following d (line :: lines)) := by
  have hgap : ∀ m ∈ ['*', '/'], m ∉ chars ([mark ",", lineEnd] ++ gap d) := fun m hm => by simp [ne_layout hm]
  exact (hline.behind hgap).append hreach hlines (parted_following d lines)

/-- A member begins with its key. -/
theorem tame_member {t : Token} {x : JsonTerm} {c₁ : Cursor} (ht : c.skip.token? = some t)
    {depth : Nat} (hvalue : Tame c.skip.advance.skip.advance c₁ (x.lexemes depth)) :
    Tame c c₁ ((keyOf t).lexeme :: mark ":" :: blank 1 :: x.lexemes depth) := by
  have hlexeme : (keyOf t).lexeme.kind ≠ .operator := by
    unfold keyOf
    split
    · exact nofun
    · intro hkind
      rcases t.literal.isString_lexeme with h | h <;> cases h.symm.trans hkind
  have hquiet (hc : Quiet (textOf c.ahead)) : Quiet (keyOf t).lexeme.text.toList := by
    have htoken := quiet_token ht hc
    rw [JsonKey.text_lexeme]
    unfold keyOf
    split
    · exact htoken
    · exact quiet_literal htoken
  have hcolon : ∀ m ∈ ['*', '/'], m ∉ chars [mark ":", blank 1] := fun m hm => by simp [ne_layout hm]
  have hadvance : c.Reaches c.skip.advance := c.reaches_skip.advance
  exact (Tame.of_quiet hadvance hlexeme hquiet).append c.skip.advance.reaches_skip.advance (hvalue.behind hcolon)
    (by simp [Parted])

/-- A term of one token. -/
theorem tame_token {t : Token} {x : JsonTerm} (hc : c.Sound) (ht : c.skip.token? = some t)
    (hclose : Closes c.skip.advance.ahead)
    (hx : (t.kind = .string ∨ t.kind = .tripleString) ∧ x = .literal t.literal ∨ t.kind = .number ∧ x = .number t.text ∨
      t.kind = .placeholder ∧ x = .reference t.text ∨ t.kind = .identifier ∧ x = ofWord t.text) (depth : Nat) :
    Tame c c.skip.advance (x.lexemes depth) := by
  have hreach : c.Reaches c.skip.advance := c.reaches_skip.advance
  have hoperand {kind : TokenKind} (h : IsOperand kind t.text) : Tame c c.skip.advance (pieces t.text) := by
    rw [pieces_operand h]
    exact .of_quiet hreach (by rcases h.operand with rfl | rfl | rfl <;> exact nofun) (quiet_token ht)
  obtain ⟨ts, hts⟩ := token?_eq_some ht
  have hscan : Scanned (t :: ts) := hts ▸ (hc.reaches c.reaches_skip).ahead
  rcases hx with ⟨-, rfl⟩ | ⟨hk, rfl⟩ | ⟨hk, rfl⟩ | ⟨hk, rfl⟩
  · refine .of_quiet hreach (fun hkind => ?_) fun hc => ?_
    · rcases t.literal.isString_lexeme with h | h <;> cases h.symm.trans hkind
    · rw [Literal.text_lexeme]
      exact quiet_literal (quiet_token ht hc)
  · exact hoperand (isOperand_number hscan hk)
  · exact hoperand (isOperand_placeholder hscan hk)
  · have hahead : c.skip.advance.ahead = ts := by rw [advance, hts]
    rw [hahead] at hclose
    unfold ofWord
    split_ifs
    · exact .of_not_mem hreach (by simp [lexemes])
    · exact .of_not_mem hreach (by simp [lexemes])
    · exact .of_not_mem hreach (by simp [lexemes])
    · exact hoperand (isOperand_identifier hscan hk (hclose.stops hscan.cons.2.2).isWord)

theorem tame_read_aux (n : Nat) :
    (∀ {c c' x}, c.Sound → readWithin n c = .ok (x, c') → Closes c'.ahead → ∀ depth, Tame c c' (x.lexemes depth)) ∧
    (∀ {c c' ms}, c.Sound → readMembers n c = .ok (ms, c') → ∀ d depth, Tame c c' (following d (memberLexemes depth ms))) ∧
    (∀ {c c' xs}, c.Sound → readItems n c = .ok (xs, c') → ∀ d depth, Tame c c' (following d (itemLexemes depth xs))) := by
  induction n with
  | zero => simp [readWithin, readMembers, readItems]
  | succ n ih =>
    obtain ⟨ihTerm, ihMembers, ihItems⟩ := ih
    have hnone {c : Cursor} (d : Nat) : Tame c c (following d []) := .of_not_mem (.refl c) (by simp [following])
    refine ⟨fun {c c' x} hc h hclose depth => ?_, fun {c c' ms} hc h d depth => ?_, fun {c c' xs} hc h d depth => ?_⟩
    · have hskip : c.skip.Sound := hc.reaches c.reaches_skip
      have hreach : c.Reaches c.skip.advance := c.reaches_skip.advance
      have hbrackets {opening closing : String} (h : (opening, closing) ∈ [("[", "]"), ("\x7b", "\x7d")]) :
          ∀ m ∈ ['*', '/'], m ∉ opening.toList ∧ m ∉ closing.toList := by
        intro m hm
        fin_cases h <;> fin_cases hm <;> decide
      obtain ⟨t, ht, ⟨hstart, harith⟩ | ⟨-, ⟨-, ms, hms, rfl⟩ | ⟨-, xs, hxs, rfl⟩ | ⟨rfl, hone⟩⟩⟩ :=
        readWithin_eq_ok h
      · exact (tame_readArithmetic hskip ht hstart harith hclose depth).before c.reaches_skip
      · exact tame_block (hbrackets (by decide)) ((ihMembers (hc.reaches hreach) hms _ _).before hreach)
      · exact tame_block (hbrackets (by decide)) ((ihItems (hc.reaches hreach) hxs _ _).before hreach)
      · exact tame_token hc ht hclose hone depth
    · obtain ⟨-, rfl, rfl⟩ | ⟨t, x, c₁, -, ht, -, -, hx, hrest⟩ := readMembers_eq_ok h
      · exact (hnone d).before c.reaches_skip.advance
      · have hvalue : c.skip.advance.skip.advance.Sound := hc.reaches c.reaches_skip.advance.skip.advance
        have hc₁ : c₁.skip.advance.Sound := hvalue.reaches ((reaches_read_aux n).1 hx).skip.advance
        have hreach : c₁.Reaches c₁.skip.advance := c₁.reaches_skip.advance
        obtain ⟨hmark, rest, hrest, rfl⟩ | ⟨-, hmark, rfl, rfl⟩ := hrest
        · have hx := ihTerm hvalue hx (closes_of_isPunct hmark (by decide)) depth
          exact tame_line (tame_member ht hx) hreach (ihMembers hc₁ hrest d depth)
        · have hx := ihTerm hvalue hx (closes_of_isPunct hmark (by decide)) depth
          exact tame_line (tame_member ht hx) hreach (hnone d)
    · obtain ⟨-, rfl, rfl⟩ | ⟨x, c₁, -, hx, hrest⟩ := readItems_eq_ok h
      · exact (hnone d).before c.reaches_skip.advance
      · have hskip : c.skip.Sound := hc.reaches c.reaches_skip
        have hc₁ : c₁.skip.advance.Sound := hskip.reaches ((reaches_read_aux n).1 hx).skip.advance
        have hreach : c₁.Reaches c₁.skip.advance := c₁.reaches_skip.advance
        obtain ⟨hmark, rest, hrest, rfl⟩ | ⟨-, hmark, rfl, rfl⟩ := hrest
        · have hx := (ihTerm hskip hx (closes_of_isPunct hmark (by decide)) depth).before c.reaches_skip
          exact tame_line hx hreach (ihItems hc₁ hrest d depth)
        · have hx := (ihTerm hskip hx (closes_of_isPunct hmark (by decide)) depth).before c.reaches_skip
          exact tame_line hx hreach (hnone d)

/-- What is printed for a term opens no comment that the text behind it could end, unless a comment ends in the text
that stood behind the term. -/
theorem tame_read {x : JsonTerm} (hc : c.Sound) (h : read c = .ok (x, c')) (hclose : Closes c'.ahead) (depth : Nat) :
    Tame c c' (x.lexemes depth) :=
  (tame_read_aux _).1 hc h hclose depth

end JsonTerm
end RequestLang
