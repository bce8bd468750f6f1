import RequestLang.Proofs.Document.Legible
import RequestLang.Proofs.Document.Reread.Call
import RequestLang.Proofs.Document.Solid

/-! Reading the lexemes of canonical texts back: JSON terms. -/
namespace RequestLang
open Lexeme

/-- A literal in the quotes that it is printed in. -/
def Literal.requoted (l : Literal) : Literal := l.lexeme.token.literal

/-- A text between triple quotes is read as it stands. -/
theorem literal_fenced {q : Char} {l : Literal} (ht : l.quote = .triple)
    (hwritten : l.written.toList = q :: q :: q :: (l.value.toList ++ [q, q, q])) (k : Nat) :
    (⟨.tripleString, l.written, k⟩ : Token).literal = l := by
  have hlen : 6 ≤ (q :: q :: q :: (l.value.toList ++ [q, q, q])).length := by
    simp only [List.length_cons, List.length_append]
    omega
  have hinner : Text.Quoted.inner 3 (q :: q :: q :: (l.value.toList ++ [q, q, q])) = l.value.toList := by
    simp [Text.Quoted.inner]
  simp only [Token.literal, hwritten, hinner, hlen, and_self, if_true, String.ofList_toList]
  rw [← ht]

theorem Literal.plain_requoted {l : Literal} (h : l.Legible) : l.requoted.plain = l.plain := by
  rcases l.cases_written with ⟨q, -, -, ht, hwritten, hl⟩ | ⟨hnot, hl⟩
  · rw [requoted, hl]
    exact congrArg plain (literal_fenced ht hwritten 0)
  · have hquote : l.quote ≠ .triple := fun ht => hnot ⟨ht, (h ht).1⟩
    rw [requoted, hl, quoted]
    have hvalue := literal_quoted l.value 0
    have : (⟨.string, quoteText l.value, 0⟩ : Token).literal.quote ≠ .triple := by
      simp only [Token.literal]
      split
      · simp_all
      · split <;> simp
    simp [plain, Lexeme.token, hvalue, hquote, this]

def JsonKey.requoted : JsonKey → JsonKey
  | .literal l => .literal l.requoted
  | .reference text => .reference text

theorem JsonKey.plain_requoted {k : JsonKey} (h : k.Legible) : k.requoted.plain = k.plain := by
  cases k with
  | literal l => exact congrArg JsonKey.literal (Literal.plain_requoted h)
  | reference text => rfl

namespace JsonTerm

mutual

def requoted : JsonTerm → JsonTerm
  | .null => .null
  | .bool b => .bool b
  | .number text => .number text
  | .literal l => .literal l.requoted
  | .reference text => .reference text
  | .arithmetic text => .arithmetic text
  | .array items => .array (requotedItems items)
  | .object members => .object (requotedMembers members)

def requotedItems : List JsonTerm → List JsonTerm
  | [] => []
  | t :: ts => requoted t :: requotedItems ts

def requotedMembers : List (JsonKey × JsonTerm) → List (JsonKey × JsonTerm)
  | [] => []
  | (k, t) :: ms => (k.requoted, requoted t) :: requotedMembers ms

end

mutual

theorem plain_requoted (t : JsonTerm) (h : t.Legible) : t.requoted.plain = t.plain := by
  cases t with
  | null | bool | number | reference | arithmetic => rfl
  | literal l => exact congrArg JsonTerm.literal (Literal.plain_requoted h)
  | array items => rw [requoted, plain, plain, plain_requotedItems items h]
  | object members => rw [requoted, plain, plain, plain_requotedMembers members h]

theorem plain_requotedItems (items : List JsonTerm) (h : ItemsLegible items) :
    plainItems (requotedItems items) = plainItems items := by
  cases items with
  | nil => rfl
  | cons t ts =>
    rw [requotedItems, plainItems, plainItems, plain_requoted t h.1, plain_requotedItems ts h.2]

theorem plain_requotedMembers (members : List (JsonKey × JsonTerm)) (h : MembersLegible members) :
    plainMembers (requotedMembers members) = plainMembers members := by
  cases members with
  | nil => rfl
  | cons m ms =>
    obtain ⟨k, t⟩ := m
    rw [requotedMembers, plainMembers, plainMembers, JsonKey.plain_requoted h.1, plain_requoted t h.2.1,
      plain_requotedMembers ms h.2.2]

end

end JsonTerm

theorem Literal.isString_lexeme (l : Literal) : l.lexeme.kind = .string ∨ l.lexeme.kind = .tripleString := by
  unfold lexeme
  split
  · exact .inr rfl
  · exact .inl rfl

namespace Cursor

/-- A gap is passed over. -/
theorem skip_append {us : List Token} (hus : ∀ u ∈ us, u.isIgnorable) (b ts : List Token) (n : Nat) :
    (⟨b, us ++ ts, n⟩ : Cursor).skip = (⟨us.reverse ++ b, ts, n⟩ : Cursor).skip := by
  induction us generalizing b with
  | nil => rfl
  | cons u us ih =>
    rw [List.cons_append, skip_cons, if_pos (hus u (by simp)), ih fun v hv => hus v (by simp [hv])]
    simp

theorem skip_of_not {t : Token} (ht : t.isIgnorable = false) (b ts : List Token) (n : Nat) :
    (⟨b, t :: ts, n⟩ : Cursor).skip = ⟨b, t :: ts, n⟩ := by
  rw [skip_cons, if_neg (by simp [ht])]

end Cursor

theorem Lexeme.Spells.gap {us : List Token} {n : Nat} (h : Spells us (gap n)) :
    ∀ u ∈ us, u.isIgnorable := by
  unfold Lexeme.gap at h
  split at h
  · simp [spells_nil.mp h]
  · obtain ⟨k, rfl⟩ := spells_singleton.mp h
    simp [blank, Token.isIgnorable]

namespace JsonTerm

/-- The next token that means something is no operator of arithmetic. -/
def Done (ts : List Token) : Prop := ((ts.find? (!·.isIgnorable)).map isArithmetic).getD false = false

/-- Tokens before which every term is complete. -/
structure Ends (ts : List Token) : Prop where
  stops : ∀ t ∈ ts.head?, arithmeticStep (0, false) t.lexeme = none
  done : Done ts

/-- The first lexeme of arithmetic. -/
theorem opens_run {ls : List Lexeme} (h : opensArithmetic ls) :
    ∃ l ls', ls = l :: ls' ∧ l.isIgnorable = false ∧ l ≠ mark "]" := by
  cases ls with
  | nil => simp [opensArithmetic] at h
  | cons l ls =>
    refine ⟨l, ls, rfl, ?_⟩
    simp only [opensArithmetic, Bool.or_eq_true, Bool.and_eq_true] at h
    rcases h with (h | h) | ⟨h, -⟩
    · rw [eq_mark_of_isPunct h]
      decide
    · have : l = op "-" := by
        cases l
        simpa [Lexeme.token, Token.isOp, op] using h
      rw [this]
      decide
    · obtain ⟨kind, text⟩ := l
      have hkind : kind = .number ∨ kind = .identifier ∨ kind = .placeholder := by
        simpa [isOperand, Lexeme.token, or_assoc] using h
      rcases hkind with rfl | rfl | rfl <;> simp [isIgnorable, Lexeme.token, Token.isIgnorable, mark]

theorem opens_operand_lexeme {kind : TokenKind} {text : String} (h : IsOperand kind text) :
    ∃ l ls, pieces text = l :: ls ∧ l.isIgnorable = false ∧ l ≠ mark "]" := by
  refine ⟨_, [], pieces_operand h, ?_⟩
  rcases h.operand with rfl | rfl | rfl <;> simp [isIgnorable, Lexeme.token, Token.isIgnorable, mark]

/-- The first lexeme of a term. -/
theorem opens_lexemes {t : JsonTerm} (h : t.Legible) (depth : Nat) :
    ∃ l ls, t.lexemes depth = l :: ls ∧ l.isIgnorable = false ∧ l ≠ mark "]" := by
  cases t with
  | null => exact ⟨_, _, rfl, by decide, by decide⟩
  | bool b => cases b <;> exact ⟨_, _, rfl, by decide, by decide⟩
  | number text =>
    rcases h with h | ⟨h, -⟩
    · exact opens_operand_lexeme h
    · exact opens_run h.opens
  | literal l =>
    refine ⟨_, [], rfl, ?_, fun he => ?_⟩
    · rcases l.isString_lexeme with hk | hk <;>
        simp [isIgnorable, Lexeme.token, Token.isIgnorable, hk]
    · have hk := l.isString_lexeme
      simp [he, mark] at hk
  | reference text =>
    rcases h with h | ⟨h, -⟩
    · exact opens_operand_lexeme h
    · exact opens_operand_lexeme h
  | arithmetic text => exact opens_run h.1.opens
  | array items =>
    rw [lexemes, blockLexemes]
    split
    · exact ⟨_, _, rfl, by decide, by decide⟩
    · exact ⟨_, _, rfl, by decide, by decide⟩
  | object members =>
    rw [lexemes, blockLexemes]
    split
    · exact ⟨_, _, rfl, by decide, by decide⟩
    · exact ⟨_, _, rfl, by decide, by decide⟩

theorem runText_of_spells {us : List Token} {ls : List Lexeme} (hus : Spells us ls)
    (hlast : ∀ l ∈ ls.getLast?, l.isIgnorable = false) : runText us = chars ls := by
  have htrim : us.reverse.dropWhile (·.isIgnorable) = us.reverse := by
    cases hr : us.reverse with
    | nil => rfl
    | cons u vs =>
      have hu : u.lexeme.isIgnorable = false := by
        refine hlast _ ?_
        rw [← hus, List.getLast?_map, List.getLast?_eq_head?_reverse, hr]
        rfl
      rw [List.dropWhile_cons_of_neg]
      simpa [isIgnorable, Lexeme.token, Token.lexeme, Token.isIgnorable] using hu
  rw [runText, htrim, List.reverse_reverse, ← hus]
  simp [chars, List.flatMap_map, Token.lexeme]

/-- A run is read back as the arithmetic that it is. -/
theorem readArithmetic_run {text : String} (h : IsRun (pieces text)) {us : List Token}
    (hus : Spells us (pieces text)) {ts : List Token} (hts : Ends ts) (b : List Token) (n : Nat) :
    readArithmetic ⟨b, us ++ ts, n⟩ = .ok (ofArithmetic text.toList, ⟨us.reverse ++ b, ts, n⟩) := by
  have hstop : arithmeticRun 0 false ts = (0, 0, false) := by
    cases ts with
    | nil => rfl
    | cons t ts =>
      have := arithmeticRun_cons (0, false) t ts
      rw [hts.stops t rfl] at this
      exact this
  have hrun : arithmeticRun 0 true (us ++ ts) = (us.length, 0, false) := by
    rw [arithmeticRun_append (s := (0, true)) hus h.steps ts]
    simp [hstop]
  rw [readArithmetic]
  simp only [hrun, List.take_left, List.drop_left]
  rw [runText_of_spells hus h.last, chars_pieces]
  simp

theorem startsArithmetic_run {ls : List Lexeme} (h : opensArithmetic ls) {t : Token} {us : List Token}
    (hus : Spells (t :: us) ls) (b ts : List Token) (n : Nat) :
    startsArithmetic ⟨b, t :: us ++ ts, n⟩ t := by
  rw [← hus] at h
  have hpunct (m : String) : t.lexeme.token.isPunct m = t.isPunct m := rfl
  have hop (m : String) : t.lexeme.token.isOp m = t.isOp m := rfl
  have hoperand : isOperand t.lexeme.token = isOperand t := rfl
  simp only [List.map_cons, opensArithmetic, hpunct, hop, hoperand, Bool.or_eq_true, Bool.and_eq_true] at h
  simp only [startsArithmetic, Bool.or_eq_true, Bool.and_eq_true, List.cons_append,
    Cursor.nextSignificant?_cons]
  rcases h with h | ⟨ho, h⟩
  · exact .inl h
  · refine .inr ⟨ho, ?_⟩
    rw [List.find?_map] at h
    have hfun : (fun l : Lexeme => !l.isIgnorable) ∘ Token.lexeme = fun t : Token => !t.isIgnorable := rfl
    rw [hfun, Option.map_map] at h
    have hcomp : (fun l : Lexeme => isArithmetic l.token) ∘ Token.lexeme = isArithmetic := rfl
    rw [hcomp] at h
    cases hf : us.find? (fun t => !t.isIgnorable) with
    | none => simp [hf] at h
    | some u => simpa [List.find?_append, hf] using h

/-- Where no operator follows, no operand opens arithmetic. -/
theorem not_startsArithmetic {t : Token} (hpunct : t.isPunct "(" = false) (hop : t.isOp "-" = false)
    {ts : List Token} (hts : Done ts) (b : List Token) (n : Nat) :
    startsArithmetic ⟨b, t :: ts, n⟩ t = false := by
  unfold Done at hts
  simp [startsArithmetic, hpunct, hop, hts]

theorem readWithin_arithmetic {t : Token} {ts b : List Token} {n : Nat} (ht : t.isIgnorable = false)
    (hs : startsArithmetic ⟨b, t :: ts, n⟩ t) (m : Nat) :
    readWithin (m + 1) ⟨b, t :: ts, n⟩ = readArithmetic ⟨b, t :: ts, n⟩ := by
  simp [readWithin, ht, hs]

theorem readWithin_run {text : String} (h : IsRun (pieces text)) {us : List Token}
    (hus : Spells us (pieces text)) {ts : List Token} (hts : Ends ts) (m : Nat) (b : List Token) (n : Nat) :
    ∃ b', readWithin (m + 1) ⟨b, us ++ ts, n⟩ = .ok (ofArithmetic text.toList, ⟨b', ts, n⟩) := by
  have hread := readArithmetic_run h hus hts b n
  obtain ⟨l, ls, hl, hgap, -⟩ := opens_run h.opens
  have hopens := h.opens
  rw [hl] at hus hopens
  obtain ⟨k, us, rfl, -⟩ := spells_cons.mp hus
  have hstarts := startsArithmetic_run hopens hus b ts n
  exact ⟨_, (readWithin_arithmetic (t := ⟨l.kind, l.text, k⟩) hgap hstarts m).trans hread⟩

section
attribute [local simp] Token.isIgnorable Token.isPunct Token.isOp Token.isString

theorem readWithin_operand {kind : TokenKind} {text : String} {t : JsonTerm}
    (h : kind = .number ∧ t = .number text ∨ kind = .placeholder ∧ t = .reference text ∨
      kind = .identifier ∧ t = ofWord text)
    {ts : List Token} (hts : Done ts) (m : Nat) (b : List Token) (k n : Nat) :
    ∃ b', readWithin (m + 1) ⟨b, ⟨kind, text, k⟩ :: ts, n⟩ = .ok (t, ⟨b', ts, n⟩) := by
  rcases h with ⟨rfl, rfl⟩ | ⟨rfl, rfl⟩ | ⟨rfl, rfl⟩
  · have hs := not_startsArithmetic (t := ⟨.number, text, k⟩) rfl rfl hts b n
    simp [readWithin, hs]
  · have hs := not_startsArithmetic (t := ⟨.placeholder, text, k⟩) rfl rfl hts b n
    simp [readWithin, hs]
  · have hs := not_startsArithmetic (t := ⟨.identifier, text, k⟩) rfl rfl hts b n
    simp [readWithin, hs]

theorem readWithin_string {t : Token} (ht : t.isString) (m : Nat) (b ts : List Token) (n : Nat) :
    readWithin (m + 1) ⟨b, t :: ts, n⟩ = .ok (.literal t.literal, ⟨t :: b, ts, n⟩) := by
  have hk : t.kind = .string ∨ t.kind = .tripleString := by simpa using ht
  rcases hk with hk | hk
  · simp [readWithin, hk, startsArithmetic, isOperand]
  · simp [readWithin, hk, startsArithmetic, isOperand]

end

/-- What separates does not matter before a term, an item or a member. -/
theorem readWithin_of_isIgnorable {t : Token} (ht : t.isIgnorable) (m : Nat) (b ts : List Token)
    (n : Nat) : readWithin m ⟨b, t :: ts, n⟩ = readWithin m ⟨t :: b, ts, n⟩ := by
  cases m with
  | zero => rfl
  | succ m => rw [readWithin, readWithin, Cursor.skip_cons, if_pos ht]

theorem readItems_of_isIgnorable {t : Token} (ht : t.isIgnorable) (m : Nat) (b ts : List Token)
    (n : Nat) : readItems m ⟨b, t :: ts, n⟩ = readItems m ⟨t :: b, ts, n⟩ := by
  cases m with
  | zero => rfl
  | succ m => rw [readItems, readItems, Cursor.skip_cons, if_pos ht]

theorem readMembers_of_isIgnorable {t : Token} (ht : t.isIgnorable) (m : Nat) (b ts : List Token)
    (n : Nat) : readMembers m ⟨b, t :: ts, n⟩ = readMembers m ⟨t :: b, ts, n⟩ := by
  cases m with
  | zero => rfl
  | succ m => rw [readMembers, readMembers, Cursor.skip_cons, if_pos ht]

section
variable {m n : Nat} {t c : Token} {ts b b₁ us vs ws : List Token} {value : JsonTerm}

theorem isIgnorable_of_isPunct {s : String} (h : t.isPunct s) : t.isIgnorable = false := by
  simp only [Token.isPunct, Bool.and_eq_true, beq_iff_eq] at h
  simp [Token.isIgnorable, h.1]

theorem isPunct_of_isPunct {s s' : String} (h : t.isPunct s) : t.isPunct s' = (s == s') := by
  simp only [Token.isPunct, Bool.and_eq_true, beq_iff_eq] at h
  simp [Token.isPunct, h.1, h.2]

theorem done_mark {s : String} (hc : c.isPunct s) (ts : List Token) : Done (c :: ts) := by
  have hgap := isIgnorable_of_isPunct hc
  simp only [Token.isPunct, Bool.and_eq_true, beq_iff_eq] at hc
  simp [Done, hgap, isArithmetic, hc.1]

theorem Done.gap (hts : Done ts) (hus : ∀ u ∈ us, u.isIgnorable) : Done (us ++ ts) := by
  have hfind : us.find? (fun t => !t.isIgnorable) = none := by simpa using hus
  rwa [Done, List.find?_append, hfind, Option.none_or]

theorem ends_mark {s : String} (hc : c.isPunct s) (hs : s ≠ "(") (ts : List Token) : Ends (c :: ts) := by
  refine ⟨?_, done_mark hc ts⟩
  obtain ⟨kind, text, k⟩ := c
  simp only [Token.isPunct, Bool.and_eq_true, beq_iff_eq] at hc
  obtain ⟨rfl, rfl⟩ := hc
  simp [arithmeticStep, Token.lexeme, Lexeme.token, Token.isPunct, isArithmetic, isOperand, hs]

/-- A gap that begins with a line end, before a mark. -/
theorem ends_lineEnd {s : String} {k : Nat} (hus : ∀ u ∈ us, u.isIgnorable) (hc : c.isPunct s)
    (ts : List Token) : Ends (⟨.newline, "\n", k⟩ :: us ++ c :: ts) := by
  refine ⟨by simp [arithmeticStep, Token.lexeme], (done_mark hc ts).gap ?_⟩
  exact List.forall_mem_cons.mpr ⟨rfl, hus⟩

/-- An item before a comma, with those behind it. -/
theorem readItems_comma (vs : List Token) (hus : ∀ u ∈ us, u.isIgnorable) (ht : t.isIgnorable = false)
    (hclose : t.isPunct "]" = false) (hvs : ∀ v ∈ vs, v.isIgnorable) (hc : c.isPunct ",")
    (hvalue : readWithin m ⟨us.reverse ++ b, t :: ts, n⟩ = .ok (value, ⟨b₁, vs ++ c :: ws, n⟩)) :
    readItems (m + 1) ⟨b, us ++ t :: ts, n⟩ =
      (fun (items, c) => (value :: items, c)) <$> readItems m ⟨c :: (vs.reverse ++ b₁), ws, n⟩ := by
  rw [readItems, Cursor.skip_append hus, Cursor.skip_of_not ht]
  simp only [Cursor.isPunct_cons, hclose, hvalue, ok_bind, Cursor.skip_append hvs,
    Cursor.skip_of_not (isIgnorable_of_isPunct hc), hc]
  rfl

/-- The last item. -/
theorem readItems_last (vs : List Token) (hus : ∀ u ∈ us, u.isIgnorable) (ht : t.isIgnorable = false)
    (hclose : t.isPunct "]" = false) (hvs : ∀ v ∈ vs, v.isIgnorable) (hc : c.isPunct "]")
    (hvalue : readWithin m ⟨us.reverse ++ b, t :: ts, n⟩ = .ok (value, ⟨b₁, vs ++ c :: ws, n⟩)) :
    ∃ b', readItems (m + 1) ⟨b, us ++ t :: ts, n⟩ = .ok ([value], ⟨b', ws, n⟩) := by
  rw [readItems, Cursor.skip_append hus, Cursor.skip_of_not ht]
  simp only [Cursor.isPunct_cons, hclose, hvalue, ok_bind, Cursor.skip_append hvs,
    Cursor.skip_of_not (isIgnorable_of_isPunct hc), isPunct_of_isPunct hc]
  simp [Cursor.expectPunct_cons, hc]

variable {k : Token}

theorem not_isIgnorable_of_key (hk : k.isString || k.kind == .placeholder) :
    k.isIgnorable = false ∧ k.isPunct "\x7d" = false := by
  simp only [Token.isString, Bool.or_eq_true, beq_iff_eq, or_assoc] at hk
  rcases hk with hk | hk | hk <;> simp [Token.isIgnorable, Token.isPunct, hk]

/-- A member before a comma, with those behind it. -/
theorem readMembers_comma (ks vs : List Token) (hus : ∀ u ∈ us, u.isIgnorable)
    (hk : k.isString || k.kind == .placeholder) (hks : ∀ u ∈ ks, u.isIgnorable) (ht : t.isPunct ":")
    (hvs : ∀ v ∈ vs, v.isIgnorable) (hc : c.isPunct ",")
    (hvalue : readWithin m ⟨t :: (ks.reverse ++ k :: (us.reverse ++ b)), ts, n⟩ = .ok (value, ⟨b₁, vs ++ c :: ws, n⟩)) :
    readMembers (m + 1) ⟨b, us ++ k :: (ks ++ t :: ts), n⟩ =
      (fun (members, c) => ((keyOf k, value) :: members, c)) <$> readMembers m ⟨c :: (vs.reverse ++ b₁), ws, n⟩ := by
  obtain ⟨hgap, hbrace⟩ := not_isIgnorable_of_key hk
  rw [readMembers, Cursor.skip_append hus, Cursor.skip_of_not hgap]
  simp only [Cursor.isPunct_cons, hbrace, Cursor.expect_cons, hk, ok_bind, Cursor.advance_cons, Cursor.skip_append hks,
    Cursor.skip_of_not (isIgnorable_of_isPunct ht), Cursor.expectPunct_cons, ht, hvalue, Cursor.skip_append hvs,
    Cursor.skip_of_not (isIgnorable_of_isPunct hc), hc]
  rfl

theorem readMembers_last (ks vs : List Token) (hus : ∀ u ∈ us, u.isIgnorable)
    (hk : k.isString || k.kind == .placeholder) (hks : ∀ u ∈ ks, u.isIgnorable) (ht : t.isPunct ":")
    (hvs : ∀ v ∈ vs, v.isIgnorable) (hc : c.isPunct "\x7d")
    (hvalue : readWithin m ⟨t :: (ks.reverse ++ k :: (us.reverse ++ b)), ts, n⟩ = .ok (value, ⟨b₁, vs ++ c :: ws, n⟩)) :
    ∃ b', readMembers (m + 1) ⟨b, us ++ k :: (ks ++ t :: ts), n⟩ = .ok ([(keyOf k, value)], ⟨b', ws, n⟩) := by
  obtain ⟨hgap, hbrace⟩ := not_isIgnorable_of_key hk
  rw [readMembers, Cursor.skip_append hus, Cursor.skip_of_not hgap]
  simp only [Cursor.isPunct_cons, hbrace, Cursor.expect_cons, hk, ok_bind, Cursor.advance_cons, Cursor.skip_append hks,
    Cursor.skip_of_not (isIgnorable_of_isPunct ht), Cursor.expectPunct_cons, ht, hvalue, Cursor.skip_append hvs,
    Cursor.skip_of_not (isIgnorable_of_isPunct hc), isPunct_of_isPunct hc]
  simp [Cursor.expectPunct_cons, hc]

end

/-- The end of a block: a line end, a gap and the closing bracket. -/
theorem spells_closing {us : List Token} {e : Nat} {closing : String}
    (h : Spells us ([lineEnd] ++ gap e ++ [mark closing])) :
    ∃ i j vs, us = ⟨.newline, "\n", i⟩ :: vs ++ [⟨.punctuation, closing, j⟩] ∧
      ∀ v ∈ vs, v.isIgnorable := by
  obtain ⟨_, ws, rfl, h₁, h₂⟩ := spells_append.mp h
  obtain ⟨_, vs, rfl, h₃, h₄⟩ := spells_append.mp h₁
  obtain ⟨i, rfl⟩ := spells_singleton.mp h₃
  obtain ⟨j, rfl⟩ := spells_singleton.mp h₂
  exact ⟨i, j, vs, rfl, h₄.gap⟩

theorem keyOf_lexeme (k : JsonKey) (j : Nat) :
    ((⟨k.lexeme.kind, k.lexeme.text, j⟩ : Token).isString ||
      (⟨k.lexeme.kind, k.lexeme.text, j⟩ : Token).kind == .placeholder) = true ∧
    keyOf ⟨k.lexeme.kind, k.lexeme.text, j⟩ = k.requoted := by
  cases k with
  | literal l =>
    have hliteral : (⟨l.lexeme.kind, l.lexeme.text, j⟩ : Token).literal = l.requoted := rfl
    rcases l.isString_lexeme with hk | hk
    · rw [hk] at hliteral
      simp [JsonKey.lexeme, keyOf, hk, Token.isString, JsonKey.requoted, ← hliteral]
    · rw [hk] at hliteral
      simp [JsonKey.lexeme, keyOf, hk, Token.isString, JsonKey.requoted, ← hliteral]
  | reference text => simp [JsonKey.lexeme, keyOf, JsonKey.requoted]

/-- The lexemes of a term are read back as that term, in the quotes that are printed. -/
def Rereads (t : JsonTerm) : Prop :=
  ∀ (depth m n : Nat) (us ts b : List Token), Spells us (t.lexemes depth) →
    2 * us.length ≤ m → Ends ts →
    ∃ b', readWithin m ⟨b, us ++ ts, n⟩ = .ok (t.requoted, ⟨b', ts, n⟩)

theorem rereads_operand {t : JsonTerm} {kind : TokenKind} (text : String)
    (hl : ∀ depth, t.lexemes depth = [⟨kind, text⟩]) (hquotes : t.requoted = t)
    (h : kind = .number ∧ t = .number text ∨ kind = .placeholder ∧ t = .reference text ∨
      kind = .identifier ∧ t = ofWord text) : Rereads t := by
  intro depth m n us ts b hus hm hts
  rw [hl] at hus
  obtain ⟨k, rfl⟩ := spells_singleton.mp hus
  obtain ⟨m, rfl⟩ := Nat.exists_eq_succ_of_ne_zero (show m ≠ 0 by simp at hm; omega)
  rw [hquotes]
  exact readWithin_operand h hts.done m b k n

theorem rereads_run {t : JsonTerm} {text : String} (hl : ∀ depth, t.lexemes depth = pieces text)
    (hquotes : t.requoted = t) (h : IsRun (pieces text)) (ht : ofArithmetic text.toList = t) : Rereads t := by
  intro depth m n us ts b hus hm hts
  rw [hl] at hus
  obtain ⟨l, ls, hls, -⟩ := opens_run h.opens
  have hlen := hus.length
  rw [hls, List.length_cons] at hlen
  obtain ⟨m, rfl⟩ := Nat.exists_eq_succ_of_ne_zero (show m ≠ 0 by omega)
  rw [hquotes, ← ht]
  exact readWithin_run h hus hts m b n

theorem rereads_literal (l : Literal) : Rereads (.literal l) := by
  intro depth m n us ts b hus hm hts
  obtain ⟨k, rfl⟩ := spells_singleton.mp hus
  obtain ⟨m, rfl⟩ := Nat.exists_eq_succ_of_ne_zero (show m ≠ 0 by simp at hm; omega)
  have hstring : (⟨l.lexeme.kind, l.lexeme.text, k⟩ : Token).isString := by
    rcases l.isString_lexeme with hk | hk <;> simp [Token.isString, hk]
  exact ⟨_, readWithin_string hstring m b ts n⟩

section
variable {d e m n : Nat} {us vs : List Token}

/-- Items on lines of their own, and the end of their block. -/
theorem readItems_lines {depth : Nat} (is : List JsonTerm) (hne : is ≠ [])
    (h : ∀ i ∈ is, i.Legible ∧ Rereads i)
    (hus : Spells us (List.intercalate [mark ",", lineEnd] ((itemLexemes depth is).map (gap d ++ ·))))
    (hvs : Spells vs ([lineEnd] ++ gap e ++ [mark "]"])) (hm : 2 * us.length + 2 ≤ m)
    (b ts : List Token) : ∃ b', readItems m ⟨b, us ++ (vs ++ ts), n⟩ = .ok (requotedItems is, ⟨b', ts, n⟩) := by
  induction is generalizing m b us with
  | nil => exact absurd rfl hne
  | cons i is ih =>
    obtain ⟨m, rfl⟩ := Nat.exists_eq_succ_of_ne_zero (show m ≠ 0 by omega)
    obtain ⟨hlegible, hreads⟩ := h i (by simp)
    obtain ⟨l, ls, hl, hgap, hclose⟩ := opens_lexemes hlegible depth
    have hbracket : l.token.isPunct "]" = false := by
      rw [← Bool.not_eq_true]
      exact fun hp => hclose (eq_mark_of_isPunct hp)
    cases is with
    | nil =>
      obtain ⟨j₁, j₂, vs, rfl, hvs'⟩ := spells_closing hvs
      simp only [itemLexemes, List.map_cons, List.map_nil, List.intercalate_singleton] at hus
      obtain ⟨gs, us, rfl, hgs, hus'⟩ := spells_append.mp hus
      have hends : Ends (⟨.newline, "\n", j₁⟩ :: vs ++ ⟨.punctuation, "]", j₂⟩ :: ts) :=
        ends_lineEnd (s := "]") hvs' (by simp [Token.isPunct]) ts
      obtain ⟨b₁, hread⟩ := hreads _ _ n _ _ (gs.reverse ++ b) hus'
        (show 2 * us.length ≤ m by simp at hm; omega) hends
      rw [hl] at hus'
      obtain ⟨k, us, rfl, -⟩ := spells_cons.mp hus'
      obtain ⟨b', hb'⟩ := readItems_last (t := ⟨l.kind, l.text, k⟩) (c := ⟨.punctuation, "]", j₂⟩)
        (⟨.newline, "\n", j₁⟩ :: vs) hgs.gap hgap hbracket
        (by simpa [Token.isIgnorable] using hvs') (by simp [Token.isPunct]) hread
      exact ⟨b', by simpa [requotedItems] using hb'⟩
    | cons i' is =>
      rw [itemLexemes, itemLexemes, List.map_cons, List.map_cons, List.intercalate_cons_cons,
        ← List.map_cons, ← itemLexemes, List.append_assoc, List.append_assoc] at hus
      obtain ⟨gs, _, rfl, hgs, hus₁⟩ := spells_append.mp hus
      obtain ⟨us₁, _, rfl, hitem, hus₂⟩ := spells_append.mp hus₁
      obtain ⟨_, us₃, rfl, hsep, hrest⟩ := spells_append.mp hus₂
      simp only [spells_cons, spells_nil] at hsep
      obtain ⟨k₁, _, rfl, k₂, _, rfl, rfl⟩ := hsep
      simp only [List.length_append, List.length_cons, List.length_nil] at hm
      obtain ⟨b₁, hread⟩ := hreads _ _ n _ _ (gs.reverse ++ b) hitem
        (show 2 * us₁.length ≤ m by omega)
        (ends_mark (c := ⟨.punctuation, ",", k₁⟩) (s := ",") (by simp [Token.isPunct]) (by decide)
          (⟨.newline, "\n", k₂⟩ :: (us₃ ++ (vs ++ ts))))
      obtain ⟨b₂, hitems⟩ := ih (by simp) (fun j hj => h j (by simp [hj])) hrest
        (show 2 * us₃.length + 2 ≤ m by omega)
        (⟨.newline, "\n", k₂⟩ :: ⟨.punctuation, ",", k₁⟩ :: b₁)
      rw [hl] at hitem
      obtain ⟨k, us₁, rfl, -⟩ := spells_cons.mp hitem
      refine ⟨b₂, ?_⟩
      have := readItems_comma (t := ⟨l.kind, l.text, k⟩) (c := ⟨.punctuation, ",", k₁⟩) [] hgs.gap hgap
        hbracket (by simp) (by simp [Token.isPunct]) hread
      rw [List.reverse_nil, List.nil_append, readItems_of_isIgnorable (by rfl), hitems] at this
      simpa [mark, lineEnd, requotedItems] using this

theorem rereads_array {items : List JsonTerm} (h : ∀ i ∈ items, i.Legible ∧ Rereads i) :
    Rereads (.array items) := by
  intro depth m n us ts b hus hm hts
  rw [lexemes] at hus
  cases items with
  | nil =>
    simp only [itemLexemes, blockLexemes, List.isEmpty_nil, if_true, spells_cons, spells_nil] at hus
    obtain ⟨k₁, _, rfl, k₂, _, rfl, rfl⟩ := hus
    obtain ⟨m, rfl⟩ := Nat.exists_eq_add_of_le' (show 2 ≤ m by simp at hm; omega)
    exact ⟨_, by simp [readWithin, readItems, requoted, requotedItems, mark, Token.isIgnorable, Token.isPunct,
      Token.isOp, startsArithmetic, isOperand]; rfl⟩
  | cons i is =>
    have hlines : (itemLexemes (depth + 1) (i :: is)).isEmpty = false := rfl
    rw [blockLexemes, hlines, if_neg (by simp), List.append_assoc, List.append_assoc, List.append_assoc] at hus
    obtain ⟨_, _, rfl, hopen, hrest⟩ := spells_append.mp hus
    simp only [spells_cons, spells_nil] at hopen
    obtain ⟨k₁, _, rfl, k₂, _, rfl, rfl⟩ := hopen
    obtain ⟨us, vs, rfl, hus, hvs⟩ := spells_append.mp hrest
    simp only [List.length_append, List.length_cons, List.length_nil] at hm
    obtain ⟨m, rfl⟩ := Nat.exists_eq_succ_of_ne_zero (show m ≠ 0 by omega)
    rw [← List.append_assoc] at hvs
    obtain ⟨b', hread⟩ := readItems_lines (n := n) (i :: is) (by simp) h hus hvs
      (show 2 * us.length + 2 ≤ m by omega) (⟨.newline, "\n", k₂⟩ :: ⟨.punctuation, "[", k₁⟩ :: b) ts
    refine ⟨b', ?_⟩
    have hgap : (⟨.newline, "\n", k₂⟩ : Token).isIgnorable := rfl
    rw [← readItems_of_isIgnorable hgap] at hread
    simp [readWithin, requoted, mark, lineEnd, Token.isIgnorable, Token.isPunct, Token.isOp, startsArithmetic,
      isOperand, hread]

/-- Members on lines of their own, and the end of their block. -/
theorem readMembers_lines {depth : Nat} (ms : List (JsonKey × JsonTerm)) (hne : ms ≠ [])
    (h : ∀ x ∈ ms, Rereads x.2)
    (hus : Spells us (List.intercalate [mark ",", lineEnd] ((memberLexemes depth ms).map (gap d ++ ·))))
    (hvs : Spells vs ([lineEnd] ++ gap e ++ [mark "\x7d"])) (hm : 2 * us.length + 2 ≤ m)
    (b ts : List Token) :
    ∃ b', readMembers m ⟨b, us ++ (vs ++ ts), n⟩ = .ok (requotedMembers ms, ⟨b', ts, n⟩) := by
  induction ms generalizing m b us with
  | nil => exact absurd rfl hne
  | cons x ms ih =>
    obtain ⟨key, t⟩ := x
    obtain ⟨m, rfl⟩ := Nat.exists_eq_succ_of_ne_zero (show m ≠ 0 by omega)
    have hreads := h (key, t) (by simp)
    cases ms with
    | nil =>
      obtain ⟨j₁, j₂, vs, rfl, hvs'⟩ := spells_closing hvs
      simp only [memberLexemes, List.map_cons, List.map_nil, List.intercalate_singleton] at hus
      obtain ⟨gs, _, rfl, hgs, hmember⟩ := spells_append.mp hus
      simp only [spells_cons] at hmember
      obtain ⟨k₁, _, rfl, k₂, _, rfl, k₃, us, rfl, hus'⟩ := hmember
      obtain ⟨hkey, hquotes⟩ := keyOf_lexeme key k₁
      have hends : Ends (⟨.newline, "\n", j₁⟩ :: vs ++ ⟨.punctuation, "\x7d", j₂⟩ :: ts) :=
        ends_lineEnd (s := "\x7d") hvs' (by simp [Token.isPunct]) ts
      simp only [List.length_append, List.length_cons] at hm
      obtain ⟨b₁, hread⟩ := hreads _ _ n _ _
        (⟨(blank 1).kind, (blank 1).text, k₃⟩ :: ⟨(mark ":").kind, (mark ":").text, k₂⟩ ::
          ⟨key.lexeme.kind, key.lexeme.text, k₁⟩ :: (gs.reverse ++ b)) hus'
        (show 2 * us.length ≤ m by omega) hends
      rw [← readWithin_of_isIgnorable (by rfl)] at hread
      obtain ⟨b', hb'⟩ := readMembers_last (c := ⟨.punctuation, "\x7d", j₂⟩)
        [] (⟨.newline, "\n", j₁⟩ :: vs) hgs.gap hkey (by simp) (by rfl)
        (by simpa [Token.isIgnorable] using hvs') (by simp [Token.isPunct]) hread
      rw [hquotes] at hb'
      exact ⟨b', by simpa [requotedMembers] using hb'⟩
    | cons y ms =>
      rw [memberLexemes, memberLexemes, List.map_cons, List.map_cons, List.intercalate_cons_cons,
        ← List.map_cons, ← memberLexemes, List.append_assoc, List.append_assoc] at hus
      obtain ⟨gs, _, rfl, hgs, hus₁⟩ := spells_append.mp hus
      obtain ⟨_, _, rfl, hmember, hus₂⟩ := spells_append.mp hus₁
      obtain ⟨_, us₃, rfl, hsep, hrest⟩ := spells_append.mp hus₂
      simp only [spells_cons, spells_nil] at hsep hmember
      obtain ⟨k₄, _, rfl, k₅, _, rfl, rfl⟩ := hsep
      obtain ⟨k₁, _, rfl, k₂, _, rfl, k₃, us, rfl, hus'⟩ := hmember
      obtain ⟨hkey, hquotes⟩ := keyOf_lexeme key k₁
      simp only [List.length_append, List.length_cons, List.length_nil] at hm
      obtain ⟨b₁, hread⟩ := hreads _ _ n _ _
        (⟨(blank 1).kind, (blank 1).text, k₃⟩ :: ⟨(mark ":").kind, (mark ":").text, k₂⟩ ::
          ⟨key.lexeme.kind, key.lexeme.text, k₁⟩ :: (gs.reverse ++ b)) hus'
        (show 2 * us.length ≤ m by omega)
        (ends_mark (c := ⟨.punctuation, ",", k₄⟩) (s := ",") (by simp [Token.isPunct]) (by decide)
          (⟨.newline, "\n", k₅⟩ :: (us₃ ++ (vs ++ ts))))
      obtain ⟨b₂, hmembers⟩ := ih (by simp) (fun j hj => h j (by simp [hj])) hrest
        (show 2 * us₃.length + 2 ≤ m by omega)
        (⟨.newline, "\n", k₅⟩ :: ⟨.punctuation, ",", k₄⟩ :: b₁)
      rw [← readWithin_of_isIgnorable (by rfl)] at hread
      refine ⟨b₂, ?_⟩
      have := readMembers_comma (c := ⟨.punctuation, ",", k₄⟩) [] [] hgs.gap hkey (by simp) (by rfl)
        (by simp) (by simp [Token.isPunct]) hread
      rw [List.nil_append, List.reverse_nil, List.nil_append, readMembers_of_isIgnorable (by rfl), hmembers,
        hquotes] at this
      simpa [mark, lineEnd, requotedMembers] using this

theorem rereads_object {members : List (JsonKey × JsonTerm)}
    (h : ∀ x ∈ members, Rereads x.2) : Rereads (.object members) := by
  intro depth m n us ts b hus hm hts
  rw [lexemes] at hus
  cases members with
  | nil =>
    simp only [memberLexemes, blockLexemes, List.isEmpty_nil, if_true, spells_cons, spells_nil] at hus
    obtain ⟨k₁, _, rfl, k₂, _, rfl, rfl⟩ := hus
    obtain ⟨m, rfl⟩ := Nat.exists_eq_add_of_le' (show 2 ≤ m by simp at hm; omega)
    exact ⟨_, by simp [readWithin, readMembers, requoted, requotedMembers, mark, Token.isIgnorable, Token.isPunct,
      Token.isOp, startsArithmetic, isOperand]; rfl⟩
  | cons x ms =>
    have hlines : (memberLexemes (depth + 1) (x :: ms)).isEmpty = false := rfl
    rw [blockLexemes, hlines, if_neg (by simp), List.append_assoc, List.append_assoc, List.append_assoc] at hus
    obtain ⟨_, _, rfl, hopen, hrest⟩ := spells_append.mp hus
    simp only [spells_cons, spells_nil] at hopen
    obtain ⟨k₁, _, rfl, k₂, _, rfl, rfl⟩ := hopen
    obtain ⟨us, vs, rfl, hus, hvs⟩ := spells_append.mp hrest
    simp only [List.length_append, List.length_cons, List.length_nil] at hm
    obtain ⟨m, rfl⟩ := Nat.exists_eq_succ_of_ne_zero (show m ≠ 0 by omega)
    rw [← List.append_assoc] at hvs
    obtain ⟨b', hread⟩ := readMembers_lines (n := n) (x :: ms) (by simp) h hus hvs
      (show 2 * us.length + 2 ≤ m by omega)
      (⟨.newline, "\n", k₂⟩ :: ⟨.punctuation, "\x7b", k₁⟩ :: b) ts
    refine ⟨b', ?_⟩
    have hgap : (⟨.newline, "\n", k₂⟩ : Token).isIgnorable := rfl
    rw [← readMembers_of_isIgnorable hgap] at hread
    simp [readWithin, requoted, mark, lineEnd, Token.isIgnorable, Token.isPunct, Token.isOp, startsArithmetic,
      isOperand, hread]

end

mutual

theorem rereads (t : JsonTerm) (h : t.Legible) : Rereads t := by
  cases t with
  | null => exact rereads_operand "null" (fun _ => rfl) rfl (.inr (.inr ⟨rfl, rfl⟩))
  | bool v =>
    cases v
    · exact rereads_operand "false" (fun _ => rfl) rfl (.inr (.inr ⟨rfl, rfl⟩))
    · exact rereads_operand "true" (fun _ => rfl) rfl (.inr (.inr ⟨rfl, rfl⟩))
  | number text =>
    rcases h with h | ⟨h, htext⟩
    · exact rereads_operand text (fun _ => by rw [lexemes, pieces_operand h]) rfl (.inl ⟨rfl, rfl⟩)
    · exact rereads_run (fun _ => rfl) rfl h htext
  | literal l => exact rereads_literal l
  | reference text =>
    rcases h with h | ⟨h, hword⟩
    · exact rereads_operand text (fun _ => by rw [lexemes, pieces_operand h]) rfl (.inr (.inl ⟨rfl, rfl⟩))
    · exact rereads_operand text (fun _ => by rw [lexemes, pieces_operand h]) rfl (.inr (.inr ⟨rfl, hword.symm⟩))
  | arithmetic text => exact rereads_run (fun _ => rfl) rfl h.1 h.2
  | array items => exact rereads_array (rereadsItems items h)
  | object members => exact rereads_object (rereadsMembers members h)

theorem rereadsItems (items : List JsonTerm) (h : ItemsLegible items) :
    ∀ i ∈ items, i.Legible ∧ Rereads i := by
  cases items with
  | nil => simp
  | cons t ts =>
    have ht := rereads t h.1
    have hts := rereadsItems ts h.2
    simpa [h.1, ht] using hts

theorem rereadsMembers (members : List (JsonKey × JsonTerm)) (h : MembersLegible members) :
    ∀ x ∈ members, Rereads x.2 := by
  cases members with
  | nil => simp
  | cons m ms =>
    obtain ⟨k, t⟩ := m
    have ht := rereads t h.2.1
    exact List.forall_mem_cons.mpr ⟨ht, rereadsMembers ms h.2.2⟩

end

/-- A term is read back from its lexemes, in the quotes that are printed. -/
theorem read_requoted {t : JsonTerm} (h : t.Legible) {depth : Nat} {us : List Token}
    (hus : Spells us (t.lexemes depth)) {ts : List Token} (hts : Ends ts) (b : List Token) (n : Nat) :
    ∃ b', read ⟨b, us ++ ts, n⟩ = .ok (t.requoted, ⟨b', ts, n⟩) :=
  rereads t h _ _ n _ _ b hus (by simp only [List.length_append]; omega) hts

theorem read_lexemes {t : JsonTerm} (h : t.Legible) {depth : Nat} {us : List Token}
    (hus : Spells us (t.lexemes depth)) {ts : List Token} (hts : Ends ts) (b : List Token) (n : Nat) :
    ∃ t' b', read ⟨b, us ++ ts, n⟩ = .ok (t', ⟨b', ts, n⟩) ∧ t'.plain = t.plain := by
  obtain ⟨b', hread⟩ := read_requoted h hus hts b n
  exact ⟨t.requoted, b', hread, t.plain_requoted h⟩

end JsonTerm
end RequestLang
