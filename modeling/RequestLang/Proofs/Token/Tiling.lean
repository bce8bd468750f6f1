import RequestLang.Proofs.Token.Faults

/-! Tokens tile the text. Each step of the lexer takes a token off the head of what is left or gives up there, so
that the tokens of a text lie side by side from its first byte to its last, and a text has no tokens exactly where
one of the steps meets something that is left open. -/
namespace RequestLang
open Lexer

namespace Lexer

/-- What stands between the quotes of a string of one line. A backslash takes the character behind it along. -/
inductive Enclosed (q : Char) : List Char → Prop
  | nil : Enclosed q []
  | plain {c : Char} {cs : List Char} : c ≠ q → c ≠ '\\' → c ≠ '\n' → Enclosed q cs → Enclosed q (c :: cs)
  | escape {c : Char} {cs : List Char} : c ≠ '\n' → Enclosed q cs → Enclosed q ('\\' :: c :: cs)

/-- A string literal from its first quote to its last. -/
inductive IsLiteral (q : Char) : List Char → Prop
  | line {body : List Char} : Enclosed q body → IsLiteral q (q :: (body ++ [q]))
  | fence {body : List Char} : IsLiteral q ([q, q, q] ++ body ++ [q, q, q])

section
variable {q : Char} {cs rest body : List Char}

theorem closing?_enclosed (hq : q = '"' ∨ q = '\'') (h : Enclosed q body) (rest : List Char) :
    closing? q (body ++ q :: rest) = some (body.length + 1) := by
  have hbackslash : q ≠ '\\' := by rcases hq with rfl | rfl <;> decide
  induction h with
  | nil => simp [closing?, hbackslash]
  | plain hquote hplain hfeed _ ih => simp [closing?, hquote, hplain, hfeed, ih]
  | escape hfeed _ ih => simp [closing?, hfeed, ih]

theorem enclosed_of_closing? {n : Nat} (h : closing? q cs = some n) :
    ∃ body rest, Enclosed q body ∧ cs = body ++ q :: rest := by
  induction cs using closing?.induct q generalizing n with
  | case1 => simp [closing?] at h
  | case2 => simp [closing?] at h
  | case3 cs => simp [closing?] at h
  | case4 c cs hc ih =>
    rw [closing?, if_neg hc] at h
    obtain ⟨m, hm, -⟩ := Option.map_eq_some_iff.mp h
    obtain ⟨body, rest, hbody, rfl⟩ := ih hm
    exact ⟨'\\' :: c :: body, rest, .escape hc hbody, rfl⟩
  | case5 cs hne hbackslash => exact ⟨[], cs, .nil, rfl⟩
  | case6 cs hne hbackslash hq =>
    rw [closing?.eq_4 _ _ _ hne hbackslash, if_neg hq, if_pos rfl] at h
    cases h
  | case7 c cs hne hbackslash hq hn ih =>
    rw [closing?.eq_4 _ _ _ hne hbackslash, if_neg hq, if_neg hn] at h
    obtain ⟨m, hm, -⟩ := Option.map_eq_some_iff.mp h
    obtain ⟨body, rest, hbody, rfl⟩ := ih hm
    have hplain : c ≠ '\\' := by
      rintro rfl
      cases body with
      | nil => exact hbackslash q rest rfl rfl
      | cons d body => exact hbackslash d (body ++ q :: rest) rfl rfl
    exact ⟨c :: body, rest, .plain hq hplain hn hbody, rfl⟩

/-- A literal begins at a quote exactly where the quote is closed on its line: the first two of three quotes are
a literal already. -/
theorem exists_isLiteral_iff (hq : q = '"' ∨ q = '\'') :
    (∃ literal, IsLiteral q literal ∧ literal <+: q :: cs) ↔ (closing? q cs).isSome := by
  constructor
  · rintro ⟨literal, hliteral, rest, hrest⟩
    obtain ⟨body, more, hbody, rfl⟩ : ∃ body more, Enclosed q body ∧ cs = body ++ q :: more := by
      cases hliteral with
      | @line body hbody => exact ⟨body, rest, hbody, by simpa using hrest.symm⟩
      | @fence body => exact ⟨[], q :: (body ++ [q, q, q] ++ rest), .nil, by simpa using hrest.symm⟩
    rw [closing?_enclosed hq hbody]
    rfl
  · intro h
    obtain ⟨n, hn⟩ := Option.isSome_iff_exists.mp h
    obtain ⟨body, rest, hbody, rfl⟩ := enclosed_of_closing? hn
    exact ⟨_, .line hbody, rest, by simp⟩

theorem lexeme?_quote_eq_none_iff (hq : q = '"' ∨ q = '\'') : lexeme? (q :: cs) = none ↔
    ∀ literal, IsLiteral q literal → ¬literal <+: q :: cs := by
  have hnone : (∀ literal, IsLiteral q literal → ¬literal <+: q :: cs) ↔ closing? q cs = none := by
    rw [← Option.not_isSome_iff_eq_none, ← exists_isLiteral_iff hq]
    push Not
    rfl
  rw [hnone]
  constructor
  · intro h
    have hall := List.findSome?_eq_none_iff.mp h
    have hquoted : quoted? q (q :: cs) = none := by
      rcases hq with rfl | rfl
      · simpa using hall (.string, quoted? '"') (by simp [classes])
      · simpa using hall (.string, quoted? '\'') (by simp [classes])
    simpa [quoted?] using hquoted
  · intro h
    -- three quotes in a row would close a literal at the second one
    have hfence : ¬[q, q] <+: cs := by
      rintro ⟨rest, rfl⟩
      have hopen := closing?_enclosed hq Enclosed.nil (q :: rest)
      rw [List.nil_append] at hopen
      simp [hopen] at h
    rcases hq with rfl | rfl <;>
      simp [lexeme?, classes, newline?, headed?, isGap, lineComment?, fenced?, quoted?, tag?, keywordLength?, keywords,
        identifier?, operators, Text.isNameStart, h, hfence]

end

/-- A step of the lexer: the lexeme of the first class that fits is taken off, or a character that begins none,
unless it is a quote. -/
def Takes (t : Token) (rest : List Char) : Prop :=
  Lexeme.Cuts t.lexeme rest ∨ Stray t.lexeme rest ∧ ∀ c ∈ t.text.toList, c ≠ '"' ∧ c ≠ '\''

/-- Step by step the lexer takes these tokens off a text that begins at an offset and reaches a boundary. -/
def Reached (k : Nat) (cs : List Char) : List Token → List Char → Prop
  | [], rest => cs = rest
  | t :: ts, rest =>
    t.start = k ∧ ∃ more, cs = t.text.toList ++ more ∧ Takes t more ∧ Reached t.stop more ts rest

/-- What is left open at the head of a text, by the mark that opens it. -/
inductive LeftOpen (rest : List Char) : SyntaxCause → List Char → Prop
  | script : ['\x7b', '%'] <+: rest → ¬['%', '\x7d'] <:+: rest → LeftOpen rest .unclosedScript ['\x7b', '%']
  | string {q : Char} : q = '"' ∨ q = '\'' → [q] <+: rest →
      (∀ literal, IsLiteral q literal → ¬literal <+: rest) → LeftOpen rest .unclosedString [q]

theorem lexeme?_brace_ne_none (cs : List Char) : lexeme? ('\x7b' :: cs) ≠ none := by
  intro h
  have hlast := List.findSome?_eq_none_iff.mp h
    (.punctuation, headed? (['{', '}', '(', ')', '[', ']', ';', ',', '.', ':'].contains ·) fun _ => false)
    (by simp [classes])
  simp [headed?] at hlast

section
variable {k : Nat} {cs rest : List Char} {t : Token} {ts : List Token}

theorem Takes.nonempty (h : Takes t rest) : t.text.toList ≠ [] := by
  rcases h with hcut | ⟨⟨-, c, hc, -⟩, -⟩
  · exact hcut.nonempty
  · rw [show t.text.toList = [c] from hc]
    exact List.cons_ne_nil _ _

/-- A step goes on behind the token. -/
theorem scan_takes (h : Takes t rest) : scan t.start (t.text.toList ++ rest) = (scan t.stop rest).map (t :: ·) := by
  rcases h with hcut | ⟨⟨hkind, c, hc, hnone⟩, hquote⟩
  · exact Lexeme.scan_cuts hcut t.start
  · have htext : t.text.toList = [c] := hc
    have hbrace : c ≠ '\x7b' := by
      rintro rfl
      exact lexeme?_brace_ne_none rest hnone
    have hplain : ¬(c = '"' ∨ c = '\'') := not_or.mpr (hquote c (by simp [htext]))
    have hopen : ['\x7b', '%'].isPrefixOf (c :: rest) = false := by simp [List.isPrefixOf, hbrace.symm]
    have htoken : t = ⟨.punctuation, String.singleton c, t.start⟩ := by
      have : t.text = String.singleton c := by rw [← @String.ofList_toList t.text, htext]; rfl
      rw [← this, ← show t.kind = .punctuation from hkind]
    rw [htext, List.singleton_append, scan, hopen, Bool.false_and, if_neg Bool.false_ne_true, hnone]
    dsimp only
    rw [if_neg hplain, ← htoken, Token.stop, htext, Text.byteSize_cons, Text.byteSize_nil, Nat.add_zero]

theorem scan_reached (h : Reached k cs ts rest) : scan k cs = (scan (k + width ts) rest).map (ts ++ ·) := by
  induction ts generalizing k cs with
  | nil =>
    obtain rfl : cs = rest := h
    cases hs : scan k cs <;> simp [hs, Except.map]
  | cons t ts ih =>
    obtain ⟨rfl, more, rfl, htakes, hmore⟩ := h
    rw [scan_takes htakes, ih hmore, width_cons, ← Nat.add_assoc, ← Token.stop]
    cases scan (t.stop + width ts) rest <;> rfl

theorem scan_leftOpen {cause : SyntaxCause} {mark : List Char} (h : LeftOpen rest cause mark) (n : Nat) :
    scan n rest = .error ⟨cause, n, n + Text.byteSize mark⟩ := by
  cases h with
  | script hopen hclosed =>
    obtain ⟨more, rfl⟩ := hopen
    have hholds : Text.holds ['%', '\x7d'] ('\x7b' :: '%' :: more) = false := by
      rw [← Bool.not_eq_true, Text.holds_iff_infix (by decide)]
      exact hclosed
    rw [List.cons_append, List.cons_append, List.nil_append, scan, hholds]
    simp [List.isPrefixOf]
    rfl
  | @string q hq hopen hnone =>
    obtain ⟨more, rfl⟩ := hopen
    rw [List.singleton_append] at hnone ⊢
    have hbrace : q ≠ '\x7b' := by rcases hq with rfl | rfl <;> decide
    have hplain : ['\x7b', '%'].isPrefixOf (q :: more) = false := by simp [List.isPrefixOf, hbrace.symm]
    rw [scan, hplain, (lexeme?_quote_eq_none_iff hq).mpr hnone, byteSize_of_quote hq]
    simp [hq]

/-- The lexer takes a token off what is left, or something is left open there. -/
theorem step (k : Nat) (hcs : cs ≠ []) :
    (∃ t more, t.start = k ∧ cs = t.text.toList ++ more ∧ Takes t more) ∨ ∃ cause mark, LeftOpen cs cause mark := by
  obtain ⟨c, cs, rfl⟩ := List.exists_cons_of_ne_nil hcs
  by_cases hopen : ['\x7b', '%'].isPrefixOf (c :: cs) && !Text.holds ['%', '\x7d'] (c :: cs)
  · rw [Bool.and_eq_true, List.isPrefixOf_iff_prefix, Bool.not_eq_true', ← Bool.not_eq_true,
      Text.holds_iff_infix (by decide)] at hopen
    exact .inr ⟨_, _, .script hopen.1 hopen.2⟩
  cases hlex : lexeme? (c :: cs) with
  | some found =>
    obtain ⟨kind, n⟩ := found
    obtain ⟨hpos, hle⟩ := within_lexeme hlex
    have hlength : ((c :: cs).take n).length = n := by rw [List.length_take, Nat.min_eq_left hle]
    have hwhole : (c :: cs).take n ++ (c :: cs).drop n = c :: cs := List.take_append_drop n _
    refine .inl ⟨⟨kind, String.ofList ((c :: cs).take n), k⟩, (c :: cs).drop n, rfl, ?_, .inl ⟨?_, ?_, ?_⟩⟩
    · rw [String.toList_ofList, hwhole]
    · rw [Token.lexeme, String.toList_ofList]
      exact List.ne_nil_of_length_pos (hlength.symm ▸ hpos)
    · rw [Token.lexeme, String.toList_ofList, hwhole]
      exact Bool.eq_false_iff.mpr hopen
    · rw [Token.lexeme, String.toList_ofList, hwhole, hlength, hlex]
  | none =>
    by_cases hquote : c = '"' ∨ c = '\''
    · exact .inr ⟨_, _, .string hquote ⟨cs, rfl⟩ ((lexeme?_quote_eq_none_iff hquote).mp hlex)⟩
    · refine .inl ⟨⟨.punctuation, String.ofList [c], k⟩, cs, rfl, ?_, .inr ⟨⟨rfl, c, ?_, hlex⟩, ?_⟩⟩
      · rw [String.toList_ofList, List.singleton_append]
      · rw [Token.lexeme, String.toList_ofList]
      · simpa using hquote

/-- The lexer goes on to the end of the text or to something that is left open. -/
theorem exists_reached (k : Nat) (cs : List Char) :
    ∃ ts rest, Reached k cs ts rest ∧ (rest = [] ∨ ∃ cause mark, LeftOpen rest cause mark) := by
  -- on the length, since a token takes several characters
  induction hn : cs.length using Nat.strongRecOn generalizing cs k with
  | _ n ih =>
    by_cases hcs : cs = []
    · exact ⟨[], cs, rfl, .inl hcs⟩
    rcases step k hcs with ⟨t, more, hstart, rfl, htakes⟩ | hopen
    · have hlt : more.length < n := by
        have := List.length_pos_of_ne_nil htakes.nonempty
        rw [← hn, List.length_append]
        omega
      obtain ⟨ts, rest, hreached, hend⟩ := ih _ hlt t.stop more rfl
      exact ⟨t :: ts, rest, ⟨hstart, more, rfl, htakes, hreached⟩, hend⟩
    · exact ⟨[], cs, rfl, .inr hopen⟩

theorem scan_eq_ok_iff : scan k cs = .ok ts ↔ Reached k cs ts [] := by
  constructor
  · intro h
    obtain ⟨us, rest, hreached, rfl | ⟨cause, mark, hopen⟩⟩ := exists_reached k cs
    · rw [scan_reached hreached, scan] at h
      obtain rfl : us = ts := by simpa [Except.map] using h
      exact hreached
    · rw [scan_reached hreached, scan_leftOpen hopen] at h
      cases h
  · intro h
    rw [scan_reached h, scan]
    simp [Except.map]

theorem scan_eq_error_iff {f : Fault} : scan k cs = .error f ↔ ∃ ts rest mark,
    Reached k cs ts rest ∧ LeftOpen rest f.cause mark ∧ f.span = ⟨k + width ts, k + width ts + Text.byteSize mark⟩ := by
  constructor
  · intro h
    obtain ⟨us, rest, hreached, rfl | ⟨cause, mark, hopen⟩⟩ := exists_reached k cs
    · rw [scan_eq_ok_iff.mpr hreached] at h
      cases h
    · rw [scan_reached hreached, scan_leftOpen hopen] at h
      cases h
      exact ⟨us, rest, mark, hreached, hopen, rfl⟩
  · rintro ⟨ts, rest, mark, hreached, hopen, hspan⟩
    obtain ⟨cause, start, stop⟩ := f
    obtain ⟨rfl, rfl⟩ : start = k + width ts ∧ stop = k + width ts + Text.byteSize mark := by
      simpa [Fault.span] using hspan
    rw [scan_reached hreached, scan_leftOpen hopen]
    rfl

theorem Reached.text (h : Reached k cs ts rest) : textOf ts ++ rest = cs := by
  induction ts generalizing k cs with
  | nil => exact h.symm
  | cons t ts ih =>
    obtain ⟨-, more, rfl, -, hmore⟩ := h
    rw [textOf_cons, List.append_assoc, ih hmore]

theorem Reached.nonempty (h : Reached k cs ts rest) : ∀ t ∈ ts, t.text.toList ≠ [] := by
  induction ts generalizing k cs with
  | nil => exact fun _ ht => absurd ht List.not_mem_nil
  | cons t ts ih =>
    obtain ⟨-, more, -, htakes, hmore⟩ := h
    exact List.forall_mem_cons.mpr ⟨htakes.nonempty, ih hmore⟩

/-- Each token stands where its span says. -/
theorem Reached.slice (front : List Char) (h : Reached (Text.byteSize front) cs ts rest) :
    ∀ t ∈ ts, Text.slice (front ++ cs) t.start t.stop = t.text.toList := by
  induction ts generalizing front cs with
  | nil => exact fun _ ht => absurd ht List.not_mem_nil
  | cons t ts ih =>
    obtain ⟨hstart, more, rfl, -, hmore⟩ := h
    have hstop : t.stop = Text.byteSize (front ++ t.text.toList) := by
      rw [Token.stop, hstart, Text.byteSize_append]
    refine List.forall_mem_cons.mpr ⟨?_, ?_⟩
    · rw [hstop, hstart, Text.slice_append]
    · rw [← List.append_assoc]
      exact ih _ (hstop ▸ hmore)

end

end Lexer

/-- Spans side by side from one offset to another, none of which is empty. -/
def Span.Tile (start stop : Nat) : List Span → Prop
  | [] => start = stop
  | s :: ss => s.start = start ∧ s.start < s.stop ∧ Tile s.stop stop ss

theorem Lexer.Reached.tile {k : Nat} {cs rest : List Char} {ts : List Token} (h : Reached k cs ts rest) :
    Span.Tile k (k + width ts) (ts.map Token.span) := by
  induction ts generalizing k cs with
  | nil => rfl
  | cons t ts ih =>
    obtain ⟨rfl, more, -, htakes, hmore⟩ := h
    have hpos := Text.byteSize_pos htakes.nonempty
    have htile := ih hmore
    rw [Token.stop, Nat.add_assoc, ← width_cons] at htile
    exact ⟨rfl, by simp only [Token.span, Token.stop]; omega, htile⟩

namespace Lexer

/-- Tokens tile the text. They are not empty, their texts make up the text, their spans lie side by side from its
first byte to its last, and each cuts out the text of its token. The lexer fails exactly where it reaches, at a
boundary between tokens, a script block without an end or a quote that begins no literal, and it blames the mark
that stands there. -/
theorem tokenize_tiles (s : String) :
    (∀ ts, tokenize s = .ok ts → (∀ t ∈ ts, t.text ≠ "") ∧ ts.flatMap (·.text.toList) = s.toList ∧
      Span.Tile 0 (Text.byteSize s.toList) (ts.map Token.span) ∧ ∀ t ∈ ts, t.span.textIn s = t.text) ∧
    (∀ f, tokenize s = .error f ↔ ∃ ts rest mark, Reached 0 s.toList ts rest ∧ LeftOpen rest f.cause mark ∧
      f.span = ⟨width ts, width ts + Text.byteSize mark⟩) ∧
    SyntaxCause.unclosedScript.message = "Unclosed script block, expected '%\x7d'" ∧
    SyntaxCause.unclosedString.message = "Unclosed string literal" := by
  refine ⟨fun ts h => ?_, fun f => ?_, rfl, rfl⟩
  · have hreached := scan_eq_ok_iff.mp h
    have htext : textOf ts = s.toList := by simpa using hreached.text
    have htile := hreached.tile
    rw [Nat.zero_add, width, htext] at htile
    refine ⟨fun t ht => ?_, flatMap_of_scan h, htile, fun t ht => ?_⟩
    · rintro hempty
      exact hreached.nonempty t ht (by rw [hempty]; rfl)
    · rw [Span.textIn, Token.span]
      exact (congrArg String.ofList (hreached.slice [] t ht)).trans String.ofList_toList
  · have herror := @scan_eq_error_iff 0 s.toList f
    simp only [Nat.zero_add] at herror
    exact herror

/-- The letter begins no lexeme and takes two bytes. With one quote less, the other is left open. -/
theorem tokenize_tiles_quotes : Span.Tile 0 5 [⟨0, 2⟩, ⟨2, 3⟩, ⟨3, 5⟩] ∧
    ∃ ts rest mark, Reached 0 ['é', '=', '\''] ts rest ∧ LeftOpen rest .unclosedString mark ∧
      (⟨3, 4⟩ : Span) = ⟨width ts, width ts + Text.byteSize mark⟩ := by
  have hok : tokenize "é=''" = .ok [⟨.punctuation, "é", 0⟩, ⟨.operator, "=", 2⟩, ⟨.string, "''", 3⟩] := by cbv
  have herror : tokenize "é='" = .error ⟨.unclosedString, 3, 4⟩ := by cbv
  exact ⟨((tokenize_tiles "é=''").1 _ hok).2.2.1, ((tokenize_tiles "é='").2.1 _).mp herror⟩

end Lexer
end RequestLang
