import RequestLang.Proofs.Token.Place

/-! Faults lie in the text. Wherever the lexer or a cursor gives up, the span that is blamed goes from a
boundary between characters to one that is no earlier. -/
namespace RequestLang
open Lexer Cursor

namespace Text
variable {s : String} {p q : Nat}

theorem placeOf_of_isPrefix {front : List Char} (h : front <+: s.toList) :
    placeOf s (byteSize front) = Place.reached front := by
  obtain ⟨rest, hrest⟩ := h
  rw [placeOf, ← hrest, takeBytes_append]

theorem key_placeOf_lt (hp : IsBoundary s.toList p) (hq : IsBoundary s.toList q) :
    (placeOf s p).key < (placeOf s q).key ↔ p < q := by
  have hlt {p q : Nat} (hp : IsBoundary s.toList p) (hq : IsBoundary s.toList q) (h : p < q) :
      (placeOf s p).key < (placeOf s q).key := by
    obtain ⟨front, hfront, rfl⟩ := hp
    obtain ⟨back, hback, rfl⟩ := hq
    obtain ⟨more, hmore, hsplit⟩ := exists_of_byteSize_lt hfront hback h
    rw [placeOf_of_isPrefix hfront, placeOf_of_isPrefix hback, hsplit]
    exact Place.key_lt_reached front hmore
  refine ⟨fun h => ?_, hlt hp hq⟩
  rcases Nat.lt_trichotomy p q with hpq | rfl | hpq
  · exact hpq
  · exact absurd h (lt_irrefl _)
  · exact absurd h (hlt hq hp hpq).not_gt

end Text

/-- A span of a text that cuts no character. -/
structure Span.Lies (s : String) (span : Span) : Prop where
  starts : Text.IsBoundary s.toList span.start
  stops : Text.IsBoundary s.toList span.stop
  ordered : span.start ≤ span.stop

/-- What fails, fails at a span of the text. -/
def Blames {α : Type} (s : String) (x : Except Fault α) : Prop := ∀ f, x = .error f → f.span.Lies s

namespace Blames
variable {α β : Type} {s : String}

theorem ok (a : α) : Blames s (.ok a) := nofun

theorem error {f : Fault} (h : f.span.Lies s) : Blames s (.error f : Except Fault α) := by
  rintro _ ⟨⟩
  exact h

theorem bind {x : Except Fault α} {g : α → Except Fault β} (hx : Blames s x)
    (hg : ∀ a, x = .ok a → Blames s (g a)) : Blames s (x >>= g) := by
  intro f h
  rcases bind_eq_error.mp h with h | ⟨a, ha, h⟩
  · exact hx f h
  · exact hg a ha f h

theorem ite {p : Prop} [Decidable p] {x y : Except Fault α} (hx : p → Blames s x) (hy : ¬p → Blames s y) :
    Blames s (if p then x else y) := by
  split
  · exact hx ‹_›
  · exact hy ‹_›

end Blames

namespace Lexer

/-- Where the lexer gives up: at a script block without an end, or at a quote that opens no literal. -/
def GivesUp (rest : List Char) (n : Nat) (f : Fault) : Prop :=
  ['{', '%'] <+: rest ∧ Text.holds ['%', '}'] rest = false ∧ f = ⟨.unclosedScript, n, n + 2⟩ ∨
    (∃ q, (q = '"' ∨ q = '\'') ∧ [q] <+: rest) ∧ lexeme? rest = none ∧ f = ⟨.unclosedString, n, n + 1⟩

theorem scan_eq_error {cs : List Char} {k : Nat} {f : Fault} (h : scan k cs = .error f) :
    ∃ front rest, cs = front ++ rest ∧ GivesUp rest (k + Text.byteSize front) f := by
  -- on the length, since a lexeme takes off several characters
  induction hn : cs.length using Nat.strongRecOn generalizing cs k with
  | _ n ih =>
    have hlater {front rest : List Char} (hcs : cs = front ++ rest) (hne : front ≠ [])
        (h : scan (k + Text.byteSize front) rest = .error f) :
        ∃ front rest, cs = front ++ rest ∧ GivesUp rest (k + Text.byteSize front) f := by
      have hpos := List.length_pos_of_ne_nil hne
      have hlt : rest.length < n := by rw [← hn, hcs, List.length_append]; omega
      obtain ⟨front', rest', rfl, hstop⟩ := ih _ hlt h rfl
      refine ⟨front ++ front', rest', by rw [hcs, List.append_assoc], ?_⟩
      rwa [Text.byteSize_append, ← Nat.add_assoc]
    cases cs with
    | nil => simp [scan] at h
    | cons c cs =>
      rw [scan] at h
      split at h
      · rename_i hopen
        simp only [Bool.and_eq_true, List.isPrefixOf_iff_prefix, Bool.not_eq_true'] at hopen
        cases h
        exact ⟨[], c :: cs, rfl, .inl ⟨hopen.1, hopen.2, rfl⟩⟩
      split at h
      · rename_i kind n hlex
        exact hlater (by simp) (List.cons_ne_nil _ _) (map_eq_error.mp h)
      · rename_i hlex
        split at h
        · rename_i hquote
          cases h
          exact ⟨[], c :: cs, rfl, .inr ⟨⟨c, hquote, cs, rfl⟩, hlex, rfl⟩⟩
        · exact hlater (show c :: cs = [c] ++ cs from rfl) (List.cons_ne_nil _ _) (map_eq_error.mp h)

theorem byteSize_of_quote {q : Char} (hq : q = '"' ∨ q = '\'') : Text.byteSize [q] = 1 := by
  rcases hq with rfl | rfl <;> rfl

theorem blames_tokenize (s : String) : Blames s (tokenize s) := by
  intro f h
  obtain ⟨front, rest, hs, hstop⟩ := scan_eq_error h
  -- what the fault is about are the first characters of the rest
  have hlies {opening : List Char} (hopen : opening <+: rest) :
      Span.Lies s ⟨Text.byteSize front, Text.byteSize front + Text.byteSize opening⟩ := by
    refine ⟨⟨front, hs ▸ List.prefix_append .., rfl⟩, ⟨front ++ opening, ?_, Text.byteSize_append ..⟩, Nat.le_add_right ..⟩
    rw [hs]
    exact List.prefix_append_right_inj front |>.mpr hopen
  rw [Nat.zero_add] at hstop
  rcases hstop with ⟨hopen, -, rfl⟩ | ⟨⟨q, hq, hopen⟩, -, rfl⟩
  · exact hlies hopen
  · exact byteSize_of_quote hq ▸ hlies hopen

end Lexer

variable {α : Type} {s : String} {c c' : Cursor}

namespace Cursor.Along

theorem advance (h : c.Along s) : c.advance.Along s := h.reaches c.reaches_advance

theorem skip (h : c.Along s) : c.skip.Along s := h.reaches c.reaches_skip

theorem skipInline (h : c.Along s) : c.skipInline.Along s := h.reaches c.reaches_skipInline

theorem isBoundary (h : c.Along s) {ts : List Token} (hts : ts <+: c.all) : Text.IsBoundary s.toList (width ts) := by
  obtain ⟨rest, hrest⟩ := hts
  exact ⟨textOf ts, ⟨textOf rest, by rw [← textOf_append, hrest, h.text]⟩, rfl⟩

/-- Between two places among the tokens lies a span of the text. -/
theorem lies (h : c.Along s) {us ts : List Token} (hus : us <+: ts) (hts : ts <+: c.all) :
    Span.Lies s ⟨width us, width ts⟩ :=
  ⟨h.isBoundary (hus.trans hts), h.isBoundary hts, width_le_of_prefix hus⟩

theorem lies_token (h : c.Along s) {t : Token} (ht : t ∈ c.all) : t.span.Lies s := by
  obtain ⟨before, after, hall⟩ := List.append_of_mem ht
  have hstart : t.start = width before := by rw [start_of_scan (hall ▸ h.tokens), Nat.zero_add]
  have hlies := h.lies (List.prefix_append before [t]) ⟨after, by simp [hall]⟩
  rwa [← hstart, ← h.stop_eq hall] at hlies

theorem lies_current (h : c.Along s) {t : Token} (ht : c.token? = some t) : t.span.Lies s := by
  obtain ⟨ts, hts⟩ := token?_eq_some ht
  refine h.lies_token ?_
  rw [all, hts]
  exact List.mem_append_right _ List.mem_cons_self

theorem lies_end (h : c.Along s) (cause : SyntaxCause) : (c.endFault cause).span.Lies s := by
  have hlies := h.lies (List.prefix_refl c.all) List.prefix_rfl
  rwa [← h.size_eq] at hlies

/-- From a place at which the cursor has been to the end of what means something before it, or nothing. -/
theorem lies_offset (h : c.Along s) (h' : c'.Along s) (hreach : c.Reaches c') (cause : SyntaxCause) :
    (⟨cause, c.offset, max c'.lastEnd c.offset⟩ : Fault).span.Lies s := by
  have hoffset : c.offset = width c.behind.reverse := h.offset_eq
  have hlast : c'.lastEnd = width c'.settled := h'.lastEnd_eq
  have hbefore : c.behind.reverse <+: c'.all := hreach.all ▸ c.behind_prefix_all
  refine ⟨?_, ?_, Nat.le_max_right ..⟩
  · exact hoffset ▸ h'.isBoundary hbefore
  · rcases Nat.le_total c'.lastEnd c.offset with hle | hle
    · rw [Fault.span, Nat.max_eq_right hle, hoffset]
      exact h'.isBoundary hbefore
    · rw [Fault.span, Nat.max_eq_left hle, hlast]
      exact h'.isBoundary (c'.settled_prefix.trans c'.behind_prefix_all)

/-- A fault at the current token is blamed on it, on a line end before it or on the end of what was read. -/
theorem lies_here (h : c.Along s) (cause : SyntaxCause) : (c.faultHere cause).span.Lies s := by
  unfold faultHere
  split
  · have hlies := h.lies (List.prefix_refl c.settled) (c.settled_prefix.trans c.behind_prefix_all)
    rwa [← h.lastEnd_eq] at hlies
  · rename_i t ht
    cases hgap : c.gapNewline? with
    | none => exact h.lies_current ht
    | some u =>
      have hmem : u ∈ c.behind := by
        have hfilter := List.mem_of_getLast? hgap
        exact (List.takeWhile_prefix _).subset (List.mem_filter.mp hfilter).1
      exact h.lies_token (List.mem_append_left _ (List.mem_reverse.mpr hmem))

end Cursor.Along

end RequestLang
