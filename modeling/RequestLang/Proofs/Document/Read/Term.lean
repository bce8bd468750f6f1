import RequestLang.Proofs.Document.Read.Arithmetic

/-! JSON terms that are read from a text are legible. -/
namespace RequestLang
open Lexer Lexeme Cursor

namespace JsonTerm

theorem legible_ofArithmetic {cs : List Char} (h : IsRun (pieces (String.ofList cs))) :
    (ofArithmetic cs).Legible := by
  unfold ofArithmetic
  split
  · rename_i rest
    have htrim := @isRun_trim _ rest h (by simp)
    dsimp only
    split
    · rename_i hread
      refine .inr ⟨htrim, ?_⟩
      rw [String.toList_ofList, ofArithmetic, Text.trimChars_trimChars, if_pos hread]
    · rename_i hread
      refine ⟨h, ?_⟩
      rw [String.toList_ofList, ofArithmetic, if_neg hread]
  · rename_i hnot
    refine ⟨h, ?_⟩
    rw [String.toList_ofList, ofArithmetic]
    exact hnot

theorem legible_readArithmetic {c c' : Cursor} {t : Token} {x : JsonTerm} (hc : c.Sound)
    (ht : c.token? = some t) (hopens : startsArithmetic c t) (h : readArithmetic c = .ok (x, c'))
    (hclose : Closes c'.ahead) : x.Legible := by
  cases hrun : arithmeticRun 0 true c.ahead with
  | mk n final =>
    obtain ⟨depth, wanting⟩ := final
    simp only [readArithmetic, hrun] at h
    split at h
    · cases h
    · rename_i hend
      obtain ⟨rfl, rfl⟩ := Prod.mk.inj (Except.ok.inj h)
      obtain ⟨rfl, rfl⟩ : depth = 0 ∧ wanting = false := by simpa using hend
      obtain ⟨ts, hts⟩ := token?_eq_some ht
      have hcore := isRun_core hc.ahead hrun hclose (by
        intro u hu
        obtain rfl : u = t := by simpa [hts, eq_comm] using hu
        exact hopens)
      refine legible_ofArithmetic ?_
      rw [pieces_of_falls hcore.falls (by rw [String.toList_ofList, runText_eq])]
      exact hcore

theorem legible_keyOf {t : Token} {ts : List Token} (h : Scanned (t :: ts)) : (keyOf t).Legible := by
  unfold keyOf
  split
  · rename_i ht
    exact isOperand_placeholder h ht
  · exact legible_literal h

theorem legible_ofWord {t : Token} {ts : List Token} (h : Scanned (t :: ts)) (ht : t.kind = .identifier)
    (hstop : Stops Text.isWord (textOf ts)) : (ofWord t.text).Legible := by
  unfold ofWord
  split
  · trivial
  split
  · trivial
  split
  · trivial
  · rename_i h₁ h₂ h₃
    exact .inr ⟨isOperand_identifier h ht hstop, by rw [ofWord, if_neg h₁, if_neg h₂, if_neg h₃]⟩

/-- The forms of a term. -/
theorem readWithin_eq_ok {n : Nat} {c c' : Cursor} {x : JsonTerm} (h : readWithin (n + 1) c = .ok (x, c')) :
    ∃ t, c.skip.token? = some t ∧
      ((startsArithmetic c.skip t ∧ readArithmetic c.skip = .ok (x, c')) ∨
        (startsArithmetic c.skip t = false ∧
          ((t.isPunct "\x7b" ∧ ∃ ms, readMembers n c.skip.advance = .ok (ms, c') ∧ x = .object ms) ∨
            (t.isPunct "[" ∧ ∃ xs, readItems n c.skip.advance = .ok (xs, c') ∧ x = .array xs) ∨
            (c' = c.skip.advance ∧
              ((t.kind = .string ∨ t.kind = .tripleString) ∧ x = .literal t.literal ∨
                t.kind = .number ∧ x = .number t.text ∨ t.kind = .placeholder ∧ x = .reference t.text ∨
                t.kind = .identifier ∧ x = ofWord t.text))))) := by
  rw [readWithin] at h
  dsimp only at h
  cases ht : c.skip.token? with
  | none => simp [ht] at h
  | some t =>
    refine ⟨t, rfl, ?_⟩
    simp only [ht] at h
    split at h
    · exact .inl ⟨‹_›, h⟩
    rename_i hstart
    refine .inr ⟨by simpa using hstart, ?_⟩
    split at h
    · obtain ⟨⟨ms, c₁⟩, h₁, h⟩ := bind_eq_ok.mp h
      obtain ⟨rfl, rfl⟩ := Prod.mk.inj (Except.ok.inj h)
      exact .inl ⟨‹_›, ms, h₁, rfl⟩
    split at h
    · obtain ⟨⟨xs, c₁⟩, h₁, h⟩ := bind_eq_ok.mp h
      obtain ⟨rfl, rfl⟩ := Prod.mk.inj (Except.ok.inj h)
      exact .inr (.inl ⟨‹_›, xs, h₁, rfl⟩)
    refine .inr (.inr ?_)
    split at h
    · obtain ⟨rfl, rfl⟩ := Prod.mk.inj (Except.ok.inj h)
      exact ⟨rfl, .inl ⟨.inl ‹_›, rfl⟩⟩
    · obtain ⟨rfl, rfl⟩ := Prod.mk.inj (Except.ok.inj h)
      exact ⟨rfl, .inl ⟨.inr ‹_›, rfl⟩⟩
    · obtain ⟨rfl, rfl⟩ := Prod.mk.inj (Except.ok.inj h)
      exact ⟨rfl, .inr (.inl ⟨‹_›, rfl⟩)⟩
    · obtain ⟨rfl, rfl⟩ := Prod.mk.inj (Except.ok.inj h)
      exact ⟨rfl, .inr (.inr (.inl ⟨‹_›, rfl⟩))⟩
    · obtain ⟨rfl, rfl⟩ := Prod.mk.inj (Except.ok.inj h)
      exact ⟨rfl, .inr (.inr (.inr ⟨‹_›, rfl⟩))⟩
    · cases h

/-- A member, and what follows it. -/
theorem readMembers_eq_ok {n : Nat} {c c' : Cursor} {ms : List (JsonKey × JsonTerm)}
    (h : readMembers (n + 1) c = .ok (ms, c')) :
    (c.skip.isPunct "\x7d" ∧ ms = [] ∧ c' = c.skip.advance) ∨
      ∃ t x c₁, c.skip.isPunct "\x7d" = false ∧ c.skip.token? = some t ∧
        (t.isString ∨ t.kind = .placeholder) ∧ c.skip.advance.skip.isPunct ":" ∧
        readWithin n c.skip.advance.skip.advance = .ok (x, c₁) ∧
        ((c₁.skip.isPunct "," ∧ ∃ rest, readMembers n c₁.skip.advance = .ok (rest, c') ∧ ms = (keyOf t, x) :: rest) ∨
          (c₁.skip.isPunct "," = false ∧ c₁.skip.isPunct "\x7d" ∧ ms = [(keyOf t, x)] ∧ c' = c₁.skip.advance)) := by
  rw [readMembers] at h
  dsimp only at h
  split at h
  · obtain ⟨rfl, rfl⟩ := Prod.mk.inj (Except.ok.inj h)
    exact .inl ⟨‹_›, rfl, rfl⟩
  · rename_i hend
    obtain ⟨t, h₁, h⟩ := bind_eq_ok.mp h
    obtain ⟨ht, hkey⟩ := expect_eq_ok.mp h₁
    obtain ⟨c₀, h₂, h⟩ := bind_eq_ok.mp h
    obtain ⟨hcolon, rfl⟩ := expectPunct_eq_ok.mp h₂
    obtain ⟨⟨x, c₁⟩, h₃, h⟩ := bind_eq_ok.mp h
    refine .inr ⟨t, x, c₁, by simpa using hend, ht, by simpa using hkey, hcolon, h₃, ?_⟩
    split at h
    · obtain ⟨⟨rest, c₂⟩, h₄, h⟩ := bind_eq_ok.mp h
      obtain ⟨rfl, rfl⟩ := Prod.mk.inj (Except.ok.inj h)
      exact .inl ⟨‹_›, rest, h₄, rfl⟩
    · rename_i hcomma
      obtain ⟨c₂, h₄, h⟩ := bind_eq_ok.mp h
      obtain ⟨hclose, rfl⟩ := expectPunct_eq_ok.mp h₄
      obtain ⟨rfl, rfl⟩ := Prod.mk.inj (Except.ok.inj h)
      exact .inr ⟨by simpa using hcomma, hclose, rfl, rfl⟩

/-- An item, and what follows it. -/
theorem readItems_eq_ok {n : Nat} {c c' : Cursor} {xs : List JsonTerm} (h : readItems (n + 1) c = .ok (xs, c')) :
    (c.skip.isPunct "]" ∧ xs = [] ∧ c' = c.skip.advance) ∨
      ∃ x c₁, c.skip.isPunct "]" = false ∧ readWithin n c.skip = .ok (x, c₁) ∧
        ((c₁.skip.isPunct "," ∧ ∃ rest, readItems n c₁.skip.advance = .ok (rest, c') ∧ xs = x :: rest) ∨
          (c₁.skip.isPunct "," = false ∧ c₁.skip.isPunct "]" ∧ xs = [x] ∧ c' = c₁.skip.advance)) := by
  rw [readItems] at h
  dsimp only at h
  split at h
  · obtain ⟨rfl, rfl⟩ := Prod.mk.inj (Except.ok.inj h)
    exact .inl ⟨‹_›, rfl, rfl⟩
  · rename_i hend
    obtain ⟨⟨x, c₁⟩, h₃, h⟩ := bind_eq_ok.mp h
    refine .inr ⟨x, c₁, by simpa using hend, h₃, ?_⟩
    split at h
    · obtain ⟨⟨rest, c₂⟩, h₄, h⟩ := bind_eq_ok.mp h
      obtain ⟨rfl, rfl⟩ := Prod.mk.inj (Except.ok.inj h)
      exact .inl ⟨‹_›, rest, h₄, rfl⟩
    · rename_i hcomma
      obtain ⟨c₂, h₄, h⟩ := bind_eq_ok.mp h
      obtain ⟨hclose, rfl⟩ := expectPunct_eq_ok.mp h₄
      obtain ⟨rfl, rfl⟩ := Prod.mk.inj (Except.ok.inj h)
      exact .inr ⟨by simpa using hcomma, hclose, rfl, rfl⟩

theorem legible_read_aux (n : Nat) :
    (∀ {c c' x}, c.Sound → readWithin n c = .ok (x, c') → Closes c'.ahead → x.Legible) ∧
    (∀ {c c' ms}, c.Sound → readMembers n c = .ok (ms, c') → MembersLegible ms) ∧
    (∀ {c c' xs}, c.Sound → readItems n c = .ok (xs, c') → ItemsLegible xs) := by
  induction n with
  | zero => simp [readWithin, readMembers, readItems]
  | succ n ih =>
    obtain ⟨ihTerm, ihMembers, ihItems⟩ := ih
    refine ⟨fun {c c' x} hc h hclose => ?_, fun {c c' ms} hc h => ?_, fun {c c' xs} hc h => ?_⟩
    · have hskip : c.skip.Sound := hc.reaches c.reaches_skip
      have hadvance : c.skip.advance.Sound := hskip.reaches c.skip.reaches_advance
      obtain ⟨t, ht, ⟨hstart, harith⟩ | ⟨-, ⟨-, ms, hms, rfl⟩ | ⟨-, xs, hxs, rfl⟩ | ⟨rfl, hone⟩⟩⟩ :=
        readWithin_eq_ok h
      · exact legible_readArithmetic hskip ht hstart harith hclose
      · exact ihMembers hadvance hms
      · exact ihItems hadvance hxs
      · obtain ⟨ts, hts⟩ := token?_eq_some ht
        have hscan : Scanned (t :: ts) := hts ▸ hskip.ahead
        have hahead : c.skip.advance.ahead = ts := by rw [advance, hts]
        rw [hahead] at hclose
        rcases hone with ⟨-, rfl⟩ | ⟨hk, rfl⟩ | ⟨hk, rfl⟩ | ⟨hk, rfl⟩
        · exact legible_literal hscan
        · exact .inl (isOperand_number hscan hk)
        · exact .inl (isOperand_placeholder hscan hk)
        · exact legible_ofWord hscan hk (hclose.stops hscan.cons.2.2).isWord
    · obtain ⟨-, rfl, -⟩ | ⟨t, x, c₁, -, ht, -, -, hx, hrest⟩ := readMembers_eq_ok h
      · trivial
      · obtain ⟨ts, hts⟩ := token?_eq_some ht
        have hskip : c.skip.Sound := hc.reaches c.reaches_skip
        have hkey : (keyOf t).Legible := legible_keyOf (hts ▸ hskip.ahead)
        have hvalue : c.skip.advance.skip.advance.Sound := hskip.reaches c.skip.reaches_advance.skip.advance
        have hc₁ : c₁.skip.advance.Sound := hvalue.reaches ((reaches_read_aux n).1 hx).skip.advance
        obtain ⟨hmark, rest, hrest, rfl⟩ | ⟨-, hmark, rfl, -⟩ := hrest
        · exact ⟨hkey, ihTerm hvalue hx (closes_of_isPunct hmark (by decide)), ihMembers hc₁ hrest⟩
        · exact ⟨hkey, ihTerm hvalue hx (closes_of_isPunct hmark (by decide)), trivial⟩
    · obtain ⟨-, rfl, -⟩ | ⟨x, c₁, -, hx, hrest⟩ := readItems_eq_ok h
      · trivial
      · have hskip : c.skip.Sound := hc.reaches c.reaches_skip
        have hc₁ : c₁.skip.advance.Sound := hskip.reaches ((reaches_read_aux n).1 hx).skip.advance
        obtain ⟨hmark, rest, hrest, rfl⟩ | ⟨-, hmark, rfl, -⟩ := hrest
        · exact ⟨ihTerm hskip hx (closes_of_isPunct hmark (by decide)), ihItems hc₁ hrest⟩
        · exact ⟨ihTerm hskip hx (closes_of_isPunct hmark (by decide)), trivial⟩

/-- A term with a closing mark behind it is legible. -/
theorem legible_read {c c' : Cursor} {x : JsonTerm} (hc : c.Sound) (h : read c = .ok (x, c'))
    (hclose : Closes c'.ahead) : x.Legible :=
  (legible_read_aux _).1 hc h hclose

end JsonTerm
end RequestLang
