import Mathlib
import RequestLang.Proofs.Steps
import RequestLang.Token.Cursor
import RequestLang.Token.Lexer

/-! Texts put together from tokens, and where the lexer cuts them. -/
namespace RequestLang

/-- A token without its place. -/
structure Lexeme where
  kind : TokenKind
  text : String
  deriving DecidableEq, Repr

def Token.lexeme (t : Token) : Lexeme := ⟨t.kind, t.text⟩

namespace Lexeme
open Lexer

/-- The tokens of a text that consists of these lexemes and begins at an offset. -/
def lay (offset : Nat) : List Lexeme → List Token
  | [] => []
  | l :: ls => ⟨l.kind, l.text, offset⟩ :: lay (offset + Text.byteSize l.text.toList) ls

def chars (ls : List Lexeme) : List Char := ls.flatMap (·.text.toList)

@[simp] theorem lay_nil (k : Nat) : lay k [] = [] := rfl

@[simp] theorem lay_cons (k : Nat) (l : Lexeme) (ls : List Lexeme) :
    lay k (l :: ls) = ⟨l.kind, l.text, k⟩ :: lay (k + Text.byteSize l.text.toList) ls := rfl

@[simp] theorem chars_nil : chars [] = [] := rfl

@[simp] theorem chars_cons (l : Lexeme) (ls : List Lexeme) :
    chars (l :: ls) = l.text.toList ++ chars ls := rfl

@[simp] theorem chars_append (as bs : List Lexeme) : chars (as ++ bs) = chars as ++ chars bs := by
  simp [chars]

@[simp] theorem lay_append (k : Nat) (as bs : List Lexeme) :
    lay k (as ++ bs) = lay k as ++ lay (k + Text.byteSize (chars as)) bs := by
  induction as generalizing k with
  | nil => simp
  | cons a as ih => simp [ih, Nat.add_assoc]

@[simp] theorem length_lay (k : Nat) (ls : List Lexeme) : (lay k ls).length = ls.length := by
  induction ls generalizing k with
  | nil => rfl
  | cons l ls ih => simp [ih]

theorem lexeme_mem_of_mem_lay {k : Nat} {ls : List Lexeme} {t : Token} (h : t ∈ lay k ls) : t.lexeme ∈ ls := by
  induction ls generalizing k with
  | nil => exact absurd h List.not_mem_nil
  | cons l ls ih =>
    rcases List.mem_cons.mp h with rfl | h
    · exact List.mem_cons_self
    · exact List.mem_cons_of_mem _ (ih h)

/-- Tokens that spell lexemes, wherever they stand. -/
def Spells (ts : List Token) (ls : List Lexeme) : Prop := ts.map Token.lexeme = ls

@[simp] theorem spells_nil {ts : List Token} : Spells ts [] ↔ ts = [] := by simp [Spells]

@[simp] theorem spells_cons {ts : List Token} {l : Lexeme} {ls : List Lexeme} :
    Spells ts (l :: ls) ↔ ∃ k us, ts = ⟨l.kind, l.text, k⟩ :: us ∧ Spells us ls := by
  constructor
  · intro h
    obtain ⟨⟨kind, text, k⟩, us, rfl, rfl, hus⟩ := List.map_eq_cons_iff.mp h
    exact ⟨k, us, rfl, hus⟩
  · rintro ⟨k, us, rfl, hus⟩
    exact congrArg (l :: ·) hus

theorem spells_singleton {ts : List Token} {l : Lexeme} :
    Spells ts [l] ↔ ∃ k, ts = [⟨l.kind, l.text, k⟩] := by simp

@[simp] theorem spells_append {ts : List Token} {as bs : List Lexeme} :
    Spells ts (as ++ bs) ↔ ∃ us vs, ts = us ++ vs ∧ Spells us as ∧ Spells vs bs :=
  List.map_eq_append_iff

theorem spells_lay (k : Nat) (ls : List Lexeme) : Spells (lay k ls) ls := by
  induction ls generalizing k with
  | nil => rfl
  | cons l ls ih => exact congrArg (l :: ·) (ih _)

theorem Spells.length {ts : List Token} {ls : List Lexeme} (h : Spells ts ls) : ts.length = ls.length := by
  rw [← h, List.length_map]

/-- The lexer takes the lexeme off a text in which it stands before `rest`. -/
structure Cuts (l : Lexeme) (rest : List Char) : Prop where
  nonempty : l.text.toList ≠ []
  closed : (['{', '%'].isPrefixOf (l.text.toList ++ rest) &&
    !Text.holds ['%', '}'] (l.text.toList ++ rest)) = false
  lexeme : lexeme? (l.text.toList ++ rest) = some (l.kind, l.text.toList.length)

/-- Each lexeme is taken off before those behind it and `rest`. -/
def Falls : List Lexeme → List Char → Prop
  | [], _ => True
  | l :: ls, rest => Cuts l (chars ls ++ rest) ∧ Falls ls rest

@[simp] theorem falls_nil (rest : List Char) : Falls [] rest := trivial

@[simp] theorem falls_cons (l : Lexeme) (ls : List Lexeme) (rest : List Char) :
    Falls (l :: ls) rest ↔ Cuts l (chars ls ++ rest) ∧ Falls ls rest := Iff.rfl

@[simp] theorem falls_append (as bs : List Lexeme) (rest : List Char) :
    Falls (as ++ bs) rest ↔ Falls as (chars bs ++ rest) ∧ Falls bs rest := by
  induction as with
  | nil => simp
  | cons a as ih => simp [ih, and_assoc]

/-- A slash before this text begins a comment. -/
def opensComment : List Char → Bool
  | '*' :: body => Text.holds ['*', '/'] body
  | _ => false

/-- No operator becomes the beginning of a comment. -/
def Calm : List Lexeme → List Char → Prop
  | [], _ => True
  | l :: ls, rest => (l = ⟨.operator, "/"⟩ → opensComment (chars ls ++ rest) = false) ∧ Calm ls rest

@[simp] theorem calm_nil (rest : List Char) : Calm [] rest := trivial

@[simp] theorem calm_cons (l : Lexeme) (ls : List Lexeme) (rest : List Char) :
    Calm (l :: ls) rest ↔
      (l = ⟨.operator, "/"⟩ → opensComment (chars ls ++ rest) = false) ∧ Calm ls rest := Iff.rfl

@[simp] theorem calm_append (as bs : List Lexeme) (rest : List Char) :
    Calm (as ++ bs) rest ↔ Calm as (chars bs ++ rest) ∧ Calm bs rest := by
  induction as with
  | nil => simp
  | cons a as ih => simp [ih, and_assoc]

theorem scan_cuts {l : Lexeme} {rest : List Char} (h : Cuts l rest) (k : Nat) :
    scan k (l.text.toList ++ rest) =
      (scan (k + Text.byteSize l.text.toList) rest).map (⟨l.kind, l.text, k⟩ :: ·) := by
  obtain ⟨hne, hclosed, hlex⟩ := h
  cases hl : l.text.toList with
  | nil => exact absurd hl hne
  | cons c cs =>
    rw [hl, List.cons_append] at hclosed hlex
    have htext : String.ofList (c :: cs) = l.text := by rw [← hl, String.ofList_toList]
    rw [List.cons_append, scan, hclosed, hlex]
    simp [htext]

/-- Scanning a text of lexemes gives them back, with the tokens of what follows. -/
theorem scan_falls {ls : List Lexeme} {rest : List Char} (h : Falls ls rest) (k : Nat) :
    scan k (chars ls ++ rest) =
      (scan (k + Text.byteSize (chars ls)) rest).map (lay k ls ++ ·) := by
  induction ls generalizing k with
  | nil =>
    cases hs : scan k rest <;> simp [hs, Except.map]
  | cons l ls ih =>
    obtain ⟨hl, hls⟩ := h
    rw [chars_cons, List.append_assoc, scan_cuts hl, ih hls]
    cases hs : scan (k + Text.byteSize l.text.toList + Text.byteSize (chars ls)) rest <;>
      simp [Except.map, Nat.add_assoc] at *
    · simp [hs]
    · simp [hs]

end Lexeme
end RequestLang

/-! Cursors before a token that is known. -/
namespace RequestLang.Cursor

variable (b ts : List Token) (t : Token) (n : Nat)

theorem skipWhile_cons (p : Token → Bool) : (⟨b, t :: ts, n⟩ : Cursor).skipWhile p =
    if p t then (⟨t :: b, ts, n⟩ : Cursor).skipWhile p else ⟨b, t :: ts, n⟩ := by
  unfold skipWhile
  split
  · rename_i h
    simp [h]
  · rename_i h
    simp [h]

@[simp] theorem skip_cons : (⟨b, t :: ts, n⟩ : Cursor).skip =
    if t.isIgnorable then (⟨t :: b, ts, n⟩ : Cursor).skip else ⟨b, t :: ts, n⟩ :=
  skipWhile_cons b ts t n _

@[simp] theorem skip_nil : (⟨b, [], n⟩ : Cursor).skip = ⟨b, [], n⟩ := rfl

theorem skip_skip (c : Cursor) : c.skip.skip = c.skip := by
  obtain ⟨b, ts, n⟩ := c
  induction ts generalizing b with
  | nil => rfl
  | cons t ts ih =>
    rw [skip_cons]
    split
    · exact ih (t :: b)
    · rename_i ht
      rw [skip_cons, if_neg ht]

theorem cause_faultHere (c : Cursor) (cause : SyntaxCause) : (c.faultHere cause).cause = cause := by
  unfold faultHere
  split <;> rfl

@[simp] theorem skipInline_cons : (⟨b, t :: ts, n⟩ : Cursor).skipInline =
    if t.kind == .whitespace || t.isBlockComment then (⟨t :: b, ts, n⟩ : Cursor).skipInline
    else ⟨b, t :: ts, n⟩ :=
  skipWhile_cons b ts t n _

theorem skipWhile_gap {p : Token → Bool} {gap : List Token} (hgap : ∀ u ∈ gap, p u) (ht : p t = false) :
    (⟨b, gap ++ t :: ts, n⟩ : Cursor).skipWhile p = ⟨gap.reverse ++ b, t :: ts, n⟩ := by
  simp [skipWhile, List.takeWhile_append_of_pos hgap, List.dropWhile_append_of_pos hgap, ht]

@[simp] theorem token?_cons : (⟨b, t :: ts, n⟩ : Cursor).token? = some t := rfl

@[simp] theorem token?_nil : (⟨b, [], n⟩ : Cursor).token? = none := rfl

@[simp] theorem next?_cons : (⟨b, t :: ts, n⟩ : Cursor).next? = ts.head? := rfl

@[simp] theorem nextSignificant?_cons :
    (⟨b, t :: ts, n⟩ : Cursor).nextSignificant? = ts.find? (!·.isIgnorable) := rfl

@[simp] theorem atEnd_cons : (⟨b, t :: ts, n⟩ : Cursor).atEnd = false := rfl

@[simp] theorem advance_cons : (⟨b, t :: ts, n⟩ : Cursor).advance = ⟨t :: b, ts, n⟩ := rfl

@[simp] theorem isPunct_cons (s : String) : (⟨b, t :: ts, n⟩ : Cursor).isPunct s = t.isPunct s := rfl

@[simp] theorem isPunct_nil (s : String) : (⟨b, [], n⟩ : Cursor).isPunct s = false := rfl

@[simp] theorem isKeyword_cons (s : String) :
    (⟨b, t :: ts, n⟩ : Cursor).isKeyword s = t.isKeyword s := rfl

theorem expect_cons {p : Token → Bool} (h : p t) (what : String) :
    (⟨b, t :: ts, n⟩ : Cursor).expect p what = .ok t := by
  simp [expect, h]

theorem expectPunct_cons {s : String} (h : t.isPunct s) (what : String) :
    (⟨b, t :: ts, n⟩ : Cursor).expectPunct s what = .ok ⟨t :: b, ts, n⟩ := by
  simp [expectPunct, expect, h]

/-- What was skipped, and the token that was not. -/
theorem skipWhile_eq_of_token? {c : Cursor} {p : Token → Bool} (h : (c.skipWhile p).token? = some t) :
    ∃ gap ts, c.ahead = gap ++ t :: ts ∧ (∀ u ∈ gap, p u) ∧ p t = false ∧
      c.skipWhile p = ⟨gap.reverse ++ c.behind, t :: ts, c.size⟩ := by
  obtain ⟨ts, hts⟩ : ∃ ts, c.ahead.dropWhile p = t :: ts := List.head?_eq_some_iff.mp h
  refine ⟨c.ahead.takeWhile p, ts, ?_, fun u hu => List.mem_takeWhile_imp hu, ?_, ?_⟩
  · rw [← hts, List.takeWhile_append_dropWhile]
  · have := List.head?_dropWhile_not p c.ahead
    rwa [hts] at this
  · rw [skipWhile, hts]

end RequestLang.Cursor
