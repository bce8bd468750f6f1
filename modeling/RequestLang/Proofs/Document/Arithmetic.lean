import RequestLang.Document.Term
import RequestLang.Proofs.Token.Shape

/-! Arithmetic as a run of lexemes, and what may stand behind it. -/
namespace RequestLang
open Lexer

namespace Lexeme

def token (l : Lexeme) : Token := ⟨l.kind, l.text, 0⟩

def isIgnorable (l : Lexeme) : Bool := l.token.isIgnorable

end Lexeme

namespace Lexer

/-- Word characters and a point may go on with an operand. -/
def extendsOperand (c : Char) : Bool := Text.isWord c || c == '.'

theorem Stops.of_imp {p q : Char → Bool} {rest : List Char} (h : Stops q rest)
    (hpq : ∀ c, p c → q c) : Stops p rest := by
  intro c hc
  rw [← Bool.not_eq_true]
  intro hp
  have := h c hc
  simp [hpq c hp] at this

theorem Stops.congr {p : Char → Bool} {rest rest' : List Char} (h : Stops p rest)
    (hhead : rest'.head? = rest.head?) : Stops p rest' := by
  unfold Stops
  rw [hhead]
  exact h

theorem Stops.isWord {rest : List Char} (h : Stops extendsOperand rest) : Stops Text.isWord rest :=
  h.of_imp fun c hc => by simp [extendsOperand, hc]

theorem Stops.isNameChar {rest : List Char} (h : Stops Text.isWord rest) : Stops Text.isNameChar rest :=
  h.of_imp fun _ hc => Text.isWord_of_isNameChar hc

theorem Stops.extendsNumber {rest : List Char} (h : Stops extendsOperand rest) :
    Stops extendsNumber rest := by
  refine h.of_imp fun c hc => ?_
  simp only [Lexer.extendsNumber, Bool.or_eq_true, beq_iff_eq] at hc
  rcases hc with ((hc | rfl) | rfl) | rfl
  · have : Text.isNameChar c := by simp [Text.isNameChar, Char.isAlphanum, hc]
    simp [extendsOperand, Text.isWord_of_isNameChar this]
  · decide
  · decide
  · decide

end Lexer

namespace JsonTerm
open Lexeme

/-- What a lexeme makes of the open parentheses and of the want of an operand, unless it ends the
run. -/
def arithmeticStep (s : Nat × Bool) (l : Lexeme) : Option (Nat × Bool) :=
  if l.kind = .whitespace ∨ l.kind = .comment then some s
  else if l.kind = .newline then if s.1 = 0 ∧ s.2 = false then none else some s
  else if l.token.isPunct "(" then some (s.1 + 1, true)
  else if l.token.isPunct ")" then if s.1 = 0 then none else some (s.1 - 1, false)
  else if isArithmetic l.token then some (s.1, true)
  else if isOperand l.token then if s.2 then some (s.1, false) else none
  else none

def arithmeticSteps (s : Nat × Bool) (ls : List Lexeme) : Option (Nat × Bool) :=
  ls.foldlM arithmeticStep s

@[simp] theorem arithmeticSteps_nil (s : Nat × Bool) : arithmeticSteps s [] = some s := rfl

@[simp] theorem arithmeticSteps_cons (s : Nat × Bool) (l : Lexeme) (ls : List Lexeme) :
    arithmeticSteps s (l :: ls) = (arithmeticStep s l).bind (arithmeticSteps · ls) := rfl

theorem arithmeticRun_cons (s : Nat × Bool) (t : Token) (ts : List Token) :
    arithmeticRun s.1 s.2 (t :: ts) =
      match arithmeticStep s t.lexeme with
      | some s' => ((arithmeticRun s'.1 s'.2 ts).1 + 1, (arithmeticRun s'.1 s'.2 ts).2)
      | none => (0, s) := by
  have hpunct (m : String) : t.lexeme.token.isPunct m = t.isPunct m := rfl
  have harith : isArithmetic t.lexeme.token = isArithmetic t := rfl
  have hoperand : isOperand t.lexeme.token = isOperand t := rfl
  have hkind : t.lexeme.kind = t.kind := rfl
  simp only [arithmeticRun, arithmeticStep, hpunct, harith, hoperand, hkind]
  split
  · rfl
  split
  · split <;> rfl
  split
  · rfl
  split
  · split <;> rfl
  split
  · rfl
  split
  · split <;> rfl
  · rfl

/-- A run goes on behind lexemes that do not end it. -/
theorem arithmeticRun_append {s s' : Nat × Bool} {us : List Token} {ls : List Lexeme}
    (hus : Spells us ls) (h : arithmeticSteps s ls = some s') (ts : List Token) :
    arithmeticRun s.1 s.2 (us ++ ts) =
      (us.length + (arithmeticRun s'.1 s'.2 ts).1, (arithmeticRun s'.1 s'.2 ts).2) := by
  induction ls generalizing s us with
  | nil =>
    obtain rfl := spells_nil.mp hus
    cases h
    simp
  | cons l ls ih =>
    obtain ⟨k, us, rfl, hus'⟩ := spells_cons.mp hus
    rw [arithmeticSteps_cons] at h
    obtain ⟨s₁, hstep, hrest⟩ := Option.bind_eq_some_iff.mp h
    rw [List.cons_append, arithmeticRun_cons]
    have : (Token.lexeme ⟨l.kind, l.text, k⟩) = l := rfl
    rw [this, hstep]
    simp only [ih hus' hrest, List.length_cons]
    congr 1
    omega

/-- The tokens of a run are steps, and the token behind it is none. -/
theorem arithmeticSteps_of_run {s s' : Nat × Bool} {ts : List Token} {n : Nat}
    (h : arithmeticRun s.1 s.2 ts = (n, s')) :
    n ≤ ts.length ∧ arithmeticSteps s ((ts.take n).map Token.lexeme) = some s' ∧
      ∀ t ∈ (ts.drop n).head?, arithmeticStep s' t.lexeme = none := by
  induction ts generalizing s n with
  | nil =>
    simp only [arithmeticRun, Prod.mk.injEq] at h
    obtain ⟨rfl, rfl⟩ := h
    simp
  | cons t ts ih =>
    rw [arithmeticRun_cons] at h
    cases hstep : arithmeticStep s t.lexeme with
    | none =>
      simp only [hstep, Prod.mk.injEq] at h
      obtain ⟨rfl, rfl⟩ := h
      simp [hstep]
    | some s₁ =>
      simp only [hstep, Prod.mk.injEq] at h
      obtain ⟨rfl, h⟩ := h
      obtain ⟨hlen, hsteps, hstop⟩ := ih (Prod.ext rfl h)
      refine ⟨by simpa using hlen, ?_, by simpa using hstop⟩
      rw [List.take_succ_cons, List.map_cons, arithmeticSteps_cons, hstep]
      exact hsteps

theorem eq_mark_of_isPunct {l : Lexeme} {m : String} (h : l.token.isPunct m) : l = mark m := by
  cases l
  simpa [token, Token.isPunct, mark] using h

theorem eq_op_of_isArithmetic {l : Lexeme} (h : isArithmetic l.token) :
    l ∈ [op "+", op "-", op "*", op "/", op "%", op "**"] := by
  cases l
  simpa [token, isArithmetic, op, and_comm, and_or_left] using h

/-- The lexemes that a run may hold. -/
theorem cases_of_arithmeticStep {s s' : Nat × Bool} {l : Lexeme} (h : arithmeticStep s l = some s') :
    (l.kind = .whitespace ∨ l.kind = .comment ∨ l.kind = .newline) ∧ s' = s ∨
      l = mark "(" ∧ s'.2 = true ∨ l = mark ")" ∧ s'.2 = false ∨
      isArithmetic l.token ∧ s'.2 = true ∨ isOperand l.token ∧ s.2 = true ∧ s'.2 = false := by
  unfold arithmeticStep at h
  split at h
  · rename_i hk
    exact .inl ⟨hk.elim .inl (.inr ∘ .inl), (Option.some.inj h).symm⟩
  split at h
  · rename_i hk
    split at h
    · cases h
    · exact .inl ⟨.inr (.inr hk), (Option.some.inj h).symm⟩
  split at h
  · rename_i hp
    exact .inr (.inl ⟨eq_mark_of_isPunct hp, by rw [← Option.some.inj h]⟩)
  split at h
  · rename_i hp
    split at h
    · cases h
    · exact .inr (.inr (.inl ⟨eq_mark_of_isPunct hp, by rw [← Option.some.inj h]⟩))
  split at h
  · rename_i ha
    exact .inr (.inr (.inr (.inl ⟨ha, by rw [← Option.some.inj h]⟩)))
  split at h
  · rename_i ho
    split at h
    · rename_i hw
      exact .inr (.inr (.inr (.inr ⟨ho, hw, by rw [← Option.some.inj h]⟩)))
    · cases h
  · cases h

theorem arithmeticStep_of_isOperand {s : Nat × Bool} {l : Lexeme} (h : isOperand l.token) :
    arithmeticStep s l = if s.2 then some (s.1, false) else none := by
  obtain ⟨kind, text⟩ := l
  have hkind : kind = .number ∨ kind = .identifier ∨ kind = .placeholder := by
    simpa [isOperand, token, or_assoc] using h
  rcases hkind with rfl | rfl | rfl <;>
    simp [arithmeticStep, token, Token.isPunct, isArithmetic, isOperand]

/-- An operand is taken off whatever stands behind it, unless that goes on with it. -/
theorem cuts_operand {l : Lexeme} {rest rest' : List Char} (hl : isOperand l.token) (h : Cuts l rest)
    (hr : Stops extendsOperand rest) (hr' : Stops extendsOperand rest') : Cuts l rest' := by
  obtain ⟨kind, text⟩ := l
  have hkind : kind = .number ∨ kind = .identifier ∨ kind = .placeholder := by
    simpa [isOperand, token, or_assoc] using hl
  rcases hkind with rfl | rfl | rfl
  · obtain ⟨c, cs, ht, hc, hn⟩ := h.number rfl
    exact cuts_number ht hc hn hr'.extendsNumber
  · obtain ⟨name, ht | ht, hname, -⟩ := h.identifier rfl
    · obtain rfl : text = name := ht
      exact cuts_word hname (not_keyword_of_cuts h rfl hr.isWord) hr'.isWord.isNameChar
    · obtain rfl : text = "$" ++ name := ht
      exact cuts_dollarWord hname hr'.isWord.isNameChar
  · obtain ⟨body, ht, hb⟩ := h.placeholder rfl
    exact cuts_placeholder ht hb rest'

/-- A lexeme of a run is taken off before another text that begins with the same character. -/
theorem cuts_change {s s' : Nat × Bool} {l : Lexeme} (hstep : arithmeticStep s l = some s')
    {rest rest' : List Char} (h : Cuts l rest) (hcr : '\r' ∉ l.text.toList)
    (hhead : rest'.head? = rest.head?) (hslash : l = op "/" → opensComment rest' = false)
    (hoperand : isOperand l.token → Stops extendsOperand rest) : Cuts l rest' := by
  rcases cases_of_arithmeticStep hstep with
    ⟨hk | hk | hk, -⟩ | ⟨rfl, -⟩ | ⟨rfl, -⟩ | ⟨ha, -⟩ | ⟨ho, -, -⟩
  · obtain ⟨hall, hstop⟩ := h.whitespace hk
    have := cuts_gap h.nonempty hall (hstop.congr hhead)
    rwa [← hk] at this
  · have hcuts : Cuts ⟨.comment, l.text⟩ rest' := by
      rcases h.comment hk with ⟨body, ht, hb, hstop⟩ | ⟨body, ht, hb⟩
      · exact cuts_lineComment ht hb (hstop.congr hhead)
      · exact cuts_blockComment ht hb rest'
    rwa [← hk] at hcuts
  · have ht := h.newline hk hcr
    have hl : l = lineEnd := by
      obtain ⟨kind, text⟩ := l
      simp only [lineEnd, mk.injEq]
      exact ⟨hk, String.toList_inj.mp ht⟩
    rw [hl]
    exact cuts_lineEnd rest'
  · exact cuts_mark (by decide) rest'
  · exact cuts_mark (by decide) rest'
  · have hl := eq_op_of_isArithmetic ha
    simp only [List.mem_cons, List.not_mem_nil, or_false] at hl
    rcases hl with rfl | rfl | rfl | rfl | rfl | rfl
    · exact cuts_op (by decide) rest'
    · exact cuts_op (by decide) rest'
    · exact cuts_star ((stops_of_cuts_star h).congr hhead)
    · exact cuts_slash ((stops_of_cuts_slash h).1.congr hhead) (hslash rfl)
    · exact cuts_op (by decide) rest'
    · exact cuts_op (by decide) rest'
  · exact cuts_operand ho h (hoperand ho) ((hoperand ho).congr hhead)

/-- No lexeme that may follow an operand goes on with it. -/
theorem stops_of_arithmeticStep {s s' : Nat × Bool} {l : Lexeme} {rest : List Char}
    (hstep : arithmeticStep s l = some s') (hs : s.2 = false) (h : Cuts l rest)
    (hcr : '\r' ∉ l.text.toList) (more : List Char) : Stops extendsOperand (l.text.toList ++ more) := by
  rcases cases_of_arithmeticStep hstep with
    ⟨hk | hk | hk, -⟩ | ⟨rfl, -⟩ | ⟨rfl, -⟩ | ⟨ha, -⟩ | ⟨-, hw, -⟩
  · obtain ⟨hall, -⟩ := h.whitespace hk
    have hne := h.nonempty
    cases ht : l.text.toList with
    | nil => exact absurd ht hne
    | cons c cs =>
      have hc : c = ' ' ∨ c = '\t' := by simpa [isGap] using hall c (by simp [ht])
      rcases hc with rfl | rfl <;> rw [List.cons_append, stops_cons] <;> decide
  · rcases h.comment hk with ⟨body, ht | ht, -⟩ | ⟨body, ht, -⟩ <;>
      rw [ht, List.cons_append, stops_cons] <;> decide
  · rw [h.newline hk hcr, List.cons_append, stops_cons]
    decide
  · exact (stops_cons ..).mpr (by decide)
  · exact (stops_cons ..).mpr (by decide)
  · have hl := eq_op_of_isArithmetic ha
    simp only [List.mem_cons, List.not_mem_nil, or_false] at hl
    rcases hl with rfl | rfl | rfl | rfl | rfl | rfl <;> exact (stops_cons ..).mpr (by decide)
  · rw [hs] at hw
    cases hw

/-- A run that is complete ends in an operand or a closing parenthesis. -/
theorem cuts_last {s s' : Nat × Bool} {l : Lexeme} (hstep : arithmeticStep s l = some s')
    (hs' : s'.2 = false) (hl : l.isIgnorable = false) {rest rest' : List Char} (h : Cuts l rest)
    (hr : Stops extendsOperand rest) (hr' : Stops extendsOperand rest') : Cuts l rest' := by
  rcases cases_of_arithmeticStep hstep with ⟨hk, -⟩ | ⟨-, hw⟩ | ⟨rfl, -⟩ | ⟨-, hw⟩ | ⟨ho, -, -⟩
  · rcases hk with hk | hk | hk <;> simp [isIgnorable, token, Token.isIgnorable, hk] at hl
  · rw [hs'] at hw
    cases hw
  · exact cuts_mark (by decide) rest'
  · rw [hs'] at hw
    cases hw
  · exact cuts_operand ho h hr hr'

/-- The lexemes of a complete run are taken off before any text that does not go on with the last
of them, as long as no slash opens a comment there. -/
theorem falls_change {s s' : Nat × Bool} {ls : List Lexeme} {rest rest' : List Char}
    (hsteps : arithmeticSteps s ls = some s') (hs' : s'.2 = false) (h : Falls ls rest)
    (hcr : '\r' ∉ chars ls) (hlast : ∀ l ∈ ls.getLast?, l.isIgnorable = false)
    (hr : Stops extendsOperand rest) (hr' : Stops extendsOperand rest') (hcalm : Calm ls rest') :
    Falls ls rest' := by
  induction ls generalizing s with
  | nil => trivial
  | cons l ls ih =>
    obtain ⟨s₁, hstep, hsteps⟩ := Option.bind_eq_some_iff.mp hsteps
    obtain ⟨hcut, hfalls⟩ := h
    obtain ⟨hslash, hcalm⟩ := hcalm
    simp only [chars_cons, List.mem_append, not_or] at hcr
    cases ls with
    | nil =>
      obtain rfl : s₁ = s' := Option.some.inj hsteps
      exact ⟨cuts_last hstep hs' (hlast l rfl) hcut hr hr', trivial⟩
    | cons l' ls =>
      have hrest := ih hsteps hfalls hcr.2 (by simpa using hlast) hcalm
      obtain ⟨s₂, hstep', -⟩ := Option.bind_eq_some_iff.mp hsteps
      refine ⟨cuts_change hstep hcut hcr.1 ?_ hslash fun ho => ?_, hrest⟩
      · have hne := hfalls.1.nonempty
        cases ht : l'.text.toList with
        | nil => exact absurd ht hne
        | cons c cs => simp [ht]
      · have hw : s₁.2 = false := by
          rw [arithmeticStep_of_isOperand ho] at hstep
          split at hstep
          · rw [← Option.some.inj hstep]
          · cases hstep
        simp only [chars_cons, List.mem_append, not_or] at hcr
        rw [chars_cons, List.append_assoc]
        exact stops_of_arithmeticStep hstep' hw hfalls.1 hcr.2.1 _

end JsonTerm
end RequestLang
