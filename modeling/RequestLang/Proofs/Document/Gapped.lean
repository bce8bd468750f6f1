import RequestLang.Proofs.Arith.Laid
import RequestLang.Proofs.Document.Read.Arithmetic
import RequestLang.Proofs.Token.Scanned

/-! The gaps of arithmetic: what stands in them. -/
namespace RequestLang
open Lexer Lexeme

theorem Lexeme.Cuts.isBlank_of_newline {l : Lexeme} {rest : List Char} (h : Cuts l rest) (hl : l.kind = .newline) :
    ∀ c ∈ l.text.toList, Arith.isBlank c := by
  obtain ⟨length?, hmem, hlen⟩ := h.length?
  simp only [classes, hl] at hmem
  obtain rfl : length? = newline? := by simpa using hmem
  cases ht : l.text.toList with
  | nil => nofun
  | cons c cs =>
    rw [ht, List.cons_append] at hlen
    unfold newline? at hlen
    split at hlen
    · rename_i more heq
      obtain ⟨rfl, hmore⟩ := List.cons.inj heq
      obtain ⟨d, rfl⟩ : ∃ d, cs = [d] := List.length_eq_one_iff.mp (by simpa using (Option.some.inj hlen).symm)
      obtain rfl : d = '\n' := (List.cons.inj hmore).1
      simp [Arith.isBlank]
    · rename_i heq
      obtain ⟨rfl, -⟩ := List.cons.inj heq
      split at hlen
      · rename_i hc
        obtain rfl : cs = [] := by simpa using (Option.some.inj hlen).symm
        rcases hc with rfl | rfl <;> simp [Arith.isBlank]
      · cases hlen
    · cases hlen

namespace JsonTerm

theorem isIgnorable_of_isSpace {l : Lexeme} (h : isSpace l) : l.isIgnorable := by
  simp only [isSpace, Bool.or_eq_true, beq_iff_eq] at h
  rcases h with hk | hk <;> simp [Lexeme.isIgnorable, Lexeme.token, Token.isIgnorable, hk]

/-- A gap holds blanks. -/
theorem blank_of_isSpace {l : Lexeme} {rest : List Char} (hl : isSpace l) (h : Cuts l rest) :
    ∀ c ∈ l.text.toList, Arith.isBlank c := by
  simp only [isSpace, Bool.or_eq_true, beq_iff_eq] at hl
  rcases hl with hk | hk
  · intro c hc
    have hgap := (h.whitespace hk).1 c hc
    simp only [isGap, Bool.or_eq_true, beq_iff_eq] at hgap
    rcases hgap with rfl | rfl <;> decide
  · exact h.isBlank_of_newline hk

/-- Where no comment opens, blanks are all that may be passed over. -/
theorem blank_of_isIgnorable {k : Nat} {cs : List Char} {ts : List Token} (h : scan k cs = .ok ts)
    (hcs : ¬Commented cs) : ∀ t ∈ ts, t.isIgnorable → ∀ c ∈ t.text.toList, Arith.isBlank c := by
  induction ts generalizing k cs with
  | nil => nofun
  | cons t ts ih =>
    obtain ⟨rest, -, rfl, hrest, hcut⟩ := scan_eq_cons h
    refine List.forall_mem_cons.mpr ⟨fun ht => ?_, ih hrest fun hc => hcs (hc.append_left _)⟩
    have hkind : (t.kind = .whitespace ∨ t.kind = .newline) ∨ t.kind = .comment := by
      simpa [Token.isIgnorable] using ht
    have hcut : Cuts t.lexeme rest := hcut.resolve_right fun hs => by
      have hp : t.kind = .punctuation := hs.1
      simp [hp] at hkind
    rcases hkind with hk | hk
    · refine blank_of_isSpace ?_ hcut
      simpa [isSpace, Token.lexeme] using hk
    · refine absurd ?_ hcs
      have hopens : Commented t.text.toList := by
        rcases hcut.comment hk with ⟨body, hb | hb, -⟩ | ⟨body, hb, -⟩
        · exact (show t.text.toList = _ from hb) ▸ .slash (.inl rfl) body
        · exact (show t.text.toList = _ from hb) ▸ .hash body
        · exact (show t.text.toList = _ from hb) ▸ .slash (.inr rfl) body
      exact hopens.append_right rest

/-- The lexemes that mean something, each with the gap before it. -/
def gapped (gap : List Char) : List Lexeme → List (List Char × Lexeme)
  | [] => []
  | l :: ls => if isSpace l then gapped (gap ++ l.text.toList) ls else (gap, l) :: gapped [] ls

variable {gap : List Char} {l : Lexeme} {ls gs : List Lexeme}

theorem gapped_space (h : isSpace l) : gapped gap (l :: ls) = gapped (gap ++ l.text.toList) ls := if_pos h

theorem gapped_word (h : isSpace l = false) : gapped gap (l :: ls) = (gap, l) :: gapped [] ls := if_neg (by simp [h])

/-- What stands behind the last word is no gap before one. -/
theorem gapped_append_spaces (h : ∀ l ∈ gs, isSpace l) (gap : List Char) (ls : List Lexeme) :
    gapped gap (ls ++ gs) = gapped gap ls := by
  induction ls generalizing gap with
  | nil =>
    induction gs generalizing gap with
    | nil => rfl
    | cons g gs ih =>
      rw [List.forall_mem_cons] at h
      exact (gapped_space h.1).trans (ih h.2 _)
  | cons l ls ih =>
    cases hl : isSpace l with
    | true => rw [List.cons_append, gapped_space hl, gapped_space hl, ih]
    | false => rw [List.cons_append, gapped_word hl, gapped_word hl, ih]

/-- Gaps and words make up the text. -/
theorem laid_gapped (gap : List Char) (hlast : ∀ l ∈ ls.getLast?, isSpace l = false) (hne : ls ≠ []) :
    Arith.laid Prod.fst (fun x => x.2.text.toList) (gapped gap ls) = gap ++ chars ls := by
  induction ls generalizing gap with
  | nil => exact absurd rfl hne
  | cons l ls ih =>
    cases hl : isSpace l with
    | true =>
      have hmore : ls ≠ [] := by
        rintro rfl
        rw [hlast l rfl] at hl
        cases hl
      obtain ⟨m, ls, rfl⟩ := List.exists_cons_of_ne_nil hmore
      rw [gapped_space hl, ih _ hlast hmore, chars_cons l, List.append_assoc]
    | false =>
      rw [gapped_word hl, Arith.laid_cons, chars_cons]
      cases ls with
      | nil => rfl
      | cons m ls => rw [ih [] hlast (List.cons_ne_nil _ _), List.nil_append]

theorem map_snd_gapped (gap : List Char) (ls : List Lexeme) : (gapped gap ls).map Prod.snd = ls.filter (!isSpace ·) := by
  induction ls generalizing gap with
  | nil => rfl
  | cons l ls ih =>
    cases hl : isSpace l with
    | true => rw [gapped_space hl, ih, List.filter_cons_of_neg (by simp [hl])]
    | false => rw [gapped_word hl, List.map_cons, ih, List.filter_cons_of_pos (by simp [hl])]

theorem mem_of_mem_gapped {x : List Char × Lexeme} (h : x ∈ gapped gap ls) : x.2 ∈ ls ∧ isSpace x.2 = false := by
  have hmem := List.mem_map_of_mem (f := Prod.snd) h
  rw [map_snd_gapped, List.mem_filter] at hmem
  simpa using hmem

theorem blank_of_mem_gapped (hls : ∀ l ∈ ls, isSpace l → ∀ c ∈ l.text.toList, Arith.isBlank c)
    (hgap : ∀ c ∈ gap, Arith.isBlank c) {x : List Char × Lexeme} (h : x ∈ gapped gap ls) : ∀ c ∈ x.1, Arith.isBlank c := by
  induction ls generalizing gap with
  | nil => cases h
  | cons l ls ih =>
    rw [List.forall_mem_cons] at hls
    cases hl : isSpace l with
    | true =>
      rw [gapped_space hl] at h
      exact ih hls.2 (List.forall_mem_append.mpr ⟨hgap, hls.1 hl⟩) h
    | false =>
      rw [gapped_word hl] at h
      rcases List.mem_cons.mp h with rfl | h
      · exact hgap
      · exact ih hls.2 (fun _ hc => absurd hc List.not_mem_nil) h

/-- A lexeme and the one after it, with the gap between them: operands do not meet, nor do signs of a product. -/
def Follows (x y : List Char × Lexeme) : Prop :=
  (isOperand x.2.token → isOperand y.2.token = false) ∧
    (x.2 = op "*" → y.1 = [] → y.2.text.toList.head? ≠ some '*')

/-- The lexemes of a run follow each other. -/
theorem isChain_gapped {s s' : Nat × Bool} {rest : List Char} (hsteps : arithmeticSteps s ls = some s')
    (hfalls : Falls ls rest) (hcomment : ∀ l ∈ ls, l.kind ≠ .comment) {x : List Char × Lexeme}
    (hoperand : isOperand x.2.token → s.2 = false)
    (hstar : x.2 = op "*" → gap = [] → (chars ls ++ rest).head? ≠ some '*') :
    (x :: gapped gap ls).IsChain Follows := by
  induction ls generalizing s gap x with
  | nil => exact List.isChain_singleton x
  | cons l ls ih =>
    obtain ⟨s₁, hstep, hsteps⟩ := Option.bind_eq_some_iff.mp hsteps
    obtain ⟨hcut, hfalls⟩ := hfalls
    rw [List.forall_mem_cons] at hcomment
    cases hl : isSpace l with
    | true =>
      have hs : s₁ = s := arithmeticStep_of_isIgnorable (isIgnorable_of_isSpace hl) hstep
      rw [gapped_space hl]
      refine ih hsteps hfalls hcomment.2 (hs ▸ hoperand) fun _ hempty => ?_
      exact absurd (List.append_eq_nil_iff.mp hempty).2 hcut.nonempty
    | false =>
      rw [gapped_word hl, List.isChain_cons_cons]
      refine ⟨⟨fun hx => ?_, fun hx hempty => ?_⟩, ih hsteps hfalls hcomment.2 (fun ho => ?_) fun hx _ => ?_⟩
      · rw [← Bool.not_eq_true]
        intro ho
        rw [arithmeticStep_of_isOperand ho, hoperand hx] at hstep
        cases hstep
      · have hhead := hstar hx hempty
        rwa [chars_cons, List.append_assoc, List.head?_append_of_ne_nil _ hcut.nonempty] at hhead
      · rw [arithmeticStep_of_isOperand ho] at hstep
        split at hstep
        · rw [← Option.some.inj hstep]
        · cases hstep
      · intro hhead
        obtain rfl : l = op "*" := hx
        have hstop := stops_of_cuts_star hcut
        exact absurd (hstop _ hhead) (by decide)

/-- The tokens of a run are cut off one by one. -/
theorem falls_of_scan {k : Nat} {cs : List Char} {us ts : List Token} (h : scan k cs = .ok (us ++ ts)) {s s' : Nat × Bool}
    (hsteps : arithmeticSteps s (us.map Token.lexeme) = some s') : Falls (us.map Token.lexeme) (textOf ts) := by
  induction us generalizing k cs s with
  | nil => trivial
  | cons u us ih =>
    obtain ⟨s₁, hstep, hrest⟩ := Option.bind_eq_some_iff.mp hsteps
    obtain ⟨rest, -, -, hscan, hcut⟩ := scan_eq_cons h
    refine ⟨?_, ih hscan hrest⟩
    rcases hcut with hcut | hstray
    · rwa [← textOf_of_scan hscan, show us.append ts = us ++ ts from rfl, textOf_append] at hcut
    · rw [arithmeticStep_of_stray hstray] at hstep
      cases hstep

theorem step_of_mem {s s' : Nat × Bool} (h : arithmeticSteps s ls = some s') (hl : l ∈ ls) :
    ∃ s₁ s₂, arithmeticStep s₁ l = some s₂ := by
  obtain ⟨front, back, rfl⟩ := List.append_of_mem hl
  rw [arithmeticSteps_append] at h
  obtain ⟨s₁, -, h⟩ := Option.bind_eq_some_iff.mp h
  obtain ⟨s₂, h, -⟩ := Option.bind_eq_some_iff.mp h
  exact ⟨s₁, s₂, h⟩

/-- The lexemes of arithmetic that are no operands. -/
def isSign (l : Lexeme) : Bool := [mark "(", mark ")", op "+", op "-", op "*", op "/", op "%", op "**"].contains l

theorem isMark_of_isSign (h : isSign l) : Arith.IsMark l.text.toList := by
  simp only [isSign, List.contains_iff_mem, List.mem_cons, List.not_mem_nil, or_false] at h
  rcases h with rfl | rfl | rfl | rfl | rfl | rfl | rfl | rfl
  · exact .opening
  · exact .closing
  · exact .op .add
  · exact .op .sub
  · exact .op .mul
  · exact .op .div
  · exact .op .mod
  · exact .op .pow

theorem eq_star_of_isSign (h : isSign l) (htext : l.text.toList = ['*']) : l = op "*" := by
  simp only [isSign, List.contains_iff_mem, List.mem_cons, List.not_mem_nil, or_false] at h
  rcases h with rfl | rfl | rfl | rfl | rfl | rfl | rfl | rfl <;> first | rfl | exact absurd htext (by decide)

theorem isSign_of_isArithmetic (h : isArithmetic l.token) : isSign l := by
  have hop := eq_op_of_isArithmetic h
  simp only [isSign, List.contains_iff_mem, List.mem_cons] at hop ⊢
  exact .inr (.inr hop)

/-- Words with gaps between them, as a complete run without comments has them. -/
structure Gapped (cs : List Char) (xs : List (List Char × Lexeme)) : Prop where
  text : Arith.laid Prod.fst (fun x => x.2.text.toList) xs = cs
  blank : ∀ x ∈ xs, ∀ c ∈ x.1, Arith.isBlank c
  word : ∀ x ∈ xs, (∃ rest, Cuts x.2 rest) ∧ (isOperand x.2.token ∨ isSign x.2)
  chain : xs.IsChain Follows

theorem gapped_run {k n : Nat} {cs : List Char} {ts : List Token} (hscan : scan k cs = .ok ts)
    (hrun : arithmeticRun 0 true ts = (n, 0, false)) (hcomment : ∀ t ∈ ts.take n, t.kind ≠ .comment) :
    Gapped (runText (ts.take n)) (gapped [] ((ts.take n).map Token.lexeme)) := by
  obtain ⟨-, hsteps, -⟩ := arithmeticSteps_of_run (s := (0, true)) hrun
  have hfalls := falls_of_scan ((List.take_append_drop n ts).symm ▸ hscan) hsteps
  generalize ts.take n = us at *
  have hsolid (l : Lexeme) (hl : l ∈ us.map Token.lexeme) : l.isIgnorable → isSpace l := by
    obtain ⟨u, hu, rfl⟩ := List.mem_map.mp hl
    intro hignorable
    have hkind : (u.kind = .whitespace ∨ u.kind = .newline) ∨ u.kind = .comment := by
      simpa [Lexeme.isIgnorable, Lexeme.token, Token.lexeme, Token.isIgnorable] using hignorable
    simpa [isSpace, Token.lexeme] using hkind.resolve_right (hcomment u hu)
  have hspaced : ∀ l ∈ us.map Token.lexeme, isSpace l → ∀ c ∈ l.text.toList, Arith.isBlank c := by
    intro l hl hspace
    obtain ⟨rest, hcut⟩ := cuts_of_mem hfalls hl
    exact blank_of_isSpace hspace hcut
  obtain ⟨gs, hgs, hgap⟩ := core_append us
  constructor
  · have hspaces : ∀ l ∈ gs.map Token.lexeme, isSpace l := by
      intro l hl
      obtain ⟨g, hg, rfl⟩ := List.mem_map.mp hl
      exact hsolid _ (List.mem_map_of_mem (hgs ▸ List.mem_append_right _ hg)) (hgap g hg)
    have hlast : ∀ l ∈ ((core us).map Token.lexeme).getLast?, isSpace l = false := by
      intro l hl
      rw [List.getLast?_map] at hl
      obtain ⟨t, ht, rfl⟩ := Option.map_eq_some_iff.mp hl
      rw [← Bool.not_eq_true]
      exact fun hspace => absurd (isIgnorable_of_isSpace hspace) (by simp [getLast?_core ht])
    have hne : (core us).map Token.lexeme ≠ [] := by
      intro hnil
      -- gaps alone leave the want of an operand
      rw [hgs, List.map_append, hnil, List.nil_append] at hsteps
      cases arithmeticSteps_of_isIgnorable (by simpa using hgap) hsteps
    rw [runText_eq, ← List.nil_append (chars _), ← laid_gapped [] hlast hne]
    conv_lhs => rw [hgs, List.map_append, gapped_append_spaces hspaces]
  · exact fun x => blank_of_mem_gapped hspaced fun _ hc => absurd hc List.not_mem_nil
  · intro x hx
    obtain ⟨hx, hword⟩ := mem_of_mem_gapped hx
    refine ⟨cuts_of_mem hfalls hx, ?_⟩
    obtain ⟨s, s', hstep⟩ := step_of_mem hsteps hx
    rcases cases_of_arithmeticStep hstep with ⟨hk, -⟩ | ⟨hmark, -⟩ | ⟨hmark, -⟩ | ⟨hmark, -⟩ | ⟨ho, -⟩
    · have hignorable : x.2.isIgnorable := by
        rcases hk with hk | hk | hk <;> simp [Lexeme.isIgnorable, Lexeme.token, Token.isIgnorable, hk]
      have hspace := hsolid _ hx hignorable
      rw [hword] at hspace
      cases hspace
    · exact .inr (hmark ▸ by decide)
    · exact .inr (hmark ▸ by decide)
    · exact .inr (isSign_of_isArithmetic hmark)
    · exact .inl ho
  · -- the chain from a parenthesis on, behind which an operand may stand
    have hchain : (([], mark "(") :: gapped [] (us.map Token.lexeme)).IsChain Follows :=
      isChain_gapped hsteps hfalls (List.forall_mem_map.mpr hcomment) (by decide) fun h => absurd h (by decide)
    exact hchain.tail

end JsonTerm
end RequestLang
