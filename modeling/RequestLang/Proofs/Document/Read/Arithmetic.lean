import RequestLang.Proofs.Document.Read.Token
import RequestLang.Proofs.Text.Word

/-! Arithmetic that is read from a text keeps its text, and is read from it again. -/
namespace RequestLang
open Lexer Lexeme Cursor

theorem isBlank_of_isNumberChar {c : Char} (h : isNumberChar c) : Text.isBlank c = false := by
  simp only [isNumberChar, extendsNumber, Bool.or_eq_true, beq_iff_eq] at h
  rcases h with ((((h | rfl) | rfl) | rfl) | rfl) | rfl
  · exact Text.isBlank_of_isNameChar (by simp [Text.isNameChar, Char.isAlphanum, h])
  all_goals decide

namespace JsonTerm

/-- A stray character is no step. -/
theorem arithmeticStep_of_stray {l : Lexeme} {rest : List Char} (h : Stray l rest) (s : Nat × Bool) :
    arithmeticStep s l = none := by
  obtain ⟨kind, text⟩ := l
  obtain ⟨hkind, c, hc, hnone⟩ := h
  obtain rfl : kind = .punctuation := hkind
  have hbracket {m : String} (hm : m ∈ ["\x7d", "(", ")", "[", "]", ";", ",", ".", ":"]) : text ≠ m := by
    rintro rfl
    have := (cuts_mark hm rest).lexeme
    rw [toList_mark, show text.toList = [c] from hc, List.singleton_append, hnone] at this
    cases this
  have hopen := hbracket (m := "(") (by decide)
  have hclose := hbracket (m := ")") (by decide)
  simp [arithmeticStep, Lexeme.token, Token.isPunct, isArithmetic, isOperand, hopen, hclose]

theorem arithmeticStep_of_isIgnorable {s s' : Nat × Bool} {l : Lexeme} (hl : l.isIgnorable)
    (h : arithmeticStep s l = some s') : s' = s := by
  obtain ⟨kind, text⟩ := l
  have hkind : (kind = .whitespace ∨ kind = .newline) ∨ kind = .comment := by
    simpa [Lexeme.isIgnorable, Lexeme.token, Token.isIgnorable] using hl
  rcases hkind with (rfl | rfl) | rfl
  · simpa [arithmeticStep, eq_comm] using h
  · simp only [arithmeticStep] at h
    simp at h
    exact h.2.symm
  · simpa [arithmeticStep, eq_comm] using h

theorem arithmeticSteps_of_isIgnorable {s s' : Nat × Bool} {ls : List Lexeme} (hls : ∀ l ∈ ls, l.isIgnorable)
    (h : arithmeticSteps s ls = some s') : s' = s := by
  induction ls generalizing s with
  | nil => exact (Option.some.inj h).symm
  | cons l ls ih =>
    obtain ⟨s₁, hstep, hrest⟩ := Option.bind_eq_some_iff.mp h
    rw [ih (fun m hm => hls m (by simp [hm])) hrest, arithmeticStep_of_isIgnorable (hls l (by simp)) hstep]

theorem arithmeticSteps_append (s : Nat × Bool) (as bs : List Lexeme) :
    arithmeticSteps s (as ++ bs) = (arithmeticSteps s as).bind (arithmeticSteps · bs) := by
  induction as generalizing s with
  | nil => rfl
  | cons a as ih =>
    rw [List.cons_append, arithmeticSteps_cons, arithmeticSteps_cons]
    cases arithmeticStep s a with
    | none => rfl
    | some s₁ => exact ih s₁

/-- The tokens of a run are cut off one by one. -/
theorem falls_of_steps {us ts : List Token} (h : Scanned (us ++ ts)) {s s' : Nat × Bool}
    (hsteps : arithmeticSteps s (us.map Token.lexeme) = some s') : Falls (us.map Token.lexeme) (textOf ts) := by
  induction us generalizing s with
  | nil => trivial
  | cons u us ih =>
    obtain ⟨s₁, hstep, hrest⟩ := Option.bind_eq_some_iff.mp hsteps
    obtain ⟨hcut, -, hus⟩ := Scanned.cons h
    refine ⟨?_, ih hus hrest⟩
    rcases hcut with hcut | hstray
    · rwa [show us.append ts = us ++ ts from rfl, textOf_append] at hcut
    · rw [arithmeticStep_of_stray hstray] at hstep
      cases hstep

/-- A run has no comments to fear where it stands alone. -/
theorem calm_of_falls {ls : List Lexeme} {rest : List Char} (h : Falls ls rest) : Calm ls [] := by
  induction ls with
  | nil => trivial
  | cons l ls ih =>
    refine ⟨?_, ih h.2⟩
    rintro rfl
    have := (stops_of_cuts_slash h.1).2
    rw [List.append_nil]
    unfold opensComment at this ⊢
    cases hcs : chars ls with
    | nil => rfl
    | cons c cs =>
      rw [hcs] at this
      split
      · rename_i body hbody
        obtain ⟨rfl, rfl⟩ := List.cons.inj hbody
        simp only [List.cons_append] at this
        rw [← Bool.not_eq_true, Text.holds_iff_infix (by simp)] at this ⊢
        exact fun hin => this (hin.trans (List.prefix_append ..).isInfix)
      · rfl

/-- The tokens of a run without the gap at its end. -/
def core (run : List Token) : List Token := (run.reverse.dropWhile (·.isIgnorable)).reverse

theorem core_append (run : List Token) : ∃ gs, run = core run ++ gs ∧ ∀ g ∈ gs, g.isIgnorable := by
  refine ⟨(run.reverse.takeWhile (·.isIgnorable)).reverse, ?_, ?_⟩
  · rw [core, ← List.reverse_append, List.takeWhile_append_dropWhile, List.reverse_reverse]
  · intro g hg
    exact List.all_eq_true.mp List.all_takeWhile g (List.mem_reverse.mp hg)

theorem getLast?_core {run : List Token} {t : Token} (h : t ∈ (core run).getLast?) : t.isIgnorable = false := by
  rw [core, List.getLast?_reverse] at h
  have := List.head?_dropWhile_not (·.isIgnorable) run.reverse
  rw [show List.head? _ = some t from h] at this
  simpa using this

theorem runText_eq (run : List Token) : runText run = chars ((core run).map Token.lexeme) := by
  rw [runText, chars, List.flatMap_map]
  rfl

@[simp] theorem isIgnorable_lexeme (t : Token) : t.lexeme.isIgnorable = t.isIgnorable := rfl

/-- Before a mark that closes, the tokens of a complete run spell arithmetic. -/
theorem isRun_core {ts : List Token} (hts : Scanned ts) {n : Nat}
    (hrun : arithmeticRun 0 true ts = (n, 0, false)) (hclose : Closes (ts.drop n))
    (hopens : ∀ t ∈ ts.head?, t.isPunct "(" || t.isOp "-" ||
      (isOperand t && ((ts.tail.find? (!·.isIgnorable)).map isArithmetic).getD false)) :
    IsRun ((core (ts.take n)).map Token.lexeme) := by
  obtain ⟨-, hsteps, -⟩ := arithmeticSteps_of_run (s := (0, true)) hrun
  obtain ⟨gs, hgs, hgap⟩ := core_append (ts.take n)
  have hsplit : ts = core (ts.take n) ++ (gs ++ ts.drop n) := by
    rw [← List.append_assoc, ← hgs, List.take_append_drop]
  have hlast := fun t => @getLast?_core (ts.take n) t
  generalize core (ts.take n) = us at *
  generalize ts.drop n = rest at *
  rw [hgs, List.map_append, arithmeticSteps_append] at hsteps
  obtain ⟨s, hus, hg⟩ := Option.bind_eq_some_iff.mp hsteps
  obtain rfl := arithmeticSteps_of_isIgnorable (by simpa using hgap) hg
  subst hsplit
  have hclose' : Closes (gs ++ rest) := by
    obtain ⟨t, m, hfind, ht, hm⟩ := hclose
    refine ⟨t, m, ?_, ht, hm⟩
    rw [List.find?_append, List.find?_eq_none.mpr (by simpa using hgap), hfind]
    rfl
  have hfalls := falls_of_steps hts hus
  have hstop := hclose'.stops (Scanned.of_append hts)
  have hclean : '\r' ∉ chars (us.map Token.lexeme) := by
    intro hr
    obtain ⟨l, hl, hr⟩ := List.mem_flatMap.mp hr
    obtain ⟨t, ht, rfl⟩ := List.mem_map.mp hl
    exact hts.clean t (List.mem_append_left _ ht) hr
  have hlast' : ∀ l ∈ (us.map Token.lexeme).getLast?, l.isIgnorable = false := by
    intro l hl
    rw [List.getLast?_map] at hl
    obtain ⟨t, ht, rfl⟩ := Option.map_eq_some_iff.mp hl
    exact hlast t ht
  refine ⟨?_, hus, hlast', ?_, hclean⟩
  · exact falls_change hus rfl hfalls hclean hlast' hstop (stops_nil _) (calm_of_falls hfalls)
  · cases us with
    | nil => cases hus
    | cons u us =>
      have hopen := hopens u rfl
      simp only [List.map_cons, opensArithmetic]
      rw [Bool.or_eq_true] at hopen ⊢
      refine hopen.imp id fun hopen => ?_
      rw [Bool.and_eq_true] at hopen ⊢
      refine ⟨hopen.1, ?_⟩
      have hnext : (((us ++ (gs ++ rest)).find? (!·.isIgnorable)).map isArithmetic).getD false := hopen.2
      rw [List.find?_map, Option.map_map]
      show ((us.find? (!·.isIgnorable)).map isArithmetic).getD false = true
      rw [List.find?_append] at hnext
      cases hfind : us.find? (!·.isIgnorable) with
      | some t => rwa [hfind] at hnext
      | none =>
        -- the run would end in its first operand, and a sign would follow where a mark closes
        obtain ⟨t, m, hm, ht, -⟩ := hclose'
        rw [hfind, hm] at hnext
        have hpunct : t.kind = .punctuation := by
          simp only [Token.isPunct, Bool.and_eq_true, beq_iff_eq] at ht
          exact ht.1
        simp [isArithmetic, hpunct] at hnext

/-- An operand holds blanks at neither end. -/
theorem ends_operand {l : Lexeme} {rest : List Char} (hl : isOperand l.token) (h : Cuts l rest) :
    (∀ c ∈ l.text.toList.head?, Text.isBlank c = false) ∧ ∀ c ∈ l.text.toList.getLast?, Text.isBlank c = false := by
  obtain ⟨kind, text⟩ := l
  have hkind : kind = .number ∨ kind = .identifier ∨ kind = .placeholder := by
    simpa [isOperand, token, or_assoc] using hl
  have hall (hall : ∀ c ∈ text.toList, Text.isBlank c = false) :
      (∀ c ∈ text.toList.head?, Text.isBlank c = false) ∧ ∀ c ∈ text.toList.getLast?, Text.isBlank c = false :=
    ⟨fun c hc => hall c (List.mem_of_head? hc), fun c hc => hall c (List.mem_of_getLast? hc)⟩
  rcases hkind with rfl | rfl | rfl
  · obtain ⟨c, cs, ht, hc, hn⟩ := h.number rfl
    refine hall fun d hd => isBlank_of_isNumberChar (@mem_take_number (c :: cs) d ?_)
    rw [hn, List.take_of_length_le (by simp)]
    exact ht ▸ hd
  · obtain ⟨name, ht, hname, -⟩ := h.identifier rfl
    obtain ⟨c, cs, hs, hc, hcs⟩ := cons_of_isHeaded hname
    have hchars : ∀ d ∈ name.toList, Text.isBlank d = false := by
      rw [hs]
      intro d hd
      rcases List.mem_cons.mp hd with rfl | hd
      · exact Text.isBlank_of_isNameChar (Text.isNameChar_of_isNameStart hc)
      · exact Text.isBlank_of_isNameChar (hcs d hd)
    rcases ht with rfl | rfl
    · exact hall hchars
    · refine hall fun d hd => ?_
      simp only [String.toList_append, List.mem_append] at hd
      rcases hd with hd | hd
      · obtain rfl : d = '$' := by simpa using hd
        decide
      · exact hchars d hd
  · obtain ⟨body, ht, hb⟩ := h.placeholder rfl
    obtain ⟨value, rfl⟩ := Text.append_mark_of_through? hb
    have htext : text.toList = '\x7b' :: '\x7b' :: (value ++ ['\x7d', '\x7d']) := ht
    rw [htext]
    constructor
    · intro c hc
      obtain rfl : '\x7b' = c := Option.some.inj hc
      decide
    · intro c hc
      rw [← List.cons_append, ← List.cons_append, List.getLast?_append] at hc
      obtain rfl : '\x7d' = c := Option.some.inj hc
      decide

/-- A lexeme of a run that is neither a blank nor a line end begins with no blank. -/
theorem head_of_arithmeticStep {s s' : Nat × Bool} {l : Lexeme} {rest : List Char}
    (hstep : arithmeticStep s l = some s') (h : Cuts l rest) (hl : l.kind ≠ .whitespace ∧ l.kind ≠ .newline) :
    ∀ c ∈ l.text.toList.head?, Text.isBlank c = false := by
  rcases cases_of_arithmeticStep hstep with ⟨hk | hk | hk, -⟩ | ⟨rfl, -⟩ | ⟨rfl, -⟩ | ⟨ha, -⟩ | ⟨ho, -⟩
  · exact absurd hk hl.1
  · intro c hc
    rcases h.comment hk with ⟨body, ht | ht, -⟩ | ⟨body, ht, -⟩ <;>
    · rw [ht] at hc
      obtain rfl := Option.some.inj hc
      decide
  · exact absurd hk hl.2
  · exact stops_of_all (by decide)
  · exact stops_of_all (by decide)
  · have hop := eq_op_of_isArithmetic ha
    simp only [List.mem_cons, List.not_mem_nil, or_false] at hop
    rcases hop with rfl | rfl | rfl | rfl | rfl | rfl <;> exact stops_of_all (by decide)
  · exact (ends_operand ho h).1

/-- The last lexeme of a complete run ends in no blank. -/
theorem last_of_arithmeticStep {s s' : Nat × Bool} {l : Lexeme} {rest : List Char}
    (hstep : arithmeticStep s l = some s') (hs' : s'.2 = false) (hl : l.isIgnorable = false) (h : Cuts l rest) :
    ∀ c ∈ l.text.toList.getLast?, Text.isBlank c = false := by
  rcases cases_of_arithmeticStep hstep with ⟨hk, -⟩ | ⟨-, hw⟩ | ⟨rfl, -⟩ | ⟨-, hw⟩ | ⟨ho, -, -⟩
  · rcases hk with hk | hk | hk <;> simp [Lexeme.isIgnorable, token, Token.isIgnorable, hk] at hl
  · rw [hs'] at hw
    cases hw
  · intro c hc
    obtain rfl : ')' = c := Option.some.inj hc
    decide
  · rw [hs'] at hw
    cases hw
  · exact (ends_operand ho h).2

/-- The lexemes between which nothing but blanks stand. -/
def isSpace (l : Lexeme) : Bool := l.kind == .whitespace || l.kind == .newline

theorem isBlank_of_isSpace {l : Lexeme} {rest : List Char} (hl : isSpace l) (h : Cuts l rest)
    (hcr : '\r' ∉ l.text.toList) : ∀ c ∈ l.text.toList, Text.isBlank c := by
  simp only [isSpace, Bool.or_eq_true, beq_iff_eq] at hl
  intro c hc
  rcases hl with hk | hk
  · have := (h.whitespace hk).1 c hc
    simp only [isGap, Bool.or_eq_true, beq_iff_eq] at this
    rcases this with rfl | rfl <;> decide
  · rw [h.newline hk hcr] at hc
    obtain rfl := List.mem_singleton.mp hc
    decide

theorem getLast?_chars {ls : List Lexeme} {l : Lexeme} (hl : l.text.toList ≠ []) :
    (chars (ls ++ [l])).getLast? = l.text.toList.getLast? := by
  rw [chars_append, List.getLast?_append]
  cases hlast : l.text.toList.getLast? with
  | none => exact absurd (List.getLast?_eq_none_iff.mp hlast) hl
  | some c => simp [hlast]

theorem cuts_of_mem {ls : List Lexeme} {rest : List Char} (h : Falls ls rest) {l : Lexeme} (hl : l ∈ ls) :
    ∃ more, Cuts l more := by
  induction ls with
  | nil => cases hl
  | cons m ls ih =>
    rcases List.mem_cons.mp hl with rfl | hl
    · exact ⟨_, h.1⟩
    · exact ih h.2 hl

/-- The lexeme of a run that begins with a minus. -/
theorem eq_minus_of_opens {l : Lexeme} {ls : List Lexeme} {rest more : List Char}
    (h : opensArithmetic (l :: ls)) (hcut : Cuts l more) (htext : chars (l :: ls) = '-' :: rest) :
    l = op "-" := by
  have hhead : l.text.toList.head? = some '-' := by
    cases ht : l.text.toList with
    | nil => exact absurd ht hcut.nonempty
    | cons c cs =>
      rw [chars_cons, ht] at htext
      rw [List.head?_cons, (List.cons.inj htext).1]
  simp only [opensArithmetic, Bool.or_eq_true, Bool.and_eq_true] at h
  rcases h with (h | h) | ⟨h, -⟩
  · rw [eq_mark_of_isPunct h] at hhead
    exact absurd hhead (by decide)
  · cases l
    simpa [Lexeme.token, Token.isOp, op] using h
  · obtain ⟨kind, text⟩ := l
    have hkind : kind = .number ∨ kind = .identifier ∨ kind = .placeholder := by
      simpa [isOperand, Lexeme.token, or_assoc] using h
    rcases hkind with rfl | rfl | rfl
    · obtain ⟨c, cs, ht, hc, -⟩ := hcut.number rfl
      rw [ht] at hhead
      obtain rfl : c = '-' := Option.some.inj hhead
      simp at hc
    · obtain ⟨name, ht, hname, -⟩ := hcut.identifier rfl
      obtain ⟨c, cs, hs, hc, -⟩ := cons_of_isHeaded hname
      rcases ht with rfl | rfl
      · rw [hs] at hhead
        obtain rfl : c = '-' := Option.some.inj hhead
        exact absurd hc (by decide)
      · simp at hhead
    · obtain ⟨body, ht, -⟩ := hcut.placeholder rfl
      rw [ht] at hhead
      cases hhead

/-- A minus keeps making a run when what follows it is moved up to it. -/
theorem isRun_trim {ls : List Lexeme} {rest : List Char} (h : IsRun ls) (htext : chars ls = '-' :: rest) :
    IsRun (pieces (String.ofList ('-' :: Text.trimChars rest))) := by
  cases ls with
  | nil => cases htext
  | cons l ls =>
    obtain rfl := eq_minus_of_opens h.opens h.falls.1 htext
    obtain rfl : chars ls = rest := (List.cons.inj htext).2
    have hsplit : ls = ls.takeWhile isSpace ++ ls.dropWhile isSpace := List.takeWhile_append_dropWhile.symm
    have hspaces : ∀ l ∈ ls.takeWhile isSpace, isSpace l := List.all_eq_true.mp List.all_takeWhile
    have hhead : ∀ l ∈ (ls.dropWhile isSpace).head?, isSpace l = false := by
      intro l hl
      have := List.head?_dropWhile_not isSpace ls
      rw [show List.head? _ = some l from hl] at this
      simpa using this
    have hsteps : arithmeticSteps (0, true) ls = some (0, false) := h.steps
    have hfalls : Falls ls [] := h.falls.2
    have hlast := h.last
    have hclean : '\r' ∉ chars ls := fun hr => h.clean (List.mem_cons_of_mem _ hr)
    generalize ls.takeWhile isSpace = spaces at *
    generalize ls.dropWhile isSpace = sig at *
    subst hsplit
    rw [arithmeticSteps_append] at hsteps
    obtain ⟨s, hs, hsteps⟩ := Option.bind_eq_some_iff.mp hsteps
    obtain rfl := arithmeticSteps_of_isIgnorable (fun l hl => by
      have := hspaces l hl
      simp only [isSpace, Bool.or_eq_true, beq_iff_eq] at this
      rcases this with hk | hk <;> simp [Lexeme.isIgnorable, token, Token.isIgnorable, hk]) hs
    rw [falls_append] at hfalls
    rw [chars_append, List.mem_append, not_or] at hclean
    have hblank : ∀ c ∈ chars spaces, Text.isBlank c := by
      intro c hc
      obtain ⟨l, hl, hc⟩ := List.mem_flatMap.mp hc
      obtain ⟨more, hcut⟩ := cuts_of_mem hfalls.1 hl
      exact isBlank_of_isSpace (hspaces l hl) hcut (fun hr => hclean.1 (List.mem_flatMap.mpr ⟨l, hl, hr⟩)) c hc
    have hleft : ∀ c ∈ (chars sig).head?, Text.isBlank c = false := by
      cases sig with
      | nil => simp
      | cons l sig =>
        obtain ⟨s, hstep, -⟩ := Option.bind_eq_some_iff.mp hsteps
        have hnot := hhead l rfl
        simp only [isSpace, Bool.or_eq_false_iff, beq_eq_false_iff_ne] at hnot
        intro c hc
        refine head_of_arithmeticStep hstep hfalls.2.1 hnot c ?_
        cases ht : l.text.toList with
        | nil => exact absurd ht hfalls.2.1.nonempty
        | cons d ds => simpa [ht] using hc
    have hright : ∀ c ∈ (chars sig).getLast?, Text.isBlank c = false := by
      rcases List.eq_nil_or_concat sig with rfl | ⟨front, l, rfl⟩
      · simp
      · rw [List.concat_eq_append] at *
        rw [arithmeticSteps_append] at hsteps
        obtain ⟨s, -, hstep⟩ := Option.bind_eq_some_iff.mp hsteps
        obtain ⟨s', hstep, hend⟩ := Option.bind_eq_some_iff.mp hstep
        obtain rfl := Option.some.inj hend
        obtain ⟨more, hcut⟩ := cuts_of_mem hfalls.2 (l := l) (by simp)
        have hend : l ∈ (op "-" :: (spaces ++ (front ++ [l]))).getLast? := by
          rw [← List.cons_append, ← List.append_assoc]
          exact List.getLast?_concat
        rw [getLast?_chars hcut.nonempty]
        exact last_of_arithmeticStep hstep rfl (hlast l hend) hcut
    have htrim : Text.trimChars (chars (spaces ++ sig)) = chars sig := by
      rw [chars_append, Text.trimChars, Text.trimLeft_append_of_blank hblank, Text.trimLeft_eq_self hleft,
        Text.trimRight_eq_self hright]
    have hpieces : pieces (String.ofList ('-' :: Text.trimChars (chars (spaces ++ sig)))) = op "-" :: sig :=
      pieces_of_falls ⟨cuts_op (by decide) _, hfalls.2⟩ (by rw [htrim, String.toList_ofList]; rfl)
    rw [hpieces]
    refine ⟨⟨cuts_op (by decide) _, hfalls.2⟩, hsteps, fun l hl => hlast l ?_, rfl, ?_⟩
    · have hne : sig ≠ [] := by
        rintro rfl
        cases hsteps
      cases hsig : sig.getLast? with
      | none => exact absurd (List.getLast?_eq_none_iff.mp hsig) hne
      | some m =>
        rw [← List.singleton_append, List.getLast?_append, hsig] at hl
        rw [← List.singleton_append, List.getLast?_append, List.getLast?_append, hsig]
        exact hl
    · simpa using hclean.2

end JsonTerm
end RequestLang
