import RequestLang.Proofs.Document.Exact.Run
import RequestLang.Proofs.Document.Kin.Cursor
import RequestLang.Proofs.Property.Comment

/-! Texts that differ in their comments: the JSON terms that are read from them have the same values. -/
namespace RequestLang
open Lexer Lexeme

theorem Lexeme.Cuts.brace_not_mem_of_number {l : Lexeme} {rest : List Char} (h : Cuts l rest) (hl : l.kind = .number) :
    '\x7b' ∉ l.text.toList := by
  obtain ⟨c, cs, ht, -, hn⟩ := h.number hl
  rw [ht]
  intro hmem
  rw [← List.take_of_length_le (l := c :: cs) (i := cs.length + 1) (by simp), ← hn] at hmem
  exact absurd (mem_take_number hmem) (by decide)

theorem Lexeme.Cuts.brace_not_mem_of_identifier {l : Lexeme} {rest : List Char} (h : Cuts l rest)
    (hl : l.kind = .identifier) :
    '\x7b' ∉ l.text.toList := by
  obtain ⟨name, ht, hname, -⟩ := h.identifier hl
  obtain ⟨c, cs, hcs, hc, hall⟩ := cons_of_isHeaded hname
  have hfree : '\x7b' ∉ name.toList := by
    rw [hcs]
    intro hmem
    rcases List.mem_cons.mp hmem with rfl | hmem
    · exact absurd (Text.isNameChar_of_isNameStart hc) (by decide)
    · exact absurd (hall _ hmem) (by decide)
  rcases ht with ht | ht
  · rwa [ht]
  · rw [ht, String.toList_append]
    exact List.not_mem_append (by decide) hfree

namespace JsonTerm

/-- No lexeme of arithmetic opens a placeholder without closing it. -/
theorem remarked_append {s s' : Nat × Bool} {l : Lexeme} {rest more : List Char} (hstep : arithmeticStep s l = some s')
    (hcut : Cuts l rest) (hcr : '\r' ∉ l.text.toList) (hl : l.kind ≠ .comment) (h : Remarked more) :
    Remarked (l.text.toList ++ more) := by
  rcases cases_of_arithmeticStep hstep with ⟨hk | hk | hk, -⟩ | ⟨rfl, -⟩ | ⟨rfl, -⟩ | ⟨ha, -⟩ | ⟨ho, -⟩
  · exact h.append fun hmem => absurd ((hcut.whitespace hk).1 _ hmem) (by decide)
  · exact absurd hk hl
  · rw [hcut.newline hk hcr]
    exact h.append (by decide)
  · exact h.append (by decide)
  · exact h.append (by decide)
  · have hop := eq_op_of_isArithmetic ha
    refine h.append ?_
    simp only [List.mem_cons, List.not_mem_nil, or_false] at hop
    rcases hop with rfl | rfl | rfl | rfl | rfl | rfl <;> decide
  · have hkind : l.kind = .number ∨ l.kind = .identifier ∨ l.kind = .placeholder := by
      simpa [isOperand, token, or_assoc] using ho
    rcases hkind with hk | hk | hk
    · exact h.append (hcut.brace_not_mem_of_number hk)
    · exact h.append (hcut.brace_not_mem_of_identifier hk)
    · obtain ⟨body, ht, hb⟩ := hcut.placeholder hk
      have hhole : Segment.holeAt? (l.text.toList ++ more) = some ((body ++ more).take (body.length - 2), more) := by
        rw [ht, List.cons_append, List.cons_append, Segment.holeAt?, Text.through?_append hb, Option.map_some, List.drop_left]
      exact h.of_hole hhole

/-- A comment inside arithmetic shows outside its placeholders. -/
theorem remarked_of_steps {ls : List Lexeme} {rest : List Char} (h : Falls ls rest) (hcr : '\r' ∉ chars ls)
    {s s' : Nat × Bool} (hsteps : arithmeticSteps s ls = some s') (hcomment : ∃ l ∈ ls, l.kind = .comment) :
    Remarked (chars ls) := by
  -- up to the first comment no lexeme leaves a placeholder open, and what comes after it does not matter
  induction ls generalizing s with
  | nil => simp at hcomment
  | cons l ls ih =>
    obtain ⟨s₁, hstep, hsteps⟩ := Option.bind_eq_some_iff.mp hsteps
    obtain ⟨hcut, hfalls⟩ := h
    rw [chars_cons, List.mem_append, not_or] at hcr
    rw [chars_cons]
    by_cases hl : l.kind = .comment
    · rcases hcut.comment hl with ⟨body, ht | ht, -⟩ | ⟨body, ht, -⟩ <;> rw [ht]
      · exact .slash (.inl rfl) _
      · exact .hash _
      · exact .slash (.inr rfl) _
    · obtain ⟨l', hl', hk⟩ := hcomment
      have hmore : ∃ l ∈ ls, l.kind = .comment :=
        ⟨l', (List.mem_cons.mp hl').resolve_left fun heq => hl (heq ▸ hk), hk⟩
      exact remarked_append hstep hcut hcr.1 hl (ih hfalls hcr.2 hsteps hmore)

/-- Arithmetic with a comment in it is not taken for a number. -/
theorem ofArithmetic_of_commented {cs : List Char} (h : Commented cs) : ofArithmetic cs = .arithmetic (String.ofList cs) := by
  unfold ofArithmetic
  split
  · rename_i rest
    obtain ⟨m, hm, hmem⟩ := (h.tail (by decide) (by decide)).exists_mem
    have hdigits : (Numeral.read? (Text.trimChars rest)).isSome = false := by
      rw [← Bool.not_eq_true]
      intro hread
      refine Numeral.not_mem_read? hm hread (Text.mem_trimChars hmem ?_)
      simp only [List.mem_cons, List.not_mem_nil, or_false] at hm
      rcases hm with rfl | rfl <;> decide
    simp [hdigits]
  · rfl

/-- Terms with the same value, if they have one. -/
def Kin (t u : JsonTerm) : Prop := Resolve.Matches Eq (Resolve.evaluate t) (Resolve.evaluate u)

theorem mem_of_mem_core {run : List Token} {t : Token} (h : t ∈ core run) : t ∈ run := by
  obtain ⟨gs, hgs, -⟩ := core_append run
  rw [hgs]
  exact List.mem_append_left gs h

theorem core_kin {ts us : List Token} (h : List.Forall₂ Token.Kin ts us) : List.Forall₂ Token.Kin (core ts) (core us) := by
  rw [core, core, List.forall₂_reverse_iff]
  exact Cursor.Kin.dropWhile (fun _ _ htu => htu.isIgnorable) (List.forall₂_reverse_iff.mpr h)

theorem arithmeticRun_kin {ts us : List Token} (h : List.Forall₂ Token.Kin ts us) (depth : Nat) (wanting : Bool) :
    arithmeticRun depth wanting ts = arithmeticRun depth wanting us := by
  induction h generalizing depth wanting with
  | nil => rfl
  | cons htu _ ih => simp only [arithmeticRun, ih, htu.kind, htu.isPunct, htu.isArithmetic, htu.isOperand]

theorem map_kind_kin {ts us : List Token} (h : List.Forall₂ Token.Kin ts us) : ts.map Token.kind = us.map Token.kind := by
  induction h with
  | nil => rfl
  | cons htu _ ih => rw [List.map_cons, List.map_cons, htu.kind, ih]

theorem textOf_kin {ts us : List Token} (h : List.Forall₂ Token.Kin ts us) (hts : .comment ∉ ts.map Token.kind) :
    textOf ts = textOf us := by
  induction h with
  | nil => rfl
  | cons htu _ ih =>
    rw [List.map_cons, List.mem_cons, not_or] at hts
    rw [textOf_cons, textOf_cons, htu.text (Ne.symm hts.1), ih hts.2]

theorem runText_kin {ts us : List Token} (h : List.Forall₂ Token.Kin ts us) (hts : .comment ∉ (core ts).map Token.kind) :
    runText ts = runText us := by
  rw [runText_eq, runText_eq]
  exact textOf_kin (core_kin h) hts

/-- Arithmetic that is read with a comment inside it has no value. -/
theorem evaluate_ofArithmetic {ts : List Token} (hts : Scanned ts) {n : Nat} {s : Nat × Bool}
    (hrun : arithmeticRun 0 true ts = (n, s)) (hcomment : .comment ∈ (core (ts.take n)).map Token.kind) :
    Resolve.Always (fun _ => False) (Resolve.evaluate (ofArithmetic (runText (ts.take n)))) := by
  obtain ⟨-, hsteps, -⟩ := arithmeticSteps_of_run (s := (0, true)) hrun
  obtain ⟨gs, hgs, -⟩ := core_append (ts.take n)
  rw [runText_eq]
  have hsplit : Scanned (core (ts.take n) ++ (gs ++ ts.drop n)) := by
    rwa [← List.append_assoc, ← hgs, List.take_append_drop]
  rw [hgs, List.map_append, arithmeticSteps_append] at hsteps
  obtain ⟨s', hsteps, -⟩ := Option.bind_eq_some_iff.mp hsteps
  have hcr : '\r' ∉ chars ((core (ts.take n)).map Token.lexeme) := by
    intro hr
    obtain ⟨l, hl, hr⟩ := List.mem_flatMap.mp hr
    obtain ⟨u, hu, rfl⟩ := List.mem_map.mp hl
    exact hsplit.clean u (List.mem_append_left _ hu) hr
  obtain ⟨t, ht, hk⟩ := List.mem_map.mp hcomment
  have hremarked := remarked_of_steps (falls_of_steps hsplit hsteps) hcr hsteps ⟨t.lexeme, List.mem_map_of_mem ht, hk⟩
  rw [ofArithmetic_of_commented hremarked.commented]
  refine Resolve.evaluateArithmetic_remarked ?_
  rwa [String.toList_ofList]

/-- Arithmetic without comments is the same, and with comments it has no value. -/
theorem ofArithmetic_kin {ts us : List Token} (h : List.Forall₂ Token.Kin ts us) (hts : Scanned ts) (hus : Scanned us)
    {n : Nat} {s : Nat × Bool} (hrun : arithmeticRun 0 true ts = (n, s)) :
    Kin (ofArithmetic (runText (ts.take n))) (ofArithmetic (runText (us.take n))) := by
  have htake := List.forall₂_take n h
  -- the text of arithmetic holds its comments, so that the terms differ, but then both fail
  by_cases hcomment : .comment ∈ (core (ts.take n)).map Token.kind
  · have hrun' : arithmeticRun 0 true us = (n, s) := by rwa [← arithmeticRun_kin h]
    exact .of_never (evaluate_ofArithmetic hts hrun hcomment)
      (evaluate_ofArithmetic hus hrun' (map_kind_kin (core_kin htake) ▸ hcomment))
  · rw [runText_kin htake hcomment]
    exact .refl _

theorem readArithmetic_kin {c d : Cursor} (h : c.Kin d) :
    Tracks (Cursor.Paired Kin) (readArithmetic c) (readArithmetic d) := by
  rw [readArithmetic, readArithmetic, ← arithmeticRun_kin h.ahead]
  rcases hrun : arithmeticRun 0 true c.ahead with ⟨n, depth, wanting⟩
  dsimp only
  split
  · exact .error _ _
  · exact .ok ⟨ofArithmetic_kin h.ahead h.left h.right hrun, h.drop n _ _ _ _⟩

theorem startsArithmetic_kin {c d : Cursor} (h : c.Kin d) {t u : Token} (htu : t.Kin u) :
    startsArithmetic c t = startsArithmetic d u := by
  have hnext := Cursor.Kin.test h.nextSignificant? (fun _ _ h => h.isArithmetic)
  rw [startsArithmetic, startsArithmetic, htu.isPunct, htu.isOp, htu.isOperand, hnext]

/-- What is read at each depth has the same value. -/
structure ReadsKin (n : Nat) : Prop where
  term {c d : Cursor} (h : c.Kin d) : Tracks (Cursor.Paired Kin) (readWithin n c) (readWithin n d)
  items {c d : Cursor} (h : c.Kin d) :
    Tracks (Cursor.Paired fun ts us => Resolve.Matches Eq (Resolve.evaluateItems ts) (Resolve.evaluateItems us))
      (readItems n c) (readItems n d)
  members {c d : Cursor} (h : c.Kin d) :
    Tracks (Cursor.Paired fun ms ns => ∀ acc,
        Resolve.Matches Eq (Resolve.evaluateMembers acc ms) (Resolve.evaluateMembers acc ns))
      (readMembers n c) (readMembers n d)

namespace ReadsKin
variable {n : Nat} {c d : Cursor}

theorem term_succ (ih : ReadsKin n) (h : c.Kin d) :
    Tracks (Cursor.Paired Kin) (readWithin (n + 1) c) (readWithin (n + 1) d) := by
  have htoken := h.skip.token?
  rw [readWithin, readWithin]
  dsimp only
  generalize hc : c.skip.token? = x, d.skip.token? = y at htoken ⊢
  cases htoken with
  | none => exact .error _ _
  | @some t u htu =>
    have hcomment := Cursor.Kin.kind_of_skip hc
    dsimp only
    rw [← startsArithmetic_kin h.skip htu, ← htu.isPunct, ← htu.isPunct, ← htu.kind, ← htu.text hcomment,
      ← htu.literal hcomment]
    split
    · exact readArithmetic_kin h.skip
    split
    · refine (ih.members h.skip.advance).paired fun _ _ c d hab h => .ok ⟨?_, h⟩
      exact (hab []).bind fun _ _ hv => hv ▸ .refl _
    split
    · refine (ih.items h.skip.advance).paired fun _ _ c d hab h => .ok ⟨?_, h⟩
      exact hab.bind fun _ _ hv => hv ▸ .refl _
    · split <;> first | exact .error _ _ | exact .ok ⟨.refl _, h.skip.advance⟩

theorem items_succ (ih : ReadsKin n) (h : c.Kin d) :
    Tracks (Cursor.Paired fun ts us => Resolve.Matches Eq (Resolve.evaluateItems ts) (Resolve.evaluateItems us))
      (readItems (n + 1) c) (readItems (n + 1) d) := by
  rw [readItems, readItems]
  dsimp only
  rw [← h.skip.isPunct]
  split
  · exact .ok ⟨.refl _, h.skip.advance⟩
  · refine (ih.term h.skip).paired fun a b c d hab h => ?_
    dsimp only
    rw [← h.skip.isPunct]
    split
    · refine (ih.items h.skip.advance).paired fun _ _ c d hrest h => .ok ⟨?_, h⟩
      exact hab.bind fun v _ hv => hv ▸ hrest.bind fun _ _ hvs => hvs ▸ .refl _
    · refine (h.skip.expectPunct _ _).bind fun c d h => .ok ⟨?_, h⟩
      exact hab.bind fun v _ hv => hv ▸ .refl _

theorem members_succ (ih : ReadsKin n) (h : c.Kin d) :
    Tracks (Cursor.Paired fun ms ns => ∀ acc,
        Resolve.Matches Eq (Resolve.evaluateMembers acc ms) (Resolve.evaluateMembers acc ns))
      (readMembers (n + 1) c) (readMembers (n + 1) d) := by
  rw [readMembers, readMembers]
  dsimp only
  rw [← h.skip.isPunct]
  split
  · exact .ok ⟨fun _ => .refl _, h.skip.advance⟩
  · refine (h.skip.expect (fun t u htu => by rw [htu.isString, htu.kind]) _).bind fun key key' hkey => ?_
    refine (h.skip.advance.skip.expectPunct _ _).bind fun c d h => (ih.term h).paired fun a b c d hab h => ?_
    have hkeys : keyOf key = keyOf key' := by
      have hcomment := Cursor.Kin.kind_of_skip hkey.2.1
      rw [keyOf, keyOf, hkey.1.kind, hkey.1.text hcomment, hkey.1.literal hcomment]
    dsimp only
    rw [← h.skip.isPunct, hkeys]
    split
    · refine (ih.members h.skip.advance).paired fun _ _ c d hrest h => .ok ⟨fun acc => ?_, h⟩
      exact .after _ fun k => hab.bind fun v _ hv => hv ▸ hrest _
    · refine (h.skip.expectPunct _ _).bind fun c d h => .ok ⟨fun acc => ?_, h⟩
      exact .after _ fun k => hab.bind fun v _ hv => hv ▸ .refl _

end ReadsKin

theorem readsKin (n : Nat) : ReadsKin n := by
  induction n with
  | zero => exact ⟨fun _ => .error _ _, fun _ => .error _ _, fun _ => .error _ _⟩
  | succ n ih => exact ⟨ih.term_succ, ih.items_succ, ih.members_succ⟩

theorem read_kin {c d : Cursor} (h : c.Kin d) : Tracks (Cursor.Paired Kin) (read c) (read d) := by
  rw [read, read, h.length]
  exact (readsKin _).term h

end JsonTerm
end RequestLang
