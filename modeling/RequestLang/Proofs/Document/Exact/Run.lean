import RequestLang.Proofs.Document.Read.Term
import RequestLang.Proofs.Document.Reread.Term

/-! A comment that opens inside arithmetic shows in what is read. -/
namespace RequestLang
open Lexer Lexeme

namespace Numeral

theorem not_isDigit_of_mem {m : Char} (hm : m ∈ ['/', '#']) : m.isDigit = false := by
  simp only [List.mem_cons, List.not_mem_nil, or_false] at hm
  rcases hm with rfl | rfl <;> decide

/-- What can open a comment does not belong to a number. -/
theorem not_mem_exponent? {m : Char} (hm : m ∈ ['/', '#']) {cs : List Char} (h : (exponent? cs).isSome) : m ∉ cs := by
  have hother {d : Char} (hd : d ∉ ['/', '#']) : m ≠ d := fun heq => hd (heq ▸ hm)
  cases cs with
  | nil => exact List.not_mem_nil
  | cons e cs =>
    simp only [exponent?] at h
    split at h
    · rename_i he
      have hdigits {ds : List Char} {x : Int} (h : (if ds.isEmpty || !ds.all Char.isDigit then none
          else some x).isSome) : m ∉ ds := by
        split at h
        · cases h
        · rename_i hds
          simp only [Bool.or_eq_true, Bool.not_eq_true', not_or, Bool.not_eq_false, List.all_eq_true] at hds
          exact fun hmem => absurd (hds.2 _ hmem) (by rw [not_isDigit_of_mem hm]; decide)
      have hrest : m ∉ cs := by
        split at h
        · exact List.not_mem_cons_of_ne_of_not_mem (hother (by decide)) (hdigits h)
        · exact List.not_mem_cons_of_ne_of_not_mem (hother (by decide)) (hdigits h)
        · exact hdigits h
      have hletter : m ≠ e := by rcases he with rfl | rfl <;> exact hother (by decide)
      exact List.not_mem_cons_of_ne_of_not_mem hletter hrest
    · cases h

theorem not_mem_unsigned? {m : Char} (hm : m ∈ ['/', '#']) {negative : Bool} {cs : List Char}
    (h : (unsigned? negative cs).isSome) : m ∉ cs := by
  have hother {d : Char} (hd : d ∉ ['/', '#']) : m ≠ d := fun heq => hd (heq ▸ hm)
  have hlower {name : List Char} (hname : lower cs = name) (hfree : '/' ∉ name ∧ '#' ∉ name) : m ∉ cs := by
    intro hmem
    have hmem : m.toLower ∈ name := hname ▸ List.mem_map_of_mem hmem
    simp only [List.mem_cons, List.not_mem_nil, or_false] at hm
    rcases hm with rfl | rfl
    · exact hfree.1 hmem
    · exact hfree.2 hmem
  have hdigits {ds : List Char} (h : m ∉ ds.dropWhile Char.isDigit) : m ∉ ds := by
    intro hmem
    rw [← List.takeWhile_append_dropWhile (p := Char.isDigit) (l := ds), List.mem_append] at hmem
    rcases hmem with hmem | hmem
    · exact absurd (List.mem_takeWhile_imp hmem) (by rw [not_isDigit_of_mem hm]; decide)
    · exact h hmem
  simp only [unsigned?] at h
  split at h
  · rename_i hname
    rcases hname with hname | hname <;> exact hlower hname (by decide)
  split at h
  · rename_i hname
    exact hlower hname (by decide)
  · refine hdigits ?_
    split at h
    · rename_i ds hds
      split at h
      · cases h
      · rw [Option.isSome_map] at h
        rw [hds]
        exact List.not_mem_cons_of_ne_of_not_mem (hother (by decide)) (hdigits (not_mem_exponent? hm h))
    · split at h
      · cases h
      · rw [Option.isSome_map] at h
        exact not_mem_exponent? hm h

theorem not_mem_read? {m : Char} (hm : m ∈ ['/', '#']) {cs : List Char} (h : (read? cs).isSome) : m ∉ cs := by
  have hother {d : Char} (hd : d ∉ ['/', '#']) : m ≠ d := fun heq => hd (heq ▸ hm)
  unfold read? at h
  split at h
  · exact List.not_mem_cons_of_ne_of_not_mem (hother (by decide)) (not_mem_unsigned? hm h)
  · exact List.not_mem_cons_of_ne_of_not_mem (hother (by decide)) (not_mem_unsigned? hm h)
  · exact not_mem_unsigned? hm h

end Numeral

namespace Lexeme

theorem calm_of_not_mem {ls : List Lexeme} (h : op "/" ∉ ls) (rest : List Char) : Calm ls rest := by
  induction ls with
  | nil => trivial
  | cons l ls ih =>
    rw [List.mem_cons, not_or] at h
    exact ⟨fun hl => absurd hl.symm h.1, ih h.2⟩

theorem slash_not_mem_pieces {text : String} (h : '/' ∉ text.toList) : op "/" ∉ pieces text := by
  intro hmem
  rw [← chars_pieces text] at h
  exact h (List.mem_flatMap.mpr ⟨_, hmem, by decide⟩)

/-- The first slash that opens a comment. -/
theorem exists_slash {ls : List Lexeme} {rest : List Char} (h : ¬ Calm ls rest) :
    ∃ as bs, ls = as ++ op "/" :: bs ∧ Calm as ('/' :: (chars bs ++ rest)) ∧ opensComment (chars bs ++ rest) := by
  induction ls with
  | nil => exact absurd trivial h
  | cons l ls ih =>
    by_cases hl : l = op "/" ∧ opensComment (chars ls ++ rest)
    · exact ⟨[], ls, by rw [hl.1]; rfl, trivial, hl.2⟩
    · have hslash : l = op "/" → opensComment (chars ls ++ rest) = false := by
        intro heq
        rw [← Bool.not_eq_true]
        exact fun ho => hl ⟨heq, ho⟩
      obtain ⟨as, bs, rfl, hcalm, hopens⟩ := ih fun hcalm => h ⟨hslash, hcalm⟩
      refine ⟨l :: as, bs, rfl, ⟨fun heq => ?_, hcalm⟩, hopens⟩
      simpa using hslash heq

/-- The tokens of a text that begins with lexemes that are taken off. -/
theorem scan_split {ls : List Lexeme} {rest : List Char} (h : Falls ls rest) {k : Nat} {ts : List Token}
    (hscan : scan k (chars ls ++ rest) = .ok ts) :
    ∃ us ts', ts = us ++ ts' ∧ Spells us ls ∧ scan (k + Text.byteSize (chars ls)) rest = .ok ts' := by
  rw [scan_falls h] at hscan
  obtain ⟨ts', hrest, rfl⟩ := map_eq_ok.mp hscan
  exact ⟨_, ts', rfl, spells_lay k ls, hrest⟩

theorem opensComment_eq_false {cs : List Char} (h : cs.head? ≠ some '*') : opensComment cs = false := by
  unfold opensComment
  split
  · exact absurd rfl h
  · rfl

/-- A comment that opens at a slash, and does not end in the text that the slash stands in, goes beyond
it. -/
theorem scan_comment {bs rest : List Char} (hopens : opensComment (bs ++ rest)) (hbs : opensComment bs = false)
    (hrest : Stops (· == '*') rest) {k : Nat} {ts : List Token} (hscan : scan k ('/' :: (bs ++ rest)) = .ok ts) :
    ∃ u us, ts = u :: us ∧ u.kind = .comment ∧ bs.length + 1 < u.text.toList.length := by
  obtain ⟨cs, rfl⟩ : ∃ cs, bs = '*' :: cs := by
    have hhead : (bs ++ rest).head? = some '*' := by
      by_contra hne
      rw [opensComment_eq_false hne] at hopens
      cases hopens
    cases bs with
    | nil =>
      cases rest with
      | nil => cases hhead
      | cons c rest =>
        rw [stops_cons, beq_eq_false_iff_ne] at hrest
        exact absurd (Option.some.inj hhead) hrest
    | cons c cs => exact ⟨cs, by rw [Option.some.inj hhead]⟩
  obtain ⟨n, hn⟩ := Option.isSome_iff_exists.mp (show (Text.through? ['*', '/'] (cs ++ rest)).isSome from hopens)
  obtain ⟨before, hb, hlength⟩ := Text.take_of_through? hn
  have htake : before ++ ['*', '/'] = (cs ++ rest).take n := by
    rw [hb, List.take_left' (by simp [hlength])]
  have hlong : cs.length < n := by
    refine Nat.lt_of_not_le fun hle => ?_
    rw [List.take_append_of_le_length hle] at htake
    have hin : ['*', '/'] <:+: cs := (List.suffix_append ..).isInfix.trans (htake ▸ (List.take_prefix n cs).isInfix)
    rw [opensComment, (Text.holds_iff_infix (by simp)).mpr hin] at hbs
    cases hbs
  have htext : '/' :: ('*' :: cs ++ rest) =
      (String.ofList ('/' :: '*' :: (before ++ ['*', '/']))).toList ++ (cs ++ rest).drop n := by
    rw [String.toList_ofList, htake]
    simp
  have hthrough : Text.through? ['*', '/'] (before ++ ['*', '/']) = some (before ++ ['*', '/']).length := by
    have hwhole : Text.through? ['*', '/'] ((before ++ ['*', '/']) ++ (cs ++ rest).drop n) =
        some (before ++ ['*', '/']).length := by
      rw [← hb, hn, hlength]
      simp
    exact Text.through?_of_append hwhole
  have hcut := cuts_blockComment (String.toList_ofList (l := '/' :: '*' :: (before ++ ['*', '/']))) hthrough
    ((cs ++ rest).drop n)
  rw [htext, scan_cuts hcut] at hscan
  obtain ⟨us, -, rfl⟩ := map_eq_ok.mp hscan
  refine ⟨_, us, rfl, rfl, ?_⟩
  simp only [String.toList_ofList, List.length_cons, List.length_append, List.length_nil] at hlength ⊢
  omega

end Lexeme

namespace JsonTerm

/-- The lexemes of the front of a run are taken off before other texts that begin alike. -/
theorem falls_front {s s' : Nat × Bool} {ls : List Lexeme} {rest rest' : List Char}
    (hsteps : arithmeticSteps s ls = some s') (h : Falls ls rest) (hcr : '\r' ∉ chars ls)
    (hhead : rest'.head? = rest.head?) (hr : Stops extendsOperand rest) (hcalm : Calm ls rest') :
    Falls ls rest' := by
  induction ls generalizing s with
  | nil => trivial
  | cons l ls ih =>
    obtain ⟨s₁, hstep, hsteps⟩ := Option.bind_eq_some_iff.mp hsteps
    obtain ⟨hcut, hfalls⟩ := h
    obtain ⟨hslash, hcalm⟩ := hcalm
    simp only [chars_cons, List.mem_append, not_or] at hcr
    refine ⟨?_, ih hsteps hfalls hcr.2 hcalm⟩
    cases ls with
    | nil => exact cuts_change hstep hcut hcr.1 hhead hslash fun _ => hr
    | cons l' ls =>
      obtain ⟨s₂, hstep', -⟩ := Option.bind_eq_some_iff.mp hsteps
      refine cuts_change hstep hcut hcr.1 ?_ hslash fun ho => ?_
      · have hne := hfalls.1.nonempty
        cases ht : l'.text.toList with
        | nil => exact absurd ht hne
        | cons c cs => simp [ht]
      · have hw : s₁.2 = false := by
          rw [arithmeticStep_of_isOperand ho] at hstep
          split at hstep
          · rw [← Option.some.inj hstep]
          · cases hstep
        simp only [chars_cons, List.mem_append, not_or] at hcr
        rw [chars_cons, List.append_assoc]
        exact stops_of_arithmeticStep hstep' hw hfalls.1 hcr.2.1 _

/-- A text with a comment in it is read without the comment or with all of it. -/
theorem length_runText {as : List Lexeme} {k : Nat} {u : Token} {us : List Token} {n : Nat} :
    (runText (lay k as ++ u :: us.take n)).length ≤ (chars as).length ∨
      (chars as).length + u.text.toList.length ≤ (runText (lay k as ++ u :: us.take n)).length := by
  have hlay : textOf (lay k as) = chars as := congrArg chars (spells_lay k as)
  obtain ⟨gs, hgs, -⟩ := core_append (lay k as ++ u :: us.take n)
  rw [runText_eq, show chars ((core (lay k as ++ u :: us.take n)).map Token.lexeme) =
    textOf (core (lay k as ++ u :: us.take n)) from rfl]
  have hcore : core (lay k as ++ u :: us.take n) <+: lay k as ++ u :: us.take n := ⟨gs, hgs.symm⟩
  have hfront : lay k as ++ [u] <+: lay k as ++ u :: us.take n := ⟨us.take n, by simp⟩
  rcases List.prefix_or_prefix_of_prefix hcore hfront with h | ⟨more, h⟩
  · rcases List.prefix_concat_iff.mp h with h | ⟨more, h⟩
    · rw [h, textOf_append, hlay]
      exact .inr (by simp)
    · refine .inl ?_
      have := congrArg (fun ts => (textOf ts).length) h
      simp only [textOf_append, List.length_append, hlay] at this
      omega
  · rw [← h, textOf_append, textOf_append, hlay]
    refine .inr ?_
    simp only [textOf_cons, textOf_nil, List.length_append]
    omega

theorem eq_arithmetic_of_plain {t : JsonTerm} {text : String} (h : t.plain = .arithmetic text) :
    t = .arithmetic text := by
  cases t with
  | arithmetic => exact h
  | _ => cases h

theorem eq_of_ofArithmetic {cs : List Char} {text : String} (h : ofArithmetic cs = .arithmetic text) :
    cs = text.toList := by
  unfold ofArithmetic at h
  split at h
  · dsimp only at h
    split at h
    · cases h
    · rw [← arithmetic.inj h, String.toList_ofList]
  · rw [← arithmetic.inj h, String.toList_ofList]

/-- Arithmetic is read as it is only where no comment opens inside it. -/
theorem calm_of_readWithin {text : String} (h : IsRun (pieces text)) {rest : List Char}
    (hrest : Stops (· == '*') rest) {k m n : Nat} {b ts : List Token}
    (hscan : scan k (text.toList ++ rest) = .ok ts) {t : JsonTerm} {c : Cursor}
    (hread : readWithin m ⟨b, ts, n⟩ = .ok (t, c)) (ht : t.plain = .arithmetic text) :
    Calm (pieces text) rest := by
  refine Classical.byContradiction fun hcalm => ?_
  obtain ⟨as, bs, hpieces, hcalm, hopens⟩ := exists_slash hcalm
  have hfalls := h.falls
  have hsteps := h.steps
  have hclean := h.clean
  have hfirst := h.opens
  rw [hpieces] at hfalls hsteps hclean hfirst
  rw [falls_append] at hfalls
  rw [arithmeticSteps_append] at hsteps
  rw [chars_append, List.mem_append, not_or] at hclean
  obtain ⟨s, hsteps, -⟩ := Option.bind_eq_some_iff.mp hsteps
  have htext : text.toList = chars as ++ '/' :: chars bs := by
    rw [← chars_pieces text, hpieces, chars_append]
    rfl
  have hfront : Falls as ('/' :: (chars bs ++ rest)) :=
    falls_front hsteps hfalls.1 hclean.1 rfl ((stops_cons ..).mpr (by decide)) hcalm
  rw [htext, List.append_assoc, List.cons_append, scan_falls hfront] at hscan
  obtain ⟨ts, hbehind, rfl⟩ := map_eq_ok.mp hscan
  have hbs := (stops_of_cuts_slash hfalls.2.1).2
  rw [List.append_nil] at hbs
  obtain ⟨u, us, rfl, hu, hlong⟩ := scan_comment hopens hbs hrest hbehind
  have hlength : text.toList.length = (chars as).length + ((chars bs).length + 1) := by
    rw [htext, List.length_append, List.length_cons]
  obtain rfl := eq_arithmetic_of_plain ht
  obtain ⟨m, rfl⟩ : ∃ m', m = m' + 1 := by
    cases m with
    | zero => simp [readWithin] at hread
    | succ m => exact ⟨m, rfl⟩
  obtain ⟨l, as', rfl⟩ : ∃ l as', as = l :: as' := by
    cases as with
    | nil => simp [opensArithmetic, op, Lexeme.token, Token.isPunct, Token.isOp, isOperand] at hfirst
    | cons l as' => exact ⟨l, as', rfl⟩
  have hskip : (⟨b, lay k (l :: as') ++ u :: us, n⟩ : Cursor).skip = ⟨b, lay k (l :: as') ++ u :: us, n⟩ := by
    obtain ⟨l', ls', hl', hgap, -⟩ := opens_run h.opens
    rw [hpieces] at hl'
    obtain ⟨rfl, -⟩ := List.cons.inj hl'
    have hgap : (⟨l.kind, l.text, k⟩ : Token).isIgnorable = false := hgap
    rw [lay_cons, List.cons_append, Cursor.skip_of_not hgap]
  obtain ⟨t, -, ⟨-, hread⟩ | ⟨-, ⟨-, ms, -, hx⟩ | ⟨-, xs, -, hx⟩ | ⟨-, ⟨-, hx⟩ | ⟨-, hx⟩ | ⟨-, hx⟩ | ⟨-, hx⟩⟩⟩⟩ :=
    readWithin_eq_ok hread
  · rw [hskip] at hread
    have hrun := arithmeticRun_append (s := (0, true)) (spells_lay k (l :: as')) hsteps (u :: us)
    have hstep : arithmeticStep s u.lexeme = some s := by simp [arithmeticStep, Token.lexeme, hu]
    rw [arithmeticRun_cons, hstep] at hrun
    simp only [readArithmetic, hrun] at hread
    split at hread
    · cases hread
    · have := eq_of_ofArithmetic (Prod.mk.inj (Except.ok.inj hread)).1
      rw [List.take_length_add_append, List.take_succ_cons] at this
      have hcases := @length_runText (l :: as') k u us (arithmeticRun s.1 s.2 us).1
      rw [this] at hcases
      omega
  · cases hx
  · cases hx
  · cases hx
  · cases hx
  · cases hx
  · unfold ofWord at hx
    split at hx
    · cases hx
    split at hx
    · cases hx
    split at hx
    · cases hx
    · cases hx

/-- A number has no slash in it. -/
theorem calm_number {text : String} (h : ofArithmetic text.toList = .number text) (rest : List Char) :
    Calm (pieces text) rest := by
  refine calm_of_not_mem (slash_not_mem_pieces fun hslash => ?_) rest
  unfold ofArithmetic at h
  split at h
  · rename_i rest hrest
    dsimp only at h
    split at h
    · rename_i hread
      have := number.inj h
      rw [← String.toList_inj, String.toList_ofList, hrest] at this
      rw [hrest, ← this, List.mem_cons] at hslash
      exact Numeral.not_mem_read? (by decide) hread (hslash.resolve_left (by decide))
    · cases h
  · cases h

end JsonTerm
end RequestLang
