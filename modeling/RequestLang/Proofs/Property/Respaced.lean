import RequestLang.Proofs.Document.Gapped
import RequestLang.Proofs.Document.Kin.Term
import RequestLang.Proofs.Property.Spaced

/-! Expressions that are read with the same words. Their values agree unless a value that is put in goes with what stands
beside it. -/
namespace RequestLang
open Lexer Lexeme

namespace Lexeme
variable {l : Lexeme} {rest : List Char}

/-- A placeholder is a hole in the text of its expression, and every other lexeme stands as it is. -/
def segment (l : Lexeme) : Segment :=
  match Segment.holeAt? l.text.toList with
  | some (body, _) => .hole body
  | none => .plain l.text.toList

theorem segment_of_not_mem (h : '\x7b' ∉ l.text.toList) : l.segment = .plain l.text.toList := by
  have hnone : Segment.holeAt? l.text.toList = none := by
    cases hcs : l.text.toList with
    | nil => rfl
    | cons c cs =>
      refine Segment.holeAt?_of_ne ?_ cs
      rintro rfl
      exact h (hcs ▸ List.mem_cons_self)
  rw [segment, hnone]

theorem Cuts.segment_of_placeholder (h : Cuts l rest) (hl : l.kind = .placeholder) :
    ∃ body, l.segment = .hole body ∧ (Segment.hole body).chars = l.text.toList ∧ (Segment.hole body).Whole := by
  obtain ⟨closed, htext, hthrough⟩ := h.placeholder hl
  obtain ⟨body, rfl⟩ := Text.append_mark_of_through? hthrough
  refine ⟨body, ?_, htext.symm, by simpa [Segment.Whole] using hthrough⟩
  rw [segment, htext, Segment.holeAt?, hthrough]
  simp

end Lexeme

namespace Arith
variable {cs : List Char}

theorem brace_not_mem_of_isMark (h : IsMark cs) : '\x7b' ∉ cs := by
  cases h with
  | op o => cases o <;> decide
  | opening => decide
  | closing => decide

theorem exponent_of_isExponent (h : IsExponent cs) : Exponent cs [] := by
  cases h with
  | none => exact .none nofun
  | signed he hs hds => exact .signed he hs hds (stops_nil _)
  | @unsigned e d ds he hds =>
    refine .unsigned he (fun c hc => ?_) hds (stops_nil _)
    obtain rfl : d = c := by simpa using hc
    have hd := hds d List.mem_cons_self
    constructor <;> rintro rfl <;> exact absurd hd (by decide)

theorem isNumberChar_of_isDigit {c : Char} (hc : c.isDigit) : isNumberChar c := by
  simp [isNumberChar, hc]

/-- No name begins inside a number. -/
theorem not_exposed_decimal {c : Char} (hc : c.isDigit) (h : Lexer.numberLength (c :: cs) = (c :: cs).length) :
    ¬Resolve.Exposed none (c :: cs) := by
  intro hexposed
  obtain ⟨whole, fraction, exponent, hcs, hwhole, hfraction, hexponent⟩ := exists_decimal h
  have hbody : ∀ d ∈ whole ++ fraction, isNumberChar d := by
    refine List.forall_mem_append.mpr ⟨fun d hd => isNumberChar_of_isDigit (hwhole d hd), ?_⟩
    cases hfraction with
    | none => nofun
    | digits hds => exact List.forall_mem_cons.mpr ⟨by decide, fun d hd => isNumberChar_of_isDigit (hds d hd)⟩
  have hexponent := exponent_of_isExponent hexponent
  rw [← List.append_assoc] at hcs
  have hne := hexponent.body_ne_nil (isNumberChar_of_isDigit hc) (by rw [List.append_nil, hcs])
  rw [hcs] at hexposed
  have hrest := hexposed.of_append fun d hd => isNameStart_of_isNumberChar (hbody d hd)
  rw [List.getLast?_eq_getLast_of_ne_nil hne, ← List.append_nil exponent] at hrest
  obtain ⟨_, hnil⟩ := hexponent.not_exposed (nameMayFollow_of_isNumberChar (hbody _ (List.getLast_mem hne))) hrest
  cases hnil

/-- A number ends with a digit. -/
theorem isDigit_of_getLast?_decimal (hne : cs ≠ []) (h : Lexer.numberLength cs = cs.length) :
    ∀ e ∈ cs.getLast?, e.isDigit := by
  have hlast (front : List Char) {ds : List Char} (hne : ds ≠ []) (hds : ∀ c ∈ ds, c.isDigit) :
      ∀ e ∈ (front ++ ds).getLast?, e.isDigit := by
    intro e he
    rw [List.getLast?_append_of_ne_nil _ hne] at he
    exact hds e (List.mem_of_getLast? he)
  obtain ⟨whole, fraction, exponent, rfl, hwhole, hfraction, hexponent⟩ := exists_decimal h
  cases hexponent with
  | @signed e s d ds he hs hds =>
    have hlast := hlast (whole ++ (fraction ++ [e, s])) (List.cons_ne_nil _ _) hds
    simpa using hlast
  | @unsigned e d ds he hds =>
    have hlast := hlast (whole ++ (fraction ++ [e])) (List.cons_ne_nil _ _) hds
    simpa using hlast
  | none =>
    cases hfraction with
    | none => simpa using hlast [] (by simpa using hne) hwhole
    | digits hds =>
      have hlast := hlast (whole ++ ['.']) (List.cons_ne_nil _ _) hds
      simpa using hlast

theorem sealed_of_decimal (hne : cs ≠ []) (h : Lexer.numberLength cs = cs.length) : Sealed cs := by
  have hstar : '*' ∉ cs := by
    rw [← List.take_length (l := cs), ← h]
    exact fun hmem => absurd (mem_take_number hmem) (by decide)
  refine ⟨hne, fun hhead => hstar (List.mem_of_mem_head? hhead), fun hlast => hstar (List.mem_of_getLast? hlast), ?_⟩
  rintro ⟨front, c, e, rfl, -, he⟩
  have hdigit := isDigit_of_getLast?_decimal hne h e (by simp)
  rcases he with rfl | rfl <;> exact absurd hdigit (by decide)

end Arith

namespace Resolve
open JsonTerm Resolver Arith
variable {r : Resolver} {l : Lexeme} {rest w out : List Char}

/-- The words of an expression are pieces of its text. -/
theorem segment_whole (hcut : Cuts l rest) (hword : isOperand l.token ∨ isSign l) :
    l.segment.chars = l.text.toList ∧ l.segment.Whole := by
  have hplain (h : '\x7b' ∉ l.text.toList) : l.segment.chars = l.text.toList ∧ l.segment.Whole := by
    rw [segment_of_not_mem h]
    exact ⟨rfl, h⟩
  rcases hword with ho | hsign
  · have hkind : l.kind = .number ∨ l.kind = .identifier ∨ l.kind = .placeholder := by
      simpa [isOperand, token, or_assoc] using ho
    rcases hkind with hk | hk | hk
    · exact hplain (hcut.brace_not_mem_of_number hk)
    · exact hplain (hcut.brace_not_mem_of_identifier hk)
    · obtain ⟨body, hhole, hchars, hwhole⟩ := hcut.segment_of_placeholder hk
      rw [hhole]
      exact ⟨hchars, hwhole⟩
  · exact hplain (brace_not_mem_of_isMark (isMark_of_isSign hsign))

theorem eq_of_stands_sign (hsign : isSign l) (h : r.Stands l.segment w) : w = l.text.toList := by
  rw [segment_of_not_mem (brace_not_mem_of_isMark (isMark_of_isSign hsign))] at h
  cases h
  rfl

theorem eq_of_substituted_sign (hsign : isSign l) (hstands : r.Stands l.segment w)
    (hout : Substituted r.value? none w out []) : out = l.text.toList := by
  rw [eq_of_stands_sign hsign hstands] at hout
  exact ((Substituted.parts_of_isMark (isMark_of_isSign hsign)).unique hout).1

/-- An operand comes to what is sealed, if names do. -/
theorem sealed_of_stands (hcut : Cuts l rest) (hl : isOperand l.token)
    (hnames : l.kind = .identifier ∨ l.kind = .placeholder → ∀ out, ComesTo r l.segment out → Sealed out)
    (hstands : r.Stands l.segment w) (hout : Substituted r.value? none w out []) : Sealed out := by
  have hkind : l.kind = .number ∨ l.kind = .identifier ∨ l.kind = .placeholder := by
    simpa [isOperand, token, or_assoc] using hl
  by_cases hnumber : l.kind = .number
  · obtain ⟨c, cs, htext, hc, hlength⟩ := hcut.number hnumber
    rw [segment_of_not_mem (hcut.brace_not_mem_of_number hnumber), htext] at hstands
    cases hstands
    obtain ⟨rfl, -⟩ := hout.unique (.of_not_exposed (not_exposed_decimal hc hlength))
    exact sealed_of_decimal (List.cons_ne_nil c cs) hlength
  · have hnames := hnames (hkind.resolve_left hnumber)
    generalize l.segment = s at hnames hstands
    cases hstands with
    | value hv => exact hnames out (.hole hv hout)
    | written s =>
      cases s with
      | plain cs => exact hnames out (.plain hout)
      | hole body => exact sealed_of_hole hout

end Resolve

namespace JsonTerm

/-- The words of a run: its lexemes without the gaps between them. -/
def wordsOf (run : List Token) : List Lexeme := (run.map Token.lexeme).filter (!isSpace ·)

/-- Whether no gap stands before a word, for each of the words of a run. -/
def gapsOf (run : List Token) : List Bool := (gapped [] (run.map Token.lexeme)).map (·.1.isEmpty)

namespace Gapped
open Resolve Resolver Arith
variable {α : Type} {xs : List α} {lexeme : α → Lexeme} {gap word out : α → List Char} {unknown : α → List String}
  {cs : List Char} {r : Resolver}

theorem blanks (h : Gapped cs (xs.map fun x => (gap x, lexeme x))) : ∀ x ∈ xs, ∀ c ∈ gap x, isBlank c :=
  List.forall_mem_map.mp h.blank

theorem words (h : Gapped cs (xs.map fun x => (gap x, lexeme x))) :
    ∀ x ∈ xs, (∃ rest, Cuts (lexeme x) rest) ∧ (isOperand (lexeme x).token ∨ isSign (lexeme x)) :=
  List.forall_mem_map.mp h.word

theorem segments (h : Gapped cs (xs.map fun x => (gap x, lexeme x))) :
    ∀ x ∈ xs, (lexeme x).segment.chars = (lexeme x).text.toList ∧ (lexeme x).segment.Whole := by
  intro x hx
  obtain ⟨⟨rest, hcut⟩, hword⟩ := h.words x hx
  exact segment_whole hcut hword

theorem laid_segment (h : Gapped cs (xs.map fun x => (gap x, lexeme x))) :
    cs = laid gap (fun x => (lexeme x).segment.chars) xs := by
  rw [← h.text, laid, laid, List.flatMap_map]
  exact List.flatMap_congr fun x hx => congrArg _ (h.segments x hx).1.symm

/-- The defaults of a text are those of its words. -/
theorem recorded_segment (h : Gapped cs (xs.map fun x => (gap x, lexeme x))) :
    r.recorded (Segment.ofText cs) = r.recorded (xs.map fun x => (lexeme x).segment) := by
  have hpieces := recorded_ofText (r := r) (Segment.whole_laid h.blanks fun x hx => (h.segments x hx).2)
  rw [Segment.chars_laid, ← h.laid_segment] at hpieces
  rw [hpieces, Resolver.recorded, Segment.filterMap_body?_laid, Resolver.recorded]

/-- Of two words side by side one is a mark, also after the expansion. -/
theorem marks (h : Gapped cs (xs.map fun x => (gap x, lexeme x))) (hstands : ∀ x ∈ xs, r.Stands (lexeme x).segment (word x)) :
    xs.IsChain fun x y => IsMark (word x) ∨ IsMark (word y) := by
  have hmark (x) (hx : x ∈ xs) (hs : isSign (lexeme x)) : IsMark (word x) := by
    rw [eq_of_stands_sign hs (hstands x hx)]
    exact isMark_of_isSign hs
  have hchain := h.chain
  rw [List.isChain_map] at hchain
  refine hchain.imp_of_mem_imp fun x y hx hy hxy => ?_
  rcases (h.words x hx).2 with ho | hs
  · exact .inr (hmark y hy ((h.words y hy).2.resolve_left (by simp [hxy.1 ho])))
  · exact .inl (hmark x hx hs)

theorem substituted {value? : String → Option String} (h : Gapped cs (xs.map fun x => (gap x, lexeme x)))
    (hstands : ∀ x ∈ xs, r.Stands (lexeme x).segment (word x))
    (hout : ∀ x ∈ xs, Substituted value? none (word x) (out x) (unknown x)) :
    Substituted value? none (laid gap word xs) (laid gap out xs) (xs.flatMap unknown) :=
  .laid hout h.blanks (h.marks hstands)

/-- Where names come to what is sealed, the symbols do not depend on the gaps. -/
theorem symbolsOf_sealed (h : Gapped cs (xs.map fun x => (gap x, lexeme x)))
    (hstands : ∀ x ∈ xs, r.Stands (lexeme x).segment (word x))
    (hout : ∀ x ∈ xs, Substituted r.value? none (word x) (out x) [])
    (hnames : ∀ x ∈ xs, (lexeme x).kind = .identifier ∨ (lexeme x).kind = .placeholder → ∀ out,
      ComesTo r (lexeme x).segment out → Sealed out) :
    symbolsOf (laid gap out xs) = joined (xs.map out) := by
  have hsign (x) (hx : x ∈ xs) (hs : isSign (lexeme x)) : out x = (lexeme x).text.toList :=
    eq_of_substituted_sign hs (hstands x hx) (hout x hx)
  have hmark (x) (hx : x ∈ xs) (hs : isSign (lexeme x)) : IsMark (out x) := by
    rw [hsign x hx hs]
    exact isMark_of_isSign hs
  have hsealed (x) (hx : x ∈ xs) (ho : isOperand (lexeme x).token) : Sealed (out x) := by
    obtain ⟨⟨rest, hcut⟩, -⟩ := h.words x hx
    exact sealed_of_stands hcut ho (hnames x hx) (hstands x hx) (hout x hx)
  have hchain := h.chain
  rw [List.isChain_map] at hchain
  refine symbolsOf_laid h.blanks (fun x hx => ?_) (hchain.imp_of_mem_imp fun x y hx hy hxy => ⟨?_, fun hstar hempty => ?_⟩)
  · exact (h.words x hx).2.elim (fun ho => .inr (hsealed x hx ho)) fun hs => .inl (hmark x hx hs)
  · rcases (h.words x hx).2 with ho | hs
    · exact .inr (hmark y hy ((h.words y hy).2.resolve_left (by simp [hxy.1 ho])))
    · exact .inl (hmark x hx hs)
  · rcases (h.words x hx).2 with ho | hs
    · exact absurd (hstar ▸ rfl) (hsealed x hx ho).head
    · have hhead := hxy.2 (eq_star_of_isSign hs (hsign x hx hs ▸ hstar)) hempty
      rcases (h.words y hy).2 with ho | hs
      · exact (hsealed y hy ho).head
      · rwa [hsign y hy hs]

end Gapped
end JsonTerm

namespace Resolve
open JsonTerm Resolver Arith
variable {r : Resolver}

/-- Two texts with the same words come to the same, if gaps stand at the same places or no value goes with a mark. -/
theorem concur_of_gapped {α : Type} {xs : List α} {lexeme : α → Lexeme} {gap gap' : α → List Char} {cs cs' : List Char}
    (h : Gapped cs (xs.map fun x => (gap x, lexeme x))) (h' : Gapped cs' (xs.map fun x => (gap' x, lexeme x)))
    (hgaps : (∀ x ∈ xs, gap x = [] ↔ gap' x = []) ∨
      ∀ x ∈ xs, (lexeme x).kind = .identifier ∨ (lexeme x).kind = .placeholder → ∀ out,
        ComesTo (r.recorded (Segment.ofText cs)) (lexeme x).segment out → Sealed out) :
    Concur (on (evaluateArithmetic (String.ofList cs)) r) (on (evaluateArithmetic (String.ofList cs')) r) := by
  rw [h.recorded_segment] at hgaps
  have hexpand := on_expand_laid r fun x hx => (h.segments x hx).2
  rw [h.laid_segment, h'.laid_segment]
  rcases hexpand with ⟨f, s, hfail⟩ | ⟨zs, s, rfl, hstands, hvalue, hrun⟩
  · rw [evaluateArithmetic, evaluateArithmetic, on_bind, on_bind, hfail gap h.blanks, hfail gap' h'.blanks, andThen_error,
      andThen_error]
    exact .same _
  have hleft := hrun gap h.blanks
  have hright := hrun gap' h'.blanks
  rw [List.map_map] at h h'
  rw [List.forall_mem_map, List.forall_mem_map] at hgaps
  generalize r.recorded _ = recorded at hstands hvalue hgaps
  -- what stands in the place of a word is the same in both texts
  choose out unknown hout using fun z : α × List Char => Substituted.exists_substituted s.value? none z.2
  refine concur_of_substituted hleft hright (Gapped.substituted h hstands fun z _ => hout z)
    (Gapped.substituted h' hstands fun z _ => hout z) fun hknown => ?_
  rcases hgaps with hsame | hnames
  · exact symbolsOf_laid_congr (Gapped.blanks h) (Gapped.blanks h') hsame []
  · have hknown (z) (hz : z ∈ zs) : Substituted recorded.value? none z.2 (out z) [] := by
      have hz := List.flatMap_eq_nil_iff.mp hknown z hz ▸ hout z
      rwa [hvalue] at hz
    rw [Gapped.symbolsOf_sealed h hstands hknown hnames, Gapped.symbolsOf_sealed h' hstands hknown hnames]

/-- Lists with the same seconds, side by side. -/
theorem exists_common {β γ : Type} {xs ys : List (β × γ)} (h : xs.map Prod.snd = ys.map Prod.snd) :
    ∃ zs : List (γ × β × β), xs = zs.map (fun z => (z.2.1, z.1)) ∧ ys = zs.map fun z => (z.2.2, z.1) := by
  induction xs generalizing ys with
  | nil =>
    obtain rfl : ys = [] := by simpa using h.symm
    exact ⟨[], rfl, rfl⟩
  | cons x xs ih =>
    obtain ⟨y, ys, rfl⟩ : ∃ y ys', ys = y :: ys' := by
      cases ys with
      | nil => cases h
      | cons y ys => exact ⟨y, ys, rfl⟩
    rw [List.map_cons, List.map_cons, List.cons.injEq] at h
    obtain ⟨zs, rfl, rfl⟩ := ih h.2
    refine ⟨(x.2, x.1, y.1) :: zs, rfl, ?_⟩
    rw [List.map_cons, h.1]

/-- What is computed does not depend on how the words of an expression are spaced. If it has no comments, it comes to the
same when gaps grow and shrink. It also comes to the same when gaps come and go, if no name in it comes to a text that is
empty, begins or ends with a star, or ends with the letter of an exponent. -/
theorem evaluateArithmetic_respaced {j k m n : Nat} {as bs : List Char} {ts us : List Token} (r : Resolver)
    (hts : scan j as = .ok ts) (hus : scan k bs = .ok us)
    (hm : arithmeticRun 0 true ts = (m, 0, false)) (hn : arithmeticRun 0 true us = (n, 0, false))
    (hcomment : ∀ t ∈ ts.take m, t.kind ≠ .comment) (hwords : wordsOf (ts.take m) = wordsOf (us.take n))
    (hgaps : gapsOf (ts.take m) = gapsOf (us.take n) ∨
      ∀ l ∈ wordsOf (ts.take m), l.kind = .identifier ∨ l.kind = .placeholder → ∀ out,
        ComesTo (r.recorded (Segment.ofText (runText (ts.take m)))) l.segment out → Sealed out) :
    Concur (on (evaluateArithmetic (String.ofList (runText (ts.take m)))) r)
      (on (evaluateArithmetic (String.ofList (runText (us.take n)))) r) := by
  have hcomment' : ∀ u ∈ us.take n, u.kind ≠ .comment := by
    intro u hu hkind
    have hmem : u.lexeme ∈ wordsOf (us.take n) :=
      List.mem_filter.mpr ⟨List.mem_map_of_mem hu, by simp [isSpace, Token.lexeme, hkind]⟩
    rw [← hwords] at hmem
    obtain ⟨t, ht, heq⟩ := List.mem_map.mp (List.mem_filter.mp hmem).1
    exact hcomment t ht ((congrArg Lexeme.kind heq).trans hkind)
  have hleft := gapped_run hts hm hcomment
  have hright := gapped_run hus hn hcomment'
  rw [wordsOf, ← map_snd_gapped [], wordsOf, ← map_snd_gapped []] at hwords
  rw [gapsOf, gapsOf, wordsOf, ← map_snd_gapped []] at hgaps
  obtain ⟨zs, hxs, hys⟩ := exists_common hwords
  rw [hxs] at hleft
  rw [hys] at hright
  rw [hxs, hys, List.map_map, List.map_map, List.map_map, List.map_inj_left, List.forall_mem_map] at hgaps
  refine concur_of_gapped hleft hright (hgaps.imp_left fun hsame z hz => ?_)
  simpa using congrArg (· = true) (hsame z hz)

/-- A sum comes to the same however it is spaced. -/
theorem evaluateArithmetic_respaced_sum :
    let surroundings : Surroundings := ⟨fun _ => none, fun _ => none, 0⟩
    let r : Resolver := { commandLine := [("a", "2")], env := [("b", "3")], surroundings, draws := ⟨id, 0⟩ }
    let as := "(\x7b\x7ba\x7d\x7d+b)"
    let bs := "( \x7b\x7ba\x7d\x7d +\n\tb )"
    ∃ ts us, scan 0 as.toList = .ok ts ∧ scan 0 bs.toList = .ok us ∧ arithmeticRun 0 true ts = (5, 0, false) ∧
      arithmeticRun 0 true us = (10, 0, false) ∧ (∀ t ∈ ts.take 5, t.kind ≠ .comment) ∧
      wordsOf (ts.take 5) = wordsOf (us.take 10) ∧
      (∀ l ∈ wordsOf (ts.take 5), l.kind = .identifier ∨ l.kind = .placeholder → ∀ out,
        ComesTo (r.recorded (Segment.ofText (runText (ts.take 5)))) l.segment out → Sealed out) ∧
      Concur (on (evaluateArithmetic as) r) (on (evaluateArithmetic bs) r) := by
  intro surroundings r as bs
  let ts : List Token := [⟨.punctuation, "(", 0⟩, ⟨.placeholder, "\x7b\x7ba\x7d\x7d", 1⟩, ⟨.operator, "+", 6⟩,
    ⟨.identifier, "b", 7⟩, ⟨.punctuation, ")", 8⟩]
  let us : List Token := [⟨.punctuation, "(", 0⟩, ⟨.whitespace, " ", 1⟩, ⟨.placeholder, "\x7b\x7ba\x7d\x7d", 2⟩,
    ⟨.whitespace, " ", 7⟩, ⟨.operator, "+", 8⟩, ⟨.newline, "\n", 9⟩, ⟨.whitespace, "\t", 10⟩, ⟨.identifier, "b", 11⟩,
    ⟨.whitespace, " ", 12⟩, ⟨.punctuation, ")", 13⟩]
  have hts : scan 0 as.toList = .ok ts := by cbv
  have hus : scan 0 bs.toList = .ok us := by cbv
  have hm : arithmeticRun 0 true ts = (5, 0, false) := by decide
  have hn : arithmeticRun 0 true us = (10, 0, false) := by decide
  have hcomment : ∀ t ∈ ts.take 5, t.kind ≠ .comment := by decide
  have hwords : wordsOf (ts.take 5) = wordsOf (us.take 10) := by decide
  have hsealed : ∀ l ∈ wordsOf (ts.take 5), l.kind = .identifier ∨ l.kind = .placeholder → ∀ out,
      ComesTo (r.recorded (Segment.ofText (runText (ts.take 5)))) l.segment out → Sealed out := by
    generalize hrecorded : r.recorded (Segment.ofText (runText (ts.take 5))) = s
    have hpieces : Segment.ofText (runText (ts.take 5)) = [.plain ['('], .hole ['a'], .plain ['+', 'b', ')']] := by cbv
    rw [hpieces] at hrecorded
    have ha : s.lookup "a" = .ok (some "2") := by
      subst hrecorded
      rfl
    have hb : s.value? "b" = some "3" := by
      subst hrecorded
      rfl
    intro l hl hkind out hout
    have hcases : l = ⟨.placeholder, "\x7b\x7ba\x7d\x7d"⟩ ∨ l = ⟨.identifier, "b"⟩ := by
      have hl : l ∈ [mark "(", ⟨.placeholder, "\x7b\x7ba\x7d\x7d"⟩, op "+", ⟨.identifier, "b"⟩, mark ")"] := hl
      simp only [List.mem_cons, List.not_mem_nil, or_false] at hl
      rcases hl with rfl | rfl | rfl | rfl | rfl <;> simp_all [mark, op]
    rcases hcases with rfl | rfl
    · cases (show ComesTo s (.hole "a".toList) out from hout) with
      | hole hv h =>
        rw [ofBody_of_isHeaded (by decide)] at hv
        obtain ⟨v, hlookup, rfl⟩ := hv.lookup_of_isHeaded (by decide)
        obtain rfl : v = "2" := by simpa [ha] using hlookup.symm
        obtain ⟨rfl, -⟩ := h.unique (.of_not_exposed (not_exposed_decimal (c := '2') (by decide) (by decide)))
        exact sealed_of_decimal (by decide) (by decide)
    · cases (show ComesTo s (.plain "b".toList) out from hout) with
      | plain h =>
        obtain ⟨rfl, -⟩ := h.unique (.name (by decide))
        rw [hb]
        exact sealed_of_decimal (by decide) (by decide)
  refine ⟨ts, us, hts, hus, hm, hn, hcomment, hwords, hsealed, ?_⟩
  have hleft : String.ofList (runText (ts.take 5)) = as := by cbv
  have hright : String.ofList (runText (us.take 10)) = bs := by cbv
  have h := evaluateArithmetic_respaced r hts hus hm hn hcomment hwords (.inr hsealed)
  rwa [hleft, hright] at h

/-- The star in a value goes with a star beside it, but not over a gap. A comment that the parser passes over is in the way
of a value. -/
theorem evaluateArithmetic_respaced_star :
    let surroundings : Surroundings := ⟨fun _ => none, fun _ => none, 0⟩
    let r : Resolver := { commandLine := [("a", "2*")], surroundings, draws := ⟨id, 0⟩ }
    (∃ ts us, scan 0 "a*3".toList = .ok ts ∧ scan 0 "a *3".toList = .ok us ∧
      arithmeticRun 0 true ts = (3, 0, false) ∧ arithmeticRun 0 true us = (4, 0, false) ∧ wordsOf ts = wordsOf us) ∧
    (on (evaluateArithmetic "a*3") r).1 = .ok (.number (.int 8)) ∧
    (on (evaluateArithmetic "a *3") r).1 = .error (.payloadInvalid "cannot evaluate `a *3`: unexpected token Op(\"*\")") ∧
    (∃ ts us, scan 0 "(1+2)".toList = .ok ts ∧ scan 0 "(1+/**/2)".toList = .ok us ∧
      arithmeticRun 0 true ts = (5, 0, false) ∧ arithmeticRun 0 true us = (6, 0, false) ∧
      wordsOf ts = (wordsOf us).filter (·.kind ≠ .comment)) ∧
    (on (evaluateArithmetic "(1+2)") r).1 = .ok (.number (.int 3)) ∧
    (on (evaluateArithmetic "(1+/**/2)") r).1 =
      .error (.payloadInvalid "cannot evaluate `(1+/**/2)`: unexpected token Op(\"/\")") := by
  intro surroundings r
  let ts : List Token := [⟨.identifier, "a", 0⟩, ⟨.operator, "*", 1⟩, ⟨.number, "3", 2⟩]
  let us : List Token := [⟨.identifier, "a", 0⟩, ⟨.whitespace, " ", 1⟩, ⟨.operator, "*", 2⟩, ⟨.number, "3", 3⟩]
  let ts' : List Token := [⟨.punctuation, "(", 0⟩, ⟨.number, "1", 1⟩, ⟨.operator, "+", 2⟩, ⟨.number, "2", 3⟩,
    ⟨.punctuation, ")", 4⟩]
  let us' : List Token := [⟨.punctuation, "(", 0⟩, ⟨.number, "1", 1⟩, ⟨.operator, "+", 2⟩, ⟨.comment, "/**/", 3⟩,
    ⟨.number, "2", 7⟩, ⟨.punctuation, ")", 8⟩]
  have hts : scan 0 "a*3".toList = .ok ts := by cbv
  have hus : scan 0 "a *3".toList = .ok us := by cbv
  have hts' : scan 0 "(1+2)".toList = .ok ts' := by cbv
  have hus' : scan 0 "(1+/**/2)".toList = .ok us' := by cbv
  have hplain {before : Option Char} {cs : List Char} (h : ∀ c ∈ cs, Text.isNameStart c = false) :
      Substituted r.value? before cs cs [] := by
    refine .of_not_exposed fun hexposed => ?_
    rw [← List.append_nil cs] at hexposed
    cases hexposed.of_append h
  have hname (rest : List Char) (hstops : Stops Text.isNameChar rest) (hrest : ∀ c ∈ rest, Text.isNameStart c = false) :
      Substituted r.value? none ('a' :: rest) ('2' :: '*' :: rest) [] := by
    have hvalue : r.value? (String.ofList ['a']) = some "2*" := by decide
    exact @Substituted.known _ _ _ [] _ _ _ _ (by decide) (by simp) hstops hvalue (hplain hrest)
  have hvalue {text : String} (cs : List Char) {out : List Char} (htext : text = String.ofList cs)
      (hopen : Text.holds ['\x7b', '\x7b'] cs = false) (hout : Substituted r.value? none cs out []) :
      (on (evaluateArithmetic text) r).1 = ((Arith.evaluate (String.ofList out)).map .ofNumeral).mapError fun f =>
        .payloadInvalid ("cannot evaluate `" ++ text ++ "`: " ++ f.message) := by
    have hexpand : on (expand text) r = (.ok (String.ofList cs), r) := by
      rw [expand, htext, String.toList_ofList, hopen]
      rfl
    refine (evaluateArithmetic_of_known hexpand hout).trans ?_
    cases Arith.evaluate (String.ofList out) <;> rfl
  have hpower : Arith.evaluate (String.ofList ['2', '*', '*', '3']) = .ok "8" := by cbv
  have hstars : Arith.evaluate (String.ofList ['2', '*', ' ', '*', '3']) = .error (.unexpectedToken "Op(\"*\")") := by cbv
  have hsum : Arith.evaluate (String.ofList ['(', '1', '+', '2', ')']) = .ok "3" := by cbv
  have hslash : Arith.evaluate (String.ofList ['(', '1', '+', '/', '*', '*', '/', '2', ')']) =
      .error (.unexpectedToken "Op(\"/\")") := by cbv
  refine ⟨⟨ts, us, hts, hus, by decide, by decide, by decide⟩, ?_, ?_,
    ⟨ts', us', hts', hus', by decide, by decide, by decide⟩, ?_, ?_⟩
  · have hput := hname ['*', '3'] (by simp [Text.isNameChar]) (by simp [Text.isNameStart])
    rw [hvalue ['a', '*', '3'] rfl (by decide) hput, hpower]
    rfl
  · have hput := hname [' ', '*', '3'] (by simp [Text.isNameChar]) (by simp [Text.isNameStart])
    rw [hvalue ['a', ' ', '*', '3'] rfl (by decide) hput, hstars]
    rfl
  · rw [hvalue ['(', '1', '+', '2', ')'] rfl (by decide) (hplain (by simp [Text.isNameStart])), hsum]
    rfl
  · rw [hvalue ['(', '1', '+', '/', '*', '*', '/', '2', ')'] rfl (by decide) (hplain (by simp [Text.isNameStart])), hslash]
    rfl

end Resolve
end RequestLang
