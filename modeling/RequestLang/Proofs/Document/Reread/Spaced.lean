import RequestLang.Proofs.Document.Reread.Term
import RequestLang.Proofs.Json.Number
import RequestLang.Proofs.Json.Read.Number

/-! Reading lexemes that have gaps between them anywhere: JSON terms without placeholders. -/
namespace RequestLang
open Lexer Lexeme

namespace Lexeme
variable {p q : Char → Bool} {cs cs' : List Char} {ls ls' : List Lexeme} {l : Lexeme}

/-- The lexer cuts a text into lexemes wherever no character of a class follows it. -/
structure Lexes (p : Char → Bool) (cs : List Char) (ls : List Lexeme) : Prop where
  chars : chars ls = cs
  falls : ∀ rest, Stops p rest → Falls ls rest

theorem Lexes.append (h : Lexes p cs ls) (h' : Lexes q cs' ls')
    (hnext : ∀ rest, Stops q rest → Stops p (cs' ++ rest)) : Lexes q (cs ++ cs') (ls ++ ls') where
  chars := by rw [chars_append, h.chars, h'.chars]
  falls rest hrest := by
    rw [falls_append, h'.chars]
    exact ⟨h.falls _ (hnext rest hrest), h'.falls rest hrest⟩

theorem Lexes.imp (h : Lexes p cs ls) (hpq : ∀ c, p c → q c) : Lexes q cs ls where
  chars := h.chars
  falls rest hrest := h.falls rest (hrest.of_imp hpq)

theorem Lexes.of_cuts (hl : l.text.toList = cs) (h : ∀ rest, Stops p rest → Cuts l rest) : Lexes p cs [l] where
  chars := by rw [chars_cons, chars_nil, List.append_nil, hl]
  falls rest hrest := by
    rw [falls_cons, chars_nil, List.nil_append]
    exact ⟨h rest hrest, trivial⟩

theorem stops_append {rest : List Char} (h : Stops p cs) (hnil : cs = [] → Stops p rest) : Stops p (cs ++ rest) := by
  cases cs with
  | nil => exact hnil rfl
  | cons c cs => rwa [List.cons_append, stops_cons] at *

/-- The first lexeme of a gap. -/
theorem exists_cuts_gap {c : Char} (hg : ∀ d ∈ c :: cs, Json.isSpace d) :
    ∃ l v, c :: cs = l.text.toList ++ v ∧ l.isIgnorable ∧ ∀ rest, Stops Json.isSpace rest → Cuts l (v ++ rest) := by
  have hspace := hg c List.mem_cons_self
  simp only [Json.isSpace, Bool.or_eq_true, beq_iff_eq] at hspace
  by_cases hgap : isGap c
  · refine ⟨⟨.whitespace, String.ofList ((c :: cs).takeWhile isGap)⟩, (c :: cs).dropWhile isGap, ?_, rfl,
      fun rest hrest => cuts_gap (by simp [hgap]) ?_ (stops_append (Json.stops_dropWhile _ _) fun _ => ?_)⟩
    · rw [String.toList_ofList, List.takeWhile_append_dropWhile]
    · simpa using fun d hd => List.mem_takeWhile_imp hd
    · refine hrest.of_imp fun d hd => ?_
      simp only [isGap, Bool.or_eq_true, beq_iff_eq] at hd
      rcases hd with rfl | rfl <;> rfl
  obtain rfl | rfl : c = '\n' ∨ c = '\r' := by
    simp only [isGap, Bool.or_eq_true, beq_iff_eq, not_or] at hgap
    tauto
  · exact ⟨lineEnd, cs, rfl, rfl, fun rest _ => cuts_lineEnd _⟩
  by_cases hfeed : ∃ cs', cs = '\n' :: cs'
  · obtain ⟨cs', rfl⟩ := hfeed
    exact ⟨⟨.newline, "\r\n"⟩, cs', rfl, rfl, fun rest _ => cuts_lineEnd_return _⟩
  · refine ⟨⟨.newline, "\r"⟩, cs, rfl, rfl, fun rest hrest => cuts_return (stops_append ?_ fun _ => hrest.of_imp ?_)⟩
    · cases cs with
      | nil => exact stops_nil _
      | cons d cs =>
        rw [stops_cons, beq_eq_false_iff_ne]
        exact fun hd => hfeed ⟨cs, by rw [hd]⟩
    · intro d hd
      rw [beq_iff_eq] at hd
      simp [Json.isSpace, hd]

/-- Blanks and line ends between the parts of a JSON text. -/
theorem exists_lexes_gap {g : List Char} (hg : ∀ c ∈ g, Json.isSpace c) :
    ∃ ls, Lexes Json.isSpace g ls ∧ ∀ l ∈ ls, l.isIgnorable := by
  induction hn : g.length using Nat.strong_induction_on generalizing g with
  | _ n ih =>
    cases g with
    | nil => exact ⟨[], ⟨rfl, fun _ _ => trivial⟩, by simp⟩
    | cons c cs =>
      obtain ⟨l, v, hv, hl, hcuts⟩ := exists_cuts_gap hg
      have hne := (hcuts [] (stops_nil _)).nonempty
      have hlength : v.length < n := by
        rw [← hn, hv, List.length_append]
        have := List.length_pos_iff.mpr hne
        omega
      obtain ⟨ls, hls, hgaps⟩ := ih _ hlength (fun d hd => hg d (by simp [hv, hd])) rfl
      refine ⟨l :: ls, ⟨by rw [chars_cons, hls.chars, hv], fun rest hrest => ?_⟩, List.forall_mem_cons.mpr ⟨hl, hgaps⟩⟩
      rw [falls_cons, hls.chars]
      exact ⟨hcuts rest hrest, hls.falls rest hrest⟩

/-- The characters before which a value ends. -/
def valueEnds : List Char := [' ', '\n', '\t', '\r', ',', ']', '}']

def goesOn (c : Char) : Bool := !valueEnds.contains c

theorem stops_of_goesOn {p : Char → Bool} {rest : List Char} (hp : valueEnds.any p = false) (h : Stops goesOn rest) :
    Stops p rest := by
  refine h.of_imp fun c hc => ?_
  rw [goesOn, Bool.not_eq_true', ← Bool.not_eq_true, List.contains_iff_mem]
  intro hmem
  exact List.any_eq_false.mp hp c hmem hc

theorem isSpace_iff {c : Char} : Json.isSpace c ↔ c ∈ [' ', '\n', '\t', '\r'] := by
  simp [Json.isSpace, or_assoc]

/-- A class without blanks stops at a gap. -/
theorem stops_gap {p : Char → Bool} {g rest : List Char} (hg : ∀ c ∈ g, Json.isSpace c)
    (hp : [' ', '\n', '\t', '\r'].any p = false) (h : Stops p rest) : Stops p (g ++ rest) := by
  refine stops_append ?_ fun _ => h
  intro c hc
  have hspace := isSpace_iff.mp (hg c (List.mem_of_head? hc))
  exact Bool.eq_false_iff.mpr (List.any_eq_false.mp hp c hspace)

theorem lexes_mark {c : Char} {s : String}
    (h : (c, s) ∈ [(']', "]"), ('}', "\x7d"), ('[', "["), (',', ","), (':', ":")]) :
    Lexes (fun _ => false) [c] [mark s] := by
  have hmark (hs : s ∈ ["\x7d", "(", ")", "[", "]", ";", ",", ".", ":"]) : Lexes (fun _ => false) s.toList [mark s] :=
    .of_cuts rfl fun rest _ => cuts_mark hs rest
  simp only [List.mem_cons, Prod.mk.injEq, List.not_mem_nil, or_false] at h
  rcases h with ⟨rfl, rfl⟩ | ⟨rfl, rfl⟩ | ⟨rfl, rfl⟩ | ⟨rfl, rfl⟩ | ⟨rfl, rfl⟩ <;> exact hmark (by decide)

section
variable {g j : List Char} {c : Char} {s : String}

/-- A mark behind a value and a gap. -/
theorem Lexes.closed (h : Lexes goesOn cs ls) (hc : (c, s) ∈ [(']', "]"), ('}', "\x7d")])
    (hg : ∀ d ∈ g, Json.isSpace d) :
    ∃ gs, (∀ l ∈ gs, l.isIgnorable) ∧ Lexes (fun _ => false) (cs ++ (g ++ [c])) (ls ++ (gs ++ [mark s])) := by
  obtain ⟨gs, hgs, hgaps⟩ := exists_lexes_gap hg
  have hmark : Lexes (fun _ => false) [c] [mark s] := lexes_mark (by simp only [List.mem_cons] at hc ⊢; tauto)
  have hstops : Json.isSpace c = false ∧ goesOn c = false := by
    simp only [List.mem_cons, Prod.mk.injEq, List.not_mem_nil, or_false] at hc
    rcases hc with ⟨rfl, -⟩ | ⟨rfl, -⟩ <;> decide
  have hend := hgs.append hmark fun rest _ => (stops_cons ..).mpr hstops.1
  refine ⟨gs, hgaps, h.append hend fun rest _ => ?_⟩
  rw [List.append_assoc]
  exact stops_gap hg (by decide) ((stops_cons ..).mpr hstops.2)

/-- A comma between a value and what follows it. -/
theorem Lexes.comma (h : Lexes goesOn cs ls) (hg : ∀ d ∈ g, Json.isSpace d) (hj : ∀ d ∈ j, Json.isSpace d)
    (h' : Lexes (fun _ => false) cs' ls') (hstops : ∀ rest, Stops Json.isSpace (cs' ++ rest)) :
    ∃ gs js, (∀ l ∈ gs, l.isIgnorable) ∧ (∀ l ∈ js, l.isIgnorable) ∧
      Lexes (fun _ => false) (cs ++ (g ++ ',' :: (j ++ cs'))) (ls ++ (gs ++ mark "," :: (js ++ ls'))) := by
  obtain ⟨gs, hgs, hgaps⟩ := exists_lexes_gap hg
  obtain ⟨js, hjs, hjaps⟩ := exists_lexes_gap hj
  have hbehind := hjs.append h' fun rest _ => hstops rest
  have hcomma := (lexes_mark (c := ',') (s := ",") (by decide)).append hbehind fun _ _ _ _ => rfl
  have hend := hgs.append hcomma fun rest _ => (stops_cons ..).mpr (by decide)
  refine ⟨gs, js, hgaps, hjaps, h.append hend fun rest _ => ?_⟩
  rw [List.append_assoc]
  exact stops_gap hg (by decide) ((stops_cons ..).mpr (by decide))

end

theorem Spells.isIgnorable {us : List Token} (h : Spells us ls) (hls : ∀ l ∈ ls, l.isIgnorable) :
    ∀ u ∈ us, u.isIgnorable := by
  intro u hu
  exact hls u.lexeme (h ▸ List.mem_map_of_mem hu)

end Lexeme

namespace JsonTerm
variable {m n : Nat} {us vs ts b : List Token} {ls ls' gs js : List Lexeme} {t : JsonTerm} {items : List JsonTerm}
  {members : List (JsonKey × JsonTerm)} {text : String}

/-- The end of the tokens, or a mark that opens no parenthesis. -/
def Marked (ts : List Token) : Prop := ∀ c ∈ ts.head?, ∃ s, c.isPunct s ∧ s ≠ "("

/-- Lexemes that are read as a term before a gap and a mark. Arithmetic takes some of the gap along. -/
def ReadsAs (ls : List Lexeme) (t : JsonTerm) : Prop :=
  ∀ (m n : Nat) (us vs ts b : List Token), Spells us ls → 2 * us.length ≤ m → (∀ v ∈ vs, v.isIgnorable) → Marked ts →
    ∃ b' vs', (∀ v ∈ vs', v.isIgnorable) ∧ readWithin m ⟨b, us ++ (vs ++ ts), n⟩ = .ok (t, ⟨b', vs' ++ ts, n⟩)

/-- Lexemes that are read as items up to the closing bracket. -/
def ItemsReadAs (ls : List Lexeme) (items : List JsonTerm) : Prop :=
  ∀ (m n : Nat) (us ts b : List Token), Spells us ls → 2 * us.length ≤ m →
    ∃ b', readItems m ⟨b, us ++ ts, n⟩ = .ok (items, ⟨b', ts, n⟩)

/-- Lexemes that are read as members up to the closing brace. -/
def MembersReadAs (ls : List Lexeme) (members : List (JsonKey × JsonTerm)) : Prop :=
  ∀ (m n : Nat) (us ts b : List Token), Spells us ls → 2 * us.length ≤ m →
    ∃ b', readMembers m ⟨b, us ++ ts, n⟩ = .ok (members, ⟨b', ts, n⟩)

theorem Marked.done (h : Marked ts) : Done ts := by
  cases ts with
  | nil => rfl
  | cons c ts =>
    obtain ⟨s, hc, -⟩ := h c rfl
    exact done_mark hc ts

theorem marked_mark {s : String} (hs : s ≠ "(") (k : Nat) (ts : List Token) : Marked (⟨.punctuation, s, k⟩ :: ts) := by
  intro c hc
  cases hc
  exact ⟨s, by simp [Token.isPunct], hs⟩

theorem readsAs_operand {kind : TokenKind}
    (h : kind = .number ∧ t = .number text ∨ kind = .placeholder ∧ t = .reference text ∨
      kind = .identifier ∧ t = ofWord text) : ReadsAs [⟨kind, text⟩] t := by
  intro m n us vs ts b hus hm hvs hts
  obtain ⟨k, rfl⟩ := spells_singleton.mp hus
  obtain ⟨m, rfl⟩ := Nat.exists_eq_succ_of_ne_zero (show m ≠ 0 by simp at hm; omega)
  obtain ⟨b', hread⟩ := readWithin_operand h (hts.done.gap hvs) m b k n
  exact ⟨b', vs, hvs, hread⟩

theorem readsAs_string (text : String) : ReadsAs [⟨.string, text⟩] (.literal (⟨.string, text, 0⟩ : Token).literal) := by
  intro m n us vs ts b hus hm hvs hts
  obtain ⟨k, rfl⟩ := spells_singleton.mp hus
  obtain ⟨m, rfl⟩ := Nat.exists_eq_succ_of_ne_zero (show m ≠ 0 by simp at hm; omega)
  exact ⟨_, vs, hvs, readWithin_string (t := ⟨.string, text, k⟩) rfl m b _ n⟩

/-- Complete arithmetic goes on into a gap, but not beyond it. -/
theorem arithmeticRun_gap (hvs : ∀ v ∈ vs, v.isIgnorable) (hts : Marked ts) :
    ∃ i ≤ vs.length, arithmeticRun 0 false (vs ++ ts) = (i, 0, false) := by
  induction vs with
  | nil =>
    refine ⟨0, Nat.le_refl _, ?_⟩
    cases ts with
    | nil => rfl
    | cons c ts =>
      obtain ⟨s, hc, hs⟩ := hts c rfl
      have hstop := (ends_mark hc hs ts).stops c rfl
      have hrun := arithmeticRun_cons (0, false) c ts
      rwa [hstop] at hrun
  | cons v vs ih =>
    rw [List.forall_mem_cons] at hvs
    obtain ⟨i, hi, hrun⟩ := ih hvs.2
    have hstep := arithmeticRun_cons (0, false) v (vs ++ ts)
    simp only [Token.isIgnorable, Bool.or_eq_true, beq_iff_eq] at hvs
    rcases hvs.1 with (hv | hv) | hv
    · exact ⟨i + 1, Nat.succ_le_succ hi, by simpa [arithmeticStep, Token.lexeme, hv, hrun] using hstep⟩
    · exact ⟨0, Nat.zero_le _, by simpa [arithmeticStep, Token.lexeme, hv] using hstep⟩
    · exact ⟨i + 1, Nat.succ_le_succ hi, by simpa [arithmeticStep, Token.lexeme, hv, hrun] using hstep⟩

theorem core_gap (hus : ∀ u ∈ us.getLast?, u.isIgnorable = false) (hvs : ∀ v ∈ vs, v.isIgnorable) :
    core (us ++ vs) = us := by
  have hlast : us.reverse.dropWhile (·.isIgnorable) = us.reverse := by
    rw [List.getLast?_eq_head?_reverse] at hus
    cases hr : us.reverse with
    | nil => rfl
    | cons u us' => rw [List.dropWhile_cons_of_neg (by simpa using hus u (by simp [hr]))]
  rw [core, List.reverse_append, List.dropWhile_append_of_pos (by simpa using hvs), hlast, List.reverse_reverse]

/-- A minus sign before a number is arithmetic that is a number again. -/
theorem readsAs_negative {d : Decimal} (htext : text.toList = d.chars) :
    ReadsAs [op "-", ⟨.number, text⟩] (.number (String.ofList ('-' :: d.chars))) := by
  intro m n us vs ts b hus hm hvs hts
  obtain ⟨m, rfl⟩ := Nat.exists_eq_succ_of_ne_zero (show m ≠ 0 by rintro rfl; simp [hus.length] at hm)
  obtain ⟨i, hi, hgap⟩ := arithmeticRun_gap hvs hts
  have hsteps : arithmeticSteps (0, true) [op "-", ⟨.number, text⟩] = some (0, false) := rfl
  have hrun := arithmeticRun_append hus hsteps (vs ++ ts)
  rw [hgap] at hrun
  have htake : (us ++ (vs ++ ts)).take (us.length + i) = us ++ vs.take i := by
    rw [List.take_length_add_append, List.take_append_of_le_length hi]
  have hdrop : (us ++ (vs ++ ts)).drop (us.length + i) = vs.drop i ++ ts := by
    rw [List.drop_length_add_append, List.drop_append_of_le_length hi]
  have hlast : ∀ u ∈ us.getLast?, u.isIgnorable = false := by
    intro u hu
    have hlexeme : u.lexeme ∈ ([op "-", ⟨.number, text⟩] : List Lexeme).getLast? := by
      rw [← show us.map Token.lexeme = _ from hus, List.getLast?_map, Option.mem_def.mp hu]
      rfl
    rw [← isIgnorable_lexeme, ← Option.some.inj hlexeme]
    rfl
  have hchars : runText (us ++ vs.take i) = (String.ofList ('-' :: d.chars)).toList := by
    rw [runText_eq, core_gap hlast fun v hv => hvs v (List.mem_of_mem_take hv), show us.map Token.lexeme = _ from hus]
    simp [op, htext]
  have hread : readArithmetic ⟨b, us ++ (vs ++ ts), n⟩ =
      .ok (.number (String.ofList ('-' :: d.chars)), ⟨(us ++ vs.take i).reverse ++ b, vs.drop i ++ ts, n⟩) := by
    rw [readArithmetic]
    simp only [hrun, htake, hdrop, hchars]
    rw [Decimal.ofArithmetic_eq (d := d) String.toList_ofList]
    rfl
  obtain ⟨k, us, rfl, -⟩ := spells_cons.mp hus
  have hstarts := startsArithmetic_run (by rfl) hus b (vs ++ ts) n
  exact ⟨_, vs.drop i, fun v hv => hvs v (List.mem_of_mem_drop hv),
    (readWithin_arithmetic (t := ⟨.operator, "-", k⟩) rfl hstarts m).trans hread⟩

/-- The first lexeme means something and closes no list. -/
def Opens (ls : List Lexeme) : Prop := ∃ l ls', ls = l :: ls' ∧ l.isIgnorable = false ∧ l ≠ mark "]"

theorem Opens.token (h : Opens ls) (hus : Spells us ls) :
    ∃ t us', us = t :: us' ∧ t.isIgnorable = false ∧ t.isPunct "]" = false := by
  obtain ⟨l, ls', rfl, hgap, hbracket⟩ := h
  obtain ⟨k, us', rfl, -⟩ := spells_cons.mp hus
  refine ⟨_, us', rfl, hgap, ?_⟩
  rw [← Bool.not_eq_true]
  exact fun hp => hbracket (eq_mark_of_isPunct hp)

theorem readItems_gap (hus : ∀ u ∈ us, u.isIgnorable) :
    readItems m ⟨b, us ++ ts, n⟩ = readItems m ⟨us.reverse ++ b, ts, n⟩ := by
  cases m with
  | zero => rfl
  | succ m => rw [readItems, readItems, Cursor.skip_append hus]

theorem readMembers_gap (hus : ∀ u ∈ us, u.isIgnorable) :
    readMembers m ⟨b, us ++ ts, n⟩ = readMembers m ⟨us.reverse ++ b, ts, n⟩ := by
  cases m with
  | zero => rfl
  | succ m => rw [readMembers, readMembers, Cursor.skip_append hus]

theorem readWithin_gap (hus : ∀ u ∈ us, u.isIgnorable) :
    readWithin m ⟨b, us ++ ts, n⟩ = readWithin m ⟨us.reverse ++ b, ts, n⟩ := by
  cases m with
  | zero => rfl
  | succ m => rw [readWithin, readWithin, Cursor.skip_append hus]

theorem itemsReadAs_nil : ItemsReadAs [mark "]"] [] := by
  intro m n us ts b hus hm
  obtain ⟨k, rfl⟩ := spells_singleton.mp hus
  obtain ⟨m, rfl⟩ := Nat.exists_eq_succ_of_ne_zero (show m ≠ 0 by simp at hm; omega)
  exact ⟨_, by simp [readItems, mark, Token.isIgnorable, Token.isPunct]; rfl⟩

theorem itemsReadAs_last (h : ReadsAs ls t) (hopens : Opens ls) (hgs : ∀ l ∈ gs, l.isIgnorable) :
    ItemsReadAs (ls ++ (gs ++ [mark "]"])) [t] := by
  intro m n us ts b hus hm
  obtain ⟨us, _, rfl, hvalue, hrest⟩ := spells_append.mp hus
  obtain ⟨ws, _, rfl, hws, hclose⟩ := spells_append.mp hrest
  obtain ⟨k, rfl⟩ := spells_singleton.mp hclose
  simp only [List.length_append, List.length_singleton] at hm
  obtain ⟨m, rfl⟩ := Nat.exists_eq_succ_of_ne_zero (show m ≠ 0 by omega)
  obtain ⟨b₁, ws', hws', hread⟩ := h m n us ws (⟨.punctuation, "]", k⟩ :: ts) b hvalue (by omega) (hws.isIgnorable hgs)
    (marked_mark (by decide) k ts)
  obtain ⟨u, us, rfl, hgap, hbracket⟩ := hopens.token hvalue
  obtain ⟨b', hlast⟩ := readItems_last ws' (List.forall_mem_nil _) hgap hbracket hws'
    (c := ⟨.punctuation, "]", k⟩) rfl hread
  exact ⟨b', by simpa [mark] using hlast⟩

theorem itemsReadAs_cons (h : ReadsAs ls t) (hopens : Opens ls) (hgs : ∀ l ∈ gs, l.isIgnorable)
    (hjs : ∀ l ∈ js, l.isIgnorable) (hitems : ItemsReadAs ls' items) :
    ItemsReadAs (ls ++ (gs ++ mark "," :: (js ++ ls'))) (t :: items) := by
  intro m n us ts b hus hm
  obtain ⟨us, _, rfl, hvalue, hrest⟩ := spells_append.mp hus
  obtain ⟨ws, _, rfl, hws, hcomma⟩ := spells_append.mp hrest
  obtain ⟨k, _, rfl, hbehind⟩ := spells_cons.mp hcomma
  obtain ⟨xs, us₂, rfl, hxs, hus₂⟩ := spells_append.mp hbehind
  simp only [List.length_append, List.length_cons] at hm
  obtain ⟨m, rfl⟩ := Nat.exists_eq_succ_of_ne_zero (show m ≠ 0 by omega)
  obtain ⟨b₁, ws', hws', hread⟩ := h m n us ws (⟨.punctuation, ",", k⟩ :: (xs ++ us₂ ++ ts)) b hvalue (by omega)
    (hws.isIgnorable hgs) (marked_mark (by decide) k _)
  obtain ⟨b', hread'⟩ := hitems m n us₂ ts (xs.reverse ++ ⟨.punctuation, ",", k⟩ :: (ws'.reverse ++ b₁)) hus₂ (by omega)
  obtain ⟨u, us, rfl, hgap, hbracket⟩ := hopens.token hvalue
  have hcons := readItems_comma ws' (List.forall_mem_nil _) hgap hbracket hws'
    (c := ⟨.punctuation, ",", k⟩) rfl hread
  rw [List.append_assoc, readItems_gap (hxs.isIgnorable hjs), hread'] at hcons
  exact ⟨b', by simpa [mark] using hcons⟩

theorem readsAs_array (hgs : ∀ l ∈ gs, l.isIgnorable) (hitems : ItemsReadAs ls items) :
    ReadsAs (mark "[" :: (gs ++ ls)) (.array items) := by
  intro m n us vs ts b hus hm hvs hts
  obtain ⟨k, _, rfl, hrest⟩ := spells_cons.mp hus
  obtain ⟨ws, us, rfl, hws, hus⟩ := spells_append.mp hrest
  simp only [List.length_append, List.length_cons] at hm
  obtain ⟨m, rfl⟩ := Nat.exists_eq_succ_of_ne_zero (show m ≠ 0 by omega)
  obtain ⟨b', hread⟩ := hitems m n us (vs ++ ts) (ws.reverse ++ ⟨.punctuation, "[", k⟩ :: b) hus (by omega)
  rw [← readItems_gap (hws.isIgnorable hgs)] at hread
  exact ⟨b', vs, hvs, by simp [readWithin, mark, Token.isIgnorable, Token.isPunct, Token.isOp, startsArithmetic,
    isOperand, hread]⟩

theorem membersReadAs_nil : MembersReadAs [mark "\x7d"] [] := by
  intro m n us ts b hus hm
  obtain ⟨k, rfl⟩ := spells_singleton.mp hus
  obtain ⟨m, rfl⟩ := Nat.exists_eq_succ_of_ne_zero (show m ≠ 0 by simp at hm; omega)
  exact ⟨_, by simp [readMembers, mark, Token.isIgnorable, Token.isPunct]; rfl⟩

/-- The key that a string is. -/
def keyOfString (text : String) : JsonKey := .literal (⟨.string, text, 0⟩ : Token).literal

/-- Lexemes of a key, a colon and a value. -/
def MemberReadsAs (ls : List Lexeme) (m : JsonKey × JsonTerm) : Prop :=
  ∃ text ks js ls', ls = ⟨.string, text⟩ :: (ks ++ mark ":" :: (js ++ ls')) ∧ (∀ l ∈ ks, l.isIgnorable) ∧
    (∀ l ∈ js, l.isIgnorable) ∧ m.1 = keyOfString text ∧ ReadsAs ls' m.2

/-- The tokens of a member, and how its value is read. -/
theorem MemberReadsAs.tokens {x : JsonKey × JsonTerm} (h : MemberReadsAs ls x) (hus : Spells us ls)
    (hm : 2 * us.length ≤ m) (hvs : ∀ v ∈ vs, v.isIgnorable) (hts : Marked ts) :
    ∃ k ys j xs b₁ vs', us = k :: (ys ++ j :: xs) ∧ keyOf k = x.1 ∧ k.isString ∧ j.isPunct ":" ∧
      (∀ y ∈ ys, y.isIgnorable) ∧ (∀ v ∈ vs', v.isIgnorable) ∧
        readWithin m ⟨j :: (ys.reverse ++ k :: b), xs ++ (vs ++ ts), n⟩ = .ok (x.2, ⟨b₁, vs' ++ ts, n⟩) := by
  obtain ⟨text, ks, js, ls', rfl, hks, hjs, hkey, hvalue⟩ := h
  obtain ⟨k, _, rfl, hcolon⟩ := spells_cons.mp hus
  obtain ⟨ys, _, rfl, hys, hcolon⟩ := spells_append.mp hcolon
  obtain ⟨j, _, rfl, hbehind⟩ := spells_cons.mp hcolon
  obtain ⟨xs, us, rfl, hxs, hus⟩ := spells_append.mp hbehind
  simp only [List.length_append, List.length_cons] at hm
  obtain ⟨b₁, vs', hvs', hread⟩ := hvalue m n us vs ts
    (xs.reverse ++ ⟨.punctuation, ":", j⟩ :: (ys.reverse ++ ⟨.string, text, k⟩ :: b)) hus (by omega) hvs hts
  rw [← readWithin_gap (hxs.isIgnorable hjs), ← List.append_assoc] at hread
  exact ⟨_, ys, ⟨.punctuation, ":", j⟩, xs ++ us, b₁, vs', rfl, hkey.symm, rfl, rfl, hys.isIgnorable hks, hvs', hread⟩

theorem membersReadAs_last {x : JsonKey × JsonTerm} (h : MemberReadsAs ls x) (hgs : ∀ l ∈ gs, l.isIgnorable) :
    MembersReadAs (ls ++ (gs ++ [mark "\x7d"])) [x] := by
  intro m n us ts b hus hm
  obtain ⟨us, _, rfl, hmember, hend⟩ := spells_append.mp hus
  obtain ⟨ws, _, rfl, hws, hclose⟩ := spells_append.mp hend
  obtain ⟨i, rfl⟩ := spells_singleton.mp hclose
  simp only [List.length_append, List.length_singleton] at hm
  obtain ⟨m, rfl⟩ := Nat.exists_eq_succ_of_ne_zero (show m ≠ 0 by omega)
  obtain ⟨k, ys, j, xs, b₁, ws', rfl, hkey, hk, hj, hys, hws', hread⟩ := h.tokens (m := m) (n := n) (b := b) hmember
    (by omega) (hws.isIgnorable hgs) (marked_mark (s := "\x7d") (by decide) i ts)
  obtain ⟨b', hlast⟩ := readMembers_last ys ws' (List.forall_mem_nil _) (by simp [hk]) hys hj hws'
    (c := ⟨.punctuation, "\x7d", i⟩) rfl hread
  exact ⟨b', by simpa [mark, hkey] using hlast⟩

theorem membersReadAs_cons {x : JsonKey × JsonTerm} (h : MemberReadsAs ls x) (hgs : ∀ l ∈ gs, l.isIgnorable)
    (hjs : ∀ l ∈ js, l.isIgnorable) (hmembers : MembersReadAs ls' members) :
    MembersReadAs (ls ++ (gs ++ mark "," :: (js ++ ls'))) (x :: members) := by
  intro m n us ts b hus hm
  obtain ⟨us, _, rfl, hmember, hend⟩ := spells_append.mp hus
  obtain ⟨ws, _, rfl, hws, hcomma⟩ := spells_append.mp hend
  obtain ⟨i, _, rfl, hbehind⟩ := spells_cons.mp hcomma
  obtain ⟨zs, us₂, rfl, hzs, hus₂⟩ := spells_append.mp hbehind
  simp only [List.length_append, List.length_cons] at hm
  obtain ⟨m, rfl⟩ := Nat.exists_eq_succ_of_ne_zero (show m ≠ 0 by omega)
  obtain ⟨k, ys, j, xs, b₁, ws', rfl, hkey, hk, hj, hys, hws', hread⟩ := h.tokens (m := m) (n := n) (b := b) hmember
    (by omega) (hws.isIgnorable hgs) (marked_mark (s := ",") (by decide) i (zs ++ us₂ ++ ts))
  obtain ⟨b', hread'⟩ := hmembers m n us₂ ts (zs.reverse ++ ⟨.punctuation, ",", i⟩ :: (ws'.reverse ++ b₁)) hus₂
    (by omega)
  have hcons := readMembers_comma ys ws' (List.forall_mem_nil _) (by simp [hk]) hys hj hws'
    (c := ⟨.punctuation, ",", i⟩) rfl hread
  rw [List.append_assoc, readMembers_gap (hzs.isIgnorable hjs), hread'] at hcons
  exact ⟨b', by simpa [mark, hkey] using hcons⟩

theorem readsAs_object (hgs : ∀ l ∈ gs, l.isIgnorable) (hmembers : MembersReadAs ls members) :
    ReadsAs (mark "\x7b" :: (gs ++ ls)) (.object members) := by
  intro m n us vs ts b hus hm hvs hts
  obtain ⟨k, _, rfl, hrest⟩ := spells_cons.mp hus
  obtain ⟨ws, us, rfl, hws, hus⟩ := spells_append.mp hrest
  simp only [List.length_append, List.length_cons] at hm
  obtain ⟨m, rfl⟩ := Nat.exists_eq_succ_of_ne_zero (show m ≠ 0 by omega)
  obtain ⟨b', hread⟩ := hmembers m n us (vs ++ ts) (ws.reverse ++ ⟨.punctuation, "\x7b", k⟩ :: b) hus (by omega)
  rw [← readMembers_gap (hws.isIgnorable hgs)] at hread
  exact ⟨b', vs, hvs, by simp [readWithin, mark, Token.isIgnorable, Token.isPunct, Token.isOp, startsArithmetic,
    isOperand, hread]⟩

end JsonTerm
end RequestLang
