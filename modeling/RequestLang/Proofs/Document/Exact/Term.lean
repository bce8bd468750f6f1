import RequestLang.Proofs.Document.Exact.Run

/-! A comment that opens inside a term shows in what is read. -/
namespace RequestLang
open Lexer Lexeme

namespace JsonTerm

/-- Where the text of a term is read as that term, no comment opens inside it. -/
def Exact (t : JsonTerm) : Prop :=
  ∀ (depth k m n : Nat) (rest : List Char) (b ts : List Token) (t' : JsonTerm) (c : Cursor), Closed rest →
    scan k (chars (t.lexemes depth) ++ rest) = .ok ts → 2 * ts.length ≤ m →
    readWithin m ⟨b, ts, n⟩ = .ok (t', c) → t'.plain = t.plain → Calm (t.lexemes depth) rest

theorem readWithin_skip (m : Nat) (c : Cursor) : readWithin m c.skip = readWithin m c := by
  cases m with
  | zero => rfl
  | succ m => rw [readWithin, readWithin, Cursor.skip_skip]

theorem calm_gap (n : Nat) (rest : List Char) : Calm (gap n) rest := by
  unfold gap
  split
  · trivial
  · exact ⟨fun h => (by cases h), trivial⟩

theorem falls_separator (rest : List Char) : Falls [mark ",", lineEnd] rest :=
  ⟨cuts_mark (by decide) _, cuts_lineEnd _, trivial⟩

theorem calm_separator (rest : List Char) : Calm [mark ",", lineEnd] rest := calm_of_not_mem (by decide) rest

section
variable {d k m n : Nat} {b ts : List Token} {c : Cursor} {more : List Char}

/-- What stands before a separator is read whole, so that reading goes on behind it. -/
theorem read_line {i x : JsonTerm} (h : i.Legible) (hexact : Exact i) {depth : Nat}
    (hmore : Closed more) (hscan : scan k (chars (i.lexemes depth) ++ more) = .ok ts)
    (hm : 2 * ts.length ≤ m) (hread : readWithin m ⟨b, ts, n⟩ = .ok (x, c)) (hx : x.plain = i.plain) :
    Calm (i.lexemes depth) more ∧ ∃ us ts' j, ts = us ++ ts' ∧ scan j more = .ok ts' ∧
      (Ends ts' → ∃ b', c = ⟨b', ts', n⟩) := by
  have hcalm := hexact depth k m n more b ts x c hmore hscan hm hread hx
  obtain ⟨us, ts', rfl, hus, hrest⟩ := scan_split ((solid_lexemes depth i h).falls more hmore hcalm) hscan
  refine ⟨hcalm, us, ts', _, rfl, hrest, fun hends => ?_⟩
  rw [List.length_append] at hm
  obtain ⟨b', hread'⟩ := rereads i h depth m n us ts' b hus (by omega) hends
  rw [hread] at hread'
  exact ⟨b', (Prod.mk.inj (Except.ok.inj hread')).2⟩

theorem calm_items {depth : Nat} (is : List JsonTerm) (h : ∀ i ∈ is, i.Legible ∧ Exact i) (hmore : Closed more)
    {xs : List JsonTerm}
    (hscan : scan k (chars (List.intercalate [mark ",", lineEnd] ((itemLexemes depth is).map (gap d ++ ·))) ++
      more) = .ok ts) (hm : 2 * ts.length + 1 ≤ m) (hread : readItems m ⟨b, ts, n⟩ = .ok (xs, c))
    (hxs : plainItems xs = plainItems is) :
    Calm (List.intercalate [mark ",", lineEnd] ((itemLexemes depth is).map (gap d ++ ·))) more := by
  induction is generalizing k m b ts xs with
  | nil => trivial
  | cons i is ih =>
    obtain ⟨m, rfl⟩ := Nat.exists_eq_succ_of_ne_zero (show m ≠ 0 by omega)
    obtain ⟨hlegible, hexact⟩ := h i (by simp)
    have hsolid := solid_lexemes depth i hlegible
    obtain ⟨-, rfl, -⟩ | ⟨x, c₁, -, hx, hrest⟩ := readItems_eq_ok hread
    · cases hxs
    rw [readWithin_skip] at hx
    have hplain : x.plain = i.plain := by
      obtain ⟨-, rest, -, rfl⟩ | ⟨-, -, rfl, -⟩ := hrest
      · exact (List.cons.inj hxs).1
      · exact (List.cons.inj hxs).1
    cases is with
    | nil =>
      simp only [itemLexemes, List.map_cons, List.map_nil, List.intercalate_singleton, chars_append,
        List.append_assoc] at hscan ⊢
      obtain ⟨gs, ts, rfl, hgs, hscan⟩ := scan_split (falls_gap d (hsolid.stops more)) hscan
      rw [← readWithin_skip, Cursor.skip_append hgs.gap, readWithin_skip] at hx
      rw [List.length_append] at hm
      exact (calm_append ..).mpr ⟨calm_gap d _, (read_line hlegible hexact hmore hscan (by omega) hx hplain).1⟩
    | cons i' is =>
      rw [itemLexemes, itemLexemes, List.map_cons, List.map_cons, List.intercalate_cons_cons, ← List.map_cons,
        ← itemLexemes] at hscan ⊢
      simp only [chars_append, List.append_assoc, calm_append] at hscan ⊢
      obtain ⟨gs, ts, rfl, hgs, hitem⟩ := scan_split (falls_gap d (hsolid.stops _)) hscan
      rw [← readWithin_skip, Cursor.skip_append hgs.gap, readWithin_skip] at hx
      rw [List.length_append] at hm
      have hclosed (more : List Char) : Closed (chars [mark ",", lineEnd] ++ more) := (closed_cons ..).mpr rfl
      obtain ⟨hcalm, us, ts, j, rfl, hcomma, hc₁⟩ := read_line hlegible hexact (hclosed _) hitem (by omega) hx hplain
      obtain ⟨_, ts, rfl, hsep, hbehind⟩ := scan_split (falls_separator _) hcomma
      simp only [spells_cons, spells_nil] at hsep
      obtain ⟨k₁, _, rfl, k₂, _, rfl, rfl⟩ := hsep
      obtain ⟨b', rfl⟩ := hc₁ (ends_mark (s := ",") (by rfl) (by decide) _)
      refine ⟨calm_gap d _, hcalm, calm_separator _, ?_⟩
      obtain ⟨-, rest, hnext, rfl⟩ | ⟨hnot, -⟩ := hrest
      · rw [List.cons_append, List.cons_append, Cursor.skip_of_not (by rfl), Cursor.advance_cons,
          readItems_of_isIgnorable (by rfl), List.nil_append] at hnext
        simp only [List.length_append, List.length_cons, List.length_nil] at hm
        exact ih (fun j hj => h j (by simp [hj])) hbehind (by omega) hnext (List.cons.inj hxs).2
      · cases hnot

theorem falls_key {key : JsonKey} (hkey : key.Legible) {rest : List Char} (hrest : Stops isGap rest) :
    Falls [key.lexeme, mark ":", blank 1] rest := by
  refine ⟨JsonKey.cuts hkey ?_ ?_, cuts_mark (by decide) _, cuts_blank (by decide) hrest, trivial⟩
  · exact (stops_cons ..).mpr (by decide)
  · exact (stops_cons ..).mpr (by decide)

theorem lexeme_ne_slash (l : Literal) : l.lexeme ≠ op "/" := by
  intro h
  have hk := l.isString_lexeme
  rw [h] at hk
  rcases hk with hk | hk <;> cases hk

theorem calm_key (key : JsonKey) (rest : List Char) : Calm [key.lexeme, mark ":", blank 1] rest := by
  refine calm_of_not_mem (fun hmem => ?_) rest
  rcases List.mem_cons.mp hmem with h | hmem
  · cases key with
    | literal l => exact lexeme_ne_slash l h.symm
    | reference text => cases h
  · exact absurd hmem (by decide)

/-- A member is read behind its key. -/
theorem readMembers_key {key : JsonKey} {gs us : List Token} (hgs : ∀ g ∈ gs, g.isIgnorable)
    (hus : Spells us [key.lexeme, mark ":", blank 1]) {ms : List (JsonKey × JsonTerm)}
    (hread : readMembers (m + 1) ⟨b, gs ++ (us ++ ts), n⟩ = .ok (ms, c)) :
    ∃ key' x b₁ c₁, readWithin m ⟨b₁, ts, n⟩ = .ok (x, c₁) ∧
      ((c₁.skip.isPunct "," ∧ ∃ rest, readMembers m c₁.skip.advance = .ok (rest, c) ∧ ms = (key', x) :: rest) ∨
        (c₁.skip.isPunct "," = false ∧ ms = [(key', x)])) := by
  simp only [spells_cons, spells_nil] at hus
  obtain ⟨k₁, _, rfl, k₂, _, rfl, k₃, _, rfl, rfl⟩ := hus
  obtain ⟨hstring, -⟩ := keyOf_lexeme key k₁
  have hnot : (⟨key.lexeme.kind, key.lexeme.text, k₁⟩ : Token).isIgnorable = false ∧
      (⟨key.lexeme.kind, key.lexeme.text, k₁⟩ : Token).isPunct "\x7d" = false := by
    simp only [Token.isString, Bool.or_eq_true, beq_iff_eq, or_assoc] at hstring
    rcases hstring with hk | hk | hk <;> simp [Token.isIgnorable, Token.isPunct, hk]
  have hskip : (⟨b, gs ++ ([⟨key.lexeme.kind, key.lexeme.text, k₁⟩, ⟨(mark ":").kind, (mark ":").text, k₂⟩,
      ⟨(blank 1).kind, (blank 1).text, k₃⟩] ++ ts), n⟩ : Cursor).skip =
      ⟨gs.reverse ++ b, [⟨key.lexeme.kind, key.lexeme.text, k₁⟩, ⟨(mark ":").kind, (mark ":").text, k₂⟩,
        ⟨(blank 1).kind, (blank 1).text, k₃⟩] ++ ts, n⟩ := by
    rw [Cursor.skip_append hgs, List.cons_append, Cursor.skip_of_not hnot.1]
  obtain ⟨hclose, -, -⟩ | ⟨t, x, c₁, -, ht, -, -, hx, hrest⟩ := readMembers_eq_ok hread
  · rw [hskip] at hclose
    rw [List.cons_append, Cursor.isPunct_cons, hnot.2] at hclose
    cases hclose
  · rw [hskip, List.cons_append, Cursor.advance_cons, List.cons_append, Cursor.skip_of_not (by rfl),
      Cursor.advance_cons, List.cons_append, readWithin_of_isIgnorable (by rfl)] at hx
    refine ⟨keyOf t, x, _, c₁, hx, ?_⟩
    obtain ⟨hcomma, rest, hnext, rfl⟩ | ⟨hcomma, -, rfl, -⟩ := hrest
    · exact .inl ⟨hcomma, rest, hnext, rfl⟩
    · exact .inr ⟨hcomma, rfl⟩

theorem calm_members {depth : Nat} (is : List (JsonKey × JsonTerm))
    (h : ∀ i ∈ is, i.1.Legible ∧ i.2.Legible ∧ Exact i.2) (hmore : Closed more) {ms : List (JsonKey × JsonTerm)}
    (hscan : scan k (chars (List.intercalate [mark ",", lineEnd] ((memberLexemes depth is).map (gap d ++ ·))) ++
      more) = .ok ts) (hm : 2 * ts.length + 1 ≤ m) (hread : readMembers m ⟨b, ts, n⟩ = .ok (ms, c))
    (hms : plainMembers ms = plainMembers is) :
    Calm (List.intercalate [mark ",", lineEnd] ((memberLexemes depth is).map (gap d ++ ·))) more := by
  induction is generalizing k m b ts ms with
  | nil => trivial
  | cons i is ih =>
    obtain ⟨key, i⟩ := i
    obtain ⟨m, rfl⟩ := Nat.exists_eq_succ_of_ne_zero (show m ≠ 0 by omega)
    obtain ⟨hkey, hlegible, hexact⟩ := h (key, i) (by simp)
    have hsolid := solid_lexemes depth i hlegible
    have hstops (more : List Char) : Stops isGap (chars [key.lexeme, mark ":", blank 1] ++ more) := by
      obtain ⟨q, cs, hq, hgap⟩ := JsonKey.opens hkey
      rw [chars_cons, JsonKey.text_lexeme, hq]
      exact (stops_cons ..).mpr (isGap_of_separates hgap)
    have hline (more : List Char) : chars (key.lexeme :: mark ":" :: blank 1 :: i.lexemes depth) ++ more =
        chars [key.lexeme, mark ":", blank 1] ++ (chars (i.lexemes depth) ++ more) := by
      simp only [chars_cons, chars_nil, List.append_assoc, List.nil_append]
    have hcalm {more : List Char} (h : Calm (i.lexemes depth) more) :
        Calm (key.lexeme :: mark ":" :: blank 1 :: i.lexemes depth) more :=
      (calm_append [key.lexeme, mark ":", blank 1] _ _).mpr ⟨calm_key key _, h⟩
    cases is with
    | nil =>
      simp only [memberLexemes, List.map_cons, List.map_nil, List.intercalate_singleton] at hscan ⊢
      rw [chars_append, List.append_assoc, hline] at hscan
      obtain ⟨gs, ts, rfl, hgs, hline⟩ := scan_split (falls_gap d (hstops _)) hscan
      obtain ⟨us, ts, rfl, hus, hitem⟩ := scan_split (falls_key hkey (hsolid.stops more)) hline
      obtain ⟨key', x, b₁, c₁, hx, hrest⟩ := readMembers_key hgs.gap hus hread
      have hplain : x.plain = i.plain := by
        obtain ⟨-, rest, -, rfl⟩ | ⟨-, rfl⟩ := hrest
        · exact (Prod.mk.inj (List.cons.inj hms).1).2
        · exact (Prod.mk.inj (List.cons.inj hms).1).2
      simp only [List.length_append] at hm
      exact (calm_append ..).mpr ⟨calm_gap d _,
        hcalm (read_line hlegible hexact hmore hitem (by omega) hx hplain).1⟩
    | cons i' is =>
      rw [memberLexemes, memberLexemes, List.map_cons, List.map_cons, List.intercalate_cons_cons, ← List.map_cons,
        ← memberLexemes] at hscan ⊢
      simp only [chars_append, List.append_assoc, calm_append] at hscan ⊢
      rw [hline] at hscan
      obtain ⟨gs, ts, rfl, hgs, hline⟩ := scan_split (falls_gap d (hstops _)) hscan
      obtain ⟨us, ts, rfl, hus, hitem⟩ := scan_split (falls_key hkey (hsolid.stops _)) hline
      obtain ⟨key', x, b₁, c₁, hx, hrest⟩ := readMembers_key hgs.gap hus hread
      have hplain : x.plain = i.plain := by
        obtain ⟨-, rest, -, rfl⟩ | ⟨-, rfl⟩ := hrest
        · exact (Prod.mk.inj (List.cons.inj hms).1).2
        · exact (Prod.mk.inj (List.cons.inj hms).1).2
      simp only [List.length_append] at hm
      have hclosed (more : List Char) : Closed (chars [mark ",", lineEnd] ++ more) := (closed_cons ..).mpr rfl
      obtain ⟨hterm, vs, ts, j, rfl, hcomma, hc₁⟩ := read_line hlegible hexact (hclosed _) hitem (by omega) hx hplain
      obtain ⟨_, ts, rfl, hsep, hbehind⟩ := scan_split (falls_separator _) hcomma
      simp only [spells_cons, spells_nil] at hsep
      obtain ⟨k₁, _, rfl, k₂, _, rfl, rfl⟩ := hsep
      obtain ⟨b', rfl⟩ := hc₁ (ends_mark (s := ",") (by rfl) (by decide) _)
      refine ⟨calm_gap d _, hcalm hterm, calm_separator _, ?_⟩
      obtain ⟨-, rest, hnext, rfl⟩ | ⟨hnot, -⟩ := hrest
      · rw [List.cons_append, List.cons_append, Cursor.skip_of_not (by rfl), Cursor.advance_cons,
          readMembers_of_isIgnorable (by rfl), List.nil_append] at hnext
        simp only [List.length_append, List.length_cons, List.length_nil] at hm
        exact ih (fun j hj => h j (by simp [hj])) hbehind (by omega) hnext (List.cons.inj hms).2
      · cases hnot

end

theorem exact_of_calm {t : JsonTerm} (h : ∀ depth rest, Calm (t.lexemes depth) rest) : Exact t :=
  fun depth _ _ _ rest _ _ _ _ _ _ _ _ _ => h depth rest

theorem exact_operand {t : JsonTerm} {kind : TokenKind} {text : String} (h : IsOperand kind text)
    (hl : ∀ depth, t.lexemes depth = pieces text) : Exact t := by
  refine exact_of_calm fun depth rest => calm_of_not_mem (fun hmem => ?_) rest
  rw [hl, pieces_operand h, List.mem_singleton] at hmem
  cases hmem
  rcases h.operand with h | h | h <;> cases h

theorem readWithin_array (m k₁ k₂ : Nat) (b ts : List Token) (n : Nat) :
    readWithin (m + 1) ⟨b, ⟨.punctuation, "[", k₁⟩ :: ⟨.newline, "\n", k₂⟩ :: ts, n⟩ = (do
      let (items, c) ← readItems m ⟨⟨.newline, "\n", k₂⟩ :: ⟨.punctuation, "[", k₁⟩ :: b, ts, n⟩
      return (.array items, c)) := by
  rw [← readItems_of_isIgnorable (t := ⟨.newline, "\n", k₂⟩) (by rfl)]
  simp [readWithin, Token.isIgnorable, Token.isPunct, Token.isOp, startsArithmetic, isOperand]

theorem readWithin_object (m k₁ k₂ : Nat) (b ts : List Token) (n : Nat) :
    readWithin (m + 1) ⟨b, ⟨.punctuation, "\x7b", k₁⟩ :: ⟨.newline, "\n", k₂⟩ :: ts, n⟩ = (do
      let (members, c) ← readMembers m ⟨⟨.newline, "\n", k₂⟩ :: ⟨.punctuation, "\x7b", k₁⟩ :: b, ts, n⟩
      return (.object members, c)) := by
  rw [← readMembers_of_isIgnorable (t := ⟨.newline, "\n", k₂⟩) (by rfl)]
  simp [readWithin, Token.isIgnorable, Token.isPunct, Token.isOp, startsArithmetic, isOperand]

theorem exact_array {items : List JsonTerm} (h : ∀ i ∈ items, i.Legible ∧ Exact i) : Exact (.array items) := by
  intro depth k m n rest b ts t' c hrest hscan hm hread hplain
  rw [lexemes] at hscan ⊢
  cases items with
  | nil => exact show Calm [mark "[", mark "]"] rest from calm_of_not_mem (by decide) rest
  | cons i is =>
    have hlines : (itemLexemes (depth + 1) (i :: is)).isEmpty = false := rfl
    rw [blockLexemes, hlines, if_neg (by simp)] at hscan ⊢
    simp only [chars_append, List.append_assoc, calm_append] at hscan ⊢
    obtain ⟨us, ts, rfl, hus, hitems⟩ := scan_split (show Falls [mark "[", lineEnd] _ from
      ⟨cuts_mark (by decide) _, cuts_lineEnd _, trivial⟩) hscan
    simp only [spells_cons, spells_nil] at hus
    obtain ⟨k₁, _, rfl, k₂, _, rfl, rfl⟩ := hus
    simp only [List.length_append, List.length_cons, List.length_nil] at hm
    obtain ⟨m, rfl⟩ := Nat.exists_eq_succ_of_ne_zero (show m ≠ 0 by omega)
    obtain ⟨xs, hxs, rfl⟩ := making_eq_ok.mp ((readWithin_array m k₁ k₂ b ts n).symm.trans hread)
    refine ⟨calm_of_not_mem (by decide) _, ?_, calm_of_not_mem (by decide) _, calm_gap _ _,
      calm_of_not_mem (by decide) _⟩
    have hmore : Closed (chars [lineEnd] ++ (chars (gap (4 * depth)) ++ (chars [mark "]"] ++ rest))) :=
      (closed_cons ..).mpr rfl
    exact calm_items (i :: is) h hmore hitems (by omega) hxs (array.inj hplain)

theorem exact_object {members : List (JsonKey × JsonTerm)}
    (h : ∀ i ∈ members, i.1.Legible ∧ i.2.Legible ∧ Exact i.2) : Exact (.object members) := by
  intro depth k m n rest b ts t' c hrest hscan hm hread hplain
  rw [lexemes] at hscan ⊢
  cases members with
  | nil => exact show Calm [mark "\x7b", mark "\x7d"] rest from calm_of_not_mem (by decide) rest
  | cons i is =>
    have hlines : (memberLexemes (depth + 1) (i :: is)).isEmpty = false := rfl
    rw [blockLexemes, hlines, if_neg (by simp)] at hscan ⊢
    simp only [chars_append, List.append_assoc, calm_append] at hscan ⊢
    obtain ⟨us, ts, rfl, hus, hmembers⟩ := scan_split (show Falls [mark "\x7b", lineEnd] _ from
      ⟨cuts_brace ((stops_cons ..).mpr (by decide)), cuts_lineEnd _, trivial⟩) hscan
    simp only [spells_cons, spells_nil] at hus
    obtain ⟨k₁, _, rfl, k₂, _, rfl, rfl⟩ := hus
    simp only [List.length_append, List.length_cons, List.length_nil] at hm
    obtain ⟨m, rfl⟩ := Nat.exists_eq_succ_of_ne_zero (show m ≠ 0 by omega)
    obtain ⟨ms, hms, rfl⟩ := making_eq_ok.mp ((readWithin_object m k₁ k₂ b ts n).symm.trans hread)
    refine ⟨calm_of_not_mem (by decide) _, ?_, calm_of_not_mem (by decide) _, calm_gap _ _,
      calm_of_not_mem (by decide) _⟩
    have hmore : Closed (chars [lineEnd] ++ (chars (gap (4 * depth)) ++ (chars [mark "\x7d"] ++ rest))) :=
      (closed_cons ..).mpr rfl
    exact calm_members (i :: is) h hmore hmembers (by omega) hms (object.inj hplain)

mutual

theorem exact (t : JsonTerm) (h : t.Legible) : Exact t := by
  cases t with
  | null => exact exact_of_calm fun _ rest => show Calm [word "null"] rest from calm_of_not_mem (by decide) rest
  | bool v =>
    have hword (w : String) (rest : List Char) : Calm [word w] rest := ⟨fun h => (by cases h), trivial⟩
    exact exact_of_calm fun _ rest => hword _ rest
  | number text =>
    rcases h with h | ⟨-, htext⟩
    · exact exact_operand h fun _ => rfl
    · exact exact_of_calm fun _ rest => calm_number htext rest
  | literal l =>
    refine exact_of_calm fun _ rest => calm_of_not_mem (fun hmem => ?_) rest
    exact lexeme_ne_slash l (List.mem_singleton.mp hmem).symm
  | reference text =>
    rcases h with h | ⟨h, -⟩
    · exact exact_operand h fun _ => rfl
    · exact exact_operand h fun _ => rfl
  | arithmetic text =>
    intro depth k m n rest b ts t' c hrest hscan _ hread hplain
    rw [lexemes, chars_pieces] at hscan
    exact calm_of_readWithin h.1 (hrest.stops (by decide)) hscan hread hplain
  | array items => exact exact_array (exactItems items h)
  | object members => exact exact_object (exactMembers members h)

theorem exactItems (items : List JsonTerm) (h : ItemsLegible items) : ∀ i ∈ items, i.Legible ∧ Exact i := by
  cases items with
  | nil => simp
  | cons t ts =>
    have ht := exact t h.1
    have hts := exactItems ts h.2
    simpa [h.1, ht] using hts

theorem exactMembers (members : List (JsonKey × JsonTerm)) (h : MembersLegible members) :
    ∀ i ∈ members, i.1.Legible ∧ i.2.Legible ∧ Exact i.2 := by
  cases members with
  | nil => simp
  | cons m ms =>
    obtain ⟨k, t⟩ := m
    have ht := exact t h.2.1
    have hms := exactMembers ms h.2.2
    simpa [h.1, h.2.1, ht] using hms

end

/-- Where a term is read as it is, no comment opens inside it. -/
theorem calm_of_read {t : JsonTerm} (h : t.Legible) {depth k n : Nat} {rest : List Char} (hrest : Closed rest)
    {ts : List Token} (hscan : scan k (chars (t.lexemes depth) ++ rest) = .ok ts) {b : List Token} {t' : JsonTerm}
    {c : Cursor} (hread : read ⟨b, ts, n⟩ = .ok (t', c)) (hplain : t'.plain = t.plain) :
    Calm (t.lexemes depth) rest :=
  exact t h depth k _ n rest b ts t' c hrest hscan (Nat.le_add_right ..) hread hplain

end JsonTerm
end RequestLang
