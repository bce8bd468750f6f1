import RequestLang.Proofs.Document.Clean
import RequestLang.Proofs.Document.Reread.Request

/-! Reading the lexemes of canonical texts back: imports, variables and the whole document. -/
namespace RequestLang
open Lexeme

section
attribute [local simp] mark op word quoted blank lineEnd Token.isIgnorable Token.isPunct Token.isOp
  Token.isString Token.isBlockComment

namespace VariableBody

/-- The one token of an argument, and what it is read as. -/
theorem spells_argument {value : String} (h : RequestLang.ReadsBare value) {us : List Token}
    (hus : Spells us (argumentLexemes value)) :
    ∃ t, us = [t] ∧ t.isIgnorable = false ∧ t.isPunct ")" = false ∧ t.isPunct "," = false ∧
      ((t.kind = .string ∧ t.literal.value = value) ∨
        ((t.kind = .number ∨ t.kind = .identifier ∨ t.kind = .placeholder) ∧ t.text = value)) := by
  unfold argumentLexemes at hus
  split at hus
  · rename_i hbare
    obtain ⟨kind, hkind⟩ := h hbare
    rw [JsonTerm.pieces_operand hkind] at hus
    obtain ⟨k, rfl⟩ := spells_singleton.mp hus
    have := hkind.operand
    refine ⟨_, rfl, ?_, ?_, ?_, .inr ⟨this, rfl⟩⟩ <;> rcases this with rfl | rfl | rfl <;> simp
  · obtain ⟨k, rfl⟩ := spells_singleton.mp hus
    exact ⟨_, rfl, rfl, rfl, rfl, .inl ⟨rfl, literal_quoted value k⟩⟩

theorem argumentsWithin_of_isIgnorable {t : Token} (ht : t.isIgnorable) (m : Nat) (b ts : List Token)
    (n : Nat) : argumentsWithin m ⟨b, t :: ts, n⟩ = argumentsWithin m ⟨t :: b, ts, n⟩ := by
  cases m with
  | zero => rfl
  | succ m => rw [argumentsWithin, argumentsWithin, Cursor.skip_cons, if_pos ht]

/-- One argument, and then the rest. -/
theorem argumentsWithin_cons {value : String} {t : Token} (ht : t.isIgnorable = false)
    (hpunct : t.isPunct ")" = false)
    (hvalue : (t.kind = .string ∧ t.literal.value = value) ∨
      ((t.kind = .number ∨ t.kind = .identifier ∨ t.kind = .placeholder) ∧ t.text = value))
    (m : Nat) (b ts : List Token) (n : Nat) :
    argumentsWithin (m + 1) ⟨b, t :: ts, n⟩ = (do
      let c := (⟨t :: b, ts, n⟩ : Cursor).skip
      let c := if c.isPunct "," then c.advance else c
      let (rest, c) ← argumentsWithin m c
      return (value :: rest, c)) := by
  rw [argumentsWithin, Cursor.skip_of_not ht]
  simp only [Cursor.token?_cons, hpunct, Bool.false_eq_true, if_false, Cursor.advance_cons]
  rcases hvalue with ⟨hk, rfl⟩ | ⟨hk | hk | hk, rfl⟩ <;> simp only [hk] <;> rfl

/-- Arguments up to the closing parenthesis. -/
theorem argumentsWithin_lexemes (args : List String) (hargs : ∀ a ∈ args, RequestLang.ReadsBare a) {m : Nat}
    (hm : args.length < m) {us : List Token}
    (hus : Spells us (List.intercalate [mark ",", blank 1] (args.map argumentLexemes) ++ [mark ")"]))
    (b ts : List Token) (n : Nat) :
    ∃ b', argumentsWithin m ⟨b, us ++ ts, n⟩ = .ok (args, ⟨b', ts, n⟩) := by
  induction args generalizing m b us with
  | nil =>
    obtain ⟨m, rfl⟩ := Nat.exists_eq_succ_of_ne_zero (Nat.ne_of_gt hm)
    obtain ⟨k, rfl⟩ := spells_singleton.mp hus
    simp [argumentsWithin]
  | cons a args ih =>
    obtain ⟨m, rfl⟩ := Nat.exists_eq_succ_of_ne_zero (Nat.ne_zero_of_lt hm)
    have hrest := fun x hx => hargs x (List.mem_cons_of_mem a hx)
    cases args with
    | nil =>
      rw [List.map_singleton, List.intercalate_singleton] at hus
      obtain ⟨us, vs, rfl, hus, hvs⟩ := spells_append.mp hus
      obtain ⟨t, rfl, ht, hclose, -, hvalue⟩ := spells_argument (hargs a (by simp)) hus
      obtain ⟨b', hb'⟩ := ih hrest (Nat.lt_of_succ_lt_succ hm) hvs (t :: b)
      obtain ⟨k, rfl⟩ := spells_singleton.mp hvs
      refine ⟨b', ?_⟩
      have hend : (⟨t :: b, ⟨.punctuation, ")", k⟩ :: ts, n⟩ : Cursor).isPunct "," = false := rfl
      have hclosing : (⟨.punctuation, ")", k⟩ : Token).isIgnorable = false := rfl
      simp only [mark, List.cons_append, List.nil_append] at hb' ⊢
      simp only [argumentsWithin_cons ht hclose hvalue, Cursor.skip_of_not hclosing, hend, Bool.false_eq_true,
        if_false, hb', ok_bind, pure_eq_ok]
    | cons a' args =>
      rw [List.map_cons, List.map_cons, List.intercalate_cons_cons, List.append_assoc, List.append_assoc,
        ← List.map_cons] at hus
      obtain ⟨_, _, rfl, hfirst, hmore⟩ := spells_append.mp hus
      obtain ⟨_, vs, rfl, hsep, hvs⟩ := spells_append.mp hmore
      simp only [spells_cons, spells_nil] at hsep
      obtain ⟨k₁, _, rfl, k₂, _, rfl, rfl⟩ := hsep
      obtain ⟨t, rfl, ht, hclose, -, hvalue⟩ := spells_argument (hargs a (by simp)) hfirst
      obtain ⟨b', hb'⟩ := ih hrest (Nat.lt_of_succ_lt_succ hm) hvs
        (⟨(blank 1).kind, (blank 1).text, k₂⟩ :: ⟨.punctuation, ",", k₁⟩ :: t :: b)
      refine ⟨b', ?_⟩
      have hcomma (ts : List Token) : (⟨t :: b, ⟨.punctuation, ",", k₁⟩ :: ts, n⟩ : Cursor).isPunct "," = true :=
        rfl
      have hsign : (⟨.punctuation, ",", k₁⟩ : Token).isIgnorable = false := rfl
      have hgap : (⟨(blank 1).kind, (blank 1).text, k₂⟩ : Token).isIgnorable := rfl
      simp only [mark, List.cons_append, List.nil_append] at hb' ⊢
      simp only [argumentsWithin_cons ht hclose hvalue, Cursor.skip_of_not hsign, hcomma, if_true,
        Cursor.advance_cons]
      rw [argumentsWithin_of_isIgnorable (t := ⟨(blank 1).kind, (blank 1).text, k₂⟩) hgap]
      simp only [hb', ok_bind, pure_eq_ok]

/-- The tokens open neither a call nor a template. -/
def OpensTerm (ts : List Token) : Prop :=
  ∃ t us, ts = t :: us ∧ (t.kind = .identifier → ∀ u ∈ us.head?, u.isPunct "(" = false ∧ u.isString = false)

theorem opensTerm_of_arithmetic {ls : List Lexeme} (hopens : JsonTerm.opensArithmetic ls) {us : List Token}
    (hus : Spells us ls) (ts : List Token) : OpensTerm (us ++ ts) := by
  cases ls with
  | nil => cases hopens
  | cons l ls =>
    obtain ⟨k, vs, rfl, hvs⟩ := spells_cons.mp hus
    refine ⟨_, vs ++ ts, rfl, fun hk u hu => ?_⟩
    have hnext : ((ls.find? (!·.isIgnorable)).map (JsonTerm.isArithmetic ·.token)).getD false := by
      simp only [JsonTerm.opensArithmetic, Lexeme.token, show l.kind = .identifier from hk, Token.isPunct,
        Token.isOp, Bool.or_eq_true, Bool.and_eq_true] at hopens
      exact (hopens.resolve_left (by simp)).2
    cases ls with
    | nil => cases hnext
    | cons l' ls =>
      obtain ⟨k', vs, rfl, -⟩ := spells_cons.mp hvs
      obtain rfl : ⟨l'.kind, l'.text, k'⟩ = u := Option.some.inj hu
      by_cases hgap : l'.isIgnorable
      · have : (l'.kind = .whitespace ∨ l'.kind = .newline) ∨ l'.kind = .comment := by
          simpa [Lexeme.isIgnorable, Lexeme.token] using hgap
        rcases this with (h | h) | h <;> simp [h]
      · have harith : JsonTerm.isArithmetic l'.token := by
          simpa [List.find?_cons, hgap] using hnext
        have : l'.kind = .operator := by
          simp only [JsonTerm.isArithmetic, Bool.and_eq_true, beq_iff_eq] at harith
          exact harith.1
        simp [this]

theorem opensTerm_of_single {l : Lexeme} {us : List Token} (hus : Spells us [l]) {ts : List Token}
    (hts : ∀ u ∈ ts.head?, u.isPunct ";") : OpensTerm (us ++ ts) := by
  obtain ⟨k, rfl⟩ := spells_singleton.mp hus
  refine ⟨_, ts, rfl, fun _ v hv => ?_⟩
  have := hts v hv
  simp only [Token.isPunct, Bool.and_eq_true, beq_iff_eq] at this
  simp [this]

theorem opensTerm_of_bracket {opening closing : String} {depth : Nat} {lines : List (List Lexeme)}
    {us : List Token} (hus : Spells us (JsonTerm.blockLexemes opening closing depth lines)) (ts : List Token) :
    OpensTerm (us ++ ts) := by
  unfold JsonTerm.blockLexemes at hus
  split at hus
  · obtain ⟨k, us, rfl, -⟩ := spells_cons.mp hus
    exact ⟨_, us ++ ts, rfl, fun hk => by simp at hk⟩
  · simp only [List.append_assoc, List.cons_append] at hus
    obtain ⟨k, us, rfl, -⟩ := spells_cons.mp hus
    exact ⟨_, us ++ ts, rfl, fun hk => by simp at hk⟩

theorem opensTerm_lexemes {t : JsonTerm} (h : t.Legible) {depth : Nat} {us : List Token}
    (hus : Spells us (t.lexemes depth)) {ts : List Token} (hts : ∀ u ∈ ts.head?, u.isPunct ";") :
    OpensTerm (us ++ ts) := by
  have hoperand {kind : TokenKind} {text : String} (h : IsOperand kind text) (hus : Spells us (pieces text)) :
      OpensTerm (us ++ ts) := by
    rw [JsonTerm.pieces_operand h] at hus
    exact opensTerm_of_single hus hts
  cases t with
  | null | bool | literal => exact opensTerm_of_single hus hts
  | number text =>
    rcases h with h | ⟨h, -⟩
    · exact hoperand h hus
    · exact opensTerm_of_arithmetic h.opens hus ts
  | reference text =>
    rcases h with h | ⟨h, -⟩
    · exact hoperand h hus
    · exact hoperand h hus
  | arithmetic text => exact opensTerm_of_arithmetic h.1.opens hus ts
  | array items => exact opensTerm_of_bracket hus ts
  | object members => exact opensTerm_of_bracket hus ts

theorem read_eq_value {t : Token} {ts : List Token}
    (h : t.kind = .identifier → ∀ u ∈ ts.head?, u.isPunct "(" = false ∧ u.isString = false) (b : List Token)
    (n : Nat) : read ⟨b, t :: ts, n⟩ = (do
      let (term, c) ← JsonTerm.read ⟨b, t :: ts, n⟩
      return (.value term, c)) := by
  cases ts with
  | nil => simp [read, Cursor.next?]
  | cons u us =>
    have hcall : ¬(t.kind = .identifier ∧ t.text.startsWith "$" ∧ u.isPunct "(") := by
      rintro ⟨hk, -, hu⟩
      rw [(h hk u rfl).1] at hu
      cases hu
    have htemplate : ¬(t.kind = .identifier ∧ t.text = "p" ∧ u.isString) := by
      rintro ⟨hk, -, hu⟩
      rw [(h hk u rfl).2] at hu
      cases hu
    simp only [read, Cursor.token?_cons, Cursor.next?_cons, List.head?_cons, Option.map_some, Option.getD_some,
      hcall, htemplate, if_false, pure_eq_ok]

/-- The text of a variable is read back. -/
theorem read_lexemes {x : VariableBody} (h : x.Legible) (hbare : x.ReadsBare) {us : List Token}
    (hus : Spells us x.lexemes) (b ts : List Token) (k n : Nat) :
    ∃ x' b', read ⟨b, us ++ ⟨.punctuation, ";", k⟩ :: ts, n⟩ =
      .ok (x', ⟨b', ⟨.punctuation, ";", k⟩ :: ts, n⟩) ∧ x'.plain = x.plain := by
  cases x with
  | value term =>
    have hends : JsonTerm.Ends (⟨.punctuation, ";", k⟩ :: ts) :=
      JsonTerm.ends_mark (c := ⟨.punctuation, ";", k⟩) (s := ";") (by rfl) (by decide) ts
    obtain ⟨t', b', hread, hplain⟩ := JsonTerm.read_lexemes h hus hends b n
    obtain ⟨t, us', heq, hquiet⟩ := @opensTerm_lexemes _ h _ _ hus (⟨.punctuation, ";", k⟩ :: ts)
      (fun u hu => by obtain rfl := Option.some.inj hu; rfl)
    refine ⟨.value t', b', ?_, congrArg VariableBody.value hplain⟩
    rw [heq] at hread ⊢
    rw [read_eq_value hquiet, hread]
    rfl
  | call function args =>
    rw [lexemes, Lexeme.call, List.cons_append, List.cons_append, spells_cons] at hus
    obtain ⟨k₁, _, rfl, hrest⟩ := hus
    obtain ⟨k₂, us, rfl, hargs⟩ := spells_cons.mp hrest
    have hlength : args.length < (us ++ ⟨.punctuation, ";", k⟩ :: ts).length + 1 := by
      have hne : ∀ x ∈ args.map argumentLexemes, x ≠ [] := by
        intro x hx
        obtain ⟨a, ha, rfl⟩ := List.mem_map.mp hx
        obtain ⟨t, ht, -⟩ := spells_argument (hbare a ha) (spells_lay 0 (argumentLexemes a))
        rintro hnil
        rw [hnil] at ht
        cases ht
      have := length_le_intercalate [mark ",", blank 1] hne
      rw [List.length_map] at this
      rw [List.length_append, hargs.length, List.length_append]
      omega
    obtain ⟨b', hb'⟩ := argumentsWithin_lexemes args hbare hlength hargs
      (⟨.punctuation, "(", k₂⟩ :: ⟨.identifier, "$" ++ function, k₁⟩ :: b) (⟨.punctuation, ";", k⟩ :: ts) n
    refine ⟨.call function args, b', ?_, rfl⟩
    simp [read] at hb' ⊢
    simp [hb']
  | template text =>
    simp only [lexemes, spells_cons, spells_nil] at hus
    obtain ⟨k₁, _, rfl, k₂, _, rfl, rfl⟩ := hus
    refine ⟨.template text, ⟨.string, quoteText text, k₂⟩ :: ⟨.identifier, "p", k₁⟩ :: b, ?_, rfl⟩
    simp [read, literal_quoted]

end VariableBody

theorem VariableBody.opens_lexemes {x : VariableBody} (h : x.Legible) :
    ∃ l ls, x.lexemes = l :: ls ∧ l.isIgnorable = false := by
  cases x with
  | value term =>
    obtain ⟨l, ls, hl, hgap, -⟩ := JsonTerm.opens_lexemes h 0
    exact ⟨l, ls, hl, hgap⟩
  | call function args => exact ⟨_, _, rfl, rfl⟩
  | template text => exact ⟨_, _, rfl, rfl⟩

theorem Import.read_lexemes (x : Import) {us : List Token} (hus : Spells us x.lexemes) (b ts : List Token)
    (n : Nat) :
    ∃ t us', us = t :: us' ∧ t.isKeyword "import" ∧ ∃ x' b' j k, Import.read ⟨b, us ++ ts, n⟩ =
      .ok (x', ⟨⟨.punctuation, ";", j⟩ :: b', ⟨.newline, "\n", k⟩ :: ts, n⟩) ∧ x'.plain = x.plain := by
  simp only [lexemes, spells_cons, spells_nil] at hus
  obtain ⟨k₁, _, rfl, k₂, _, rfl, k₃, _, rfl, k₄, _, rfl, k₅, _, rfl, rfl⟩ := hus
  refine ⟨_, _, rfl, rfl, ?_⟩
  simp [Import.read, plain]

theorem Variable.read_lexemes {x : Variable} (h : x.Legible) (hbare : x.body.ReadsBare) {us : List Token}
    (hus : Spells us x.lexemes) (b ts : List Token) (n : Nat) :
    ∃ t us', us = t :: us' ∧ t.isKeyword "var" ∧ ∃ x' b' j k, Variable.read ⟨b, us ++ ts, n⟩ =
      .ok (x', ⟨⟨.punctuation, ";", j⟩ :: b', ⟨.newline, "\n", k⟩ :: ts, n⟩) ∧ x'.plain = x.plain := by
  obtain ⟨_, ws, rfl, hfront, hend⟩ := spells_append.mp hus
  obtain ⟨_, vs, rfl, hhead, hbody⟩ := spells_append.mp hfront
  simp only [spells_cons, spells_nil] at hhead hend
  obtain ⟨k₁, _, rfl, k₂, _, rfl, k₃, _, rfl, k₄, _, rfl, k₅, _, rfl, k₆, _, rfl, rfl⟩ := hhead
  obtain ⟨j, _, rfl, k, _, rfl, rfl⟩ := hend
  refine ⟨_, _, rfl, rfl, ?_⟩
  obtain ⟨body, b', hread, hplain⟩ := VariableBody.read_lexemes h.body hbare hbody
    (⟨.whitespace, " ", k₆⟩ :: ⟨.operator, "=", k₅⟩ :: ⟨.whitespace, " ", k₄⟩ :: ⟨.identifier, x.name, k₃⟩ ::
      ⟨.whitespace, " ", k₂⟩ :: ⟨.keyword, "var", k₁⟩ :: b) (⟨.newline, "\n", k⟩ :: ts) j n
  obtain ⟨l, ls, hl, hgap⟩ := VariableBody.opens_lexemes h.body
  obtain ⟨i, vs, rfl, -⟩ := spells_cons.mp (hl ▸ hbody)
  have hskip (b ts : List Token) : (⟨b, ⟨l.kind, l.text, i⟩ :: ts, n⟩ : Cursor).skip =
      ⟨b, ⟨l.kind, l.text, i⟩ :: ts, n⟩ :=
    Cursor.skip_of_not (show (⟨l.kind, l.text, i⟩ : Token).isIgnorable = false from hgap) b ts n
  have hname : x.name.startsWith "$" = false := by
    obtain ⟨c, cs, hc, hstart, -⟩ := Lexer.cons_of_isHeaded h.name
    have : c ≠ '$' := by
      rintro rfl
      revert hstart
      decide
    simp [String.startsWith_string_eq_false_iff, hc, this.symm]
  simp only [List.append_assoc, List.cons_append, List.nil_append, mark, lineEnd] at hread ⊢
  simp [Variable.read, hname, Cursor.expect, hskip, hread, Cursor.expectPunct, plain, hplain]

namespace Document

open Request (Quiet quiet_nil quiet_statement)

theorem readWithin_congr {c c' : Cursor} (h : c.skip = c'.skip) (source : Option String) (m : Nat)
    (doc : Document) : readWithin source m doc c = readWithin source m doc c' := by
  cases m with
  | zero => rfl
  | succ m => simp only [readWithin, h]

/-- Parts of one sort are read back one after another. -/
theorem readWithin_flatMap {α β : Type} {source : Option String} {f : α → List Lexeme} {g g' : α → β}
    (put : Document → List α → Document) (P : List Token → Prop) {n : Nat} (xs : List α)
    (hnil : ∀ doc, put doc [] = doc) (hcons : ∀ doc x xs, put (put doc [x]) xs = put doc (x :: xs))
    (hfollow : ∀ x us ts, Spells us (f x) → P ts → P (us ++ ts))
    (hstep : ∀ x ∈ xs, ∀ doc m b us ts, Quiet b → Spells us (f x) → P ts → ∃ x' b',
      readWithin source (m + 1) doc ⟨b, us ++ ts, n⟩ = readWithin source m (put doc [x']) ⟨b', ts, n⟩ ∧
        Quiet b' ∧ g x' = g' x)
    (doc : Document) (m : Nat) {b us ts : List Token} (hb : Quiet b) (hus : Spells us (xs.flatMap f))
    (hts : P ts) :
    ∃ xs' b', readWithin source (m + xs.length) doc ⟨b, us ++ ts, n⟩ =
        readWithin source m (put doc xs') ⟨b', ts, n⟩ ∧ Quiet b' ∧ xs'.map g = xs.map g' := by
  have hall (xs : List α) {us : List Token} (hus : Spells us (xs.flatMap f)) : P (us ++ ts) := by
    induction xs generalizing us with
    | nil => rwa [spells_nil.mp hus]
    | cons x xs ih =>
      rw [List.flatMap_cons] at hus
      obtain ⟨us, vs, rfl, hx, hxs⟩ := spells_append.mp hus
      rw [List.append_assoc]
      exact hfollow x us _ hx (ih hxs)
  induction xs generalizing doc b us with
  | nil =>
    refine ⟨[], b, ?_, hb, rfl⟩
    rw [spells_nil.mp hus, hnil]
    rfl
  | cons x xs ih =>
    rw [List.flatMap_cons] at hus
    obtain ⟨us, vs, rfl, hx, hxs⟩ := spells_append.mp hus
    obtain ⟨x', b₁, hread, hb₁, hx'⟩ := hstep x (by simp) doc (m + xs.length) b us (vs ++ ts) hb hx (hall xs hxs)
    obtain ⟨xs', b₂, hreads, hb₂, hxs'⟩ := ih (fun y hy => hstep y (by simp [hy])) (put doc [x']) hb₁ hxs
    refine ⟨x' :: xs', b₂, ?_, hb₂, by rw [List.map_cons, List.map_cons, hx', hxs']⟩
    rw [List.append_assoc, List.length_cons, ← Nat.add_assoc, hread, hreads, hcons]

/-- What is read back from the canonical text of a document. -/
def reread (d : Document) : Document := { d with requests := d.requests.map Request.reread }

theorem readWithin_line (source : Option String) (m : Nat) (doc : Document) (b ts : List Token) (k n : Nat) :
    readWithin source m doc ⟨b, ⟨.newline, "\n", k⟩ :: ts, n⟩ =
      readWithin source m doc ⟨⟨.newline, "\n", k⟩ :: b, ts, n⟩ :=
  readWithin_congr (by rw [Cursor.skip_cons, if_pos (by rfl)]) source m doc

theorem readWithin_imports (source : Option String) (xs : List Import) (doc : Document) (m n : Nat)
    {b us : List Token} (ts : List Token) (hb : Quiet b) (hus : Spells us (xs.flatMap Import.lexemes)) :
    ∃ xs' b', readWithin source (m + xs.length) doc ⟨b, us ++ ts, n⟩ =
        readWithin source m { doc with imports := doc.imports ++ xs' } ⟨b', ts, n⟩ ∧ Quiet b' ∧
      xs'.map Import.plain = xs.map Import.plain := by
  refine readWithin_flatMap (fun doc xs => { doc with imports := doc.imports ++ xs }) (fun _ => True) xs
    (fun _ => ?_) (fun _ _ _ => ?_) (fun _ _ _ _ _ => trivial) (fun x _ doc m b us ts _ hus _ => ?_) doc m hb hus
    trivial
  · rw [List.append_nil]
  · rw [List.append_assoc, List.singleton_append]
  · obtain ⟨t, us', heq, hkey, x', b', j, k, hread, hplain⟩ := x.read_lexemes hus b ts n
    have hskip : t.isIgnorable = false := by
      simp only [Token.isKeyword, Bool.and_eq_true, beq_iff_eq] at hkey
      simp [hkey]
    refine ⟨x', _, ?_, quiet_statement b' j k, hplain⟩
    rw [heq, List.cons_append] at hread ⊢
    rw [readWithin, Cursor.skip_of_not hskip]
    simp only [Cursor.token?_cons, Cursor.isKeyword_cons, hkey, if_true, hread, ok_bind]
    rw [readWithin_line]

theorem readWithin_vars (source : Option String) {xs : List Variable} (h : ∀ x ∈ xs, x.Legible)
    (hbare : ∀ x ∈ xs, x.body.ReadsBare) (doc : Document) (m n : Nat) {b us : List Token} (ts : List Token)
    (hb : Quiet b) (hus : Spells us (xs.flatMap Variable.lexemes)) :
    ∃ xs' b', readWithin source (m + xs.length) doc ⟨b, us ++ ts, n⟩ =
        readWithin source m { doc with vars := doc.vars ++ xs' } ⟨b', ts, n⟩ ∧ Quiet b' ∧
      xs'.map Variable.plain = xs.map Variable.plain := by
  refine readWithin_flatMap (fun doc xs => { doc with vars := doc.vars ++ xs }) (fun _ => True) xs
    (fun _ => ?_) (fun _ _ _ => ?_) (fun _ _ _ _ _ => trivial) (fun x hx doc m b us ts _ hus _ => ?_) doc m hb
    hus trivial
  · rw [List.append_nil]
  · rw [List.append_assoc, List.singleton_append]
  · obtain ⟨t, us', heq, hkey, x', b', j, k, hread, hplain⟩ :=
      Variable.read_lexemes (h x hx) (hbare x hx) hus b ts n
    have hvar : t.isKeyword "import" = false ∧ t.isIgnorable = false := by
      simp only [Token.isKeyword, Bool.and_eq_true, beq_iff_eq] at hkey
      simp [Token.isKeyword, hkey]
    refine ⟨x', _, ?_, quiet_statement b' j k, hplain⟩
    rw [heq, List.cons_append] at hread ⊢
    rw [readWithin, Cursor.skip_of_not hvar.2]
    simp only [Cursor.token?_cons, Cursor.isKeyword_cons, hvar.1, Bool.false_eq_true, if_false, hkey, if_true,
      hread, ok_bind]
    rw [readWithin_line]

theorem readWithin_requests (source : Option String) {xs : List Request} (h : ∀ x ∈ xs, x.Legible)
    (doc : Document) (m n : Nat) {b us ts : List Token} (hb : Quiet b)
    (hus : Spells us (xs.flatMap Request.lexemes)) (hts : Request.Follows ts) :
    ∃ xs' b', readWithin source (m + xs.length) doc ⟨b, us ++ ts, n⟩ =
        readWithin source m { doc with requests := doc.requests ++ xs' } ⟨b', ts, n⟩ ∧ Quiet b' ∧
      xs'.map Request.plain = xs.map fun x => x.reread.plain := by
  refine readWithin_flatMap (fun doc xs => { doc with requests := doc.requests ++ xs }) Request.Follows xs
    (fun _ => ?_) (fun _ _ _ => ?_) (fun x _ _ hus hts => x.follows_lexemes hus hts)
    (fun x hx doc m b us ts hb hus hts => ?_) doc m hb hus hts
  · rw [List.append_nil]
  · rw [List.append_assoc, List.singleton_append]
  · obtain ⟨t, c, r', c', b', hc, htoken, hkind, hstarts, hread, hskip, hquiet, hplain⟩ :=
      Request.read_lexemes (h x hx) source hus hb hts n
    have hkey (s : String) : c.isKeyword s = false := by
      simp [Cursor.isKeyword, htoken, Token.isKeyword, hkind]
    refine ⟨r', b', ?_, hquiet, hplain⟩
    rw [readWithin, hc]
    simp only [htoken, hkey, Bool.false_eq_true, if_false, hstarts, if_true, hread, ok_bind]
    exact readWithin_congr hskip source m _

/-- The lexemes of a document are read back as what it says, but for comments and scripts. -/
theorem readWithin_lexemes {d : Document} (h : d.Legible) (hbare : d.ReadsBare) (source : Option String)
    {us : List Token} (hus : Spells us d.lexemes) {m : Nat}
    (hm : d.imports.length + d.vars.length + d.requests.length < m) (n : Nat) :
    ∃ d', readWithin source m {} ⟨[], us, n⟩ = .ok d' ∧ d'.plain = d.reread.plain := by
  obtain ⟨m, rfl⟩ : ∃ k, m = k + 1 + d.requests.length + d.vars.length + d.imports.length :=
    ⟨m - 1 - d.requests.length - d.vars.length - d.imports.length, by omega⟩
  obtain ⟨_, rs, rfl, hfront, hrs⟩ := spells_append.mp hus
  obtain ⟨_, gs, rfl, hhead, hgs⟩ := spells_append.mp hfront
  obtain ⟨is, vs, rfl, his, hvs⟩ := spells_append.mp hhead
  obtain ⟨is', b₁, hread₁, hb₁, hplain₁⟩ := readWithin_imports source d.imports {}
    (m + 1 + d.requests.length + d.vars.length) n (vs ++ (gs ++ rs)) quiet_nil his
  obtain ⟨vs', b₂, hread₂, hb₂, hplain₂⟩ := readWithin_vars source h.vars hbare
    { imports := [] ++ is' } (m + 1 + d.requests.length) n (gs ++ rs) hb₁ hvs
  obtain ⟨b₃, hread₃, hb₃⟩ : ∃ b₃, (∀ doc, readWithin source (m + 1 + d.requests.length) doc ⟨b₂, gs ++ rs, n⟩ =
      readWithin source (m + 1 + d.requests.length) doc ⟨b₃, rs, n⟩) ∧ Quiet b₃ := by
    split at hgs
    · obtain rfl := spells_nil.mp hgs
      exact ⟨b₂, fun _ => rfl, hb₂⟩
    · obtain ⟨k, rfl⟩ := spells_singleton.mp hgs
      exact ⟨_, fun doc => readWithin_line .., hb₂.line k⟩
  obtain ⟨rs', b₄, hread₄, -, hplain₄⟩ := readWithin_requests source h.requests
    { imports := [] ++ is', vars := [] ++ vs' } (m + 1) n hb₃ hrs Request.follows_nil
  refine ⟨{ imports := [] ++ is', vars := [] ++ vs', requests := [] ++ rs' }, ?_, ?_⟩
  · rw [List.append_assoc, List.append_assoc, hread₁, hread₂, hread₃, ← List.append_nil rs, hread₄]
    rfl
  · simp only [plain, reread, List.nil_append, hplain₁, hplain₂, hplain₄, List.map_map]
    rfl

theorem length_le_flatMap {α : Type} {f : α → List Lexeme} (h : ∀ x, f x ≠ []) (xs : List α) :
    xs.length ≤ (xs.flatMap f).length := by
  induction xs with
  | nil => exact Nat.zero_le _
  | cons x xs ih =>
    have := List.length_pos_iff.mpr (h x)
    rw [List.length_cons, List.flatMap_cons, List.length_append]
    omega

/-- The canonical text is accepted, and read as what the document says but for comments and scripts. -/
theorem parse_written {d : Document} (h : d.Legible) (hbare : d.ReadsBare) (hcalm : Calm d.lexemes [])
    (source : Option String) : ∃ d', parse d.written source = .ok d' ∧ d'.plain = d.reread.plain := by
  have htokens := tokenize_of_falls (d.falls_lexemes h hbare hcalm) d.chars_lexemes
  have hsame : Text.normalizeLineEndings d.written = d.written := by
    have hclean := Document.clean h hbare
    rw [Clean, chars_lexemes] at hclean
    rw [Text.normalizeLineEndings, Text.normalizeChars_eq_self hclean, String.ofList_toList]
  have hlength : d.imports.length + d.vars.length + d.requests.length < (lay 0 d.lexemes).length + 1 := by
    have himports := length_le_flatMap (f := Import.lexemes) (fun _ => by simp [Import.lexemes]) d.imports
    have hvars := length_le_flatMap (f := Variable.lexemes) (fun _ => by simp [Variable.lexemes]) d.vars
    have hrequests := length_le_flatMap (f := Request.lexemes) (fun _ => by simp [Request.lexemes]) d.requests
    rw [length_lay, lexemes, headLexemes, List.length_append, List.length_append, List.length_append]
    omega
  obtain ⟨d', hread, hplain⟩ := readWithin_lexemes h hbare source (spells_lay 0 d.lexemes) hlength
    (Text.byteSize d.written.toList)
  refine ⟨d', ?_, hplain⟩
  simp only [parse, hsame, htokens, ofTokens, Cursor.ofTokens, hread]

end Document

end

end RequestLang
