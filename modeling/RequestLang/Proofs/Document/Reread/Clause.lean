import RequestLang.Document.Reader
import RequestLang.Proofs.Document.Reread.Term

/-! Reading the lexemes of canonical texts back: payloads. -/
namespace RequestLang
open Lexeme

namespace PayloadTerm

def requoted : PayloadTerm → PayloadTerm
  | .raw chunks mime => .raw (chunks.map Literal.requoted) mime
  | .form term => .form term.requoted
  | .json term => .json term.requoted
  | .file path mime => .file path mime
  | .multipart parts => .multipart parts

theorem plain_requoted {p : PayloadTerm} (h : p.Legible) : p.requoted.plain = p.plain := by
  cases p with
  | raw chunks mime =>
    have hchunks : (chunks.map Literal.requoted).map Literal.plain = chunks.map Literal.plain := by
      rw [List.map_map]
      exact List.map_congr_left fun l hl => Literal.plain_requoted (h.2 l hl)
    rw [requoted, plain, plain, hchunks]
  | form term => exact congrArg PayloadTerm.form (term.plain_requoted h)
  | json term => exact congrArg PayloadTerm.json (term.plain_requoted h)
  | file | multipart => rfl

section
attribute [local simp] mark op word quoted blank lineEnd Token.isIgnorable Token.isPunct Token.isOp
  Token.isString Token.isBlockComment

/-- Chunks one after another before a mark. -/
theorem chunksWithin_lexemes {chunks : List Literal} {m : Nat}
    (hm : chunks.length < m) {us : List Token}
    (hus : Spells us (List.intercalate [blank 1] (chunks.map fun l => [l.lexeme]))) {t : Token}
    {s : String} (ht : t.isPunct s) (b ts : List Token) (n : Nat) :
    ∃ b', chunksWithin m ⟨b, us ++ t :: ts, n⟩ = (chunks.map Literal.requoted, ⟨b', t :: ts, n⟩) := by
  have hgap := JsonTerm.isIgnorable_of_isPunct ht
  have hstring : t.isString = false := by
    simp only [Token.isPunct, Bool.and_eq_true, beq_iff_eq] at ht
    simp [ht.1]
  have hstop (m : Nat) (b : List Token) :
      chunksWithin (m + 1) ⟨b, t :: ts, n⟩ = ([], ⟨b, t :: ts, n⟩) := by
    rw [chunksWithin, Cursor.skip_of_not hgap]
    simp only [Cursor.token?_cons, hstring]
    rfl
  induction chunks generalizing m us b with
  | nil =>
    obtain ⟨m, rfl⟩ := Nat.exists_eq_succ_of_ne_zero (Nat.ne_of_gt hm)
    obtain rfl := spells_nil.mp hus
    exact ⟨b, hstop m b⟩
  | cons l ls ih =>
    obtain ⟨m, rfl⟩ := Nat.exists_eq_succ_of_ne_zero (Nat.ne_zero_of_lt hm)
    have hm' : ls.length < m := Nat.lt_of_succ_lt_succ hm
    have hread (k : Nat) (b vs : List Token) :
        chunksWithin (m + 1) ⟨b, ⟨l.lexeme.kind, l.lexeme.text, k⟩ :: vs, n⟩ =
          (l.requoted ::
              (chunksWithin m ⟨⟨l.lexeme.kind, l.lexeme.text, k⟩ :: b, vs, n⟩).1,
            (chunksWithin m ⟨⟨l.lexeme.kind, l.lexeme.text, k⟩ :: b, vs, n⟩).2) := by
      have hliteral : (⟨l.lexeme.kind, l.lexeme.text, k⟩ : Token).literal = l.requoted := rfl
      rcases l.isString_lexeme with hk | hk <;> rw [hk, Literal.text_lexeme] at hliteral <;>
        simp [chunksWithin, hk, hliteral]
    cases ls with
    | nil =>
      obtain ⟨k, rfl⟩ := spells_singleton.mp hus
      obtain ⟨m, rfl⟩ := Nat.exists_eq_succ_of_ne_zero (Nat.ne_of_gt hm')
      exact ⟨_, by rw [List.singleton_append, hread, hstop]; rfl⟩
    | cons l' ls =>
      simp only [List.map_cons, List.intercalate_cons_cons, List.cons_append,
        List.nil_append, spells_cons] at hus ih
      obtain ⟨k₁, _, rfl, k₂, us, rfl, hus⟩ := hus
      obtain ⟨b', hchunks⟩ := ih hm' hus
        (⟨.whitespace, " ", k₂⟩ :: ⟨l.lexeme.kind, l.lexeme.text, k₁⟩ :: b)
      have hskip : chunksWithin m ⟨⟨l.lexeme.kind, l.lexeme.text, k₁⟩ :: b,
          ⟨.whitespace, " ", k₂⟩ :: (us ++ t :: ts), n⟩ =
            ((l' :: ls).map Literal.requoted, ⟨b', t :: ts, n⟩) := by
        rw [List.map_cons, ← hchunks]
        cases m with
        | zero => cases hm'
        | succ m => rw [chunksWithin, chunksWithin, Cursor.skip_cons, if_pos (by rfl)]
      refine ⟨b', ?_⟩
      rw [List.cons_append, hread, List.cons_append]
      exact congrArg (fun x => (_ :: x.1, x.2)) hskip

theorem readMime_some (separator mime : String) (b ts : List Token) (i j k n : Nat) :
    ∃ b', readMime separator ⟨b, ⟨.punctuation, separator, i⟩ :: ⟨.whitespace, " ", j⟩ ::
      ⟨.string, quoteText mime, k⟩ :: ts, n⟩ = .ok (some mime, ⟨b', ts, n⟩) := by
  simp [readMime]

theorem readMime_none {separator s : String} {t : Token} (ht : t.isPunct s) (hs : s ≠ separator)
    (b ts : List Token) (n : Nat) :
    readMime separator ⟨b, t :: ts, n⟩ = .ok (none, ⟨b, t :: ts, n⟩) := by
  obtain ⟨kind, text, k⟩ := t
  simp only [Token.isPunct, Bool.and_eq_true, beq_iff_eq] at ht
  obtain ⟨rfl, rfl⟩ := ht
  simp [readMime, hs]

/-- A media type as a last argument, and the closing parenthesis. -/
theorem readMime_lexemes (mime : Option String) {us : List Token}
    (hus : Spells us ((mime.map fun m => [mark ",", blank 1, quoted m]).getD [])) {t : Token}
    (ht : t.isPunct ")") (b ts : List Token) (n : Nat) :
    ∃ b', readMime "," ⟨b, us ++ t :: ts, n⟩ = .ok (mime, ⟨b', t :: ts, n⟩) := by
  cases mime with
  | none =>
    obtain rfl := spells_nil.mp hus
    exact ⟨b, readMime_none ht (by decide) b ts n⟩
  | some m =>
    simp only [Option.map_some, Option.getD_some, spells_cons, spells_nil] at hus
    obtain ⟨i, _, rfl, j, _, rfl, k, _, rfl, rfl⟩ := hus
    exact readMime_some "," m b (t :: ts) i j k n

theorem intercalate_mimeLexemes (x : List Lexeme) (mime : Option String) :
    List.intercalate [mark ",", blank 1] (x :: mimeLexemes mime) =
      x ++ (mime.map fun m => [mark ",", blank 1, quoted m]).getD [] := by
  cases mime <;> simp [mimeLexemes]

theorem partsWithin_of_isIgnorable {t : Token} (ht : t.isIgnorable) {m : Nat} (hm : 0 < m)
    (b ts : List Token) (n : Nat) : partsWithin m ⟨b, t :: ts, n⟩ = partsWithin m ⟨t :: b, ts, n⟩ := by
  cases m with
  | zero => cases hm
  | succ m => rw [partsWithin, partsWithin, Cursor.skip_cons, if_pos ht]

/-- Parts up to the closing parenthesis. -/
theorem partsWithin_lexemes (parts : List PartTerm) {m : Nat} (hm : parts.length < m) {us : List Token}
    (hus : Spells us (parts.flatMap PartTerm.lexemes)) {t : Token} (ht : t.isPunct ")")
    (b ts : List Token) (n : Nat) :
    ∃ b', partsWithin m ⟨b, us ++ t :: ts, n⟩ = .ok (parts, ⟨b', t :: ts, n⟩) := by
  induction parts generalizing m us b with
  | nil =>
    obtain ⟨m, rfl⟩ := Nat.exists_eq_succ_of_ne_zero (Nat.ne_of_gt hm)
    obtain rfl := spells_nil.mp hus
    refine ⟨b, ?_⟩
    rw [List.nil_append, partsWithin, Cursor.skip_of_not (JsonTerm.isIgnorable_of_isPunct ht)]
    simp [-Token.isPunct, ht]
  | cons p ps ih =>
    obtain ⟨m, rfl⟩ := Nat.exists_eq_succ_of_ne_zero (Nat.ne_zero_of_lt hm)
    have hm' : ps.length < m := Nat.lt_of_succ_lt_succ hm
    have hpos : 0 < m := Nat.lt_of_le_of_lt (Nat.zero_le _) hm'
    obtain ⟨name, source, mime⟩ := p
    cases mime with
    | none =>
      simp only [List.flatMap_cons, PartTerm.lexemes, List.append_nil, List.cons_append, List.nil_append,
        spells_cons] at hus
      obtain ⟨k₁, _, rfl, k₂, _, rfl, k₃, _, rfl, k₄, _, rfl, k₅, _, rfl, k₆, _, rfl, k₇, _, rfl, k₈, us,
        rfl, hus⟩ := hus
      simp [partsWithin, readMime]
      rw [partsWithin_of_isIgnorable (by rfl) hpos]
      obtain ⟨b', hb'⟩ := ih hm' hus _
      exact ⟨b', by rw [hb']; rfl⟩
    | some mime =>
      simp only [List.flatMap_cons, PartTerm.lexemes, List.cons_append, List.nil_append,
        spells_cons] at hus
      obtain ⟨k₁, _, rfl, k₂, _, rfl, k₃, _, rfl, k₄, _, rfl, k₅, _, rfl, k₆, _, rfl, k₇, _, rfl, k₈, _,
        rfl, k₉, _, rfl, i₁, _, rfl, i₂, _, rfl, i₃, us, rfl, hus⟩ := hus
      simp [partsWithin, readMime]
      rw [partsWithin_of_isIgnorable (by rfl) hpos]
      obtain ⟨b', hb'⟩ := ih hm' hus _
      exact ⟨b', by rw [hb']; rfl⟩

theorem read_of_readBody {name : String} {k₁ k₂ n : Nat} {b b₁ us ts : List Token} {t : Token}
    {p : PayloadTerm} (ht : t.isPunct ")")
    (hbody : readBody name (⟨⟨.punctuation, "(", k₂⟩ :: ⟨.identifier, name, k₁⟩ :: b, us, n⟩ : Cursor).skip =
      .ok (p, ⟨b₁, t :: ts, n⟩)) :
    ∃ b', read ⟨b, ⟨.identifier, name, k₁⟩ :: ⟨.punctuation, "(", k₂⟩ :: us, n⟩ =
      .ok (p, ⟨b', ts, n⟩) := by
  refine ⟨t :: b₁, ?_⟩
  have hop : (⟨.identifier, name, k₁⟩ : Token).isOp "<" = false := rfl
  rw [read, Cursor.expect_cons _ _ _ _ (by rfl)]
  simp only [ok_bind, hop, Bool.false_eq_true, if_false, Cursor.advance_cons]
  rw [Cursor.skip_of_not (by rfl), Cursor.expectPunct_cons _ _ _ _ (by rfl)]
  simp only [ok_bind, hbody, Cursor.skip_of_not (JsonTerm.isIgnorable_of_isPunct ht),
    Cursor.expectPunct_cons _ _ _ _ ht, pure_eq_ok]

/-- A term between the parentheses of a call. -/
theorem read_term {call : String} (make : JsonTerm → PayloadTerm)
    (hcall : ∀ c, readBody call c = do
      let (t, c) ← JsonTerm.read c
      return (make t, c))
    {term : JsonTerm} (h : term.Legible) {us : List Token}
    (hus : Spells us ([word call, mark "("] ++ term.lexemes 0 ++ [mark ")"])) (b ts : List Token)
    (n : Nat) :
    ∃ b', read ⟨b, us ++ ts, n⟩ = .ok (make term.requoted, ⟨b', ts, n⟩) := by
  simp only [List.cons_append, List.nil_append, spells_cons] at hus
  obtain ⟨k₁, _, rfl, k₂, us, rfl, hus⟩ := hus
  obtain ⟨us, _, rfl, hterm, hclose⟩ := spells_append.mp hus
  obtain ⟨k₃, rfl⟩ := spells_singleton.mp hclose
  have hends := JsonTerm.ends_mark (c := ⟨.punctuation, ")", k₃⟩) (s := ")") (by simp) (by decide) ts
  obtain ⟨b', hread⟩ := JsonTerm.read_requoted h hterm hends
    (⟨.punctuation, "(", k₂⟩ :: ⟨.identifier, call, k₁⟩ :: b) n
  obtain ⟨l, ls, hl, hgap, -⟩ := JsonTerm.opens_lexemes h 0
  rw [hl] at hterm
  obtain ⟨k, us, rfl, -⟩ := spells_cons.mp hterm
  have hbody : readBody call (⟨⟨.punctuation, "(", k₂⟩ :: ⟨.identifier, call, k₁⟩ :: b,
      ⟨l.kind, l.text, k⟩ :: us ++ ⟨.punctuation, ")", k₃⟩ :: ts, n⟩ : Cursor).skip =
        .ok (make term.requoted, ⟨b', ⟨.punctuation, ")", k₃⟩ :: ts, n⟩) := by
    rw [List.cons_append, Cursor.skip_of_not (t := ⟨l.kind, l.text, k⟩) hgap, hcall]
    rw [List.cons_append] at hread
    rw [hread]
    rfl
  obtain ⟨b₁, hread₁⟩ := read_of_readBody (t := ⟨.punctuation, ")", k₃⟩) (by simp) hbody
  exact ⟨b₁, by simpa using hread₁⟩

theorem read_raw {chunks : List Literal} (hne : chunks ≠ []) (mime : Option String) {us : List Token}
    (hus : Spells us (lexemes (.raw chunks mime))) (b ts : List Token) (n : Nat) :
    ∃ b', read ⟨b, us ++ ts, n⟩ = .ok (requoted (.raw chunks mime), ⟨b', ts, n⟩) := by
  rw [lexemes, call, intercalate_mimeLexemes, List.cons_append, List.cons_append] at hus
  simp only [spells_cons] at hus
  obtain ⟨k₁, _, rfl, k₂, us, rfl, hus⟩ := hus
  obtain ⟨us, _, rfl, hargs, hclose⟩ := spells_append.mp hus
  obtain ⟨k₃, rfl⟩ := spells_singleton.mp hclose
  obtain ⟨us, vs, rfl, hchunks, hmime⟩ := spells_append.mp hargs
  have hlen : chunks.length ≤ us.length := by
    have hones : ∀ x ∈ chunks.map fun l : Literal => [l.lexeme], x ≠ [] := by simp
    have := length_le_intercalate [blank 1] hones
    rwa [List.length_map, ← hchunks.length] at this
  obtain ⟨t, s, rest, hnext, ht⟩ : ∃ t s rest, vs ++ ⟨.punctuation, ")", k₃⟩ :: ts = t :: rest ∧
      t.isPunct s := by
    cases mime with
    | none => exact ⟨_, ")", ts, by rw [spells_nil.mp hmime]; rfl, by simp⟩
    | some m =>
      obtain ⟨k, vs, rfl, -⟩ := spells_cons.mp hmime
      exact ⟨_, ",", vs ++ ⟨.punctuation, ")", k₃⟩ :: ts, rfl, by simp⟩
  obtain ⟨u, us', hus', hgap, hbrace⟩ : ∃ u us', us = u :: us' ∧ u.isIgnorable = false ∧
      u.isPunct "\x7b" = false := by
    cases chunks with
    | nil => exact absurd rfl hne
    | cons l ls =>
      have hhead : ∃ k us', us = ⟨l.lexeme.kind, l.lexeme.text, k⟩ :: us' := by
        cases ls with
        | nil =>
          obtain ⟨k, rfl⟩ := spells_singleton.mp hchunks
          exact ⟨k, [], rfl⟩
        | cons l' ls =>
          rw [List.map_cons, List.map_cons, List.intercalate_cons_cons, List.append_assoc,
            List.singleton_append, spells_cons] at hchunks
          obtain ⟨k, us', rfl, -⟩ := hchunks
          exact ⟨k, us', rfl⟩
      obtain ⟨k, us', rfl⟩ := hhead
      refine ⟨_, us', rfl, ?_⟩
      rcases l.isString_lexeme with hk | hk <;> simp [hk]
  obtain ⟨b₁, hread⟩ := chunksWithin_lexemes
    (show chunks.length < (us ++ t :: rest).length + 1 by rw [List.length_append]; omega) hchunks ht
    (⟨.punctuation, "(", k₂⟩ :: ⟨.identifier, "data", k₁⟩ :: b) rest n
  have hne' : (chunks.map Literal.requoted).isEmpty = false := by
    rw [List.isEmpty_map, ← Bool.not_eq_true, List.isEmpty_iff]
    exact hne
  obtain ⟨b₂, hread₂⟩ := readMime_lexemes mime hmime (t := ⟨.punctuation, ")", k₃⟩) (by simp) b₁ ts n
  have hbody : readBody "data" (⟨⟨.punctuation, "(", k₂⟩ :: ⟨.identifier, "data", k₁⟩ :: b,
      us ++ t :: rest, n⟩ : Cursor).skip = .ok (requoted (.raw chunks mime), ⟨b₂, ⟨.punctuation, ")", k₃⟩ :: ts, n⟩) := by
    have hskip (b : List Token) :
        (⟨b, us ++ t :: rest, n⟩ : Cursor).skip = ⟨b, us ++ t :: rest, n⟩ := by
      rw [hus', List.cons_append, Cursor.skip_of_not hgap]
    have hopen (b : List Token) : (⟨b, us ++ t :: rest, n⟩ : Cursor).isPunct "\x7b" = false := by
      rw [hus', List.cons_append, Cursor.isPunct_cons, hbrace]
    rw [hskip]
    simp only [readBody, hopen, Bool.false_eq_true, if_false, readRaw, hread, hne']
    rw [← hnext, hread₂]
    rfl
  obtain ⟨b₃, hread₃⟩ := read_of_readBody (t := ⟨.punctuation, ")", k₃⟩) (by simp) hbody
  refine ⟨b₃, ?_⟩
  rw [← hnext] at hread₃
  simpa using hread₃

theorem read_file (path : String) (mime : Option String) {us : List Token}
    (hus : Spells us (lexemes (.file path mime))) (b ts : List Token) (n : Nat) :
    ∃ b', read ⟨b, us ++ ts, n⟩ = .ok (.file path mime, ⟨b', ts, n⟩) := by
  rw [lexemes, call, intercalate_mimeLexemes, List.cons_append, List.cons_append] at hus
  simp only [List.cons_append, List.nil_append, spells_cons] at hus
  obtain ⟨k₁, _, rfl, k₂, _, rfl, k₃, us, rfl, hus⟩ := hus
  obtain ⟨us, _, rfl, hmime, hclose⟩ := spells_append.mp hus
  obtain ⟨k₄, rfl⟩ := spells_singleton.mp hclose
  obtain ⟨b₁, hread⟩ := readMime_lexemes mime hmime (t := ⟨.punctuation, ")", k₄⟩) (by simp)
    (⟨.string, quoteText path, k₃⟩ :: ⟨.punctuation, "(", k₂⟩ :: ⟨.identifier, "fileinput", k₁⟩ :: b) ts n
  have hbody : readBody "fileinput" (⟨⟨.punctuation, "(", k₂⟩ :: ⟨.identifier, "fileinput", k₁⟩ :: b,
      ⟨.string, quoteText path, k₃⟩ :: (us ++ ⟨.punctuation, ")", k₄⟩ :: ts), n⟩ : Cursor).skip =
        .ok (.file path mime, ⟨b₁, ⟨.punctuation, ")", k₄⟩ :: ts, n⟩) := by
    simp [readBody, hread]
  obtain ⟨b₂, hread₂⟩ := read_of_readBody (t := ⟨.punctuation, ")", k₄⟩) (by simp) hbody
  exact ⟨b₂, by simpa using hread₂⟩

theorem read_multipart (parts : List PartTerm) {us : List Token}
    (hus : Spells us (lexemes (.multipart parts))) (b ts : List Token) (n : Nat) :
    ∃ b', read ⟨b, us ++ ts, n⟩ = .ok (.multipart parts, ⟨b', ts, n⟩) := by
  simp only [lexemes, List.cons_append, List.nil_append, spells_cons] at hus
  obtain ⟨k₁, _, rfl, k₂, _, rfl, k₃, us, rfl, hus⟩ := hus
  obtain ⟨us, _, rfl, hparts, hclose⟩ := spells_append.mp hus
  obtain ⟨k₄, rfl⟩ := spells_singleton.mp hclose
  have hlen : 2 * parts.length ≤ us.length := by
    rw [hparts.length]
    clear hus hparts
    induction parts with
    | nil => simp
    | cons p ps ih =>
      simp only [List.flatMap_cons, List.length_append, List.length_cons, PartTerm.lexemes,
        List.length_nil]
      omega
  have hread (m : Nat) (hm : parts.length < m) (b : List Token) :=
    partsWithin_lexemes parts hm hparts (t := ⟨.punctuation, ")", k₄⟩) (by simp) b ts n
  have hskip : ∃ b₁, readBody "files" (⟨⟨.punctuation, "(", k₂⟩ :: ⟨.identifier, "files", k₁⟩ :: b,
      ⟨.newline, "\n", k₃⟩ :: us ++ ⟨.punctuation, ")", k₄⟩ :: ts, n⟩ : Cursor).skip =
        .ok (.multipart parts, ⟨b₁, ⟨.punctuation, ")", k₄⟩ :: ts, n⟩) := by
    cases parts with
    | nil =>
      obtain rfl := spells_nil.mp hparts
      simp [readBody, partsWithin]
    | cons p ps =>
      rw [List.flatMap_cons, PartTerm.lexemes, List.cons_append, List.cons_append, List.cons_append,
        spells_cons] at hparts
      obtain ⟨k₅, _, rfl, hrest⟩ := hparts
      obtain ⟨k₆, us, rfl, -⟩ := spells_cons.mp hrest
      obtain ⟨b₁, hb₁⟩ := hread (us.length + (ts.length + 1) + 1 + 1) (by simp at hlen; simp; omega)
        (⟨.newline, "\n", k₃⟩ :: ⟨.punctuation, "(", k₂⟩ :: ⟨.identifier, "files", k₁⟩ :: b)
      rw [List.cons_append, partsWithin_of_isIgnorable (by rfl) (by omega)] at hb₁
      refine ⟨b₁, ?_⟩
      simp at hb₁
      simp [readBody, hb₁]
  obtain ⟨b₁, hbody⟩ := hskip
  obtain ⟨b₂, hread₂⟩ := read_of_readBody (t := ⟨.punctuation, ")", k₄⟩) (by simp) hbody
  exact ⟨b₂, by simpa using hread₂⟩

/-- A payload is read back in the quotes that are printed. -/
theorem read_lexemes {p : PayloadTerm} (h : p.Legible) {us : List Token} (hus : Spells us p.lexemes)
    (b ts : List Token) (n : Nat) :
    ∃ b', read ⟨b, us ++ ts, n⟩ = .ok (p.requoted, ⟨b', ts, n⟩) := by
  cases p with
  | raw chunks mime => exact read_raw h.1 mime hus b ts n
  | form term => exact read_term .form (fun _ => rfl) h hus b ts n
  | json term => exact read_term .json (fun _ => rfl) h hus b ts n
  | file path mime => exact read_file path mime hus b ts n
  | multipart parts => exact read_multipart parts hus b ts n

end

end PayloadTerm

/-! Reading the lexemes of canonical texts back: the clauses of a request. -/

namespace Clause

/-- What is read back from a clause. A script is what its block says, whatever it was meant to be. -/
def reread : Clause → Clause
  | .script s => .script (Script.ofBlock s.block)
  | .payload p => .payload p.requoted
  | c => c

@[simp] theorem kind_reread (x : Clause) : x.reread.kind = x.kind := by
  cases x <;> rfl

end Clause

section
attribute [local simp] mark op word quoted blank lineEnd Token.isIgnorable Token.isPunct Token.isOp
  Token.isString Token.isBlockComment

/-- The call of a clause is known by its name. -/
theorem isCallOf_cons (names : List String) (name : String) (i j n : Nat) (b ts : List Token) :
    isCallOf names ⟨b, ⟨.identifier, name, i⟩ :: ⟨.punctuation, "(", j⟩ :: ts, n⟩ = names.contains name := by
  simp [isCallOf]

theorem isCallOf_of_ne {t : Token} (ht : t.kind ≠ .identifier) (names : List String) (n : Nat)
    (b ts : List Token) : isCallOf names ⟨b, t :: ts, n⟩ = false := by
  simp [isCallOf, ht]

theorem spells_call {us : List Token} {name : String} {args : List (List Lexeme)}
    (h : Spells us (call (word name) args)) :
    ∃ i j vs, us = ⟨.identifier, name, i⟩ :: ⟨.punctuation, "(", j⟩ :: vs := by
  rw [call, List.cons_append, List.cons_append, spells_cons] at h
  obtain ⟨i, _, rfl, h⟩ := h
  obtain ⟨j, vs, rfl, -⟩ := spells_cons.mp h
  exact ⟨i, j, vs, rfl⟩

namespace PayloadTerm

def callName : PayloadTerm → String
  | .raw .. => "data"
  | .form _ => "urlencoded"
  | .json _ => "json"
  | .file .. => "fileinput"
  | .multipart _ => "files"

theorem spells_head {p : PayloadTerm} {us : List Token} (h : Spells us p.lexemes) :
    ∃ i j vs, us = ⟨.identifier, p.callName, i⟩ :: ⟨.punctuation, "(", j⟩ :: vs := by
  cases p with
  | raw | file => exact spells_call h
  | form | json | multipart =>
    obtain ⟨i, _, rfl, hrest⟩ := spells_cons.mp h
    obtain ⟨j, vs, rfl, -⟩ := spells_cons.mp hrest
    exact ⟨i, j, vs, rfl⟩

end PayloadTerm

namespace Clause

theorem at?_call {name : String} {kind : ClauseKind} {i j : Nat}
    (h : (if Auth.calls.contains name then some ClauseKind.auth
      else if Certificate.calls.contains name then some .certificate
      else if PayloadTerm.calls.contains name then some .payload
      else if name = "output" then some .output else none) = some kind)
    (b ts : List Token) (n : Nat) :
    ClauseKind.at? ⟨b, ⟨.identifier, name, i⟩ :: ⟨.punctuation, "(", j⟩ :: ts, n⟩ = some kind := by
  rw [← h, ClauseKind.at?]
  simp only [Cursor.token?_cons, Option.bind_eq_bind, Option.bind_some, isCallOf_cons,
    PayloadTerm.startsAt]
  simp

/-- The kind of a clause shows in its lexemes. -/
theorem at?_lexemes (x : Clause) {us : List Token} (hus : Spells us x.lexemes) (b ts : List Token)
    (n : Nat) : ClauseKind.at? ⟨b, us ++ ts, n⟩ = some x.kind := by
  cases x with
  | auth a =>
    obtain ⟨i, j, vs, rfl⟩ := spells_call hus
    refine at?_call ?_ b (vs ++ ts) n
    rw [if_pos (by simpa using a.callName_mem)]
    rfl
  | certificate c =>
    obtain ⟨i, j, vs, rfl⟩ := spells_call hus
    refine at?_call ?_ b (vs ++ ts) n
    cases c <;> rfl
  | payload p =>
    obtain ⟨i, j, vs, rfl⟩ := PayloadTerm.spells_head hus
    refine at?_call ?_ b (vs ++ ts) n
    cases p <;> rfl
  | output path =>
    obtain ⟨i, j, vs, rfl⟩ := spells_call hus
    exact at?_call (by rfl) b (vs ++ ts) n
  | query k v =>
    obtain ⟨i, vs, rfl, -⟩ := spells_cons.mp hus
    simp [ClauseKind.at?, isCallOf_of_ne, kind]
  | header k v =>
    obtain ⟨i, _, rfl, hrest⟩ := spells_cons.mp hus
    obtain ⟨j, vs, rfl, -⟩ := spells_cons.mp hrest
    simp [ClauseKind.at?, isCallOf_of_ne, Cursor.opensHeader, kind]
  | script s =>
    obtain ⟨i, vs, rfl, -⟩ := spells_cons.mp hus
    simp [ClauseKind.at?, isCallOf_of_ne, PayloadTerm.startsAt, kind]

/-- A clause is read back, in the quotes that are printed. -/
theorem read_lexemes {x : Clause} (h : x.Legible) {us : List Token} (hus : Spells us x.lexemes)
    (b ts : List Token) (k n : Nat) :
    ∃ b', read x.kind ⟨b, us ++ ⟨.newline, "\n", k⟩ :: ts, n⟩ =
      .ok (x.reread, ⟨b', ⟨.newline, "\n", k⟩ :: ts, n⟩) := by
  cases x with
  | auth a =>
    obtain ⟨b', hb'⟩ := readCall_call a.ofArguments_arguments hus b (⟨.newline, "\n", k⟩ :: ts) n
    exact ⟨b', by simp [read, kind, reread, hb']⟩
  | certificate c =>
    obtain ⟨b', hb'⟩ := readCall_call c.ofArguments_arguments hus b (⟨.newline, "\n", k⟩ :: ts) n
    exact ⟨b', by simp [read, kind, reread, hb']⟩
  | payload p =>
    obtain ⟨b', hb'⟩ := PayloadTerm.read_lexemes h hus b (⟨.newline, "\n", k⟩ :: ts) n
    exact ⟨b', by simp [read, kind, reread, hb']⟩
  | output path =>
    simp only [lexemes, call, List.intercalate_singleton, List.cons_append, List.nil_append, spells_cons,
      spells_nil] at hus
    obtain ⟨k₁, _, rfl, k₂, _, rfl, k₃, _, rfl, k₄, _, rfl, rfl⟩ := hus
    simp [read, kind, readOutput, Cursor.expectPunct_cons, reread]
  | query key v =>
    simp only [lexemes, spells_cons, spells_nil] at hus
    obtain ⟨k₁, _, rfl, k₂, _, rfl, k₃, _, rfl, k₄, _, rfl, k₅, _, rfl, k₆, _, rfl, rfl⟩ := hus
    simp [read, kind, readQuery, Cursor.expect_cons, reread]
  | header key v =>
    simp only [lexemes, spells_cons, spells_nil] at hus
    obtain ⟨k₁, _, rfl, k₂, _, rfl, k₃, _, rfl, k₄, _, rfl, rfl⟩ := hus
    simp [read, kind, readHeader, Cursor.expect_cons, literal_quoted, reread]
  | script s =>
    simp only [lexemes, Script.lexemes, spells_cons, spells_nil] at hus
    obtain ⟨k₁, _, rfl, k₂, _, rfl, k₃, _, rfl, rfl⟩ := hus
    have hword : Option.filter (fun t : Token => t.kind == .identifier) (some ⟨.newline, "\n", k⟩) = none := rfl
    simp [read, kind, readScript, Cursor.expect_cons, hword, reread]

end Clause

end

end RequestLang
