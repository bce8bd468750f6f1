import RequestLang.Proofs.Document.Solid

/-! The canonical text of a request file ends its lines with line feeds alone. -/
namespace RequestLang
open Lexeme

namespace Lexeme

/-- No lexeme holds a carriage return. -/
def Clean (ls : List Lexeme) : Prop := '\r' ∉ chars ls

@[simp] theorem clean_nil : Clean [] := List.not_mem_nil

@[simp] theorem clean_cons (l : Lexeme) (ls : List Lexeme) :
    Clean (l :: ls) ↔ '\r' ∉ l.text.toList ∧ Clean ls := by
  simp [Clean]

@[simp] theorem clean_append (as bs : List Lexeme) : Clean (as ++ bs) ↔ Clean as ∧ Clean bs := by
  simp [Clean]

theorem clean_flatMap {α : Type} {f : α → List Lexeme} {xs : List α} (h : ∀ x ∈ xs, Clean (f x)) :
    Clean (xs.flatMap f) := by
  induction xs with
  | nil => exact clean_nil
  | cons x xs ih =>
    rw [List.flatMap_cons, clean_append]
    exact ⟨h x (by simp), ih fun y hy => h y (by simp [hy])⟩

theorem clean_intercalate {sep : List Lexeme} (hsep : Clean sep) {xs : List (List Lexeme)}
    (h : ∀ x ∈ xs, Clean x) : Clean (List.intercalate sep xs) := by
  induction xs with
  | nil => exact clean_nil
  | cons x xs ih =>
    cases xs with
    | nil =>
      rw [List.intercalate_singleton]
      exact h x (by simp)
    | cons y ys =>
      rw [List.intercalate_cons_cons, clean_append, clean_append]
      exact ⟨⟨h x (by simp), hsep⟩, ih fun z hz => h z (by simp [hz])⟩

theorem not_mem_escape {q : Char} (hq : q ≠ '\r') (c : Char) : '\r' ∉ Text.Quoted.escape q c := by
  unfold Text.Quoted.escape
  split
  · decide
  split
  · decide
  split
  · decide
  split
  · decide
  split
  · simp [hq.symm]
  · rename_i h _ _
    simpa using Ne.symm h

@[simp] theorem not_mem_quoteChars (cs : List Char) : '\r' ∉ quoteChars cs := by
  have hencode {q : Char} (hq : q ≠ '\r') : '\r' ∉ q :: Text.Quoted.encode q cs ++ [q] := by
    simp only [Text.Quoted.encode, List.cons_append, List.mem_cons, List.mem_append, List.mem_flatMap,
      List.not_mem_nil, or_false, not_or]
    refine ⟨hq.symm, ?_, hq.symm⟩
    rintro ⟨c, -, hc⟩
    exact not_mem_escape hq c hc
  unfold quoteChars
  split
  · exact hencode (by decide)
  · exact hencode (by decide)

theorem clean_gap (n : Nat) : Clean (gap n) := by
  simp [Clean]

theorem clean_call {head : Lexeme} (hhead : '\r' ∉ head.text.toList) {args : List (List Lexeme)}
    (h : ∀ a ∈ args, Clean a) : Clean (call head args) := by
  have hargs := @clean_intercalate [mark ",", blank 1] (by simp) _ h
  simp only [call, List.cons_append, clean_cons, clean_append, clean_nil, hhead, hargs]
  simp

theorem clean_headed {p : Char → Bool} (hp : p '\r' = false) {cs : List Char} (h : Lexer.isHeaded p cs) :
    '\r' ∉ cs := by
  obtain ⟨c, ds, rfl, hstart, hall⟩ := Lexer.cons_of_isHeaded h
  intro hr
  rcases List.mem_cons.mp hr with rfl | hr
  · revert hstart
    decide
  · rw [hall _ hr] at hp
    cases hp

end Lexeme

theorem Literal.clean {l : Literal} (h : l.Legible) : '\r' ∉ l.lexeme.text.toList := by
  rw [text_lexeme, written, String.toList_ofList, writtenChars]
  split
  · rename_i ht
    simp [(h ht.1).2]
  split
  · rename_i ht
    simp [(h ht.1).2]
  · exact not_mem_quoteChars _

theorem JsonKey.clean {k : JsonKey} (h : k.Legible) : '\r' ∉ k.lexeme.text.toList := by
  cases k with
  | literal l => exact Literal.clean h
  | reference text => exact IsOperand.clean h

namespace JsonTerm

theorem clean_block {opening closing : String} (hopening : '\r' ∉ opening.toList)
    (hclosing : '\r' ∉ closing.toList) {depth : Nat} {lines : List (List Lexeme)} (h : ∀ l ∈ lines, Clean l) :
    Clean (blockLexemes opening closing depth lines) := by
  unfold blockLexemes
  split
  · simp [hopening, hclosing]
  · have hlines : Clean (List.intercalate [mark ",", lineEnd] (lines.map (gap (4 * (depth + 1)) ++ ·))) := by
      refine clean_intercalate (by simp) fun x hx => ?_
      obtain ⟨l, hl, rfl⟩ := List.mem_map.mp hx
      exact (clean_append ..).mpr ⟨clean_gap _, h l hl⟩
    simp [hopening, hclosing, hlines, clean_gap]

mutual

theorem clean_lexemes (depth : Nat) (t : JsonTerm) (h : t.Legible) : Clean (t.lexemes depth) := by
  have hpieces {kind : TokenKind} {text : String} (h : IsOperand kind text) : Clean (pieces text) := by
    rw [Clean, chars_pieces]
    exact h.clean
  cases t with
  | null => simp [lexemes]
  | bool b => cases b <;> simp [lexemes]
  | number text =>
    rcases h with h | ⟨h, -⟩
    · exact hpieces h
    · exact h.clean
  | literal l => simpa [lexemes] using Literal.clean h
  | reference text =>
    rcases h with h | ⟨h, -⟩
    · exact hpieces h
    · exact hpieces h
  | arithmetic text => exact h.1.clean
  | array items => exact clean_block (by decide) (by decide) (clean_itemLexemes (depth + 1) items h)
  | object members => exact clean_block (by decide) (by decide) (clean_memberLexemes (depth + 1) members h)

theorem clean_itemLexemes (depth : Nat) (items : List JsonTerm) (h : ItemsLegible items) :
    ∀ l ∈ itemLexemes depth items, Clean l := by
  cases items with
  | nil => simp [itemLexemes]
  | cons t ts =>
    have ht := clean_lexemes depth t h.1
    have hts := clean_itemLexemes depth ts h.2
    simpa [itemLexemes, ht] using hts

theorem clean_memberLexemes (depth : Nat) (members : List (JsonKey × JsonTerm)) (h : MembersLegible members) :
    ∀ l ∈ memberLexemes depth members, Clean l := by
  cases members with
  | nil => simp [memberLexemes]
  | cons m ms =>
    obtain ⟨k, t⟩ := m
    have hk := JsonKey.clean h.1
    have ht := clean_lexemes depth t h.2.1
    have hms := clean_memberLexemes depth ms h.2.2
    simpa [memberLexemes, ht, -JsonKey.text_lexeme, hk] using hms

end

end JsonTerm

theorem Argument.clean {a : Argument} (h : ∀ name ∈ a.name, name ∈ argumentNames) : Clean a.lexemes := by
  have hall : ∀ name ∈ argumentNames, '\r' ∉ name.toList := by decide
  unfold lexemes
  cases hn : a.name with
  | none => simp
  | some name => simp [hall name (h name hn)]

theorem clean_call_arguments {name : String} (hname : '\r' ∉ name.toList) {args : List Argument}
    (h : ∀ arg ∈ args, ∀ name ∈ arg.name, name ∈ argumentNames) :
    Clean (call (word name) (args.map Argument.lexemes)) := by
  refine clean_call hname fun l hl => ?_
  obtain ⟨arg, harg, rfl⟩ := List.mem_map.mp hl
  exact Argument.clean (h arg harg)

theorem Auth.clean (a : Auth) : Clean a.lexemes := by
  have hall : ∀ name ∈ Auth.calls, '\r' ∉ name.toList := by decide
  exact clean_call_arguments (hall _ a.callName_mem) a.name_arguments

theorem Certificate.clean (c : Certificate) : Clean c.lexemes := by
  have hall : ∀ name ∈ Certificate.calls, '\r' ∉ name.toList := by decide
  exact clean_call_arguments (hall _ c.callName_mem) c.name_arguments

theorem PartTerm.clean (p : PartTerm) : Clean p.lexemes := by
  unfold lexemes
  cases p.mime <;> simp

namespace PayloadTerm

theorem clean_mimeLexemes (mime : Option String) : ∀ l ∈ mimeLexemes mime, Clean l := by
  cases mime <;> simp [mimeLexemes]

theorem clean {p : PayloadTerm} (h : p.Legible) : Clean p.lexemes := by
  cases p with
  | raw chunks mime =>
    refine clean_call (by decide) fun l hl => ?_
    rcases List.mem_cons.mp hl with rfl | hl
    · refine clean_intercalate (by simp) fun x hx => ?_
      obtain ⟨l, hl, rfl⟩ := List.mem_map.mp hx
      exact (clean_cons ..).mpr ⟨Literal.clean (h.2 l hl), clean_nil⟩
    · exact clean_mimeLexemes mime l hl
  | form term => simp [lexemes, JsonTerm.clean_lexemes 0 term h]
  | json term => simp [lexemes, JsonTerm.clean_lexemes 0 term h]
  | file path mime =>
    refine clean_call (by decide) fun l hl => ?_
    rcases List.mem_cons.mp hl with rfl | hl
    · simp
    · exact clean_mimeLexemes mime l hl
  | multipart parts => simp [lexemes, clean_flatMap fun p _ => PartTerm.clean p]

end PayloadTerm

theorem Script.clean {s : Script} (h : s.Legible) : Clean s.lexemes := by
  have := h.clean
  unfold lexemes block
  cases s.language <;> simp [this]

theorem Heading.clean {h : Heading} (hlegible : h.Legible) : Clean h.lexemes := by
  cases h with
  | named name base => cases base <;> simp [lexemes, clean_call]
  | clear | insecure | noParentScript => simp [lexemes]
  | tag key value =>
    have := clean_headed (by decide) hlegible.name
    exact clean_call (by simpa using this) (by simp)

theorem Clause.clean {x : Clause} (h : x.Legible) : Clean x.lexemes := by
  cases x with
  | auth a => exact a.clean
  | certificate c => exact c.clean
  | header | query => simp [lexemes]
  | payload p => exact PayloadTerm.clean h
  | output path => exact clean_call (by decide) (by simp)
  | script s => exact Script.clean h

theorem clean_lines {lines : List (List Lexeme)} (h : ∀ l ∈ lines, Clean l) :
    Clean (lines.flatMap (· ++ [lineEnd])) :=
  clean_flatMap fun l hl => (clean_append ..).mpr ⟨h l hl, by simp⟩

theorem Layout.clean {l : Layout} (h : l.Legible) : Clean l.lexemes := by
  have hheadings := clean_lines (List.forall_mem_map.mpr fun x hx => Heading.clean (h.headings x hx))
  have hclauses := clean_lines (List.forall_mem_map.mpr fun x hx => Clause.clean (h.clauses x hx))
  have htarget : Clean l.targetLexemes := by
    unfold targetLexemes Request.targetLexemes
    cases l.method with
    | none => simp
    | some m => cases m <;> simp [Method.name]
  simp [lexemes, front, hheadings, hclauses, htarget]

theorem Request.clean {r : Request} (h : r.Legible) : Clean r.lexemes := by
  have hdescribing : Clean (r.describing.flatMap (· ++ [lineEnd])) := by
    refine clean_lines fun l hl => ?_
    obtain ⟨line, hline, rfl⟩ := List.mem_map.mp hl
    have : '\r' ∉ line := by
      unfold descriptionLines at hline
      cases hd : r.description with
      | none => simp [hd] at hline
      | some text =>
        rw [hd] at hline
        exact fun hr => h.description text hd (Text.subset_of_mem_splitLines hline hr)
    simp [this]
  rw [lexemes_eq, clean_append]
  exact ⟨hdescribing, Layout.clean h.layout⟩

theorem clean_argumentLexemes {value : String} (h : ReadsBare value) : Clean (argumentLexemes value) := by
  unfold argumentLexemes
  split
  · rename_i hbare
    obtain ⟨kind, hkind⟩ := h hbare
    rw [Clean, chars_pieces]
    exact hkind.clean
  · simp

theorem VariableBody.clean {b : VariableBody} (h : b.Legible) (hb : b.ReadsBare) : Clean b.lexemes := by
  cases b with
  | value term => exact term.clean_lexemes 0 h
  | call function args =>
    have hname := clean_headed (by decide) h
    refine clean_call (by simpa using hname) fun l hl => ?_
    obtain ⟨a, ha, rfl⟩ := List.mem_map.mp hl
    exact clean_argumentLexemes (hb a ha)
  | template text => simp [lexemes]

/-- The canonical text of a document holds no carriage return. -/
theorem Document.clean {d : Document} (h : d.Legible) (hb : d.ReadsBare) : Clean d.lexemes := by
  have himports : Clean (d.imports.flatMap Import.lexemes) := clean_flatMap fun i _ => by simp [Import.lexemes]
  have hvars : Clean (d.vars.flatMap Variable.lexemes) := clean_flatMap fun v hv => by
    have hname := clean_headed (by decide) (h.vars v hv).name
    have hbody := VariableBody.clean (h.vars v hv).body (hb v hv)
    simp [Variable.lexemes, hname, hbody]
  have hrequests : Clean (d.requests.flatMap Request.lexemes) :=
    clean_flatMap fun r hr => Request.clean (h.requests r hr)
  have hgap : Clean (if d.imports.isEmpty && d.vars.isEmpty then [] else [lineEnd]) := by
    split <;> simp
  simp only [lexemes, headLexemes, clean_append, himports, hvars, hrequests, hgap, and_self]

end RequestLang
