import RequestLang.Definition
import RequestLang.Proofs.Document.Exact.Run
import RequestLang.Proofs.Document.Reread.Document
import RequestLang.Proofs.Json.Number

/-! Requests that are put together from any texts at all are read back from what is written for them. -/
namespace RequestLang
open Lexeme

namespace Lexeme

theorem slash_not_mem_cons {l : Lexeme} (h : l.kind ≠ .operator) {ls : List Lexeme} :
    op "/" ∉ l :: ls ↔ op "/" ∉ ls := by
  have hne : op "/" ≠ l := fun heq => h (heq ▸ rfl)
  simp [hne]

theorem slash_not_mem_call {head : Lexeme} (hhead : head.kind ≠ .operator) {args : List (List Lexeme)}
    (h : ∀ a ∈ args, op "/" ∉ a) : op "/" ∉ call head args := by
  have hargs : op "/" ∉ List.intercalate [mark ",", blank 1] args :=
    Text.not_mem_intercalate (by simp [op, mark, blank]) h
  rw [call, List.cons_append, slash_not_mem_cons hhead, List.cons_append, slash_not_mem_cons (by simp [mark]),
    List.mem_append, not_or]
  exact ⟨hargs, by simp [op, mark]⟩

end Lexeme

section
attribute [local simp] mark op word quoted blank lineEnd

theorem Literal.kind_lexeme (l : Literal) : l.lexeme.kind ≠ .operator := by
  unfold lexeme
  split <;> simp

theorem JsonKey.kind_lexeme (k : JsonKey) : k.lexeme.kind ≠ .operator := by
  cases k with
  | literal l => exact l.kind_lexeme
  | reference text => simp [lexeme]

theorem Argument.slash_not_mem (a : Argument) : op "/" ∉ a.lexemes := by
  unfold lexemes
  cases a.name <;> simp

theorem slash_not_mem_arguments (name : String) (args : List Argument) :
    op "/" ∉ call (word name) (args.map Argument.lexemes) := by
  refine slash_not_mem_call (by simp) fun l hl => ?_
  obtain ⟨a, -, rfl⟩ := List.mem_map.mp hl
  exact a.slash_not_mem

namespace JsonTerm

theorem slash_not_mem_block {opening closing : String} {depth : Nat} {lines : List (List Lexeme)}
    (h : ∀ l ∈ lines, op "/" ∉ l) : op "/" ∉ blockLexemes opening closing depth lines := by
  have hgap (n : Nat) : op "/" ∉ gap n := by
    unfold gap
    split <;> simp
  have hlines : op "/" ∉ List.intercalate [mark ",", lineEnd] (lines.map (gap (4 * (depth + 1)) ++ ·)) := by
    refine Text.not_mem_intercalate (by simp) fun x hx => ?_
    obtain ⟨l, hl, rfl⟩ := List.mem_map.mp hx
    rw [List.mem_append, not_or]
    exact ⟨hgap _, h l hl⟩
  unfold blockLexemes
  split
  · simp
  · simp only [List.mem_append, not_or]
    exact ⟨⟨⟨⟨by simp, hlines⟩, by simp⟩, hgap _⟩, by simp⟩

end JsonTerm

namespace Json

mutual

/-- All numbers of a value are finite. -/
def Finite : Json → Prop
  | .null => True
  | .bool _ => True
  | .number n => n.Finite
  | .str _ => True
  | .arr items => FiniteItems items
  | .obj members => FiniteMembers members

def FiniteItems : List Json → Prop
  | [] => True
  | v :: vs => Finite v ∧ FiniteItems vs

def FiniteMembers : List (String × Json) → Prop
  | [] => True
  | (_, v) :: ms => Finite v ∧ FiniteMembers ms

end

end Json

namespace JsonTerm

mutual

theorem legible_ofJson (v : Json) (h : v.Finite) : (ofJson v).Legible := by
  cases v with
  | null => trivial
  | bool b => trivial
  | number n => exact Json.Number.legible_text h
  | str s => exact fun hq => nomatch hq
  | arr items => exact legible_ofItems items h
  | obj members => exact legible_ofMembers members h

theorem legible_ofItems (items : List Json) (h : Json.FiniteItems items) : ItemsLegible (ofItems items) := by
  cases items with
  | nil => trivial
  | cons v vs => exact ⟨legible_ofJson v h.1, legible_ofItems vs h.2⟩

theorem legible_ofMembers (members : List (String × Json)) (h : Json.FiniteMembers members) :
    MembersLegible (ofMembers members) := by
  cases members with
  | nil => trivial
  | cons m ms =>
    obtain ⟨k, v⟩ := m
    exact ⟨fun hq => (nomatch hq), legible_ofJson v h.1, legible_ofMembers ms h.2⟩

end

mutual

/-- The term of a value has no arithmetic in it. -/
theorem slash_not_mem_ofJson (depth : Nat) (v : Json) (h : v.Finite) : op "/" ∉ (ofJson v).lexemes depth := by
  cases v with
  | null => simp [ofJson, lexemes]
  | bool b => simp [ofJson, lexemes]
  | number n => exact slash_not_mem_pieces (Json.Number.slash_not_mem_text h)
  | str s => exact (slash_not_mem_cons (Literal.kind_lexeme _)).mpr List.not_mem_nil
  | arr items => exact slash_not_mem_block (slash_not_mem_ofItems (depth + 1) items h)
  | obj members => exact slash_not_mem_block (slash_not_mem_ofMembers (depth + 1) members h)

theorem slash_not_mem_ofItems (depth : Nat) (items : List Json) (h : Json.FiniteItems items) :
    ∀ l ∈ itemLexemes depth (ofItems items), op "/" ∉ l := by
  cases items with
  | nil => simp [ofItems, itemLexemes]
  | cons v vs =>
    have hv := slash_not_mem_ofJson depth v h.1
    have hvs := slash_not_mem_ofItems depth vs h.2
    simpa only [ofItems, itemLexemes, List.forall_mem_cons] using And.intro hv hvs

theorem slash_not_mem_ofMembers (depth : Nat) (members : List (String × Json)) (h : Json.FiniteMembers members) :
    ∀ l ∈ memberLexemes depth (ofMembers members), op "/" ∉ l := by
  cases members with
  | nil => simp [ofMembers, memberLexemes]
  | cons m ms =>
    obtain ⟨k, v⟩ := m
    have hv := slash_not_mem_ofJson depth v h.1
    have hms := slash_not_mem_ofMembers depth ms h.2
    simp only [ofMembers, memberLexemes, List.forall_mem_cons]
    refine ⟨(slash_not_mem_cons (JsonKey.kind_lexeme _)).mpr ?_, hms⟩
    exact (slash_not_mem_cons (by simp)).mpr ((slash_not_mem_cons (by simp)).mpr hv)

end

end JsonTerm

theorem PartTerm.slash_not_mem (p : PartTerm) : op "/" ∉ p.lexemes := by
  unfold lexemes
  cases p.mime <;> simp

namespace PayloadTerm

/-- A payload put together from texts: quoted chunks, a JSON value, or files. -/
inductive Printable : PayloadTerm → Prop where
  | raw {texts : List String} {mime : Option String} (h : texts ≠ []) :
    Printable (.raw (texts.map Literal.double) mime)
  | form {v : Json} (h : v.Finite) : Printable (.form (.ofJson v))
  | json {v : Json} (h : v.Finite) : Printable (.json (.ofJson v))
  | file (path : String) (mime : Option String) : Printable (.file path mime)
  | multipart (parts : List PartTerm) : Printable (.multipart parts)

theorem Printable.legible {p : PayloadTerm} (h : p.Printable) : p.Legible := by
  cases h with
  | raw h =>
    refine ⟨by simpa using h, fun l hl => ?_⟩
    obtain ⟨text, -, rfl⟩ := List.mem_map.mp hl
    exact fun hq => nomatch hq
  | form h => exact JsonTerm.legible_ofJson _ h
  | json h => exact JsonTerm.legible_ofJson _ h
  | file => trivial
  | multipart => trivial

theorem slash_not_mem_mimeLexemes (mime : Option String) : ∀ l ∈ mimeLexemes mime, op "/" ∉ l := by
  cases mime <;> simp [mimeLexemes]

theorem slash_not_mem_term {name : String} {ls : List Lexeme} (h : op "/" ∉ ls) :
    op "/" ∉ [word name, mark "("] ++ ls ++ [mark ")"] := by
  rw [List.mem_append, List.mem_append, not_or, not_or]
  exact ⟨⟨by simp, h⟩, by simp⟩

/-- Division signs come with a term. -/
theorem slash_not_mem {p : PayloadTerm} (h : ∀ t, p = .form t ∨ p = .json t → op "/" ∉ t.lexemes 0) :
    op "/" ∉ p.lexemes := by
  cases p with
  | raw chunks mime =>
    refine slash_not_mem_call (by simp) fun l hl => ?_
    rcases List.mem_cons.mp hl with rfl | hl
    · refine Text.not_mem_intercalate (by simp) fun x hx => ?_
      obtain ⟨l, -, rfl⟩ := List.mem_map.mp hx
      exact (slash_not_mem_cons l.kind_lexeme).mpr List.not_mem_nil
    · exact slash_not_mem_mimeLexemes mime l hl
  | form t => exact slash_not_mem_term (h t (.inl rfl))
  | json t => exact slash_not_mem_term (h t (.inr rfl))
  | file path mime =>
    refine slash_not_mem_call (by simp) fun l hl => ?_
    rcases List.mem_cons.mp hl with rfl | hl
    · simp
    · exact slash_not_mem_mimeLexemes mime l hl
  | multipart parts =>
    have hparts : op "/" ∉ parts.flatMap PartTerm.lexemes := by
      intro hmem
      obtain ⟨p, -, hp⟩ := List.mem_flatMap.mp hmem
      exact p.slash_not_mem hp
    rw [lexemes, List.mem_append, List.mem_append, not_or, not_or]
    exact ⟨⟨by simp, hparts⟩, by simp⟩

theorem Printable.slash_not_mem {p : PayloadTerm} (h : p.Printable) : op "/" ∉ p.lexemes := by
  refine PayloadTerm.slash_not_mem fun t ht => ?_
  cases h with
  | raw | file | multipart => rcases ht with ht | ht <;> cases ht
  | form h =>
    obtain rfl := form.inj (ht.resolve_right nofun)
    exact JsonTerm.slash_not_mem_ofJson 0 _ h
  | json h =>
    obtain rfl := json.inj (ht.resolve_left nofun)
    exact JsonTerm.slash_not_mem_ofJson 0 _ h

end PayloadTerm

namespace Request

/-- The keys of tags that name a proxy. -/
def proxyKeys : List String := ["http.proxy", "https.proxy"]

/-- A request put together from texts, with nothing that only a text of its own can hold. -/
structure Printable (r : Request) : Prop where
  description : r.description = none
  script : r.script = none
  base : r.base.isSome → r.name.isSome
  tags : ∀ tag ∈ r.tags, tag.1 ∈ proxyKeys
  payload : ∀ p ∈ r.payload, p.Printable

theorem isTagKey_of_mem_proxyKeys {key : String} (h : key ∈ proxyKeys) : IsTagKey key := by
  simp only [proxyKeys, List.mem_cons, List.not_mem_nil, or_false] at h
  rcases h with rfl | rfl <;> exact ⟨by decide, by decide⟩

theorem Printable.legible {r : Request} (h : r.Printable) : r.Legible where
  base := h.base
  description := by simp [h.description]
  tags tag htag := isTagKey_of_mem_proxyKeys (h.tags tag htag)
  payload p hp := (h.payload p hp).legible
  script := by simp [h.script]

theorem Printable.reread_eq {r : Request} (h : r.Printable) : r.reread = r := by
  obtain ⟨name, base, description, flags, tags, method, url, headers, queries, payload, auth, certificate, output,
    script, spans, source⟩ := r
  obtain rfl : description = none := h.description
  obtain rfl : script = none := h.script
  rfl

end Request

theorem Heading.slash_not_mem (h : Heading) : op "/" ∉ h.lexemes := by
  cases h with
  | named name base =>
    have hcall : op "/" ∉ call ⟨.tag, "@name"⟩ [[quoted name]] := slash_not_mem_call (by simp) (by simp)
    cases base with
    | none => simpa only [lexemes, List.append_nil] using hcall
    | some base =>
      rw [lexemes, List.mem_append, not_or]
      exact ⟨hcall, by simp⟩
  | clear | insecure | noParentScript => simp [lexemes]
  | tag key value => exact slash_not_mem_call (by simp) (by simp)

theorem Clause.slash_not_mem {x : Clause} (h : ∀ p, x = .payload p → op "/" ∉ p.lexemes) : op "/" ∉ x.lexemes := by
  cases x with
  | auth a => exact slash_not_mem_arguments a.callName a.arguments
  | certificate c => exact slash_not_mem_arguments c.callName c.arguments
  | query | header => simp [lexemes]
  | payload p => exact h p rfl
  | output path => exact slash_not_mem_call (by simp) (by simp)
  | script s => simp [lexemes, Script.lexemes]

theorem slash_not_mem_lines {lines : List (List Lexeme)} (h : ∀ l ∈ lines, op "/" ∉ l) :
    op "/" ∉ lines.flatMap (· ++ [lineEnd]) := by
  intro hmem
  obtain ⟨l, hl, hmem⟩ := List.mem_flatMap.mp hmem
  rw [List.mem_append] at hmem
  exact hmem.elim (h l hl) (by simp)

theorem Layout.slash_not_mem_targetLexemes (l : Layout) : op "/" ∉ l.targetLexemes := by
  unfold targetLexemes Request.targetLexemes
  cases l.method <;> simp

theorem Layout.slash_not_mem {l : Layout} (h : ∀ p, .payload p ∈ l.clauses → op "/" ∉ p.lexemes) : op "/" ∉ l.lexemes := by
  have hheadings := slash_not_mem_lines (List.forall_mem_map.mpr fun x (_ : x ∈ l.headings) => x.slash_not_mem)
  have hclauses := slash_not_mem_lines (List.forall_mem_map.mpr fun x (hx : x ∈ l.clauses) =>
    Clause.slash_not_mem fun p hp => h p (hp ▸ hx))
  simp only [lexemes, front, List.mem_append, not_or]
  exact ⟨⟨⟨⟨hheadings, l.slash_not_mem_targetLexemes⟩, by simp⟩, hclauses⟩, by simp⟩

namespace Request

theorem slash_not_mem_lexemes {r : Request} (h : ∀ p ∈ r.payload, op "/" ∉ p.lexemes) : op "/" ∉ r.lexemes := by
  have hdescribing : op "/" ∉ r.describing.flatMap (· ++ [lineEnd]) := by
    refine slash_not_mem_lines fun l hl => ?_
    obtain ⟨line, -, rfl⟩ := List.mem_map.mp hl
    simp
  rw [lexemes_eq, List.mem_append, not_or]
  refine ⟨hdescribing, Layout.slash_not_mem fun p hp => h p ?_⟩
  simpa [layout, clauses] using hp

/-- Every printable request is read back from the text that is written for it, whatever its texts hold. -/
theorem parse_printable {r : Request} (h : r.Printable) (source : Option String) :
    ∃ d q, Document.parse r.written source = .ok d ∧ d.imports = [] ∧ d.vars = [] ∧ d.requests = [q] ∧
      q.plain = r.plain := by
  let d : Document := { requests := [r] }
  have hlexemes : d.lexemes = r.lexemes := by simp [d, Document.lexemes, Document.headLexemes]
  have hwritten : d.written = r.written := by simp [d, Document.written]
  have hlegible : d.Legible := ⟨by simp [d], by simpa [d] using h.legible⟩
  have hcalm : Calm d.lexemes [] := by
    rw [hlexemes]
    exact calm_of_not_mem (slash_not_mem_lexemes fun p hp => (h.payload p hp).slash_not_mem) []
  obtain ⟨d', hparse, hplain⟩ := Document.parse_written hlegible (fun _ hv => absurd hv List.not_mem_nil) hcalm source
  rw [hwritten] at hparse
  have himports : d'.imports = [] := List.map_eq_nil_iff.mp (congrArg Document.imports hplain)
  have hvars : d'.vars = [] := List.map_eq_nil_iff.mp (congrArg Document.vars hplain)
  have hrequests : d'.requests.map Request.plain = [r.plain] := by
    rw [← h.reread_eq]
    exact congrArg Document.requests hplain
  obtain ⟨q, hq, hqr⟩ := List.map_eq_singleton_iff.mp hrequests
  exact ⟨d', q, hparse, himports, hvars, hq, hqr⟩

/-- Quotes of both kinds, backslashes, line ends and empty texts side by side. -/
def quoting : Request where
  name := some "it's \"quoted\""
  base := some ""
  flags := { insecure := true }
  tags := [("https.proxy", "http://p\\")]
  url := "\r\n\"\"\""
  headers := [("", "''"), ("a\\\"", "// no comment")]
  queries := [("{{q}}", "")]
  payload := some (.json (.ofJson (.obj [("\"k\"", .arr [.int (-5), .str "", .null]), ("", .obj [])])))
  auth := some (.aws "id" "'\"" none (some "eu") none)
  certificate := some (.p12 "" none)
  output := some "/*"

theorem parse_printable_quoting : quoting.Printable ∧
    ∃ d q, Document.parse quoting.written none = .ok d ∧ d.imports = [] ∧ d.vars = [] ∧ d.requests = [q] ∧
      q.plain = quoting.plain := by
  have h : quoting.Printable :=
    { description := rfl
      script := rfl
      base := fun _ => rfl
      tags := by decide
      payload := by
        intro p hp
        obtain rfl := Option.some.inj hp
        exact .json (by simp [Json.Finite, Json.FiniteMembers, Json.FiniteItems, Json.Number.Finite, Json.int]) }
  exact ⟨h, parse_printable h none⟩

end Request

end
end RequestLang
