import RequestLang.Proofs.Document.Layout

/-! Documents as they come from a text: what their names and bare texts look like. -/
namespace RequestLang
open Lexer Lexeme

/-- A number, a name or a placeholder that the lexer takes off in one piece. -/
structure IsOperand (kind : TokenKind) (text : String) : Prop where
  operand : kind = .number ∨ kind = .identifier ∨ kind = .placeholder
  cuts : Cuts ⟨kind, text⟩ []
  clean : '\r' ∉ text.toList

namespace JsonTerm

/-- Arithmetic shows in its first significant lexemes. -/
def opensArithmetic : List Lexeme → Bool
  | [] => false
  | l :: ls => l.token.isPunct "(" || l.token.isOp "-" ||
      (isOperand l.token && ((ls.find? (!·.isIgnorable)).map (isArithmetic ·.token)).getD false)

/-- The lexemes of a text that is read as arithmetic. -/
structure IsRun (ls : List Lexeme) : Prop where
  falls : Falls ls []
  steps : arithmeticSteps (0, true) ls = some (0, false)
  last : ∀ l ∈ ls.getLast?, l.isIgnorable = false
  opens : opensArithmetic ls
  clean : '\r' ∉ chars ls

end JsonTerm

/-- A triple quote can stand around a text that came out of one. -/
def Literal.Legible (l : Literal) : Prop :=
  l.quote = .triple →
    (canFence '"' l.value.toList ∨ canFence '\'' l.value.toList) ∧ '\r' ∉ l.value.toList

def JsonKey.Legible : JsonKey → Prop
  | .literal l => l.Legible
  | .reference text => IsOperand .placeholder text

namespace JsonTerm

mutual

def Legible : JsonTerm → Prop
  | .null => True
  | .bool _ => True
  | .number text =>
    IsOperand .number text ∨ IsRun (pieces text) ∧ ofArithmetic text.toList = .number text
  | .literal l => l.Legible
  | .reference text =>
    IsOperand .placeholder text ∨ IsOperand .identifier text ∧ ofWord text = .reference text
  | .arithmetic text => IsRun (pieces text) ∧ ofArithmetic text.toList = .arithmetic text
  | .array items => ItemsLegible items
  | .object members => MembersLegible members

def ItemsLegible : List JsonTerm → Prop
  | [] => True
  | t :: ts => Legible t ∧ ItemsLegible ts

def MembersLegible : List (JsonKey × JsonTerm) → Prop
  | [] => True
  | (k, t) :: ms => k.Legible ∧ Legible t ∧ MembersLegible ms

end

end JsonTerm

namespace PayloadTerm

def Legible : PayloadTerm → Prop
  | .raw chunks _ => chunks ≠ [] ∧ ∀ l ∈ chunks, l.Legible
  | .form term => term.Legible
  | .json term => term.Legible
  | .file .. => True
  | .multipart _ => True

end PayloadTerm

/-- A script has no blank lines before it, no blanks behind it and no end mark inside. -/
structure Script.Legible (s : Script) : Prop where
  tidy : Script.tidy s.source.toList = s.source.toList
  closed : Text.holds ['%', '}'] s.source.toList = false
  clean : '\r' ∉ s.source.toList

namespace Request

def reservedTags : List String := ["@name", "@clear", "@insecure", "@no-parent-script"]

/-- The key of a tag that has a value. -/
structure IsTagKey (key : String) : Prop where
  name : isHeaded isTagChar key.toList
  free : "@" ++ key ∉ reservedTags

structure Legible (r : Request) : Prop where
  base : r.base.isSome → r.name.isSome
  description : ∀ text ∈ r.description, '\r' ∉ text.toList
  tags : ∀ tag ∈ r.tags, IsTagKey tag.1
  payload : ∀ p ∈ r.payload, p.Legible
  script : ∀ s ∈ r.script, s.Legible

end Request

def Heading.Legible : Heading → Prop
  | .tag key _ => Request.IsTagKey key
  | _ => True

def Clause.Legible : Clause → Prop
  | .payload p => p.Legible
  | .script s => s.Legible
  | _ => True

structure Layout.Legible (l : Layout) : Prop where
  headings : ∀ h ∈ l.headings, h.Legible
  clauses : ∀ x ∈ l.clauses, x.Legible

namespace Request

theorem Legible.headings {r : Request} (h : r.Legible) : ∀ x ∈ r.headings, x.Legible := by
  intro x hx
  cases x with
  | tag key value =>
    simp only [Request.headings, marks, List.mem_append, List.mem_ite_nil_right, List.mem_singleton, List.mem_map,
      Option.mem_toList, Option.map_eq_some_iff] at hx
    simp only [reduceCtorEq, and_false, exists_false, false_or] at hx
    obtain ⟨tag, htag, heq⟩ := hx
    cases heq
    exact h.tags tag htag
  | _ => trivial

theorem Legible.clauses {r : Request} (h : r.Legible) : ∀ x ∈ r.clauses, x.Legible := by
  intro x hx
  cases x with
  | payload p =>
    refine h.payload p ?_
    simpa [Request.clauses] using hx
  | script s =>
    refine h.script s ?_
    simpa [Request.clauses] using hx
  | _ => trivial

theorem Legible.layout {r : Request} (h : r.Legible) : r.layout.Legible := ⟨h.headings, h.clauses⟩

end Request

def VariableBody.Legible : VariableBody → Prop
  | .value term => term.Legible
  | .call function _ => isHeaded Text.isNameChar function.toList
  | .template _ => True

structure Variable.Legible (v : Variable) : Prop where
  name : isHeaded Text.isNameChar v.name.toList
  free : v.name.toList ∉ keywords
  body : v.body.Legible

structure Document.Legible (d : Document) : Prop where
  vars : ∀ v ∈ d.vars, v.Legible
  requests : ∀ r ∈ d.requests, r.Legible

end RequestLang

/-! Documents up to the places of their parts and the choice between single and double quotes. -/
namespace RequestLang

/-- Single quotes count as double ones. -/
def Literal.plain (l : Literal) : Literal :=
  { l with quote := if l.quote = .triple then .triple else .double }

def JsonKey.plain : JsonKey → JsonKey
  | .literal l => .literal l.plain
  | .reference text => .reference text

namespace JsonTerm

mutual

def plain : JsonTerm → JsonTerm
  | .null => .null
  | .bool b => .bool b
  | .number text => .number text
  | .literal l => .literal l.plain
  | .reference text => .reference text
  | .arithmetic text => .arithmetic text
  | .array items => .array (plainItems items)
  | .object members => .object (plainMembers members)

def plainItems : List JsonTerm → List JsonTerm
  | [] => []
  | t :: ts => plain t :: plainItems ts

def plainMembers : List (JsonKey × JsonTerm) → List (JsonKey × JsonTerm)
  | [] => []
  | (k, t) :: ms => (k.plain, plain t) :: plainMembers ms

end

end JsonTerm

def PayloadTerm.plain : PayloadTerm → PayloadTerm
  | .raw chunks mime => .raw (chunks.map Literal.plain) mime
  | .form term => .form term.plain
  | .json term => .json term.plain
  | .file path mime => .file path mime
  | .multipart parts => .multipart parts

def Request.plain (r : Request) : Request :=
  { r with payload := r.payload.map PayloadTerm.plain, spans := {}, source := none }

def Import.plain (i : Import) : Import := { i with span := ⟨0, 0⟩ }

def VariableBody.plain : VariableBody → VariableBody
  | .value term => .value term.plain
  | .call function args => .call function args
  | .template text => .template text

def Variable.plain (v : Variable) : Variable := { v with body := v.body.plain, span := ⟨0, 0⟩ }

def Document.plain (d : Document) : Document where
  imports := d.imports.map Import.plain
  vars := d.vars.map Variable.plain
  requests := d.requests.map Request.plain

@[simp] theorem Literal.written_plain (l : Literal) : l.plain.written = l.written := by
  simp [written, writtenChars, plain]

@[simp] theorem JsonKey.written_plain (k : JsonKey) : k.plain.written = k.written := by
  cases k <;> simp [plain, written]

namespace JsonTerm

mutual

@[simp] theorem written_plain (depth : Nat) (t : JsonTerm) :
    t.plain.written depth = t.written depth := by
  cases t with
  | null | bool | number | reference | arithmetic => rfl
  | literal l => simp [plain, written]
  | array items => simp [plain, written, writtenItems_plain]
  | object members => simp [plain, written, writtenMembers_plain]

theorem writtenItems_plain (depth : Nat) (items : List JsonTerm) :
    writtenItems depth (plainItems items) = writtenItems depth items := by
  cases items with
  | nil => rfl
  | cons t ts => simp [plainItems, writtenItems, written_plain depth t, writtenItems_plain depth ts]

theorem writtenMembers_plain (depth : Nat) (members : List (JsonKey × JsonTerm)) :
    writtenMembers depth (plainMembers members) = writtenMembers depth members := by
  cases members with
  | nil => rfl
  | cons m ms =>
    obtain ⟨k, t⟩ := m
    simp [plainMembers, writtenMembers, written_plain depth t, writtenMembers_plain depth ms]

end

end JsonTerm

@[simp] theorem PayloadTerm.written_plain (p : PayloadTerm) : p.plain.written = p.written := by
  cases p <;> simp [plain, written, Function.comp_def]

@[simp] theorem Request.written_plain (r : Request) : r.plain.written = r.written := by
  have hhead : r.plain.headLines = r.headLines := rfl
  have hclauses : r.plain.clauseLines = r.clauseLines := by
    simp [plain, clauseLines, Function.comp_def]
  rw [written, written, hhead, hclauses]

@[simp] theorem VariableBody.written_plain (b : VariableBody) : b.plain.written = b.written := by
  cases b <;> simp [plain, written]

/-- The canonical text does not depend on what is left out. -/
@[simp] theorem Document.written_plain (d : Document) : d.plain.written = d.written := by
  simp [plain, written, Import.plain, Variable.plain, Function.comp_def]

end RequestLang
