import RequestLang.Proofs.Document.Lexemes

/-! A request line by line: what stands above its URL, and the clauses below, in whatever order. -/
namespace RequestLang
open Lexeme

/-- What a line above the URL says of a request. -/
inductive Heading where
  | named (name : String) (base : Option String)
  | clear
  | insecure
  | noParentScript
  | tag (key value : String)

namespace Heading

def isNamed : Heading → Bool
  | .named .. => true
  | _ => false

def written : Heading → String
  | .named name base =>
    callText "@name" [quoteText name] ++
      (match base with
        | some base => " : " ++ quoteText base
        | none => "")
  | .clear => "@clear"
  | .insecure => "@insecure"
  | .noParentScript => "@no-parent-script"
  | .tag key value => callText ("@" ++ key) [quoteText value]

def lexemes : Heading → List Lexeme
  | .named name base =>
    call ⟨.tag, "@name"⟩ [[quoted name]] ++
      (match base with
        | some base => [blank 1, mark ":", blank 1, quoted base]
        | none => [])
  | .clear => [⟨.tag, "@clear"⟩]
  | .insecure => [⟨.tag, "@insecure"⟩]
  | .noParentScript => [⟨.tag, "@no-parent-script"⟩]
  | .tag key value => call ⟨.tag, "@" ++ key⟩ [[quoted value]]

theorem chars_lexemes (h : Heading) : chars h.lexemes = h.written.toList := by
  cases h with
  | named name base =>
    have hcall : chars (call ⟨.tag, "@name"⟩ [[quoted name]]) = (callText "@name" [quoteText name]).toList :=
      chars_call rfl (by simp [quoteText])
    cases base <;> simp [lexemes, written, hcall, quoteText]
  | clear | insecure | noParentScript => simp [lexemes, written]
  | tag key value => exact chars_call rfl (by simp [quoteText])

end Heading

namespace Clause

def kind : Clause → ClauseKind
  | .auth _ => .auth
  | .certificate _ => .certificate
  | .query .. => .query
  | .header .. => .header
  | .payload _ => .payload
  | .output _ => .output
  | .script _ => .script

def written : Clause → String
  | .auth a => a.written
  | .certificate c => c.written
  | .query k v => "? " ++ quoteText k ++ "= " ++ quoteText v
  | .header k v => quoteText k ++ ": " ++ quoteText v
  | .payload p => p.written
  | .output path => callText "output" [quoteText path]
  | .script s => s.written

def lexemes : Clause → List Lexeme
  | .auth a => a.lexemes
  | .certificate c => c.lexemes
  | .query k v => [op "?", blank 1, quoted k, op "=", blank 1, quoted v]
  | .header k v => [quoted k, mark ":", blank 1, quoted v]
  | .payload p => p.lexemes
  | .output path => call (word "output") [[quoted path]]
  | .script s => s.lexemes

theorem chars_lexemes (x : Clause) : chars x.lexemes = x.written.toList := by
  cases x with
  | auth a => exact a.chars_lexemes
  | certificate c => exact c.chars_lexemes
  | query k v => simp [lexemes, written, quoteText]
  | header k v => simp [lexemes, written, quoteText]
  | payload p => exact p.chars_lexemes
  | output path => exact chars_call rfl (by simp [quoteText])
  | script s => exact s.chars_lexemes

end Clause

structure Layout where
  headings : List Heading
  method : Option Method
  url : String
  clauses : List Clause

namespace Layout

/-- The text of a request whose clauses stand in this order. -/
def written (l : Layout) : String :=
  String.join ((l.headings.map Heading.written ++ [Request.targetLine { method := l.method, url := l.url }] ++
    l.clauses.map Clause.written).map (· ++ "\n")) ++ "\n\n"

def targetLexemes (l : Layout) : List Lexeme := Request.targetLexemes { method := l.method, url := l.url }

/-- The lines down to the last clause. -/
def front (l : Layout) : List Lexeme :=
  (l.headings.map Heading.lexemes).flatMap (· ++ [lineEnd]) ++ l.targetLexemes ++ [lineEnd] ++
    (l.clauses.map Clause.lexemes).flatMap (· ++ [lineEnd])

def lexemes (l : Layout) : List Lexeme := l.front ++ [lineEnd, lineEnd]

theorem chars_lexemes (l : Layout) : chars l.lexemes = l.written.toList := by
  have hlines {α : Type} {f : α → List Lexeme} {g : α → String} (h : ∀ x, chars (f x) = (g x).toList) (xs : List α) :
      chars (xs.flatMap fun x => f x ++ [lineEnd]) = xs.flatMap fun x => (g x).toList ++ ['\n'] := by
    induction xs with
    | nil => rfl
    | cons x xs ih => simp [h, ih]
  have htarget : chars l.targetLexemes = (Request.targetLine { method := l.method, url := l.url }).toList :=
    Request.chars_targetLexemes _
  simp [lexemes, front, written, List.flatMap_map, hlines Heading.chars_lexemes, hlines Clause.chars_lexemes, htarget]

end Layout

namespace Request

/-- The headings below the name. -/
def marks (r : Request) : List Heading :=
  (if r.flags.clear then [.clear] else []) ++ (if r.flags.insecure then [.insecure] else []) ++
    (if r.flags.noParentScript then [.noParentScript] else []) ++
    r.tags.map fun tag => .tag tag.1 tag.2

def headings (r : Request) : List Heading := (r.name.map (Heading.named · r.base)).toList ++ r.marks

def clauses (r : Request) : List Clause :=
  (r.auth.map Clause.auth).toList ++ (r.certificate.map Clause.certificate).toList ++
    r.headers.map (fun field => .header field.1 field.2) ++ r.queries.map (fun field => .query field.1 field.2) ++
    (r.payload.map Clause.payload).toList ++ (r.output.map Clause.output).toList ++
    (r.script.map Clause.script).toList

/-- The lines of a request in the order in which they are printed. -/
def layout (r : Request) : Layout := ⟨r.headings, r.method, r.url, r.clauses⟩

theorem tagLexemes_eq (r : Request) : r.tagLexemes = r.headings.map Heading.lexemes := by
  have hname : r.nameLexemes = ((r.name.map (Heading.named · r.base)).toList).map Heading.lexemes := by
    unfold nameLexemes
    cases r.name <;> rfl
  have htags : (r.tags.map fun tag => call ⟨.tag, "@" ++ tag.1⟩ [[quoted tag.2]]) =
      (r.tags.map fun tag => Heading.tag tag.1 tag.2).map Heading.lexemes := by
    rw [List.map_map]
    rfl
  rw [tagLexemes, headings, marks, hname, htags]
  simp only [flagLines, List.map_append]
  cases r.flags.clear <;> cases r.flags.insecure <;> cases r.flags.noParentScript <;>
    simp [Heading.lexemes]

theorem clauseLexemes_eq (r : Request) : r.clauseLexemes = r.clauses.map Clause.lexemes := by
  simp only [clauseLexemes, clauses, List.map_append, List.map_map]
  cases r.auth <;> cases r.certificate <;> cases r.payload <;> cases r.output <;> cases r.script <;> rfl

theorem lexemes_eq (r : Request) : r.lexemes = r.describing.flatMap (· ++ [lineEnd]) ++ r.layout.lexemes := by
  have htarget : r.layout.targetLexemes = r.targetLexemes := rfl
  simp only [lexemes, lineLexemes, Layout.lexemes, Layout.front, htarget, tagLexemes_eq, clauseLexemes_eq, List.flatMap_append,
    List.flatMap_singleton, List.append_assoc]
  rfl

/-- A request without a description is printed as its lines one after another. -/
theorem written_layout {r : Request} (h : r.description = none) : r.layout.written = r.written := by
  have hlexemes : r.lexemes = r.layout.lexemes := by
    rw [lexemes_eq, describing, descriptionLines, h]
    rfl
  rw [← String.toList_inj, ← Layout.chars_lexemes, ← hlexemes, chars_lexemes]

end Request

end RequestLang
