import RequestLang.Document.Clause
import RequestLang.Document.Printer
import RequestLang.Proofs.Document.Arithmetic
import RequestLang.Proofs.Token.Scan

/-! The lexemes of the canonical text of a request file. -/
namespace RequestLang
open Lexeme

namespace Lexeme

/-- The lexemes of a text that stands alone. A text that cannot be cut into tokens is left whole. -/
def pieces (text : String) : List Lexeme :=
  match Lexer.tokenize text with
  | .ok tokens => tokens.map Token.lexeme
  | .error _ => [mark text]

/-- Blanks, unless there are none. -/
def gap (n : Nat) : List Lexeme := if n = 0 then [] else [blank n]

/-- A head and its arguments. -/
def call (head : Lexeme) (args : List (List Lexeme)) : List Lexeme :=
  head :: mark "(" :: List.intercalate [mark ",", blank 1] args ++ [mark ")"]

theorem tokenize_of_falls {ls : List Lexeme} {text : String} (h : Falls ls [])
    (htext : chars ls = text.toList) : Lexer.tokenize text = .ok (lay 0 ls) := by
  have := scan_falls h 0
  rw [List.append_nil, htext] at this
  rw [Lexer.tokenize, this]
  simp [Lexer.scan, Except.map]

theorem pieces_of_falls {ls : List Lexeme} {text : String} (h : Falls ls [])
    (htext : chars ls = text.toList) : pieces text = ls := by
  rw [pieces, tokenize_of_falls h htext]
  exact spells_lay 0 ls

@[simp] theorem toList_mark (s : String) : (mark s).text.toList = s.toList := rfl

@[simp] theorem toList_op (s : String) : (op s).text.toList = s.toList := rfl

@[simp] theorem toList_word (s : String) : (word s).text.toList = s.toList := rfl

@[simp] theorem toList_blank (n : Nat) : (blank n).text.toList = List.replicate n ' ' := by
  simp [blank]

@[simp] theorem toList_lineEnd : lineEnd.text.toList = ['\n'] := rfl

@[simp] theorem toList_quoted (v : String) : (quoted v).text.toList = quoteChars v.toList := by
  simp [quoted, quoteText]

@[simp] theorem chars_gap (n : Nat) : chars (gap n) = List.replicate n ' ' := by
  unfold gap
  split
  · simp_all
  · simp

theorem chars_intercalate (sep : List Lexeme) (xs : List (List Lexeme)) :
    chars (List.intercalate sep xs) = List.intercalate (chars sep) (xs.map chars) := by
  induction xs with
  | nil => rfl
  | cons x xs ih =>
    cases xs with
    | nil => simp
    | cons y xs => simpa [List.intercalate_cons_cons] using ih

@[simp] theorem chars_pieces (text : String) : chars (pieces text) = text.toList := by
  unfold pieces
  split
  · rename_i tokens h
    have := Lexer.flatMap_of_scan h
    simpa [chars, List.flatMap_map, Token.lexeme] using this
  · simp

theorem chars_call {head : Lexeme} {name : String} (hhead : head.text = name)
    {args : List (List Lexeme)} {texts : List String}
    (h : args.map chars = texts.map String.toList) :
    chars (call head args) = (callText name texts).toList := by
  simp [call, callText, chars_intercalate, h, hhead, String.toList_intercalate]

end Lexeme

def Literal.lexeme (l : Literal) : Lexeme :=
  if l.quote = .triple ∧ (canFence '"' l.value.toList ∨ canFence '\'' l.value.toList) then
    ⟨.tripleString, l.written⟩
  else ⟨.string, l.written⟩

def JsonKey.lexeme : JsonKey → Lexeme
  | .literal l => l.lexeme
  | .reference text => ⟨.placeholder, text⟩

@[simp] theorem Literal.text_lexeme (l : Literal) : l.lexeme.text = l.written := by
  unfold lexeme
  split <;> rfl

@[simp] theorem JsonKey.text_lexeme (k : JsonKey) : k.lexeme.text = k.written := by
  cases k <;> simp [lexeme, written]

namespace JsonTerm

/-- Lines between brackets, each a step deeper. -/
def blockLexemes (opening closing : String) (depth : Nat) (lines : List (List Lexeme)) : List Lexeme :=
  if lines.isEmpty then [mark opening, mark closing]
  else
    [mark opening, lineEnd] ++
      List.intercalate [mark ",", lineEnd] (lines.map (gap (4 * (depth + 1)) ++ ·)) ++
      [lineEnd] ++ gap (4 * depth) ++ [mark closing]

mutual

def lexemes (depth : Nat) : JsonTerm → List Lexeme
  | .null => [word "null"]
  | .bool b => [word (if b then "true" else "false")]
  | .number text => pieces text
  | .literal l => [l.lexeme]
  | .reference text => pieces text
  | .arithmetic text => pieces text
  | .array items => blockLexemes "[" "]" depth (itemLexemes (depth + 1) items)
  | .object members => blockLexemes "\x7b" "\x7d" depth (memberLexemes (depth + 1) members)

def itemLexemes (depth : Nat) : List JsonTerm → List (List Lexeme)
  | [] => []
  | t :: ts => lexemes depth t :: itemLexemes depth ts

def memberLexemes (depth : Nat) : List (JsonKey × JsonTerm) → List (List Lexeme)
  | [] => []
  | (k, t) :: ms => (k.lexeme :: mark ":" :: blank 1 :: lexemes depth t) :: memberLexemes depth ms

end

theorem chars_block {opening closing : String} {depth : Nat} {lines : List (List Lexeme)}
    {texts : List String} (h : lines.map chars = texts.map String.toList) :
    chars (blockLexemes opening closing depth lines) = (block opening closing depth texts).toList := by
  have hempty : lines.isEmpty = texts.isEmpty := by
    have := congrArg List.length h
    cases lines <;> cases texts <;> simp at this ⊢
  unfold blockLexemes block
  rw [hempty]
  split
  · simp
  · have hlines : lines.map (fun line => List.replicate (4 * (depth + 1)) ' ' ++ chars line) =
        texts.map (fun text => List.replicate (4 * (depth + 1)) ' ' ++ text.toList) := by
      have := congrArg (List.map (List.replicate (4 * (depth + 1)) ' ' ++ ·)) h
      simpa [Function.comp_def] using this
    simp [chars_intercalate, String.toList_intercalate, indent, Function.comp_def, hlines]

mutual

theorem chars_lexemes (depth : Nat) (t : JsonTerm) :
    chars (t.lexemes depth) = (t.written depth).toList := by
  cases t with
  | null => simp [lexemes, written]
  | bool b => cases b <;> simp [lexemes, written]
  | number text => simp [lexemes, written]
  | literal l => simp [lexemes, written]
  | reference text => simp [lexemes, written]
  | arithmetic text => simp [lexemes, written]
  | array items =>
    rw [lexemes, written]
    exact chars_block (chars_itemLexemes (depth + 1) items)
  | object members =>
    rw [lexemes, written]
    exact chars_block (chars_memberLexemes (depth + 1) members)

theorem chars_itemLexemes (depth : Nat) (items : List JsonTerm) :
    (itemLexemes depth items).map chars = (writtenItems depth items).map String.toList := by
  cases items with
  | nil => simp [itemLexemes, writtenItems]
  | cons t ts =>
    have ht := chars_lexemes depth t
    have hts := chars_itemLexemes depth ts
    simp [itemLexemes, writtenItems, ht, hts]

theorem chars_memberLexemes (depth : Nat) (members : List (JsonKey × JsonTerm)) :
    (memberLexemes depth members).map chars = (writtenMembers depth members).map String.toList := by
  cases members with
  | nil => simp [memberLexemes, writtenMembers]
  | cons m ms =>
    obtain ⟨k, t⟩ := m
    have ht := chars_lexemes depth t
    have hms := chars_memberLexemes depth ms
    simp [memberLexemes, writtenMembers, ht, hms]

end

end JsonTerm

namespace Argument

def lexemes (a : Argument) : List Lexeme :=
  match a.name with
  | some name => [word name, op "=", quoted a.value]
  | none => [quoted a.value]

def written (a : Argument) : String :=
  match a.name with
  | some name => name ++ "=" ++ quoteText a.value
  | none => quoteText a.value

def plain (value : String) : Argument := ⟨none, value⟩

/-- Arguments with their names, without those that are missing. -/
def named (args : List (String × Option String)) : List Argument :=
  args.filterMap fun (name, value) => value.map fun v => ⟨some name, v⟩

theorem chars_lexemes (a : Argument) : chars a.lexemes = a.written.toList := by
  unfold lexemes written
  cases a.name <;> simp [quoteText]

theorem chars_map_lexemes (args : List Argument) :
    (args.map lexemes).map chars = (args.map written).map String.toList := by
  simp [chars_lexemes]

theorem map_written_named (args : List (String × Option String)) :
    (named args).map written = namedArguments args := by
  simp only [named, namedArguments, List.map_filterMap]
  congr 1
  funext ⟨name, value⟩
  cases value <;> rfl

end Argument

namespace Auth

def callName : Auth → String
  | .basic .. => "basicauth"
  | .digest .. => "digestauth"
  | .ntlm .. => "ntlmauth"
  | .hawk .. => "hawkauth"
  | .aws .. => "awsauth"
  | .azure (.secret ..) => "azurespsecret"
  | .azure (.certificate ..) => "azurespcert"
  | .azure (.cli _) => "azurecli"
  | .azure (.device _) => "azuredevicecode"

def arguments : Auth → List Argument
  | .basic user password => [.plain user, .plain password]
  | .digest user password => [.plain user, .plain password]
  | .ntlm user password => [.plain user, .plain password]
  | .hawk id key algorithm => [.plain id, .plain key] ++ (algorithm.map Argument.plain).toList
  | .aws accessId secretKey service region sessionToken =>
    Argument.named [("access_id", some accessId), ("secret_key", some secretKey),
      ("service", service), ("region", region), ("session_token", sessionToken)]
  | .azure (.secret tenant client secret scope) =>
    Argument.named [("tenant_id", some tenant), ("client_id", some client),
      ("client_secret", some secret), ("scope", scope)]
  | .azure (.certificate tenant client path password scope) =>
    Argument.named [("tenant_id", some tenant), ("client_id", some client),
      ("certificate_path", some path), ("certificate_password", password), ("scope", scope)]
  | .azure (.cli scope) => Argument.named [("scope", scope)]
  | .azure (.device scope) => Argument.named [("scope", scope)]

def lexemes (a : Auth) : List Lexeme := call (word a.callName) (a.arguments.map Argument.lexemes)

theorem written_eq (a : Auth) : a.written = callText a.callName (a.arguments.map Argument.written) := by
  cases a with
  | azure flow => cases flow <;> simp [written, callName, arguments, Argument.map_written_named]
  | hawk id key algorithm => cases algorithm <;> rfl
  | aws => simp [written, callName, arguments, Argument.map_written_named]
  | _ => rfl

theorem chars_lexemes (a : Auth) : chars a.lexemes = a.written.toList := by
  rw [written_eq]
  exact chars_call rfl (Argument.chars_map_lexemes _)

end Auth

namespace Certificate

def callName : Certificate → String
  | .pem .. => "certificate"
  | .p12 .. => "p12"

def arguments : Certificate → List Argument
  | .pem certificate key => Argument.named [("cert", some certificate), ("key", key)]
  | .p12 file password => Argument.named [("file", some file), ("password", password)]

def lexemes (c : Certificate) : List Lexeme :=
  call (word c.callName) (c.arguments.map Argument.lexemes)

theorem written_eq (c : Certificate) :
    c.written = callText c.callName (c.arguments.map Argument.written) := by
  cases c <;> simp [written, callName, arguments, Argument.map_written_named]

theorem chars_lexemes (c : Certificate) : chars c.lexemes = c.written.toList := by
  rw [written_eq]
  exact chars_call rfl (Argument.chars_map_lexemes _)

end Certificate

namespace PartTerm

def lexemes (p : PartTerm) : List Lexeme :=
  [blank 4, quoted p.name, blank 1, op "<", blank 1, quoted p.source] ++
    (match p.mime with
      | some mime => [blank 1, mark ";", blank 1, quoted mime]
      | none => []) ++ [mark ",", lineEnd]

theorem chars_lexemes (p : PartTerm) : chars p.lexemes = p.written.toList := by
  unfold lexemes written
  cases p.mime <;> simp [quoteText, indent]

end PartTerm

namespace PayloadTerm

/-- An optional last argument. -/
def mimeLexemes (mime : Option String) : List (List Lexeme) := (mime.map fun m => [quoted m]).toList

def lexemes : PayloadTerm → List Lexeme
  | .raw chunks mime =>
    call (word "data")
      (List.intercalate [blank 1] (chunks.map fun l => [l.lexeme]) :: mimeLexemes mime)
  | .form term => [word "urlencoded", mark "("] ++ term.lexemes 0 ++ [mark ")"]
  | .json term => [word "json", mark "("] ++ term.lexemes 0 ++ [mark ")"]
  | .file path mime => call (word "fileinput") ([quoted path] :: mimeLexemes mime)
  | .multipart parts =>
    [word "files", mark "(", lineEnd] ++ parts.flatMap PartTerm.lexemes ++ [mark ")"]

theorem chars_mimeLexemes (mime : Option String) :
    (mimeLexemes mime).map chars = (mime.map quoteText).toList.map String.toList := by
  cases mime <;> simp [mimeLexemes, quoteText]

theorem chars_lexemes (p : PayloadTerm) : chars p.lexemes = p.written.toList := by
  cases p with
  | raw chunks mime =>
    refine chars_call rfl ?_
    simp [chars_mimeLexemes, chars_intercalate, String.toList_intercalate, Function.comp_def]
  | form term => simp [lexemes, written, JsonTerm.chars_lexemes]
  | json term => simp [lexemes, written, JsonTerm.chars_lexemes]
  | file path mime =>
    refine chars_call rfl ?_
    simp [chars_mimeLexemes, quoteText]
  | multipart parts =>
    have : chars (parts.flatMap PartTerm.lexemes) = parts.flatMap fun p => p.written.toList := by
      induction parts with
      | nil => rfl
      | cons p ps ih => simp [PartTerm.chars_lexemes, ih]
    simp [lexemes, written, this, List.flatMap_map]

end PayloadTerm

namespace Script

/-- The block with its language, if that is not the usual one. -/
def block (s : Script) : String :=
  "\x7b%" ++ (if s.language = .python then " python" else "") ++ "\n" ++ s.source ++ "\n%\x7d"

def lexemes (s : Script) : List Lexeme := [op ">", blank 1, ⟨.script, s.block⟩]

theorem chars_lexemes (s : Script) : chars s.lexemes = s.written.toList := by
  simp [lexemes, written, block]

end Script

namespace Request

def descriptionLines (r : Request) : List (List Char) :=
  match r.description with
  | some text => Text.splitLines text.toList
  | none => []

def nameLexemes (r : Request) : List (List Lexeme) :=
  match r.name with
  | some name =>
    [call ⟨.tag, "@name"⟩ [[quoted name]] ++
      (match r.base with
        | some base => [blank 1, mark ":", blank 1, quoted base]
        | none => [])]
  | none => []

def targetLexemes (r : Request) : List Lexeme :=
  match r.method with
  | some m => [word m.name, blank 1, quoted r.url]
  | none => [quoted r.url]

/-- The lines above the request's own: comments that describe it. -/
def describing (r : Request) : List (List Lexeme) :=
  r.descriptionLines.map fun line => [⟨.comment, "// " ++ String.ofList line⟩]

def tagLexemes (r : Request) : List (List Lexeme) :=
  r.nameLexemes ++ (flagLines r.flags).map (fun tag => [⟨.tag, tag⟩]) ++
    r.tags.map fun (key, value) => call ⟨.tag, "@" ++ key⟩ [[quoted value]]

def clauseLexemes (r : Request) : List (List Lexeme) :=
  (r.auth.map Auth.lexemes).toList ++ (r.certificate.map Certificate.lexemes).toList ++
    r.headers.map (fun (k, v) => [quoted k, mark ":", blank 1, quoted v]) ++
    r.queries.map (fun (k, v) => [op "?", blank 1, quoted k, op "=", blank 1, quoted v]) ++
    (r.payload.map PayloadTerm.lexemes).toList ++
    (r.output.map fun path => call (word "output") [[quoted path]]).toList ++
    (r.script.map Script.lexemes).toList

def lineLexemes (r : Request) : List (List Lexeme) :=
  r.describing ++ r.tagLexemes ++ [r.targetLexemes] ++ r.clauseLexemes

def lexemes (r : Request) : List Lexeme :=
  r.lineLexemes.flatMap (· ++ [lineEnd]) ++ [lineEnd, lineEnd]

theorem chars_targetLexemes (r : Request) : chars r.targetLexemes = r.targetLine.toList := by
  unfold targetLexemes targetLine
  cases r.method <;> simp [quoteText]

theorem chars_lineLexemes (r : Request) :
    r.lineLexemes.map chars = (r.headLines ++ r.clauseLines).map String.toList := by
  have hdescribing : r.describing.map chars = (match r.description with
      | some text => (Text.splitLines text.toList).map fun line => "// " ++ String.ofList line
      | none => []).map String.toList := by
    unfold describing descriptionLines
    cases r.description <;> simp
  have hname : r.nameLexemes.map chars = r.nameLine.map String.toList := by
    unfold nameLexemes nameLine
    cases r.name with
    | none => rfl
    | some name =>
      have hcall : chars (call ⟨.tag, "@name"⟩ [[quoted name]]) =
          (callText "@name" [quoteText name]).toList := chars_call rfl (by simp [quoteText])
      cases r.base <;> simp [hcall, quoteText]
  have htag (key value : String) : chars (call ⟨.tag, "@" ++ key⟩ [[quoted value]]) =
      (callText ("@" ++ key) [quoteText value]).toList :=
    chars_call rfl (by simp [quoteText])
  have houtput (path : String) : chars (call (word "output") [[quoted path]]) =
      (callText "output" [quoteText path]).toList :=
    chars_call rfl (by simp [quoteText])
  have hoption {α : Type} (f : α → List Lexeme) (g : α → String) (o : Option α)
      (h : ∀ x, chars (f x) = (g x).toList) :
      (o.map f).toList.map chars = (o.map g).toList.map String.toList := by
    cases o <;> simp [h]
  simp only [lineLexemes, tagLexemes, clauseLexemes, headLines, clauseLines, List.map_append,
    hdescribing, hname, hoption _ _ _ Auth.chars_lexemes, hoption _ _ _ Certificate.chars_lexemes,
    hoption _ _ _ PayloadTerm.chars_lexemes, hoption _ _ _ Script.chars_lexemes,
    hoption _ _ _ houtput]
  simp only [List.map_map, List.map_singleton, Function.comp_def, chars_targetLexemes, htag, chars_cons, chars_nil, quoteText]
  cases r.description <;> simp

theorem chars_lexemes (r : Request) : chars r.lexemes = r.written.toList := by
  have h := congrArg (List.flatMap (· ++ ['\n'])) r.chars_lineLexemes
  simp only [List.flatMap_map] at h
  have hlines (ls : List (List Lexeme)) :
      chars (ls.flatMap (· ++ [lineEnd])) = ls.flatMap fun l => chars l ++ ['\n'] := by
    induction ls with
    | nil => rfl
    | cons l ls ih => simp [ih]
  simp only [lexemes, written, chars_append, hlines, h, String.toList_append, String.toList_join,
    List.flatMap_map]
  simp

end Request

/-- An argument as it is written, bare or in quotes. -/
def argumentLexemes (value : String) : List Lexeme :=
  if Numeral.isNumeral value || ['{', '{'].isPrefixOf value.toList then pieces value
  else [quoted value]

theorem chars_argumentLexemes (value : String) :
    chars (argumentLexemes value) = (argumentText value).toList := by
  unfold argumentLexemes argumentText
  split <;> simp [quoteText]

namespace VariableBody

def lexemes : VariableBody → List Lexeme
  | .value term => term.lexemes 0
  | .call function args => Lexeme.call (word ("$" ++ function)) (args.map argumentLexemes)
  | .template text => [word "p", quoted text]

theorem chars_lexemes (b : VariableBody) : chars b.lexemes = b.written.toList := by
  cases b with
  | value term => simp [lexemes, written, JsonTerm.chars_lexemes]
  | call function args =>
    refine chars_call rfl ?_
    simp [chars_argumentLexemes]
  | template text => simp [lexemes, written, quoteText]

end VariableBody

def Import.lexemes (i : Import) : List Lexeme :=
  [⟨.keyword, "import"⟩, blank 1, quoted i.path, mark ";", lineEnd]

def Variable.lexemes (v : Variable) : List Lexeme :=
  [⟨.keyword, "var"⟩, blank 1, word v.name, blank 1, op "=", blank 1] ++ v.body.lexemes ++
    [mark ";", lineEnd]

namespace Document

/-- Imports and variables. -/
def headLexemes (d : Document) : List Lexeme :=
  d.imports.flatMap Import.lexemes ++ d.vars.flatMap Variable.lexemes

def lexemes (d : Document) : List Lexeme :=
  d.headLexemes ++ (if d.imports.isEmpty && d.vars.isEmpty then [] else [lineEnd]) ++
    d.requests.flatMap Request.lexemes

theorem chars_lexemes (d : Document) : chars d.lexemes = d.written.toList := by
  have hflat {α : Type} (f : α → List Lexeme) (g : α → String) (xs : List α)
      (h : ∀ x ∈ xs, chars (f x) = (g x).toList) :
      chars (xs.flatMap f) = (xs.map g).flatMap String.toList := by
    induction xs with
    | nil => rfl
    | cons x xs ih =>
      have hx := h x (by simp)
      have hxs := ih fun y hy => h y (by simp [hy])
      simp [hx, hxs]
  have himports : chars (d.imports.flatMap Import.lexemes) =
      (d.imports.map fun i => "import " ++ quoteText i.path ++ ";\n").flatMap String.toList :=
    hflat _ _ _ fun i _ => by simp [Import.lexemes, quoteText]
  have hvars : chars (d.vars.flatMap Variable.lexemes) =
      (d.vars.map fun v => "var " ++ v.name ++ " = " ++ v.body.written ++ ";\n").flatMap
        String.toList :=
    hflat _ _ _ fun v _ => by simp [Variable.lexemes, VariableBody.chars_lexemes]
  have hrequests : chars (d.requests.flatMap Request.lexemes) =
      (d.requests.map Request.written).flatMap String.toList :=
    hflat _ _ _ fun r _ => r.chars_lexemes
  simp only [lexemes, headLexemes, written, chars_append, himports, hvars, hrequests,
    String.toList_append, String.toList_join, List.flatMap_append]
  cases d.imports <;> cases d.vars <;> simp

end Document

end RequestLang
