import RequestLang.Shell.Words
import RequestLang.Text.Search

/-! A few shell commands: printing, succeeding, failing and leaving. -/
namespace RequestLang.Shell

/-- What a command printed and with which status it ended. `left` tells that the shell ends. -/
structure Outcome where
  printed : List Char := []
  status : Nat := 0
  left : Bool := false
  deriving Repr

def escaped? : Char → Option Char
  | 'n' => some '\n'
  | 't' => some '\t'
  | 'r' => some '\r'
  | 'a' => some '\x07'
  | 'b' => some '\x08'
  | 'f' => some '\x0c'
  | 'v' => some '\x0b'
  | '\\' => some '\\'
  | _ => none

def unescape : List Char → List Char
  | '\\' :: c :: cs =>
    match escaped? c with
    | some d => d :: unescape cs
    | none => '\\' :: c :: unescape cs
  | c :: cs => c :: unescape cs
  | [] => []

def echo (args : List (List Char)) : Outcome :=
  match args with
  | ['-', 'n'] :: args => { printed := unescape (List.intercalate [' '] args) }
  | args => { printed := unescape (List.intercalate [' '] args) ++ ['\n'] }

/-- Fills the fields of a format from left to right; a missing argument is empty. -/
def fill : List Char → List (List Char) → List Char × List (List Char)
  | '%' :: '%' :: cs, args =>
    let (text, args) := fill cs args
    ('%' :: text, args)
  | '%' :: c :: cs, args =>
    if c = 's' ∨ c = 'd' ∨ c = 'i' then
      let (text, left) := fill cs args.tail
      let value := args.headD (if c = 's' then [] else ['0'])
      (value ++ text, left)
    else
      let (text, args) := fill cs args
      ('%' :: c :: text, args)
  | '\\' :: c :: cs, args =>
    let (text, args) := fill cs args
    match escaped? c with
    | some d => (d :: text, args)
    | none => ('\\' :: c :: text, args)
  | c :: cs, args =>
    let (text, args) := fill cs args
    (c :: text, args)
  | [], args => ([], args)

/-- A format is used again while arguments are left. -/
def fillAll : Nat → List Char → List (List Char) → List Char
  | 0, _, _ => []
  | n + 1, format, args =>
    let (text, left) := fill format args
    if left.isEmpty || left.length = args.length then text else text ++ fillAll n format left

def statusOf (args : List (List Char)) (last : Nat) : Nat :=
  match args with
  | [] => last
  | n :: _ => ((Text.natural? n).getD 2) % 256

def runSimple (last : Nat) : List (List Char) → Outcome
  | [] => { status := last }
  | name :: args =>
    match String.ofList name with
    | "echo" => echo args
    | "printf" =>
      match args with
      | [] => { status := 2 }
      | format :: args => { printed := fillAll (args.length + 1) format args }
    | "true" | ":" => {}
    | "false" => { status := 1 }
    | "exit" => { status := statusOf args last, left := true }
    | _ => { status := 127 }

/-- Whether a command runs, after what separates it from the one before. -/
def mayRun (mark : List Char) (status : Nat) : Bool :=
  if mark = ['&', '&'] then status == 0 else if mark = ['|', '|'] then status != 0 else true

/-- Commands in order, each a run of words. -/
def runPieces (mark : List Char) (words : List (List Char)) (status : Nat) : List Piece → Outcome
  | .word w :: rest => runPieces mark (words ++ [w]) status rest
  | .separator next :: rest =>
    let o := if mayRun mark status then runSimple status words else { status }
    if o.left then o
    else
      let after := runPieces next [] o.status rest
      { after with printed := o.printed ++ after.printed }
  | [] => if mayRun mark status then runSimple status words else { status }

/-- What a command line prints, unless it fails. -/
def run (line : String) : Option String :=
  match lex .plain none line.toList with
  | none => none
  | some pieces =>
    let o := runPieces [';'] [] 0 pieces
    if o.status = 0 then some (String.ofList o.printed) else none

end RequestLang.Shell
