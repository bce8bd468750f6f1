import RequestLang.SyntaxError

/-! Everything that can go wrong with a request, with its text and its exit code. -/
namespace RequestLang

/-- What a file that could not be found was wanted for. -/
inductive FileRole where
  | request | imported | property | payload | certificate | output
  deriving DecidableEq, Repr

def FileRole.label : FileRole → String
  | .request => "http file"
  | .imported => "import file"
  | .property => "property file"
  | .payload => "payload file"
  | .certificate => "certificate file"
  | .output => "output file"

inductive PropertyFileFault where
  | unreadable
  | topLevel
  | section_ (name : String)
  deriving DecidableEq, Repr

def PropertyFileFault.message : PropertyFileFault → String
  | .unreadable => ""
  | .topLevel => ": top level must be an object"
  | .section_ name => ": section `" ++ name ++ "` must be an object"

inductive Failure where
  | syntaxError (e : SyntaxError)
  | fileNotFound (role : FileRole) (path : String)
  | propertyFileInvalid (path : String) (fault : PropertyFileFault)
  | propertyNotFound (names : List String) (propertyFile : String)
  | propertyConflict (name : String)
  | malformedProperty (text : String)
  | duplicateTarget (name : String)
  | targetNotFound (name : String)
  | undefinedBase (name base : String)
  | circularBase (chain : List String)
  | payloadInvalid (reason : String)
  | authIncomplete (reason : String)
  | network (reason : String)
  | fileAccess (reason : String)
  | generic (text : String)
  /-- A remainder that sixty-four bits cannot hold, or a generated value that memory cannot. The
  program goes no further. -/
  | overflow
  /-- A pattern by which no date can be written. The program goes no further. -/
  | unwritableDate
  deriving DecidableEq, Repr

namespace Failure

def notText : Failure := .fileAccess "stream did not contain valid UTF-8"

def quotedNames (names : List String) : String :=
  ", ".intercalate (names.map fun n => "`" ++ n ++ "`")

def message (workingDir : String) : Failure → String
  | .syntaxError e => e.message workingDir
  | .fileNotFound role path => role.label ++ ": `" ++ path ++ "` not found"
  | .propertyFileInvalid path fault => "property file `" ++ path ++ "` is invalid" ++ fault.message
  | .propertyNotFound names file =>
    "property " ++ quotedNames names ++ " not defined in `" ++ file ++ "`"
  | .propertyConflict name =>
    "property: `" ++ name ++ "` is defaulted with two/more different values"
  | .malformedProperty text =>
    "command line property `" ++ text ++ "` is malformed, expected key=value"
  | .duplicateTarget name => "target: `" ++ name ++ "` appeared twice or more"
  | .targetNotFound name => "target `" ++ name ++ "` is not spelled correctly or does not exist"
  | .undefinedBase name base =>
    "request `" ++ name ++ "` extends `" ++ base ++ "`, which is not defined"
  | .circularBase chain => "circular inheritance detected: " ++ " -> ".intercalate chain
  | .payloadInvalid reason => "payload is invalid: " ++ reason
  | .authIncomplete reason => "auth configuration is incomplete: " ++ reason
  | .network reason => "network error: " ++ reason
  | .fileAccess reason => "IO error: " ++ reason
  | .generic text => text
  | .overflow => "attempt to calculate the remainder with overflow"
  | .unwritableDate => "a Display implementation returned an error unexpectedly: Error"

/-- The program ends without an answer. -/
def ends : Failure → Bool
  | .overflow | .unwritableDate => true
  | _ => false

/-- Two for usage, three for syntax, four for properties and targets, five for the network, a code
of its own for what ends the program and one for the rest. -/
def exitCode : Failure → Nat
  | .malformedProperty _ => 2
  | .syntaxError _ | .duplicateTarget _ => 3
  | .propertyNotFound .. | .propertyConflict _ | .propertyFileInvalid .. | .targetNotFound _
  | .undefinedBase .. | .circularBase _ => 4
  | .network _ => 5
  | .overflow | .unwritableDate => 101
  | .fileNotFound .. | .payloadInvalid _ | .authIncomplete _ | .fileAccess _ | .generic _ => 1

/-- Only a syntax error points at a place in the text. -/
def hint? : Failure → Option String
  | .syntaxError e => some e.hint
  | _ => none

end Failure
end RequestLang
