import RequestLang.Proofs.Curl.Options
import RequestLang.Proofs.Json.OneLine
import RequestLang.Proofs.Url.Form

/-! The files that a command is made to read. The program takes a value that begins with a mark for the name of a
file, whether the mark was written by the command or belongs to what is to be sent. -/
namespace RequestLang

namespace Json

theorem head?_enclose (l : Layout) {opening : String} {c : Char} {cs : List Char} (h : opening.toList = c :: cs)
    (closing : String) (depth : Nat) (parts : List String) :
    (l.enclose opening closing depth parts).toList.head? = some c := by
  unfold Layout.enclose
  split <;> simp [h]

/-- No value is written with a mark at its head that names a file. -/
theorem head?_pretty (v : Json) (step : Nat) : (v.pretty step).toList.head? ≠ some '@' := by
  cases v with
  | null => simp [pretty, write]
  | bool b => cases b <;> simp [pretty, write]
  | number n => exact fun h => not_mem_text (by decide) (by decide) n (List.mem_of_head? h)
  | str s => simp [pretty, write, quoted]
  | arr items => simp [pretty, write, head?_enclose _ (show "[".toList = '[' :: [] from rfl)]
  | obj members => simp [pretty, write, head?_enclose _ (show "\x7b".toList = '\x7b' :: [] from rfl)]

end Json

namespace Curl

/-- The file that a value of `-d` or `--data` names. -/
def dataFile? (value : String) : Option String :=
  match value.toList with
  | '@' :: path => some (String.ofList path)
  | _ => none

/-- The files that the data of a command is read from. -/
def dataFiles (switches : List Switch) : List String :=
  (valuesOf "-d" switches ++ valuesOf "--data" switches).filterMap dataFile?

/-- What stands behind the first equals sign of a `--form` value. -/
def formContent (value : String) : List Char := (value.toList.dropWhile (· != '=')).tail

def namesFile (content : List Char) : Bool := content.head? = some '@' || content.head? = some '<'

/-- Whether a `--form` value names a file. -/
def readsFile (value : String) : Bool := namesFile (formContent value)

theorem dataFile?_eq_none {value : String} : dataFile? value = none ↔ value.toList.head? ≠ some '@' := by
  unfold dataFile?
  split
  · rename_i path hvalue
    simp [hvalue]
  · rename_i hother
    simp only [true_iff]
    intro hhead
    obtain ⟨path, hvalue⟩ := List.head?_eq_some_iff.mp hhead
    exact hother path hvalue

theorem dataFiles_payload (p : Option Payload) : dataFiles (payloadSwitches p) =
      match p with
      | some (.file path _ _) => [path]
      | some (.raw body _) => (dataFile? body).toList
      | _ => [] := by
  have hform (pairs : List (String × String)) : dataFile? (Form.encode pairs) = none :=
    dataFile?_eq_none.mpr fun h => Form.not_mem_encode (by decide) pairs (List.mem_of_head? h)
  have hjson (v : Json) : dataFile? (v.pretty 4) = none := dataFile?_eq_none.mpr (v.head?_pretty 4)
  rcases p with _ | p
  · rfl
  cases p with
  | raw body mime => cases h : dataFile? body <;> simp [dataFiles, payloadSwitches, valuesOf, Switch.value?, h]
  | form fields => simp [dataFiles, payloadSwitches, valuesOf, Switch.value?, hform]
  | json value => simp [dataFiles, payloadSwitches, valuesOf, Switch.value?, hjson]
  | file path content mime => simp [dataFiles, payloadSwitches, valuesOf, Switch.value?, dataFile?]
  | multipart parts => simp [dataFiles, payloadSwitches, valuesOf, Switch.value?, List.filterMap_map, Function.comp_def]

theorem formContent_eq {value : String} {name content : List Char} (h : value.toList = name ++ '=' :: content)
    (hname : '=' ∉ name) : formContent value = content := by
  have hpass : ∀ c ∈ name, (c != '=') = true := fun c hc => by simpa using ne_of_mem_of_not_mem hc hname
  rw [formContent, h, List.dropWhile_append_of_pos hpass]
  rfl

/-- A name with an equals sign ends there, and what follows is taken for the beginning of the content. -/
theorem readsFile_partText (p : Part) : readsFile (partText p) =
    if '=' ∈ p.name.toList then readsFile p.name else p.filename.isSome || namesFile p.source.toList := by
  let content := if p.filename.isSome then '@' :: p.source.toList else p.source.toList
  have htext : (partText p).toList = p.name.toList ++ '=' :: content := by
    unfold partText
    cases hfile : p.filename <;> simp [content, hfile]
  rw [readsFile, readsFile]
  split
  · rename_i hmem
    obtain ⟨before, after, hname, hbefore⟩ := List.eq_append_cons_of_mem hmem
    have hlong : (partText p).toList = before ++ '=' :: (after ++ '=' :: content) := by simp [htext, hname]
    rw [formContent_eq hlong hbefore, formContent_eq hname hbefore]
    cases after <;> simp [namesFile]
  · rename_i hmem
    rw [formContent_eq htext hmem]
    cases hfile : p.filename <;> simp [content, hfile, namesFile]

end Curl

/-- The parts of a multipart payload. -/
def Definition.parts (d : Definition) : List Part :=
  match d.payload with
  | some (.multipart parts) => parts
  | _ => []

theorem Curl.valuesOf_form (d : Definition) : valuesOf "--form" (payloadSwitches d.payload) = d.parts.map partText := by
  unfold Definition.parts
  rcases d.payload with _ | p
  · rfl
  cases p with
  | multipart parts => simp [payloadSwitches, valuesOf, Switch.value?, List.filterMap_map, Function.comp_def]
  | _ => rfl

/-- The data of a command is read from the file of a payload that is one, and else from no file unless it is a text
that begins with the mark of one. A part is read from a file exactly if it was to begin with, unless it is written out
and its content begins with such a mark, or its name has an equals sign and is cut there. -/
theorem Definition.files_read {d : Definition} {now : Nat} {c : Curl.Command} (h : Curl.command now d = .ok c) :
    ∃ switches, Curl.readLine? c.text = some switches ∧
      (Curl.dataFiles switches = match d.payload with
        | some (.file path _ _) => [path]
        | some (.raw body _) => (Curl.dataFile? body).toList
        | _ => []) ∧
      ((Curl.dataFiles switches ≠ [] ↔ ∃ path content mime, d.payload = some (.file path content mime)) ↔
        ∀ body mime, d.payload = some (.raw body mime) → body.toList.head? ≠ some '@') ∧
      Curl.valuesOf "--form" switches = d.parts.map Curl.partText ∧
      ∀ p ∈ d.parts, (Curl.readsFile (Curl.partText p) = p.filename.isSome ↔
        if '=' ∈ p.name.toList then Curl.readsFile p.name = p.filename.isSome
        else p.filename = none → Curl.namesFile p.source.toList = false) := by
  obtain ⟨signed, switches, -, hread, -, hvalues⟩ := Curl.valuesOf_command h
  have hsame : Curl.dataFiles switches = Curl.dataFiles (Curl.payloadSwitches d.payload) := by
    rw [Curl.dataFiles, Curl.dataFiles, hvalues "-d" (by decide), hvalues "--data" (by decide)]
  have hfiles := hsame.trans (Curl.dataFiles_payload d.payload)
  refine ⟨switches, hread, hfiles, ?_, ?_, fun p _ => ?_⟩
  · rw [hfiles]
    rcases d.payload with _ | p
    · simp
    cases p with
    | raw body mime => simp [← Curl.dataFile?_eq_none]
    | _ => simp
  · rw [hvalues "--form" (by decide), Curl.valuesOf_form]
  · rw [Curl.readsFile_partText]
    split
    · rfl
    · cases p.filename <;> simp

/-- A body that begins with an at sign is taken for the name of a file. -/
theorem Definition.files_read_mark :
    let d : Definition :=
      { name := "1", description := none, method := .POST, url := "http://h", headers := {}, query := []
        payload := some (.raw "@/etc/passwd" none), auth := none, certificate := none, output := none
        proxy := {}, flags := {}, script := none }
    ∃ c switches, Curl.command 0 d = .ok c ∧ Curl.readLine? c.text = some switches ∧
      Curl.dataFiles switches = ["/etc/passwd"] := by
  intro d
  have hcommand := Curl.command_eq 0 d
  obtain ⟨switches, hread, hfiles, -⟩ := files_read hcommand
  exact ⟨_, switches, hcommand, hread, hfiles.trans (by decide)⟩

end RequestLang
