import RequestLang.Proofs.Curl

/-! The options of a command, as the program reads them out of the words that a shell hands on. -/
namespace RequestLang.Curl

/-- Whether the word behind an option is its value, among the options that commands consist of. -/
def takesValue (name : String) : Bool :=
  ["-X", "--url", "--user", "-H", "--cert", "--key", "--cert-type", "--unix-socket", "--data", "-d",
    "--form"].contains name

/-- The options in a run of words, each with its value. -/
def readSwitches : List String → List Switch
  | name :: value :: words =>
    if takesValue name then .valued name value :: readSwitches words
    else .bare name :: readSwitches (value :: words)
  | [name] => [.bare name]
  | [] => []

/-- The options of a line that a shell is left only to split, behind the name of the program. -/
def readLine? (line : String) : Option (List Switch) :=
  (Shell.split? line.toList).map fun words => readSwitches (words.tail.map String.ofList)

/-- Only an option that takes a value has one. -/
def Switch.fits : Switch → Bool
  | .bare name => !takesValue name
  | .valued name _ => takesValue name

theorem readSwitches_words {switches : List Switch} (h : ∀ s ∈ switches, s.fits) :
    readSwitches (switches.flatMap Switch.words) = switches := by
  induction switches with
  | nil => rfl
  | cons s rest ih =>
    rw [List.forall_mem_cons] at h
    rw [List.flatMap_cons]
    cases s with
    | valued name value =>
      have hname : takesValue name := h.1
      simp [Switch.words, readSwitches, hname, ih h.2]
    | bare name =>
      have hname : takesValue name = false := by simpa [Switch.fits] using h.1
      have hbare (words : List String) : readSwitches (name :: words) = .bare name :: readSwitches words := by
        cases words <;> simp [readSwitches, hname]
      rw [Switch.words, List.singleton_append, hbare, ih h.2]

/-- The options that every command begins with. -/
def Command.addressing (c : Command) : List Switch := [.valued "-X" c.method.name, .valued "--url" c.url]

theorem Command.readLine?_text {c : Command} (h : ∀ s ∈ c.addressing ++ c.switches, s.fits) :
    readLine? c.text = some (c.addressing ++ c.switches) := by
  have hwords : c.words = "curl" :: (c.addressing ++ c.switches).flatMap Switch.words := by
    simp [words, addressing, Switch.words]
  rw [readLine?, c.split?_text, hwords]
  simpa using readSwitches_words h

/-- The options of credentials, but for the fields that signing adds. -/
def credentialSwitches : Option Auth → List Switch
  | some (.digest user password) => [.bare "--digest", .valued "--user" (user ++ ":" ++ password)]
  | some (.basic user password) => [.valued "--user" (user ++ ":" ++ password)]
  | _ => []

theorem authSwitches_eq_ok {now : Nat} {d : Definition} {auth : List Switch} : authSwitches now d = .ok auth ↔
    ∃ signed, signedFields now d = .ok signed ∧ auth = credentialSwitches d.auth ++ signed.map headerSwitch := by
  unfold authSwitches signedFields
  rcases hauth : d.auth with _ | a
  · simp [credentialSwitches, eq_comm]
  cases a with
  | aws accessId secretKey service region sessionToken =>
    simp only [credentialSwitches, List.nil_append, map_eq_ok, bind_eq_ok, pure_eq_ok]
    grind
  | _ => simp [credentialSwitches, eq_comm]

/-- Options beside header fields and what a payload is handed over with. -/
def Switch.isPlain : Switch → Bool
  | .bare name => ["--digest", "-k"].contains name
  | .valued name _ => ["-X", "--url", "--user", "--cert", "--key", "--cert-type", "--unix-socket"].contains name

theorem Switch.fits_of_isPlain {s : Switch} (h : s.isPlain) : s.fits := by
  cases s with
  | bare name =>
    simp only [isPlain, List.contains_iff_mem, List.mem_cons, List.not_mem_nil, or_false] at h
    rcases h with rfl | rfl <;> decide
  | valued name value =>
    simp only [isPlain, List.contains_iff_mem] at h
    simp only [fits, takesValue, List.contains_iff_mem]
    exact (by decide : ["-X", "--url", "--user", "--cert", "--key", "--cert-type", "--unix-socket"] ⊆ _) h

theorem isPlain_addressing (c : Command) : ∀ s ∈ c.addressing, s.isPlain := by
  simp [Command.addressing, Switch.isPlain]

theorem isPlain_credentials (a : Option Auth) : ∀ s ∈ credentialSwitches a, s.isPlain := by
  unfold credentialSwitches
  split <;> simp [Switch.isPlain]

theorem isPlain_certificate (c : Option Certificate) : ∀ s ∈ certificateSwitches c, s.isPlain := by
  rcases c with _ | ⟨certificate, _ | key⟩ | ⟨file, password⟩ <;> simp [certificateSwitches, Switch.isPlain]

theorem fits_headers (fields : List (String × String)) : ∀ s ∈ fields.map headerSwitch, s.fits :=
  List.forall_mem_map.mpr fun _ _ => rfl

theorem fits_payload (p : Option Payload) : ∀ s ∈ payloadSwitches p, s.fits := by
  unfold payloadSwitches
  split <;> simp [Switch.fits, takesValue]

/-- The value of an option of this name. -/
def Switch.value? (name : String) : Switch → Option String
  | .valued n value => if n = name then some value else none
  | .bare _ => none

/-- The values of all options of a name, in order. -/
def valuesOf (name : String) (switches : List Switch) : List String := switches.filterMap (Switch.value? name)

/-- The text of a header argument. -/
def fieldText (field : String × String) : String := field.1 ++ ": " ++ field.2

section
variable {name : String}

theorem valuesOf_append (name : String) (switches more : List Switch) :
    valuesOf name (switches ++ more) = valuesOf name switches ++ valuesOf name more := List.filterMap_append

theorem valuesOf_plain (hname : name ∈ ["-H", "-d", "--data", "--form"]) {switches : List Switch}
    (h : ∀ s ∈ switches, s.isPlain) : valuesOf name switches = [] := by
  refine List.filterMap_eq_nil_iff.mpr fun s hs => ?_
  cases s with
  | bare n => rfl
  | valued n value =>
    have hn := h _ hs
    simp only [Switch.isPlain, List.contains_iff_mem] at hn
    refine if_neg ?_
    rintro rfl
    exact (by decide : ∀ n ∈ ["-H", "-d", "--data", "--form"], n ∉ _) n hname hn

theorem valuesOf_headers (fields : List (String × String)) :
    valuesOf "-H" (fields.map headerSwitch) = fields.map fieldText := by
  rw [valuesOf, List.filterMap_map]
  exact congrFun List.filterMap_eq_map fields

theorem valuesOf_headers_of_ne (h : name ≠ "-H") (fields : List (String × String)) :
    valuesOf name (fields.map headerSwitch) = [] := by
  rw [valuesOf, List.filterMap_map]
  exact List.filterMap_eq_nil_iff.mpr fun field _ => if_neg (Ne.symm h)

theorem valuesOf_payload (p : Option Payload) : valuesOf "-H" (payloadSwitches p) = [] := by
  unfold payloadSwitches
  split <;> simp [valuesOf, Switch.value?]

end

/-- The text of a command is read as its options: fields that signing adds, fields of the definition, and what
hands the payload over. -/
theorem valuesOf_command {now : Nat} {d : Definition} {c : Command} (h : command now d = .ok c) :
    ∃ signed switches, signedFields now d = .ok signed ∧ readLine? c.text = some switches ∧
      valuesOf "-H" switches = (signed ++ Aws.sorted d.headers.toList).map fieldText ∧
      ∀ name ∈ ["-d", "--data", "--form"], valuesOf name switches = valuesOf name (payloadSwitches d.payload) := by
  rw [command_eq] at h
  obtain ⟨auth, hauth, hc⟩ := map_eq_ok.mp h
  obtain ⟨signed, hsigned, rfl⟩ := authSwitches_eq_ok.mp hauth
  let before := c.addressing ++ credentialSwitches d.auth
  let between := certificateSwitches d.certificate ++ (if d.flags.insecure then [Switch.bare "-k"] else [])
  let socket := ((splitSocket? d.fullUrl).map fun socket => Switch.valued "--unix-socket" socket.1).toList
  have hbefore : ∀ s ∈ before, s.isPlain := fun s hs =>
    (List.mem_append.mp hs).elim (isPlain_addressing c s) (isPlain_credentials d.auth s)
  have hbetween : ∀ s ∈ between, s.isPlain := fun s hs =>
    (List.mem_append.mp hs).elim (isPlain_certificate d.certificate s) fun hs => by
      split at hs
      · rw [List.mem_singleton.mp hs]
        rfl
      · cases hs
  have hsocket : ∀ s ∈ socket, s.isPlain := fun s hs => by
    obtain ⟨path, -, rfl⟩ := Option.map_eq_some_iff.mp (Option.mem_toList.mp hs)
    rfl
  have hall : c.addressing ++ c.switches = before ++ signed.map headerSwitch ++ between ++
      (Aws.sorted d.headers.toList).map headerSwitch ++ socket ++ payloadSwitches d.payload := by
    rw [show c.switches = _ from congrArg Command.switches hc.symm]
    simp [before, between, socket, leading]
  have hfits : ∀ s ∈ c.addressing ++ c.switches, s.fits := by
    rw [hall]
    simp only [List.mem_append]
    rintro s (((((hs | hs) | hs) | hs) | hs) | hs)
    · exact Switch.fits_of_isPlain (hbefore s hs)
    · exact fits_headers _ s hs
    · exact Switch.fits_of_isPlain (hbetween s hs)
    · exact fits_headers _ s hs
    · exact Switch.fits_of_isPlain (hsocket s hs)
    · exact fits_payload _ s hs
  refine ⟨signed, _, hsigned, c.readLine?_text hfits, ?_, fun name hname => ?_⟩
  · simp [hall, valuesOf_append, valuesOf_plain _ hbefore, valuesOf_plain _ hbetween, valuesOf_plain _ hsocket,
      valuesOf_headers, valuesOf_payload]
  · have hne : name ≠ "-H" := by
      rintro rfl
      exact absurd hname (by decide)
    have hname := List.mem_cons_of_mem "-H" hname
    simp [hall, valuesOf_append, valuesOf_plain hname hbefore, valuesOf_plain hname hbetween,
      valuesOf_plain hname hsocket, valuesOf_headers_of_ne hne]

end RequestLang.Curl
