import RequestLang.Curl
import RequestLang.Proofs.Shell.Words
import RequestLang.Proofs.Steps

/-! The text of a command, as a shell reads it. -/
namespace RequestLang.Curl

theorem Switch.words_ne_nil (s : Switch) : s.words ≠ [] := by
  cases s <;> simp [words]

theorem words_isInfix {s : Switch} {switches : List Switch} (h : s ∈ switches) :
    s.words <:+: switches.flatMap Switch.words := by
  obtain ⟨before, after, rfl⟩ := List.mem_iff_append.mp h
  exact ⟨before.flatMap Switch.words, after.flatMap Switch.words, by simp⟩

/-- A shell takes the text of a command apart into its words, and finds nothing else to act on in it. -/
theorem Command.split?_text (c : Command) : Shell.split? c.text.toList = some (c.words.map String.toList) := by
  let lines := ["curl", "-X", c.method.name, "--url", c.url] :: c.switches.map Switch.words
  have hne : ∀ words ∈ lines.map (·.map String.toList), words ≠ [] := by
    intro words hwords
    obtain ⟨line, hline, rfl⟩ := List.mem_map.mp hwords
    rcases List.mem_cons.mp hline with rfl | hline
    · simp
    · obtain ⟨s, -, rfl⟩ := List.mem_map.mp hline
      simpa using s.words_ne_nil
  have hline (words : List String) :
      (lineText words).toList = List.intercalate [' '] ((words.map String.toList).map Shell.quotedChars) := by
    simp [lineText, String.toList_intercalate, Shell.quote, Function.comp_def]
  have htext : c.text.toList = List.intercalate [' ', '\\', '\n']
      ((lines.map (·.map String.toList)).map fun words => List.intercalate [' '] (words.map Shell.quotedChars)) := by
    simp only [text, String.toList_intercalate, lines, List.map_cons, List.map_map, Function.comp_def, hline]
    rfl
  have hflat : (lines.map (·.map String.toList)).flatten = c.words.map String.toList := by
    simp [lines, words, List.flatMap, List.map_flatten, Function.comp_def]
  rw [htext, Shell.split?_lines (by simp [lines]) hne, hflat]

theorem Command.words?_text (c : Command) : Shell.words? c.text.toList = some (c.words.map String.toList) :=
  Shell.words?_of_split? c.split?_text

/-- The options that say nothing about the payload. -/
def leading (auth : List Switch) (d : Definition) : List Switch :=
  auth ++ certificateSwitches d.certificate ++ (if d.flags.insecure then [Switch.bare "-k"] else []) ++
    (Aws.sorted d.headers.toList).map headerSwitch ++
    ((splitSocket? d.fullUrl).map fun socket => Switch.valued "--unix-socket" socket.1).toList

/-- A command fails only where its credentials do. Its last options are those of the payload. -/
theorem command_eq (now : Nat) (d : Definition) :
    command now d = (authSwitches now d).map fun auth =>
      { method := d.method
        url := ((splitSocket? d.fullUrl).map Prod.snd).getD d.fullUrl
        switches := leading auth d ++ payloadSwitches d.payload } := by
  unfold command leading
  cases authSwitches now d with
  | error e => rfl
  | ok auth =>
    cases splitSocket? d.fullUrl with
    | none => simp [bind, Except.bind, Except.map, pure, Except.pure]
    | some socket => simp [bind, Except.bind, Except.map, pure, Except.pure]

/-! The words that a command is meant to consist of, as they are before anything is quoted. -/

/-- The fields that signing adds to a request that is to be signed. -/
def signedFields (now : Nat) (d : Definition) : Except Failure (List (String × String)) :=
  match d.auth with
  | some (.aws accessId secretKey service region sessionToken) =>
    (Aws.sign .usual (Auth.awsKeys accessId secretKey service region sessionToken) (Moment.ofSeconds now)
      d.outgoing).map fun signed => signed.headers.toList.filter (isSigning ·.1)
  | _ => .ok []

def headerWords (fields : List (String × String)) : List String :=
  fields.flatMap fun field => ["-H", field.1 ++ ": " ++ field.2]

def credentialWords : Option Auth → List String
  | some (.digest user password) => ["--digest", "--user", user ++ ":" ++ password]
  | some (.basic user password) => ["--user", user ++ ":" ++ password]
  | _ => []

def certificateWords : Option Certificate → List String
  | some (.pem certificate (some key)) => ["--cert", certificate, "--key", key]
  | some (.pem certificate none) => ["--cert", certificate]
  | some (.p12 file password) => ["--cert", file ++ ":" ++ password.getD "", "--cert-type", "P12"]
  | none => []

def payloadWords : Option Payload → List String
  | some (.file path _ _) => ["--data", "@" ++ path]
  | some (.multipart parts) =>
    parts.flatMap fun p => ["--form", p.name ++ (if p.filename.isSome then "=@" else "=") ++ p.source]
  | some (.json value) => ["-d", value.pretty 4]
  | some (.form fields) => ["-d", Form.encode fields.pairs]
  | some (.raw body _) => ["-d", body]
  | none => []

/-- The socket goes before the payload, and the URL to be asked for there takes the place of its own. -/
def arguments (signed : List (String × String)) (d : Definition) : List String :=
  let (socket, url) := match splitSocket? d.fullUrl with
    | some (path, url) => (["--unix-socket", path], url)
    | none => ([], d.fullUrl)
  ["curl", "-X", d.method.name, "--url", url] ++ credentialWords d.auth ++ headerWords signed ++
    certificateWords d.certificate ++ (if d.flags.insecure then ["-k"] else []) ++
    headerWords (Aws.sorted d.headers.toList) ++ socket ++ payloadWords d.payload

theorem headerWords_eq (fields : List (String × String)) :
    (fields.map headerSwitch).flatMap Switch.words = headerWords fields := by
  rw [List.flatMap_map]
  rfl

theorem authSwitches_eq (now : Nat) (d : Definition) :
    (authSwitches now d).map (·.flatMap Switch.words) =
      (signedFields now d).map fun signed => credentialWords d.auth ++ headerWords signed := by
  unfold authSwitches signedFields
  cases hauth : d.auth with
  | none => rfl
  | some a =>
    cases a with
    | aws accessId secretKey service region sessionToken =>
      dsimp only
      cases Aws.sign .usual (Auth.awsKeys accessId secretKey service region sessionToken) (Moment.ofSeconds now)
        d.outgoing with
      | error e => rfl
      | ok signed => exact congrArg Except.ok (headerWords_eq _)
    | _ => rfl

theorem certificateSwitches_eq (c : Option Certificate) :
    (certificateSwitches c).flatMap Switch.words = certificateWords c := by
  rcases c with _ | ⟨certificate, _ | key⟩ | ⟨file, password⟩ <;> rfl

theorem payloadSwitches_words (p : Option Payload) : (payloadSwitches p).flatMap Switch.words = payloadWords p := by
  rcases p with _ | p
  · rfl
  cases p with
  | multipart parts =>
    simp only [payloadSwitches, payloadWords, List.flatMap_map]
    refine List.flatMap_congr fun p _ => ?_
    unfold partText
    cases p.filename <;> rfl
  | _ => rfl

theorem leading_words (auth : List Switch) (d : Definition) :
    (leading auth d).flatMap Switch.words =
      auth.flatMap Switch.words ++ certificateWords d.certificate ++ (if d.flags.insecure then ["-k"] else []) ++
        headerWords (Aws.sorted d.headers.toList) ++
        ((splitSocket? d.fullUrl).map fun socket => ["--unix-socket", socket.1]).getD [] := by
  unfold leading
  simp only [List.flatMap_append, certificateSwitches_eq, headerWords_eq]
  congr 1
  · cases d.flags.insecure <;> rfl
  · cases splitSocket? d.fullUrl <;> rfl

/-- A command is what it is meant to be to a shell: it is read as the program, the method, the URL and the
options in order, each value as one word and as it was before quoting, and nothing in it is left for the
shell to act on, whatever the values hold. -/
theorem command_splits {now : Nat} {d : Definition} {c : Command} (h : command now d = .ok c) :
    ∃ signed, signedFields now d = .ok signed ∧
      Shell.split? c.text.toList = some ((arguments signed d).map String.toList) := by
  rw [command_eq] at h
  obtain ⟨auth, hauth, rfl⟩ := map_eq_ok.mp h
  have hsigned := authSwitches_eq now d
  rw [hauth] at hsigned
  obtain ⟨signed, hfields, hwords⟩ := map_eq_ok.mp hsigned.symm
  refine ⟨signed, hfields, ?_⟩
  have hwords : auth.flatMap Switch.words = credentialWords d.auth ++ headerWords signed := hwords.symm
  rw [Command.split?_text]
  unfold Command.words arguments
  rw [List.flatMap_append, leading_words, payloadSwitches_words, hwords]
  cases splitSocket? d.fullUrl <;> simp

/-- A socket, credentials, a header and a body that would break out of a word if they could. -/
theorem command_splits_hostile :
    let d : Definition :=
      { name := "1", description := none, method := .POST, url := "http+unix://%2Ftmp%2Fit's.sock/a?b"
        headers := ({} : Headers).insert "X-Run" "'; rm -rf \"$HOME\" #", query := []
        payload := some (.raw "a\n'\\" none), auth := some (.basic "o'k" ""), certificate := none
        output := none, proxy := {}, flags := {}, script := none }
    ∃ c, command 0 d = .ok c ∧ Shell.split? c.text.toList =
      some (["curl", "-X", "POST", "--url", "http://localhost/a?b", "--user", "o'k:",
        "-H", "X-Run: '; rm -rf \"$HOME\" #", "--unix-socket", "/tmp/it's.sock", "-d", "a\n'\\"].map String.toList) := by
  intro d
  have hcommand := command_eq 0 d
  rw [show authSwitches 0 d = .ok [.valued "--user" "o'k:"] from by decide +kernel] at hcommand
  obtain ⟨signed, hfields, hsplit⟩ := command_splits hcommand
  obtain rfl : [] = signed := Except.ok.inj hfields
  refine ⟨_, hcommand, hsplit.trans ?_⟩
  decide +kernel

end RequestLang.Curl
