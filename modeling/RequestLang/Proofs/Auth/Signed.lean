import RequestLang.Proofs.Auth.Canonical
import RequestLang.Proofs.Curl
import RequestLang.Proofs.Json.OneLine
import RequestLang.Proofs.Session

/-! The body of a signed request: the one whose hash it carries is what a session sends. A command
hands over the same bytes, or its own writing of a JSON value. -/
namespace RequestLang

theorem Bytes.ofString_inj {s t : String} : Bytes.ofString s = Bytes.ofString t ↔ s = t := by
  refine ⟨fun h => String.toByteArray_inj.mp ?_, congrArg _⟩
  have hbytes (u : String) : u.toByteArray = (Bytes.ofString u).toByteArray := by
    conv_lhs => rw [← String.ofList_toList (s := u), String.toByteArray_ofList]
    rfl
  rw [hbytes, hbytes, h]

/-- The text that a command hands over, of payloads that are text. -/
def Payload.handed? : Payload → Option String
  | .raw body _ => some body
  | .form fields => some (Form.encode fields.pairs)
  | .json value => some (value.pretty 4)
  | .file .. => none
  | .multipart _ => none

/-- A JSON value with items or members. -/
def Payload.hasParts : Payload → Bool
  | .json value => value.hasParts
  | _ => false

theorem Payload.body?_eq {p : Payload} {text : String} (h : p.handed? = some text) :
    ∃ body, p.body? = some body ∧ (Bytes.ofString text = body ↔ p.hasParts = false) := by
  cases p with
  | raw body mime =>
    obtain rfl : body = text := by simpa [handed?] using h
    exact ⟨_, rfl, by simp [hasParts]⟩
  | form fields =>
    obtain rfl : Form.encode fields.pairs = text := by simpa [handed?] using h
    exact ⟨_, rfl, by simp [hasParts]⟩
  | json value =>
    obtain rfl : value.pretty 4 = text := by simpa [handed?] using h
    exact ⟨_, rfl, Bytes.ofString_inj.trans (value.pretty_eq_spaced 4)⟩
  | file path content mime => cases h
  | multipart parts => cases h

/-- The message has this body, no parts beside it, and the hash of the body in a header. -/
structure Message.Vouches (m : Message) (body : Bytes) : Prop where
  sent : m.request.body = some body
  alone : m.parts = none
  hash : m.request.headers.get? Aws.contentHeader = some (Sha256.digest body).hexText

section
variable {d : Definition} {accessId secretKey : String} {service region token : Option String} {p : Payload}
  {text : String}

/-- A session signs a request as it is and sends it once, refused or not. -/
theorem Session.execute_signed (hauth : d.auth = some (.aws accessId secretKey service region token))
    (n : Network) (s : Azure.Setting) (cookies : Bool) :
    execute n s cookies d = (do
      permit d
      let now := Moment.ofSeconds (← get).surroundings.now.seconds
      let o ← Act.ofExcept
        (Aws.sign .usual (Auth.awsKeys accessId secretKey service region token) now d.outgoing)
      send n (message cookies d o)) := by
  rw [execute_eq]
  refine bind_congr fun _ => ?_
  simp only [hauth, Auth.apply, bind_assoc]
  refine bind_congr fun w => bind_congr fun o => ?_
  exact deliver_eq_send hauth (fun challenge => rfl) n cookies

theorem Session.vouches_message (hpayload : d.payload = some p) (htext : p.handed? = some text) {body : Bytes}
    (hbody : d.body? = some body) {k : Aws.Keys} {now : Moment} {o : Outgoing}
    (h : Aws.sign .usual k now d.outgoing = .ok o) (cookies : Bool) : (message cookies d o).Vouches body where
  sent := (Aws.body_of_sign h).trans hbody
  alone := by
    unfold message
    rw [hpayload]
    cases p with
    | multipart parts => cases htext
    | _ => rfl
  hash := by
    have hhash := (Aws.contentHeader_of_sign h).1
    rwa [show d.outgoing.body = some body from hbody] at hhash

theorem Curl.payloadSwitches_eq (htext : p.handed? = some text) :
    payloadSwitches (some p) = [.valued "-d" text] := by
  cases p <;> cases htext <;> rfl

theorem Curl.isSigning_contentHeader : isSigning Aws.contentHeader := by decide +kernel

/-- A command says which hash was signed, and hands the text over at its end. -/
theorem Curl.words?_of_sign (hauth : d.auth = some (.aws accessId secretKey service region token))
    (hpayload : d.payload = some p) (htext : p.handed? = some text) {now : Nat} {o : Outgoing}
    (h : Aws.sign .usual (Auth.awsKeys accessId secretKey service region token) (Moment.ofSeconds now) d.outgoing =
      .ok o) :
    ∃ c before, command now d = .ok c ∧
      Shell.words? c.text.toList = some (before ++ ["-d".toList, text.toList]) ∧
      ["-H".toList, (Aws.contentHeader ++ ": " ++ Aws.contentHash .usual d.body?).toList] <:+: before := by
  let auth := (o.headers.toList.filter (isSigning ·.1)).map headerSwitch
  have hswitches : authSwitches now d = .ok auth := by
    simp only [authSwitches, hauth, h]
    rfl
  let first := ["curl", "-X", d.method.name, "--url", ((splitSocket? d.fullUrl).map Prod.snd).getD d.fullUrl]
  refine ⟨_, (first ++ (leading auth d).flatMap Switch.words).map String.toList,
    (command_eq now d).trans (by rw [hswitches]; rfl), ?_, ?_⟩
  · rw [Command.words?_text]
    simp [Command.words, hpayload, payloadSwitches_eq htext, first, Switch.words]
  · have hfield : (Aws.contentHeader, Aws.contentHash .usual d.body?) ∈ o.headers.toList.filter (isSigning ·.1) :=
      List.mem_filter.mpr ⟨(Aws.contentHeader_of_sign h).2, isSigning_contentHeader⟩
    have hswitch : headerSwitch (Aws.contentHeader, Aws.contentHash .usual d.body?) ∈ leading auth d := by
      simp only [leading, List.append_assoc]
      exact List.mem_append_left _ (List.mem_map_of_mem hfield)
    exact ((words_isInfix hswitch).trans (List.suffix_append ..).isInfix).map String.toList

/-- A session sends one message, which has the signed body and its hash. A command says the same hash,
and hands over the bytes that it is of unless they are those of a JSON value with items or members,
which it writes in its own way. -/
theorem Definition.signed_body (hauth : d.auth = some (.aws accessId secretKey service region token))
    (hpayload : d.payload = some p) (htext : p.handed? = some text) :
    let sign := Aws.sign .usual (Auth.awsKeys accessId secretKey service region token)
    ∃ body, d.body? = some body ∧
      (∀ n s cookies, Session.execute n s cookies d = (do
        Session.permit d
        let now := Moment.ofSeconds (← get).surroundings.now.seconds
        let o ← Act.ofExcept (sign now d.outgoing)
        Session.send n (Session.message cookies d o))) ∧
      (∀ now o cookies, sign now d.outgoing = .ok o → (Session.message cookies d o).Vouches body) ∧
      (∀ (now : Nat) o, sign (Moment.ofSeconds now) d.outgoing = .ok o →
        ∃ c before, Curl.command now d = .ok c ∧
          Shell.words? c.text.toList = some (before ++ ["-d".toList, text.toList]) ∧
          ["-H".toList, (Aws.contentHeader ++ ": " ++ (Sha256.digest body).hexText).toList] <:+: before) ∧
      (Bytes.ofString text = body ↔ p.hasParts = false) := by
  intro sign
  obtain ⟨body, hp, hparts⟩ := p.body?_eq htext
  have hbody : d.body? = some body := by rw [body?, hpayload, Option.bind_some, hp]
  refine ⟨body, hbody, Session.execute_signed hauth, fun now o cookies hsign => ?_, fun now o hsign => ?_, hparts⟩
  · exact Session.vouches_message hpayload htext hbody hsign cookies
  · obtain ⟨c, before, hcommand, hwords, hhash⟩ := Curl.words?_of_sign hauth hpayload htext hsign
    rw [hbody, show Aws.contentHash .usual (some body) = (Sha256.digest body).hexText from rfl] at hhash
    exact ⟨c, before, hcommand, hwords, hhash⟩

end

/-- An object is signed as one line and handed over as three. -/
theorem Definition.signed_body_object :
    let text := "\x7b\n    \"a\": 1\n\x7d"
    let d : Definition :=
      { name := "1", description := none, method := .PUT, url := "s3://bucket", headers := {}, query := []
        payload := some (.json (.obj [("a", .number (.int 1))]))
        auth := some (.aws "AK" "SK" (some "s3") (some "us-west-2") none), certificate := none, output := none
        proxy := {}, flags := {}, script := none }
    ∃ body, d.body? = some body ∧ Bytes.ofString text ≠ body ∧
      ∀ now : Nat, ∃ c before, Curl.command now d = .ok c ∧
        Shell.words? c.text.toList = some (before ++ ["-d".toList, text.toList]) ∧
        ["-H".toList, (Aws.contentHeader ++ ": " ++ (Sha256.digest body).hexText).toList] <:+: before := by
  intro text d
  obtain ⟨body, hbody, -, -, hcommand, hparts⟩ :=
    signed_body (d := d) (p := .json (.obj [("a", .number (.int 1))])) rfl rfl
      (show _ = some text from by decide +kernel)
  refine ⟨body, hbody, fun heq => absurd (hparts.mp heq) (by decide), fun now => ?_⟩
  obtain ⟨o, ho⟩ : ∃ o, Aws.sign .usual (Auth.awsKeys "AK" "SK" (some "s3") (some "us-west-2") none)
      (Moment.ofSeconds now) d.outgoing = .ok o := Aws.exists_sign.mpr (by decide +kernel)
  exact hcommand now o ho

end RequestLang
