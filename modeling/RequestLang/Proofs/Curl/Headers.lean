import RequestLang.Proofs.Auth.Canonical
import RequestLang.Proofs.Curl.Options

/-! The header fields of a command. Those that signing adds stand in front of those of the definition, and a name
that is in both is handed over twice. -/
namespace RequestLang.Curl

/-- The name that a header argument begins with, in lower case. -/
def fieldName (argument : String) : String := String.ofList (argument.toLower.toList.takeWhile (· != ':'))

/-- What stands behind the first colon of a header argument, and behind one blank there. -/
def fieldValue (argument : String) : String :=
  let rest := (argument.toList.dropWhile (· != ':')).tail
  String.ofList (if rest.head? = some ' ' then rest.tail else rest)

theorem toList_fieldName (argument : String) :
    (fieldName argument).toList = argument.toLower.toList.takeWhile (· != ':') := String.toList_ofList

theorem toLower_append (s t : String) : (s ++ t).toLower = s.toLower ++ t.toLower := by
  simp [String.toLower, String.ext_iff]

theorem takeWhile_append_colon (cs ds : List Char) :
    (cs ++ ':' :: ds).takeWhile (· != ':') = cs.takeWhile (· != ':') := by
  induction cs with
  | nil => rfl
  | cons c cs ih => rw [List.cons_append, List.takeWhile_cons, List.takeWhile_cons, ih]

/-- A value takes no part in the name that is read. -/
theorem fieldName_fieldText (e : String × String) : fieldName (fieldText e) = fieldName e.1 := by
  have hcolon : ": ".toLower.toList = [':', ' '] := by cbv
  rw [fieldName, fieldName, fieldText, toLower_append, toLower_append, String.toList_append, String.toList_append,
    hcolon, List.append_assoc]
  exact congrArg String.ofList (takeWhile_append_colon ..)

theorem fieldName_congr {s t : String} (h : s.toLower = t.toLower) : fieldName s = fieldName t := by
  rw [fieldName, fieldName, h]

theorem fieldName_of_not_mem {name : String} (h : ':' ∉ name.toLower.toList) : fieldName name = name.toLower := by
  have hall : name.toLower.toList.takeWhile (· != ':') = name.toLower.toList :=
    List.takeWhile_eq_self_iff.mpr fun c hc => by simpa using ne_of_mem_of_not_mem hc h
  rw [fieldName, hall, String.ofList_toList]

theorem colon_mem_toLower {s : String} (h : ':' ∈ s.toList) : ':' ∈ s.toLower.toList := by
  rw [String.toLower, String.toList_map]
  exact List.mem_map.mpr ⟨':', h, by decide⟩

theorem fieldValue_fieldText {e : String × String} (h : ':' ∉ e.1.toLower.toList) :
    fieldValue (fieldText e) = e.2 := by
  have hname : ∀ c ∈ e.1.toList, (c != ':') = true := fun c hc => by
    simpa using ne_of_mem_of_not_mem hc (mt colon_mem_toLower h)
  have hrest : (fieldText e).toList.dropWhile (· != ':') = ':' :: ' ' :: e.2.toList := by
    rw [fieldText, String.toList_append, String.toList_append, List.append_assoc,
      List.dropWhile_append_of_pos hname]
    rfl
  simp [fieldValue, hrest]

theorem isSigning_iff {name : String} :
    isSigning name ↔ "x-amz".toList <+: name.toLower.toList ∨ name.toLower = "authorization" := by
  simp [isSigning, String.startsWith_string_iff]

theorem isSigning_congr {s t : String} (h : s.toLower = t.toLower) : isSigning s = isSigning t := by
  rw [isSigning, isSigning, h]

theorem toLower_fieldName (name : String) : (fieldName name).toLower = fieldName name := by
  have hlower : ∀ c ∈ name.toLower.toList.takeWhile (· != ':'), c.toLower = c := fun c hc => by
    have hmem := (List.takeWhile_prefix _).subset hc
    rw [String.toLower, String.toList_map] at hmem
    obtain ⟨d, -, rfl⟩ := List.mem_map.mp hmem
    exact Char.toLower_toLower_eq_toLower d
  rw [← String.toList_inj, String.toLower, String.toList_map, toList_fieldName, List.map_congr_left hlower,
    List.map_id']

theorem isPrefix_takeWhile {p : Char → Bool} {cs ds : List Char} (h : cs <+: ds) (hp : ∀ c ∈ cs, p c) :
    cs <+: ds.takeWhile p := by
  obtain ⟨rest, rfl⟩ := h
  rw [List.takeWhile_append_of_pos hp]
  exact List.prefix_append ..

/-- The name that is read of a field is one that signing adds if the name of the field is. -/
theorem isSigning_fieldName {name : String} (h : isSigning name) : isSigning (fieldName name) := by
  rw [isSigning_iff, toLower_fieldName]
  rcases isSigning_iff.mp h with hbegins | hname
  · left
    rw [toList_fieldName]
    refine isPrefix_takeWhile hbegins ?_
    simp
  · right
    rw [fieldName, hname]
    cbv

theorem isSigning_of_fieldName {name : String} (h : isSigning (fieldName name)) :
    isSigning name ∨ fieldName name = "authorization" := by
  rw [isSigning_iff, toLower_fieldName] at h
  refine h.imp (fun hbegins => isSigning_iff.mpr (.inl (hbegins.trans ?_))) id
  rw [toList_fieldName]
  exact List.takeWhile_prefix _

end RequestLang.Curl

namespace RequestLang
open Curl

namespace Aws

/-- The names of what signing writes are read as they are. -/
theorem read_written {k : Keys} {name : String} (h : name ∈ written k) :
    name.toLower = name ∧ ':' ∉ name.toList ∧ isSigning name := by
  have hall : ∀ name ∈ [dateHeader, contentHeader, tokenHeader, "authorization"],
      name.toLower = name ∧ ':' ∉ name.toList ∧ isSigning name := by decide +kernel
  refine hall name ?_
  unfold written stampNames at h
  cases hk : k.sessionToken <;> simp_all
  tauto

section
variable {f : Hashing} {k : Keys} {now : Moment} {o signed : Outgoing} (h : sign f k now o = .ok signed)
include h

/-- A field of a signed request is written by signing or was there before. -/
theorem written_or_mem {e : String × String} (he : e ∈ signed.headers.toList) :
    e.1.toLower ∈ written k ∨ e ∈ o.headers.toList := by
  by_cases hname : e.1.toLower ∈ written k
  · exact .inl hname
  · have hselect : e ∈ signed.headers.select (· ∉ written k) := List.mem_filter.mpr ⟨he, by simpa using hname⟩
    rw [(frame_of_sign h).2.2.2.1] at hselect
    exact .inr (List.mem_filter.mp hselect).1

theorem exists_of_written {name : String} (hname : name ∈ written k) :
    ∃ e ∈ signed.headers.toList, e.1.toLower = name := by
  rcases List.mem_append.mp hname with hstamp | hlast
  · rw [← lower_stamps k now.basicText (contentHash f o.body)] at hstamp
    obtain ⟨e, he, rfl⟩ := List.mem_map.mp hstamp
    exact ⟨e, (frame_of_sign h).2.2.2.2 e he, rfl⟩
  · obtain ⟨url, host, -, -, rfl⟩ := sign_eq_ok_iff.mp h
    rw [List.mem_singleton.mp hlast]
    exact ⟨_, List.mem_map.mpr ⟨_, mem_setKey_self .., rfl⟩, lower_authorization⟩

/-- Signing takes no name away. -/
theorem exists_of_mem {e : String × String} (he : e ∈ o.headers.toList) :
    ∃ e' ∈ signed.headers.toList, e'.1.toLower = e.1.toLower := by
  by_cases hname : e.1.toLower ∈ written k
  · exact exists_of_written h hname
  · have hselect : e ∈ o.headers.select (· ∉ written k) := List.mem_filter.mpr ⟨he, by simpa using hname⟩
    rw [← (frame_of_sign h).2.2.2.1] at hselect
    exact ⟨e, (List.mem_filter.mp hselect).1, rfl⟩

end
end Aws

namespace Curl
variable {f : Aws.Hashing} {k : Aws.Keys} {now : Moment} {o signed : Outgoing}

theorem map_fieldName_sorted (fields more : List (String × String)) :
    (((fields ++ Aws.sorted more).map fieldText).map fieldName).Perm ((fields ++ more).map (fieldName ·.1)) := by
  rw [List.map_map, show fieldName ∘ fieldText = (fieldName ·.1) from funext fieldName_fieldText]
  exact ((List.mergeSort_perm ..).append_left fields).map _

/-- A field that signing has a hand in is read twice, since the definition still has it. -/
theorem nodup_signed (h : Aws.sign f k now o = .ok signed) :
    ((signed.headers.toList.filter (isSigning ·.1) ++ o.headers.toList).map (fieldName ·.1)).Nodup ↔
      (o.headers.toList.map (fieldName ·.1)).Nodup ∧ ∀ e ∈ o.headers.toList, isSigning (fieldName e.1) = false := by
  rw [List.map_append, List.nodup_append]
  constructor
  · rintro ⟨-, hown, hdisjoint⟩
    refine ⟨hown, fun e he => ?_⟩
    by_contra hsigning
    -- A field of the same name stands among those that signing adds.
    obtain ⟨e', he', hname⟩ : ∃ e' ∈ signed.headers.toList.filter (isSigning ·.1), fieldName e'.1 = fieldName e.1 := by
      rcases isSigning_of_fieldName (by simpa using hsigning) with hs | hauthorization
      · obtain ⟨e', he', hlower⟩ := Aws.exists_of_mem h he
        exact ⟨e', List.mem_filter.mpr ⟨he', (isSigning_congr hlower).trans hs⟩, fieldName_congr hlower⟩
      · have hwritten : "authorization" ∈ Aws.written k := by simp [Aws.written]
        obtain ⟨e', he', hlower⟩ := Aws.exists_of_written h hwritten
        have hlower : e'.1.toLower = "authorization".toLower := hlower.trans Aws.lower_authorization.symm
        refine ⟨e', List.mem_filter.mpr ⟨he', (isSigning_congr hlower).trans (by cbv)⟩, ?_⟩
        rw [hauthorization, fieldName_congr hlower]
        decide +kernel
    exact hdisjoint _ (List.mem_map_of_mem he') _ (List.mem_map_of_mem he) hname
  · rintro ⟨hown, hfree⟩
    -- What signing adds is then what it writes.
    have hread : ∀ e ∈ signed.headers.toList.filter (isSigning ·.1), fieldName e.1 = e.1.toLower ∧
        isSigning (fieldName e.1) := fun e he => by
      obtain ⟨he, hsigning⟩ := List.mem_filter.mp he
      have hname := isSigning_fieldName hsigning
      refine ⟨?_, hname⟩
      rcases Aws.written_or_mem h he with hwritten | hmem
      · obtain ⟨hlower, hcolon, -⟩ := Aws.read_written hwritten
        exact fieldName_of_not_mem hcolon
      · rw [hfree e hmem] at hname
        cases hname
    refine ⟨?_, hown, ?_⟩
    · rw [List.map_congr_left fun e he => (hread e he).1]
      exact signed.headers.nodup_names.sublist (List.filter_sublist.map _)
    · rintro name hleft name' hright rfl
      obtain ⟨e, he, rfl⟩ := List.mem_map.mp hleft
      obtain ⟨e', he', hname⟩ := List.mem_map.mp hright
      have hsigning := (hread e he).2
      rw [← hname, hfree e' he'] at hsigning
      cases hsigning

/-- A header argument under a name that signing adds has the value that stands under it once a request is signed. -/
def Carries (signed : Headers) (argument : String) : Prop :=
  isSigning (fieldName argument) → signed.get? (fieldName argument) = some (fieldValue argument)

/-- What signing adds has the signed values, unless it is a field of the definition. -/
theorem carries_or_mem (h : Aws.sign f k now o = .ok signed) {e : String × String}
    (he : e ∈ signed.headers.toList) : Carries signed.headers (fieldText e) ∨ e ∈ o.headers.toList := by
  refine (Aws.written_or_mem h he).imp (fun hwritten _ => ?_) id
  obtain ⟨hlower, hcolon, -⟩ := Aws.read_written hwritten
  rw [fieldName_fieldText, fieldName_of_not_mem hcolon, fieldValue_fieldText hcolon]
  exact Headers.get?_eq_some.mpr ⟨e.1, hlower.symm, he⟩

end Curl

/-- The keys that a definition is signed with. -/
def Definition.keys? (d : Definition) : Option Aws.Keys :=
  match d.auth with
  | some (.aws accessId secretKey service region token) => some (Auth.awsKeys accessId secretKey service region token)
  | _ => none

theorem Curl.signedFields_eq_ok {now : Nat} {d : Definition} {fields : List (String × String)}
    (h : signedFields now d = .ok fields) :
    match d.keys? with
    | some k => ∃ signed, Aws.sign .usual k (Moment.ofSeconds now) d.outgoing = .ok signed ∧
        signed.headers.toList.filter (isSigning ·.1) = fields
    | none => fields = [] := by
  unfold signedFields at h
  unfold Definition.keys?
  rcases hauth : d.auth with _ | a
  · simpa [hauth, eq_comm] using h
  cases a with
  | aws accessId secretKey service region token => simpa [hauth, map_eq_ok] using h
  | _ => simpa [hauth, eq_comm] using h

/-- The header arguments of a command have different names, case aside, exactly if the definition's own fields do as
they are read, and, in a command with signed headers, none of these has a name that signing adds. Arguments under such
a name have the signed value exactly if the definition's own fields under it do. -/
theorem Definition.header_arguments {d : Definition} {now : Nat} {c : Curl.Command}
    (h : Curl.command now d = .ok c) :
    ∃ switches, Curl.readLine? c.text = some switches ∧
      (((Curl.valuesOf "-H" switches).map Curl.fieldName).Nodup ↔
        (d.headers.toList.map (Curl.fieldName ·.1)).Nodup ∧
          (d.keys?.isSome → ∀ e ∈ d.headers.toList, Curl.isSigning (Curl.fieldName e.1) = false)) ∧
      ∀ k, d.keys? = some k → ∃ signed, Aws.sign .usual k (Moment.ofSeconds now) d.outgoing = .ok signed ∧
        ((∀ argument ∈ Curl.valuesOf "-H" switches, Curl.Carries signed.headers argument) ↔
          ∀ e ∈ d.headers.toList, Curl.Carries signed.headers (Curl.fieldText e)) := by
  obtain ⟨fields, switches, hfields, hread, hheaders, -⟩ := Curl.valuesOf_command h
  have hsigned := Curl.signedFields_eq_ok hfields
  refine ⟨switches, hread, ?_, fun k hk => ?_⟩
  · rw [hheaders, (Curl.map_fieldName_sorted ..).nodup_iff]
    cases hk : d.keys? with
    | none =>
      rw [hk] at hsigned
      simp [show fields = [] from hsigned]
    | some k =>
      rw [hk] at hsigned
      obtain ⟨signed, hsign, rfl⟩ := hsigned
      simp only [Option.isSome_some, true_imp_iff]
      exact Curl.nodup_signed hsign
  · rw [hk] at hsigned
    obtain ⟨signed, hsign, rfl⟩ := hsigned
    refine ⟨signed, hsign, ?_⟩
    rw [hheaders, List.forall_mem_map]
    refine ⟨fun hall e he => hall e ?_, fun hown e he => ?_⟩
    · exact List.mem_append_right _ (List.mem_mergeSort.mpr he)
    · rcases List.mem_append.mp he with he | he
      · exact (Curl.carries_or_mem hsign (List.mem_filter.mp he).1).elim id (hown e)
      · exact hown e (List.mem_mergeSort.mp he)

/-- A field that is signed because the definition has it is handed over twice. -/
theorem Definition.header_arguments_repeated :
    let d : Definition :=
      { name := "1", description := none, method := .GET, url := "s3://bucket/key"
        headers := ({} : Headers).insert "x-amz-acl" "private", query := [], payload := none
        auth := some (.aws "AK" "SK" (some "s3") (some "us-west-2") none), certificate := none, output := none
        proxy := {}, flags := {}, script := none }
    ∀ now : Nat, ∃ c switches, Curl.command now d = .ok c ∧ Curl.readLine? c.text = some switches ∧
      ¬((Curl.valuesOf "-H" switches).map Curl.fieldName).Nodup := by
  intro d now
  obtain ⟨signed, hsign⟩ : ∃ signed, Aws.sign .usual (Auth.awsKeys "AK" "SK" (some "s3") (some "us-west-2") none)
      (Moment.ofSeconds now) d.outgoing = .ok signed := Aws.exists_sign.mpr (by cbv)
  have hfields : Curl.signedFields now d = .ok (signed.headers.toList.filter (Curl.isSigning ·.1)) :=
    map_eq_ok.mpr ⟨signed, hsign, rfl⟩
  have hcommand := (Curl.command_eq now d).trans
    (map_eq_ok.mpr ⟨_, Curl.authSwitches_eq_ok.mpr ⟨_, hfields, rfl⟩, rfl⟩)
  obtain ⟨switches, hread, hnodup, -⟩ := header_arguments hcommand
  refine ⟨_, switches, hcommand, hread, fun hall => ?_⟩
  have hfree := (hnodup.mp hall).2 rfl ("x-amz-acl", "private") (by decide)
  exact absurd hfree (by decide +kernel)

end RequestLang
