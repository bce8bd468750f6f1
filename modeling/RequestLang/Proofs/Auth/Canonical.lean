import RequestLang.Curl
import RequestLang.Proofs.Compile.Fields
import RequestLang.Proofs.Steps

/-! Signed requests: what signing adds, and that it adds nothing else. -/
namespace RequestLang.Aws
variable {f : Hashing} {k : Keys} {now : Moment} {o signed : Outgoing}

/-- The hash of the body, as it is written into the request. -/
def contentHash (f : Hashing) (body : Option Bytes) : String := (f.digest (body.getD [])).hexText

/-- Only a URL without a host cannot be signed. -/
theorem exists_sign : (∃ signed, sign f k now o = .ok signed) ↔ (o.readUrl.toOption.bind hostText?).isSome := by
  unfold sign
  cases o.readUrl with
  | error e => simp [bind, Except.bind, Except.toOption]
  | ok url => cases hhost : hostText? url <;> simp [bind, Except.bind, Except.toOption, pure, Except.pure, hhost]

theorem sign_eq_ok (h : sign f k now o = .ok signed) :
    ∃ value, signed = (stamp k now.basicText (contentHash f o.body) o).authorize value := by
  obtain ⟨url, -, h⟩ := bind_eq_ok.mp h
  cases hhost : hostText? url with
  | none => simp [hhost] at h
  | some host =>
    simp only [hhost, pure_eq_ok, Except.ok.injEq] at h
    exact ⟨_, h.symm⟩

theorem body_of_sign (h : sign f k now o = .ok signed) : signed.body = o.body := by
  obtain ⟨value, rfl⟩ := sign_eq_ok h
  unfold stamp
  cases k.sessionToken <;> rfl

theorem names_differ : contentHeader.toLower ≠ tokenHeader.toLower ∧
    contentHeader.toLower ≠ "authorization".toLower := by cbv

theorem contentHeader_of_stamp (k : Keys) (time hash : String) (o : Outgoing) :
    (stamp k time hash o).headers.get? contentHeader = some hash ∧
      (contentHeader.toLower, (contentHeader, hash)) ∈ (stamp k time hash o).headers.fields := by
  have hfirst :
      (o.withHeader dateHeader time |>.withHeader contentHeader hash).headers.get? contentHeader = some hash := by
    simp [Outgoing.withHeader, Headers.get?_insert]
  have hmem : (contentHeader.toLower, (contentHeader, hash)) ∈
      (o.withHeader dateHeader time |>.withHeader contentHeader hash).headers.fields := mem_setKey_self ..
  unfold stamp
  cases k.sessionToken with
  | none => exact ⟨hfirst, hmem⟩
  | some token =>
    refine ⟨?_, mem_setKey_of_ne _ hmem names_differ.1⟩
    exact (Headers.get?_insert ..).trans ((if_neg names_differ.1).trans hfirst)

/-- A signed request says what the hash of its body is. -/
theorem contentHeader_of_sign (h : sign f k now o = .ok signed) :
    signed.headers.get? contentHeader = some (contentHash f o.body) ∧
      (contentHeader, contentHash f o.body) ∈ signed.headers.toList := by
  obtain ⟨value, rfl⟩ := sign_eq_ok h
  obtain ⟨hget, hmem⟩ := contentHeader_of_stamp k now.basicText (contentHash f o.body) o
  constructor
  · exact (Headers.get?_insert ..).trans ((if_neg names_differ.2).trans hget)
  · exact List.mem_map.mpr ⟨_, mem_setKey_of_ne _ hmem names_differ.2, rfl⟩

end RequestLang.Aws

/-! Signatures are canonical: signing writes its own headers and nothing else, a second time changes nothing, and
what is signed depends neither on the order of headers and of the query nor on the spelling of names. -/
namespace RequestLang

namespace Headers

/-- The fields whose names fit in lower case, as written and in order. -/
def select (p : String → Bool) (h : Headers) : List (String × String) := h.toList.filter fun e => p e.1.toLower

section
variable {h h' : Headers} {p : String → Bool}

theorem select_eq (h : Headers) (p : String → Bool) :
    h.select p = (h.fields.filter fun e => p e.1).map Prod.snd := by
  rw [select, toList, List.filter_map]
  congr 1
  refine List.filter_congr fun e he => ?_
  rw [Function.comp_apply, h.keyed e he]

theorem select_insert {name : String} (hp : p name.toLower = false) (value : String) :
    (h.insert name value).select p = h.select p := by
  rw [select_eq, select_eq, Headers.insert, filter_setKey fun v => hp]

theorem select_insertAll {entries : List (String × String)}
    (hp : ∀ e ∈ entries, p e.1.toLower = false) :
    (entries.foldl (fun h e => h.insert e.1 e.2) h).select p = h.select p := by
  induction entries generalizing h with
  | nil => rfl
  | cons e rest ih =>
    rw [List.forall_mem_cons] at hp
    rw [List.foldl_cons, ih hp.2, select_insert hp.1]

theorem nodup_select (h : Headers) (p : String → Bool) : ((h.select p).map (·.1.toLower)).Nodup :=
  h.nodup_names.sublist (List.filter_sublist.map _)

/-- What two maps hold alike under each name, they hold alike in their selected fields. -/
theorem mem_select {f : String → String}
    (hsame : ∀ name, (h.get? name).map f = (h'.get? name).map f) {x : String × String}
    (hx : x ∈ (h.select p).map fun e => (e.1.toLower, f e.2)) :
    x ∈ (h'.select p).map fun e => (e.1.toLower, f e.2) := by
  obtain ⟨⟨name, value⟩, he, rfl⟩ := List.mem_map.mp hx
  obtain ⟨hmem, hp⟩ := List.mem_filter.mp he
  have hget : h.get? name = some value := get?_eq_some.mpr ⟨name, rfl, hmem⟩
  have hvalue := hsame name
  rw [hget, Option.map_some] at hvalue
  obtain ⟨value', hget', hf⟩ := Option.map_eq_some_iff.mp hvalue.symm
  obtain ⟨name', hname, hmem'⟩ := get?_eq_some.mp hget'
  refine List.mem_map.mpr ⟨(name', value'), List.mem_filter.mpr ⟨hmem', ?_⟩, ?_⟩
  · rw [hname]
    exact hp
  · rw [hname, hf]

theorem perm_select {f : String → String}
    (hsame : ∀ name, (h.get? name).map f = (h'.get? name).map f) (p : String → Bool) :
    ((h.select p).map fun e => (e.1.toLower, f e.2)).Perm ((h'.select p).map fun e => (e.1.toLower, f e.2)) := by
  have hnodup (g : Headers) : ((g.select p).map fun e => (e.1.toLower, f e.2)).Nodup := by
    have hnames := g.nodup_select p
    rw [show (fun e : String × String => e.1.toLower) = Prod.fst ∘ fun e => (e.1.toLower, f e.2) from rfl,
      ← List.map_map] at hnames
    exact hnames.of_map
  refine (List.perm_ext_iff_of_nodup (hnodup h) (hnodup h')).mpr fun x => ⟨?_, ?_⟩
  · exact mem_select hsame
  · exact mem_select fun name => (hsame name).symm

end

end Headers

namespace Aws

theorem pairLe_iff {a b : String × String} : pairLe a b ↔ toLex a ≤ toLex b := by
  simp only [pairLe, Prod.Lex.toLex_le_toLex, Bool.or_eq_true, Bool.and_eq_true, decide_eq_true_eq, beq_iff_eq,
    Bool.not_eq_true', decide_eq_false_iff_not]
  rw [not_lt]

theorem pairwise_sorted (pairs : List (String × String)) : (sorted pairs).Pairwise fun a b => toLex a ≤ toLex b := by
  have htrans (a b c : String × String) (hab : pairLe a b) (hbc : pairLe b c) : pairLe a c :=
    pairLe_iff.mpr ((pairLe_iff.mp hab).trans (pairLe_iff.mp hbc))
  have htotal (a b : String × String) : (pairLe a b || pairLe b a) = true := by
    simpa only [Bool.or_eq_true, pairLe_iff] using le_total (toLex a) (toLex b)
  exact (List.pairwise_mergeSort htrans htotal pairs).imp pairLe_iff.mp

/-- Pairs in whatever order are brought into one. -/
theorem sorted_eq_of_perm {pairs pairs' : List (String × String)} (h : pairs.Perm pairs') :
    sorted pairs = sorted pairs' := by
  refine List.Perm.eq_of_pairwise (fun a b _ _ hab hba => toLex.injective (le_antisymm hab hba)) (pairwise_sorted _)
    (pairwise_sorted _) ?_
  exact ((List.mergeSort_perm ..).trans h).trans (List.mergeSort_perm ..).symm

theorem canonicalQuery_eq_of_perm {pairs pairs' : List (String × String)} (h : pairs.Perm pairs') :
    canonicalQuery pairs = canonicalQuery pairs' := by
  rw [canonicalQuery, canonicalQuery, sorted_eq_of_perm (h.map _)]

theorem signedFields_eq (host : String) (h : Headers) : signedFields host h =
    sorted (((h.select isSigned).map fun e => (e.1.toLower, Text.trim e.2)) ++ [("host", host)]) := by
  rw [signedFields, Headers.select, List.filter_map]
  rfl

theorem isSigned_iff {name : String} : isSigned name ↔ name = "content-type" ∨ name.startsWith "x-amz-" := by
  simp [isSigned]

theorem not_isSigned_host : isSigned "host" = false := by cbv

theorem not_isSigned_authorization : isSigned "authorization".toLower = false := by cbv

section
variable {host : String} {h : Headers}

theorem perm_names (host : String) (h : Headers) :
    ((signedFields host h).map Prod.fst).Perm ((h.select isSigned).map (·.1.toLower) ++ ["host"]) := by
  have hnames : (((h.select isSigned).map fun e => (e.1.toLower, Text.trim e.2)) ++ [("host", host)]).map Prod.fst =
      (h.select isSigned).map (·.1.toLower) ++ ["host"] := by
    rw [List.map_append, List.map_map]
    rfl
  rw [signedFields_eq, ← hnames]
  exact (List.mergeSort_perm ..).map Prod.fst

theorem mem_select_isSigned {n : String} : n ∈ (h.select isSigned).map (·.1.toLower) ↔
    isSigned n ∧ n ∈ h.toList.map (·.1.toLower) := by
  simp only [Headers.select, List.mem_map, List.mem_filter]
  constructor
  · rintro ⟨e, ⟨he, hs⟩, rfl⟩
    exact ⟨hs, e, he, rfl⟩
  · rintro ⟨hs, e, he, rfl⟩
    exact ⟨e, ⟨he, hs⟩, rfl⟩

theorem nodup_signedNames (h : Headers) (host : String) : ((signedFields host h).map Prod.fst).Nodup := by
  rw [(perm_names host h).nodup_iff, List.nodup_append]
  refine ⟨h.nodup_select isSigned, List.nodup_singleton _, fun n hn m hm heq => ?_⟩
  obtain ⟨hs, -⟩ := mem_select_isSigned.mp hn
  rw [heq, List.mem_singleton.mp hm, not_isSigned_host] at hs
  cases hs

/-- The names that are signed go up, the host among them once. -/
theorem pairwise_signedNames (h : Headers) (host : String) :
    ((signedFields host h).map Prod.fst).Pairwise (· < ·) := by
  have hle : ((signedFields host h).map Prod.fst).Pairwise (· ≤ ·) := by
    refine List.pairwise_map.mpr ((pairwise_sorted _).imp fun hab => ?_)
    exact Prod.Lex.monotone_fst _ _ hab
  exact hle.imp₂ (fun a b hle hne => lt_of_le_of_ne hle hne) (nodup_signedNames h host)

theorem count_host (h : Headers) (host : String) : ((signedFields host h).map Prod.fst).count "host" = 1 :=
  List.count_eq_one_of_mem (nodup_signedNames h host) ((perm_names host h).mem_iff.mpr (by simp))

theorem mem_signedNames {n : String} : n ∈ (signedFields host h).map Prod.fst ↔
    n = "host" ∨ (n = "content-type" ∨ n.startsWith "x-amz-") ∧ n ∈ h.toList.map (·.1.toLower) := by
  rw [(perm_names host h).mem_iff, List.mem_append, mem_select_isSigned, List.mem_singleton, isSigned_iff, or_comm]

end

section
variable {f : Hashing} {k : Keys} {now : Moment} {o p signed : Outgoing}

/-- What is written into the headers before they are signed. -/
def stamps (k : Keys) (time hash : String) : List (String × String) :=
  [(dateHeader, time), (contentHeader, hash)] ++ (k.sessionToken.map (tokenHeader, ·)).toList

def stampNames (k : Keys) : List String :=
  [dateHeader, contentHeader] ++ (k.sessionToken.map fun _ => tokenHeader).toList

/-- The names of all that signing writes. -/
def written (k : Keys) : List String := stampNames k ++ ["authorization"]

/-- The headers of a request once it is stamped. -/
def stamped (k : Keys) (time hash : String) (h : Headers) : Headers :=
  (stamps k time hash).foldl (fun h e => h.insert e.1 e.2) h

theorem stamp_eq (k : Keys) (time hash : String) (o : Outgoing) :
    stamp k time hash o = { o with headers := stamped k time hash o.headers } := by
  unfold stamp stamped stamps
  cases k.sessionToken <;> rfl

theorem lower_stamps (k : Keys) (time hash : String) : (stamps k time hash).map (·.1.toLower) = stampNames k := by
  have hdate : dateHeader.toLower = dateHeader := by cbv
  have hcontent : contentHeader.toLower = contentHeader := by cbv
  have htoken : tokenHeader.toLower = tokenHeader := by cbv
  unfold stamps stampNames
  cases k.sessionToken <;> simp [hdate, hcontent, htoken]

theorem lower_authorization : "authorization".toLower = "authorization" := by cbv

theorem nodup_written (k : Keys) : (written k).Nodup := by
  unfold written stampNames
  cases k.sessionToken <;> simp [dateHeader, contentHeader, tokenHeader]

theorem mem_stampNames {time hash : String} {e : String × String} (he : e ∈ stamps k time hash) :
    e.1.toLower ∈ stampNames k := by
  rw [← lower_stamps k time hash]
  exact List.mem_map_of_mem he

theorem ne_authorization {time hash : String} {e : String × String} (he : e ∈ stamps k time hash) :
    e.1.toLower ≠ "authorization".toLower := by
  rw [lower_authorization]
  exact (List.nodup_append.mp (nodup_written k)).2.2 _ (mem_stampNames he) _ (List.mem_singleton_self _)

theorem exists_authorization (f : Hashing) (k : Keys) (now : Moment) (method : Method) (url : Url)
    (fields : List (String × String)) (hash : String) :
    ∃ code, authorization f k now method url fields hash = algorithm ++ " Credential=" ++ k.accessId ++ "/" ++
      scope k now.dayText ++ ", SignedHeaders=" ++ ";".intercalate (fields.map Prod.fst) ++ ", Signature=" ++ code :=
  ⟨_, rfl⟩

/-- What a request is signed with once it is stamped. -/
def signature (f : Hashing) (k : Keys) (now : Moment) (url : Url) (host : String) (o : Outgoing) : String :=
  let hash := contentHash f o.body
  authorization f k now o.method url (signedFields host (stamped k now.basicText hash o.headers)) hash

theorem sign_eq_ok_iff : sign f k now o = .ok signed ↔ ∃ url host, o.readUrl = .ok url ∧ hostText? url = some host ∧
    signed = { o with
      headers := (stamped k now.basicText (contentHash f o.body) o.headers).insert "authorization"
        (signature f k now url host o) } := by
  unfold sign
  cases o.readUrl with
  | error e => simp
  | ok url =>
    cases hhost : hostText? url with
    | none => simp [hhost]
    | some host => simp [hhost, stamp_eq, Outgoing.authorize, Outgoing.withHeader, signature, contentHash, eq_comm]

section
variable {h h' : Headers} {time hash : String}

theorem mem_stamped {e : String × String} (he : e ∈ stamps k time hash) (h : Headers) :
    (e.1.toLower, e) ∈ (stamped k time hash h).fields :=
  Headers.mem_insertAll (by rw [lower_stamps]; exact (List.nodup_append.mp (nodup_written k)).1) h he

/-- Stamps stay where the signature is put beside them. -/
theorem mem_signed {e : String × String} (he : e ∈ stamps k time hash) (h : Headers) (value : String) :
    (e.1.toLower, e) ∈ ((stamped k time hash h).insert "authorization" value).fields :=
  mem_setKey_of_ne _ (mem_stamped he h) (ne_authorization he)

theorem select_signed (h : Headers) (value : String) :
    ((stamped k time hash h).insert "authorization" value).select (· ∉ written k) = h.select (· ∉ written k) := by
  rw [Headers.select_insert (by simp [written, lower_authorization])]
  refine Headers.select_insertAll fun e he => ?_
  simp [written, mem_stampNames he]

/-- Stamping what is signed already changes nothing. -/
theorem stamped_signed (h : Headers) (value : String) :
    stamped k time hash ((stamped k time hash h).insert "authorization" value) =
      (stamped k time hash h).insert "authorization" value :=
  Headers.insertAll_eq_self fun _ he => mem_signed he h value

/-- No signature is signed. -/
theorem signedFields_insert (h : Headers) (host value : String) :
    signedFields host (h.insert "authorization" value) = signedFields host h := by
  rw [signedFields_eq, signedFields_eq, Headers.select_insert not_isSigned_authorization]

theorem get?_stamped (hsame : ∀ name, (h'.get? name).map Text.trim = (h.get? name).map Text.trim) (name : String) :
    ((stamped k time hash h').get? name).map Text.trim = ((stamped k time hash h).get? name).map Text.trim := by
  rw [stamped, stamped, Headers.get?_insertAll, Headers.get?_insertAll, Option.map_or, Option.map_or, hsame]

theorem signedFields_congr
    (hsame : ∀ name, (h'.get? name).map Text.trim = (h.get? name).map Text.trim) (host : String) :
    signedFields host h' = signedFields host h := by
  rw [signedFields_eq, signedFields_eq]
  exact sorted_eq_of_perm ((Headers.perm_select hsame isSigned).append_right _)

end

/-- Requests to one host and path, with the same method and body, the same values under each name but for blanks
around them, and the same pairs in the query in any order. -/
structure Alike (o p : Outgoing) : Prop where
  method : p.method = o.method
  body : p.body.getD [] = o.body.getD []
  headers : ∀ name, (p.headers.get? name).map Text.trim = (o.headers.get? name).map Text.trim
  urls : ∃ u v, o.readUrl = .ok u ∧ p.readUrl = .ok v ∧ hostText? v = hostText? u ∧ v.path = u.path ∧
    v.queryPairs.Perm u.queryPairs

theorem Alike.signature_eq {u v : Url} (halike : Alike o p)
    (hpath : v.path = u.path) (hquery : v.queryPairs.Perm u.queryPairs) (host : String) :
    signature f k now v host p = signature f k now u host o := by
  have hhash : contentHash f p.body = contentHash f o.body := by rw [contentHash, contentHash, halike.body]
  have hfields : signedFields host (stamped k now.basicText (contentHash f o.body) p.headers) =
      signedFields host (stamped k now.basicText (contentHash f o.body) o.headers) :=
    signedFields_congr (get?_stamped halike.headers) host
  unfold signature
  rw [hhash, halike.method]
  simp only [hfields, authorization, canonicalRequest, hpath, canonicalQuery_eq_of_perm hquery]

section
variable (h : sign f k now o = .ok signed)
include h

/-- Signing writes its stamps and the signature, and nothing else. -/
theorem frame_of_sign : signed.method = o.method ∧ signed.url = o.url ∧ signed.body = o.body ∧
    signed.headers.select (· ∉ written k) = o.headers.select (· ∉ written k) ∧
    ∀ e ∈ stamps k now.basicText (contentHash f o.body), e ∈ signed.headers.toList := by
  obtain ⟨url, host, -, -, rfl⟩ := sign_eq_ok_iff.mp h
  exact ⟨rfl, rfl, rfl, select_signed _ _, fun e he => List.mem_map.mpr ⟨_, mem_signed he _ _, rfl⟩⟩

/-- The signature is not part of what is signed, and the stamps are there already. -/
theorem sign_again : sign f k now signed = .ok signed := by
  obtain ⟨url, host, hurl, hhost, rfl⟩ := sign_eq_ok_iff.mp h
  refine sign_eq_ok_iff.mpr ⟨url, host, hurl, hhost, ?_⟩
  have hagain : signature f k now url host { o with
      headers := (stamped k now.basicText (contentHash f o.body) o.headers).insert "authorization"
        (signature f k now url host o) } = signature f k now url host o := by
    unfold signature
    simp only [stamped_signed, signedFields_insert]
  simp only [hagain, stamped_signed]
  rw [Headers.insert_insert]

/-- The names that are signed, as the signature lists them. -/
theorem exists_signedNames : ∃ names code, names.Pairwise (· < ·) ∧ names.count "host" = 1 ∧
    (∀ n, n ∈ names ↔ n = "host" ∨
      (n = "content-type" ∨ n.startsWith "x-amz-") ∧ n ∈ signed.headers.toList.map (·.1.toLower)) ∧
    signed.headers.get? "authorization" = some (algorithm ++ " Credential=" ++ k.accessId ++ "/" ++
      scope k now.dayText ++ ", SignedHeaders=" ++ ";".intercalate names ++ ", Signature=" ++ code) := by
  obtain ⟨url, host, -, -, rfl⟩ := sign_eq_ok_iff.mp h
  let fields := signedFields host (stamped k now.basicText (contentHash f o.body) o.headers)
  obtain ⟨code, hcode⟩ := exists_authorization f k now o.method url fields (contentHash f o.body)
  refine ⟨fields.map Prod.fst, code, pairwise_signedNames _ host, count_host _ host, fun n => ?_, ?_⟩
  · rw [show fields = _ from (signedFields_insert _ host (signature f k now url host o)).symm]
    exact mem_signedNames
  · rw [Headers.get?_insert, if_pos rfl, ← hcode]
    rfl

theorem authorization_of_alike (halike : Alike o p) : ∃ signed',
    sign f k now p = .ok signed' ∧ signed'.headers.get? "authorization" = signed.headers.get? "authorization" := by
  obtain ⟨url, host, hurl, hhost, rfl⟩ := sign_eq_ok_iff.mp h
  obtain ⟨u, v, hu, hv, hhosts, hpath, hquery⟩ := halike.urls
  obtain rfl : u = url := Except.ok.inj (hu.symm.trans hurl)
  refine ⟨_, sign_eq_ok_iff.mpr ⟨v, host, hv, hhosts.trans hhost, rfl⟩, ?_⟩
  rw [Headers.get?_insert, Headers.get?_insert, if_pos rfl, if_pos rfl,
    halike.signature_eq hpath hquery]

end

/-- A signed request differs from the one before in what signing writes alone, and is signed again as it is. The
names that are signed go up; they are the host, the content type if there is one and all names that begin with the
mark of the service. Requests that are alike get the same signature. -/
theorem sign_canonical (h : sign f k now o = .ok signed) :
    (signed.method = o.method ∧ signed.url = o.url ∧ signed.body = o.body ∧
      signed.headers.select (· ∉ written k) = o.headers.select (· ∉ written k) ∧
      ∀ e ∈ stamps k now.basicText (contentHash f o.body), e ∈ signed.headers.toList) ∧
    sign f k now signed = .ok signed ∧
    (∃ names code, names.Pairwise (· < ·) ∧ names.count "host" = 1 ∧
      (∀ n, n ∈ names ↔ n = "host" ∨
        (n = "content-type" ∨ n.startsWith "x-amz-") ∧ n ∈ signed.headers.toList.map (·.1.toLower)) ∧
      signed.headers.get? "authorization" = some (algorithm ++ " Credential=" ++ k.accessId ++ "/" ++
        scope k now.dayText ++ ", SignedHeaders=" ++ ";".intercalate names ++ ", Signature=" ++ code)) ∧
    ∀ p, Alike o p → ∃ signed', sign f k now p = .ok signed' ∧
      signed'.headers.get? "authorization" = signed.headers.get? "authorization" :=
  ⟨frame_of_sign h, sign_again h, exists_signedNames h, fun _ => authorization_of_alike h⟩

/-- A request with a signature from before. -/
def upload : Outgoing where
  method := .PUT
  url := "s3://bucket:81/x?z=1"
  headers := .ofList [("Content-Type", "text/plain"), ("X-Amz-Meta", " a "), ("Authorization", "old")]
  body := some (Bytes.ofString "x")

/-- The same request in other words. -/
def reworded : Outgoing where
  method := .PUT
  url := "s3://user@bucket:81/x?z=1#part"
  headers := .ofList [("authorization", "old "), ("x-amz-Meta", "a"), ("content-type", "\ttext/plain")]
  body := some (Bytes.ofString "x")

theorem alike_reworded : Alike upload reworded where
  method := rfl
  body := rfl
  headers name := by
    have hplain : Text.trim "\ttext/plain" = Text.trim "text/plain" := by cbv
    have hold : Text.trim "old " = Text.trim "old" := by cbv
    have hmeta : Text.trim "a" = Text.trim " a " := by cbv
    have hupload : upload.headers.fields = [("content-type", "Content-Type", "text/plain"),
      ("x-amz-meta", "X-Amz-Meta", " a "), ("authorization", "Authorization", "old")] := by cbv
    have hreworded : reworded.headers.fields = [("authorization", "authorization", "old "),
      ("x-amz-meta", "x-amz-Meta", "a"), ("content-type", "content-type", "\ttext/plain")] := by cbv
    simp only [Headers.get?, hupload, hreworded, getKey?_cons]
    generalize name.toLower = key
    by_cases hkey : key ∈ ["authorization", "x-amz-meta", "content-type"]
    · simp only [List.mem_cons, List.not_mem_nil, or_false] at hkey
      rcases hkey with rfl | rfl | rfl <;> simp [hplain, hold, hmeta]
    · simp only [List.mem_cons, List.not_mem_nil, or_false, not_or] at hkey
      rw [if_neg (Ne.symm hkey.1), if_neg (Ne.symm hkey.2.1), if_neg (Ne.symm hkey.2.2),
        if_neg (Ne.symm hkey.2.2), if_neg (Ne.symm hkey.2.1), if_neg (Ne.symm hkey.1)]
  urls := by
    have hfirst : upload.readUrl = .ok ⟨"s3", "", "", some "bucket", some 81, "/x", some "z=1", none⟩ := by cbv
    have hsecond : reworded.readUrl = .ok ⟨"s3", "user", "", some "bucket", some 81, "/x", some "z=1", some "part"⟩ := by
      cbv
    exact ⟨_, _, hfirst, hsecond, rfl, rfl, .refl _⟩

theorem sign_canonical_reworded :
    let k : Keys := ⟨"AK", "SK", "s3", "us-west-2", some "token"⟩
    let now := Moment.ofSeconds 0
    ∃ signed signed', sign .usual k now upload = .ok signed ∧
      sign .usual k now signed = .ok signed ∧ sign .usual k now reworded = .ok signed' ∧
      signed'.headers.get? "authorization" = signed.headers.get? "authorization" := by
  intro k now
  obtain ⟨signed, hsigned⟩ : ∃ signed, sign .usual k now upload = .ok signed := exists_sign.mpr (by cbv)
  obtain ⟨-, hagain, -, hsame⟩ := sign_canonical hsigned
  obtain ⟨signed', hsigned', hauthorization⟩ := hsame reworded alike_reworded
  exact ⟨signed, signed', hsigned, hagain, hsigned', hauthorization⟩

end
end Aws
end RequestLang
