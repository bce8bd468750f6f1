import RequestLang.Auth.TokenCache
import RequestLang.Proofs.Arith.Words
import RequestLang.Proofs.Json.Written
import RequestLang.Proofs.Loading.Spelling
import RequestLang.Proofs.Text.Utf8

/-! The token cache as a map with expiry. Each store writes the whole file anew from what was read of it, so that the
entries of other keys live on by being read and written; what carries a run is that the file is the text of a cache
that has each key once and times within sixty-four bits. -/
namespace RequestLang

theorem Bytes.text?_ofString (s : String) : text? (ofString s) = some s := by
  have hchars (cs : List Char) : (cs.map some).mapM id = some cs := by
    induction cs with
    | nil => rfl
    | cons c cs ih => simp [ih]
  rw [text?, chars?, ofString, scan_ofChars, hchars, Option.map_some, String.ofList_toList]

namespace CachedToken

/-- The times that the program keeps. -/
def Fits (t : CachedToken) : Prop := fitsSigned t.expiresOn

theorem isValid_iff {t : CachedToken} {now : Int} : t.isValid now ↔ now + 60 < t.expiresOn := decide_eq_true_iff

theorem ofJson?_json {t : CachedToken} (h : t.Fits) : ofJson? t.json = some t := by
  have hfits : fitsSigned t.expiresOn = true := h
  simp [ofJson?, json, members, Json.sole?, Json.string?, Json.int64?, Json.int, hfits]

theorem fits_of_int64? {v : Json} {i : Int} (h : v.int64? = some i) : fitsSigned i := by
  unfold Json.int64? at h
  split at h
  · split at h
    · rename_i hfits
      rwa [← Option.some.inj h]
    · cases h
  · cases h

theorem fits_of_ofJson? {v : Json} {t : CachedToken} (h : ofJson? v = some t) : t.Fits := by
  unfold ofJson? at h
  split at h
  · obtain ⟨_, _, h⟩ := Option.bind_eq_some_iff.mp h
    obtain ⟨_, _, h⟩ := Option.bind_eq_some_iff.mp h
    obtain ⟨_, _, h⟩ := Option.bind_eq_some_iff.mp h
    obtain ⟨i, hi, h⟩ := Option.bind_eq_some_iff.mp h
    obtain rfl := Option.some.inj h
    exact fits_of_int64? hi
  · obtain ⟨_, _, h⟩ := Option.bind_eq_some_iff.mp h
    obtain ⟨i, hi, h⟩ := Option.bind_eq_some_iff.mp h
    obtain rfl := Option.some.inj h
    exact fits_of_int64? hi
  · cases h

theorem isRecord_members {t : CachedToken} (h : t.Fits) : Json.IsRecord fields t.members := by
  have hrange : -signedEnd ≤ t.expiresOn ∧ t.expiresOn < signedEnd := Arith.fitsSigned_iff.mp h
  have hword : signedEnd < (wordEnd : Int) := by decide
  simp only [Json.IsRecord, members, List.forall_mem_cons]
  exact ⟨⟨by simp [fields], trivial⟩, ⟨by simp [fields], hrange.1, hrange.2.trans hword⟩, by simp⟩

end CachedToken

namespace TokenCache
open Files

/-- A cache that has each key once and times that are kept. -/
structure Sound (c : TokenCache) : Prop where
  nodup : (c.map Prod.fst).Nodup
  fits : ∀ e ∈ c, e.2.Fits

theorem sound_nil : Sound [] := ⟨List.nodup_nil, nofun⟩

theorem Sound.store {c : TokenCache} (h : c.Sound) (key : String) {t : CachedToken} (ht : t.Fits) :
    (c.store key t).Sound where
  nodup := nodup_keys_setKey key t h.nodup
  fits e he := by
    rcases mem_of_mem_setKey he with rfl | he
    · exact ht
    · exact h.fits e he

/-- The members of a cache, one after another. -/
def gather (c : TokenCache) (members : List (String × Json)) : Option TokenCache :=
  members.foldlM (fun (c : TokenCache) (key, v) => do return c.store key (← CachedToken.ofJson? v)) c

theorem gather_json {c known : TokenCache} (h : Sound (known ++ c)) :
    known.gather (c.map fun (key, t) => (key, t.json)) = some (known ++ c) := by
  induction c generalizing known with
  | nil => simp [gather]
  | cons e c ih =>
    obtain ⟨key, t⟩ := e
    have hkey : key ∉ known.map Prod.fst := by
      have := h.nodup
      rw [List.map_append, List.nodup_append] at this
      exact fun hmem => this.2.2 key hmem key (by simp) rfl
    have ht : CachedToken.ofJson? t.json = some t := CachedToken.ofJson?_json (h.fits (key, t) (by simp))
    have hstore : known.store key t = known ++ [(key, t)] := setKey_of_not_mem hkey t
    have hsound : Sound ((known ++ [(key, t)]) ++ c) := by simpa using h
    have hnext := ih hsound
    rw [List.append_assoc, List.singleton_append] at hnext
    simpa [gather, ht, hstore] using hnext

theorem readWhole_text {c : TokenCache} (h : ∀ e ∈ c, e.2.Fits) :
    Json.readWhole (Json.readRecords CachedToken.fields) c.text = .ok c.json := by
  have hjson : c.json = Json.ofRecords (c.map fun (key, t) => (key, t.members)) := by
    simp [json, CachedToken.json, Json.ofRecords]
  have hrecords : ∀ r ∈ c.map fun (key, t) => (key, t.members), Json.IsRecord CachedToken.fields r.2 := by
    intro r hr
    obtain ⟨e, he, rfl⟩ := List.mem_map.mp hr
    exact CachedToken.isRecord_members (h e he)
  rw [text, hjson]
  exact Json.readWhole_records (Json.Layout.isLoose_pretty 2) hrecords

/-- The text of a cache is read as that cache. -/
theorem ofText?_text {c : TokenCache} (h : c.Sound) : ofText? c.text = some c := by
  have hread : Json.readWhole (Json.readRecords CachedToken.fields) c.text = .ok c.json := readWhole_text h.fits
  have hsound : Sound ([] ++ c) := h
  have hgather := gather_json hsound
  rw [ofText?, hread]
  exact hgather

theorem sound_of_gather {c known : TokenCache} {members : List (String × Json)} (h : known.gather members = some c)
    (hknown : known.Sound) : c.Sound := by
  induction members generalizing known with
  | nil => exact Option.some.inj h ▸ hknown
  | cons m ms ih =>
    obtain ⟨next, hnext, h⟩ := Option.bind_eq_some_iff.mp h
    obtain ⟨t, ht, hstore⟩ := Option.bind_eq_some_iff.mp hnext
    obtain rfl := Option.some.inj hstore
    exact ih h (hknown.store m.1 (CachedToken.fits_of_ofJson? ht))

theorem sound_of_ofText? {text : String} {c : TokenCache} (h : ofText? text = some c) : c.Sound := by
  obtain ⟨v, -, h⟩ := Option.bind_eq_some_iff.mp h
  obtain ⟨members, -, h⟩ := Option.bind_eq_some_iff.mp h
  exact sound_of_gather h sound_nil

/-! Files. -/

/-- The cache that a file holds, if it is there and can be read. -/
def held? (fs : Files) (path : String) : Option TokenCache := ((fs.read? path).bind Bytes.text?).bind ofText?

section
variable {fs fs' : Files} {path key : String} {t : CachedToken}

theorem ofFile_eq (fs : Files) (path : String) : ofFile fs path = (held? fs path).getD [] := rfl

theorem sound_ofFile (fs : Files) (path : String) : (ofFile fs path).Sound := by
  rw [ofFile_eq]
  cases h : held? fs path with
  | none => exact sound_nil
  | some c =>
    obtain ⟨text, -, hc⟩ := Option.bind_eq_some_iff.mp h
    exact sound_of_ofText? hc

/-- A store leaves a file that can be read, with the entry beside those that were there. -/
theorem held?_storeIn (ht : t.Fits) (h : storeIn? fs path key t = some fs') :
    held? fs' path = some ((ofFile fs path).store key t) := by
  rw [held?, read?_write h, Option.bind_some, Bytes.text?_ofString, Option.bind_some]
  exact ofText?_text ((sound_ofFile fs path).store key ht)

theorem isSome_storeIn? : (storeIn? fs path key t).isSome ↔ fs.IsWritable path := isWritable_iff.symm

theorem isWritable_storeIn (h : storeIn? fs path key t = some fs') : fs'.IsWritable path ↔ fs.IsWritable path :=
  isWritable_write h path

end

/-! Runs. -/

inductive Call
  | store (key : String) (t : CachedToken)
  | get (now : Int) (key : String)

/-- The files after a call. A store that fails leaves them as they are. -/
def Call.run (path : String) (fs : Files) : Call → Files
  | .store key t => (storeIn? fs path key t).getD fs
  | .get _ _ => fs

/-- The files after calls that are made one after another. -/
def after (path : String) (fs : Files) (calls : List Call) : Files := calls.foldl (Call.run path) fs

/-- The times of the tokens that are stored fit sixty-four bits. -/
def Call.Fits : Call → Prop
  | .store _ t => t.Fits
  | .get _ _ => True

/-- The token that was stored last for a key. -/
def lastStored? (key : String) : List Call → Option CachedToken
  | [] => none
  | .store k t :: calls => (lastStored? key calls).or (if k = key then some t else none)
  | .get _ _ :: calls => lastStored? key calls

section
variable {fs : Files} {path : String}

theorem after_cons (call : Call) (calls : List Call) :
    after path fs (call :: calls) = after path (call.run path fs) calls := rfl

theorem run_of_not_isWritable (h : ¬fs.IsWritable path) (call : Call) : call.run path fs = fs := by
  cases call with
  | get => rfl
  | store key t =>
    have hnone : storeIn? fs path key t = none := by
      rw [← Option.not_isSome_iff_eq_none, isSome_storeIn?]
      exact h
    rw [Call.run, hnone]
    rfl

theorem isWritable_run (call : Call) : (call.run path fs).IsWritable path ↔ fs.IsWritable path := by
  cases call with
  | get => rfl
  | store key t =>
    rw [Call.run]
    cases h : storeIn? fs path key t with
    | none => rfl
    | some fs' => exact isWritable_storeIn h

theorem isWritable_after (calls : List Call) : (after path fs calls).IsWritable path ↔ fs.IsWritable path := by
  induction calls generalizing fs with
  | nil => rfl
  | cons call calls ih => rw [after_cons, ih, isWritable_run]

/-- What a call does to the entry of a key. -/
theorem getKey?_run (h : fs.IsWritable path) (key : String) {call : Call} (hfits : call.Fits) :
    getKey? key (ofFile (call.run path fs) path) = (lastStored? key [call]).or (getKey? key (ofFile fs path)) := by
  cases call with
  | get => rfl
  | store k t =>
    have hstored : (storeIn? fs path k t).isSome := isSome_storeIn?.mpr h
    obtain ⟨fs', hfs'⟩ := Option.isSome_iff_exists.mp hstored
    have hheld := held?_storeIn hfits hfs'
    rw [Call.run, hfs', Option.getD_some, ofFile_eq, hheld, Option.getD_some, store, getKey?_setKey]
    by_cases hkey : k = key
    · simp [lastStored?, hkey]
    · simp [lastStored?, hkey, Ne.symm hkey]

/-- What a run does to the entry of a key, whatever becomes of the others. -/
theorem getKey?_after (h : fs.IsWritable path) (key : String) {calls : List Call} (hfits : ∀ c ∈ calls, c.Fits) :
    getKey? key (ofFile (after path fs calls) path) = (lastStored? key calls).or (getKey? key (ofFile fs path)) := by
  induction calls generalizing fs with
  | nil => rfl
  | cons call calls ih =>
    rw [List.forall_mem_cons] at hfits
    rw [after_cons, ih ((isWritable_run call).mpr h) hfits.2, getKey?_run h key hfits.1, ← Option.or_assoc]
    cases call with
    | get => simp [lastStored?]
    | store k t => simp [lastStored?]

theorem after_of_not_isWritable (h : ¬fs.IsWritable path) (calls : List Call) : after path fs calls = fs := by
  induction calls with
  | nil => rfl
  | cons call calls ih => rw [after_cons, run_of_not_isWritable h, ih]

theorem get?_eq_some_iff {c : TokenCache} {now : Int} {key token : String} : c.get? now key = some token ↔
    ∃ t, getKey? key c = some t ∧ now + 60 < t.expiresOn ∧ t.accessToken = token := by
  simp only [get?, Option.map_eq_some_iff, Option.filter_eq_some_iff, CachedToken.isValid_iff, and_assoc]

/-- The entry of a key in what a file holds, if it holds a cache. -/
theorem getKey?_ofFile (fs : Files) (path key : String) :
    getKey? key (ofFile fs path) = (held? fs path).bind (getKey? key) := by
  rw [ofFile_eq]
  cases held? fs path <;> rfl

/-- A store under one key leaves the answers for the others, and makes a file that held nothing hold this entry. -/
theorem storeIn_frame {fs' : Files} {key : String} {t : CachedToken} (ht : t.Fits)
    (h : storeIn? fs path key t = some fs') :
    (∀ now other, other ≠ key → (ofFile fs' path).get? now other = (ofFile fs path).get? now other) ∧
      (held? fs path = none → held? fs' path = some [(key, t)]) := by
  have hheld := held?_storeIn ht h
  constructor
  · intro now other hother
    rw [get?, ofFile_eq fs', hheld, Option.getD_some, store, getKey?_setKey, if_neg hother, get?]
  · intro hnone
    rw [hheld, ofFile_eq, hnone]
    rfl

/-- A cache is a map with expiry. Whatever its file held at first, after any calls each key has the token that was
stored last for it, or the one of the first file if none was, for as long as more than a minute is left. All stores
succeed if the path leads to a place for a file, and none does otherwise. -/
theorem cache_runs (fs : Files) (path : String) {calls : List Call} (hfits : ∀ c ∈ calls, c.Fits) :
    (fs.IsWritable path → ∀ now key token,
      (ofFile (after path fs calls) path).get? now key = some token ↔
        ∃ t, (lastStored? key calls).or ((held? fs path).bind (getKey? key)) = some t ∧
          now + 60 < t.expiresOn ∧ t.accessToken = token) ∧
    (¬fs.IsWritable path → ∀ now key token,
      (ofFile (after path fs calls) path).get? now key = some token ↔
        ∃ t, (held? fs path).bind (getKey? key) = some t ∧ now + 60 < t.expiresOn ∧ t.accessToken = token) ∧
    ∀ key t, t.Fits →
      ((storeIn? (after path fs calls) path key t).isSome ↔ fs.IsWritable path) ∧
      ∀ fs', storeIn? (after path fs calls) path key t = some fs' →
        (∀ now other, other ≠ key → (ofFile fs' path).get? now other =
          (ofFile (after path fs calls) path).get? now other) ∧
        (held? (after path fs calls) path = none → held? fs' path = some [(key, t)]) := by
  refine ⟨?written, ?kept, ?frame⟩
  case written =>
    intro h now key token
    rw [get?_eq_some_iff, getKey?_after h key hfits, getKey?_ofFile]
  case kept =>
    intro h now key token
    rw [get?_eq_some_iff, after_of_not_isWritable h, getKey?_ofFile]
  case frame =>
    intro key t ht
    exact ⟨isSome_storeIn?.trans (isWritable_after calls), fun fs' => storeIn_frame ht⟩

/-- A directory with a cache whose text breaks off. -/
def spoilt : Files where
  workingDir := ["home"]
  contents := [(["home", "cache.json"], Bytes.ofString "\x7b\"a\": \x7b\"access_token\": \"old\"")]

/-- Two tokens one second apart, asked for when one of them has a minute left. -/
theorem cache_runs_spoilt :
    let calls := [Call.store "a" ⟨"x", 160⟩, .get 99 "a", .store "b" ⟨"y", 161⟩, .store "c" ⟨"z", signedEnd - 1⟩]
    let fs := after "cache.json" spoilt calls
    (∀ c ∈ calls, c.Fits) ∧ spoilt.IsWritable "cache.json" ∧ held? spoilt "cache.json" = none ∧
      (ofFile fs "cache.json").get? 99 "a" = some "x" ∧ (ofFile fs "cache.json").get? 100 "a" ≠ some "x" ∧
      (ofFile fs "cache.json").get? 100 "b" = some "y" := by
  have hfits : ∀ c ∈ [Call.store "a" ⟨"x", 160⟩, .get 99 "a", .store "b" ⟨"y", 161⟩,
      .store "c" ⟨"z", signedEnd - 1⟩], c.Fits := by
    simp [Call.Fits, CachedToken.Fits, fitsSigned, signedEnd]
  have hwritable : spoilt.IsWritable "cache.json" := 
    ⟨["home", "cache.json"], by decide, by decide +kernel, by decide, by decide⟩
  have hheld : held? spoilt "cache.json" = none := by decide +kernel
  have hget := (cache_runs spoilt "cache.json" hfits).1 hwritable
  refine ⟨hfits, hwritable, hheld, (hget _ _ _).mpr ⟨⟨"x", 160⟩, rfl, by decide, rfl⟩, ?_,
    (hget _ _ _).mpr ⟨⟨"y", 161⟩, rfl, by decide, rfl⟩⟩
  rw [ne_eq, hget]
  rintro ⟨t, ht, hlate, -⟩
  obtain rfl := Option.some.inj ht
  exact absurd hlate (by decide)

end

end TokenCache
end RequestLang
