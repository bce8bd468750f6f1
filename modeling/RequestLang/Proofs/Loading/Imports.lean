import Mathlib
import RequestLang.Loading
import RequestLang.Proofs.Loading.Canonical
import RequestLang.Proofs.Loading.Visits
import RequestLang.Proofs.Property.Run
import RequestLang.Proofs.Steps

/-! Files that import each other. A file is loaded with every file that it can reach, in the order of
a depth-first walk, and none is loaded twice. -/
namespace RequestLang
open Resolve

theorem Files.readText_eq_ok {fs : Files} {role : FileRole} {path text : String} :
    fs.readText role path = .ok text ↔ ∃ bytes, fs.read? path = some bytes ∧ bytes.text? = some text := by
  unfold readText
  cases fs.read? path with
  | none => simp
  | some bytes => cases htext : bytes.text? <;> simp [htext]

namespace Loading

/-- The text of a file, and what it says. -/
def document (fs : Files) (file : String) : Except Failure (String × Document) := do
  let text ← fs.readText .imported file
  let doc ← Document.parseNamed text (some file)
  return (text, doc)

/-- The files that imports lead to, under their canonical paths. -/
def targets (fs : Files) (file : String) (imports : List Import) : Except Failure (List String) :=
  imports.mapM fun i => do
    let path ← importPath fs (some file) i.path
    return fs.canonical path

/-- A file that parses, and whose imports resolve to `files`. -/
structure Reads (fs : Files) (file text : String) (doc : Document) (files : List String) : Prop where
  document : document fs file = .ok (text, doc)
  targets : targets fs file doc.imports = .ok files

def next (fs : Files) (file : String) : List String :=
  (do
    let given ← document fs file
    targets fs file given.2.imports).toOption.getD []

def requestsOf (fs : Files) (file : String) : List Request :=
  ((document fs file).toOption.map (·.2.requests)).getD []

/-- What a file says about properties by itself: its defaults, then its variables. -/
def settle (fs : Files) (file : String) : Resolve Unit := do
  let given ← Resolve.ofExcept (document fs file)
  modify (·.mine given.1)
  given.2.vars.forM Variable.define

section
variable {fs : Files} {file text : String} {doc : Document} {files : List String}

theorem document_eq_ok : document fs file = .ok (text, doc) ↔
    fs.readText .imported file = .ok text ∧ Document.parseNamed text (some file) = .ok doc := by
  simp only [document, bind_eq_ok, pure_eq_ok, Except.ok.injEq, Prod.mk.injEq]
  constructor
  · rintro ⟨_, htext, _, hdoc, rfl, rfl⟩
    exact ⟨htext, hdoc⟩
  · rintro ⟨htext, hdoc⟩
    exact ⟨text, htext, doc, hdoc, rfl, rfl⟩

theorem Reads.next_eq (h : Reads fs file text doc files) : next fs file = files := by
  rw [next, h.document, ok_bind, h.targets]
  rfl

theorem Reads.requestsOf_eq (h : Reads fs file text doc files) : requestsOf fs file = doc.requests := by
  rw [requestsOf, h.document]
  rfl

theorem Reads.on_settle (h : Reads fs file text doc files) (r : Resolver) :
    on (settle fs file) r = on (doc.vars.forM Variable.define) (r.mine text) := by
  rw [settle, h.document]
  rfl

theorem isSome_read?_of_importPath {importer : Option String} {written path : String}
    (h : importPath fs importer written = .ok path) : (fs.read? path).isSome := by
  simp only [importPath] at h
  split at h
  · rename_i hfile
    rw [Except.ok.injEq] at h
    exact h ▸ hfile
  split at h
  · rename_i hfile
    rw [Except.ok.injEq] at h
    exact h ▸ hfile
  · contradiction

theorem targets_cons {i : Import} {imports : List Import} :
    targets fs file (i :: imports) = .ok files ↔ ∃ path rest, importPath fs (some file) i.path = .ok path ∧
      targets fs file imports = .ok rest ∧ files = fs.canonical path :: rest := by
  simp only [targets, List.mapM_cons, bind_eq_ok, pure_eq_ok, Except.ok.injEq]
  constructor
  · rintro ⟨_, ⟨path, hpath, rfl⟩, rest, hrest, rfl⟩
    exact ⟨path, rest, hpath, hrest, rfl⟩
  · rintro ⟨path, rest, hpath, hrest, rfl⟩
    exact ⟨_, ⟨path, hpath, rfl⟩, rest, hrest, rfl⟩

theorem targets_subset {imports : List Import} (h : targets fs file imports = .ok files) : files ⊆ fs.paths := by
  induction imports generalizing files with
  | nil =>
    cases h
    exact List.nil_subset _
  | cons i imports ih =>
    obtain ⟨path, rest, hpath, hrest, rfl⟩ := targets_cons.mp h
    exact List.cons_subset.mpr ⟨Files.canonical_mem_paths (isSome_read?_of_importPath hpath), ih hrest⟩

theorem next_subset (fs : Files) (file : String) : next fs file ⊆ fs.paths := by
  unfold next
  cases hnext : (document fs file >>= fun given => targets fs file given.2.imports) with
  | error f => exact List.nil_subset _
  | ok files =>
    obtain ⟨given, -, htargets⟩ := bind_eq_ok.mp hnext
    exact targets_subset htargets

end

/-- A file gives its requests once those of its imports are loaded, and settles after them. -/
theorem on_loadDocument {fs : Files} {n : Nat} {file text : String} {doc : Document} {files : List String}
    (hreads : Reads fs file text doc files) {visited visited' : List String} {imported : List Request}
    {r s r' : Resolver} (himports : on (loadImports fs (loadDocument fs n) (some file) doc.imports visited) r =
      (.ok (imported, visited'), s)) (hsettle : on (settle fs file) s = (.ok ⟨⟩, r')) :
    on (loadDocument fs (n + 1) doc text (some file) visited) r =
      (.ok (requestsOf fs file ++ imported, visited'), r') := by
  rw [hreads.on_settle] at hsettle
  rw [loadDocument, on_bind_of_ok himports, on_bind_of_ok (on_modify _ _), on_bind_of_ok hsettle,
    hreads.requestsOf_eq]
  rfl

/-- Imports are loaded along the walk, with fuel to spare. Each file entered takes one step of depth,
and there are no more to enter than there are files. -/
theorem on_loadImports {fs : Files} {seen work entered left : List String}
    (h : Visits (next fs) seen work entered left) {n : Nat} {file : String} {imports : List Import}
    (htargets : targets fs file imports = .ok work)
    (hreads : ∀ f ∈ entered, ∃ text doc files, Reads fs f text doc files)
    (hseen : seen.Nodup) (hsub : seen ⊆ fs.paths) (hfuel : fs.paths.length < n + seen.length) {r r' : Resolver}
    (hleft : on (left.forM (settle fs)) r = (.ok ⟨⟩, r')) :
    on (loadImports fs (loadDocument fs n) (some file) imports seen) r =
      (.ok (entered.flatMap (requestsOf fs), seen ++ entered), r') := by
  induction h generalizing n file imports r r' with
  | done =>
    cases imports with
    | nil =>
      cases hleft
      rw [loadImports, List.append_nil]
      rfl
    | cons i imports =>
      obtain ⟨_, _, -, -, heq⟩ := targets_cons.mp htargets
      contradiction
  | skip hf hrest ih =>
    cases imports with
    | nil => cases htargets
    | cons i imports =>
      obtain ⟨path, work, hpath, hwork, heq⟩ := targets_cons.mp htargets
      obtain ⟨rfl, rfl⟩ := List.cons.inj heq
      rw [loadImports, on_ofExcept_bind hpath]
      dsimp only
      rw [List.contains_iff_mem.mpr hf, if_pos rfl]
      exact ih hwork hreads hseen hsub hfuel hleft
  | @enter seen _ entered left entered' left' _ hf hdeep hrest ihdeep ihrest =>
    cases imports with
    | nil => cases htargets
    | cons i imports =>
      obtain ⟨path, work, hpath, hwork, heq⟩ := targets_cons.mp htargets
      obtain ⟨rfl, rfl⟩ := List.cons.inj heq
      obtain ⟨text, doc, files, hdoc⟩ := hreads _ List.mem_cons_self
      obtain ⟨htext, hparse⟩ := document_eq_ok.mp hdoc.document
      have hmem := Files.canonical_mem_paths (isSome_read?_of_importPath hpath)
      have hentered : (seen ++ [fs.canonical path]).Nodup := by
        rw [← List.concat_eq_append]
        exact hseen.concat hf
      have hpaths : seen ++ [fs.canonical path] ⊆ fs.paths :=
        List.append_subset.mpr ⟨hsub, List.cons_subset.mpr ⟨hmem, List.nil_subset _⟩⟩
      have hdepth := hentered.length_le_of_subset hpaths
      rw [List.length_append, List.length_singleton] at hdepth
      obtain ⟨m, rfl⟩ : ∃ m, n = m + 1 := ⟨n - 1, by omega⟩
      have hfuel_deep : fs.paths.length < m + (seen ++ [fs.canonical path]).length := by
        rw [List.length_append, List.length_singleton]
        omega
      have hfuel_rest : fs.paths.length < m + 1 + (seen ++ fs.canonical path :: entered).length := by
        rw [List.length_append]
        omega
      -- The files left are those below, then the file itself, then those of the other imports.
      rw [List.forM_eq_forM, List.forM_append, List.forM_cons] at hleft
      obtain ⟨_, s, hbelow, hleft⟩ := on_bind_eq_ok.mp hleft
      obtain ⟨_, t, hsettle, hafter⟩ := on_bind_eq_ok.mp hleft
      have hreads_deep : ∀ f ∈ entered, ∃ text doc files, Reads fs f text doc files := fun f hf =>
        hreads f (List.mem_cons_of_mem _ (List.mem_append_left _ hf))
      have hloaded := on_loadDocument hdoc
        (ihdeep (hdoc.next_eq ▸ hdoc.targets) hreads_deep hentered hpaths hfuel_deep hbelow) hsettle
      have hvisited : seen ++ [fs.canonical path] ++ entered = seen ++ fs.canonical path :: entered := by simp
      have hothers := ihrest hwork
        (fun f hf => hreads f (List.mem_cons_of_mem _ (List.mem_append_right _ hf)))
        (hvisited ▸ hdeep.nodup_append hentered) (hvisited ▸ hdeep.subset_append (next_subset fs) hpaths)
        hfuel_rest hafter
      have hnew : seen.contains (fs.canonical path) = false := by simpa using hf
      rw [loadImports, on_ofExcept_bind hpath]
      dsimp only
      rw [hnew, if_neg Bool.false_ne_true, on_ofExcept_bind htext,
        on_ofExcept_bind hparse, on_bind_of_ok hloaded]
      dsimp only
      rw [hvisited, on_bind_of_ok hothers]
      simp

/-- What a request goes by. -/
def addresses (index : Nat) (q : Request) : List String := toString (index + 1) :: q.name.toList

def addressesFrom (index : Nat) (requests : List Request) : List (List String) :=
  (requests.zipIdx index).map fun e => addresses e.2 e.1

/-- No two requests go by the same. -/
def Unique (requests : List Request) : Prop := (addressesFrom 0 requests).Pairwise List.Disjoint

theorem addressesFrom_cons (index : Nat) (q : Request) (rest : List Request) :
    addressesFrom index (q :: rest) = addresses index q :: addressesFrom (index + 1) rest := rfl

/-- A name that is the number of its own request counts once. -/
theorem mem_addresses {index : Nat} {q : Request} {a : String} :
    a ∈ addresses index q ↔ a ∈ toString (index + 1) :: (q.name.filter (· != toString (index + 1))).toList := by
  simp only [addresses, List.mem_cons, Option.mem_toList, Option.filter_eq_some_iff]
  by_cases ha : a = toString (index + 1)
  · simp only [ha, true_or]
  · simp only [ha, false_or, bne_iff_ne, ne_eq, not_false_eq_true, and_true]

theorem checkNamesFrom_eq_ok {seen : List String} {index : Nat} {requests : List Request} :
    checkNamesFrom seen index requests = .ok () ↔
      (∀ own ∈ addressesFrom index requests, own.Disjoint seen) ∧
        (addressesFrom index requests).Pairwise List.Disjoint := by
  induction requests generalizing seen index with
  | nil => simp [checkNamesFrom, addressesFrom]
  | cons q rest ih =>
    have hfree : (toString (index + 1) :: (q.name.filter (· != toString (index + 1))).toList).find? seen.contains =
        none ↔ (addresses index q).Disjoint seen := by
      rw [List.find?_eq_none]
      simp only [← mem_addresses, List.contains_iff_mem]
      rfl
    have hsplit (own : List String) : own.Disjoint ((toString (index + 1) ::
        (q.name.filter (· != toString (index + 1))).toList) ++ seen) ↔
        (addresses index q).Disjoint own ∧ own.Disjoint seen := by
      rw [List.disjoint_append_right]
      refine and_congr_left fun _ => ?_
      rw [List.disjoint_comm]
      simp only [List.Disjoint, mem_addresses]
    rw [checkNamesFrom, addressesFrom_cons]
    split
    · rename_i taken htaken
      have hnot := hfree.not.mp (by rw [htaken]; exact Option.some_ne_none _)
      simp [hnot]
    · rename_i hnone
      rw [ih]
      simp only [hsplit, List.forall_mem_cons, List.pairwise_cons, hfree.mp hnone, true_and, forall_and]
      tauto

theorem checkNames_eq_ok {requests : List Request} : checkNames requests = .ok () ↔ Unique requests := by
  rw [checkNames, checkNamesFrom_eq_ok, Unique]
  simp

/-- Whether names clash is seen from the names alone. -/
theorem checkNames_congr {rs ss : List Request} (h : rs.map Request.name = ss.map Request.name) :
    checkNames rs = checkNames ss := by
  have hfrom (seen : List String) (index : Nat) : checkNamesFrom seen index rs = checkNamesFrom seen index ss := by
    induction rs generalizing ss seen index with
    | nil =>
      obtain rfl : ss = [] := List.map_eq_nil_iff.mp h.symm
      rfl
    | cons r rs ih =>
      obtain ⟨s, ss, rfl, hname, hrest⟩ := List.map_eq_cons_iff.mp h.symm
      simp only [checkNamesFrom, hname, ih hrest.symm]
  exact hfrom [] 0

/-- Imports load each file once. Whatever the imports between files are like, a file is loaded with
all that it can reach, itself first and the others as a depth-first walk comes to them, if each of
them parses, its imports resolve, its variables can be computed when the walk leaves it, and no two
requests go by the same. -/
theorem loadFile_once (fs : Files) (hfs : fs.Rooted) (path : String)
    (hreads : ∀ f, Visits.Reach (next fs) (fs.canonical path) f → ∃ text doc files, Reads fs f text doc files) :
    ∃ others left, Visits (next fs) [] [fs.canonical path] (fs.canonical path :: others) left ∧
      (fs.canonical path :: others).Nodup ∧ left.Perm (fs.canonical path :: others) ∧
      (∀ f, f ∈ fs.canonical path :: others ↔ Visits.Reach (next fs) (fs.canonical path) f) ∧
      ∀ r r', on (left.forM (settle fs)) r = (.ok ⟨⟩, r') →
        Unique ((fs.canonical path :: others).flatMap (requestsOf fs)) →
        on (loadFile fs path) r = (.ok ((fs.canonical path :: others).flatMap (requestsOf fs)), r') := by
  obtain ⟨text, doc, files, hdoc⟩ := hreads _ .refl
  obtain ⟨htext, hparse⟩ := document_eq_ok.mp hdoc.document
  obtain ⟨bytes, hbytes, hchars⟩ := Files.readText_eq_ok.mp htext
  have hread : fs.read? path = some bytes := Files.read?_canonical hfs path ▸ hbytes
  have hroot := Files.canonical_mem_paths (Option.isSome_of_eq_some hread)
  obtain ⟨others, left, hdeep⟩ := exists_visits (next_subset fs) [fs.canonical path]
    (next fs (fs.canonical path)) (next_subset fs _)
  have hwalk : Visits (next fs) [] [fs.canonical path] (fs.canonical path :: others)
      (left ++ [fs.canonical path]) := Visits.enter_skipping List.not_mem_nil hdeep (by simp)
  refine ⟨others, _, hwalk, hwalk.nodup_append List.nodup_nil, hwalk.perm, hwalk.mem_iff_reach, ?_⟩
  intro r r' hleft hunique
  rw [List.forM_eq_forM, List.forM_append] at hleft
  obtain ⟨_, s, hbelow, hsettle⟩ := on_bind_eq_ok.mp hleft
  rw [List.forM_cons, List.forM_nil, bind_pure_unit] at hsettle
  have himports := on_loadImports hdeep (hdoc.next_eq ▸ hdoc.targets)
    (fun f hf => hreads f ((hwalk.mem_iff_reach f).mp (List.mem_cons_of_mem _ hf)))
    (List.nodup_singleton _) (List.cons_subset.mpr ⟨hroot, List.nil_subset _⟩) (n := fs.contents.length + 1)
    (by simp [Files.paths]) hbelow
  have hstart : ((some (fs.canonical path)).map Path.normal).toList = [fs.canonical path] := by
    rw [Option.map_some, Files.normal_canonical hfs (Option.isSome_of_eq_some hread)]
    rfl
  rw [loadFile, on_ofExcept_bind (Files.readText_eq_ok.mpr ⟨bytes, hread, hchars⟩), loadContent,
    on_ofExcept_bind hparse, hstart, on_bind_of_ok (on_loadDocument hdoc himports hsettle)]
  dsimp only
  rw [← List.flatMap_cons, on_ofExcept_bind (checkNames_eq_ok.mpr hunique)]
  rfl

/-- Three files in a circle, one of which imports itself and another one twice over. -/
def circle : Files where
  workingDir := ["w"]
  contents :=
    [(["w", "a.http"], Bytes.ofString "import \"b\" import \"c.http\" import \"a\" \"x\""),
     (["w", "b.http"], Bytes.ofString "import \"c\" import \"a.http\" \"y\""),
     (["w", "c.http"], Bytes.ofString "import \"/w/b\" \"z\"")]

theorem exists_reads (fs : Files) (file : String) (files : List String)
    (h : (do
      let given ← document fs file
      targets fs file given.2.imports).toOption = some files) : ∃ text doc, Reads fs file text doc files := by
  cases hnext : (document fs file >>= fun given => targets fs file given.2.imports) with
  | error f => simp [hnext, Except.toOption] at h
  | ok found =>
    rw [hnext] at h
    cases h
    obtain ⟨⟨text, doc⟩, hdocument, htargets⟩ := bind_eq_ok.mp hnext
    exact ⟨text, doc, hdocument, htargets⟩

theorem loadFile_once_circle :
    let r : Resolver := { surroundings := ⟨fun _ => none, fun _ => none, 0⟩, draws := ⟨id, 0⟩ }
    circle.Rooted ∧
      (∀ f, Visits.Reach (next circle) (circle.canonical "a.http") f → ∃ text doc files, Reads circle f text doc files) ∧
      ∃ r', on (loadFile circle "a.http") r =
        (.ok (["/w/a.http", "/w/b.http", "/w/c.http"].flatMap (requestsOf circle)), r') := by
  intro r
  have hrooted : circle.Rooted := by
    intro p hp
    rw [List.mem_singleton.mp hp]
    exact ⟨by decide, by decide, by decide, by decide +kernel⟩
  have hroot : circle.canonical "a.http" = "/w/a.http" := by decide +kernel
  obtain ⟨_, _, ha⟩ := exists_reads circle "/w/a.http" ["/w/b.http", "/w/c.http", "/w/a.http"] (by decide +kernel)
  obtain ⟨_, _, hb⟩ := exists_reads circle "/w/b.http" ["/w/c.http", "/w/a.http"] (by decide +kernel)
  obtain ⟨_, _, hc⟩ := exists_reads circle "/w/c.http" ["/w/b.http"] (by decide +kernel)
  have hdeepest : Visits (next circle) ([] ++ ["/w/a.http"] ++ ["/w/b.http"] ++ ["/w/c.http"])
      (next circle "/w/c.http") [] [] := .skips (by rw [hc.next_eq]; decide)
  have hdeep : Visits (next circle) ([] ++ ["/w/a.http"] ++ ["/w/b.http"]) (next circle "/w/b.http")
      ["/w/c.http"] ([] ++ ["/w/c.http"]) := by
    rw [hb.next_eq]
    exact .enter_skipping (by decide) hdeepest (by decide)
  have hbelow : Visits (next circle) ([] ++ ["/w/a.http"]) (next circle "/w/a.http")
      ["/w/b.http", "/w/c.http"] ([] ++ ["/w/c.http"] ++ ["/w/b.http"]) := by
    rw [ha.next_eq]
    exact .enter_skipping (by decide) hdeep (by decide)
  have hwalk : Visits (next circle) [] ["/w/a.http"] ["/w/a.http", "/w/b.http", "/w/c.http"]
      ["/w/c.http", "/w/b.http", "/w/a.http"] := .enter_skipping (by decide) hbelow (by decide)
  have hreads : ∀ f, Visits.Reach (next circle) (circle.canonical "a.http") f →
      ∃ text doc files, Reads circle f text doc files := by
    intro f hf
    rw [hroot] at hf
    have hmem := (hwalk.mem_iff_reach f).mpr hf
    simp only [List.mem_cons, List.not_mem_nil, or_false] at hmem
    rcases hmem with rfl | rfl | rfl
    · exact ⟨_, _, _, ha⟩
    · exact ⟨_, _, _, hb⟩
    · exact ⟨_, _, _, hc⟩
  have hunique : Unique (["/w/a.http", "/w/b.http", "/w/c.http"].flatMap (requestsOf circle)) := by
    have haddresses : addressesFrom 0 (["/w/a.http", "/w/b.http", "/w/c.http"].flatMap (requestsOf circle)) =
        [["1"], ["2"], ["3"]] := by decide +kernel
    rw [Unique, haddresses]
    simp
  have hsettled : (on (["/w/c.http", "/w/b.http", "/w/a.http"].forM (settle circle)) r).1.toOption = some ⟨⟩ := by
    decide +kernel
  obtain ⟨_, hleft, -⟩ := exists_ok_of_map (f := id) (by rw [hsettled]; rfl)
  obtain ⟨others, left, hvisits, -, -, -, hload⟩ := loadFile_once circle hrooted "a.http" hreads
  rw [hroot] at hvisits hload
  obtain ⟨hothers, rfl⟩ := hwalk.unique hvisits
  rw [hothers] at hload
  exact ⟨hrooted, hreads, _, hload r _ (Prod.ext hleft rfl) hunique⟩

end Loading
end RequestLang
