import Mathlib
import RequestLang.Proofs.Document.Placed
import RequestLang.Proofs.Loading.Imports
import RequestLang.Proofs.Loading.Spelling

/-! Loading a text that stands for a file. It loads what the file itself would, unless the file is
imported again and its path is not the canonical one. -/
namespace RequestLang

def Failure.placed (file : Option String) : Failure → Failure
  | .syntaxError e => .syntaxError (e.placed file)
  | f => f

namespace Resolve
variable {α β α' β' : Type} {R : α → α' → Prop} {S : β → β' → Prop}

/-- Two results that leave the same resolver. Errors may differ in the file that they point to. -/
inductive SameOutcome (R : α → α' → Prop) : Except Failure α × Resolver → Except Failure α' × Resolver → Prop
  | ok {a : α} {a' : α'} {r : Resolver} (h : R a a') : SameOutcome R (.ok a, r) (.ok a', r)
  | error {e e' : Failure} {r : Resolver} (h : e.placed none = e'.placed none) : SameOutcome R (.error e, r) (.error e', r)

/-- Two steps that agree wherever they start. -/
def Alike (R : α → α' → Prop) (x : Resolve α) (x' : Resolve α') : Prop := ∀ r, SameOutcome R (on x r) (on x' r)

namespace Alike

theorem pure {a : α} {a' : α'} (h : R a a') : Alike R (pure a) (Pure.pure a') := fun _ => .ok h

theorem refl {R : α → α → Prop} (h : ∀ a, R a a) (x : Resolve α) : Alike R x x := by
  intro r
  rcases on x r with ⟨e | a, s⟩
  · exact .error rfl
  · exact .ok (h a)

theorem bind {x : Resolve α} {x' : Resolve α'} {f : α → Resolve β} {f' : α' → Resolve β'} (hx : Alike R x x')
    (hf : ∀ a a', R a a' → Alike S (f a) (f' a')) : Alike S (x >>= f) (x' >>= f') := by
  intro r
  have hfirst := hx r
  rw [on_bind, on_bind]
  cases hleft : on x r with
  | mk a s =>
    cases hright : on x' r with
    | mk a' s' =>
      rw [hleft, hright] at hfirst
      cases hfirst with
      | ok h => exact hf _ _ h s
      | error h => exact .error h

/-- A step that both take first. -/
theorem after (x : Resolve α) {f : α → Resolve β} {f' : α → Resolve β'} (hf : ∀ a, Alike S (f a) (f' a)) :
    Alike S (x >>= f) (x >>= f') :=
  bind (refl (fun _ => rfl) x) fun a _ h => h ▸ hf a

theorem ofExcept_bind {x : Except Failure α} {f : α → Resolve β} {f' : α → Resolve β'}
    (h : ∀ a, x = .ok a → Alike S (f a) (f' a)) : Alike S (ofExcept x >>= f) (ofExcept x >>= f') := by
  cases x with
  | error e => exact fun r => .error rfl
  | ok a => exact h a rfl

end Alike
end Resolve

namespace Loading
open Resolve
variable {fs : Files} {p q : String} {place : List String}

/-- It makes no difference to imports how the file that they stand in is spelled. -/
theorem canonical_importPath (hfs : fs.Tidy) (hp : fs.fileAt? p = some place) (hq : fs.fileAt? q = some place)
    (path : String) : fs.canonical <$> importPath fs (some p) path = fs.canonical <$> importPath fs (some q) path := by
  have hfile (written : String) : fs.isFile (Path.relativeTo (some p) written) =
      fs.isFile (Path.relativeTo (some q) written) := by
    rw [Files.isFile_eq, Files.isFile_eq, hfs.fileAt?_relativeTo_congr hp hq]
  have hcanonical (written : String) (h : fs.isFile (Path.relativeTo (some q) written)) :
      fs.canonical (Path.relativeTo (some p) written) = fs.canonical (Path.relativeTo (some q) written) := by
    rw [Files.isFile_eq, Option.isSome_iff_exists] at h
    obtain ⟨found, hfound⟩ := h
    rw [Files.canonical_of_fileAt? hfound, Files.canonical_of_fileAt?]
    rw [hfs.fileAt?_relativeTo_congr hp hq, hfound]
  simp only [importPath, hfile]
  split
  · rename_i h
    rw [map_ok, map_ok, hcanonical path h]
  split
  · rename_i h
    rw [map_ok, map_ok, hcanonical _ h]
  · rfl

theorem loadImports_spelling (hfs : fs.Tidy) (hp : fs.fileAt? p = some place) (hq : fs.fileAt? q = some place)
    (load : Document → String → Option String → List String → Resolve Loaded) (imports : List Import)
    (visited : List String) :
    loadImports fs load (some p) imports visited = loadImports fs load (some q) imports visited := by
  induction imports generalizing visited with
  | nil => rfl
  | cons i rest ih =>
    simp only [loadImports, ih]
    have hpath := canonical_importPath hfs hp hq i.path
    cases hleft : importPath fs (some p) i.path <;> cases hright : importPath fs (some q) i.path <;>
      rw [hleft, hright] at hpath
    · cases hpath
      rfl
    · cases hpath
    · cases hpath
    · rename_i path path'
      have hfile : fs.canonical path = fs.canonical path' := Except.ok.inj hpath
      change (if visited.contains (fs.canonical path) then _ else _) = (if visited.contains (fs.canonical path') then _ else _)
      rw [hfile]

/-- A file that a file imports, under its canonical path. -/
def Imported (fs : Files) (f g : String) : Prop := ∃ text doc, document fs f = .ok (text, doc) ∧
  ∃ i ∈ doc.imports, ∃ path, importPath fs (some f) i.path = .ok path ∧ fs.canonical path = g

/-- The same files of a kind were visited. -/
def SameVisits (P : String → Prop) (v v' : List String) : Prop := ∀ f, P f → (f ∈ v ↔ f ∈ v')

/-- The same requests, after the same files of a kind. -/
def SameLoad (P : String → Prop) (l l' : Loaded) : Prop := l.1 = l'.1 ∧ SameVisits P l.2 l'.2

/-- What was visited matters only as far as imports lead there. -/
theorem loadImports_alike {P : String → Prop} {load : Document → String → Option String → List String → Resolve Loaded}
    (hload : ∀ {file text doc v v'}, P file → document fs file = .ok (text, doc) → SameVisits P v v' →
      Alike (SameLoad P) (load doc text (some file) v) (load doc text (some file) v'))
    {importer : Option String} {imports : List Import}
    (himports : ∀ i ∈ imports, ∀ path, importPath fs importer i.path = .ok path → P (fs.canonical path))
    {v v' : List String} (h : SameVisits P v v') :
    Alike (SameLoad P) (loadImports fs load importer imports v) (loadImports fs load importer imports v') := by
  induction imports generalizing v v' with
  | nil => exact .pure ⟨rfl, h⟩
  | cons i rest ih =>
    rw [List.forall_mem_cons] at himports
    simp only [loadImports]
    refine .ofExcept_bind fun path hpath => ?_
    have hnext := himports.1 path hpath
    rw [List.contains_eq_mem, List.contains_eq_mem, Bool.decide_congr (h _ hnext)]
    split
    · exact ih himports.2 h
    · refine .ofExcept_bind fun text htext => .ofExcept_bind fun doc hparse => ?_
      have hvisited : SameVisits P (v ++ [fs.canonical path]) (v' ++ [fs.canonical path]) := fun f hf => by
        rw [List.mem_append, List.mem_append, h f hf]
      refine .bind (hload hnext (document_eq_ok.mpr ⟨htext, hparse⟩) hvisited) fun a a' ha => ?_
      exact .bind (ih himports.2 ha.2) fun b b' hb => .pure ⟨congrArg₂ _ ha.1 hb.1, hb.2⟩

theorem loadDocument_alike {P : String → Prop} (hP : ∀ {f g}, P f → Imported fs f g → P g) (n : Nat)
    {file text : String} {doc : Document} (hfile : P file) (hdoc : document fs file = .ok (text, doc)) {v v' : List String}
    (h : SameVisits P v v') :
    Alike (SameLoad P) (loadDocument fs n doc text (some file) v) (loadDocument fs n doc text (some file) v') := by
  induction n generalizing file text doc v v' with
  | zero => exact fun r => .error rfl
  | succ n ih =>
    have himports : ∀ i ∈ doc.imports, ∀ path, importPath fs (some file) i.path = .ok path → P (fs.canonical path) :=
      fun i hi path hpath => hP hfile ⟨text, doc, hdoc, i, hi, path, hpath, rfl⟩
    rw [loadDocument, loadDocument]
    refine .bind (loadImports_alike (fun hf hd => ih hf hd) himports h) fun a a' ha => ?_
    exact .after _ fun _ => .after _ fun _ => .pure ⟨congrArg (doc.requests ++ ·) ha.1, ha.2⟩

theorem checkNames_placed (source : Option String) (requests : List Request) :
    checkNames (requests.map (·.placed source)) = checkNames requests := by
  refine checkNames_congr ?_
  rw [List.map_map]
  rfl

theorem Imported.canonical_eq (hrooted : fs.Rooted) {f g : String} (h : Imported fs f g) : fs.canonical g = g := by
  obtain ⟨-, -, -, -, -, path, -, rfl⟩ := h
  exact Files.canonical_canonical hrooted path

/-- No import leads to a file by a path that is not canonical, so a root that is no import is not met. -/
theorem sameVisits_root (hrooted : fs.Rooted) (hp : (fs.locate? p).isSome)
    (honce : Path.normal p = fs.canonical p ∨ ¬Relation.TransGen (Imported fs) (fs.canonical p) (fs.canonical p)) :
    SameVisits (Relation.TransGen (Imported fs) (fs.canonical p)) [Path.normal p] [fs.canonical p] := by
  rcases honce with heq | honce
  · exact fun f _ => by rw [heq]
  · intro f hf
    have hcanonical : fs.canonical f = f := by
      obtain ⟨g, -, himported⟩ := Relation.TransGen.tail'_iff.mp hf
      exact himported.canonical_eq hrooted
    have hroot : f ≠ fs.canonical p := fun h => honce (h ▸ hf)
    have hnormal : f ≠ Path.normal p := fun h => hroot (by rw [← hcanonical, h, Files.canonical_normal hp])
    simp [hroot, hnormal]

theorem parseNamed_ok {text : String} {doc : Document} (h : Document.parse text none = .ok doc) (source : Option String) :
    Document.parseNamed text source = .ok (doc.placed source) := by
  have hplaced := Document.parse_placed text source
  rw [h] at hplaced
  cases hparse : Document.parse text source with
  | error e =>
    rw [hparse] at hplaced
    cases hplaced
  | ok doc' =>
    rw [hparse] at hplaced
    rw [Document.parseNamed, hparse]
    exact congrArg _ (Except.ok.inj hplaced)

theorem parseNamed_error {text : String} {e : SyntaxError} (h : Document.parse text none = .error e)
    (source : Option String) : ∃ f, Document.parseNamed text source = .error f ∧ f.placed none = .syntaxError e := by
  have hplaced := Document.parse_placed text source
  rw [h] at hplaced
  cases hparse : Document.parse text source with
  | error e' =>
    rw [hparse] at hplaced
    refine ⟨.syntaxError e', by rw [Document.parseNamed, hparse]; rfl, ?_⟩
    exact congrArg _ (Except.error.inj hplaced)
  | ok doc' =>
    rw [hparse] at hplaced
    cases hplaced

/-- What is the same of two loads from different files. -/
def SameRequests (requests requests' : List Request) : Prop :=
  requests.map (·.placed none) = requests'.map (·.placed none)

theorem SameRequests.checkNames_eq {requests requests' : List Request} (h : SameRequests requests requests') :
    checkNames requests = checkNames requests' := by
  rw [← checkNames_placed none requests, h, checkNames_placed]

/-- The root is loaded alike from two of its paths, one of them canonical. -/
theorem loadDocument_root (hrooted : fs.Rooted) (htidy : fs.Tidy) {text : String} {doc : Document}
    (hp : fs.fileAt? p = some place) (hdoc : document fs (fs.canonical p) = .ok (text, doc.placed (some (fs.canonical p))))
    (honce : Path.normal p = fs.canonical p ∨ ¬Relation.TransGen (Imported fs) (fs.canonical p) (fs.canonical p))
    (n : Nat) :
    Alike (fun l l' => SameRequests l.1 l'.1)
      (loadDocument fs n (doc.placed (some p)) text (some p) [Path.normal p])
      (loadDocument fs n (doc.placed (some (fs.canonical p))) text (some (fs.canonical p)) [fs.canonical p]) := by
  have hlocated : fs.locate? p = some place := (Option.filter_eq_some_iff.mp hp).1
  have hcanonical : fs.fileAt? (fs.canonical p) = some place := (Files.fileAt?_canonical hrooted p).trans hp
  cases n with
  | zero => exact fun r => .error rfl
  | succ n =>
    rw [loadDocument, loadDocument, loadImports_spelling htidy hp hcanonical]
    have himports : ∀ i ∈ doc.imports, ∀ path, importPath fs (some (fs.canonical p)) i.path = .ok path →
        Relation.TransGen (Imported fs) (fs.canonical p) (fs.canonical path) :=
      fun i hi path hpath => .single ⟨text, _, hdoc, i, hi, path, hpath, rfl⟩
    have hvisits := sameVisits_root hrooted (Option.isSome_of_eq_some hlocated) honce
    refine .bind (loadImports_alike (fun hf hd => loadDocument_alike .tail n hf hd) himports hvisits) fun l l' hl => ?_
    refine .after _ fun _ => .after _ fun _ => .pure ?_
    simp [SameRequests, Document.placed, Request.placed, hl.1]

/-- The text of a file, loaded under a path of the file, gives what the file gives: the same failure, or the same requests
and the same resolver. The path has to be canonical, unless no chain of imports leads from the file back to it. -/
theorem loadContent_agrees (fs : Files) (hrooted : fs.Rooted) (htidy : fs.Tidy) (path text : String)
    (htext : fs.readText .request path = .ok text)
    (honce : Path.normal path = fs.canonical path ∨
      ¬Relation.TransGen (Imported fs) (fs.canonical path) (fs.canonical path)) (r : Resolver) :
    SameOutcome SameRequests (on (loadContent fs text (some path)) r) (on (loadFile fs path) r) := by
  obtain ⟨bytes, hread, hchars⟩ := Files.readText_eq_ok.mp htext
  obtain ⟨place, hplace, hfile⟩ := Option.bind_eq_some_iff.mp hread
  have hat : fs.fileAt? path = some place :=
    Option.filter_eq_some_iff.mpr ⟨hplace, Option.isSome_of_eq_some hfile⟩
  have hroot : fs.readText .imported (fs.canonical path) = .ok text :=
    Files.readText_eq_ok.mpr ⟨bytes, (Files.read?_canonical hrooted path).trans hread, hchars⟩
  rw [loadFile, on_ofExcept_bind htext]
  cases hparse : Document.parse text none with
  | error e =>
    obtain ⟨f, hf, hplaced⟩ := parseNamed_error hparse (some path)
    obtain ⟨f', hf', hplaced'⟩ := parseNamed_error hparse (some (fs.canonical path))
    rw [loadContent, loadContent, hf, hf']
    exact .error (hplaced.trans hplaced'.symm)
  | ok doc =>
    have hdoc := document_eq_ok.mpr ⟨hroot, parseNamed_ok hparse (some (fs.canonical path))⟩
    have hnormal := Files.normal_canonical hrooted (Option.isSome_of_eq_some hread)
    rw [loadContent, loadContent, on_ofExcept_bind (parseNamed_ok hparse _), on_ofExcept_bind (parseNamed_ok hparse _),
      Option.map_some, Option.map_some, hnormal]
    refine (loadDocument_root hrooted htidy hat hdoc honce _).bind (fun l l' hl => ?_) r
    dsimp only
    rw [hl.checkNames_eq]
    exact .after _ fun _ => .pure hl

theorem mem_of_targets {file path : String} {imports : List Import} {files : List String} {i : Import}
    (h : targets fs file imports = .ok files) (hi : i ∈ imports) (hpath : importPath fs (some file) i.path = .ok path) :
    fs.canonical path ∈ files := by
  induction imports generalizing files with
  | nil => exact absurd hi List.not_mem_nil
  | cons first rest ih =>
    obtain ⟨path', files', hpath', hrest, rfl⟩ := targets_cons.mp h
    rcases List.mem_cons.mp hi with rfl | hi
    · rw [Except.ok.inj (hpath.symm.trans hpath')]
      exact List.mem_cons_self
    · exact List.mem_cons_of_mem _ (ih hrest hi)

theorem Imported.mem_of_reads {f g text : String} {doc : Document} {files : List String} (h : Imported fs f g)
    (hreads : Reads fs f text doc files) : g ∈ files := by
  obtain ⟨text', doc', hdocument, i, hi, path, hpath, rfl⟩ := h
  obtain ⟨-, rfl⟩ := Prod.mk.inj (Except.ok.inj (hdocument.symm.trans hreads.document))
  exact mem_of_targets hreads.targets hi hpath

/-- A file in a directory imports one from the directory above. -/
def nested : Files where
  workingDir := ["w"]
  contents :=
    [(["w", "d", "a.http"], Bytes.ofString "import \"../b\" @name(\"a\") GET \"http://a\""),
     (["w", "b.http"], Bytes.ofString "@name(\"b\") GET \"http://b\"")]

theorem loadContent_agrees_nested :
    let text := "import \"../b\" @name(\"a\") GET \"http://a\""
    nested.Rooted ∧ nested.Tidy ∧ nested.readText .request "d//../d/a.http" = .ok text ∧
      Path.normal "d//../d/a.http" = "d/../d/a.http" ∧ nested.canonical "d//../d/a.http" = "/w/d/a.http" ∧
      ¬Relation.TransGen (Imported nested) "/w/d/a.http" "/w/d/a.http" ∧
      ∀ r, SameOutcome SameRequests (on (loadContent nested text (some "d//../d/a.http")) r)
        (on (loadFile nested "d//../d/a.http") r) := by
  intro text
  have hrooted : nested.Rooted := by
    intro p hp
    rw [List.mem_singleton.mp hp]
    exact ⟨by decide, by decide, by decide, by decide +kernel⟩
  have htidy : nested.Tidy := by
    intro e he
    rcases List.mem_cons.mp he with rfl | he
    · decide +kernel
    · rw [List.mem_singleton.mp he]
      decide +kernel
  have htext : nested.readText .request "d//../d/a.http" = .ok text := by decide +kernel
  have hroot : nested.canonical "d//../d/a.http" = "/w/d/a.http" := by decide +kernel
  have honce : ¬Relation.TransGen (Imported nested) "/w/d/a.http" "/w/d/a.http" := by
    obtain ⟨_, _, ha⟩ := exists_reads nested "/w/d/a.http" ["/w/b.http"] (by decide +kernel)
    obtain ⟨_, _, hb⟩ := exists_reads nested "/w/b.http" [] (by decide +kernel)
    intro h
    obtain ⟨f, hf, hback⟩ := Relation.TransGen.head'_iff.mp h
    rw [List.mem_singleton.mp (hf.mem_of_reads ha)] at hback
    rcases Relation.ReflTransGen.cases_head hback with heq | ⟨g, hg, -⟩
    · contradiction
    · exact absurd (hg.mem_of_reads hb) List.not_mem_nil
  exact ⟨hrooted, htidy, htext, by decide +kernel, hroot, honce,
    loadContent_agrees nested hrooted htidy _ text htext (.inr (hroot ▸ honce))⟩

end Loading
end RequestLang
