import RequestLang.Proofs.Loading.Canonical

/-! Spellings of a path. What a path says is found from the directory of the file that it is written
in, whichever way that file is spelled itself. -/
namespace RequestLang

namespace Path
variable {abs : Bool} {parts : List String} {path piece : String}

/-- A piece that leads nowhere else. -/
def IsIdle (piece : String) : Prop := piece = "" ∨ piece = "."
  deriving Decidable

theorem not_isIdle_up : ¬IsIdle ".." := by decide +kernel

theorem isIdle_of_isFiller {i : Nat} (h : isFiller abs i piece = true) : IsIdle piece := by
  simp only [isFiller, Bool.or_eq_true, Bool.and_eq_true, beq_iff_eq, String.isEmpty_iff] at h
  exact h.imp_right And.left

theorem trimTail_concat : trimTail abs (parts ++ [piece]) =
    if isFiller abs parts.length piece then trimTail abs parts else parts ++ [piece] := by
  have hrev : (parts ++ [piece]).zipIdx.reverse = (piece, parts.length) :: parts.zipIdx.reverse := by
    rw [List.zipIdx_append]
    simp
  rw [trimTail, hrev, List.dropWhile_cons]
  dsimp only
  split
  · rfl
  · rw [← hrev, List.reverse_reverse, List.zipIdx_map_fst]

/-- Only idle pieces are trimmed, and no empty piece is left at the end. -/
theorem trimTail_split (abs : Bool) (parts : List String) : ∃ idle, parts = trimTail abs parts ++ idle ∧
    (∀ piece ∈ idle, IsIdle piece) ∧ (trimTail abs parts).getLast? ≠ some "" := by
  induction parts using List.reverseRecOn with
  | nil => exact ⟨[], rfl, fun _ h => absurd h List.not_mem_nil, fun h => nomatch h⟩
  | append_singleton parts piece ih =>
    rw [trimTail_concat]
    split
    · rename_i hfill
      obtain ⟨idle, hparts, hidle, hlast⟩ := ih
      refine ⟨idle ++ [piece], ?_, ?_, hlast⟩
      · rw [← List.append_assoc, ← hparts]
      · rintro q hq
        rcases List.mem_append.mp hq with hq | hq
        · exact hidle q hq
        · exact List.mem_singleton.mp hq ▸ isIdle_of_isFiller hfill
    · rename_i hfill
      refine ⟨[], (List.append_nil _).symm, fun _ h => absurd h List.not_mem_nil, fun hlast => hfill ?_⟩
      rw [List.getLast?_concat, Option.some.injEq] at hlast
      rw [hlast]
      rfl

/-- Pieces that are read back from the path that they make up. -/
structure Spell (abs : Bool) (parts : List String) : Prop where
  free : ∀ p ∈ parts, '/' ∉ p.toList
  head : abs = false → parts.head? ≠ some ""

theorem pieces_ne_nil (path : String) : pieces path ≠ [] := by
  cases hpath : path.toList with
  | nil => simp [pieces, isAbsolute, hpath]
  | cons c cs =>
    rw [pieces, isAbsolute, hpath, List.splitOn_cons_eq_if_modifyHead]
    by_cases hc : c = '/' <;> simp [hc]

theorem spell_pieces (hne : path ≠ "") : Spell (isAbsolute path) (pieces path) := by
  refine ⟨fun p hp => Files.not_mem_of_mem_pieces hp, fun hrel => ?_⟩
  cases hpath : path.toList with
  | nil => exact absurd (String.toList_eq_nil_iff.mp hpath) hne
  | cons c cs =>
    have hc : (c == '/') = false := by simpa [isAbsolute, hpath] using hrel
    rw [pieces, hrel, hpath, List.splitOn_cons_eq_if_modifyHead, hc]
    cases hsplit : cs.splitOn '/' with
    | nil => exact absurd hsplit (List.splitOn_ne_nil _ _)
    | cons first rest => simp

theorem Spell.append_left {more : List String} (h : Spell abs (parts ++ more)) : Spell abs parts := by
  refine ⟨fun p hp => h.free p (List.mem_append_left _ hp), fun hrel hhead => h.head hrel ?_⟩
  rw [List.head?_append, hhead, Option.some_or]

theorem toList_ofPieces (abs : Bool) (parts : List String) : (ofPieces abs parts).toList =
    (if abs then ['/'] else []) ++ ['/'].intercalate (parts.map String.toList) := by
  rw [ofPieces, String.toList_append, String.toList_intercalate]
  cases abs <;> rfl

theorem isAbsolute_append (hne : path ≠ "") (rest : String) : isAbsolute (path ++ rest) = isAbsolute path := by
  cases hpath : path.toList with
  | nil => exact absurd (String.toList_eq_nil_iff.mp hpath) hne
  | cons c cs => simp [isAbsolute, hpath]

namespace Spell

theorem isAbsolute_ofPieces (h : Spell abs parts) : isAbsolute (ofPieces abs parts) = abs := by
  rw [isAbsolute, toList_ofPieces]
  cases abs with
  | true => rfl
  | false =>
    cases parts with
    | nil => rfl
    | cons p ps =>
      cases hp : p.toList with
      | nil => exact absurd (congrArg some (String.toList_eq_nil_iff.mp hp)) (h.head rfl)
      | cons c cs =>
        have hc : '/' ≠ c := fun heq => h.free p List.mem_cons_self (hp ▸ heq ▸ List.mem_cons_self)
        cases ps <;> simp [List.intercalate, hp, hc.symm]

/-- Splitting at slashes undoes the joining, with an empty piece before the slash that comes first. -/
theorem splitOn_ofPieces (h : Spell abs parts) (hne : parts ≠ []) :
    (ofPieces abs parts).toList.splitOn '/' = (if abs then [[]] else []) ++ parts.map String.toList := by
  have hfree : ∀ cs ∈ (if abs then [[]] else []) ++ parts.map String.toList, '/' ∉ cs := by
    intro cs hcs
    rcases List.mem_append.mp hcs with hcs | hcs
    · cases abs with
      | true => exact List.mem_singleton.mp hcs ▸ List.not_mem_nil
      | false => exact absurd hcs List.not_mem_nil
    · obtain ⟨p, hp, rfl⟩ := List.mem_map.mp hcs
      exact h.free p hp
  have hmap : parts.map String.toList ≠ [] := by simpa using hne
  rw [← List.splitOn_intercalate '/' hfree (List.append_ne_nil_of_right_ne_nil _ hmap), toList_ofPieces]
  cases abs with
  | true =>
    have hcons : ['/'].intercalate ([] :: parts.map String.toList) = '/' :: ['/'].intercalate (parts.map String.toList) :=
      List.intercalate_cons_of_ne_nil hmap
    exact congrArg (List.splitOn '/') hcons.symm
  | false => rfl

theorem pieces_ofPieces (h : Spell abs parts) (hne : parts ≠ []) : pieces (ofPieces abs parts) = parts := by
  rw [pieces, h.isAbsolute_ofPieces, h.splitOn_ofPieces hne]
  cases abs <;> simp [Function.comp_def]

theorem ofPieces_ne_empty (h : Spell abs parts) (hne : parts ≠ []) : ofPieces abs parts ≠ "" := by
  intro hempty
  have hpieces := h.pieces_ofPieces hne
  rw [hempty] at hpieces
  have habs := h.isAbsolute_ofPieces
  rw [hempty] at habs
  exact h.head habs.symm (hpieces ▸ rfl)

theorem endsWith_ofPieces (h : Spell abs parts) (hne : parts ≠ []) (hlast : parts.getLast? ≠ some "") :
    (ofPieces abs parts).endsWith "/" = false := by
  by_contra hends
  rw [Bool.not_eq_false, String.endsWith, String.Slice.endsWith_string_iff, String.copy_toSlice] at hends
  obtain ⟨front, hfront⟩ := hends
  have hsplit := h.splitOn_ofPieces hne
  have hslash : "/".toList = '/' :: [] := rfl
  rw [← hfront, hslash, List.splitOn_append_cons_self] at hsplit
  have hback := congrArg List.getLast? hsplit
  rw [List.splitOn_nil, List.getLast?_concat, List.getLast?_append_of_ne_nil _ (by simpa using hne), List.getLast?_map] at hback
  obtain ⟨p, hp, hempty⟩ := Option.map_eq_some_iff.mp hback.symm
  exact hlast (hp.trans (congrArg some (String.toList_eq_nil_iff.mp hempty)))

/-- Whichever way a path is joined to a directory, its pieces come after those of the directory. -/
theorem pieces_join (h : Spell abs parts) (hlast : parts.getLast? ≠ some "") (hrel : isAbsolute path = false) :
    isAbsolute (join (ofPieces abs parts) path) = abs ∧
      pieces (join (ofPieces abs parts) path) = parts ++ pieces path := by
  have hpath : pieces path = (path.toList.splitOn '/').map String.ofList := by rw [pieces, hrel]; rfl
  have hslash : "/".toList = '/' :: [] := rfl
  by_cases hne : parts = []
  · subst hne
    cases abs with
    | false =>
      have hjoin : join (ofPieces false []) path = path := by simp [join, ofPieces]
      rw [hjoin, List.nil_append]
      exact ⟨hrel, rfl⟩
    | true =>
      have hends : String.endsWith "/" "/" = true := by decide +kernel
      have hjoin : join (ofPieces true []) path = "/" ++ path := by simp [join, ofPieces, hrel, hends]
      have habs : isAbsolute ("/" ++ path) = true := isAbsolute_append (by decide) path
      rw [hjoin, habs, pieces, habs, String.toList_append, hslash, List.cons_append, List.nil_append,
        ← List.nil_append ('/' :: path.toList), List.splitOn_append_cons_self, List.splitOn_nil, hpath]
      exact ⟨rfl, rfl⟩
  · have hjoin : join (ofPieces abs parts) path = ofPieces abs parts ++ ("/" ++ path) := by
      simp [join, hrel, h.ofPieces_ne_empty hne, h.endsWith_ofPieces hne hlast, String.append_assoc]
    have habs := (isAbsolute_append (h.ofPieces_ne_empty hne) ("/" ++ path)).trans h.isAbsolute_ofPieces
    rw [hjoin, habs, pieces, habs, String.toList_append, String.toList_append, hslash, List.cons_append,
      List.nil_append, List.splitOn_append_cons_self, h.splitOn_ofPieces hne, hpath]
    refine ⟨rfl, ?_⟩
    cases abs <;> simp [Function.comp_def]

end Spell

/-- A relative path keeps its first piece. -/
theorem exists_components_cons (hrel : isAbsolute path = false) (hne : path ≠ "") :
    ∃ first rest, components path = first :: rest ∧ first ≠ "" := by
  have hhead := (spell_pieces hne).head hrel
  cases hpieces : pieces path with
  | nil => exact absurd hpieces (pieces_ne_nil path)
  | cons first rest =>
    rw [hpieces, List.head?_cons, ne_eq, Option.some.injEq] at hhead
    have hkeep : isFiller false 0 first = false := by simp [isFiller, hhead]
    rw [components, hpieces, hrel, List.zipIdx_cons, List.filter_cons_of_pos (by simp [hkeep]), List.map_cons]
    exact ⟨first, _, rfl, hhead⟩

theorem spell_components (hne : path ≠ "") : Spell (isAbsolute path) (components path) := by
  refine ⟨fun p hp => ?_, fun hrel => ?_⟩
  · obtain ⟨e, he, rfl⟩ := List.mem_map.mp hp
    exact (spell_pieces hne).free e.1 (List.fst_mem_of_mem_zipIdx (List.mem_of_mem_filter he))
  · obtain ⟨first, rest, hcomponents, hfirst⟩ := exists_components_cons hrel hne
    rw [hcomponents]
    simpa using hfirst

end Path

namespace Files
variable {fs : Files} {here ps place : List String} {path : String}

theorem follow_append (here ps qs : List String) :
    fs.follow here (ps ++ qs) = (fs.follow here ps).bind (fs.follow · qs) := by
  induction ps generalizing here with
  | nil => rw [List.nil_append, follow, Option.bind_some]
  | cons p ps ih =>
    rw [List.cons_append, follow, follow]
    split
    · rfl
    split
    · exact ih here
    split
    · exact ih _
    · exact ih _

/-- One piece is followed from a directory, and it stays there, goes up or goes down. -/
theorem follow_cons_eq_some {p : String} : fs.follow here (p :: ps) = some place ↔ fs.isDir here = true ∧
    ((Path.IsIdle p ∧ fs.follow here ps = some place) ∨ (p = ".." ∧ fs.follow here.dropLast ps = some place) ∨
      (¬Path.IsIdle p ∧ p ≠ ".." ∧ fs.follow (here ++ [p]) ps = some place)) := by
  have hidle : (p == "" || p == ".") = true ↔ Path.IsIdle p := by simp [Path.IsIdle]
  have hup (h : Path.IsIdle p) : p ≠ ".." := fun hp => Path.not_isIdle_up (hp ▸ h)
  rw [follow]
  cases hhere : fs.isDir here with
  | false => simp
  | true =>
    simp only [Bool.not_true, Bool.false_eq_true, if_false, hidle, beq_iff_eq, true_and]
    split_ifs with hp hpp
    · simp [hp, hup hp]
    · subst hpp
      simp [hp]
    · simp [hp, hpp]

/-- Idle pieces may be left out. -/
theorem follow_filter {keep : String × Nat → Bool} (hkeep : ∀ e, keep e = false → Path.IsIdle e.1) {k : Nat}
    (h : fs.follow here ps = some place) :
    fs.follow here (((ps.zipIdx k).filter keep).map Prod.fst) = some place := by
  induction ps generalizing here k with
  | nil => exact h
  | cons p ps ih =>
    obtain ⟨hhere, hstep⟩ := follow_cons_eq_some.mp h
    rw [List.zipIdx_cons, List.filter_cons]
    split
    · rw [List.map_cons, follow_cons_eq_some]
      exact ⟨hhere, hstep.imp (And.imp_right ih) (Or.imp (And.imp_right ih) (And.imp_right (And.imp_right ih)))⟩
    · rename_i hdrop
      have hidle := hkeep (p, k) (Bool.eq_false_of_not_eq_true hdrop)
      rcases hstep with ⟨-, hrest⟩ | ⟨rfl, -⟩ | ⟨hnot, -⟩
      · exact ih hrest
      · exact absurd hidle Path.not_isIdle_up
      · exact absurd hidle hnot

theorem follow_idle (h : fs.follow here ps = some place) (hidle : ∀ p ∈ ps, Path.IsIdle p) : place = here := by
  induction ps generalizing here with
  | nil => exact (Option.some.inj h).symm
  | cons p ps ih =>
    rw [List.forall_mem_cons] at hidle
    obtain ⟨-, ⟨-, hrest⟩ | ⟨rfl, -⟩ | ⟨hnot, -⟩⟩ := follow_cons_eq_some.mp h
    · exact ih hrest hidle.2
    · exact absurd hidle.1 Path.not_isIdle_up
    · exact absurd hidle.1 hnot

/-- Where a path is followed from. -/
def start (fs : Files) (path : String) : List String := if Path.isAbsolute path then [] else fs.workingDir

theorem isDir_start (fs : Files) (path : String) : fs.isDir (fs.start path) = true := by
  rw [start]
  split <;> simp [isDir]

theorem locate?_eq_some : fs.locate? path = some place ↔ path ≠ "" ∧
    fs.follow (fs.start path) (Path.pieces path) = some place ∧
      (fs.isDir place = true ∨ (fs.contentOf? place).isSome) := by
  rw [locate?, ← start]
  by_cases hempty : path = ""
  · simp [hempty]
  · have hisEmpty : path.isEmpty = false := by simpa using hempty
    simp only [hisEmpty, Bool.false_eq_true, if_false, ne_eq, hempty, not_false_eq_true, true_and]
    cases fs.follow (fs.start path) (Path.pieces path) with
    | none => simp
    | some found =>
      rw [Option.bind_eq_bind, Option.bind_some, Option.ite_none_right_eq_some, Bool.or_eq_true, Option.some.injEq]
      constructor
      · rintro ⟨hthere, rfl⟩
        exact ⟨rfl, hthere⟩
      · rintro ⟨rfl, hthere⟩
        exact ⟨hthere, rfl⟩

/-- No file is a directory as well. -/
def Tidy (fs : Files) : Prop := ∀ e ∈ fs.contents, fs.isDir e.1 = false

theorem Tidy.isDir_eq_false (hfs : fs.Tidy) (h : (fs.contentOf? place).isSome) : fs.isDir place = false := by
  rw [contentOf?, Option.isSome_map, List.find?_isSome] at h
  obtain ⟨e, he, heq⟩ := h
  exact beq_iff_eq.mp heq ▸ hfs e he

/-- The place of the file that a path leads to. -/
def fileAt? (fs : Files) (path : String) : Option (List String) :=
  (fs.locate? path).filter fun place => (fs.contentOf? place).isSome

theorem isFile_eq (path : String) : fs.isFile path = (fs.fileAt? path).isSome := by
  rw [isFile, read?, fileAt?]
  cases fs.locate? path with
  | none => rfl
  | some place => cases h : fs.contentOf? place <;> simp [h]

theorem canonical_of_fileAt? (h : fs.fileAt? path = some place) : fs.canonical path = absolute place := by
  rw [fileAt?, Option.filter_eq_some_iff] at h
  rw [canonical, canonical?, h.1, Option.map_some, Option.getD_some]

/-- The working directory and the root are directories, so a file is not found without a piece. -/
theorem Tidy.fileAt?_eq_some (hfs : fs.Tidy) : fs.fileAt? path = some place ↔
    fs.follow (fs.start path) (Path.pieces path) = some place ∧ (fs.contentOf? place).isSome := by
  rw [fileAt?, Option.filter_eq_some_iff, locate?_eq_some]
  constructor
  · rintro ⟨⟨-, hfollow, -⟩, hfile⟩
    exact ⟨hfollow, hfile⟩
  · rintro ⟨hfollow, hfile⟩
    refine ⟨⟨?_, hfollow, .inr hfile⟩, hfile⟩
    rintro rfl
    have hplace : place = fs.start "" := follow_idle hfollow (by decide +kernel)
    have hdir := isDir_start fs ""
    rw [← hplace, hfs.isDir_eq_false hfile] at hdir
    contradiction

/-- A file is named by the last piece of its path, and those before it lead to its directory. -/
theorem Tidy.exists_name (hfs : fs.Tidy) (h : fs.follow here ps = some place) (hhere : fs.isDir here = true)
    (hfile : (fs.contentOf? place).isSome) : ∃ parents name, ps = parents ++ [name] ∧ ¬Path.IsIdle name ∧
      fs.follow here parents = some place.dropLast := by
  have hplace := hfs.isDir_eq_false hfile
  rcases List.eq_nil_or_concat' ps with rfl | ⟨parents, name, rfl⟩
  · rw [follow, Option.some.injEq] at h
    rw [h, hplace] at hhere
    contradiction
  rw [follow_append] at h
  obtain ⟨dir, hdir, hname⟩ := Option.bind_eq_some_iff.mp h
  obtain ⟨hisDir, ⟨-, hstay⟩ | ⟨-, hup⟩ | ⟨hnot, -, hdown⟩⟩ := follow_cons_eq_some.mp hname
  · rw [← Option.some.inj hstay, hisDir] at hplace
    contradiction
  · rw [← Option.some.inj hup, isDir_of_isPrefix hisDir (List.dropLast_prefix dir)] at hplace
    contradiction
  · refine ⟨parents, name, rfl, hnot, ?_⟩
    rw [hdir, ← Option.some.inj hdown, List.dropLast_concat]

/-- A path that a file says is followed from the directory of that file. -/
theorem Tidy.fileAt?_relativeTo (hfs : fs.Tidy) {p : String} (hp : fs.fileAt? p = some place)
    (hrel : Path.isAbsolute path = false) {found : List String} :
    fs.fileAt? (Path.relativeTo (some p) path) = some found ↔
      fs.follow place.dropLast (Path.pieces path) = some found ∧ (fs.contentOf? found).isSome := by
  have hempty : p ≠ "" := by
    rw [fileAt?, Option.filter_eq_some_iff, locate?_eq_some] at hp
    exact hp.1.1
  obtain ⟨hfollow, hfile⟩ := hfs.fileAt?_eq_some.mp hp
  obtain ⟨parents, name, hpieces, hname, hparents⟩ := hfs.exists_name hfollow (isDir_start fs p) hfile
  -- The directory as text is made up of the parents without the idle pieces at their end.
  obtain ⟨idle, hsplit, hidle, hlast⟩ := Path.trimTail_split (Path.isAbsolute p) parents
  have hspell : Path.Spell (Path.isAbsolute p) (Path.trimTail (Path.isAbsolute p) parents) :=
    (hsplit ▸ (hpieces ▸ Path.spell_pieces hempty).append_left).append_left
  have hparent : Path.parent? p = some (Path.ofPieces (Path.isAbsolute p)
      (Path.trimTail (Path.isAbsolute p) parents)) := by
    have hfill : Path.isFiller (Path.isAbsolute p) parents.length name = false :=
      Bool.eq_false_of_not_eq_true fun h => hname (Path.isIdle_of_isFiller h)
    rw [Path.parent?, hpieces, Path.trimTail_concat, hfill]
    simp
  have hdir : fs.follow (fs.start p) (Path.trimTail (Path.isAbsolute p) parents) = some place.dropLast := by
    rw [hsplit, follow_append] at hparents
    obtain ⟨dir, hdir, hstay⟩ := Option.bind_eq_some_iff.mp hparents
    rw [hdir, follow_idle hstay hidle]
  obtain ⟨habs, hjoin⟩ := hspell.pieces_join hlast hrel
  have hrelative : Path.relativeTo (some p) path =
      Path.join (Path.ofPieces (Path.isAbsolute p) (Path.trimTail (Path.isAbsolute p) parents)) path := by
    simp [Path.relativeTo, hrel, hparent]
  rw [hrelative, hfs.fileAt?_eq_some, start, habs, ← start, hjoin, follow_append, hdir, Option.bind_some]

/-- It makes no difference how a file is spelled to what it says. -/
theorem Tidy.fileAt?_relativeTo_congr (hfs : fs.Tidy) {p q : String} (hp : fs.fileAt? p = some place)
    (hq : fs.fileAt? q = some place) (path : String) :
    fs.fileAt? (Path.relativeTo (some p) path) = fs.fileAt? (Path.relativeTo (some q) path) := by
  cases habs : Path.isAbsolute path with
  | true => rw [Path.relativeTo, Path.relativeTo, habs]; rfl
  | false =>
    refine Option.ext fun found => ?_
    rw [hfs.fileAt?_relativeTo hp habs, hfs.fileAt?_relativeTo hq habs]

theorem locate?_normal (h : fs.locate? path = some place) : fs.locate? (Path.normal path) = some place := by
  obtain ⟨hempty, hfollow, hthere⟩ := locate?_eq_some.mp h
  have hspell := Path.spell_components hempty
  have hnamed : fs.follow (fs.start path) (Path.components path) = some place := by
    refine follow_filter (fun e he => Path.isIdle_of_isFiller (?_ : Path.isFiller (Path.isAbsolute path) e.2 e.1 = true)) hfollow
    simpa using he
  rw [Path.normal]
  by_cases hcomponents : Path.components path = []
  · cases habs : Path.isAbsolute path with
    | true =>
      have hroot : fs.start "/" = [] := if_pos (by decide +kernel)
      have hpieces : Path.pieces "/" = [""] := by decide +kernel
      rw [hcomponents, start, habs] at hnamed
      rw [hcomponents]
      refine locate?_eq_some.mpr ⟨by decide, ?_, hthere⟩
      change fs.follow (fs.start "/") (Path.pieces "/") = some place
      rw [hroot, hpieces, follow_cons_eq_some]
      exact ⟨by simp [isDir], .inl ⟨.inl rfl, hnamed⟩⟩
    | false =>
      obtain ⟨first, rest, hcons, -⟩ := Path.exists_components_cons habs hempty
      rw [hcons] at hcomponents
      contradiction
  · refine locate?_eq_some.mpr ⟨hspell.ofPieces_ne_empty hcomponents, ?_, hthere⟩
    rw [start, hspell.isAbsolute_ofPieces, ← start, hspell.pieces_ofPieces hcomponents, hnamed]

theorem canonical_normal (h : (fs.locate? path).isSome) : fs.canonical (Path.normal path) = fs.canonical path := by
  obtain ⟨place, hplace⟩ := Option.isSome_iff_exists.mp h
  rw [canonical, canonical?, locate?_normal hplace, canonical, canonical?, hplace]
  rfl

theorem fileAt?_canonical (hfs : fs.Rooted) (path : String) : fs.fileAt? (fs.canonical path) = fs.fileAt? path := by
  rw [fileAt?, locate?_canonical hfs, ← fileAt?]

theorem canonical_canonical (hfs : fs.Rooted) (path : String) : fs.canonical (fs.canonical path) = fs.canonical path := by
  rw [canonical, canonical?, locate?_canonical hfs]
  cases h : fs.locate? path with
  | none => rw [Option.map_none, Option.getD_none]
  | some place => rw [canonical, canonical?, h, Option.map_some, Option.getD_some, Option.getD_some]

end Files
end RequestLang

/-! What is written to a path is read from it again, and the path leads where it led before. -/
namespace RequestLang.Files
variable {fs fs' : Files} {path : String} {place : List String} {content : Bytes}

/-- A path leads to a place for a file: the directory is there, and no directory is in the way. -/
def Offers (fs : Files) (path : String) (place : List String) : Prop :=
  path ≠ "" ∧ fs.follow (fs.start path) (Path.pieces path) = some place ∧ fs.isDir place = false ∧
    fs.isDir place.dropLast = true

/-- Something can be written to a path. -/
def IsWritable (fs : Files) (path : String) : Prop := ∃ place, fs.Offers path place

def withFile (fs : Files) (place : List String) (content : Bytes) : Files :=
  { fs with contents := put place content fs.contents }

theorem write?_eq_some :
    fs.write? path content = some fs' ↔ ∃ place, fs.Offers path place ∧ fs' = fs.withFile place content := by
  rw [write?, ← start]
  by_cases hempty : path = ""
  · simp [hempty, Offers]
  · have hisEmpty : path.isEmpty = false := by simpa using hempty
    simp only [hisEmpty, Bool.false_eq_true, if_false, Offers, ne_eq, hempty, not_false_eq_true, true_and]
    cases fs.follow (fs.start path) (Path.pieces path) with
    | none => simp
    | some found =>
      rw [Option.bind_eq_bind, Option.bind_some, Option.ite_none_left_eq_some, Option.some.injEq]
      simp only [Bool.or_eq_true, Bool.not_eq_true', not_or, Bool.not_eq_true, Bool.not_eq_false]
      constructor
      · rintro ⟨hdir, rfl⟩
        exact ⟨found, ⟨rfl, hdir⟩, rfl⟩
      · rintro ⟨place, ⟨hfound, hdir⟩, rfl⟩
        obtain rfl := Option.some.inj hfound
        exact ⟨hdir, rfl⟩

theorem contentOf?_withFile (fs : Files) (place : List String) (content : Bytes) :
    (fs.withFile place content).contentOf? place = some content := by
  have hput (contents : List (List String × Bytes)) :
      ((put place content contents).find? (·.1 == place)).map Prod.snd = some content := by
    induction contents with
    | nil => simp [put]
    | cons e rest ih =>
      rw [put]
      split
      · rename_i hplace
        simp [hplace]
      · rename_i hplace
        simpa [hplace] using ih
  exact hput fs.contents

/-- A file in a directory that is there makes no other directory. -/
theorem isDir_withFile (h : fs.isDir place.dropLast = true) (content : Bytes) (there : List String) :
    (fs.withFile place content).isDir there = fs.isDir there := by
  have hput (contents : List (List String × Bytes)) :
      (put place content contents).any (fun e => there.isPrefixOf e.1.dropLast) =
        (contents.any (fun e => there.isPrefixOf e.1.dropLast) || there.isPrefixOf place.dropLast) := by
    induction contents with
    | nil => simp [put]
    | cons e rest ih =>
      rw [put]
      split
      · rename_i hplace
        rw [List.any_cons, List.any_cons, hplace, Bool.or_assoc, Bool.or_comm (rest.any _), ← Bool.or_assoc, Bool.or_self]
      · rw [List.any_cons, List.any_cons, ih, Bool.or_assoc]
  have hway : there.isPrefixOf place.dropLast = true → fs.isDir there = true := fun hprefix =>
    isDir_of_isPrefix h (List.isPrefixOf_iff_prefix.mp hprefix)
  unfold isDir at hway ⊢
  rw [withFile]
  dsimp only
  rw [hput, ← Bool.or_assoc]
  cases hp : there.isPrefixOf place.dropLast with
  | false => rw [Bool.or_false]
  | true => rw [Bool.or_true, hway hp]

/-- Where a path leads is a matter of the directories. -/
theorem follow_congr (h : ∀ there, fs'.isDir there = fs.isDir there) (here ps : List String) :
    fs'.follow here ps = fs.follow here ps := by
  induction ps generalizing here with
  | nil => rfl
  | cons p ps ih => simp only [follow, h, ih]

theorem offers_withFile (h : fs.isDir place.dropLast = true) (content : Bytes) (path : String) (there : List String) :
    (fs.withFile place content).Offers path there ↔ fs.Offers path there := by
  have hdir := isDir_withFile h content
  unfold Offers
  rw [follow_congr hdir, hdir, hdir]
  rfl

theorem isWritable_iff : fs.IsWritable path ↔ (fs.write? path content).isSome := by
  rw [Option.isSome_iff_exists]
  constructor
  · rintro ⟨place, h⟩
    exact ⟨_, write?_eq_some.mpr ⟨place, h, rfl⟩⟩
  · rintro ⟨fs', h⟩
    obtain ⟨place, hplace, -⟩ := write?_eq_some.mp h
    exact ⟨place, hplace⟩

theorem isWritable_write (h : fs.write? path content = some fs') (other : String) :
    fs'.IsWritable other ↔ fs.IsWritable other := by
  obtain ⟨place, hplace, rfl⟩ := write?_eq_some.mp h
  exact exists_congr fun there => offers_withFile hplace.2.2.2 content other there

theorem read?_write (h : fs.write? path content = some fs') : fs'.read? path = some content := by
  obtain ⟨place, hplace, rfl⟩ := write?_eq_some.mp h
  have hthere := (offers_withFile hplace.2.2.2 content path place).mpr hplace
  have hcontent := contentOf?_withFile fs place content
  have hlocate : (fs.withFile place content).locate? path = some place :=
    locate?_eq_some.mpr ⟨hthere.1, hthere.2.1, .inr (by rw [hcontent]; rfl)⟩
  rw [read?, hlocate, Option.bind_some, hcontent]

end RequestLang.Files
