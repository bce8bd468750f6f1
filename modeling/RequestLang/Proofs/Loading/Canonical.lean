import Mathlib
import RequestLang.Files

/-! Canonical paths. The path that stands for every spelling of a place leads to the same place. -/
namespace RequestLang

/-- A piece of a path that names something by itself. -/
def Path.IsName (piece : String) : Prop :=
  piece ≠ "" ∧ piece ≠ "." ∧ piece ≠ ".." ∧ '/' ∉ piece.toList

namespace Files

theorem toList_absolute (place : List String) :
    (absolute place).toList = '/' :: ['/'].intercalate (place.map String.toList) := by
  rw [absolute, String.toList_append, String.toList_intercalate]
  rfl

theorem isAbsolute_absolute (place : List String) : Path.isAbsolute (absolute place) = true := by
  rw [Path.isAbsolute, toList_absolute]
  rfl

theorem pieces_absolute {place : List String} (hne : place ≠ []) (h : ∀ p ∈ place, '/' ∉ p.toList) :
    Path.pieces (absolute place) = place := by
  have hcons : ('/' :: ['/'].intercalate (place.map String.toList)).splitOn '/' =
      [] :: place.map String.toList := by
    have hfree : ∀ cs ∈ [] :: place.map String.toList, '/' ∉ cs := by simpa using h
    have hsplit := List.splitOn_intercalate '/' hfree (List.cons_ne_nil _ _)
    rwa [List.intercalate_cons_of_ne_nil (by simpa using hne), List.nil_append] at hsplit
  rw [Path.pieces, isAbsolute_absolute, toList_absolute, hcons]
  simp

theorem pieces_absolute_nil : Path.pieces (absolute []) = [""] := by decide +kernel

theorem normal_absolute {place : List String} (h : ∀ p ∈ place, Path.IsName p) :
    Path.normal (absolute place) = absolute place := by
  by_cases hne : place = []
  · subst hne
    decide +kernel
  · have hpieces := pieces_absolute hne fun p hp => (h p hp).2.2.2
    have hall : place.zipIdx.filter (fun e => !Path.isFiller true e.2 e.1) = place.zipIdx := by
      refine List.filter_eq_self.mpr fun e he => ?_
      obtain ⟨hempty, hdot, -⟩ := h e.1 (List.fst_mem_of_mem_zipIdx he)
      simp [Path.isFiller, hempty, hdot]
    rw [Path.normal, Path.components, isAbsolute_absolute, hpieces, hall, List.zipIdx_map_fst]
    rfl

/-- The working directory has a path of names. -/
def Rooted (fs : Files) : Prop := ∀ p ∈ fs.workingDir, Path.IsName p

variable {fs : Files}

theorem not_mem_of_mem_splitOn {mark : Char} {cs piece : List Char} (h : piece ∈ cs.splitOn mark) : mark ∉ piece := by
  induction cs generalizing piece with
  | nil =>
    rw [List.splitOn_nil, List.mem_singleton] at h
    exact h ▸ List.not_mem_nil
  | cons c cs ih =>
    rw [List.splitOn_cons_eq_if_modifyHead] at h
    split at h
    · rcases List.mem_cons.mp h with rfl | h
      · exact List.not_mem_nil
      · exact ih h
    · rename_i hc
      cases hsplit : cs.splitOn mark with
      | nil => exact absurd hsplit (List.splitOn_ne_nil _ _)
      | cons first rest =>
        rw [hsplit, List.modifyHead_cons] at h
        rcases List.mem_cons.mp h with rfl | h
        · have hfirst := ih (hsplit ▸ List.mem_cons_self)
          exact fun hmem => (List.mem_cons.mp hmem).elim (fun heq => hc (beq_iff_eq.mpr heq.symm)) hfirst
        · exact ih (hsplit ▸ List.mem_cons_of_mem _ h)

theorem not_mem_of_mem_pieces {path p : String} (hp : p ∈ Path.pieces path) : '/' ∉ p.toList := by
  have hmem : p ∈ (path.toList.splitOn '/').map String.ofList := by
    rw [Path.pieces] at hp
    split at hp
    · exact List.mem_of_mem_drop hp
    · exact hp
  obtain ⟨cs, hcs, rfl⟩ := List.mem_map.mp hmem
  rw [String.toList_ofList]
  exact not_mem_of_mem_splitOn hcs

/-- A place that is come to has a path of names. -/
theorem names_of_follow {here ps place : List String} (h : fs.follow here ps = some place)
    (hhere : ∀ p ∈ here, Path.IsName p) (hps : ∀ p ∈ ps, '/' ∉ p.toList) : ∀ p ∈ place, Path.IsName p := by
  induction ps generalizing here with
  | nil =>
    rw [follow, Option.some.injEq] at h
    exact h ▸ hhere
  | cons p ps ih =>
    have hrest : ∀ p ∈ ps, '/' ∉ p.toList := fun p hp => hps p (List.mem_cons_of_mem _ hp)
    rw [follow] at h
    split at h
    · contradiction
    split at h
    · exact ih h hhere hrest
    rename_i hfill
    split at h
    · exact ih h (fun p hp => hhere p (List.mem_of_mem_dropLast hp)) hrest
    · rename_i hup
      refine ih h (fun q hq => ?_) hrest
      rcases List.mem_append.mp hq with hq | hq
      · exact hhere q hq
      · rw [List.mem_singleton.mp hq]
        simp only [Bool.or_eq_true, beq_iff_eq, not_or] at hfill hup
        exact ⟨hfill.1, hfill.2, hup, hps p List.mem_cons_self⟩

theorem names_of_locate? (hfs : fs.Rooted) {path : String} {place : List String}
    (h : fs.locate? path = some place) : ∀ p ∈ place, Path.IsName p := by
  simp only [locate?] at h
  split at h
  · contradiction
  obtain ⟨found, hfollow, hfound⟩ := Option.bind_eq_some_iff.mp h
  split at hfound
  · rw [Option.some.injEq] at hfound
    subst hfound
    refine names_of_follow hfollow ?_ fun p hp => not_mem_of_mem_pieces hp
    split
    · exact fun p hp => absurd hp List.not_mem_nil
    · exact hfs
  · contradiction

theorem isDir_of_isPrefix {path place : List String} (h : fs.isDir place = true) (hpath : path <+: place) :
    fs.isDir path = true := by
  simp only [isDir, Bool.or_eq_true, List.isPrefixOf_iff_prefix, List.any_eq_true] at h ⊢
  rcases h with h | ⟨e, he, h⟩
  · exact .inl (hpath.trans h)
  · exact .inr ⟨e, he, hpath.trans h⟩

/-- Whatever is on the way to a place is a directory. -/
theorem isDir_dropLast {place : List String} (h : fs.isDir place = true ∨ (fs.contentOf? place).isSome) :
    fs.isDir place.dropLast = true := by
  rcases h with h | h
  · exact isDir_of_isPrefix h (List.dropLast_prefix place)
  · rw [contentOf?, Option.isSome_map, List.find?_isSome] at h
    obtain ⟨e, he, heq⟩ := h
    rw [beq_iff_eq] at heq
    simp only [isDir, Bool.or_eq_true, List.isPrefixOf_iff_prefix, List.any_eq_true]
    exact .inr ⟨e, he, heq ▸ List.prefix_rfl⟩

theorem follow_names {here ps : List String} (hps : ∀ p ∈ ps, Path.IsName p)
    (hdir : fs.isDir (here ++ ps).dropLast = true) : fs.follow here ps = some (here ++ ps) := by
  induction ps generalizing here with
  | nil => rw [follow, List.append_nil]
  | cons p ps ih =>
    obtain ⟨hempty, hdot, hup, -⟩ := hps p List.mem_cons_self
    have hhere : fs.isDir here = true := by
      refine isDir_of_isPrefix hdir ?_
      rw [List.dropLast_append_of_ne_nil (List.cons_ne_nil _ _)]
      exact List.prefix_append _ _
    rw [follow, hhere]
    simp only [Bool.not_true, Bool.false_eq_true, if_false, Bool.or_eq_true, beq_iff_eq, hempty, hdot, hup, or_self]
    have hshift : here ++ [p] ++ ps = here ++ p :: ps := by simp
    rw [ih (fun q hq => hps q (List.mem_cons_of_mem _ hq)) (hshift ▸ hdir), hshift]

theorem locate?_absolute (hfs : fs.Rooted) {path : String} {place : List String}
    (h : fs.locate? path = some place) : fs.locate? (absolute place) = some place := by
  have hnames := names_of_locate? hfs h
  have hthere : fs.isDir place = true ∨ (fs.contentOf? place).isSome := by
    simp only [locate?] at h
    split at h
    · contradiction
    obtain ⟨found, -, hfound⟩ := Option.bind_eq_some_iff.mp h
    split at hfound
    · rename_i hthere
      rw [Option.some.injEq] at hfound
      exact hfound ▸ (Bool.or_eq_true _ _).mp hthere
    · contradiction
  have hfollow : fs.follow [] (Path.pieces (absolute place)) = some place := by
    by_cases hne : place = []
    · subst hne
      rw [pieces_absolute_nil]
      simp [follow, isDir]
    · rw [pieces_absolute hne fun p hp => (hnames p hp).2.2.2]
      exact follow_names hnames (isDir_dropLast hthere)
  have hempty : (absolute place).isEmpty = false := by
    rw [absolute]
    simp
  simp only [locate?, hempty, Bool.false_eq_true, if_false, isAbsolute_absolute, if_true, hfollow]
  exact if_pos ((Bool.or_eq_true _ _).mpr hthere)

/-- A canonical path leads to where the path does that it stands for. -/
theorem locate?_canonical (hfs : fs.Rooted) (path : String) : fs.locate? (fs.canonical path) = fs.locate? path := by
  cases h : fs.locate? path with
  | none => rw [canonical, canonical?, h, Option.map_none, Option.getD_none, h]
  | some place => rw [canonical, canonical?, h, Option.map_some, Option.getD_some, locate?_absolute hfs h]

theorem read?_canonical (hfs : fs.Rooted) (path : String) : fs.read? (fs.canonical path) = fs.read? path := by
  rw [read?, locate?_canonical hfs, ← read?]

theorem normal_canonical (hfs : fs.Rooted) {path : String} (h : (fs.read? path).isSome) :
    Path.normal (fs.canonical path) = fs.canonical path := by
  cases hplace : fs.locate? path with
  | none => simp [read?, hplace] at h
  | some place =>
    rw [canonical, canonical?, hplace, Option.map_some, Option.getD_some]
    exact normal_absolute (names_of_locate? hfs hplace)

/-- The files that there are, each under its canonical path. -/
def paths (fs : Files) : List String := fs.contents.map fun e => absolute e.1

theorem canonical_mem_paths {path : String} (h : (fs.read? path).isSome) : fs.canonical path ∈ fs.paths := by
  cases hplace : fs.locate? path with
  | none => simp [read?, hplace] at h
  | some place =>
    rw [read?, hplace, Option.bind_some, contentOf?, Option.isSome_map, List.find?_isSome] at h
    obtain ⟨e, he, heq⟩ := h
    rw [canonical, canonical?, hplace, Option.map_some, Option.getD_some, paths, ← beq_iff_eq.mp heq]
    exact List.mem_map_of_mem he

end Files
end RequestLang
