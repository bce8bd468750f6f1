import RequestLang.Proofs.Text.Search
import RequestLang.Token.Lexer

/-! Runs of characters of a class, and the pieces of text that a class of lexemes takes off. -/
namespace RequestLang.Lexer

/-- The next character, if there is one, does not belong to a class. -/
def Stops (p : Char → Bool) (rest : List Char) : Prop := ∀ c ∈ rest.head?, p c = false

@[simp] theorem stops_nil (p : Char → Bool) : Stops p [] := by simp [Stops]

@[simp] theorem stops_cons (p : Char → Bool) (c : Char) (cs : List Char) :
    Stops p (c :: cs) ↔ p c = false := by simp [Stops]

theorem stops_of_all {p : Char → Bool} {rest : List Char} (h : rest.head?.all (!p ·)) : Stops p rest := by
  intro c hc
  rw [Option.mem_def.mp hc] at h
  simpa using h

/-- A run of a class ends where the class does. -/
theorem run_append_of_stops {p : Char → Bool} {rest : List Char} (hr : Stops p rest) (cs : List Char) :
    run p (cs ++ rest) = run p cs := by
  induction cs with
  | nil =>
    cases rest with
    | nil => rfl
    | cons c rest => simp [run, (stops_cons p c rest).mp hr]
  | cons c cs ih =>
    by_cases hc : p c
    · simpa [run, hc] using ih
    · simp [run, hc]

theorem run_of_all {p : Char → Bool} {cs : List Char} (h : ∀ c ∈ cs, p c) : run p cs = cs.length := by
  induction cs with
  | nil => rfl
  | cons c cs ih =>
    have hc : p c := h c (by simp)
    simpa [run, hc] using ih fun d hd => h d (by simp [hd])

theorem run_append {p : Char → Bool} {cs rest : List Char} (hcs : ∀ c ∈ cs, p c) (hr : Stops p rest) :
    run p (cs ++ rest) = cs.length := by
  rw [run_append_of_stops hr, run_of_all hcs]

theorem run_le_length (p : Char → Bool) (cs : List Char) : run p cs ≤ cs.length :=
  (List.takeWhile_prefix p).length_le

theorem run_never (cs : List Char) : run (fun _ => false) cs = 0 := by
  cases cs <;> rfl

theorem run_eq_length {p : Char → Bool} {cs rest : List Char} (h : run p (cs ++ rest) = cs.length) :
    (∀ c ∈ cs, p c) ∧ Stops p rest := by
  induction cs with
  | nil =>
    refine ⟨by simp, ?_⟩
    cases rest with
    | nil => simp
    | cons c rest =>
      rw [stops_cons, ← Bool.not_eq_true]
      intro hc
      simp [run, hc] at h
  | cons c cs ih =>
    by_cases hc : p c
    · have hrun : run p (cs ++ rest) = cs.length := by simpa [run, hc] using h
      obtain ⟨hall, hstop⟩ := ih hrun
      exact ⟨by simpa [hc] using hall, hstop⟩
    · simp [run, hc] at h

theorem run_take (p : Char → Bool) (cs : List Char) (n : Nat) :
    run p (cs.take n) = min (run p cs) n := by
  induction cs generalizing n with
  | nil => simp [run]
  | cons c cs ih =>
    cases n with
    | zero => simp [run]
    | succ n =>
      have hn := ih n
      unfold run at hn ⊢
      by_cases hc : p c
      · simp [hc, hn]
      · simp [hc]

theorem takeWhile_append_of_stops {p : Char → Bool} {cs rest : List Char} (hcs : ∀ c ∈ cs, p c) (hr : Stops p rest) :
    (cs ++ rest).takeWhile p = cs := by
  rw [List.takeWhile_append_of_pos hcs]
  cases rest with
  | nil => simp
  | cons c rest => rw [List.takeWhile_cons_of_neg (by simp [hr c rfl]), List.append_nil]

theorem dropWhile_append_of_stops {p : Char → Bool} {cs rest : List Char} (hcs : ∀ c ∈ cs, p c) (hr : Stops p rest) :
    (cs ++ rest).dropWhile p = rest := by
  rw [List.dropWhile_append_of_pos hcs]
  cases rest with
  | nil => rfl
  | cons c rest => rw [List.dropWhile_cons_of_neg (by simp [hr c rfl])]

/-- Every text begins with a run of a class, which may be empty. -/
theorem exists_run (p : Char → Bool) (cs : List Char) : ∃ ds rest, cs = ds ++ rest ∧ (∀ c ∈ ds, p c) ∧ Stops p rest := by
  refine ⟨cs.takeWhile p, cs.dropWhile p, List.takeWhile_append_dropWhile.symm, fun c => List.mem_takeWhile_imp, ?_⟩
  intro c hc
  have h := List.head?_dropWhile_not p cs
  rw [Option.mem_def.mp hc] at h
  exact h

/-- A letter or an underscore with characters of a class behind it. -/
def isHeaded (p : Char → Bool) : List Char → Bool
  | c :: cs => Text.isNameStart c && cs.all p
  | [] => false

theorem cons_of_isHeaded {p : Char → Bool} {cs : List Char} (h : isHeaded p cs) :
    ∃ d ds, cs = d :: ds ∧ Text.isNameStart d ∧ ∀ c ∈ ds, p c := by
  cases cs with
  | nil => cases h
  | cons d ds =>
    simp only [isHeaded, Bool.and_eq_true, List.all_eq_true] at h
    exact ⟨d, ds, rfl, h⟩

theorem headed?_eq_length {first p : Char → Bool} {cs rest : List Char}
    (h : headed? first p (cs ++ rest) = some cs.length) (hcs : cs ≠ []) :
    ∃ c ds, cs = c :: ds ∧ first c ∧ (∀ d ∈ ds, p d) ∧ Stops p rest := by
  cases cs with
  | nil => exact absurd rfl hcs
  | cons c ds =>
    by_cases hc : first c
    · have hrun : run p (ds ++ rest) = ds.length := by simpa [headed?, hc] using h
      exact ⟨c, ds, rfl, hc, run_eq_length hrun⟩
    · simp [headed?, hc] at h

theorem headed?_eq_length_of_map {first p : Char → Bool} {cs rest : List Char}
    (h : (headed? first p (cs ++ rest)).map (· + 1) = some (cs.length + 1)) :
    ∃ c ds, cs = c :: ds ∧ first c ∧ (∀ d ∈ ds, p d) ∧ Stops p rest := by
  obtain ⟨n, hn, hlen⟩ := Option.map_eq_some_iff.mp h
  obtain rfl : n = cs.length := by omega
  refine headed?_eq_length hn ?_
  rintro rfl
  cases rest with
  | nil => simp [headed?] at hn
  | cons c rest => simp [headed?] at hn

theorem fenced?_eq_length {opening closing cs rest : List Char}
    (h : fenced? opening closing (cs ++ rest) = some cs.length) :
    ∃ body, cs = opening ++ body ∧ Text.through? closing body = some body.length := by
  unfold fenced? at h
  split at h
  · rename_i hp
    rw [List.isPrefixOf_iff_prefix] at hp
    obtain ⟨n, hn, hlen⟩ := Option.map_eq_some_iff.mp h
    have hle : opening.length ≤ cs.length := by omega
    obtain ⟨body, rfl⟩ := List.prefix_of_prefix_length_le hp (List.prefix_append cs rest) hle
    refine ⟨body, rfl, ?_⟩
    rw [List.append_assoc, List.drop_left] at hn
    have hbody : n = body.length := by
      rw [List.length_append] at hlen
      omega
    subst hbody
    exact Text.through?_of_append hn
  · cases h

end RequestLang.Lexer
