import Mathlib
import RequestLang.Compile
import RequestLang.Proofs.Steps

/-! The ancestors of a request. A base is the first request that goes by its name, and a walk that
succeeds has come to a request without a base. -/
namespace RequestLang

/-- The request at a place and its ancestors, up to one without a base. A base is the first request
that goes by the name given. -/
inductive Ancestry (requests : List Request) : Nat → Compile.Chain → Prop
  | root {i : Nat} {q : Request} (hq : requests[i]? = some q) (hbase : q.base = none) :
    Ancestry requests i [q]
  | step {i next : Nat} {q : Request} {name : String} {rest : Compile.Chain} (hq : requests[i]? = some q)
    (hbase : q.base = some name) (hnext : Target.find? requests name = some next)
    (hrest : Ancestry requests next rest) : Ancestry requests i (q :: rest)

namespace Target
variable {requests : List Request} {name : String} {i : Nat}

/-- The first request that is shown under a name. -/
structure First (requests : List Request) (name : String) (i : Nat) : Prop where
  shown : ∃ q, requests[i]? = some q ∧ q.displayName i = name
  least : ∀ j < i, ∀ q, requests[j]? = some q → q.displayName j ≠ name

theorem findFrom_eq_some_iff {index : Nat} :
    findFrom name index requests = some i ↔ ∃ k, i = index + k ∧
      (∃ q, requests[k]? = some q ∧ q.displayName i = name) ∧
      ∀ j < k, ∀ q, requests[j]? = some q → q.displayName (index + j) ≠ name := by
  induction requests generalizing index with
  | nil => simp [findFrom]
  | cons p rest ih =>
    rw [findFrom]
    split
    · rename_i hname
      rw [Option.some_inj]
      constructor
      · rintro rfl
        exact ⟨0, rfl, ⟨p, rfl, hname⟩, fun j hj => absurd hj (Nat.not_lt_zero j)⟩
      · rintro ⟨k, rfl, -, hleast⟩
        cases k with
        | zero => rfl
        | succ k => exact absurd hname (hleast 0 k.succ_pos p rfl)
    · rename_i hne
      rw [ih]
      constructor
      · rintro ⟨k, rfl, hshown, hleast⟩
        refine ⟨k + 1, by omega, hshown, fun j hj q hq => ?_⟩
        cases j with
        | zero =>
          cases hq
          exact hne
        | succ j =>
          have := hleast j (by omega) q hq
          rwa [Nat.add_right_comm, Nat.add_assoc] at this
      · rintro ⟨k, rfl, ⟨q, hq, hname⟩, hleast⟩
        cases k with
        | zero =>
          cases hq
          exact absurd hname hne
        | succ k =>
          refine ⟨k, by omega, ⟨q, hq, hname⟩, fun j hj q hq => ?_⟩
          have := hleast (j + 1) (by omega) q hq
          rwa [← Nat.add_assoc, Nat.add_right_comm] at this

theorem find?_eq_some_iff_first : find? requests name = some i ↔ First requests name i := by
  rw [find?, findFrom_eq_some_iff]
  constructor
  · rintro ⟨k, rfl, hshown, hleast⟩
    rw [Nat.zero_add] at hshown ⊢
    exact ⟨hshown, by simpa using hleast⟩
  · rintro ⟨hshown, hleast⟩
    exact ⟨i, (Nat.zero_add i).symm, hshown, by simpa using hleast⟩

theorem findFrom_eq_none_iff {index : Nat} :
    findFrom name index requests = none ↔ ∀ k (q : Request), requests[k]? = some q → q.displayName (index + k) ≠ name := by
  induction requests generalizing index with
  | nil => simp [findFrom]
  | cons p rest ih =>
    rw [findFrom]
    split
    · rename_i hname
      exact ⟨nofun, fun h => absurd hname (h 0 p rfl)⟩
    · rename_i hne
      rw [ih]
      constructor
      · intro h k q hq
        cases k with
        | zero =>
          cases hq
          exact hne
        | succ k =>
          have := h k q hq
          rwa [Nat.add_right_comm, Nat.add_assoc] at this
      · intro h k q hq
        have := h (k + 1) q hq
        rwa [← Nat.add_assoc, Nat.add_right_comm] at this

theorem find?_eq_none_iff :
    find? requests name = none ↔ ∀ i (q : Request), requests[i]? = some q → q.displayName i ≠ name := by
  rw [find?, findFrom_eq_none_iff]
  simp only [Nat.zero_add]

theorem lt_of_find? (h : find? requests name = some i) : i < requests.length := by
  obtain ⟨⟨q, hq, -⟩, -⟩ := find?_eq_some_iff_first.mp h
  exact (List.getElem?_eq_some_iff.mp hq).1

theorem lt_of_named (h : named requests name = .ok i) : i < requests.length := by
  rw [named] at h
  split at h
  · rename_i hfind
    cases h
    exact lt_of_find? hfind
  · contradiction

theorem lt_of_select {target : String} (h : select requests target = .ok i) : i < requests.length := by
  rw [select] at h
  split at h
  · split at h
    · cases h
      omega
    · exact lt_of_named h
  · exact lt_of_named h

/-- Distinct places of a list are no more than its length. -/
theorem length_le_of_nodup {n : Nat} {places : List Nat} (hnodup : places.Nodup) (hlt : ∀ i ∈ places, i < n) :
    places.length ≤ n := by
  have hsub : places ⊆ List.range n := fun i hi => List.mem_range.mpr (hlt i hi)
  simpa using hnodup.length_le_of_subset hsub

/-- The bound on the steps of a walk is never met. -/
theorem ancestry_of_walk {n current : Nat} {walked places : List Nat}
    (h : walk requests n walked current = .ok places) (hfuel : walked.length + n = requests.length)
    (hnodup : (current :: walked).Nodup) (hlt : ∀ i ∈ current :: walked, i < requests.length) :
    ∃ rest, places = walked.reverse ++ rest ∧ Ancestry requests current (rest.filterMap (requests[·]?)) := by
  induction n generalizing walked current with
  | zero =>
    have := length_le_of_nodup hnodup hlt
    rw [List.length_cons] at this
    omega
  | succ n ih =>
    have hplace : current < requests.length := hlt current List.mem_cons_self
    have hcurrent : requests[current]? = some requests[current] := List.getElem?_eq_getElem hplace
    rw [walk, hcurrent, Option.bind_some] at h
    cases hbase : requests[current].base with
    | none =>
      simp only [hbase, Except.ok.injEq] at h
      refine ⟨[current], by rw [← h, List.reverse_cons], ?_⟩
      rw [List.filterMap_cons_some hcurrent, List.filterMap_nil]
      exact .root hcurrent hbase
    | some name =>
      cases hnext : find? requests name with
      | none => simp [hbase, hnext] at h
      | some next =>
        simp only [hbase, hnext] at h
        split at h
        · contradiction
        · rename_i hnew
          rw [List.contains_iff_mem] at hnew
          have hlt' : ∀ i ∈ next :: current :: walked, i < requests.length :=
            List.forall_mem_cons.mpr ⟨lt_of_find? hnext, hlt⟩
          obtain ⟨rest, rfl, hrest⟩ := ih h (by rw [List.length_cons]; omega)
            (List.nodup_cons.mpr ⟨hnew, hnodup⟩) hlt'
          refine ⟨current :: rest, by simp, ?_⟩
          rw [List.filterMap_cons_some hcurrent]
          exact .step hcurrent hbase hnext hrest

theorem ancestry_of_chain {index : Nat} {places : List Nat}
    (h : chain requests index = .ok places) (hlt : index < requests.length) :
    Ancestry requests index (places.filterMap (requests[·]?)) := by
  obtain ⟨rest, rfl, hrest⟩ := ancestry_of_walk h (Nat.zero_add _) (List.nodup_singleton index)
    (by simpa using hlt)
  exact hrest

end Target
end RequestLang
