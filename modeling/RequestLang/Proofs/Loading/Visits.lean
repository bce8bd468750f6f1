import Mathlib

/-! Depth-first walks. A walk comes to each node that it can reach once, and leaves it once. -/
namespace RequestLang

variable {α : Type}

/-- A walk that has `work` to do and has come to `seen` before. It comes to the nodes of one list
and leaves those of another, both in order. -/
inductive Visits (next : α → List α) : List α → List α → List α → List α → Prop
  | done {seen : List α} : Visits next seen [] [] []
  | skip {seen work entered left : List α} {f : α} (hf : f ∈ seen) (hrest : Visits next seen work entered left) :
    Visits next seen (f :: work) entered left
  | enter {seen work entered left entered' left' : List α} {f : α} (hf : f ∉ seen)
    (hdeep : Visits next (seen ++ [f]) (next f) entered left)
    (hrest : Visits next (seen ++ f :: entered) work entered' left') :
    Visits next seen (f :: work) (f :: (entered ++ entered')) (left ++ f :: left')

namespace Visits
variable {next : α → List α} {seen work entered left : List α} {f : α}

theorem skips (h : ∀ f ∈ work, f ∈ seen) : Visits next seen work [] [] := by
  induction work with
  | nil => exact .done
  | cons f work ih =>
    rw [List.forall_mem_cons] at h
    exact .skip h.1 (ih h.2)

/-- One node is entered, and all that is left to do is done by then. -/
theorem enter_skipping (hf : f ∉ seen) (hdeep : Visits next (seen ++ [f]) (next f) entered left)
    (hrest : ∀ g ∈ work, g ∈ seen ++ f :: entered) : Visits next seen (f :: work) (f :: entered) (left ++ [f]) := by
  have henter := Visits.enter hf hdeep (skips hrest)
  rwa [List.append_nil] at henter

theorem unique (h : Visits next seen work entered left) {entered' left' : List α}
    (h' : Visits next seen work entered' left') : entered' = entered ∧ left' = left := by
  induction h generalizing entered' left' with
  | done =>
    cases h'
    exact ⟨rfl, rfl⟩
  | skip hf _ ih =>
    cases h' with
    | skip _ hrest => exact ih hrest
    | enter hf' => exact absurd hf hf'
  | enter hf _ _ ihdeep ihrest =>
    cases h' with
    | skip hf' => exact absurd hf' hf
    | enter _ hdeep hrest =>
      obtain ⟨rfl, rfl⟩ := ihdeep hdeep
      obtain ⟨rfl, rfl⟩ := ihrest hrest
      exact ⟨rfl, rfl⟩

theorem nodup_append (h : Visits next seen work entered left) (hseen : seen.Nodup) : (seen ++ entered).Nodup := by
  induction h with
  | done => simpa using hseen
  | skip _ _ ih => exact ih hseen
  | @enter seen work entered left entered' left' f hf _ _ ihdeep ihrest =>
    have hnew : (seen ++ [f]).Nodup := by
      rw [← List.concat_eq_append]
      exact List.Nodup.concat hf hseen
    have hdeep := ihdeep hnew
    rw [List.append_assoc, List.singleton_append] at hdeep
    simpa using ihrest hdeep

theorem perm (h : Visits next seen work entered left) : left.Perm entered := by
  induction h with
  | done => exact .nil
  | skip _ _ ih => exact ih
  | enter _ _ _ ihdeep ihrest => exact List.perm_middle.trans ((ihdeep.append ihrest).cons _)

/-- What is to be done is done, and so is what comes next to a node. -/
theorem closed (h : Visits next seen work entered left) :
    (∀ f ∈ work, f ∈ seen ++ entered) ∧ ∀ f ∈ entered, ∀ g ∈ next f, g ∈ seen ++ entered := by
  induction h with
  | done => simp
  | skip hf _ ih => exact ⟨List.forall_mem_cons.mpr ⟨List.mem_append_left _ hf, ih.1⟩, ih.2⟩
  | enter hf _ _ ihdeep ihrest =>
    simp only [List.mem_append, List.mem_cons, List.not_mem_nil, or_false] at ihdeep ihrest ⊢
    refine ⟨?_, ?_⟩
    · rintro g (rfl | hg)
      · exact .inr (.inl rfl)
      · have := ihrest.1 g hg
        tauto
    · rintro f' (rfl | hf' | hf') g hg
      · have := ihdeep.1 g hg
        tauto
      · have := ihdeep.2 f' hf' g hg
        tauto
      · have := ihrest.2 f' hf' g hg
        tauto

/-- A node can be reached along `next`. -/
abbrev Reach (next : α → List α) : α → α → Prop := Relation.ReflTransGen fun f g => g ∈ next f

theorem reach (h : Visits next seen work entered left) : ∀ g ∈ entered, ∃ f ∈ work, Reach next f g := by
  induction h with
  | done => simp
  | skip _ _ ih =>
    intro g hg
    obtain ⟨f, hf, hreach⟩ := ih g hg
    exact ⟨f, List.mem_cons_of_mem _ hf, hreach⟩
  | @enter _ work entered _ entered' _ f _ _ _ ihdeep ihrest =>
    intro g hg
    rcases List.mem_cons.mp hg with rfl | hg
    · exact ⟨g, List.mem_cons_self, .refl⟩
    rcases List.mem_append.mp hg with hg | hg
    · obtain ⟨f', hf', hreach⟩ := ihdeep g hg
      exact ⟨f, List.mem_cons_self, .head hf' hreach⟩
    · obtain ⟨f', hf', hreach⟩ := ihrest g hg
      exact ⟨f', List.mem_cons_of_mem _ hf', hreach⟩

theorem subset_append {nodes : List α} (h : Visits next seen (next f) entered left) (hnext : ∀ f, next f ⊆ nodes)
    (hseen : seen ⊆ nodes) : seen ++ entered ⊆ nodes := by
  refine List.append_subset.mpr ⟨hseen, fun g hg => ?_⟩
  obtain ⟨f', hf', hreach⟩ := h.reach g hg
  cases hreach with
  | refl => exact hnext f hf'
  | tail _ hstep => exact hnext _ hstep

/-- A walk from one node comes to what it can reach and to nothing else. -/
theorem mem_iff_reach (h : Visits next [] [f] entered left) (g : α) : g ∈ entered ↔ Reach next f g := by
  constructor
  · intro hg
    obtain ⟨f', hf', hreach⟩ := h.reach g hg
    exact List.mem_singleton.mp hf' ▸ hreach
  · intro hreach
    have hclosed := h.closed
    simp only [List.nil_append] at hclosed
    induction hreach with
    | refl => exact hclosed.1 f (List.mem_singleton_self f)
    | tail _ hstep ih => exact hclosed.2 _ ih _ hstep

end Visits

/-- There is a walk as long as all nodes come from a finite list. -/
theorem exists_visits [DecidableEq α] {next : α → List α} {nodes : List α} (hnext : ∀ f, next f ⊆ nodes)
    (seen work : List α) (hwork : work ⊆ nodes) : ∃ entered left, Visits next seen work entered left := by
  -- Entering a node leaves one node less to enter.
  induction hn : (nodes.filter (· ∉ seen)).length using Nat.strong_induction_on generalizing seen work with
  | _ n ih =>
    subst hn
    have hless {f : α} (hf : f ∈ nodes) (hnew : f ∉ seen) (more : List α) :
        (nodes.filter (· ∉ seen ++ f :: more)).length < (nodes.filter (· ∉ seen)).length := by
      have hsub : nodes.filter (· ∉ seen ++ f :: more) = (nodes.filter (· ∉ seen)).filter (· ∉ f :: more) := by
        rw [List.filter_filter]
        refine List.filter_congr fun g _ => ?_
        rw [Bool.and_comm]
        simp
      rw [hsub]
      refine List.length_filter_lt_length_iff_exists.mpr ⟨f, ?_, by simp⟩
      simp [hf, hnew]
    induction work with
    | nil => exact ⟨[], [], .done⟩
    | cons f work ihwork =>
      obtain ⟨hf, hwork⟩ := List.cons_subset.mp hwork
      by_cases hseen : f ∈ seen
      · obtain ⟨entered, left, hrest⟩ := ihwork hwork
        exact ⟨entered, left, .skip hseen hrest⟩
      · obtain ⟨entered, left, hdeep⟩ := ih _ (hless hf hseen []) (seen ++ [f]) (next f) (hnext f) rfl
        obtain ⟨entered', left', hrest⟩ := ih _ (hless hf hseen entered) (seen ++ f :: entered) work hwork rfl
        exact ⟨_, _, .enter hseen hdeep hrest⟩

end RequestLang
