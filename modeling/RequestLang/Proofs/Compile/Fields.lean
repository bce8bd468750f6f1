import Mathlib
import RequestLang.Headers
import RequestLang.Url.Percent

/-! Fields that are written one after another: in headers the last one of a name counts, in a query
all of them do. -/
namespace RequestLang

section
variable {α : Type}

theorem mem_setKey_self (key : String) (value : α) (entries : List (String × α)) :
    (key, value) ∈ setKey key value entries := by
  induction entries with
  | nil => simp [setKey]
  | cons e rest ih =>
    rw [setKey]
    split
    · rename_i hkey
      simp [hkey]
    · exact List.mem_cons_of_mem e ih

theorem mem_setKey_of_ne {key : String} (value : α) {entries : List (String × α)} {e : String × α}
    (he : e ∈ entries) (hne : e.1 ≠ key) : e ∈ setKey key value entries := by
  induction entries with
  | nil => cases he
  | cons first rest ih =>
    rw [setKey]
    split
    · rename_i hkey
      rcases List.mem_cons.mp he with rfl | he
      · exact absurd hkey hne
      · exact List.mem_cons_of_mem _ he
    · rcases List.mem_cons.mp he with rfl | he
      · exact List.mem_cons_self
      · exact List.mem_cons_of_mem _ (ih he)

theorem setKey_of_not_mem {key : String} {entries : List (String × α)} (h : key ∉ entries.map Prod.fst) (value : α) :
    setKey key value entries = entries ++ [(key, value)] := by
  induction entries with
  | nil => rfl
  | cons e rest ih =>
    rw [List.map_cons, List.mem_cons, not_or] at h
    rw [setKey, if_neg (Ne.symm h.1), ih h.2, List.cons_append]

theorem setKey_of_mem {key : String} {value : α} {entries : List (String × α)}
    (hnodup : (entries.map Prod.fst).Nodup) (h : (key, value) ∈ entries) : setKey key value entries = entries := by
  induction entries with
  | nil => cases h
  | cons e rest ih =>
    obtain ⟨k, v⟩ := e
    rw [List.map_cons, List.nodup_cons] at hnodup
    rcases List.mem_cons.mp h with heq | hrest
    · obtain ⟨rfl, rfl⟩ := Prod.mk.inj heq
      exact if_pos rfl
    · have hne : k ≠ key := fun heq => hnodup.1 (List.mem_map.mpr ⟨_, hrest, heq.symm⟩)
      rw [setKey, if_neg hne, ih hnodup.2 hrest]

/-- Setting a key is not seen where its entries are left out. -/
theorem filter_setKey {p : String × α → Bool} {key : String} (hp : ∀ v, p (key, v) = false) (value : α)
    (entries : List (String × α)) : (setKey key value entries).filter p = entries.filter p := by
  induction entries with
  | nil => simp [setKey, hp]
  | cons e rest ih =>
    obtain ⟨k, v⟩ := e
    rw [setKey]
    split
    · rename_i hkey
      simp [hkey, hp]
    · rw [List.filter_cons, List.filter_cons, ih]

theorem getKey?_cons (key : String) (e : String × α) (rest : List (String × α)) :
    getKey? key (e :: rest) = if e.1 = key then some e.2 else getKey? key rest := by
  unfold getKey?
  rw [List.find?_cons]
  by_cases h : e.1 = key
  · simp [h]
  · rw [if_neg h, beq_false_of_ne h]

theorem getKey?_eq_none {key : String} {entries : List (String × α)} (h : key ∉ entries.map Prod.fst) :
    getKey? key entries = none := by
  rw [getKey?, Option.map_eq_none_iff, List.find?_eq_none]
  intro e he
  have hne : e.1 ≠ key := ne_of_mem_of_not_mem (List.mem_map_of_mem he) h
  simpa using hne

theorem mem_of_getKey? {key : String} {value : α} {entries : List (String × α)}
    (h : getKey? key entries = some value) : (key, value) ∈ entries := by
  obtain ⟨⟨k, v⟩, hfind, rfl⟩ := Option.map_eq_some_iff.mp h
  have hk : k = key := by simpa using List.find?_some hfind
  exact hk ▸ List.mem_of_find?_eq_some hfind

theorem getKey?_of_mem {entries : List (String × α)} (h : (entries.map Prod.fst).Nodup) {key : String}
    {value : α} (hmem : (key, value) ∈ entries) : getKey? key entries = some value := by
  induction entries with
  | nil => exact absurd hmem List.not_mem_nil
  | cons e rest ih =>
    rw [List.map_cons, List.nodup_cons] at h
    rw [getKey?_cons]
    rcases List.mem_cons.mp hmem with hfirst | hrest
    · simp [← hfirst]
    · have hne : e.1 ≠ key := fun heq => h.1 (heq ▸ List.mem_map_of_mem hrest)
      rw [if_neg hne, ih h.2 hrest]

theorem getKey?_eraseKey (k key : String) (entries : List (String × α)) :
    getKey? k (eraseKey key entries) = if k = key then none else getKey? k entries := by
  induction entries with
  | nil => simp [eraseKey, getKey?]
  | cons e rest ih =>
    rw [eraseKey, List.filter_cons, ← eraseKey]
    by_cases he : e.1 = key
    · rw [if_neg (by simpa using he), ih, getKey?_cons, he]
      by_cases hk : k = key
      · rw [if_pos hk, if_pos hk]
      · rw [if_neg hk, if_neg hk, if_neg (Ne.symm hk)]
    · rw [if_pos (by simpa using he), getKey?_cons, getKey?_cons, ih]
      by_cases hk : e.1 = k
      · rw [if_pos hk, if_pos hk, if_neg (hk ▸ he)]
      · rw [if_neg hk, if_neg hk]

theorem getKey?_append (key : String) (xs ys : List (String × α)) :
    getKey? key (xs ++ ys) = (getKey? key xs).or (getKey? key ys) := by
  unfold getKey?
  rw [List.find?_append]
  cases xs.find? (·.1 == key) <;> rfl

theorem getKey?_reverse {entries : List (String × α)} (h : (entries.map Prod.fst).Nodup) (key : String) :
    getKey? key entries.reverse = getKey? key entries := by
  have hrev : (entries.reverse.map Prod.fst).Nodup := by
    rw [List.map_reverse]
    exact List.nodup_reverse.mpr h
  cases hget : getKey? key entries with
  | some v => exact getKey?_of_mem hrev (List.mem_reverse.mpr (mem_of_getKey? hget))
  | none =>
    cases hget' : getKey? key entries.reverse with
    | none => rfl
    | some v =>
      rw [getKey?_of_mem h (List.mem_reverse.mp (mem_of_getKey? hget'))] at hget
      cases hget

/-- What is set last counts. -/
theorem getKey?_foldl_setKey (key : String) (entries known : List (String × α)) :
    getKey? key (entries.foldl (fun acc e => setKey e.1 e.2 acc) known) =
      (getKey? key entries.reverse).or (getKey? key known) := by
  induction entries using List.reverseRecOn with
  | nil => rfl
  | append_singleton entries e ih =>
    rw [List.foldl_concat, getKey?_setKey, ih, List.reverse_concat, getKey?_cons]
    by_cases h : key = e.1
    · simp [h]
    · simp [h, Ne.symm h]

theorem nodup_keys_foldl_setKey (entries : List (String × α)) {known : List (String × α)}
    (h : (known.map Prod.fst).Nodup) :
    ((entries.foldl (fun acc e => setKey e.1 e.2 acc) known).map Prod.fst).Nodup := by
  induction entries generalizing known with
  | nil => exact h
  | cons e rest ih => exact ih (nodup_keys_setKey e.1 e.2 h)

theorem keys_filterMap_sublist {β : Type} (f : α → Option β) (entries : List (String × α)) :
    ((entries.filterMap fun e => (f e.2).map (e.1, ·)).map Prod.fst).Sublist (entries.map Prod.fst) := by
  induction entries with
  | nil => exact .slnil
  | cons e rest ih =>
    rw [List.filterMap_cons]
    cases f e.2 with
    | none => exact ih.cons e.1
    | some b => exact ih.cons_cons e.1

theorem getKey?_filterMap {β : Type} (f : α → Option β) {entries : List (String × α)}
    (h : (entries.map Prod.fst).Nodup) (key : String) :
    getKey? key (entries.filterMap fun e => (f e.2).map (e.1, ·)) = (getKey? key entries).bind f := by
  induction entries with
  | nil => rfl
  | cons e rest ih =>
    rw [List.map_cons, List.nodup_cons] at h
    rw [List.filterMap_cons, getKey?_cons]
    by_cases hkey : e.1 = key
    · have hrest : key ∉ (rest.filterMap fun e => (f e.2).map (e.1, ·)).map Prod.fst :=
        fun hmem => h.1 (hkey ▸ (keys_filterMap_sublist f rest).subset hmem)
      cases hf : f e.2 with
      | none => simpa [hkey, hf] using getKey?_eq_none hrest
      | some b => simp [hkey, hf, getKey?_cons]
    · cases f e.2 with
      | none => simpa [hkey] using ih h.2
      | some b => simpa [hkey, getKey?_cons] using ih h.2

end

namespace Headers

section
variable {h : Headers}

theorem names_eq (h : Headers) : h.toList.map (·.1.toLower) = h.fields.map Prod.fst := by
  rw [toList, List.map_map]
  exact List.map_congr_left fun e he => (h.keyed e he).symm

/-- No name comes twice in any spelling. -/
theorem nodup_names (h : Headers) : (h.toList.map (·.1.toLower)).Nodup := by
  rw [h.names_eq]
  exact h.distinct

/-- Looking a name up and listing the fields show the same. -/
theorem get?_eq_some {name value : String} :
    h.get? name = some value ↔ ∃ n, n.toLower = name.toLower ∧ (n, value) ∈ h.toList := by
  constructor
  · intro hget
    obtain ⟨⟨n, v⟩, hfield, rfl⟩ := Option.map_eq_some_iff.mp hget
    have hmem := mem_of_getKey? hfield
    exact ⟨n, (h.keyed _ hmem).symm, List.mem_map_of_mem hmem⟩
  · rintro ⟨n, hn, hmem⟩
    obtain ⟨⟨key, field⟩, he, hfield⟩ := List.mem_map.mp hmem
    have hkey : key = name.toLower :=
      (h.keyed _ he).trans ((congrArg (fun p : String × String => p.1.toLower) hfield).trans hn)
    rw [get?, getKey?_of_mem h.distinct (hkey ▸ he), Option.map_some]
    exact congrArg (fun p : String × String => some p.2) hfield

theorem insert_eq_self {name value : String} (hmem : (name.toLower, (name, value)) ∈ h.fields) :
    h.insert name value = h :=
  Headers.ext (setKey_of_mem h.distinct hmem)

theorem insert_insert (h : Headers) (name value : String) :
    (h.insert name value).insert name value = h.insert name value := insert_eq_self (mem_setKey_self ..)

theorem insertAll_eq_self {entries : List (String × String)}
    (hmem : ∀ e ∈ entries, (e.1.toLower, e) ∈ h.fields) :
    entries.foldl (fun h e => h.insert e.1 e.2) h = h := by
  induction entries with
  | nil => rfl
  | cons e rest ih =>
    rw [List.forall_mem_cons] at hmem
    rw [List.foldl_cons, insert_eq_self hmem.1, ih hmem.2]

end

/-- A field that is written stays until its name is written again. -/
theorem mem_insertAll {entries : List (String × String)} (hnodup : (entries.map (·.1.toLower)).Nodup) (h : Headers)
    {e : String × String} (he : e ∈ entries) :
    (e.1.toLower, e) ∈ (entries.foldl (fun h e => h.insert e.1 e.2) h).fields := by
  induction entries using List.reverseRecOn with
  | nil => cases he
  | append_singleton entries last ih =>
    rw [List.map_append, List.nodup_append] at hnodup
    rw [List.foldl_concat]
    rcases List.mem_append.mp he with he | he
    · have hne : e.1.toLower ≠ last.1.toLower :=
        hnodup.2.2 _ (List.mem_map_of_mem he) _ (List.mem_singleton_self _)
      exact mem_setKey_of_ne _ (ih hnodup.1 he) hne
    · rw [List.mem_singleton.mp he]
      exact mem_setKey_self ..

/-- The value of the last entry of a name in any spelling. -/
def lastValue? (name : String) (entries : List (String × String)) : Option String :=
  (entries.reverse.find? (·.1.toLower = name.toLower)).map Prod.snd

theorem lastValue?_concat (name : String) (entries : List (String × String)) (e : String × String) :
    lastValue? name (entries ++ [e]) =
      if name.toLower = e.1.toLower then some e.2 else lastValue? name entries := by
  unfold lastValue?
  rw [List.reverse_concat, List.find?_cons]
  by_cases h : name.toLower = e.1.toLower
  · simp [h]
  · simp [h, Ne.symm h]

theorem get?_insertAll (h : Headers) (entries : List (String × String)) (name : String) :
    (entries.foldl (fun h e => h.insert e.1 e.2) h).get? name = (lastValue? name entries).or (h.get? name) := by
  induction entries using List.reverseRecOn with
  | nil => rfl
  | append_singleton entries e ih =>
    rw [List.foldl_concat, get?_insert, ih, lastValue?_concat]
    split <;> rfl

theorem contains_eq (h : Headers) (name : String) : h.contains name = (h.get? name).isSome :=
  Option.isSome_map.symm

end Headers

namespace Form.Fields

theorem pairs_cons (e : String × List String) (rest : Fields) :
    pairs (e :: rest) = e.2.map (e.1, ·) ++ pairs rest := rfl

/-- The pairs of a name are the values that stand under it. -/
theorem filter_pairs {fields : Fields} (h : (fields.map Prod.fst).Nodup) (name : String) :
    fields.pairs.filter (·.1 = name) = ((getKey? name fields).getD []).map (name, ·) := by
  induction fields with
  | nil => rfl
  | cons e rest ih =>
    rw [List.map_cons, List.nodup_cons] at h
    rw [pairs_cons, List.filter_append, ih h.2, getKey?_cons]
    by_cases he : e.1 = name
    · have hrest : getKey? name rest = none := getKey?_eq_none (he ▸ h.1)
      rw [if_pos he, hrest, List.filter_eq_self.mpr (by simp [he]), he]
      simp
    · rw [if_neg he, List.filter_eq_nil_iff.mpr (by simp [he]), List.nil_append]

theorem nodup_addAll (entries : List (String × String)) :
    ((entries.foldl (fun (fields : Fields) e => fields.add e.1 e.2) []).map Prod.fst).Nodup := by
  induction entries using List.reverseRecOn with
  | nil => exact List.nodup_nil
  | append_singleton entries e ih =>
    rw [List.foldl_concat]
    exact nodup_keys_setKey _ _ ih

/-- Of each name the pairs are those that were added, in their order. -/
theorem filter_pairs_addAll (entries : List (String × String)) (name : String) :
    (entries.foldl (fun (fields : Fields) e => fields.add e.1 e.2) []).pairs.filter (·.1 = name) =
      entries.filter (·.1 = name) := by
  induction entries using List.reverseRecOn with
  | nil => rfl
  | append_singleton entries e ih =>
    have hkeys := nodup_addAll (entries ++ [e])
    rw [List.foldl_concat] at hkeys ⊢
    rw [filter_pairs (nodup_addAll entries)] at ih
    rw [filter_pairs hkeys, add, getKey?_setKey, List.filter_append, ← ih]
    by_cases h : name = e.1
    · simp [h]
    · simp [h, Ne.symm h]

/-- Nothing is lost and nothing merged. -/
theorem perm_pairs_addAll (entries : List (String × String)) :
    (entries.foldl (fun (fields : Fields) e => fields.add e.1 e.2) []).pairs.Perm entries := by
  rw [List.perm_iff_count]
  intro p
  have hcount (l : List (String × String)) : l.count p = (l.filter (·.1 = p.1)).count p :=
    (List.count_filter (by simp)).symm
  rw [hcount, filter_pairs_addAll, ← hcount]

end Form.Fields

end RequestLang
