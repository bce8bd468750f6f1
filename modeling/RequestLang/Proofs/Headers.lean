import RequestLang.Proofs.Compile.Fields

/-! Headers as a map with an order. Whatever is done to them comes down to single writes, and what writes leave is told
apart from the fields that are kept: as a finite map from names in lower case, and as an order of these names by the
places of the writes that brought them in. Each write keeps the two in step with the fields. -/
namespace RequestLang.Headers

inductive Write where
  | put (name value : String)
  | drop (name : String)
  deriving DecidableEq, Repr

inductive Edit where
  | insert (name value : String)
  | remove (name : String)
  | merge (other : Headers)
  deriving DecidableEq, Repr

/-- A merge writes what the other map lists. -/
def Edit.writes : Edit → List Write
  | .insert name value => [.put name value]
  | .remove name => [.drop name]
  | .merge other => other.toList.map fun e => .put e.1 e.2

def write (h : Headers) : Write → Headers
  | .put name value => h.insert name value
  | .drop name => h.erase name

def edit (h : Headers) : Edit → Headers
  | .insert name value => h.insert name value
  | .remove name => h.erase name
  | .merge other => h.merge other

/-- What edits make of no headers. -/
def edited (edits : List Edit) : Headers := edits.foldl edit {}

/-! What is expected of writes. -/

/-- Spellings and values under names in lower case. -/
abbrev FieldMap := Finmap fun _ : String => String × String

def Write.apply (m : FieldMap) : Write → FieldMap
  | .put name value => m.insert name.toLower (name, value)
  | .drop name => m.erase name.toLower

def mapAfter (writes : List Write) : FieldMap := writes.foldl Write.apply ∅

def Write.Drops (key : String) : Write → Prop
  | .put .. => False
  | .drop name => name.toLower = key

/-- The place of the write that brought in a name: nothing stood under it there, and it has not been dropped since. -/
structure Introduces (writes : List Write) (key : String) (n : Nat) : Prop where
  put : ∃ name value, writes[n]? = some (.put name value) ∧ name.toLower = key
  absent : key ∉ mapAfter (writes.take n)
  kept : ∀ w ∈ writes.drop (n + 1), ¬w.Drops key

/-- One name was brought in before the other. -/
def Precedes (writes : List Write) (key key' : String) : Prop :=
  ∃ n n', Introduces writes key n ∧ Introduces writes key' n' ∧ n < n'

/-- What the map holds, each as it was written last, in the order in which the names were brought in. -/
structure Lists (writes : List Write) (entries : List (String × String)) : Prop where
  mem_iff : ∀ e, e ∈ entries ↔ (mapAfter writes).lookup e.1.toLower = some e
  ordered : entries.Pairwise fun e e' => Precedes writes e.1.toLower e'.1.toLower

section
variable {writes : List Write} {w : Write} {m : FieldMap} {key key' : String}

theorem mapAfter_append (before after : List Write) :
    mapAfter (before ++ after) = after.foldl Write.apply (mapAfter before) := List.foldl_append

theorem mapAfter_concat (writes : List Write) (w : Write) : mapAfter (writes ++ [w]) = w.apply (mapAfter writes) :=
  mapAfter_append writes [w]

theorem Write.mem_apply (h : key ∈ m) (hw : ¬w.Drops key) : key ∈ w.apply m := by
  cases w with
  | put name value => exact Finmap.mem_insert.mpr (.inr h)
  | drop name => exact Finmap.mem_erase.mpr ⟨Ne.symm hw, h⟩

/-- A name stays until it is dropped. -/
theorem mem_foldl_apply (h : key ∈ m) (hkept : ∀ w ∈ writes, ¬w.Drops key) : key ∈ writes.foldl Write.apply m := by
  induction writes generalizing m with
  | nil => exact h
  | cons w writes ih =>
    rw [List.forall_mem_cons] at hkept
    exact ih (Write.mem_apply h hkept.1) hkept.2

namespace Introduces
variable {n n' : Nat}

theorem lt (h : Introduces writes key n) : n < writes.length := by
  obtain ⟨name, value, hput, -⟩ := h.put
  exact (List.getElem?_eq_some_iff.mp hput).1

theorem mem (h : Introduces writes key n) : key ∈ mapAfter writes := by
  obtain ⟨name, value, hput, hkey⟩ := h.put
  have htake : writes.take (n + 1) = writes.take n ++ [.put name value] := by
    rw [List.take_add_one, hput, Option.toList_some]
  rw [← List.take_append_drop (n + 1) writes, mapAfter_append, htake, mapAfter_concat]
  exact mem_foldl_apply (Finmap.mem_insert.mpr (.inl hkey.symm)) h.kept

theorem take (h : Introduces writes key n) (hn : n < n') : Introduces (writes.take n') key n where
  put := by
    rw [List.getElem?_take_of_lt hn]
    exact h.put
  absent := by
    rw [List.take_take, Nat.min_eq_left hn.le]
    exact h.absent
  kept w hw := by
    rw [List.drop_take] at hw
    exact h.kept w (List.mem_of_mem_take hw)

/-- A name that is brought in is there from then on, so that no later write brings it in as well. -/
theorem unique (h : Introduces writes key n) (h' : Introduces writes key n') : n = n' := by
  rcases Nat.lt_trichotomy n n' with hlt | heq | hgt
  · exact absurd (h.take hlt).mem h'.absent
  · exact heq
  · exact absurd (h'.take hgt).mem h.absent

theorem concat (h : Introduces writes key n) (hw : ¬w.Drops key) : Introduces (writes ++ [w]) key n where
  put := by
    rw [List.getElem?_append_left h.lt]
    exact h.put
  absent := by
    rw [List.take_append_of_le_length h.lt.le]
    exact h.absent
  kept w' hw' := by
    rw [List.drop_append_of_le_length h.lt] at hw'
    rcases List.mem_append.mp hw' with hold | hnew
    · exact h.kept w' hold
    · exact List.mem_singleton.mp hnew ▸ hw

end Introduces

theorem introduces_length {name : String} (h : name.toLower ∉ mapAfter writes) (value : String) :
    Introduces (writes ++ [.put name value]) name.toLower writes.length where
  put := ⟨name, value, List.getElem?_concat_length, rfl⟩
  absent := by rwa [List.take_left]
  kept := by simp

theorem exists_introduces (h : key ∈ mapAfter writes) : ∃ n, Introduces writes key n := by
  -- A name that is there after the last write was there before it, unless that write itself brings it in.
  induction writes using List.reverseRecOn with
  | nil => exact absurd h Finmap.notMem_empty
  | append_singleton writes w ih =>
    rw [mapAfter_concat] at h
    cases w with
    | put name value =>
      by_cases hold : key ∈ mapAfter writes
      · obtain ⟨n, hn⟩ := ih hold
        exact ⟨n, hn.concat not_false⟩
      · obtain rfl : key = name.toLower := (Finmap.mem_insert.mp h).resolve_right hold
        exact ⟨_, introduces_length hold value⟩
    | drop name =>
      obtain ⟨hne, hold⟩ := Finmap.mem_erase.mp h
      obtain ⟨n, hn⟩ := ih hold
      exact ⟨n, hn.concat (Ne.symm hne)⟩

namespace Precedes

theorem asymm (h : Precedes writes key key') : ¬Precedes writes key' key := by
  rintro ⟨m', m, hm', hm, hlt'⟩
  obtain ⟨n, n', hn, hn', hlt⟩ := h
  have heq := hn.unique hm
  have heq' := hn'.unique hm'
  omega

theorem concat (h : Precedes writes key key') (hw : ¬w.Drops key) (hw' : ¬w.Drops key') :
    Precedes (writes ++ [w]) key key' := by
  obtain ⟨n, n', hn, hn', hlt⟩ := h
  exact ⟨n, n', hn.concat hw, hn'.concat hw', hlt⟩

end Precedes

namespace Lists
variable {entries entries' : List (String × String)}

theorem nodup (h : Lists writes entries) : entries.Nodup := by
  refine h.ordered.imp fun hprecedes heq => ?_
  subst heq
  exact hprecedes.asymm hprecedes

/-- The writes leave no choice. -/
theorem unique (h : Lists writes entries) (h' : Lists writes entries') : entries = entries' := by
  have hperm : entries.Perm entries' :=
    (List.perm_ext_iff_of_nodup h.nodup h'.nodup).mpr fun e => (h.mem_iff e).trans (h'.mem_iff e).symm
  exact hperm.eq_of_pairwise (fun _ _ _ _ hab hba => absurd hba hab.asymm) h.ordered h'.ordered

end Lists

end

/-! What the headers keep. -/

/-- The headers hold what the writes leave, and in the order of their names. -/
structure Holds (h : Headers) (writes : List Write) : Prop where
  lookup : ∀ key, getKey? key h.fields = (mapAfter writes).lookup key
  ordered : (h.fields.map Prod.fst).Pairwise (Precedes writes)

theorem holds_empty : Holds {} [] := ⟨fun _ => rfl, .nil⟩

namespace Holds
variable {h : Headers} {writes : List Write}

theorem mem_keys (hold : Holds h writes) {key : String} : key ∈ h.fields.map Prod.fst ↔ key ∈ mapAfter writes := by
  rw [Finmap.mem_iff]
  constructor
  · intro hkey
    obtain ⟨⟨key, field⟩, he, rfl⟩ := List.mem_map.mp hkey
    exact ⟨field, (hold.lookup key).symm.trans (getKey?_of_mem h.distinct he)⟩
  · rintro ⟨field, hfield⟩
    exact List.mem_map.mpr ⟨_, mem_of_getKey? ((hold.lookup key).trans hfield), rfl⟩

/-- A name that is there keeps its place under a put, and any other comes last. -/
theorem put (hold : Holds h writes) (name value : String) : Holds (h.insert name value) (writes ++ [.put name value]) where
  lookup key := by
    rw [insert, getKey?_setKey, hold.lookup, mapAfter_concat]
    split
    · rename_i hkey
      rw [hkey]
      exact (Finmap.lookup_insert (mapAfter writes)).symm
    · rename_i hkey
      exact (Finmap.lookup_insert_of_ne _ hkey).symm
  ordered := by
    have hstay : (h.fields.map Prod.fst).Pairwise (Precedes (writes ++ [.put name value])) :=
      hold.ordered.imp fun hprecedes => hprecedes.concat not_false not_false
    -- Only the field is replaced if the name is there; else the name stands behind names that came in earlier.
    rw [insert, keys_setKey]
    split
    · exact hstay
    · rename_i hnew
      rw [hold.mem_keys] at hnew
      refine List.pairwise_append.mpr ⟨hstay, List.pairwise_singleton .., fun key hkey last hlast => ?_⟩
      obtain ⟨n, hn⟩ := exists_introduces (hold.mem_keys.mp hkey)
      rw [List.mem_singleton.mp hlast]
      exact ⟨n, writes.length, hn.concat not_false, introduces_length hnew value, hn.lt⟩

theorem drop (hold : Holds h writes) (name : String) : Holds (h.erase name) (writes ++ [.drop name]) where
  lookup key := by
    rw [erase, getKey?_eraseKey, hold.lookup, mapAfter_concat]
    split
    · rename_i hkey
      rw [hkey]
      exact (Finmap.lookup_erase _ (mapAfter writes)).symm
    · rename_i hkey
      exact (Finmap.lookup_erase_ne hkey).symm
  ordered := by
    have hleft : ∀ key ∈ (h.erase name).fields.map Prod.fst, ¬(Write.drop name).Drops key := by
      intro key hkey
      obtain ⟨e, he, rfl⟩ := List.mem_map.mp hkey
      exact (bne_iff_ne.mp (List.mem_filter.mp he).2).symm
    have hsub : ((h.erase name).fields.map Prod.fst).Pairwise (Precedes writes) :=
      hold.ordered.sublist (List.filter_sublist.map _)
    exact hsub.imp_of_mem fun hkey hkey' hprecedes => hprecedes.concat (hleft _ hkey) (hleft _ hkey')

theorem write (hold : Holds h writes) (w : Write) : Holds (h.write w) (writes ++ [w]) := by
  cases w with
  | put name value => exact hold.put name value
  | drop name => exact hold.drop name

theorem get?_eq (hold : Holds h writes) (name : String) :
    h.get? name = ((mapAfter writes).lookup name.toLower).map Prod.snd := by
  rw [get?, hold.lookup]

theorem contains_iff (hold : Holds h writes) (name : String) :
    h.contains name ↔ name.toLower ∈ mapAfter writes := by
  rw [contains, hold.lookup, Finmap.lookup_isSome]

theorem size_eq (hold : Holds h writes) : h.size = (mapAfter writes).keys.card := by
  have hkeys : (mapAfter writes).keys = (h.fields.map Prod.fst).toFinset := by
    ext key
    rw [Finmap.mem_keys, List.mem_toFinset, hold.mem_keys]
  rw [hkeys, List.toFinset_card_of_nodup h.distinct, List.length_map, size]

theorem lists (hold : Holds h writes) : Lists writes h.toList where
  mem_iff e := by
    rw [← hold.lookup]
    constructor
    · intro he
      obtain ⟨⟨key, field⟩, hfield, rfl⟩ := List.mem_map.mp he
      exact getKey?_of_mem h.distinct (h.keyed _ hfield ▸ hfield)
    · exact fun he => List.mem_map.mpr ⟨_, mem_of_getKey? he, rfl⟩
  ordered := by
    have hnames := hold.ordered
    rw [← h.names_eq] at hnames
    exact List.pairwise_map.mp hnames

end Holds

theorem holds_foldl (writes : List Write) : Holds (writes.foldl write {}) writes := by
  induction writes using List.reverseRecOn with
  | nil => exact holds_empty
  | append_singleton writes w ih =>
    rw [List.foldl_concat]
    exact ih.write w

theorem edit_eq (h : Headers) (e : Edit) : h.edit e = e.writes.foldl write h := by
  cases e with
  | insert name value => rfl
  | remove name => rfl
  | merge other =>
    rw [Edit.writes, List.foldl_map]
    rfl

theorem edited_eq (edits : List Edit) : edited edits = (edits.flatMap Edit.writes).foldl write {} := by
  rw [List.foldl_flatMap, edited, funext₂ edit_eq]

theorem holds_edited (edits : List Edit) : Holds (edited edits) (edits.flatMap Edit.writes) := by
  rw [edited_eq]
  exact holds_foldl _

/-! Merges. -/

theorem lastValue?_toList (h : Headers) (name : String) :
    lastValue? name h.toList = h.get? name := by
  rw [lastValue?]
  cases hfind : h.toList.reverse.find? (·.1.toLower = name.toLower) with
  | some e =>
    have hname : e.1.toLower = name.toLower := by simpa using List.find?_some hfind
    have hmem : e ∈ h.toList := List.mem_reverse.mp (List.mem_of_find?_eq_some hfind)
    exact (get?_eq_some.mpr ⟨e.1, hname, hmem⟩).symm
  | none =>
    cases hget : h.get? name with
    | none => rfl
    | some value =>
      obtain ⟨n, hn, hmem⟩ := get?_eq_some.mp hget
      exact absurd (decide_eq_true hn) (List.find?_eq_none.mp hfind _ (List.mem_reverse.mpr hmem))

theorem merge_merge (h other : Headers) :
    (h.merge other).merge other = h.merge other :=
  insertAll_eq_self fun _ he => mem_insertAll other.nodup_names h he

theorem get?_merge (h other : Headers) (name : String) :
    (h.merge other).get? name = (other.get? name).or (h.get? name) := by
  rw [merge, get?_insertAll, lastValue?_toList]

/-- Headers are a finite map whose names differ in more than case, with an order. Whatever was inserted, removed and
merged, each field stands under the lower-case form of its own spelling, and looking up and counting show the map that
the writes leave, the last of a name winning. Listing shows its fields as they were written last, in the order in which
their names were brought in, or back in after a removal. To merge the same headers twice is to merge them once, and the
merged ones win. -/
theorem refines_map (edits others : List Edit) :
    let h := edited edits
    let other := edited others
    let writes := edits.flatMap Edit.writes
    (∀ e ∈ h.fields, e.1 = e.2.1.toLower) ∧
    (∀ name, h.get? name = ((mapAfter writes).lookup name.toLower).map Prod.snd) ∧
    (∀ name, h.contains name ↔ name.toLower ∈ mapAfter writes) ∧
    h.size = (mapAfter writes).keys.card ∧
    (∀ entries, Lists writes entries ↔ entries = h.toList) ∧
    (h.merge other).merge other = h.merge other ∧
    ∀ name, (h.merge other).get? name = (other.get? name).or (h.get? name) := by
  intro h other writes
  have hold : Holds h writes := holds_edited edits
  refine ⟨h.keyed, hold.get?_eq, hold.contains_iff, hold.size_eq, fun entries => ⟨?listed, ?lists⟩,
    h.merge_merge other, h.get?_merge other⟩
  case listed => exact fun hlists => hlists.unique hold.lists
  case lists =>
    rintro rfl
    exact hold.lists

/-- A name that was overwritten keeps its place and takes the new spelling. One that was removed comes back last. -/
example : (edited [.insert "A" "1", .insert "B" "2", .insert "C" "3", .insert "b" "4", .remove "a", .insert "a" "5",
    .merge (edited [.insert "c" "6", .insert "D" "7"])]).toList = [("b", "4"), ("c", "6"), ("a", "5"), ("D", "7")] := by
  cbv

end RequestLang.Headers
