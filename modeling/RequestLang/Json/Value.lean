/-! JSON values. -/
namespace RequestLang

/-- Integers within sixty-four bits are kept exactly, every other number as a float. -/
inductive Json.Number where
  | int (i : Int)
  | float (x : Float)
  deriving BEq, Repr

/-- Members keep their order. -/
inductive Json where
  | null
  | bool (b : Bool)
  | number (n : Json.Number)
  | str (s : String)
  | arr (items : List Json)
  | obj (members : List (String × Json))
  deriving Repr

namespace Json

def int (i : Int) : Json := .number (.int i)

def nat (n : Nat) : Json := .number (.int n)

instance : Inhabited Json := ⟨.null⟩

end Json

/-- Sets the value of a key. A key that is there already keeps its place. -/
def setKey {α : Type} (key : String) (value : α) : List (String × α) → List (String × α)
  | [] => [(key, value)]
  | (k, v) :: rest => if k = key then (k, value) :: rest else (k, v) :: setKey key value rest

def getKey? {α : Type} (key : String) (entries : List (String × α)) : Option α :=
  (entries.find? (·.1 == key)).map Prod.snd

section
variable {α : Type}

theorem keys_setKey (key : String) (value : α) (entries : List (String × α)) :
    (setKey key value entries).map Prod.fst =
      if key ∈ entries.map Prod.fst then entries.map Prod.fst else entries.map Prod.fst ++ [key] := by
  induction entries with
  | nil => rfl
  | cons e rest ih =>
    rw [setKey]
    by_cases h : e.1 = key
    · simp [h]
    · rw [if_neg h, List.map_cons, ih]
      by_cases hrest : key ∈ rest.map Prod.fst
      · rw [if_pos hrest, List.map_cons, if_pos (List.mem_cons_of_mem _ hrest)]
      · rw [if_neg hrest, List.map_cons, if_neg (by simpa [Ne.symm h] using hrest), List.cons_append]

theorem nodup_keys_setKey (key : String) (value : α) {entries : List (String × α)}
    (h : (entries.map Prod.fst).Nodup) : ((setKey key value entries).map Prod.fst).Nodup := by
  rw [keys_setKey]
  split
  · exact h
  · rename_i hkey
    refine List.nodup_append.mpr ⟨h, by simp, fun k hk k' hk' heq => hkey ?_⟩
    rwa [← List.mem_singleton.mp hk', ← heq]

theorem mem_of_mem_setKey {key : String} {value : α} {entries : List (String × α)} {e : String × α}
    (h : e ∈ setKey key value entries) : e = (key, value) ∨ e ∈ entries := by
  induction entries with
  | nil => exact .inl (List.mem_singleton.mp h)
  | cons first rest ih =>
    rw [setKey] at h
    split at h
    · rename_i hkey
      rcases List.mem_cons.mp h with h | h
      · exact .inl (by rw [h, hkey])
      · exact .inr (List.mem_cons_of_mem _ h)
    · rcases List.mem_cons.mp h with h | h
      · exact .inr (by rw [h]; exact List.mem_cons_self)
      · exact (ih h).imp id (List.mem_cons_of_mem _)

theorem getKey?_setKey (k key : String) (value : α) (entries : List (String × α)) :
    getKey? k (setKey key value entries) = if k = key then some value else getKey? k entries := by
  induction entries with
  | nil =>
    by_cases h : k = key
    · simp [setKey, getKey?, h]
    · simp [setKey, getKey?, h, Ne.symm h]
  | cons e rest ih =>
    obtain ⟨k', v'⟩ := e
    unfold setKey
    by_cases hk : k' = key
    · subst hk
      by_cases h : k = k'
      · simp [getKey?, h]
      · simp [getKey?, h, Ne.symm h]
    · by_cases h : k' = k
      · subst h
        simp [getKey?, hk]
      · rw [if_neg hk]
        have hstep : ∀ l : List (String × α), getKey? k ((k', v') :: l) = getKey? k l := by
          intro l
          simp [getKey?, h]
        rw [hstep, hstep, ih]

end

namespace Json

def get? (key : String) : Json → Option Json
  | .obj members => getKey? key members
  | _ => none

def string? : Json → Option String
  | .str s => some s
  | _ => none

def bool? : Json → Option Bool
  | .bool b => some b
  | _ => none

def items? : Json → Option (List Json)
  | .arr items => some items
  | _ => none

def members? : Json → Option (List (String × Json))
  | .obj members => some members
  | _ => none

/-- The value of a key that comes exactly once. -/
def sole? (key : String) (members : List (String × Json)) : Option Json :=
  match members.filter (·.1 == key) with
  | [(_, v)] => some v
  | _ => none

/-- The value of a key that comes once at most, and that may be null where there is none. -/
def atMostOne? (key : String) (members : List (String × Json)) : Option (Option Json) :=
  match members.filter (·.1 == key) with
  | [] | [(_, .null)] => some none
  | [(_, v)] => some (some v)
  | _ => none

end Json
end RequestLang
