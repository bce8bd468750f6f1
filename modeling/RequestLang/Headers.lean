import RequestLang.Json.Value

/-! Header fields in order, under names whose case does not matter. -/
namespace RequestLang

/-- Fields as they were last written, each under the lower-case form of its name. -/
@[ext]
structure Headers where
  fields : List (String × (String × String))
  distinct : (fields.map Prod.fst).Nodup
  keyed : ∀ e ∈ fields, e.1 = e.2.1.toLower
  deriving DecidableEq, Repr

/-- Takes out what stands under a key. -/
def eraseKey {α : Type} (key : String) (entries : List (String × α)) : List (String × α) :=
  entries.filter (·.1 != key)

namespace Headers

instance : EmptyCollection Headers where
  emptyCollection := ⟨[], List.nodup_nil, fun _ he => absurd he List.not_mem_nil⟩

/-- Writing a field that is there keeps its place and takes the new spelling. -/
def insert (h : Headers) (name value : String) : Headers where
  fields := setKey name.toLower (name, value) h.fields
  distinct := nodup_keys_setKey _ _ h.distinct
  keyed e he := by
    rcases mem_of_mem_setKey he with rfl | hold
    · rfl
    · exact h.keyed e hold

def get? (h : Headers) (name : String) : Option String :=
  (getKey? name.toLower h.fields).map Prod.snd

def contains (h : Headers) (name : String) : Bool := (getKey? name.toLower h.fields).isSome

def erase (h : Headers) (name : String) : Headers where
  fields := eraseKey name.toLower h.fields
  distinct := h.distinct.sublist (List.filter_sublist.map _)
  keyed e he := h.keyed e (List.mem_filter.mp he).1

/-- Names and values as written, in order. -/
def toList (h : Headers) : List (String × String) := h.fields.map Prod.snd

def size (h : Headers) : Nat := h.fields.length

def isEmpty (h : Headers) : Bool := h.fields.isEmpty

/-- Writes the fields of `other` one after another. -/
def merge (h other : Headers) : Headers :=
  other.toList.foldl (fun h (name, value) => h.insert name value) h

def ofList (entries : List (String × String)) : Headers :=
  entries.foldl (fun h (name, value) => h.insert name value) {}

theorem get?_insert (h : Headers) (name value k : String) :
    (h.insert name value).get? k = if k.toLower = name.toLower then some value else h.get? k := by
  unfold get? insert
  rw [getKey?_setKey]
  split <;> rfl

end Headers
end RequestLang
