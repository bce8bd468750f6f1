import Mathlib
import RequestLang.Proofs.Property.Lookup

/-! What a request file says about a property, once its texts have been searched for defaults and its
variables have been declared, in whatever order. A variable counts, the latest one of its name. Without
one the first default is kept, until another one differs from it. -/
namespace RequestLang

/-- A default as it is expanded where it is met, and whether its value was drawn. -/
structure Default where
  value : String
  drawn : Bool
  deriving DecidableEq, Repr

namespace Entry
variable {e : Entry} {v : String}

/-- What is known after some defaults, one after another. -/
def meetAll (e : Entry) (ds : List Default) : Entry :=
  ds.foldl (fun e d => Resolver.Entry.meet e d.value d.drawn) e

theorem meetAll_cons (e : Entry) (d : Default) (ds : List Default) :
    e.meetAll (d :: ds) = (Resolver.Entry.meet e d.value d.drawn).meetAll ds := rfl

theorem meetAll_append (e : Entry) (ds more : List Default) : e.meetAll (ds ++ more) = (e.meetAll ds).meetAll more :=
  List.foldl_append

theorem meetAll_of_declared (h : e.declared) (ds : List Default) : e.meetAll ds = e := by
  induction ds with
  | nil => rfl
  | cons d ds ih => rwa [meetAll_cons, Resolver.Entry.meet, if_pos h]

theorem meetAll_conflict (declared : Bool) (ds : List Default) :
    (⟨.conflict, declared⟩ : Entry).meetAll ds = ⟨.conflict, declared⟩ := by
  induction ds with
  | nil => rfl
  | cons d ds ih => cases declared <;> exact ih

/-- The value stays until a default comes that was not drawn and differs from it. -/
theorem meetAll_value (v : String) (ds : List Default) :
    (⟨.value v, false⟩ : Entry).meetAll ds =
      ⟨if ∃ d ∈ ds, d.drawn = false ∧ d.value ≠ v then .conflict else .value v, false⟩ := by
  induction ds with
  | nil => simp [meetAll]
  | cons d ds ih =>
    rw [meetAll_cons]
    by_cases hd : d.drawn = false ∧ d.value ≠ v
    · have hmeet : Resolver.Entry.meet ⟨.value v, false⟩ d.value d.drawn = ⟨.conflict, false⟩ := by
        simp [Resolver.Entry.meet, hd.1, Ne.symm hd.2]
      rw [hmeet, if_pos ⟨d, List.mem_cons_self, hd⟩]
      exact meetAll_conflict false ds
    · have hmeet : Resolver.Entry.meet ⟨.value v, false⟩ d.value d.drawn = ⟨.value v, false⟩ := by
        rw [not_and_or, ne_eq, not_not, Bool.not_eq_false] at hd
        rcases hd with hdrawn | hsame
        · simp [Resolver.Entry.meet, hdrawn]
        · simp [Resolver.Entry.meet, hsame]
      rw [hmeet, ih]
      simp [hd]

/-- No default takes the place of a value that differs from it. -/
theorem slot_meetAll_of_value (h : e.slot = .value v) (ds : List Default) :
    (e.meetAll ds).slot = .value v ∨ (e.meetAll ds).slot = .conflict := by
  obtain ⟨slot, declared⟩ := e
  obtain rfl : slot = .value v := h
  cases declared with
  | true => exact .inl (congrArg Entry.slot (meetAll_of_declared rfl ds))
  | false =>
    rw [meetAll_value]
    dsimp only
    split
    · exact .inr rfl
    · exact .inl rfl

theorem slot_meetAll_of_conflict (h : e.slot = .conflict) (ds : List Default) : (e.meetAll ds).slot = .conflict := by
  obtain ⟨slot, declared⟩ := e
  obtain rfl : slot = .conflict := h
  rw [meetAll_conflict]

end Entry

namespace Resolver
variable {r : Resolver} {key : String}

/-- What the request file says about a name. -/
def entryOf (r : Resolver) (key : String) : Entry := (getKey? key r.inFile).getD ⟨.unset, false⟩

theorem slotOf_eq (r : Resolver) (key : String) : r.slotOf key = (r.entryOf key).slot := by
  unfold slotOf entryOf
  cases getKey? key r.inFile <;> rfl

/-- The default that the body of a placeholder gives for a name, expanded by what is known. -/
def defaultOf? (r : Resolver) (key : String) (body : List Char) : Option Default :=
  if (Placeholder.ofBody body).key = key then
    (Placeholder.ofBody body).fallback.map fun raw => ⟨(r.expandDefault raw).1, (r.expandDefault raw).2.1⟩
  else none

theorem key_of_defaultOf? {d : Default} (h : r.defaultOf? key body = some d) : (Placeholder.ofBody body).key = key := by
  by_contra hne
  rw [defaultOf?, if_neg hne] at h
  cases h

theorem entryOf_mineBody (r : Resolver) (key : String) (body : List Char) :
    (r.mineBody body).entryOf key = (r.entryOf key).meetAll (r.defaultOf? key body).toList := by
  unfold defaultOf? mineBody
  dsimp only
  cases hfallback : (Placeholder.ofBody body).fallback with
  | none =>
    rw [Option.map_none, ite_self]
    cases hget : getKey? (Placeholder.ofBody body).key r.inFile with
    | some e => rfl
    | none =>
      simp only [entryOf, getKey?_setKey, Option.toList_none, Entry.meetAll, List.foldl_nil]
      split
      · rename_i hkey
        rw [hkey, hget]
        rfl
      · rfl
  | some raw =>
    obtain ⟨d, hd⟩ := expandDefault_frame r raw
    simp only [hd, entryOf, getKey?_setKey, Option.map_some]
    by_cases hkey : (Placeholder.ofBody body).key = key
    · rw [if_pos hkey, if_pos hkey.symm, hkey]
      rfl
    · rw [if_neg hkey, if_neg (Ne.symm hkey)]
      rfl

/-- The defaults for a name that some bodies give, each expanded where it is met. -/
def defaultsIn (key : String) : Resolver → List (List Char) → List Default
  | _, [] => []
  | r, body :: rest => (r.defaultOf? key body).toList ++ defaultsIn key (r.mineBody body) rest

theorem defaultsIn_append (bodies more : List (List Char)) :
    defaultsIn key r (bodies ++ more) = defaultsIn key r bodies ++ defaultsIn key (bodies.foldl mineBody r) more := by
  induction bodies generalizing r with
  | nil => rfl
  | cons body rest ih => rw [List.cons_append, defaultsIn, ih, defaultsIn, List.append_assoc, List.foldl_cons]

theorem entryOf_foldl_mineBody (r : Resolver) (key : String) (bodies : List (List Char)) :
    (bodies.foldl mineBody r).entryOf key = (r.entryOf key).meetAll (defaultsIn key r bodies) := by
  induction bodies generalizing r with
  | nil => rfl
  | cons body rest ih => rw [List.foldl_cons, ih, entryOf_mineBody, defaultsIn, Entry.meetAll_append]

theorem slotOf_foldl_mineBody (r : Resolver) (key : String) (bodies : List (List Char)) :
    (bodies.foldl mineBody r).slotOf key = ((r.entryOf key).meetAll (defaultsIn key r bodies)).slot := by
  rw [slotOf_eq, entryOf_foldl_mineBody]

/-- The bodies of a text that are looked at for defaults. -/
def minedBodies (text : String) : List (List Char) := (Segment.bodies text.toList).filter (!·.isEmpty)

theorem entryOf_mine (r : Resolver) (key text : String) :
    (r.mine text).entryOf key = (r.entryOf key).meetAll (defaultsIn key r (minedBodies text)) :=
  entryOf_foldl_mineBody r key (minedBodies text)

theorem entryOf_declare (r : Resolver) (key name value : String) :
    (r.declare name value true).entryOf key = if name = key then ⟨.value value, true⟩ else r.entryOf key := by
  simp only [declare, Bool.not_true, Bool.false_and, Bool.false_eq_true, if_false, entryOf, getKey?_setKey]
  by_cases h : name = key
  · rw [if_pos h, if_pos h.symm]
    rfl
  · rw [if_neg h, if_neg (Ne.symm h)]

end Resolver

namespace Change

/-- The value that a declaration gives to a name. -/
def declares? (key : String) : Change → Option String
  | .variable name value _ => if name = key then some value else none
  | _ => none

/-- A declaration counts whatever is there. -/
def replaces : Change → Bool
  | .variable _ _ replaces => replaces
  | _ => true

end Change

namespace Resolver
variable {r : Resolver} {key : String} {changes : List Change}

/-- The defaults for a name that a change brings, each expanded where it is met. -/
def defaultsBy (r : Resolver) (key : String) : Change → List Default
  | .defaults text => defaultsIn key r (minedBodies text)
  | _ => []

/-- The defaults for a name that a run of changes brings. -/
def defaultsMet (key : String) : Resolver → List Change → List Default
  | _, [] => []
  | r, c :: rest => r.defaultsBy key c ++ defaultsMet key (r.change c) rest

/-- What one change does to what is known about a name. -/
theorem entryOf_change {c : Change} (hc : c.replaces) (r : Resolver) (key : String) :
    (r.change c).entryOf key =
      match c.declares? key with
      | some v => ⟨.value v, true⟩
      | none => (r.entryOf key).meetAll (r.defaultsBy key c) := by
  cases c with
  | «variable» name value replaces =>
    obtain rfl : replaces = true := hc
    rw [change, entryOf_declare, Change.declares?]
    split <;> rfl
  | defaults text => exact entryOf_mine r key text
  | _ => rfl

/-- What a run of changes does: the latest declaration counts, and without one the defaults do. -/
theorem entryOf_run (hreplaces : ∀ c ∈ changes, c.replaces) (r : Resolver) (key : String) :
    (changes.foldl change r).entryOf key =
      match (changes.filterMap (Change.declares? key)).getLast? with
      | some v => ⟨.value v, true⟩
      | none => (r.entryOf key).meetAll (defaultsMet key r changes) := by
  induction changes generalizing r with
  | nil => rfl
  | cons c rest ih =>
    have hstep := entryOf_change (hreplaces c List.mem_cons_self) r key
    rw [List.foldl_cons, ih (fun d hd => hreplaces d (List.mem_cons_of_mem c hd)), List.filterMap_cons]
    cases hlast : (rest.filterMap (Change.declares? key)).getLast? with
    | some v =>
      cases c.declares? key with
      | some w => simp [List.getLast?_cons, hlast]
      | none => simp [hlast]
    | none =>
      have hnil : rest.filterMap (Change.declares? key) = [] := List.getLast?_eq_none_iff.mp hlast
      dsimp only
      rw [hstep, hnil, defaultsMet, Entry.meetAll_append]
      cases c.declares? key with
      | some w => exact Entry.meetAll_of_declared rfl _
      | none => rfl

theorem defaultOf?_eq_none_iff {body : List Char} : r.defaultOf? key body = none ↔
    ((Placeholder.ofBody body).key = key → (Placeholder.ofBody body).fallback = none) := by
  rw [defaultOf?]
  split
  · rename_i hkey
    simp [hkey]
  · rename_i hkey
    simp [hkey]

theorem defaultsIn_eq_nil_iff {bodies : List (List Char)} : defaultsIn key r bodies = [] ↔
    ∀ body ∈ bodies, (Placeholder.ofBody body).key = key → (Placeholder.ofBody body).fallback = none := by
  induction bodies generalizing r with
  | nil => simp [defaultsIn]
  | cons body rest ih =>
    rw [defaultsIn, List.append_eq_nil_iff, ih, Option.toList_eq_nil_iff, defaultOf?_eq_none_iff, List.forall_mem_cons]

/-- A run of changes brings no default for a name if no placeholder of its texts gives one. -/
theorem defaultsMet_eq_nil_iff : defaultsMet key r changes = [] ↔
    ∀ text, .defaults text ∈ changes → ∀ body ∈ minedBodies text,
      (Placeholder.ofBody body).key = key → (Placeholder.ofBody body).fallback = none := by
  induction changes generalizing r with
  | nil => simp [defaultsMet]
  | cons c rest ih =>
    rw [defaultsMet, List.append_eq_nil_iff, ih]
    cases c with
    | defaults text => simp [defaultsBy, defaultsIn_eq_nil_iff, or_imp, forall_and]
    | _ => simp [defaultsBy]

/-- What a request file says about a name that it said nothing about before, after any run of changes
whose declarations replace what is there. The latest declaration counts. Without one nothing is said
unless a default was met; the first default is kept until one is met that was not drawn and differs
from it, and from then on there is a conflict. No later default takes the place of a value. -/
theorem slotOf_run (hfresh : getKey? key r.inFile = none) (hreplaces : ∀ c ∈ changes, c.replaces) :
    let declared := changes.filterMap (Change.declares? key)
    let met := defaultsMet key r changes
    let slot := (changes.foldl change r).slotOf key
    (∀ v, declared.getLast? = some v → slot = .value v) ∧
    (declared = [] →
      (slot = .unset ↔ ∀ text, .defaults text ∈ changes → ∀ body ∈ minedBodies text,
        (Placeholder.ofBody body).key = key → (Placeholder.ofBody body).fallback = none) ∧
      (slot = .unset ↔ met = []) ∧
      ∀ first later, met = first :: later →
        (slot = .conflict ↔ ∃ d ∈ later, d.drawn = false ∧ d.value ≠ first.value) ∧
        (slot ≠ .conflict → slot = .value first.value)) ∧
    ∀ earlier later, changes = earlier ++ later → later.filterMap (Change.declares? key) = [] →
      (∀ v, (earlier.foldl change r).slotOf key = .value v → slot = .value v ∨ slot = .conflict) ∧
      ((earlier.foldl change r).slotOf key = .conflict → slot = .conflict) := by
  intro declared met slot
  have hslot : slot = ((changes.foldl change r).entryOf key).slot := slotOf_eq _ key
  have hrun := entryOf_run hreplaces r key
  refine ⟨fun v hv => ?declared, fun hnone => ?met, fun earlier later hsplit hlater => ?kept⟩
  case declared =>
    rw [show (changes.filterMap (Change.declares? key)).getLast? = some v from hv] at hrun
    rw [hslot, hrun]
  case met =>
    have hentry : r.entryOf key = ⟨.unset, false⟩ := by rw [entryOf, hfresh, Option.getD_none]
    rw [show changes.filterMap (Change.declares? key) = [] from hnone, hentry] at hrun
    have hmet : slot = (Entry.meetAll ⟨.unset, false⟩ met).slot := hslot.trans (congrArg Entry.slot hrun)
    have hfirst (first : Default) (later : List Default) (h : met = first :: later) :
        slot = if ∃ d ∈ later, d.drawn = false ∧ d.value ≠ first.value then .conflict else .value first.value := by
      rw [hmet, h, Entry.meetAll_cons]
      exact congrArg Entry.slot (Entry.meetAll_value first.value later)
    have hunset : slot = .unset ↔ met = [] := by
      cases hcases : met with
      | nil =>
        rw [hcases] at hmet
        exact iff_of_true hmet rfl
      | cons first later =>
        rw [hfirst first later hcases]
        split <;> simp
    refine ⟨hunset.trans defaultsMet_eq_nil_iff, hunset, fun first later h => ?_⟩
    rw [hfirst first later h]
    split
    · rename_i hdiffers
      exact ⟨iff_of_true rfl hdiffers, fun hne => absurd rfl hne⟩
    · rename_i hsame
      exact ⟨iff_of_false nofun hsame, fun _ => rfl⟩
  case kept =>
    have hrest := entryOf_run (fun c hc => hreplaces c (hsplit ▸ List.mem_append_right earlier hc))
      (earlier.foldl change r) key
    rw [← List.foldl_append, ← hsplit, hlater] at hrest
    have hkept : slot = (((earlier.foldl change r).entryOf key).meetAll
        (defaultsMet key (earlier.foldl change r) later)).slot := hslot.trans (congrArg Entry.slot hrest)
    rw [hkept, slotOf_eq]
    exact ⟨fun v hv => Entry.slot_meetAll_of_value hv _, fun hv => Entry.slot_meetAll_of_conflict hv _⟩

/-- A template whose marker is declared anew, and a drawn default between its two values. -/
theorem slotOf_run_template :
    let r : Resolver := { surroundings := ⟨fun _ => none, fun _ => none, 0⟩, draws := ⟨id, 0⟩ }
    let template := "\x7b\x7ba=p\"\x7bb\x7d\"\x7d\x7d"
    let changes : List Change := [.variable "b" "1" true, .defaults template,
      .defaults "\x7b\x7ba=$randomInt:2\x7d\x7d", .variable "b" "2" true, .defaults template]
    getKey? "a" r.inFile = none ∧ getKey? "b" r.inFile = none ∧ (∀ c ∈ changes, c.replaces) ∧
      defaultsMet "a" r changes = [⟨"1", false⟩, ⟨"11", true⟩, ⟨"2", false⟩] ∧
      (changes.foldl change r).slotOf "a" = .conflict ∧ (changes.foldl change r).slotOf "b" = .value "2" := by
  intro r template changes
  have hreplaces : ∀ c ∈ changes, c.replaces := by simp [changes, Change.replaces]
  have hmet : defaultsMet "a" r changes = [⟨"1", false⟩, ⟨"11", true⟩, ⟨"2", false⟩] := by decide +kernel
  have hfresh (name : String) : getKey? name r.inFile = none := rfl
  obtain ⟨-, hdefaults, -⟩ := slotOf_run (hfresh "a") hreplaces
  obtain ⟨hdeclared, -, -⟩ := slotOf_run (hfresh "b") hreplaces
  refine ⟨hfresh "a", hfresh "b", hreplaces, hmet, ?_, hdeclared "2" (by decide)⟩
  exact ((hdefaults (by decide)).2.2 _ _ hmet).1.mpr ⟨⟨"2", false⟩, by simp, rfl, by decide⟩

end Resolver
end RequestLang
