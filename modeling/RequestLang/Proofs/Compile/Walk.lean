import Mathlib
import RequestLang.Proofs.Compile.Ancestry

/-! How the walk from a request over its bases ends: at a request without a base, at a base that no
request goes by, or at a base that has been passed. One of the three happens, whatever the bases are. -/
namespace RequestLang.Target
variable {requests : List Request}

/-- The request at a place names a base. -/
def HasBase (requests : List Request) (i : Nat) (base : String) : Prop :=
  ∃ q, requests[i]? = some q ∧ q.base = some base

/-- The request at a place has no base. -/
def IsRoot (requests : List Request) (i : Nat) : Prop := ∃ q, requests[i]? = some q ∧ q.base = none

/-- The base of one request is the first request that is shown under the name it gives. -/
def Extends (requests : List Request) (i j : Nat) : Prop := ∃ base, HasBase requests i base ∧ First requests base j

/-- Places passed on the way from `start`, where each extends the next one and none comes twice. -/
structure Route (requests : List Request) (start : Nat) (places : List Nat) : Prop where
  head : places.head? = some start
  linked : places.IsChain (Extends requests)
  distinct : places.Nodup

/-- What a route amounts to where it can go no further. -/
inductive Halts (requests : List Request) (places : List Nat) : Except Failure (List Nat) → Prop
  | root {last : Nat} (hlast : places.getLast? = some last) (hroot : IsRoot requests last) :
    Halts requests places (.ok places)
  | undefined {last : Nat} {base : String} (hlast : places.getLast? = some last) (hbase : HasBase requests last base)
    (hnone : ∀ i (q : Request), requests[i]? = some q → q.displayName i ≠ base) :
    Halts requests places (.error (.undefinedBase (nameAt requests last) base))
  | circular {last next : Nat} {base : String} (hlast : places.getLast? = some last)
    (hbase : HasBase requests last base) (hnext : First requests base next) (hpassed : next ∈ places) :
    Halts requests places (.error (.circularBase (places.map (nameAt requests) ++ [base])))

/-- The walk as it goes on by itself, with nothing that bounds its steps: what it ends with from a
place, the places passed before with the last one first. -/
inductive Ends (requests : List Request) : List Nat → Nat → Except Failure (List Nat) → Prop
  | root {walked : List Nat} {current : Nat} (hroot : IsRoot requests current) :
    Ends requests walked current (.ok (current :: walked).reverse)
  | undefined {walked : List Nat} {current : Nat} {base : String} (hbase : HasBase requests current base)
    (hfind : find? requests base = none) :
    Ends requests walked current (.error (.undefinedBase (nameAt requests current) base))
  | circular {walked : List Nat} {current next : Nat} {base : String} (hbase : HasBase requests current base)
    (hfind : find? requests base = some next) (hpassed : next ∈ current :: walked) :
    Ends requests walked current
      (.error (.circularBase ((current :: walked).reverse.map (nameAt requests) ++ [base])))
  | step {walked : List Nat} {current next : Nat} {base : String} {outcome : Except Failure (List Nat)}
    (hbase : HasBase requests current base) (hfind : find? requests base = some next)
    (hnew : next ∉ current :: walked) (hrest : Ends requests (current :: walked) next outcome) :
    Ends requests walked current outcome

variable {current start index : Nat} {walked places : List Nat} {outcome : Except Failure (List Nat)}

theorem HasBase.unique {i : Nat} {base base' : String} (h : HasBase requests i base) (h' : HasBase requests i base') :
    base = base' := by
  obtain ⟨q, hq, hbase⟩ := h
  obtain ⟨q', hq', hbase'⟩ := h'
  cases hq.symm.trans hq'
  exact Option.some_inj.mp (hbase.symm.trans hbase')

theorem HasBase.not_isRoot {i : Nat} {base : String} (h : HasBase requests i base) : ¬IsRoot requests i := by
  rintro ⟨q', hq', hnone⟩
  obtain ⟨q, hq, hbase⟩ := h
  cases hq.symm.trans hq'
  rw [hbase] at hnone
  contradiction

/-- The bounded walk ends as the one without a bound: the bound is never met. -/
theorem ends_walk {n : Nat} (hfuel : walked.length + n = requests.length) (hnodup : (current :: walked).Nodup)
    (hlt : ∀ i ∈ current :: walked, i < requests.length) :
    Ends requests walked current (walk requests n walked current) := by
  induction n generalizing walked current with
  | zero =>
    have := length_le_of_nodup hnodup hlt
    rw [List.length_cons] at this
    omega
  | succ n ih =>
    have hplace : current < requests.length := hlt current List.mem_cons_self
    have hcurrent : requests[current]? = some requests[current] := List.getElem?_eq_getElem hplace
    rw [walk, hcurrent, Option.bind_some]
    cases hbase : requests[current].base with
    | none => exact .root ⟨_, hcurrent, hbase⟩
    | some base =>
      have hnamed : HasBase requests current base := ⟨_, hcurrent, hbase⟩
      dsimp only
      cases hfind : find? requests base with
      | none => exact .undefined hnamed hfind
      | some next =>
        dsimp only
        split
        · rename_i hpassed
          exact .circular hnamed hfind (List.contains_iff_mem.mp hpassed)
        · rename_i hnew
          rw [List.contains_iff_mem] at hnew
          refine .step hnamed hfind hnew (ih ?_ (List.nodup_cons.mpr ⟨hnew, hnodup⟩) ?_)
          · rw [List.length_cons]
            omega
          · exact List.forall_mem_cons.mpr ⟨lt_of_find? hfind, hlt⟩

theorem Ends.unique {outcome' : Except Failure (List Nat)} (h : Ends requests walked current outcome)
    (h' : Ends requests walked current outcome') : outcome = outcome' := by
  induction h with
  | root hroot =>
    cases h' with
    | root => rfl
    | undefined hbase => exact absurd hroot hbase.not_isRoot
    | circular hbase => exact absurd hroot hbase.not_isRoot
    | step hbase => exact absurd hroot hbase.not_isRoot
  | undefined hbase hfind =>
    cases h' with
    | root hroot => exact absurd hroot hbase.not_isRoot
    | undefined hbase' => rw [hbase.unique hbase']
    | circular hbase' hfind' | step hbase' hfind' =>
      rw [hbase.unique hbase', hfind'] at hfind
      contradiction
  | circular hbase hfind hpassed =>
    cases h' with
    | root hroot => exact absurd hroot hbase.not_isRoot
    | undefined hbase' hfind' =>
      rw [hbase.unique hbase', hfind'] at hfind
      contradiction
    | circular hbase' => rw [hbase.unique hbase']
    | step hbase' hfind' hnew =>
      rw [hbase.unique hbase', hfind'] at hfind
      cases hfind
      exact absurd hpassed hnew
  | step hbase hfind hnew _ ih =>
    cases h' with
    | root hroot => exact absurd hroot hbase.not_isRoot
    | undefined hbase' hfind' =>
      rw [hbase.unique hbase', hfind'] at hfind
      contradiction
    | circular hbase' hfind' hpassed =>
      rw [hbase.unique hbase', hfind'] at hfind
      cases hfind
      exact absurd hpassed hnew
    | step hbase' hfind' hnew' hrest' =>
      rw [hbase.unique hbase', hfind'] at hfind
      cases hfind
      exact ih hrest'

theorem Route.append {last next : Nat} (h : Route requests start places) (hlast : places.getLast? = some last)
    (hlink : Extends requests last next) (hnew : next ∉ places) : Route requests start (places ++ [next]) where
  head := by
    obtain ⟨first, rest, rfl⟩ := List.exists_cons_of_ne_nil (List.ne_nil_of_mem (List.mem_of_getLast? hlast))
    exact h.head
  linked := by
    rw [List.isChain_append]
    refine ⟨h.linked, List.isChain_singleton next, fun i hi j hj => ?_⟩
    cases hlast.symm.trans hi
    cases hj
    exact hlink
  distinct := by
    rw [← List.concat_eq_append, List.nodup_concat]
    exact ⟨hnew, h.distinct⟩

theorem Route.singleton (requests : List Request) (start : Nat) : Route requests start [start] :=
  ⟨rfl, List.isChain_singleton start, List.nodup_singleton start⟩

/-- Where the walk ends there is a route that halts. -/
theorem Ends.exists_route (h : Ends requests walked current outcome)
    (hroute : Route requests start (current :: walked).reverse) :
    ∃ places, Route requests start places ∧ Halts requests places outcome := by
  have hlast (current : Nat) (walked : List Nat) : (current :: walked).reverse.getLast? = some current := by simp
  induction h with
  | root hroot => exact ⟨_, hroute, .root (hlast _ _) hroot⟩
  | undefined hbase hfind => exact ⟨_, hroute, .undefined (hlast _ _) hbase (find?_eq_none_iff.mp hfind)⟩
  | circular hbase hfind hpassed =>
    exact ⟨_, hroute, .circular (hlast _ _) hbase (find?_eq_some_iff_first.mp hfind) (List.mem_reverse.mpr hpassed)⟩
  | step hbase hfind hnew _ ih =>
    refine ih ?_
    rw [List.reverse_cons]
    exact hroute.append (hlast _ _) ⟨_, hbase, find?_eq_some_iff_first.mp hfind⟩
      (List.mem_reverse.not.mpr hnew)

/-- The walk follows a route that halts to its end. -/
theorem Halts.ends {rest : List Nat} (hplaces : places = (current :: walked).reverse ++ rest)
    (hroute : Route requests start places) (h : Halts requests places outcome) :
    Ends requests walked current outcome := by
  -- `rest` is what the walk has before it
  induction rest generalizing walked current with
  | nil =>
    rw [List.append_nil] at hplaces
    have hcurrent {last : Nat} (hlast : places.getLast? = some last) : last = current := by
      simpa [hplaces, eq_comm] using hlast
    cases h with
    | root hlast hroot =>
      obtain rfl := hcurrent hlast
      rw [hplaces]
      exact .root hroot
    | undefined hlast hbase hnone =>
      obtain rfl := hcurrent hlast
      exact .undefined hbase (find?_eq_none_iff.mpr hnone)
    | circular hlast hbase hnext hpassed =>
      obtain rfl := hcurrent hlast
      rw [hplaces] at hpassed ⊢
      exact .circular hbase (find?_eq_some_iff_first.mpr hnext) (List.mem_reverse.mp hpassed)
  | cons next rest ih =>
    have hlinked := hroute.linked
    have hdistinct := hroute.distinct
    rw [hplaces, List.isChain_append] at hlinked
    rw [hplaces, List.nodup_append] at hdistinct
    obtain ⟨base, hbase, hnext⟩ := hlinked.2.2 current (by simp) next rfl
    have hnew : next ∉ current :: walked := fun hmem =>
      hdistinct.2.2 next (List.mem_reverse.mpr hmem) next List.mem_cons_self rfl
    refine .step hbase (find?_eq_some_iff_first.mpr hnext) hnew (ih ?_)
    rw [hplaces, List.reverse_cons (a := next), List.append_assoc, List.singleton_append]

theorem Extends.lt {i j : Nat} (h : Extends requests i j) : j < requests.length := by
  obtain ⟨-, -, ⟨q, hq, -⟩, -⟩ := h
  exact (List.getElem?_eq_some_iff.mp hq).1

/-- A route is no longer than the list of requests. -/
theorem Route.length_le (h : Route requests start places) (hstart : start < requests.length) :
    places.length ≤ requests.length := by
  refine length_le_of_nodup h.distinct (h.linked.induction (· < requests.length) _ (fun _ _ hlink _ => hlink.lt) ?_)
  intro hne
  have hhead : places.head hne = start := by simpa [List.head?_eq_some_head hne] using h.head
  exact hhead ▸ hstart

theorem ends_chain (hindex : index < requests.length) : Ends requests [] index (chain requests index) :=
  ends_walk (Nat.zero_add _) (List.nodup_singleton index) (by simpa using hindex)

theorem ends_iff (hindex : index < requests.length) :
    Ends requests [] index outcome ↔ chain requests index = outcome :=
  ⟨fun h => (ends_chain hindex).unique h, fun h => h ▸ ends_chain hindex⟩

/-- What a chain comes to is what some route halts with. -/
theorem chain_eq_iff (hindex : index < requests.length) :
    chain requests index = outcome ↔ ∃ places, Route requests index places ∧ Halts requests places outcome := by
  rw [← ends_iff hindex]
  constructor
  · exact fun h => h.exists_route (.singleton requests index)
  · rintro ⟨places, hroute, hhalts⟩
    have hhead := hroute.head
    obtain ⟨rest, rfl⟩ := List.head?_eq_some_iff.mp hhead
    exact hhalts.ends rfl hroute

/-- Where the walk from a request ends, and with what. It always ends: a request that comes twice is
noticed, and there are no more places than requests. It succeeds exactly where the bases lead to a
request without one before a request repeats, and then gives the route. It fails exactly where they
lead to a base that no request goes by, or back to a request that has been passed. -/
theorem chain_outcome (hindex : index < requests.length) :
    (∀ outcome, Ends requests [] index outcome ↔ chain requests index = outcome) ∧
    (∀ places, Route requests index places → places.length ≤ requests.length) ∧
    (∀ places, chain requests index = .ok places ↔
      Route requests index places ∧ ∃ last, places.getLast? = some last ∧ IsRoot requests last) ∧
    (∀ name base, chain requests index = .error (.undefinedBase name base) ↔
      ∃ places last, Route requests index places ∧ places.getLast? = some last ∧ HasBase requests last base ∧
        nameAt requests last = name ∧ ∀ i (q : Request), requests[i]? = some q → q.displayName i ≠ base) ∧
    (∀ names, chain requests index = .error (.circularBase names) ↔
      ∃ places last base next, Route requests index places ∧ places.getLast? = some last ∧
        HasBase requests last base ∧ First requests base next ∧ next ∈ places ∧
        names = places.map (nameAt requests) ++ [base]) ∧
    ∀ f, chain requests index = .error f →
      (∃ name base, f = .undefinedBase name base) ∨ ∃ names, f = .circularBase names := by
  refine ⟨fun _ => ends_iff hindex, fun _ h => h.length_le hindex, fun places => ?root, fun name base => ?undefined,
    fun names => ?circular, fun f hf => ?failed⟩
  case root =>
    rw [chain_eq_iff hindex]
    constructor
    · rintro ⟨_, h, hhalts⟩
      cases hhalts with
      | root hlast hroot => exact ⟨h, _, hlast, hroot⟩
    · rintro ⟨h, last, hlast, hroot⟩
      exact ⟨places, h, .root hlast hroot⟩
  case undefined =>
    rw [chain_eq_iff hindex]
    constructor
    · rintro ⟨places, h, hhalts⟩
      cases hhalts with
      | undefined hlast hbase hnone => exact ⟨places, _, h, hlast, hbase, rfl, hnone⟩
    · rintro ⟨places, last, h, hlast, hbase, rfl, hnone⟩
      exact ⟨places, h, .undefined hlast hbase hnone⟩
  case circular =>
    rw [chain_eq_iff hindex]
    constructor
    · rintro ⟨places, h, hhalts⟩
      cases hhalts with
      | circular hlast hbase hnext hpassed => exact ⟨places, _, _, _, h, hlast, hbase, hnext, hpassed, rfl⟩
    · rintro ⟨places, last, base, next, h, hlast, hbase, hnext, hpassed, rfl⟩
      exact ⟨places, h, .circular hlast hbase hnext hpassed⟩
  case failed =>
    obtain ⟨places, -, hhalts⟩ := (chain_eq_iff hindex).mp hf
    cases hhalts with
    | undefined => exact .inl ⟨_, _, rfl⟩
    | circular => exact .inr ⟨_, rfl⟩

/-- A request whose bases go in a circle that it is not part of. One of them goes by its number. -/
theorem chain_outcome_circle :
    let requests : List Request :=
      [{ name := some "a", base := some "2" }, { base := some "c" }, { name := some "c", base := some "2" }]
    0 < requests.length ∧ chain requests 0 = .error (.circularBase ["a", "2", "c", "2"]) ∧
      ∃ places last base next, Route requests 0 places ∧ places.getLast? = some last ∧
        HasBase requests last base ∧ First requests base next ∧ next ∈ places ∧
        ["a", "2", "c", "2"] = places.map (nameAt requests) ++ [base] := by
  intro requests
  have hlength : 0 < requests.length := by decide
  have hchain : chain requests 0 = .error (.circularBase ["a", "2", "c", "2"]) := by decide +kernel
  obtain ⟨-, -, -, -, hcircle, -⟩ := chain_outcome hlength
  exact ⟨hlength, hchain, (hcircle _).mp hchain⟩

end RequestLang.Target
