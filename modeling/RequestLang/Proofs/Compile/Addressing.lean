import Mathlib
import RequestLang.Proofs.Compile.Ancestry
import RequestLang.Proofs.Loading.Imports
import RequestLang.Proofs.Text.Search
import RequestLang.Proofs.Text.Word

/-! Requests as targets. Where no two requests go by the same, the name of a request leads to it
unless trimming changes the name or a number in range is read from it. -/
namespace RequestLang

namespace Text

theorem isBlank_of_isDigit {c : Char} (h : c.isDigit) : isBlank c = false := by
  have hrange : 48 ≤ c.toNat ∧ c.toNat ≤ 57 := by simpa [Char.isDigit, UInt32.le_iff_toNat_le] using h
  simp only [isBlank, Bool.or_eq_false_iff, Bool.and_eq_false_iff, decide_eq_false_iff_not, beq_eq_false_iff_ne]
  omega

theorem trim_toString (n : Nat) : trim (toString n) = toString n := by
  have hblank : ∀ c ∈ Nat.toDigits 10 n, isBlank c = false := fun c hc =>
    isBlank_of_isDigit (Nat.isDigit_of_mem_toDigits (by decide) (by decide) hc)
  rw [trim, Nat.toString_eq_ofList_toDigits, String.toList_ofList, trimChars,
    trimLeft_eq_self fun c hc => hblank c (List.mem_of_mem_head? hc),
    trimRight_eq_self fun c hc => hblank c (List.mem_of_mem_getLast? hc)]

end Text

namespace Target
variable {requests : List Request} {i : Nat} {name : String}

theorem displayName_mem_addresses (q : Request) (i : Nat) : q.displayName i ∈ Loading.addresses i q := by
  unfold Request.displayName Loading.addresses
  cases q.name <;> simp

/-- No two requests are shown under the same name. -/
theorem displayName_inj (hnames : Loading.checkNames requests = .ok ()) {j : Nat} {q r : Request}
    (hq : requests[i]? = some q) (hr : requests[j]? = some r) (h : q.displayName i = r.displayName j) : i = j := by
  have hunique := Loading.checkNames_eq_ok.mp hnames
  have hlength : (Loading.addressesFrom 0 requests).length = requests.length := by simp [Loading.addressesFrom]
  have happart {i j : Nat} {q r : Request} (hq : requests[i]? = some q) (hr : requests[j]? = some r) (hlt : i < j) :
      q.displayName i ≠ r.displayName j := by
    obtain ⟨hi, rfl⟩ := List.getElem?_eq_some_iff.mp hq
    obtain ⟨hj, rfl⟩ := List.getElem?_eq_some_iff.mp hr
    have hdisjoint := List.pairwise_iff_getElem.mp hunique i j (by omega) (by omega) hlt
    simp only [Loading.addressesFrom, List.getElem_map, List.getElem_zipIdx, Nat.zero_add] at hdisjoint
    exact fun heq => hdisjoint (displayName_mem_addresses _ i) (heq ▸ displayName_mem_addresses _ j)
  rcases lt_trichotomy i j with hlt | heq | hgt
  · exact absurd h (happart hq hr hlt)
  · exact heq
  · exact absurd h.symm (happart hr hq hgt)

/-- Looking a name up finds the one request that is shown under it. -/
theorem find?_eq_some_iff (hnames : Loading.checkNames requests = .ok ()) :
    find? requests name = some i ↔ ∃ q, requests[i]? = some q ∧ q.displayName i = name := by
  constructor
  · exact fun h => (find?_eq_some_iff_first.mp h).shown
  · rintro ⟨q, hq, rfl⟩
    have hfound : find? requests (q.displayName i) ≠ none := fun hnone => find?_eq_none_iff.mp hnone i q hq rfl
    obtain ⟨j, hj⟩ := Option.ne_none_iff_exists'.mp hfound
    obtain ⟨⟨r, hr, hname⟩, -⟩ := find?_eq_some_iff_first.mp hj
    rw [hj, displayName_inj hnames hq hr hname.symm]

/-- A name that leads to place `i`: the number of that place in any spelling, or a name without
blanks at its ends that spells no number in range. -/
def Leads (requests : List Request) (name : String) (i : Nat) : Prop :=
  Text.Spells (Text.trimChars name.toList) (i + 1) ∨
    Text.trim name = name ∧ ∀ n, 1 ≤ n → n ≤ requests.length → ¬Text.Spells (Text.trimChars name.toList) n

theorem named_trim_iff (hnames : Loading.checkNames requests = .ok ()) (hname : find? requests name = some i) :
    named requests (Text.trim name) = .ok i ↔ Text.trim name = name := by
  obtain ⟨q, hq, hshown⟩ := (find?_eq_some_iff hnames).mp hname
  rw [named]
  constructor
  · intro h
    split at h
    · rename_i j hfind
      cases h
      obtain ⟨r, hr, hrname⟩ := (find?_eq_some_iff hnames).mp hfind
      cases hq.symm.trans hr
      exact hrname.symm.trans hshown
    · contradiction
  · intro h
    rw [h, hname]

/-- The name of a request selects it exactly where it leads to its place. -/
theorem select_eq_ok_iff (hnames : Loading.checkNames requests = .ok ()) (hname : find? requests name = some i) :
    select requests name = .ok i ↔ Leads requests name i := by
  have hi : i < requests.length := lt_of_find? hname
  have hchars : (Text.trim name).toList = Text.trimChars name.toList := String.toList_ofList
  unfold select Leads
  dsimp only
  rw [hchars]
  cases hnumber : Text.natural? (Text.trimChars name.toList) with
  | none =>
    have hnot (n : Nat) : ¬Text.Spells (Text.trimChars name.toList) n := fun h => by
      rw [Text.natural?_eq_some_iff.mpr h] at hnumber
      contradiction
    simpa [hnot] using named_trim_iff hnames hname
  | some n =>
    have hspells (m : Nat) : Text.Spells (Text.trimChars name.toList) m ↔ n = m := by
      rw [← Text.natural?_eq_some_iff, hnumber, Option.some_inj]
    simp only [hspells]
    by_cases hrange : 1 ≤ n ∧ n ≤ requests.length
    · rw [if_pos hrange, Except.ok.injEq]
      constructor
      · exact fun h => .inl (by omega)
      · rintro (h | h)
        · omega
        · exact absurd rfl (h.2 n hrange.1 hrange.2)
    · rw [if_neg hrange, named_trim_iff hnames hname]
      constructor
      · exact fun h => .inr ⟨h, fun m hlow hhigh hm => hrange (hm ▸ ⟨hlow, hhigh⟩)⟩
      · rintro (h | h)
        · exact absurd ⟨by omega, by omega⟩ hrange
        · exact h.1

/-- The number of a place leads to it, also where it is too large to be read as one. -/
theorem leads_toString (i : Nat) : Leads requests (toString (i + 1)) i := by
  have hdigits : ∀ c ∈ Nat.toDigits 10 (i + 1), c.isDigit := fun c hc =>
    Nat.isDigit_of_mem_toDigits (by decide) (by decide) hc
  have htrim := Text.trim_toString (i + 1)
  have hchars : Text.trimChars (toString (i + 1)).toList = Nat.toDigits 10 (i + 1) := by
    have h := congrArg String.toList htrim
    rw [Text.trim, String.toList_ofList] at h
    rw [h, Nat.toString_eq_ofList_toDigits, String.toList_ofList]
  rw [Leads, hchars]
  by_cases hfits : i + 1 < wordEnd
  · exact .inl ⟨_, .inl rfl, Nat.toDigits_ne_nil, hdigits, Nat.ofDigitChars_ten_toDigits, hfits⟩
  · refine .inr ⟨htrim, ?_⟩
    rintro n - - ⟨ds, rfl | hds, -, -, hn, hword⟩
    · rw [Nat.ofDigitChars_ten_toDigits] at hn
      exact hfits (hn ▸ hword)
    · have hplus : '+' ∈ Nat.toDigits 10 (i + 1) := hds ▸ List.mem_cons_self
      exact absurd (hdigits '+' hplus) (by decide)

/-- In a chain each request names the next one as its base. -/
theorem links_of_walk {n current : Nat} {walked places : List Nat} (h : walk requests n walked current = .ok places)
    (hwalked : ((current :: walked).reverse).IsChain fun c i =>
      ∃ base, requests[c]?.bind Request.base = some base ∧ find? requests base = some i) :
    places.IsChain fun c i => ∃ base, requests[c]?.bind Request.base = some base ∧ find? requests base = some i := by
  -- `walked` is the chain so far, the last request first
  induction n generalizing walked current with
  | zero =>
    cases h
    exact hwalked
  | succ n ih =>
    rw [walk] at h
    split at h
    · cases h
      exact hwalked
    · rename_i base hbase
      split at h
      · contradiction
      · rename_i next hnext
        split at h
        · contradiction
        · refine ih h ?_
          rw [List.reverse_cons, List.isChain_append]
          refine ⟨hwalked, List.isChain_singleton _, fun c hc j hj => ?_⟩
          cases hj
          have hlast : c = current := by simpa using hc.symm
          exact hlast ▸ ⟨base, hbase, hnext⟩

/-- Names as targets. Of requests whose names do not clash, a request without a name is selected by
its number, and one with a name is selected by it exactly where the name leads to its place. The same
holds of a base: it is the name of the request that the chain goes on with, and it selects that
request exactly where it leads there. -/
theorem select_displayName (hnames : Loading.checkNames requests = .ok ()) :
    (∀ i q, requests[i]? = some q →
      (select requests (q.displayName i) = .ok i ↔ Leads requests (q.displayName i) i) ∧
      (q.name = none → select requests (q.displayName i) = .ok i)) ∧
    ∀ start places, chain requests start = .ok places → places.IsChain fun c i =>
      ∃ base, requests[c]?.bind Request.base = some base ∧
        (∃ q, requests[i]? = some q ∧ base = q.displayName i) ∧
        (select requests base = .ok i ↔ Leads requests base i) := by
  have hleads {i : Nat} {q : Request} (hq : requests[i]? = some q) :
      select requests (q.displayName i) = .ok i ↔ Leads requests (q.displayName i) i :=
    select_eq_ok_iff hnames ((find?_eq_some_iff hnames).mpr ⟨q, hq, rfl⟩)
  refine ⟨fun i q hq => ⟨hleads hq, fun hnone => ?_⟩, fun start places hchain => ?_⟩
  · have hplace : q.displayName i = toString (i + 1) := by rw [Request.displayName, hnone, Option.getD_none]
    rw [hleads hq, hplace]
    exact leads_toString i
  · refine (links_of_walk hchain (List.isChain_singleton _)).imp fun c i hlink => ?_
    obtain ⟨base, hbase, hfind⟩ := hlink
    obtain ⟨q, hq, hname⟩ := (find?_eq_some_iff hnames).mp hfind
    exact ⟨base, hbase, ⟨q, hq, hname.symm⟩, select_eq_ok_iff hnames hfind⟩

/-- The second of three requests goes by a spelling of the number one, and the third one extends it. The
chain goes from the third request to the second, and the same name as a target selects the first. -/
theorem select_displayName_respelled :
    let requests : List Request := [{}, { name := some "01" }, { name := some "c", base := some "01" }]
    Loading.checkNames requests = .ok () ∧ chain requests 2 = .ok [2, 1] ∧
      select requests "01" ≠ .ok 1 ∧ select requests "1" = .ok 0 ∧ select requests "c" = .ok 2 := by
  intro requests
  have hnames : Loading.checkNames requests = .ok () := by decide +kernel
  have hchain : chain requests 2 = .ok [2, 1] := by decide +kernel
  obtain ⟨hselect, -⟩ := select_displayName hnames
  have hsecond := (hselect 1 _ rfl).1
  have hthird := (hselect 2 _ rfl).1
  have hone : Text.Spells ['0', '1'] 1 := Text.natural?_eq_some_iff.mp (by decide)
  have htwo : ¬Text.Spells ['0', '1'] 2 := fun h => absurd (Text.natural?_eq_some_iff.mpr h) (by decide)
  have hlead : ¬Leads requests "01" 1 := by
    rintro (h | h)
    · exact htwo h
    · exact h.2 1 (by decide) (by decide) hone
  have hword : Leads requests "c" 2 := by
    have hnone : Text.natural? (Text.trimChars "c".toList) = none := by decide
    refine .inr ⟨by decide, fun n _ _ h => ?_⟩
    rw [← Text.natural?_eq_some_iff, hnone] at h
    contradiction
  exact ⟨hnames, hchain, hsecond.not.mpr hlead, (hselect 0 _ rfl).2 rfl, hthird.mpr hword⟩

end Target
end RequestLang
