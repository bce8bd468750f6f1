import RequestLang.Auth.AwsHost
import RequestLang.Proofs.Url.Form

/-! Hosts that tell a service and a region, in a label for each of them or in one label together. A label for both is
taken apart at the one place where a region begins, and not at all where the region lies in a secluded partition. -/
namespace RequestLang

theorem Host.splitChars_eq (mark : Char) (cs : List Char) : splitChars mark cs = cs.splitOn mark := by
  have hback : String.toList ∘ String.ofList = id := funext fun _ => String.toList_ofList
  rw [splitChars, Text.splitOn_singleton, String.toList_ofList, List.map_map, hback, List.map_id]

namespace AwsHost

/-- The parts of a region, which stand between its dashes. -/
structure Region where
  country : List Char
  partition : Option (List Char)
  direction : List Char
  ordinal : List Char
  isCountry : isCountry country
  isPartition : ∀ p ∈ partition, isPartition p
  isDirection : isDirection direction
  isOrdinal : isOrdinal ordinal

def Region.parts (r : Region) : List (List Char) := r.country :: (r.partition.toList ++ [r.direction, r.ordinal])

/-- The region lies in a partition other than that of the government. -/
def isSecluded (label : List Char) : Bool :=
  match label.splitOn '-' with
  | [_, partition, _, _] => partition != ['g', 'o', 'v']
  | _ => false

variable {service region suffix : List Char}

theorem exists_region (h : isRegion region) : ∃ r : Region, region.splitOn '-' = r.parts := by
  unfold isRegion at h
  rw [Host.splitChars_eq] at h
  split at h
  · rename_i country direction ordinal hparts
    simp only [Bool.and_eq_true] at h
    exact ⟨⟨country, none, direction, ordinal, h.1.1, by simp, h.1.2, h.2⟩, hparts⟩
  · rename_i country partition direction ordinal hparts
    simp only [Bool.and_eq_true] at h
    exact ⟨⟨country, some partition, direction, ordinal, h.1.1.1, by simpa using h.1.1.2, h.1.2, h.2⟩, hparts⟩
  · cases h

theorem isCountry_of_isPartition {cs : List Char} (h : isPartition cs) : isCountry cs = false := by
  unfold isPartition at h
  split at h <;> simp_all [isCountry]

theorem dot_not_mem_of_all {p : Char → Bool} (hp : p '.' = false) {cs : List Char} (h : cs.all p) : '.' ∉ cs :=
  fun hdot => by simp [List.all_eq_true.mp h '.' hdot] at hp

theorem dot_not_mem_of_isPartition {cs : List Char} (h : isPartition cs) : '.' ∉ cs := by
  unfold isPartition at h
  split at h
  · decide
  · decide
  · rename_i c
    have hc : c ≠ '.' := by
      rintro rfl
      exact absurd h (by decide)
    simp [Ne.symm hc]
  · cases h

theorem Region.dot_not_mem (r : Region) : ∀ part ∈ r.parts, '.' ∉ part := by
  have hlower : isLower '.' = false := by decide
  have hdigit : Text.isDecimalDigit '.' = false := by decide
  intro part hpart
  simp only [parts, List.mem_cons, List.mem_append, Option.mem_toList, List.not_mem_nil, or_false] at hpart
  rcases hpart with rfl | hpart | rfl | rfl
  · exact dot_not_mem_of_all hlower (Bool.and_eq_true_iff.mp r.isCountry).2
  · exact dot_not_mem_of_isPartition (r.isPartition part hpart)
  · exact dot_not_mem_of_all hlower (Bool.and_eq_true_iff.mp r.isDirection).2
  · exact dot_not_mem_of_all hdigit (Bool.and_eq_true_iff.mp r.isOrdinal).2

theorem dot_not_mem_region (h : isRegion region) : '.' ∉ region := by
  obtain ⟨r, hr⟩ := exists_region h
  have hregion : ['-'].intercalate (region.splitOn '-') = region := List.intercalate_splitOn '-'
  rw [← hregion, hr]
  exact Text.not_mem_intercalate (by decide) r.dot_not_mem

/-- No region ends in another one, whose country would be the partition of the longer one. -/
theorem isRegion_dashed (h : isRegion region) (service : List Char) : isRegion (service ++ '-' :: region) = false := by
  rw [Bool.eq_false_iff]
  intro hlonger
  obtain ⟨r, hr⟩ := exists_region h
  obtain ⟨s, hs⟩ := exists_region hlonger
  obtain ⟨first, more, hservice⟩ := List.exists_cons_of_ne_nil (List.splitOn_ne_nil '-' service)
  rw [List.splitOn_append_cons_self, hr, hservice] at hs
  have hlength := congrArg List.length hs
  cases hshort : r.partition with
  | some partition => cases hlong : s.partition <;> simp [Region.parts, hshort, hlong] at hlength
  | none =>
    cases hlong : s.partition with
    | none => simp [Region.parts, hshort, hlong] at hlength
    | some partition =>
      have hmore : more = [] := by simpa [Region.parts, hshort, hlong] using hlength
      have hcountry : r.country = partition := by simp_all [Region.parts]
      have hnot := isCountry_of_isPartition (s.isPartition partition hlong)
      rw [← hcountry, r.isCountry] at hnot
      cases hnot

theorem regionLabel?_eq_some (h : isRegion region) (front : List (List Char)) (service : List Char) :
    regionLabel? (front ++ [service, region]) = some (some service, region) := by
  induction front with
  | nil => simp [regionLabel?, h]
  | cons label front ih => rw [List.cons_append, regionLabel?, ih]

theorem regionLabel?_eq_none {labels : List (List Char)} (h : ∀ label ∈ labels, isRegion label = false) :
    regionLabel? labels = none := by
  induction labels with
  | nil => rfl
  | cons label labels ih =>
    rw [regionLabel?, ih fun l hl => h l (List.mem_cons_of_mem label hl), h label List.mem_cons_self]
    rfl

/-- The dash before the country is the only place where a label can be taken apart. -/
theorem splitLabel?_dashed (h : isRegion region) (service : List Char) : splitLabel? (service ++ '-' :: region) =
    if isSecluded region || !isLine service then none else some (service, region) := by
  obtain ⟨r, hr⟩ := exists_region h
  have hregion : ['-'].intercalate (region.splitOn '-') = region := List.intercalate_splitOn '-'
  have hservice : ['-'].intercalate (service.splitOn '-') = service := List.intercalate_splitOn '-'
  obtain ⟨last, back, hback⟩ := List.exists_cons_of_ne_nil
    (mt List.reverse_eq_nil_iff.mp (List.splitOn_ne_nil '-' service))
  have hfront : (last :: back).reverse = service.splitOn '-' := by rw [← hback, List.reverse_reverse]
  rw [splitLabel?, isSecluded, Host.splitChars_eq, List.splitOn_append_cons_self, hr, List.reverse_append, hback,
    Region.parts]
  rw [hr, Region.parts] at hregion
  cases hpartition : r.partition with
  | none =>
    have hjoined : r.country ++ '-' :: (r.direction ++ '-' :: r.ordinal) = region := by
      simpa [hpartition] using hregion
    cases hline : isLine service <;>
      simp [hfront, hservice, hjoined, hline, r.isCountry, r.isDirection, r.isOrdinal]
  | some partition =>
    have hjoined : r.country ++ '-' :: (partition ++ '-' :: (r.direction ++ '-' :: r.ordinal)) = region := by
      simpa [hpartition] using hregion
    have hnot := isCountry_of_isPartition (r.isPartition partition hpartition)
    rcases eq_or_ne partition ['g', 'o', 'v'] with rfl | hgov
    · simp only [List.cons_append, List.nil_append] at hjoined
      cases hline : isLine service <;>
        simp [hfront, hservice, hjoined, hline, r.isCountry, r.isDirection, r.isOrdinal, hnot]
    · simp [hgov, r.isDirection, r.isOrdinal, hnot]

theorem inner?_append (h : suffix ∈ suffixes) (cs : List Char) : inner? (cs ++ suffix) = some cs := by
  have hends : ".amazonaws.com.cn".toList.isSuffixOf (cs ++ ".amazonaws.com".toList) = false := by
    rw [Bool.eq_false_iff]
    intro hsuffix
    obtain ⟨before, hbefore⟩ := List.isSuffixOf_iff_suffix.mp hsuffix
    have hlast := congrArg List.getLast? hbefore
    simp at hlast
  have hself (s : List Char) : s.isSuffixOf (cs ++ s) := List.isSuffixOf_iff_suffix.mpr (List.suffix_append cs s)
  simp only [suffixes, List.mem_cons, List.not_mem_nil, or_false] at h
  rw [inner?, suffixes]
  rcases h with rfl | rfl
  · simp only [List.findSome?_cons, hself, if_true]
    simp
  · simp only [List.findSome?_cons, hself, hends, if_true]
    simp

/-- The two ways to put a service and a region into a host. -/
inductive Spelling where
  | dotted | dashed
  deriving DecidableEq, Repr

def Spelling.labels (service region : List Char) : Spelling → List (List Char)
  | .dotted => [service, region]
  | .dashed => [service ++ '-' :: region]

/-- Both spellings tell the service and the region whatever stands in front of them, but for regions in a secluded
partition, with which a label for both is taken for a service without a region. -/
theorem infer_spelled (way : Spelling) {front : List (List Char)} {host : String}
    (hfront : ∀ label ∈ front, '.' ∉ label ∧ isRegion label = false) (hservice : '.' ∉ service)
    (hregion : isRegion region) (hsuffix : suffix ∈ suffixes)
    (hhost : host.toLower.toList = ['.'].intercalate (front ++ way.labels service region) ++ suffix) :
    infer host = if way = .dashed ∧ (isSecluded region || !isLine service)
      then (some (String.ofList (service ++ '-' :: region)), none)
      else (some (String.ofList service), some (String.ofList region)) := by
  have hdot := dot_not_mem_region hregion
  have hlabels : ∀ label ∈ way.labels service region, '.' ∉ label := by
    cases way <;> simp [Spelling.labels, hservice, hdot]
  have hne : way.labels service region ≠ [] := by cases way <;> exact List.cons_ne_nil _ _
  have hsplit : (['.'].intercalate (front ++ way.labels service region)).splitOn '.' =
      front ++ way.labels service region :=
    List.splitOn_intercalate '.' (fun label hlabel => (List.mem_append.mp hlabel).elim (fun h => (hfront label h).1)
      (hlabels label)) (List.append_ne_nil_of_right_ne_nil _ hne)
  rw [infer, hhost, inner?_append hsuffix]
  simp only [Host.splitChars_eq, hsplit]
  cases way with
  | dotted => simp [Spelling.labels, regionLabel?_eq_some hregion]
  | dashed =>
    have hnone : regionLabel? (front ++ [service ++ '-' :: region]) = none := by
      refine regionLabel?_eq_none fun label hlabel => ?_
      rcases List.mem_append.mp hlabel with h | h
      · exact (hfront label h).2
      · rw [List.mem_singleton.mp h, isRegion_dashed hregion]
    rw [Spelling.labels, hnone, List.getLast?_concat]
    dsimp only
    rw [splitLabel?_dashed hregion]
    by_cases hlost : isSecluded region || !isLine service <;> simp [hlost]

/-- A service with a dash, which together with a country is no region, and a region that only a label of its own
tells. -/
theorem infer_spelled_secluded :
    isRegion "us-gov-west-1".toList ∧ isRegion "us-iso-east-1".toList ∧
      infer "Api.X-eu-US-gov-west-1.AmazonAWS.com.cn" = (some "x-eu", some "us-gov-west-1") ∧
      infer "s3.us-iso-east-1.amazonaws.com" = (some "s3", some "us-iso-east-1") ∧
      infer "s3-us-iso-east-1.amazonaws.com" = (some "s3-us-iso-east-1", none) := by
  have hgov : isRegion "us-gov-west-1".toList := by rw [isRegion, Host.splitChars_eq]; decide +kernel
  have hiso : isRegion "us-iso-east-1".toList := by rw [isRegion, Host.splitChars_eq]; decide +kernel
  have hfront : ∀ label ∈ ["api".toList], '.' ∉ label ∧ isRegion label = false := by
    simp only [isRegion, Host.splitChars_eq]
    decide +kernel
  have hmixed : "Api.X-eu-US-gov-west-1.AmazonAWS.com.cn".toLower.toList = ['.'].intercalate (["api".toList] ++
      Spelling.dashed.labels "x-eu".toList "us-gov-west-1".toList) ++ ".amazonaws.com.cn".toList := by decide +kernel
  have hdotted : "s3.us-iso-east-1.amazonaws.com".toLower.toList = ['.'].intercalate ([] ++
      Spelling.dotted.labels "s3".toList "us-iso-east-1".toList) ++ ".amazonaws.com".toList := by decide +kernel
  have hdashed : "s3-us-iso-east-1.amazonaws.com".toLower.toList = ['.'].intercalate ([] ++
      Spelling.dashed.labels "s3".toList "us-iso-east-1".toList) ++ ".amazonaws.com".toList := by decide +kernel
  exact ⟨hgov, hiso,
    (infer_spelled .dashed hfront (by decide) hgov (by decide) hmixed).trans (by decide +kernel),
    (infer_spelled .dotted (by simp) (by decide) hiso (by decide) hdotted).trans (by decide +kernel),
    (infer_spelled .dashed (by simp) (by decide) hiso (by decide) hdashed).trans (by decide +kernel)⟩

end AwsHost
end RequestLang
