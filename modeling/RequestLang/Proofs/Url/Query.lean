import RequestLang.Definition
import RequestLang.Proofs.Text.Place
import RequestLang.Proofs.Url.Form

/-! The query of a request. Its pairs are written behind the address, where they end the query unless the address
has a fragment. -/
namespace RequestLang
namespace Address

/-- What stands before the fragment of an address. -/
def front (cs : List Char) : List Char := cs.takeWhile (· != '#')

def fragment? (cs : List Char) : Option (List Char) := (Text.splitOnce? '#' cs).map Prod.snd

/-- The pairs that are written between the first question mark of an address and its fragment. -/
def queryPairs (cs : List Char) : List (String × String) :=
  Form.decode (.ofList (((Text.splitOnce? '?' (front cs)).map Prod.snd).getD []))

variable {cs ds : List Char}

theorem front_of_not_mem (h : '#' ∉ cs) : front cs = cs :=
  List.takeWhile_eq_self_iff.mpr fun _ hc => bne_iff_ne.mpr fun heq => h (heq ▸ hc)

theorem front_append (h : '#' ∉ cs) (ds : List Char) : front (cs ++ '#' :: ds) = cs := by
  have hcs : ∀ c ∈ cs, (c != '#') = true := fun _ hc => bne_iff_ne.mpr fun heq => h (heq ▸ hc)
  rw [front, List.takeWhile_append_of_pos hcs]
  simp

theorem fragment?_of_not_mem (h : '#' ∉ cs) : fragment? cs = none := by rw [fragment?, Text.splitOnce?_eq_none h]; rfl

theorem fragment?_append (h : '#' ∉ cs) (ds : List Char) : fragment? (cs ++ '#' :: ds) = some ds := by
  rw [fragment?, Text.splitOnce?_append h]
  rfl

/-- An address without a fragment and without a query gets one behind a question mark. -/
theorem queryPairs_append_question (hcs : '#' ∉ cs) (hds : '#' ∉ ds) (h : '?' ∉ cs) :
    queryPairs (cs ++ '?' :: ds) = queryPairs cs ++ Form.decode (.ofList ds) := by
  have hfront : '#' ∉ cs ++ '?' :: ds := by simp [hcs, hds]
  rw [queryPairs, queryPairs, front_of_not_mem hfront, front_of_not_mem hcs, Text.splitOnce?_append h,
    Text.splitOnce?_eq_none h]
  simp [Form.decode_eq]

/-- The query of an address without a fragment goes on behind an ampersand. -/
theorem queryPairs_append_ampersand (hcs : '#' ∉ cs) (hds : '#' ∉ ds) (h : '?' ∈ cs) :
    queryPairs (cs ++ '&' :: ds) = queryPairs cs ++ Form.decode (.ofList ds) := by
  have hfront : '#' ∉ cs ++ '&' :: ds := by simp [hcs, hds]
  rw [queryPairs, queryPairs, front_of_not_mem hfront, front_of_not_mem hcs]
  obtain ⟨before, after, rfl, hbefore⟩ := List.eq_append_cons_of_mem h
  rw [List.append_assoc, List.cons_append, Text.splitOnce?_append hbefore, Text.splitOnce?_append hbefore]
  exact Form.decode_append after ds

end Address

namespace Definition
open Address

/-- What is put between the address and the pairs. -/
def queryMark (d : Definition) : Char := if '?' ∈ d.url.toList then '&' else '?'

theorem toList_fullUrl {d : Definition} (h : d.query.pairs ≠ []) :
    d.fullUrl.toList = d.url.toList ++ d.queryMark :: (Form.encode d.query.pairs).toList := by
  have hquery : d.query.isEmpty = false := by
    cases hempty : d.query with
    | nil => exact absurd (by rw [hempty]; rfl) h
    | cons => rfl
  rw [fullUrl, hquery, queryMark]
  by_cases hmark : '?' ∈ d.url.toList <;> simp [hmark]

theorem queryPairs_fullUrl_of_not_mem {d : Definition} (h : d.query.pairs ≠ []) (hurl : '#' ∉ d.url.toList) :
    queryPairs d.fullUrl.toList = queryPairs d.url.toList ++ d.query.pairs := by
  have hpairs : Form.decode (.ofList (Form.encode d.query.pairs).toList) = d.query.pairs := by
    rw [String.ofList_toList, Form.decode_encode]
  have hencode : '#' ∉ (Form.encode d.query.pairs).toList := Form.not_mem_encode (by decide) _
  rw [toList_fullUrl h, queryMark]
  split
  · rename_i hmark
    rw [queryPairs_append_ampersand hurl hencode hmark, hpairs]
  · rename_i hmark
    rw [queryPairs_append_question hurl hencode hmark, hpairs]

theorem fragment?_fullUrl_of_not_mem {d : Definition} (h : d.query.pairs ≠ []) (hurl : '#' ∉ d.url.toList) :
    fragment? d.fullUrl.toList = none := by
  refine fragment?_of_not_mem ?_
  have hmark : '#' ≠ d.queryMark := by
    rw [queryMark]
    split <;> decide
  simp [toList_fullUrl h, hurl, hmark, Form.not_mem_encode (show '#' ∈ ['#', '@'] by decide)]

/-- The pairs end up in the query, behind those of the address, exactly if the address has no fragment. Else they
make the fragment longer, and the query stays as it is. -/
theorem queryPairs_fullUrl (d : Definition) (h : d.query.pairs ≠ []) :
    (queryPairs d.fullUrl.toList = queryPairs d.url.toList ++ d.query.pairs ∧
        fragment? d.fullUrl.toList = fragment? d.url.toList ↔ '#' ∉ d.url.toList) ∧
      ∀ fragment, fragment? d.url.toList = some fragment →
        queryPairs d.fullUrl.toList = queryPairs d.url.toList ∧ fragment? d.fullUrl.toList =
          some (fragment ++ d.queryMark :: (Form.encode d.query.pairs).toList) := by
  by_cases hurl : '#' ∈ d.url.toList
  · obtain ⟨before, fragment, hsplit, hbefore⟩ := List.eq_append_cons_of_mem hurl
    have hfull : d.fullUrl.toList = before ++ '#' :: (fragment ++ d.queryMark :: (Form.encode d.query.pairs).toList) := by
      rw [toList_fullUrl h, hsplit, List.append_assoc, List.cons_append]
    have hkept : queryPairs d.fullUrl.toList = queryPairs d.url.toList := by
      rw [queryPairs, queryPairs, hfull, hsplit, front_append hbefore, front_append hbefore]
    rw [hkept, hfull, hsplit, fragment?_append hbefore, fragment?_append hbefore]
    refine ⟨iff_of_false (fun hlaw => h (List.self_eq_append_right.mp hlaw.1)) (not_not.mpr (by simp)), ?_⟩
    rintro _ ⟨rfl⟩
    exact ⟨rfl, rfl⟩
  · have hnone := fragment?_of_not_mem hurl
    refine ⟨iff_of_true ⟨queryPairs_fullUrl_of_not_mem h hurl, ?_⟩ hurl, fun fragment hfragment => ?_⟩
    · rw [hnone, fragment?_fullUrl_of_not_mem h hurl]
    · rw [hnone] at hfragment
      cases hfragment

/-- An ampersand within a value does not end the pair. Behind a fragment the same pair is no pair of the query. -/
theorem queryPairs_fullUrl_ampersand :
    let d (url : String) : Definition :=
      { name := "1", description := none, method := .GET, url, headers := {}, query := [("a", ["1&b"])]
        payload := none, auth := none, certificate := none, output := none, proxy := {}, flags := {}, script := none }
    queryPairs (d "http://h/?c").fullUrl.toList = [("c", ""), ("a", "1&b")] ∧
      queryPairs (d "http://h/?c#top").fullUrl.toList = [("c", "")] ∧
      fragment? (d "http://h/?c#top").fullUrl.toList = some "top&a=1%26b".toList := by
  intro d
  have hquery {cs : List Char} (h : front cs = "http://h/?c".toList) : queryPairs cs = [("c", "")] := by
    rw [queryPairs, h, Form.decode_eq]
    decide
  obtain ⟨hplain, -⟩ := queryPairs_fullUrl (d "http://h/?c") (by decide)
  obtain ⟨-, hfragment⟩ := queryPairs_fullUrl (d "http://h/?c#top") (by decide)
  obtain ⟨hkept, hmore⟩ := hfragment "top".toList (by decide)
  refine ⟨(hplain.mpr (by decide)).1.trans (congrArg (· ++ [("a", "1&b")]) (hquery (by decide))),
    hkept.trans (hquery (by decide)), hmore.trans ?_⟩
  decide +kernel

end Definition
end RequestLang
