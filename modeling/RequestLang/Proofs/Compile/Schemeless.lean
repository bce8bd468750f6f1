import RequestLang.Proofs.Compile.Origin

/-! Addresses without a scheme. Joining looks for the mark of a scheme anywhere in the base, and the scheme that
is meant by default is put first only after all is joined. The two may be exchanged unless a path begins anew. -/
namespace RequestLang
namespace Address

variable {base next front cs : List Char}

/-- What stands before the path and the query of an address without a scheme. -/
def host (cs : List Char) : List Char := cs.takeWhile fun c => c != '/' && c != '?'

def defaultScheme : List Char := "http://".toList

/-- The characters of an address to which the default scheme is added. -/
def schemed (cs : List Char) : List Char := if hasScheme cs then cs else defaultScheme ++ cs

theorem toList_withScheme (url : String) : (withScheme url).toList = schemed url.toList := by
  unfold withScheme schemed isAbsolute
  split
  · rfl
  · exact String.toList_append

theorem hasScheme_iff : hasScheme cs ↔ ∃ s ∈ schemes, s <+: cs := by
  simp [hasScheme, List.any_eq_true, List.isPrefixOf_iff_prefix]

theorem hasScheme_of_prefix (h : front <+: cs) (hcs : hasScheme cs = false) : hasScheme front = false := by
  rw [← Bool.not_eq_true, hasScheme_iff] at hcs ⊢
  exact fun ⟨s, hs, hhead⟩ => hcs ⟨s, hs, hhead.trans h⟩

theorem schemed_eq_iff : schemed cs = defaultScheme ++ cs ↔ hasScheme cs = false := by
  unfold schemed
  split
  · rename_i habsolute
    simp only [habsolute, Bool.true_eq_false, iff_false]
    intro h
    have := congrArg List.length h
    rw [List.length_append, show defaultScheme.length = 7 from rfl] at this
    omega
  · rename_i hrelative
    simp [hrelative]

/-- The first mark of a text cuts it in one way. -/
theorem append_cons_inj {mark : Char} {as bs cs ds : List Char} (ha : mark ∉ as) (hb : mark ∉ bs)
    (h : as ++ mark :: cs = bs ++ mark :: ds) : as = bs ∧ cs = ds := by
  rcases List.append_eq_append_iff.mp h with ⟨es, rfl, he⟩ | ⟨es, rfl, he⟩ <;> cases es <;> simp_all

theorem exists_word {s : List Char} (hs : s ∈ schemes) : ∃ word, s = word ++ ['/', '/'] ∧ '/' ∉ word := by
  fin_cases hs
  · exact ⟨"http:".toList, rfl, by decide⟩
  · exact ⟨"https:".toList, rfl, by decide⟩
  · exact ⟨"http+unix:".toList, rfl, by decide⟩

theorem through?_scheme {s : List Char} (hs : s ∈ schemes) : Text.through? [':', '/', '/'] s = some s.length :=
  (by decide : ∀ s ∈ schemes, Text.through? [':', '/', '/'] s = some s.length) s hs

/-- No scheme comes about where a mark of a scheme stands already. -/
theorem hasScheme_append_of_holds (hmark : Text.holds [':', '/', '/'] front) :
    hasScheme (front ++ next) = hasScheme front := by
  rw [Bool.eq_iff_iff, hasScheme_iff, hasScheme_iff]
  constructor
  · rintro ⟨s, hs, hhead⟩
    obtain ⟨n, hn⟩ := Option.isSome_iff_exists.mp hmark
    obtain ⟨rest, hrest⟩ := hhead
    have hlength : n = s.length := by
      have hfront := Text.through?_append hn next
      rw [← hrest, Text.through?_append (through?_scheme hs) rest, Option.some_inj] at hfront
      exact hfront.symm
    have hle := (Text.length_le_of_through? hn).2
    exact ⟨s, hs, List.prefix_of_prefix_length_le ⟨rest, hrest⟩ (List.prefix_append front next) (hlength ▸ hle)⟩
  · rintro ⟨s, hs, hhead⟩
    exact ⟨s, hs, hhead.trans (List.prefix_append front next)⟩

/-- What has no slash makes up a scheme only as a whole. -/
theorem hasScheme_append_of_not_mem (hfront : '/' ∉ front) (hnext : next.head? = some '/') :
    hasScheme (front ++ next) ↔ front ++ ['/', '/'] ∈ schemes ∧ ['/', '/'] <+: next := by
  obtain ⟨next, rfl⟩ := List.head?_eq_some_iff.mp hnext
  rw [hasScheme_iff]
  constructor
  · rintro ⟨s, hs, rest, hrest⟩
    obtain ⟨word, rfl, hword⟩ := exists_word hs
    -- both sides are cut at their first slash
    rw [List.append_assoc] at hrest
    obtain ⟨rfl, hnext⟩ := append_cons_inj hword hfront hrest
    exact ⟨hs, rest, by rw [← hnext]; rfl⟩
  · rintro ⟨hs, rest, hrest⟩
    exact ⟨_, hs, rest, by rw [List.append_assoc, hrest]⟩

/-- One slash alone does not complete a scheme. -/
theorem hasScheme_append_slash (hfront : front.getLast? ≠ some '/') (hnext : next.head? ≠ some '/') :
    hasScheme (front ++ '/' :: next) = hasScheme front := by
  rw [Bool.eq_iff_iff, hasScheme_iff, hasScheme_iff]
  refine ⟨?_, fun ⟨s, hs, hhead⟩ => ⟨s, hs, hhead.trans (List.prefix_append _ _)⟩⟩
  rintro ⟨s, hs, rest, hrest⟩
  obtain ⟨word, rfl, hword⟩ := exists_word hs
  refine ⟨_, hs, ?_⟩
  rw [List.append_assoc] at hrest
  by_cases hslash : '/' ∈ front
  · -- the first slash of the front is that of the scheme, and the front goes on with the other
    obtain ⟨a, b, rfl, ha⟩ := List.eq_append_cons_of_mem hslash
    rw [List.append_assoc] at hrest
    obtain ⟨rfl, hmore⟩ := append_cons_inj hword ha hrest
    cases b with
    | nil => simp at hfront
    | cons c b =>
      obtain ⟨rfl, -⟩ := List.cons.inj hmore
      exact ⟨b, by simp⟩
  · obtain ⟨rfl, hmore⟩ := append_cons_inj hword hslash hrest
    exact absurd (by rw [← hmore]; rfl) hnext

theorem withoutTrailing_append (front : List Char) (h : ∃ c ∈ cs, c ≠ '/') :
    withoutTrailing '/' (front ++ cs) = front ++ withoutTrailing '/' cs := by
  obtain ⟨c, hc, hplain⟩ := h
  unfold withoutTrailing
  rw [List.reverse_append, List.dropWhile_append, if_neg]
  · simp
  · intro hempty
    have hall := List.dropWhile_eq_nil_iff.mp (List.isEmpty_iff.mp hempty)
    exact hplain (by simpa using hall c (List.mem_reverse.mpr hc))

theorem getLast?_withoutTrailing (cs : List Char) : (withoutTrailing '/' cs).getLast? ≠ some '/' := by
  intro h
  rw [withoutTrailing, List.getLast?_reverse] at h
  have := List.head?_dropWhile_not (· == '/') cs.reverse
  rw [h] at this
  simp at this

theorem slash_not_mem_host (cs : List Char) : '/' ∉ host cs := fun h => by
  simpa using List.mem_takeWhile_imp h

/-- The path of an address without the mark of a scheme begins behind its host. -/
theorem take_pathStart (h : Text.holds [':', '/', '/'] base = false) : base.take (pathStart base) = host base := by
  have hnone : Text.through? [':', '/', '/'] base = none := by simpa [Text.holds] using h
  rw [pathStart, hnone, Option.getD_none, Nat.zero_add, List.drop_zero]
  exact (List.prefix_iff_eq_take.mp (List.takeWhile_prefix _)).symm

theorem take_pathStart_default (base : List Char) :
    (defaultScheme ++ base).take (pathStart (defaultScheme ++ base)) = defaultScheme ++ host base := by
  have hmark := Text.through?_append (through?_scheme (show defaultScheme ∈ schemes by decide)) base
  rw [pathStart, hmark, Option.getD_some, List.drop_left, List.take_length_add_append]
  exact congrArg _ (List.prefix_iff_eq_take.mp (List.takeWhile_prefix _)).symm

/-- The first mark of a scheme is kept where a path begins anew. -/
theorem exists_mark (h : Text.holds [':', '/', '/'] base) :
    ∃ before, before ++ [':', '/', '/'] <+: base.take (pathStart base) := by
  obtain ⟨n, hn⟩ := Option.isSome_iff_exists.mp h
  obtain ⟨before, hbase, hlength⟩ := Text.take_of_through? hn
  have hstart : n ≤ pathStart base := by
    rw [pathStart, hn, Option.getD_some]
    exact Nat.le_add_right _ _
  refine ⟨before, List.prefix_take_iff.mpr ⟨⟨_, hbase.symm⟩, ?_⟩⟩
  rw [List.length_append]
  exact hlength ▸ hstart

/-- The mark of a scheme ends behind the first slash. -/
theorem length_host_lt (h : Text.holds [':', '/', '/'] base) :
    (host base).length < (base.take (pathStart base)).length := by
  obtain ⟨before, hmark⟩ := exists_mark h
  refine Nat.lt_of_lt_of_le (Nat.lt_of_not_le fun hlong => ?_) hmark.length_le
  have hhead : before ++ [':', '/', '/'] <+: host base :=
    List.prefix_of_prefix_length_le (hmark.trans (List.take_prefix _ _)) (List.takeWhile_prefix _) hlong
  exact slash_not_mem_host base (hhead.subset (by simp))

/-- A slash at the end of the base and at the head of what is joined to it. -/
def Anew (base next : List Char) : Prop := next.head? = some '/' ∧ base.getLast? = some '/'

theorem joinChars_of_hasScheme (base : List Char) (h : hasScheme next) : joinChars base next = next := by
  simp [joinChars, h]

theorem joinChars_nil (base : List Char) : joinChars base [] = base := by
  cases base <;> simp [joinChars, show hasScheme [] = false by decide]

theorem joinChars_anew (hnext : hasScheme next = false) (h : Anew base next) :
    joinChars base next = base.take (pathStart base) ++ next := by
  obtain ⟨next, rfl⟩ := List.head?_eq_some_iff.mp h.1
  have hbase : base ≠ [] := by
    rintro rfl
    exact absurd h.2 (by simp)
  simp [joinChars, hnext, hbase, h.2]

theorem joinChars_on (hbase : base ≠ []) (hnext : hasScheme next = false) (hne : next ≠ []) (h : ¬Anew base next) :
    joinChars base next = withoutTrailing '/' base ++ '/' :: next.dropWhile (· == '/') := by
  have hslashes : (next.head? == some '/' && base.getLast? == some '/') = false := by
    rw [← Bool.not_eq_true, Bool.and_eq_true, beq_iff_eq, beq_iff_eq]
    exact h
  simp [joinChars, hbase, hnext, hne, hslashes]

/-- The default scheme does not change where a path begins anew. -/
theorem anew_default (hbase : base ≠ []) : Anew (defaultScheme ++ base) next ↔ Anew base next := by
  rw [Anew, Anew, List.getLast?_append_of_ne_nil _ hbase]

/-- Where the path begins anew, the default scheme may be put first if the host is all that is kept of the base,
and if it does not become a scheme itself. -/
theorem schemed_take_iff (hbase : hasScheme base = false) (hnext : next.head? = some '/') :
    schemed (base.take (pathStart base) ++ next) = defaultScheme ++ host base ++ next ↔
      Text.holds [':', '/', '/'] base = false ∧ ¬(host base ++ ['/', '/'] ∈ schemes ∧ ['/', '/'] <+: next) := by
  cases hmark : Text.holds [':', '/', '/'] base with
  | false =>
    rw [take_pathStart hmark, List.append_assoc, schemed_eq_iff,
      ← hasScheme_append_of_not_mem (slash_not_mem_host base) hnext]
    simp
  | true =>
    have hkept : Text.holds [':', '/', '/'] (base.take (pathStart base)) := by
      obtain ⟨before, hhead⟩ := exists_mark hmark
      exact (Text.holds_iff_infix (by decide)).mpr ((List.suffix_append before _).isInfix.trans hhead.isInfix)
    have hrelative : hasScheme (base.take (pathStart base) ++ next) = false := by
      rw [hasScheme_append_of_holds hkept]
      exact hasScheme_of_prefix (List.take_prefix _ _) hbase
    have hlength := length_host_lt hmark
    simp only [Bool.true_eq_false, false_and, iff_false]
    rw [schemed_eq_iff.mpr hrelative, List.append_assoc, List.append_cancel_left_eq]
    intro h
    have := congrArg List.length h
    simp only [List.length_append] at this
    omega

/-- The default scheme added before or after joining. -/
theorem schemed_joinChars_iff (hrelative : hasScheme base = false) (hbase : base ≠ []) (hslash : base.head? ≠ some '/') :
    schemed (joinChars base next) = joinChars (defaultScheme ++ base) next ↔
      (hasScheme next = false → Anew base next →
        Text.holds [':', '/', '/'] base = false ∧ ¬(host base ++ ['/', '/'] ∈ schemes ∧ ['/', '/'] <+: next)) := by
  cases habsolute : hasScheme next with
  | true => simp [joinChars_of_hasScheme _ habsolute, schemed, habsolute]
  | false =>
    by_cases hanew : Anew base next
    · rw [joinChars_anew habsolute hanew, joinChars_anew habsolute ((anew_default hbase).mpr hanew),
        take_pathStart_default, schemed_take_iff hrelative hanew.1]
      simp [hanew]
    · refine iff_of_true ?_ fun _ h => absurd h hanew
      by_cases hne : next = []
      · subst hne
        rw [joinChars_nil, joinChars_nil]
        exact schemed_eq_iff.mpr hrelative
      · have hdefault : defaultScheme ++ base ≠ [] := List.append_ne_nil_of_right_ne_nil _ hbase
        have hplain : ∃ c ∈ base, c ≠ '/' := by
          obtain ⟨c, cs, rfl⟩ := List.exists_cons_of_ne_nil hbase
          exact ⟨c, List.mem_cons_self, by simpa using hslash⟩
        have hstripped : (next.dropWhile (· == '/')).head? ≠ some '/' := fun h => by
          simpa [h] using List.head?_dropWhile_not (· == '/') next
        rw [joinChars_on hbase habsolute hne hanew,
          joinChars_on hdefault habsolute hne (mt (anew_default hbase).mp hanew), withoutTrailing_append _ hplain,
          List.append_assoc, schemed_eq_iff, hasScheme_append_slash (getLast?_withoutTrailing base) hstripped]
        exact hasScheme_of_prefix (Origin.withoutTrailing_isPrefix '/' base) hrelative

/-- The default scheme may be added before or after joining, except where a path begins anew. There it may be if
the base holds no mark of a scheme, the first of which would be taken for its own, and if the host and the slashes
of what follows do not make up a scheme. -/
theorem withScheme_join_iff {base next : String} (hbase : base ≠ "") (hrelative : isAbsolute base = false)
    (hslash : base.toList.head? ≠ some '/') :
    withScheme (join base next) = join (withScheme base) next ↔
      (isAbsolute next = false → Anew base.toList next.toList → ¬[':', '/', '/'] <:+: base.toList ∧
        ¬(host base.toList ++ ['/', '/'] ∈ schemes ∧ ['/', '/'] <+: next.toList)) := by
  have hscheme : (withScheme base).toList = defaultScheme ++ base.toList := by
    rw [toList_withScheme, schemed_eq_iff]
    exact hrelative
  rw [← String.toList_inj, toList_withScheme, join, join, String.toList_ofList, String.toList_ofList, hscheme,
    schemed_joinChars_iff hrelative (by simpa using hbase) hslash, ← Text.holds_iff_infix (by decide), Bool.not_eq_true]
  rfl

/-- An address in the query of the base is no matter as long as the path goes on. Where it begins anew, it would be
kept with the address: the authority is then looked for in the query. -/
theorem withScheme_join_iff_query :
    withScheme (join "localhost/cb?next=http://a/" "v2") = join (withScheme "localhost/cb?next=http://a/") "v2" ∧
      withScheme (join "localhost/cb?next=http://a/" "/v2") ≠
        join (withScheme "localhost/cb?next=http://a/") "/v2" := by
  have hlaw := @withScheme_join_iff "localhost/cb?next=http://a/"
  constructor
  · exact (hlaw (by decide) (by decide) (by decide)).mpr fun _ h => absurd h.1 (by decide)
  · rw [ne_eq, hlaw (by decide) (by decide) (by decide)]
    intro h
    exact (h (by decide) ⟨by decide, by decide⟩).1 (by decide)

end Address
end RequestLang
