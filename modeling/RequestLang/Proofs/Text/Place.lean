import Mathlib
import RequestLang.Text.Place

/-! Boundaries between the characters of a text: what stands before and behind them, and the line and column
of each. -/
namespace RequestLang.Text

theorem dropBytes_append (as bs : List Char) : dropBytes (byteSize as) (as ++ bs) = bs := by
  induction as with
  | nil =>
    cases bs with
    | nil => rfl
    | cons b bs => rw [List.nil_append, byteSize_nil, dropBytes, if_neg (Nat.not_le.mpr b.utf8Size_pos)]
  | cons a as ih =>
    rw [List.cons_append, byteSize_cons, dropBytes, if_pos (Nat.le_add_right ..), Nat.add_sub_cancel_left, ih]

theorem takeBytes_append (as bs : List Char) : takeBytes (byteSize as) (as ++ bs) = as := by
  induction as with
  | nil =>
    cases bs with
    | nil => rfl
    | cons b bs => rw [List.nil_append, byteSize_nil, takeBytes, if_neg (Nat.not_le.mpr b.utf8Size_pos)]
  | cons a as ih =>
    rw [List.cons_append, byteSize_cons, takeBytes, if_pos (Nat.le_add_right ..), Nat.add_sub_cancel_left, ih]

theorem slice_append (as bs cs : List Char) :
    slice (as ++ (bs ++ cs)) (byteSize as) (byteSize (as ++ bs)) = bs := by
  rw [slice, dropBytes_append, byteSize_append, Nat.add_sub_cancel_left, takeBytes_append]

/-- An offset in bytes at which no character is cut in two. -/
def IsBoundary (cs : List Char) (n : Nat) : Prop := ∃ front, front <+: cs ∧ byteSize front = n

section
variable {cs front back : List Char}

theorem byteSize_le_of_isPrefix (h : front <+: back) : byteSize front ≤ byteSize back := by
  obtain ⟨rest, rfl⟩ := h
  rw [byteSize_append]
  exact Nat.le_add_right ..

theorem IsBoundary.le {n : Nat} (h : IsBoundary cs n) : n ≤ byteSize cs := by
  obtain ⟨front, hfront, rfl⟩ := h
  exact byteSize_le_of_isPrefix hfront

theorem byteSize_pos (h : cs ≠ []) : 0 < byteSize cs := by
  obtain ⟨c, cs, rfl⟩ := List.exists_cons_of_ne_nil h
  rw [byteSize_cons]
  exact Nat.add_pos_left c.utf8Size_pos _

/-- The earlier of two boundaries has the shorter text before it. -/
theorem exists_of_byteSize_lt (hfront : front <+: cs) (hback : back <+: cs)
    (h : byteSize front < byteSize back) : ∃ more, more ≠ [] ∧ back = front ++ more := by
  rcases List.prefix_or_prefix_of_prefix hfront hback with hle | hle
  · obtain ⟨more, rfl⟩ := hle
    refine ⟨more, ?_, rfl⟩
    rintro rfl
    simp at h
  · exact absurd (byteSize_le_of_isPrefix hle) (Nat.not_le.mpr h)

end

namespace Place

/-- A line ends at a line feed, and a column is counted from there. -/
theorem reached_eq (cs : List Char) :
    reached cs = ⟨cs.count '\n' + 1, (cs.reverse.takeWhile (· ≠ '\n')).length + 1⟩ := by
  induction cs using List.reverseRecOn with
  | nil => rfl
  | append_singleton cs c ih =>
    rw [reached, List.foldl_append, ← reached, ih, List.foldl_cons, List.foldl_nil, after]
    by_cases hc : c = '\n'
    · simp [hc]
    · simp [hc]

/-- Places are in order by line and then by column. -/
def key (p : Place) : Nat ×ₗ Nat := toLex (p.line, p.column)

theorem key_lt_after (p : Place) (c : Char) : p.key < (p.after c).key := by
  rw [key, key, Prod.Lex.toLex_lt_toLex]
  unfold after
  split
  · exact .inl (Nat.lt_succ_self _)
  · exact .inr ⟨rfl, Nat.lt_succ_self _⟩

theorem key_le_foldl (p : Place) (cs : List Char) : p.key ≤ (cs.foldl after p).key := by
  induction cs generalizing p with
  | nil => exact le_rfl
  | cons c cs ih => exact (p.key_lt_after c).le.trans (ih (p.after c))

/-- Every further character leads to a later place. -/
theorem key_lt_reached (cs : List Char) {more : List Char} (h : more ≠ []) :
    (reached cs).key < (reached (cs ++ more)).key := by
  obtain ⟨c, more, rfl⟩ := List.exists_cons_of_ne_nil h
  rw [reached, reached, List.foldl_append, List.foldl_cons]
  exact (key_lt_after _ c).trans_le (key_le_foldl _ more)

end Place

/-! Lines of a text: what they hold, and the text they make up. -/

/-! What becomes of the first character of a text, behind what is held of its line. -/

theorem splitLinesAux_empty : splitLinesAux [] [] = [] := rfl

theorem splitLinesAux_nil {acc : List Char} (h : acc ≠ []) : splitLinesAux [] acc = [acc.reverse] := by
  cases acc with
  | nil => exact absurd rfl h
  | cons c acc => rfl

theorem splitLinesAux_feed (cs acc : List Char) :
    splitLinesAux ('\n' :: cs) acc = acc.reverse :: splitLinesAux cs [] := rfl

theorem splitLinesAux_cons {c : Char} (h : c ≠ '\n') (cs acc : List Char) :
    splitLinesAux (c :: cs) acc = splitLinesAux cs (c :: acc) := splitLinesAux.eq_4 acc c cs h

theorem dropReturns_subset (cs : List Char) : dropReturns cs ⊆ cs := by
  induction cs using dropReturns.induct with
  | case1 => simp [dropReturns]
  | case2 cs ih =>
    rw [dropReturns]
    exact List.cons_subset.mpr ⟨by simp, fun c hc => by simp [ih hc]⟩
  | case3 c cs hne ih =>
    rw [dropReturns.eq_3 c cs hne]
    exact List.cons_subset_cons _ ih

theorem dropReturns_eq_self {cs : List Char} (h : '\r' ∉ cs) : dropReturns cs = cs := by
  induction cs using dropReturns.induct with
  | case1 => rfl
  | case2 cs ih => simp at h
  | case3 c cs hne ih =>
    rw [List.mem_cons, not_or] at h
    rw [dropReturns.eq_3 c cs hne, ih h.2]

theorem mem_splitLinesAux {cs acc line : List Char} (hacc : '\n' ∉ acc)
    (h : line ∈ splitLinesAux cs acc) : '\n' ∉ line := by
  induction cs, acc using splitLinesAux.induct with
  | case1 => cases h
  | case2 acc hne =>
    rw [splitLinesAux_nil hne] at h
    simpa [List.mem_singleton.mp h] using hacc
  | case3 acc cs ih =>
    rw [splitLinesAux_feed] at h
    rcases List.mem_cons.mp h with rfl | h
    · simpa using hacc
    · exact ih (by simp) h
  | case4 acc c cs hne ih =>
    rw [splitLinesAux_cons hne] at h
    refine ih ?_ h
    simp only [List.mem_cons, not_or]
    exact ⟨fun hc => hne hc.symm, hacc⟩

theorem not_mem_of_mem_splitLines {cs line : List Char} (h : line ∈ splitLines cs) : '\n' ∉ line :=
  mem_splitLinesAux (by simp) h

theorem subset_of_mem_splitLinesAux {cs acc line : List Char} (h : line ∈ splitLinesAux cs acc) :
    line ⊆ acc.reverse ++ cs := by
  induction cs, acc using splitLinesAux.induct with
  | case1 => cases h
  | case2 acc hne =>
    rw [splitLinesAux_nil hne] at h
    simp [List.mem_singleton.mp h]
  | case3 acc cs ih =>
    rw [splitLinesAux_feed] at h
    rcases List.mem_cons.mp h with rfl | h
    · exact List.subset_append_left ..
    · intro c hc
      exact List.mem_append_right _ (List.mem_cons_of_mem _ (by simpa using ih h hc))
  | case4 acc c cs hne ih =>
    rw [splitLinesAux_cons hne] at h
    simpa using ih h

/-- A line holds nothing but characters of the text. -/
theorem subset_of_mem_splitLines {cs line : List Char} (h : line ∈ splitLines cs) : line ⊆ cs := by
  have hline : line ⊆ dropReturns cs := by simpa using subset_of_mem_splitLinesAux h
  exact fun c hc => dropReturns_subset cs (hline hc)

/-- Text of lines, with a line feed between each two of them. -/
theorem intercalate_cons {line : List Char} {lines : List (List Char)} (h : lines ≠ []) :
    List.intercalate ['\n'] (line :: lines) = line ++ '\n' :: List.intercalate ['\n'] lines := by
  cases lines with
  | nil => exact absurd rfl h
  | cons l ls => simp [List.intercalate_cons_cons]

theorem not_mem_intercalate {α : Type} {a : α} {sep : List α} (hsep : a ∉ sep) {xs : List (List α)}
    (h : ∀ x ∈ xs, a ∉ x) : a ∉ List.intercalate sep xs := by
  induction xs with
  | nil => exact List.not_mem_nil
  | cons x xs ih =>
    have hx := h x (by simp)
    have hxs := ih fun y hy => h y (by simp [hy])
    cases xs with
    | nil => rwa [List.intercalate_singleton]
    | cons y ys =>
      rw [List.intercalate_cons_cons, List.mem_append, List.mem_append, not_or, not_or]
      exact ⟨⟨hx, hsep⟩, hxs⟩

theorem exists_of_mem_intercalate {lines : List (List Char)} {c : Char} (h : c ∈ List.intercalate ['\n'] lines)
    (hc : c ≠ '\n') : ∃ line ∈ lines, c ∈ line := by
  induction lines with
  | nil => cases h
  | cons line lines ih =>
    cases lines with
    | nil => exact ⟨line, List.mem_cons_self .., by simpa using h⟩
    | cons l ls =>
      rw [intercalate_cons (by simp), List.mem_append, List.mem_cons] at h
      rcases h with h | rfl | h
      · exact ⟨line, List.mem_cons_self .., h⟩
      · exact absurd rfl hc
      · obtain ⟨l', hl', h⟩ := ih h
        exact ⟨l', List.mem_cons_of_mem line hl', h⟩

theorem splitLinesAux_ne_nil {cs acc : List Char} (h : acc ++ cs ≠ []) : splitLinesAux cs acc ≠ [] := by
  induction cs, acc using splitLinesAux.induct with
  | case1 => simp at h
  | case2 acc hne =>
    rw [splitLinesAux_nil hne]
    simp
  | case3 cs acc ih =>
    rw [splitLinesAux_feed]
    simp
  | case4 c cs acc hne ih =>
    rw [splitLinesAux_cons hne]
    exact ih (by simp)

/-- The lines make up the text, but for a line feed at its end. -/
theorem intercalate_splitLinesAux (cs acc : List Char) :
    List.intercalate ['\n'] (splitLinesAux cs acc) = acc.reverse ++ cs ∨
      List.intercalate ['\n'] (splitLinesAux cs acc) ++ ['\n'] = acc.reverse ++ cs := by
  induction cs, acc using splitLinesAux.induct with
  | case1 => exact .inl rfl
  | case2 acc hne =>
    rw [splitLinesAux_nil hne]
    exact .inl (by simp)
  | case3 cs acc ih =>
    rw [splitLinesAux_feed]
    cases cs with
    | nil => exact .inr (by simp [splitLinesAux_empty])
    | cons c cs =>
      rw [intercalate_cons (splitLinesAux_ne_nil (by simp)), List.append_assoc, List.cons_append]
      simp only [List.reverse_nil, List.nil_append] at ih
      exact ih.imp (fun h => by rw [h]) (fun h => by rw [h])
  | case4 c cs acc hne ih =>
    rw [splitLinesAux_cons hne]
    simpa using ih

/-- A line feed behind the last line begins no other one. -/
theorem splitLinesAux_append_feed {cs acc : List Char} (hne : acc ++ cs ≠ []) (hlast : cs.getLast? ≠ some '\n') :
    splitLinesAux (cs ++ ['\n']) acc = splitLinesAux cs acc := by
  induction cs, acc using splitLinesAux.induct with
  | case1 => simp at hne
  | case2 acc h =>
    rw [splitLinesAux_nil h, List.nil_append, splitLinesAux_feed]
    rfl
  | case3 cs acc ih =>
    rw [List.cons_append, splitLinesAux_feed, splitLinesAux_feed, ih]
    · rintro rfl
      exact hlast rfl
    · intro h
      rw [List.getLast?_cons, h] at hlast
      exact hlast rfl
  | case4 c cs acc h ih =>
    rw [List.cons_append, splitLinesAux_cons h, splitLinesAux_cons h, ih (by simp)]
    intro h
    rw [List.getLast?_cons, h] at hlast
    exact hlast rfl

theorem intercalate_splitLinesAux_feed (cs acc : List Char) :
    List.intercalate ['\n'] (splitLinesAux (cs ++ ['\n']) acc) = acc.reverse ++ cs := by
  induction cs, acc using splitLinesAux.induct with
  | case1 => rfl
  | case2 acc h =>
    rw [List.nil_append, splitLinesAux_feed, splitLinesAux_empty]
    simp
  | case3 cs acc ih =>
    rw [List.cons_append, splitLinesAux_feed, intercalate_cons (splitLinesAux_ne_nil (by simp)), ih]
    rfl
  | case4 c cs acc h ih =>
    rw [List.cons_append, splitLinesAux_cons h, ih]
    simp

theorem splitLines_of_clean {cs : List Char} (h : '\r' ∉ cs) : splitLines cs = splitLinesAux cs [] := by
  rw [splitLines, dropReturns_eq_self h]

theorem intercalate_splitLines {cs : List Char} (h : '\r' ∉ cs) :
    List.intercalate ['\n'] (splitLines cs) = cs ∨ List.intercalate ['\n'] (splitLines cs) ++ ['\n'] = cs := by
  rw [splitLines_of_clean h]
  exact intercalate_splitLinesAux cs []

/-- The lines make up the text unless it ends in a line feed. -/
theorem intercalate_splitLines_eq_self {cs : List Char} (h : '\r' ∉ cs) :
    List.intercalate ['\n'] (splitLines cs) = cs ↔ cs.getLast? ≠ some '\n' := by
  constructor
  · intro hsame hlast
    obtain ⟨front, rfl⟩ := List.getLast?_eq_some_iff.mp hlast
    rw [splitLines_of_clean h, intercalate_splitLinesAux_feed] at hsame
    simp at hsame
  · intro hlast
    refine (intercalate_splitLines h).resolve_right fun hsame => hlast ?_
    rw [← hsame]
    exact List.getLast?_concat

/-- The first line of a text. -/
theorem head?_splitLinesAux (cs acc : List Char) (h : acc ++ cs ≠ []) :
    (splitLinesAux cs acc).head? = some (acc.reverse ++ cs.takeWhile (· != '\n')) := by
  induction cs, acc using splitLinesAux.induct with
  | case1 => simp at h
  | case2 acc hne =>
    rw [splitLinesAux_nil hne]
    simp
  | case3 cs acc ih =>
    rw [splitLinesAux_feed]
    simp
  | case4 c cs acc hne ih =>
    rw [splitLinesAux_cons hne, ih (by simp)]
    have : c ≠ '\n' := fun hc => hne hc
    simp [this]

theorem intercalate_suffix {ls ls' : List (List Char)} (h : ls' <:+ ls) :
    List.intercalate ['\n'] ls' <:+ List.intercalate ['\n'] ls := by
  induction ls with
  | nil =>
    obtain rfl := List.suffix_nil.mp h
    exact List.suffix_refl _
  | cons l ls ih =>
    rcases List.suffix_cons_iff.mp h with rfl | h
    · exact List.suffix_refl _
    · cases ls with
      | nil =>
        rw [List.suffix_nil.mp h]
        exact List.nil_suffix
      | cons m ms =>
        rw [intercalate_cons (by simp)]
        exact (ih h).trans ((List.suffix_cons ..).trans (List.suffix_append ..))

/-- Line endings that are line feeds already stay as they are. -/
theorem normalizeChars_eq_self {cs : List Char} (h : '\r' ∉ cs) : normalizeChars cs = cs := by
  induction cs using normalizeChars.induct with
  | case1 => rfl
  | case2 cs ih => simp at h
  | case3 c cs hne ih =>
    simp only [List.mem_cons, not_or] at h
    rw [normalizeChars, if_neg (Ne.symm h.1), ih h.2]
    exact hne

theorem not_mem_normalizeChars (cs : List Char) : '\r' ∉ normalizeChars cs := by
  induction cs using normalizeChars.induct with
  | case1 => exact List.not_mem_nil
  | case2 cs ih => simpa [normalizeChars] using ih
  | case3 c cs hne ih =>
    rw [normalizeChars]
    · simp only [List.mem_cons, not_or]
      refine ⟨?_, ih⟩
      split
      · decide
      · rename_i h
        exact Ne.symm h
    · exact hne

theorem not_mem_normalizeLineEndings (s : String) : '\r' ∉ (normalizeLineEndings s).toList := by
  rw [normalizeLineEndings, String.toList_ofList]
  exact not_mem_normalizeChars _

/-- Where the text with equal line ends is split, the text itself can be split. -/
theorem exists_append_of_normalizeChars {cs xs ys : List Char} (h : normalizeChars cs = xs ++ ys) :
    ∃ as bs, cs = as ++ bs ∧ normalizeChars as = xs ∧ normalizeChars bs = ys := by
  induction cs using normalizeChars.induct generalizing xs with
  | case1 =>
    obtain ⟨rfl, rfl⟩ := List.append_eq_nil_iff.mp h.symm
    exact ⟨[], [], rfl, rfl, rfl⟩
  | case2 cs ih =>
    cases xs with
    | nil => exact ⟨[], _, rfl, rfl, h⟩
    | cons x xs =>
      obtain ⟨rfl, hrest⟩ := List.cons.inj h
      obtain ⟨as, bs, rfl, rfl, rfl⟩ := ih hrest
      exact ⟨'\r' :: '\n' :: as, bs, rfl, rfl, rfl⟩
  | case3 c cs hne ih =>
    cases xs with
    | nil => exact ⟨[], _, rfl, rfl, h⟩
    | cons x xs =>
      rw [normalizeChars] at h
      · obtain ⟨rfl, hrest⟩ := List.cons.inj h
        obtain ⟨as, bs, rfl, rfl, rfl⟩ := ih hrest
        refine ⟨c :: as, bs, rfl, ?_, rfl⟩
        rw [normalizeChars]
        rintro cs rfl rfl
        exact hne (cs ++ bs) rfl rfl
      · exact hne

theorem eq_nil_of_normalizeChars {cs : List Char} (h : normalizeChars cs = []) : cs = [] := by
  cases cs using normalizeChars.induct with
  | case1 => rfl
  | case2 cs => cases h
  | case3 c cs hne =>
    rw [normalizeChars] at h
    · cases h
    · exact hne

/-- A mark without line ends stands at the head of both texts or of none. -/
theorem prefix_normalizeChars {mark cs : List Char} (hmark : ∀ c ∈ mark, c ≠ '\r' ∧ c ≠ '\n') :
    mark <+: normalizeChars cs ↔ mark <+: cs := by
  induction cs using normalizeChars.induct generalizing mark with
  | case1 => rfl
  | case2 cs ih =>
    cases mark with
    | nil => simp
    | cons m mark =>
      obtain ⟨hreturn, hfeed⟩ := hmark m List.mem_cons_self
      simp [normalizeChars, List.cons_prefix_cons, hreturn, hfeed]
  | case3 c cs hne ih =>
    cases mark with
    | nil => simp
    | cons m mark =>
      rw [List.forall_mem_cons] at hmark
      have hhead : m = (if c = '\r' then '\n' else c) ↔ m = c := by
        split
        · rename_i hc
          simp [hc, hmark.1]
        · rfl
      rw [normalizeChars, List.cons_prefix_cons, List.cons_prefix_cons, hhead, ih hmark.2]
      exact hne

end RequestLang.Text
