import RequestLang.Proofs.Document.Read.Token
import RequestLang.Proofs.Text.Word
import RequestLang.Proofs.Text.Place

/-! The sources of scripts: tidying them, and reading their blocks. -/
namespace RequestLang.Script
open Lexer Lexeme Text

/-- The lines from the first one that holds more than blanks. -/
def body (cs : List Char) : List (List Char) :=
  (splitLines cs).dropWhile fun line => (trimLeft line).isEmpty

theorem tidy_eq (cs : List Char) : tidy cs = trimRight (List.intercalate ['\n'] (body cs)) := rfl

theorem trimLeft_isEmpty (cs : List Char) : (trimLeft cs).isEmpty = cs.all isBlank := by
  induction cs with
  | nil => rfl
  | cons c cs ih =>
    cases hc : isBlank c with
    | true => simpa [trimLeft, hc] using ih
    | false => simp [trimLeft, hc]

/-- Tidying takes a piece out of a source. -/
theorem tidy_isInfix {cs : List Char} (h : '\r' ∉ cs) : tidy cs <:+: cs := by
  have hlines : List.intercalate ['\n'] (splitLines cs) <+: cs := by
    rcases intercalate_splitLines h with h | h
    · exact ⟨[], by rw [List.append_nil, h]⟩
    · exact ⟨['\n'], h⟩
  rw [tidy_eq]
  exact (trimRight_isPrefix _).isInfix.trans
    ((intercalate_suffix (List.dropWhile_suffix _)).isInfix.trans hlines.isInfix)

/-- Texts that are as they are left by tidying. -/
structure IsTidy (cs : List Char) : Prop where
  first : cs = [] ∨ (cs.takeWhile (· != '\n')).all isBlank = false
  last : trimRight cs = cs
  clean : '\r' ∉ cs

theorem IsTidy.tidy_eq_self {cs : List Char} (h : IsTidy cs) : tidy cs = cs := by
  rcases h.first with rfl | hfirst
  · rfl
  · have hne : cs ≠ [] := by
      rintro rfl
      cases hfirst
    have hhead := head?_splitLinesAux cs [] (by simpa using hne)
    have hbody : body cs = splitLines cs := by
      rw [body, splitLines_of_clean h.clean]
      cases hl : splitLinesAux cs [] with
      | nil => rfl
      | cons line lines =>
        rw [hl] at hhead
        obtain rfl : line = cs.takeWhile (· != '\n') := by simpa using hhead
        rw [List.dropWhile_cons, trimLeft_isEmpty, hfirst]
        rfl
    rw [tidy_eq, hbody]
    rcases intercalate_splitLines h.clean with hsame | hsame
    · rw [hsame, h.last]
    · -- a text with no blank at its end has no line feed there
      exfalso
      have hlength := congrArg List.length h.last
      have hprefix := (trimRight_isPrefix (List.intercalate ['\n'] (splitLines cs))).length_le
      rw [← hsame, trimRight_append_feed, List.length_append] at hlength
      simp only [List.length_cons, List.length_nil] at hlength
      omega

theorem isTidy_tidy {cs : List Char} (h : '\r' ∉ cs) : IsTidy (tidy cs) := by
  refine ⟨?_, trimRight_trimRight _, fun hr => h ((tidy_isInfix h).subset hr)⟩
  rw [tidy_eq]
  cases hb : body cs with
  | nil => exact .inl rfl
  | cons line lines =>
    have hline : line.all isBlank = false := by
      have := List.head?_dropWhile_not (fun line => (trimLeft line).isEmpty) (splitLines cs)
      rw [show ((splitLines cs).dropWhile fun line => (trimLeft line).isEmpty) = line :: lines from hb] at this
      rw [← trimLeft_isEmpty]
      simpa using this
    have hfeed : '\n' ∉ line :=
      not_mem_of_mem_splitLines ((List.dropWhile_subset _) (show line ∈ body cs by rw [hb]; simp))
    have hstart : line <+: List.intercalate ['\n'] (line :: lines) := by
      cases lines with
      | nil => exact ⟨[], by rw [List.append_nil, List.intercalate_singleton]⟩
      | cons l ls => rw [intercalate_cons (by simp)]; exact List.prefix_append ..
    have htrim := trimRight_isPrefix (List.intercalate ['\n'] (line :: lines))
    have hagain := trimRight_trimRight (List.intercalate ['\n'] (line :: lines))
    generalize trimRight (List.intercalate ['\n'] (line :: lines)) = cs' at *
    have hwhole {xs ys : List Char} (hxs : '\n' ∉ xs) : (xs ++ ys).takeWhile (· != '\n') =
        xs ++ ys.takeWhile (· != '\n') :=
      List.takeWhile_append_of_pos fun c hc => by
        rw [bne_iff_ne]
        rintro rfl
        exact hxs hc
    rw [← Bool.not_eq_true]
    by_cases hne : cs' = []
    · exact .inl hne
    refine .inr fun hblank => ?_
    rcases List.prefix_or_prefix_of_prefix htrim hstart with hp | ⟨more, rfl⟩
    · have hfeed' : '\n' ∉ cs' := fun hc => hfeed (hp.subset hc)
      have := @hwhole cs' [] hfeed'
      rw [List.append_nil] at this
      rw [this, List.takeWhile_nil, List.append_nil, List.all_eq_true] at hblank
      rw [trimRight_of_blank hblank] at hagain
      exact hne hagain.symm
    · rw [hwhole hfeed, List.all_append, hline] at hblank
      cases hblank

/-- Line feeds around a tidy source are taken off. -/
theorem tidy_lines {cs : List Char} (h : IsTidy cs) : tidy ('\n' :: (cs ++ ['\n'])) = cs := by
  have hclean : '\r' ∉ '\n' :: (cs ++ ['\n']) := by simpa using h.clean
  have hbody : body ('\n' :: (cs ++ ['\n'])) = body cs := by
    rw [body, body, splitLines_of_clean hclean, splitLines_of_clean h.clean, splitLinesAux_feed,
      List.reverse_nil, List.dropWhile_cons, if_pos (by rfl)]
    by_cases hne : cs = []
    · subst hne
      rfl
    · rw [splitLinesAux_append_feed (by simpa using hne)]
      intro hlast
      obtain ⟨front, rfl⟩ := List.getLast?_eq_some_iff.mp hlast
      have hlength := congrArg List.length h.last
      rw [trimRight_append_feed, List.length_append] at hlength
      have := (trimRight_isPrefix front).length_le
      simp only [List.length_cons, List.length_nil] at hlength
      omega
  rw [tidy_eq, hbody, ← tidy_eq, h.tidy_eq_self]

theorem innerChars_block (cs : List Char) : innerChars ('\x7b' :: '%' :: (cs ++ ['%', '\x7d'])) = cs := by
  have : (cs ++ ['%', '\x7d']).reverse = '\x7d' :: '%' :: cs.reverse := by simp
  simp only [innerChars, this, List.reverse_reverse]

/-- A script that is read from a block of a text is legible. -/
theorem legible_ofBlock {t : Token} {ts : List Token} (h : Scanned (t :: ts)) (ht : t.kind = .script)
    (language : ScriptLanguage) : ({ ofBlock t.text with language } : Script).Legible := by
  obtain ⟨body, htext, hbody⟩ := (h.cuts (by simp [ht])).script ht
  obtain ⟨inner, rfl⟩ := Text.append_mark_of_through? hbody
  have htoken : t.text.toList = '\x7b' :: '%' :: (inner ++ ['%', '\x7d']) := htext
  have hclean : '\r' ∉ inner := fun hr => h.cons.2.1 (by rw [htoken]; simp [hr])
  have hclosed : holds ['%', '\x7d'] inner = false := by
    rw [← Bool.not_eq_true, holds_iff_infix (by simp)]
    rintro ⟨before, after, rfl⟩
    obtain ⟨n, hn, hle⟩ := through?_le ['%', '\x7d'] before (after ++ ['%', '\x7d'])
    rw [← List.append_assoc, hbody] at hn
    simp only [Option.some.injEq, List.length_append, List.length_cons, List.length_nil] at hn hle
    omega
  have hsource {cs : List Char} (hcs : cs <:+ inner) : ({ source := String.ofList (tidy cs), language } : Script).Legible := by
    have hr : '\r' ∉ cs := fun hr => hclean (hcs.subset hr)
    constructor
    · rw [String.toList_ofList, (isTidy_tidy hr).tidy_eq_self]
    · rw [String.toList_ofList, ← Bool.not_eq_true, holds_iff_infix (by simp)]
      rw [← Bool.not_eq_true, holds_iff_infix (by simp)] at hclosed
      exact fun hin => hclosed (hin.trans ((tidy_isInfix hr).trans hcs.isInfix))
    · rw [String.toList_ofList]
      exact (isTidy_tidy hr).clean
  unfold ofBlock
  rw [htoken, innerChars_block]
  dsimp only
  split
  · exact hsource ((List.drop_suffix _ _).trans (List.dropWhile_suffix _))
  · exact hsource (List.suffix_refl _)

/-- The word that may name the language of a script. -/
def firstWord (cs : List Char) : List Char := (trimLeft cs).takeWhile (!isBlank ·)

theorem takeWhile_trimLeft_append (cs : List Char) :
    (trimLeft (cs ++ ['\n'])).takeWhile (!isBlank ·) = firstWord cs := by
  induction cs with
  | nil => rfl
  | cons c cs ih =>
    cases hc : isBlank c with
    | true => simpa [trimLeft, firstWord, hc] using ih
    | false =>
      have hword (cs : List Char) : (cs ++ ['\n']).takeWhile (!isBlank ·) = cs.takeWhile (!isBlank ·) := by
        induction cs with
        | nil => rfl
        | cons d cs ih => cases hd : isBlank d <;> simp [hd, ih]
      simp [trimLeft, firstWord, hc, hword]

theorem toList_block (s : Script) : s.block.toList = '\x7b' :: '%' ::
    (((if s.language = .python then " python" else "").toList ++ '\n' :: (s.source.toList ++ ['\n'])) ++
      ['%', '\x7d']) := by
  simp [block]

theorem languageOf?_eq_some {word : String} {language : ScriptLanguage} (h : languageOf? word = some language) :
    2 ≤ word.toList.length := by
  unfold languageOf? at h
  split at h
  · rename_i hw
    rcases hw with rfl | rfl <;> decide
  split at h
  · rename_i hw
    rcases hw with rfl | rfl <;> decide
  · cases h

/-- A script is read back from its block unless its own first word is taken for a language. -/
theorem ofBlock_block {s : Script} (h : s.Legible) : ofBlock s.block = s ↔
    (s.language = .javascript → languageOf? (String.ofList (firstWord s.source.toList)) = none) := by
  have htidy : IsTidy s.source.toList := h.tidy ▸ isTidy_tidy h.clean
  have hsource : String.ofList (tidy ('\n' :: (s.source.toList ++ ['\n']))) = s.source := by
    rw [tidy_lines htidy, String.ofList_toList]
  have hfeed (cs : List Char) : trimLeft ('\n' :: cs) = trimLeft cs := rfl
  obtain ⟨language, source⟩ := s
  cases language with
  | python =>
    have hinner : trimLeft (" python".toList ++ '\n' :: (source.toList ++ ['\n'])) =
        "python".toList ++ '\n' :: (source.toList ++ ['\n']) := rfl
    have hword : ("python".toList ++ '\n' :: (source.toList ++ ['\n'])).takeWhile (!isBlank ·) =
        "python".toList := rfl
    have hlanguage : languageOf? (String.ofList "python".toList) = some .python := by decide
    have : ofBlock (block ⟨.python, source⟩) = ⟨.python, source⟩ := by
      rw [ofBlock, toList_block, innerChars_block]
      simp only [if_true, hinner, hword, hlanguage]
      exact congrArg (Script.mk .python) hsource
    simp [this]
  | javascript =>
    rw [ofBlock, toList_block, innerChars_block]
    simp only [reduceCtorEq, if_false, String.toList_empty, List.nil_append, hfeed, takeWhile_trimLeft_append,
      true_implies]
    cases hl : languageOf? (String.ofList (firstWord source.toList)) with
    | none => simpa using hsource
    | some language =>
      simp only [reduceCtorEq, iff_false]
      -- the first word is lost
      intro heq
      have hlength := congrArg (fun s : Script => s.source.toList.length) heq
      have hword := languageOf?_eq_some hl
      rw [String.toList_ofList] at hword
      have hclean : '\r' ∉ (trimLeft (source.toList ++ ['\n'])).drop (firstWord source.toList).length := by
        intro hr
        have := (List.dropWhile_suffix isBlank).subset ((List.drop_suffix _ _).subset hr)
        simp at this
        exact h.clean this
      have hle := (tidy_isInfix hclean).length_le
      have htrim : (trimLeft (source.toList ++ ['\n'])).length ≤ (source.toList ++ ['\n']).length :=
        (List.dropWhile_suffix isBlank).length_le
      have hfirst : (firstWord source.toList).length ≤ source.toList.length :=
        Nat.le_trans (List.takeWhile_prefix _).length_le (List.dropWhile_suffix isBlank).length_le
      simp only [String.toList_ofList, List.length_drop, List.length_append, List.length_cons,
        List.length_nil] at hlength hle htrim
      omega

end RequestLang.Script
