import Mathlib
import RequestLang.Shell.Words

/-! What is quoted as one word is read as that word, alone and in a line, and a shell has nothing to act on
in it. -/
namespace RequestLang.Shell

/-! One step of reading, for the characters that quoted text can hold. -/

@[simp] theorem splitFrom_nil (word : Option (List Char)) : splitFrom false word [] = some word.toList := rfl

@[simp] theorem splitFrom_quote (word : Option (List Char)) (cs : List Char) :
    splitFrom false word ('\'' :: cs) = splitFrom true (some (word.getD [])) cs := by
  cases cs <;> rfl

@[simp] theorem splitFrom_blank (word : Option (List Char)) (cs : List Char) :
    splitFrom false word (' ' :: cs) = (splitFrom false none cs).map (word.toList ++ ·) := by
  cases cs <;> rfl

@[simp] theorem splitFrom_break (word : Option (List Char)) (cs : List Char) :
    splitFrom false word ('\\' :: '\n' :: cs) = splitFrom false word cs := rfl

theorem splitFrom_escape (word : Option (List Char)) (cs : List Char) :
    splitFrom false word ('\\' :: '\'' :: cs) = splitFrom false (extend word '\'') cs := rfl

theorem splitFrom_within (word : Option (List Char)) (c : Char) (cs : List Char) :
    splitFrom true word (c :: cs) =
      if c = '\'' then splitFrom false word cs else splitFrom true (extend word c) cs := rfl

theorem isActive_of_not_special {c : Char} (hc : isSpecial c = false) : isActive c = false := by
  simp only [isSpecial, isActive, List.contains_eq_mem, decide_eq_false_iff_not, List.mem_cons,
    List.not_mem_nil, or_false, not_or] at hc ⊢
  tauto

theorem splitFrom_of_not_special {c : Char} (hc : isSpecial c = false) (word : Option (List Char)) (cs : List Char) :
    splitFrom false word (c :: cs) = splitFrom false (extend word c) cs := by
  have hne : ∀ d, isSpecial d → c ≠ d := by
    rintro d hd rfl
    simp [hc] at hd
  rw [splitFrom]
  · simp [hne '\'' rfl, hne ' ' rfl, hne '\t' rfl, hne '\\' rfl, isActive_of_not_special hc]
  · exact fun _ _ h => absurd h (hne '\\' rfl)

theorem splitFrom_single (cs : List Char) (word rest : List Char) :
    splitFrom true (some word)
        (cs.flatMap (fun c => if c = '\'' then ['\'', '\\', '\'', '\''] else [c]) ++ '\'' :: rest) =
      splitFrom false (some (word ++ cs)) rest := by
  induction cs generalizing word with
  | nil => simp [splitFrom_within]
  | cons c cs ih =>
    by_cases hc : c = '\''
    · subst hc
      simp [splitFrom_within, splitFrom_escape, extend, ih]
    · simp [splitFrom_within, hc, extend, ih]

theorem splitFrom_bare {cs : List Char} (h : ∀ c ∈ cs, isSpecial c = false) (word rest : List Char) :
    splitFrom false (some word) (cs ++ rest) = splitFrom false (some (word ++ cs)) rest := by
  induction cs generalizing word with
  | nil => simp
  | cons c cs ih =>
    rw [List.cons_append, splitFrom_of_not_special (h c (by simp)), extend, Option.getD_some,
      ih (fun d hd => h d (by simp [hd])), List.append_assoc, List.singleton_append]

/-- A quoted text is taken whole, whatever follows it. -/
theorem splitFrom_quotedChars (cs rest : List Char) :
    splitFrom false none (quotedChars cs ++ rest) = splitFrom false (some cs) rest := by
  cases cs with
  | nil => simp [quotedChars, splitFrom_within]
  | cons c cs =>
    unfold quotedChars
    rw [if_neg (by simp)]
    by_cases hspecial : (c :: cs).any isSpecial
    · rw [if_pos hspecial, List.append_assoc, List.cons_append, List.singleton_append, splitFrom_quote]
      exact splitFrom_single (c :: cs) [] rest
    · have hbare : ∀ d ∈ c :: cs, isSpecial d = false := by simpa using hspecial
      rw [if_neg hspecial, List.cons_append, splitFrom_of_not_special (hbare c (by simp))]
      exact splitFrom_bare (fun d hd => hbare d (by simp [hd])) [c] rest

/-- A word ends with the text or before a blank. -/
theorem splitFrom_word (cs : List Char) {rest : List Char} (h : ∀ c ∈ rest.head?, c = ' ') :
    splitFrom false (some cs) rest = (splitFrom false none rest.tail).map (cs :: ·) := by
  cases rest with
  | nil => rfl
  | cons c rest =>
    rw [h c rfl, splitFrom_blank]
    rfl

theorem splitFrom_line {words : List (List Char)} (hne : words ≠ []) {rest : List Char}
    (h : ∀ c ∈ rest.head?, c = ' ') :
    splitFrom false none (List.intercalate [' '] (words.map quotedChars) ++ rest) =
      (splitFrom false none rest.tail).map (words ++ ·) := by
  induction words with
  | nil => exact absurd rfl hne
  | cons word words ih =>
    cases words with
    | nil => simp [List.intercalate_singleton, splitFrom_quotedChars, splitFrom_word _ h]
    | cons next words =>
      have hnext := ih (by simp)
      rw [List.map_cons] at hnext
      rw [List.map_cons, List.map_cons, List.intercalate_cons_cons, List.append_assoc, List.append_assoc,
        splitFrom_quotedChars, List.singleton_append, splitFrom_word _ (by simp), List.tail_cons, hnext,
        Option.map_map]
      rfl

/-- Lines that a backslash leads on from are read as one. -/
theorem split?_lines {lines : List (List (List Char))} (hlines : lines ≠ []) (hne : ∀ words ∈ lines, words ≠ []) :
    split? (List.intercalate [' ', '\\', '\n'] (lines.map fun words => List.intercalate [' '] (words.map quotedChars))) =
      some lines.flatten := by
  unfold split?
  induction lines with
  | nil => exact absurd rfl hlines
  | cons words lines ih =>
    have hwords := hne words (by simp)
    cases lines with
    | nil =>
      have hend : ∀ c ∈ ([] : List Char).head?, c = ' ' := by simp
      simpa [List.intercalate_singleton] using splitFrom_line hwords hend
    | cons next lines =>
      have hrest := ih (by simp) fun ws hws => hne ws (by simp [hws])
      rw [List.map_cons] at hrest
      rw [List.map_cons, List.map_cons, List.intercalate_cons_cons, List.append_assoc, splitFrom_line hwords (by simp)]
      simp only [List.cons_append, List.nil_append, List.tail_cons, splitFrom_break, hrest]
      rfl

theorem lex_quote (word : Option (List Char)) (cs : List Char) :
    lex .plain word ('\'' :: cs) = lex .single (some (word.getD [])) cs := by
  cases cs <;> rfl

theorem lex_blank (c : Char) (hc : c = ' ' ∨ c = '\t') (word : Option (List Char)) (cs : List Char) :
    lex .plain word (c :: cs) = (lex .plain none cs).map (flush word) := by
  rcases hc with rfl | rfl <;> cases cs <;> rfl

theorem lex_of_not_active {c : Char} (hactive : ¬(c = '\\' ∨ isActive c)) (hquote : c ≠ '\'')
    (hblank : ¬(c = ' ' ∨ c = '\t')) (word : Option (List Char)) (cs : List Char) :
    lex .plain word (c :: cs) = lex .plain (extend word c) cs := by
  rw [not_or] at hactive
  have hne : ∀ d, isActive d → c ≠ d := by
    rintro d hd rfl
    exact hactive.2 hd
  rw [lex]
  · simp [hquote, hblank, hne '"' rfl, hne ';' rfl, hne '\n' rfl]
  · exact fun _ _ h => absurd h hactive.1
  · exact fun _ h => absurd h (hne '&' rfl)
  · exact fun _ h => absurd h (hne '|' rfl)

/-- Where a line leaves a shell nothing to act on, the reader of commands finds the same words in it. -/
theorem lex_of_splitFrom {quoted : Bool} {word : Option (List Char)} {cs : List Char} {words : List (List Char)}
    (h : splitFrom quoted word cs = some words) :
    lex (if quoted then .single else .plain) word cs = some (words.map Piece.word) := by
  fun_induction splitFrom quoted word cs generalizing words with
  | case1 word =>
    cases h
    cases word <;> rfl
  | case2 => cases h
  | case3 word cs ih =>
    exact ih h
  | case4 word c cs hc ih =>
    rw [if_pos rfl, lex, if_neg hc]
    exact ih h
  | case5 word cs ih => exact ih h
  | case6 word c cs hc ih =>
    rw [if_neg (by simp), lex, if_neg hc]
    exact ih h
  | case7 word cs hne ih =>
    rw [if_neg (by simp), lex_quote]
    exact ih h
  | case8 word c cs hne hquote hblank ih =>
    obtain ⟨rest, hrest, rfl⟩ := Option.map_eq_some_iff.mp h
    have hlex : lex .plain none cs = some (rest.map Piece.word) := ih hrest
    rcases hblank with rfl | rfl
    · rw [if_neg (by simp), lex_blank ' ' (by simp), hlex]
      cases word <;> rfl
    · rw [if_neg (by simp), lex_blank '\t' (by simp), hlex]
      cases word <;> rfl
  | case9 => cases h
  | case10 word c cs hne hquote hblank hactive ih =>
    rw [if_neg (by simp), lex_of_not_active hactive hquote hblank]
    exact ih h

theorem words?_of_split? {line : List Char} {words : List (List Char)} (h : split? line = some words) :
    words? line = some words := by
  have hlex : lex .plain none line = some (words.map Piece.word) := lex_of_splitFrom h
  simp only [words?, hlex, Option.bind_eq_bind, Option.bind_some, List.mapM_map]
  clear h hlex
  induction words with
  | nil => rfl
  | cons w ws ih =>
    rw [List.mapM_cons, ih]
    rfl

end RequestLang.Shell
