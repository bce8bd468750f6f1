import RequestLang.Literal
import RequestLang.Proofs.Text.Word
import RequestLang.Proofs.Token.Lexeme
import RequestLang.Proofs.Token.Number

/-! Which lexemes the lexer cuts off, depending on what stands behind them. -/
namespace RequestLang
open Lexer

namespace Lexer

theorem closing?_escape {q : Char} (hq : q = '"' ∨ q = '\'') (c : Char) (cs : List Char) :
    closing? q (Text.Quoted.escape q c ++ cs) =
      (closing? q cs).map (· + (Text.Quoted.escape q c).length) := by
  have hq' : q ≠ '\\' ∧ q ≠ '\n' := by rcases hq with rfl | rfl <;> decide
  unfold Text.Quoted.escape
  split
  · simp [closing?]
  split
  · simp [closing?]
  split
  · simp [closing?]
  split
  · simp [closing?]
  split
  · simp [closing?, hq'.2]
  · rename_i hb hn _ _ hne
    simp [closing?, hb, hn, hne]

theorem closing?_encode {q : Char} (hq : q = '"' ∨ q = '\'') (cs rest : List Char) :
    closing? q (Text.Quoted.encode q cs ++ q :: rest) = some ((Text.Quoted.encode q cs).length + 1) := by
  induction cs with
  | nil =>
    have hq' : q ≠ '\\' := by rcases hq with rfl | rfl <;> decide
    simp [Text.Quoted.encode, closing?, hq']
  | cons c cs ih =>
    have : Text.Quoted.encode q (c :: cs) = Text.Quoted.escape q c ++ Text.Quoted.encode q cs := rfl
    rw [this, List.append_assoc, closing?_escape hq, ih]
    simp [Nat.add_assoc, Nat.add_comm]

theorem head?_encode_ne {q : Char} (hq : q = '"' ∨ q = '\'') (cs : List Char) :
    (Text.Quoted.encode q cs).head? ≠ some q := by
  cases cs with
  | nil => simp [Text.Quoted.encode]
  | cons c cs =>
    have hq' : q ≠ '\\' := by rcases hq with rfl | rfl <;> decide
    simp only [Text.Quoted.encode, List.flatMap_cons, Text.Quoted.escape]
    split_ifs <;> simp_all [Ne.symm]

/-- No triple quote opens where a quoted text stands before another character. -/
theorem fence_not_prefix_encode {q : Char} (hq : q = '"' ∨ q = '\'') (cs rest : List Char)
    (hr : cs = [] → rest.head? ≠ some q) :
    [q, q].isPrefixOf (Text.Quoted.encode q cs ++ q :: rest) = false := by
  cases he : Text.Quoted.encode q cs with
  | nil =>
    have hcs : cs = [] := by
      cases cs with
      | nil => rfl
      | cons c cs =>
        have := congrArg Text.Quoted.decode he
        rw [Text.Quoted.decode_encode hq] at this
        cases this
    cases rest with
    | nil => simp [List.isPrefixOf]
    | cons d rest =>
      have : ¬ q = d := by simpa [eq_comm] using hr hcs
      simp [List.isPrefixOf, this]
  | cons d ds =>
    have : ¬ q = d := by
      have := head?_encode_ne hq cs
      rw [he] at this
      simpa [eq_comm] using this
    simp [List.isPrefixOf, this]

end Lexer

namespace Lexeme

def mark (s : String) : Lexeme := ⟨.punctuation, s⟩

def op (s : String) : Lexeme := ⟨.operator, s⟩

def word (s : String) : Lexeme := ⟨.identifier, s⟩

def blank (n : Nat) : Lexeme := ⟨.whitespace, String.ofList (List.replicate n ' ')⟩

def lineEnd : Lexeme := ⟨.newline, "\n"⟩

def quoted (v : String) : Lexeme := ⟨.string, quoteText v⟩

section
attribute [local simp] lexeme? classes newline? headed? lineComment? quoted? tag?
  keywordLength? keywords identifier? operators isGap run_never Text.isNameStart List.isPrefixOf
  Char.isDigit Char.isAlpha Char.isUpper Char.isLower List.findSome?

theorem cuts_lineEnd (rest : List Char) : Cuts lineEnd rest := by
  constructor <;> simp [lineEnd]

theorem cuts_lineEnd_return (rest : List Char) : Cuts ⟨.newline, "\r\n"⟩ rest := by
  constructor <;> simp

theorem cuts_return {rest : List Char} (hr : Stops (· == '\n') rest) : Cuts ⟨.newline, "\r"⟩ rest := by
  cases rest with
  | nil => constructor <;> simp
  | cons c cs =>
    simp only [stops_cons, beq_eq_false_iff_ne] at hr
    constructor <;> simp [hr]

theorem cuts_mark {s : String} (hs : s ∈ ["\x7d", "(", ")", "[", "]", ";", ",", ".", ":"])
    (rest : List Char) : Cuts (mark s) rest := by
  simp only [List.mem_cons, List.not_mem_nil, or_false] at hs
  rcases hs with rfl | rfl | rfl | rfl | rfl | rfl | rfl | rfl | rfl <;>
    constructor <;> simp [mark, fenced?]

theorem cuts_brace {rest : List Char} (hr : Stops (fun c => c == '{' || c == '%') rest) :
    Cuts (mark "\x7b") rest := by
  cases rest with
  | nil => constructor <;> simp [mark, fenced?]
  | cons c cs =>
    simp only [stops_cons, Bool.or_eq_false_iff, beq_eq_false_iff_ne] at hr
    constructor <;> simp [mark, fenced?, Ne.symm hr.1, Ne.symm hr.2]

theorem cuts_op {s : String} (hs : s ∈ ["**", ">>", "+", "-", "%", "=", "<", "?"]) (rest : List Char) :
    Cuts (op s) rest := by
  simp only [List.mem_cons, List.not_mem_nil, or_false] at hs
  rcases hs with rfl | rfl | rfl | rfl | rfl | rfl | rfl | rfl <;>
    constructor <;> simp [op, fenced?]

theorem cuts_star {rest : List Char} (hr : Stops (· == '*') rest) : Cuts (op "*") rest := by
  cases rest with
  | nil => constructor <;> simp [op, fenced?]
  | cons c cs =>
    simp only [stops_cons, beq_eq_false_iff_ne] at hr
    constructor <;> simp [op, fenced?, Ne.symm hr]

theorem cuts_more {rest : List Char} (hr : Stops (· == '>') rest) : Cuts (op ">") rest := by
  cases rest with
  | nil => constructor <;> simp [op, fenced?]
  | cons c cs =>
    simp only [stops_cons, beq_eq_false_iff_ne] at hr
    constructor <;> simp [op, fenced?, Ne.symm hr]

theorem cuts_slash {rest : List Char} (hr : Stops (· == '/') rest) (ho : opensComment rest = false) :
    Cuts (op "/") rest := by
  cases rest with
  | nil => constructor <;> simp [op, fenced?]
  | cons c cs =>
    simp only [stops_cons, beq_eq_false_iff_ne] at hr
    by_cases hc : c = '*'
    · subst hc
      have hnone : Text.through? ['*', '/'] cs = none := by
        simpa [opensComment, Text.holds] using ho
      constructor <;> simp [op, fenced?, hnone]
    · constructor <;> simp [op, fenced?, Ne.symm hr, Ne.symm hc]

theorem stops_of_cuts_star {rest : List Char} (h : Cuts (op "*") rest) : Stops (· == '*') rest := by
  cases rest with
  | nil => simp
  | cons c cs =>
    rw [stops_cons, beq_eq_false_iff_ne]
    rintro rfl
    have := h.lexeme
    simp [op, fenced?] at this

theorem stops_of_cuts_slash {rest : List Char} (h : Cuts (op "/") rest) :
    Stops (· == '/') rest ∧ opensComment rest = false := by
  cases rest with
  | nil => simp [opensComment]
  | cons c cs =>
    have hlex := h.lexeme
    constructor
    · rw [stops_cons, beq_eq_false_iff_ne]
      rintro rfl
      simp [op] at hlex
    · rw [← Bool.not_eq_true]
      intro ho
      unfold opensComment at ho
      split at ho
      · rename_i body hbody
        obtain ⟨rfl, rfl⟩ := List.cons.inj hbody
        obtain ⟨n, hn⟩ := Option.isSome_iff_exists.mp ho
        simp [op, fenced?, hn] at hlex
      · cases ho

theorem cuts_gap {s : String} (hne : s.toList ≠ []) (hs : ∀ c ∈ s.toList, isGap c) {rest : List Char}
    (hr : Stops isGap rest) : Cuts ⟨.whitespace, s⟩ rest := by
  cases hl : s.toList with
  | nil => exact absurd hl hne
  | cons c cs =>
    rw [hl] at hs
    have hrun : run isGap (cs ++ rest) = cs.length := run_append (fun d hd => hs d (by simp [hd])) hr
    have hc : c = ' ' ∨ c = '\t' := by simpa [isGap] using hs c (by simp)
    rcases hc with rfl | rfl <;> constructor <;> simp_all

theorem cuts_blockComment {s : String} {body : List Char} (hs : s.toList = '/' :: '*' :: body)
    (hb : Text.through? ['*', '/'] body = some body.length) (rest : List Char) :
    Cuts ⟨.comment, s⟩ rest := by
  have hbody := Text.through?_append hb rest
  constructor <;> simp [hs, hbody, fenced?]

theorem cuts_lineComment {s : String} {body : List Char} (hs : s.toList = '/' :: '/' :: body ∨ s.toList = '#' :: body)
    (hb : ∀ c ∈ body, c ≠ '\n') {rest : List Char} (hr : Stops (· != '\n') rest) :
    Cuts ⟨.comment, s⟩ rest := by
  have hrun : run (· != '\n') (body ++ rest) = body.length :=
    run_append (fun d hd => by simpa using hb d hd) hr
  rcases hs with hs | hs
  · constructor <;> simp [hs]
    simpa [run] using hrun
  · constructor <;> simp [hs]
    simpa [run] using hrun

theorem cuts_script {s : String} {body : List Char} (hs : s.toList = '{' :: '%' :: body)
    (hb : Text.through? ['%', '}'] body = some body.length) (rest : List Char) :
    Cuts ⟨.script, s⟩ rest := by
  have hbody := Text.through?_append hb rest
  have hh : Text.holds ['%', '}'] ('{' :: '%' :: (body ++ rest)) = true := by
    have : Text.holds ['%', '}'] (body ++ rest) = true := by simp [Text.holds, hbody]
    rw [Text.holds_iff_infix (by simp)] at this ⊢
    exact this.trans (List.suffix_append ['{', '%'] _).isInfix
  constructor <;> simp [hs, hh, hbody, fenced?]

theorem cuts_placeholder {s : String} {body : List Char} (hs : s.toList = '{' :: '{' :: body)
    (hb : Text.through? ['}', '}'] body = some body.length) (rest : List Char) :
    Cuts ⟨.placeholder, s⟩ rest := by
  have hbody := Text.through?_append hb rest
  constructor <;> simp [hs, hbody, fenced?]

theorem cuts_triple {s : String} {q : Char} (hq : q = '"' ∨ q = '\'') {body : List Char}
    (hs : s.toList = q :: q :: q :: body)
    (hb : Text.through? [q, q, q] body = some body.length) (rest : List Char) :
    Cuts ⟨.tripleString, s⟩ rest := by
  have hbody := Text.through?_append hb rest
  rcases hq with rfl | rfl <;> constructor <;> simp [hs, hbody, fenced?]

/-- A quoted text is a lexeme unless another quote makes it the opening of a longer one. -/
theorem cuts_quoted (v : String) {rest : List Char} (hr : Stops (· == '"') rest) :
    Cuts (quoted v) rest := by
  have htext : (quoted v).text.toList = quoteChars v.toList := by simp [quoted, quoteText]
  unfold quoteChars at htext
  split at htext
  · rename_i hdouble
    have hne : v.toList ≠ [] := by rintro h; simp [h] at hdouble
    have hc := closing?_encode (q := '\'') (Or.inr rfl) v.toList rest
    have hf := fence_not_prefix_encode (q := '\'') (Or.inr rfl) v.toList rest (fun h => absurd h hne)
    constructor <;> simp [htext, hc, hf, fenced?]
    rfl
  · have hc := closing?_encode (q := '"') (Or.inl rfl) v.toList rest
    have hf := fence_not_prefix_encode (q := '"') (Or.inl rfl) v.toList rest (fun _ h => by
      have := hr '"' (by simp [h])
      simp at this)
    constructor <;> simp [htext, hc, hf, fenced?]
    rfl

theorem cuts_keyword {w : String} (hw : w.toList ∈ keywords) {rest : List Char}
    (hr : Stops Text.isWord rest) : Cuts ⟨.keyword, w⟩ rest := by
  simp only [keywords, List.mem_cons, List.not_mem_nil, or_false] at hw
  rcases hw with hw | hw
  all_goals
    cases rest with
    | nil => constructor <;> simp [hw, fenced?]
    | cons c rest =>
      rw [stops_cons] at hr
      constructor <;> simp [hw, hr, fenced?]

theorem cuts_of_lexeme? {l : Lexeme} {rest : List Char} {c : Char} {cs : List Char}
    (hl : l.text.toList = c :: cs) (hc : c ≠ '\x7b')
    (h : lexeme? (c :: (cs ++ rest)) = some (l.kind, cs.length + 1)) : Cuts l rest := by
  constructor
  · simp [hl]
  · simp [hl, List.isPrefixOf, Ne.symm hc]
  · simpa [hl] using h

theorem cuts_tag {key : String} (h : isHeaded isTagChar key.toList) {rest : List Char}
    (hr : Stops isTagChar rest) : Cuts ⟨.tag, "@" ++ key⟩ rest := by
  obtain ⟨c, cs, hs, hc, hcs⟩ := cons_of_isHeaded h
  have ht : tag? ('@' :: c :: (cs ++ rest)) = some (cs.length + 2) := by
    simp only [tag?, headed?, hc, run_append hcs hr, if_true, Option.map_some]
  have htext : ("@" ++ key).toList = '@' :: c :: cs := by simp [hs]
  refine cuts_of_lexeme? htext (by decide) ?_
  rw [List.cons_append]
  simp [fenced?, ht, -tag?]

/-- Words, numbers and operators are all that is left for a character that opens nothing else. -/
theorem lexeme?_plain {c : Char} (hc : c ∉ ['\r', '\n', ' ', '\t', '/', '#', '{', '"', '\'', '@'])
    (cs : List Char) :
    lexeme? (c :: cs) = (classes.drop 12).findSome? fun (kind, length?) => (length? (c :: cs)).map (kind, ·) := by
  simp only [List.mem_cons, List.not_mem_nil, or_false, not_or] at hc
  simp [hc, fenced?, Ne.symm hc.2.2.2.2.1, Ne.symm hc.2.2.2.2.2.1, Ne.symm hc.2.2.2.2.2.2.1,
    Ne.symm hc.2.2.2.2.2.2.2.1, Ne.symm hc.2.2.2.2.2.2.2.2.1]

end

theorem lexeme?_digit {c : Char} (hc : c.isDigit) (cs : List Char) :
    lexeme? (c :: cs) = some (.number, numberLength (c :: cs)) := by
  have hne (d : Char) (hd : d.isDigit = false) : d ≠ c := by
    rintro rfl
    simp [hc] at hd
  rw [lexeme?_plain]
  · simp [classes, keywordLength?, keywords, hne 'i' (by decide), hne 'v' (by decide), hc]
  · intro hm
    simp only [List.mem_cons, List.not_mem_nil, or_false] at hm
    rcases hm with rfl | rfl | rfl | rfl | rfl | rfl | rfl | rfl | rfl | rfl <;> simp at hc

theorem lexeme?_nameStart {c : Char} (hc : Text.isNameStart c) (cs : List Char) :
    lexeme? (c :: cs) = ((keywordLength? (c :: cs)).map (TokenKind.keyword, ·)).or
      (some (.identifier, run Text.isNameChar cs + 1)) := by
  have hne (d : Char) (hd : Text.isNameStart d = false) : d ≠ c := by
    rintro rfl
    simp [hc] at hd
  have hdigit := Text.isDigit_of_isNameStart hc
  rw [lexeme?_plain]
  · simp only [classes, List.drop_succ_cons, List.drop_zero, List.findSome?]
    cases keywordLength? (c :: cs) with
    | some n => rfl
    | none =>
      have hi : identifier? (c :: cs) = some (run Text.isNameChar cs + 1) := by
        have := (hne '$' (by decide)).symm
        unfold identifier?
        split
        · simp_all
        · simp [headed?, hc]
      simp [hdigit, hi]
  · intro hm
    simp only [List.mem_cons, List.not_mem_nil, or_false] at hm
    rcases hm with rfl | rfl | rfl | rfl | rfl | rfl | rfl | rfl | rfl | rfl <;>
      exact absurd rfl (hne _ (by decide))

theorem cuts_number {s : String} {c : Char} {cs : List Char} (hs : s.toList = c :: cs) (hc : c.isDigit)
    (hn : numberLength (c :: cs) = cs.length + 1) {rest : List Char} (hr : Stops extendsNumber rest) :
    Cuts ⟨.number, s⟩ rest := by
  have hne : c ≠ '\x7b' := by
    rintro rfl
    simp at hc
  refine cuts_of_lexeme? hs hne ?_
  have : numberLength (c :: cs ++ rest) = cs.length + 1 := numberLength_append hn hr
  rw [lexeme?_digit hc, ← List.cons_append, this]

/-- A keyword is no identifier where no word character follows it. -/
theorem not_keyword_of_cuts {l : Lexeme} {rest : List Char} (h : Cuts l rest)
    (hl : l.kind = .identifier) (hr : Stops Text.isWord rest) : l.text.toList ∉ keywords := by
  intro hmem
  have hlex := (cuts_keyword hmem hr).lexeme
  rw [h.lexeme, hl] at hlex
  simp at hlex

/-- A word shows by itself whether it is a keyword. -/
theorem keywordLength?_append {cs rest : List Char} (hne : cs ∉ keywords)
    (hcs : ∀ c ∈ cs, Text.isNameChar c) (hr : Stops Text.isNameChar rest) :
    keywordLength? (cs ++ rest) = none := by
  refine List.findSome?_eq_none_iff.mpr fun w hw => ?_
  have hletters : ∀ c ∈ w, Text.isNameChar c := by
    have : keywords.all (·.all Text.isNameChar) := by decide
    exact List.all_eq_true.mp (List.all_eq_true.mp this w hw)
  split
  · rename_i hp
    rw [List.isPrefixOf_iff_prefix] at hp
    rcases List.prefix_or_prefix_of_prefix hp (List.prefix_append cs rest) with ⟨t, rfl⟩ | ⟨t, rfl⟩
    · cases t with
      | nil => exact absurd hw (by simpa using hne)
      | cons d t => simp [Text.isWord_of_isNameChar (hcs d (by simp))]
    · cases t with
      | nil => exact absurd hw (by simpa using hne)
      | cons d t =>
        obtain ⟨u, hu⟩ := (List.prefix_append_right_inj cs).mp hp
        have hd : Text.isNameChar d := hletters d (by simp)
        rw [← hu, List.cons_append, stops_cons, hd] at hr
        cases hr
  · rfl

theorem cuts_word {s : String} (h : isHeaded Text.isNameChar s.toList) (hkey : s.toList ∉ keywords)
    {rest : List Char} (hr : Stops Text.isNameChar rest) : Cuts (word s) rest := by
  obtain ⟨c, cs, hs, hc, hcs⟩ := cons_of_isHeaded h
  have hne : c ≠ '\x7b' := by
    rintro rfl
    simp [Text.isNameStart, Char.isAlpha, Char.isUpper, Char.isLower] at hc
  refine cuts_of_lexeme? hs hne ?_
  have hall : ∀ d ∈ c :: cs, Text.isNameChar d := by
    intro d hd
    rcases List.mem_cons.mp hd with rfl | hd
    · exact Text.isNameChar_of_isNameStart hc
    · exact hcs d hd
  have hnone := keywordLength?_append (by rwa [← hs]) hall hr
  rw [List.cons_append] at hnone
  rw [lexeme?_nameStart hc, hnone, run_append hcs hr]
  rfl

theorem cuts_dollarWord {s : String} (h : isHeaded Text.isNameChar s.toList)
    {rest : List Char} (hr : Stops Text.isNameChar rest) : Cuts (word ("$" ++ s)) rest := by
  obtain ⟨c, cs, hs, hc, hcs⟩ := cons_of_isHeaded h
  have htext : (word ("$" ++ s)).text.toList = '$' :: c :: cs := by simp [word, hs]
  refine cuts_of_lexeme? htext (by decide) ?_
  have hi : identifier? ('$' :: c :: (cs ++ rest)) = some (cs.length + 2) := by
    simp [identifier?, headed?, hc, run_append hcs hr]
  rw [List.cons_append, lexeme?_plain (by decide)]
  simp [classes, keywordLength?, keywords, List.findSome?, hi, word]

end Lexeme
end RequestLang
