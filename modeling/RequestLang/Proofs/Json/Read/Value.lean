import RequestLang.Literal
import RequestLang.Proofs.Json.Read.Number
import RequestLang.Proofs.Token.Excerpt

/-! Strings that the reader of JSON takes off a text, and what they come to between quotes of the language. -/
namespace RequestLang
open Lexer

namespace Json

/-- Every backslash opens an escape that quoted texts of the language know. -/
def knownEscapes : List Char → Bool
  | '\\' :: c :: cs => (Text.Quoted.unescape? c).isSome && knownEscapes cs
  | _ :: cs => knownEscapes cs
  | [] => true

/-- Code units by their digits, each in an escape of its own. -/
def codeChars (codes : List (List Char)) : List Char := codes.flatMap fun hex => '\\' :: 'u' :: hex

def Hexadecimal (codes : List (List Char)) : Prop := ∀ hex ∈ codes, ∀ c ∈ hex, (hexValue? c).isSome

@[simp] theorem hexadecimal_cons {hex : List Char} {codes : List (List Char)} :
    Hexadecimal (hex :: codes) ↔ (∀ c ∈ hex, (hexValue? c).isSome) ∧ Hexadecimal codes := List.forall_mem_cons

@[simp] theorem hexadecimal_nil : Hexadecimal [] := fun _ h => nomatch h

/-- What stands between the quotes of a string, and what it stands for. -/
inductive Units : List Char → List Char → Prop
  | nil : Units [] []
  | plain {c : Char} {cs ds : List Char} (hquote : c ≠ '"') (hslash : c ≠ '\\') (hcontrol : 32 ≤ c.toNat)
    (h : Units cs ds) : Units (c :: cs) (c :: ds)
  | simple {e d : Char} {cs ds : List Char} (he : simpleEscape? e = some d) (h : Units cs ds) :
    Units ('\\' :: e :: cs) (d :: ds)
  | codes {codes : List (List Char)} {d : Char} {cs ds : List Char} (hne : codes ≠ [])
    (hhex : Hexadecimal codes) (h : Units cs ds) : Units (codeChars codes ++ cs) (d :: ds)

theorem hex4?_eq_some {cs rest : List Char} {n : Nat} (h : hex4? cs = some (n, rest)) :
    ∃ hex, cs = hex ++ rest ∧ ∀ c ∈ hex, (hexValue? c).isSome := by
  unfold hex4? at h
  split at h
  · rename_i a b c d rest'
    obtain ⟨w, ha, h⟩ := Option.bind_eq_some_iff.mp h
    obtain ⟨x, hb, h⟩ := Option.bind_eq_some_iff.mp h
    obtain ⟨y, hc, h⟩ := Option.bind_eq_some_iff.mp h
    obtain ⟨z, hd, h⟩ := Option.bind_eq_some_iff.mp h
    obtain ⟨-, rfl⟩ := Prod.mk.inj (Option.some.inj h)
    exact ⟨[a, b, c, d], rfl, by simp [ha, hb, hc, hd]⟩
  · cases h

theorem readHex4_eq_ok {cs rest : List Char} {n : Nat} (h : readHex4 cs = .ok (n, rest)) :
    ∃ hex, cs = hex ++ rest ∧ ∀ c ∈ hex, (hexValue? c).isSome := by
  unfold readHex4 at h
  split at h
  · exact absurd h before_ne_ok
  split at h
  · rename_i hfound
    rw [Except.ok.injEq] at h
    exact hex4?_eq_some (h ▸ hfound)
  · cases h

theorem readBetween_eq_ok {c : Char} {cs rest : List Char} (h : readBetween c cs = .ok rest) : cs = c :: rest := by
  unfold readBetween at h
  split at h
  · exact absurd h before_ne_ok
  split at h
  · rename_i hd
    rw [hd, Except.ok.inj h]
  · exact absurd h within_ne_ok

theorem readUnicode_eq_ok {cs rest : List Char} {d : Char} (h : readUnicode cs = .ok (d, rest)) :
    ∃ codes, codes ≠ [] ∧ Hexadecimal codes ∧
      '\\' :: 'u' :: cs = codeChars codes ++ rest := by
  unfold readUnicode at h
  obtain ⟨⟨high, tail⟩, hhigh, hrest⟩ := bind_eq_ok.mp h
  obtain ⟨hex, hcs, hhex⟩ := readHex4_eq_ok hhigh
  dsimp only at hrest
  split at hrest
  · exact absurd hrest before_ne_ok
  split at hrest
  · obtain ⟨tail₁, h₁, hrest⟩ := bind_eq_ok.mp hrest
    obtain ⟨tail₂, h₂, hrest⟩ := bind_eq_ok.mp hrest
    obtain ⟨⟨low, tail₃⟩, hlow, hrest⟩ := bind_eq_ok.mp hrest
    obtain ⟨hex', hcs', hhex'⟩ := readHex4_eq_ok hlow
    dsimp only at hrest
    split at hrest
    · obtain ⟨-, rfl⟩ := Prod.mk.inj (Except.ok.inj hrest)
      refine ⟨[hex, hex'], List.cons_ne_nil _ _, by simpa using ⟨hhex, hhex'⟩, ?_⟩
      rw [hcs, readBetween_eq_ok h₁, readBetween_eq_ok h₂, hcs']
      simp [codeChars]
    · exact absurd hrest before_ne_ok
  · obtain ⟨-, rfl⟩ := Prod.mk.inj (Except.ok.inj hrest)
    exact ⟨[hex], List.cons_ne_nil _ _, by simpa using hhex, by simp [codeChars, hcs]⟩

theorem readEscape_eq_ok {cs rest : List Char} {d : Char} (h : readEscape cs = .ok (d, rest)) :
    (∃ e, simpleEscape? e = some d ∧ cs = e :: rest) ∨
      ∃ codes, codes ≠ [] ∧ Hexadecimal codes ∧ '\\' :: cs = codeChars codes ++ rest := by
  unfold readEscape at h
  split at h
  · exact absurd h before_ne_ok
  · exact .inr (readUnicode_eq_ok h)
  · split at h
    · rename_i he
      obtain ⟨rfl, rfl⟩ := Prod.mk.inj (Except.ok.inj h)
      exact .inl ⟨_, he, rfl⟩
    · exact absurd h within_ne_ok

theorem readString_eq_ok {n : Nat} {cs ds rest : List Char} (h : readString n cs = .ok (ds, rest)) :
    ∃ body, cs = body ++ '"' :: rest ∧ Units body ds := by
  induction n generalizing cs ds with
  | zero => exact absurd h before_ne_ok
  | succ n ih =>
    cases cs with
    | nil => exact absurd h before_ne_ok
    | cons c cs =>
      rw [readString] at h
      split at h
      · rename_i hc
        obtain ⟨rfl, rfl⟩ := Prod.mk.inj (Except.ok.inj h)
        exact ⟨[], by rw [hc]; rfl, .nil⟩
      rename_i hquote
      split at h
      · exact absurd h within_ne_ok
      rename_i hcontrol
      dsimp only at h
      split at h
      · rename_i hslash
        obtain ⟨⟨d, tail⟩, hescape, h⟩ := bind_eq_ok.mp h
        obtain ⟨⟨ds', tail'⟩, hstring, h⟩ := bind_eq_ok.mp h
        obtain ⟨rfl, rfl⟩ := Prod.mk.inj (Except.ok.inj h)
        obtain ⟨body, rfl, hunits⟩ := ih hstring
        rcases readEscape_eq_ok hescape with ⟨e, he, rfl⟩ | ⟨codes, hne, hhex, hcodes⟩
        · exact ⟨'\\' :: e :: body, by rw [hslash]; rfl, .simple he hunits⟩
        · exact ⟨codeChars codes ++ body, by rw [hslash, hcodes, List.append_assoc], .codes hne hhex hunits⟩
      · rename_i hslash
        rw [ok_bind] at h
        obtain ⟨⟨ds', tail'⟩, hstring, h⟩ := bind_eq_ok.mp h
        obtain ⟨rfl, rfl⟩ := Prod.mk.inj (Except.ok.inj h)
        obtain ⟨body, rfl, hunits⟩ := ih hstring
        exact ⟨c :: body, rfl, .plain hquote hslash (by omega) hunits⟩

theorem ne_of_isSome_hexValue? {c d : Char} (hc : (hexValue? c).isSome) (hd : hexValue? d = none) : c ≠ d := by
  rintro rfl
  rw [hd] at hc
  cases hc

theorem codeChars_cons (hex : List Char) (codes : List (List Char)) (cs : List Char) :
    codeChars (hex :: codes) ++ cs = '\\' :: 'u' :: (hex ++ (codeChars codes ++ cs)) := by
  simp [codeChars]

/-- The characters of code units close no string. -/
theorem closing?_codeChars {codes : List (List Char)} (hhex : Hexadecimal codes)
    {cs : List Char} {n : Nat} (h : closing? '"' cs = some n) :
    closing? '"' (codeChars codes ++ cs) = some (n + (codeChars codes).length) := by
  have hdigits {hex cs : List Char} {n : Nat} (hhex : ∀ c ∈ hex, (hexValue? c).isSome) (h : closing? '"' cs = some n) :
      closing? '"' (hex ++ cs) = some (n + hex.length) := by
    induction hex with
    | nil => exact h
    | cons c hex ih =>
      rw [List.forall_mem_cons] at hhex
      rw [List.cons_append, closing?_cons (ne_of_isSome_hexValue? hhex.1 (by decide)),
        if_neg (ne_of_isSome_hexValue? hhex.1 (by decide)), if_neg (ne_of_isSome_hexValue? hhex.1 (by decide)),
        ih hhex.2]
      rfl
  induction codes with
  | nil => exact h
  | cons hex codes ih =>
    rw [hexadecimal_cons] at hhex
    have hlength : (codeChars (hex :: codes)).length = (codeChars codes).length + hex.length + 2 := by
      simp [codeChars]
      omega
    rw [codeChars_cons, closing?, if_neg (by decide), hdigits hhex.1 (ih hhex.2), hlength, Option.map_some]
    simp only [Nat.add_assoc]

/-- Code units stand for themselves between quotes of the language. -/
theorem decode_codeChars {codes : List (List Char)} (hhex : Hexadecimal codes)
    (cs : List Char) : Text.Quoted.decode (codeChars codes ++ cs) = codeChars codes ++ Text.Quoted.decode cs := by
  have hdigits {hex : List Char} (hhex : ∀ c ∈ hex, (hexValue? c).isSome) (cs : List Char) :
      Text.Quoted.decode (hex ++ cs) = hex ++ Text.Quoted.decode cs := by
    induction hex with
    | nil => rfl
    | cons c hex ih =>
      rw [List.forall_mem_cons] at hhex
      have hc := ne_of_isSome_hexValue? hhex.1 (d := '\\') (by decide)
      simp [Text.Quoted.decode, hc, ih hhex.2]
  induction codes with
  | nil => rfl
  | cons hex codes ih =>
    rw [hexadecimal_cons] at hhex
    rw [codeChars_cons, codeChars_cons, Text.Quoted.decode]
    simp [Text.Quoted.unescape?, hdigits hhex.1, ih hhex.2]

theorem brace_not_mem_codeChars {codes : List (List Char)} (hhex : Hexadecimal codes) :
    '{' ∉ codeChars codes := by
  intro h
  obtain ⟨hex, hmem, hc⟩ := List.mem_flatMap.mp h
  simp only [List.mem_cons] at hc
  rcases hc with hc | hc | hc
  · cases hc
  · cases hc
  · exact ne_of_isSome_hexValue? (hhex hex hmem '{' hc) (by decide) rfl

/-- A simple escape resolves in the same way if the language knows it, and stands for itself if not. -/
theorem decode_simple {e d : Char} (he : simpleEscape? e = some d) (cs : List Char) :
    d ≠ '{' ∧ e ≠ '\n' ∧ (Text.Quoted.unescape? e = some d ∧
        Text.Quoted.decode ('\\' :: e :: cs) = d :: Text.Quoted.decode cs ∨
      Text.Quoted.unescape? e = none ∧ e ≠ '{' ∧
        Text.Quoted.decode ('\\' :: e :: cs) = '\\' :: e :: Text.Quoted.decode cs) := by
  unfold simpleEscape? at he
  split at he <;> cases he <;> simp [Text.Quoted.decode, Text.Quoted.unescape?]

namespace Units
variable {cs ds : List Char}

theorem closing?_eq (h : Units cs ds) (rest : List Char) : closing? '"' (cs ++ '"' :: rest) = some (cs.length + 1) := by
  induction h with
  | nil => simp [closing?]
  | plain hquote hslash hcontrol _ ih =>
    have hfeed : ∀ {c : Char}, 32 ≤ c.toNat → c ≠ '\n' := by
      rintro _ hc rfl
      simp at hc
    rw [List.cons_append, closing?_cons hslash, if_neg hquote, if_neg (hfeed hcontrol), ih]
    rfl
  | simple he _ ih =>
    rw [List.cons_append, List.cons_append, closing?, if_neg (decode_simple he []).2.1, ih]
    rfl
  | codes hne hhex _ ih =>
    rw [List.append_assoc, closing?_codeChars hhex ih, List.length_append]
    congr 1
    omega

theorem head?_ne (h : Units cs ds) : cs.head? ≠ some '"' := by
  cases h with
  | nil => simp
  | plain hquote => simpa using hquote
  | simple => simp
  | codes hne =>
    obtain ⟨hex, codes, rfl⟩ := List.exists_cons_of_ne_nil hne
    rw [codeChars_cons]
    simp

theorem decode_eq (h : Units cs ds) {rest : List Char} (hknown : knownEscapes (cs ++ rest)) :
    Text.Quoted.decode cs = ds ∧ knownEscapes rest := by
  induction h with
  | nil => exact ⟨rfl, hknown⟩
  | plain hquote hslash _ _ ih =>
    have hrest := ih (by simpa [knownEscapes, hslash] using hknown)
    exact ⟨by simp [Text.Quoted.decode, hslash, hrest.1], hrest.2⟩
  | @simple e d cs ds he _ ih =>
    rw [List.cons_append, List.cons_append, knownEscapes, Bool.and_eq_true] at hknown
    obtain ⟨hds, hrest⟩ := ih hknown.2
    obtain ⟨-, -, ⟨-, hdecode⟩ | ⟨hnone, -⟩⟩ := decode_simple he cs
    · exact ⟨by rw [hdecode, hds], hrest⟩
    · rw [hnone] at hknown
      cases hknown.1
  | codes hne hhex _ ih =>
    obtain ⟨hex, codes, rfl⟩ := List.exists_cons_of_ne_nil hne
    rw [List.append_assoc, codeChars_cons, knownEscapes] at hknown
    cases hknown

theorem infix_of_not_mem {as bs : List Char} (h : '{' ∉ as) (hin : ['{', '{'] <:+: as ++ bs) : ['{', '{'] <:+: bs := by
  induction as with
  | nil => exact hin
  | cons a as ih =>
    rw [List.mem_cons, not_or] at h
    rw [List.cons_append, List.infix_cons_iff, List.cons_prefix_cons] at hin
    rcases hin with ⟨ha, -⟩ | hin
    · exact absurd ha h.1
    · exact ih h.2 hin

theorem head?_decode (h : Units cs ds) (hhead : (Text.Quoted.decode cs).head? = some '{') : ds.head? = some '{' := by
  cases h with
  | nil => cases hhead
  | plain hquote hslash => simpa [Text.Quoted.decode, hslash] using hhead
  | @simple e d cs ds he =>
    obtain ⟨hd, -, ⟨-, hdecode⟩ | ⟨-, -, hdecode⟩⟩ := decode_simple he cs
    · rw [hdecode] at hhead
      exact absurd (Option.some.inj hhead) hd
    · rw [hdecode] at hhead
      cases hhead
  | codes hne hhex =>
    obtain ⟨hex, codes, rfl⟩ := List.exists_cons_of_ne_nil hne
    rw [decode_codeChars hhex, codeChars_cons] at hhead
    cases hhead

/-- What the escapes do not resolve has no opening brace, so a placeholder does not come about. -/
theorem infix_decode (h : Units cs ds) (hin : ['{', '{'] <:+: Text.Quoted.decode cs) : ['{', '{'] <:+: ds := by
  induction h with
  | nil => exact hin
  | @plain c cs ds hquote hslash hcontrol h ih =>
    have hdecode : Text.Quoted.decode (c :: cs) = c :: Text.Quoted.decode cs := by simp [Text.Quoted.decode, hslash]
    rw [hdecode, List.infix_cons_iff, List.cons_prefix_cons] at hin
    rw [List.infix_cons_iff, List.cons_prefix_cons]
    rcases hin with ⟨hc, hnext⟩ | hin
    · have hhead : (Text.Quoted.decode cs).head? = some '{' := by
        obtain ⟨tail, htail⟩ := hnext
        rw [← htail]
        rfl
      obtain ⟨tail, htail⟩ := List.head?_eq_some_iff.mp (h.head?_decode hhead)
      exact .inl ⟨hc, htail ▸ List.prefix_append ['{'] tail⟩
    · exact .inr (ih hin)
  | @simple e d cs ds he h ih =>
    rw [List.infix_cons_iff]
    obtain ⟨hd, -, ⟨-, hdecode⟩ | ⟨-, hbrace, hdecode⟩⟩ := decode_simple he cs
    · rw [hdecode] at hin
      have hbefore : '{' ∉ [d] := by simpa using hd.symm
      exact .inr (ih (infix_of_not_mem hbefore hin))
    · rw [hdecode] at hin
      have hbefore : '{' ∉ ['\\', e] := by simpa using hbrace.symm
      exact .inr (ih (infix_of_not_mem hbefore hin))
  | codes hne hhex h ih =>
    rw [decode_codeChars hhex] at hin
    rw [List.infix_cons_iff]
    exact .inr (ih (infix_of_not_mem (brace_not_mem_codeChars hhex) hin))

theorem holds_decode (h : Units cs ds) (hholes : Text.holds ['{', '{'] ds = false) :
    Text.holds ['{', '{'] (Text.Quoted.decode cs) = false := by
  rw [← Bool.not_eq_true, Text.holds_iff_infix (List.cons_ne_nil _ _)] at hholes ⊢
  exact fun hin => hholes (h.infix_decode hin)

end Units
end Json
end RequestLang

/-! Values that the reader of JSON takes off a text, one level at a time. -/
namespace RequestLang.Json
variable {n depth : Nat} {cs rest : List Char} {v : Json} {vs : List Json} {ms : List (String × Json)}

/-- The words that stand for values. -/
def namedValues : List (String × Json) := [("null", .null), ("true", .bool true), ("false", .bool false)]

/-- The front of a text is a value: a scalar, or a bracket and what is read behind it in less steps. -/
inductive Takes (n : Nat) : List Char → Json → List Char → Prop
  | word {word : String} {v : Json} {rest : List Char} (h : (word, v) ∈ namedValues) :
      Takes n (word.toList ++ rest) v rest
  | number {sign rest : List Char} {d : Decimal} {x : Number} (hsign : sign = [] ∨ sign = ['-'])
      (h : Number.parse? (String.ofList (sign ++ d.chars)) = some x) :
      Takes n (sign ++ d.chars ++ rest) (.number x) rest
  | text {body ds rest : List Char} (h : Units body ds) :
      Takes n ('"' :: (body ++ '"' :: rest)) (.str (String.ofList ds)) rest
  | noItems {g rest : List Char} (hg : ∀ c ∈ g, isSpace c) : Takes n ('[' :: (g ++ ']' :: rest)) (.arr []) rest
  | items {depth : Nat} {g cs rest : List Char} {vs : List Json} (hg : ∀ c ∈ g, isSpace c) (hcs : skipSpace cs = cs)
      (h : readItems n depth cs = .ok (vs, rest)) : Takes n ('[' :: (g ++ cs)) (.arr vs) rest
  | noMembers {g rest : List Char} (hg : ∀ c ∈ g, isSpace c) : Takes n ('{' :: (g ++ '}' :: rest)) (.obj []) rest
  | members {depth : Nat} {g cs rest : List Char} {ms : List (String × Json)} (hg : ∀ c ∈ g, isSpace c)
      (h : readMembers n depth cs = .ok (ms, rest)) : Takes n ('{' :: (g ++ '"' :: cs)) (.obj ms) rest

theorem readText_eq_ok {s : String} (h : readText cs = .ok (s, rest)) :
    ∃ body ds, Units body ds ∧ s = String.ofList ds ∧ cs = body ++ '"' :: rest := by
  unfold readText at h
  obtain ⟨⟨ds, cs'⟩, hstring, hs⟩ := bind_eq_ok.mp h
  obtain ⟨rfl, rfl⟩ := Prod.mk.inj (Except.ok.inj hs)
  obtain ⟨body, hcs, hunits⟩ := readString_eq_ok hstring
  exact ⟨body, ds, hunits, rfl, hcs⟩

/-- A word behind its first character. -/
theorem takes_word {word : String} {w : Json} {c : Char} {cs ws : List Char} (hw : (word, w) ∈ namedValues)
    (hchars : word.toList = c :: ws)
    (h : (do return (w, ← readWord ws cs) : Except Fault (Json × List Char)) = .ok (v, rest)) :
    Takes n (c :: cs) v rest := by
  obtain ⟨cs', hword, hv⟩ := bind_eq_ok.mp h
  obtain ⟨rfl, rfl⟩ := Prod.mk.inj (Except.ok.inj hv)
  rw [readWord_eq_ok hword, ← List.cons_append, ← hchars]
  exact .word hw

theorem readValue_eq_ok (h : readValue (n + 1) depth cs = .ok (v, rest)) : Takes n (skipSpace cs) v rest := by
  rw [readValue] at h
  split at h
  · exact absurd h before_ne_ok
  · rename_i cs' hskip
    obtain ⟨⟨s, cs''⟩, htext, hv⟩ := bind_eq_ok.mp h
    obtain ⟨rfl, rfl⟩ := Prod.mk.inj (Except.ok.inj hv)
    obtain ⟨body, ds, hunits, rfl, rfl⟩ := readText_eq_ok htext
    rw [hskip]
    exact .text hunits
  · rename_i cs' hskip
    rw [hskip]
    split at h
    · exact absurd h before_ne_ok
    obtain ⟨⟨more, cs₁⟩, hstart, hrest⟩ := bind_eq_ok.mp h
    obtain ⟨g, hg, ⟨rfl, rfl⟩ | ⟨rfl, rfl, hcs⟩⟩ := readListStart_eq_ok hstart
    · obtain ⟨rfl, rfl⟩ := Prod.mk.inj (Except.ok.inj hrest)
      exact .noItems hg
    · obtain ⟨⟨vs, cs₂⟩, hitems, hv⟩ := bind_eq_ok.mp hrest
      obtain ⟨rfl, rfl⟩ := Prod.mk.inj (Except.ok.inj hv)
      exact .items hg hcs hitems
  · rename_i cs' hskip
    rw [hskip]
    split at h
    · exact absurd h before_ne_ok
    obtain ⟨⟨more, cs₁⟩, hstart, hrest⟩ := bind_eq_ok.mp h
    obtain ⟨g, hg, ⟨rfl, rfl⟩ | ⟨rfl, rfl⟩⟩ := readObjectStart_eq_ok hstart
    · obtain ⟨rfl, rfl⟩ := Prod.mk.inj (Except.ok.inj hrest)
      exact .noMembers hg
    · obtain ⟨⟨ms, cs₂⟩, hmembers, hv⟩ := bind_eq_ok.mp hrest
      obtain ⟨rfl, rfl⟩ := Prod.mk.inj (Except.ok.inj hv)
      exact .members hg hmembers
  · rename_i cs' hskip
    have hmem : ("true", .bool true) ∈ namedValues := by simp [namedValues]
    rw [hskip]
    exact takes_word hmem rfl h
  · rename_i cs' hskip
    have hmem : ("false", .bool false) ∈ namedValues := by simp [namedValues]
    rw [hskip]
    exact takes_word hmem rfl h
  · rename_i cs' hskip
    have hmem : ("null", .null) ∈ namedValues := by simp [namedValues]
    rw [hskip]
    exact takes_word hmem rfl h
  · rename_i c cs' _ _ _ _ _ _ hskip
    split at h
    · obtain ⟨⟨x, cs₁⟩, hnumber, hv⟩ := bind_eq_ok.mp h
      obtain ⟨rfl, rfl⟩ := Prod.mk.inj (Except.ok.inj hv)
      obtain ⟨sign, d, hsign, hcs, hx⟩ := Number.read_eq_ok hnumber
      rw [hskip, hcs]
      exact .number hsign hx
    · exact absurd h within_ne_ok

/-- An item and how the list goes on behind it. -/
theorem readItems_eq_ok (h : readItems (n + 1) depth cs = .ok (vs, rest)) :
    ∃ v cs₁ g, readValue n depth cs = .ok (v, cs₁) ∧ (∀ c ∈ g, isSpace c) ∧
      (vs = [v] ∧ cs₁ = g ++ ']' :: rest ∨ ∃ j cs₂ vs', (∀ c ∈ j, isSpace c) ∧ cs₁ = g ++ ',' :: (j ++ cs₂) ∧
        skipSpace cs₂ = cs₂ ∧ readItems n depth cs₂ = .ok (vs', rest) ∧ vs = v :: vs') := by
  rw [readItems] at h
  obtain ⟨⟨v, cs₁⟩, hvalue, hbehind⟩ := bind_eq_ok.mp h
  obtain ⟨⟨more, cs₂⟩, hgap, hrest⟩ := bind_eq_ok.mp hbehind
  obtain ⟨g, hg, ⟨rfl, hcs⟩ | ⟨rfl, j, hj, hcs, hskip⟩⟩ := readListGap_eq_ok hgap
  · obtain ⟨rfl, rfl⟩ := Prod.mk.inj (Except.ok.inj hrest)
    exact ⟨v, cs₁, g, hvalue, hg, .inl ⟨rfl, hcs⟩⟩
  · obtain ⟨⟨vs', cs₃⟩, hitems, hvs⟩ := bind_eq_ok.mp hrest
    obtain ⟨rfl, rfl⟩ := Prod.mk.inj (Except.ok.inj hvs)
    exact ⟨v, cs₁, g, hvalue, hg, .inr ⟨j, cs₂, vs', hj, hcs, hskip, hitems, rfl⟩⟩

/-- A member and how the object goes on behind it. -/
theorem readMembers_eq_ok (h : readMembers (n + 1) depth cs = .ok (ms, rest)) :
    ∃ body ds k cs₁ v cs₂ g, Units body ds ∧ (∀ c ∈ k, isSpace c) ∧ cs = body ++ '"' :: (k ++ ':' :: cs₁) ∧
      readValue n depth cs₁ = .ok (v, cs₂) ∧ (∀ c ∈ g, isSpace c) ∧
      (ms = [(String.ofList ds, v)] ∧ cs₂ = g ++ '}' :: rest ∨
        ∃ j cs₃ ms', (∀ c ∈ j, isSpace c) ∧ cs₂ = g ++ ',' :: (j ++ '"' :: cs₃) ∧
          readMembers n depth cs₃ = .ok (ms', rest) ∧ ms = (String.ofList ds, v) :: ms') := by
  rw [readMembers] at h
  obtain ⟨⟨key, cs₀⟩, hkey, hmember⟩ := bind_eq_ok.mp h
  obtain ⟨cs₁, hcolon, hbehind⟩ := bind_eq_ok.mp hmember
  obtain ⟨⟨v, cs₂⟩, hvalue, hbehind⟩ := bind_eq_ok.mp hbehind
  obtain ⟨⟨more, cs₃⟩, hgap, hrest⟩ := bind_eq_ok.mp hbehind
  obtain ⟨body, ds, hunits, rfl, hcs⟩ := readText_eq_ok hkey
  obtain ⟨k, hk, hcs₀⟩ := readColon_eq_ok hcolon
  refine ⟨body, ds, k, cs₁, v, cs₂, ?_⟩
  obtain ⟨g, hg, ⟨rfl, hcs₂⟩ | ⟨rfl, j, hj, hcs₂⟩⟩ := readObjectGap_eq_ok hgap
  · obtain ⟨rfl, rfl⟩ := Prod.mk.inj (Except.ok.inj hrest)
    exact ⟨g, hunits, hk, hcs₀ ▸ hcs, hvalue, hg, .inl ⟨rfl, hcs₂⟩⟩
  · obtain ⟨⟨ms', cs₄⟩, hmembers, hms⟩ := bind_eq_ok.mp hrest
    obtain ⟨rfl, rfl⟩ := Prod.mk.inj (Except.ok.inj hms)
    exact ⟨g, hunits, hk, hcs₀ ▸ hcs, hvalue, hg, .inr ⟨j, cs₃, ms', hj, hcs₂, hmembers, rfl⟩⟩

end RequestLang.Json
