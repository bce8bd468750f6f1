import RequestLang.Json.Printer
import RequestLang.Json.Skip
import RequestLang.Proofs.Json.RoundTrip

/-! What the printer of JSON writes, the reader takes back, in each layout and before whatever does not go on with a
number. Numbers have to be whole, and the nesting no deeper than the reader goes. -/
namespace RequestLang.Json
open Lexer

variable {rest : List Char}

theorem skipSpace_gap {g : List Char} (hg : ∀ c ∈ g, isSpace c) (hrest : Stops isSpace rest) :
    skipSpace (g ++ rest) = rest := dropWhile_append_of_stops hg hrest

theorem skipSpace_gap_cons {g : List Char} (hg : ∀ c ∈ g, isSpace c) {c : Char} (hc : isSpace c = false)
    (cs : List Char) : skipSpace (g ++ c :: cs) = c :: cs := skipSpace_gap hg ((stops_cons ..).mpr hc)

/-! Strings. -/

theorem hexValue?_hexDigit : ∀ n < 32, hexValue? (hexDigit (n / 16)) = some (n / 16) ∧
    hexValue? (hexDigit n) = some (n % 16) := by decide

/-- The escape of a control character, behind its letter. -/
theorem readUnicode_control {c : Char} (hc : c.toNat < 32) (tail : List Char) :
    readUnicode ('0' :: '0' :: hexDigit (c.toNat / 16) :: hexDigit c.toNat :: tail) = .ok (c, tail) := by
  obtain ⟨hhigh, hlow⟩ := hexValue?_hexDigit c.toNat hc
  have hcode : (0 * 16 + 0) * 256 + c.toNat / 16 * 16 + c.toNat % 16 = c.toNat := by omega
  have hdigits : hex4? ('0' :: '0' :: hexDigit (c.toNat / 16) :: hexDigit c.toNat :: tail) = some (c.toNat, tail) := by
    rw [hex4?, hhigh, hlow]
    exact congrArg (fun n => some (n, tail)) hcode
  have hlength : ¬Text.byteSize ('0' :: '0' :: hexDigit (c.toNat / 16) :: hexDigit c.toNat :: tail) < 4 := by
    have := (hexDigit (c.toNat / 16)).utf8Size_pos
    have := (hexDigit c.toNat).utf8Size_pos
    have := Char.utf8Size_pos '0'
    simp only [Text.byteSize_cons]
    omega
  have hread : readHex4 ('0' :: '0' :: hexDigit (c.toNat / 16) :: hexDigit c.toNat :: tail) = .ok (c.toNat, tail) := by
    rw [readHex4, if_neg hlength, hdigits]
  have hlone : isLowSurrogate c.toNat = false ∧ isHighSurrogate c.toNat = false := by
    simp only [isLowSurrogate, isHighSurrogate, Bool.and_eq_false_iff, decide_eq_false_iff_not]
    omega
  simp [readUnicode, hread, hlone.1, hlone.2]

/-- A character of a string, as it is written. -/
theorem readString_escapeChar (n : Nat) (c : Char) (tail : List Char) :
    readString (n + 1) (escapeChar c ++ tail) = (do
      let (ds, cs) ← readString n tail
      return (c :: ds, cs)) := by
  have hsimple {e : Char} (he : simpleEscape? e = some c) : readString (n + 1) ('\\' :: e :: tail) = (do
      let (ds, cs) ← readString n tail
      return (c :: ds, cs)) := by
    have hu : e ≠ 'u' := by
      rintro rfl
      cases he
    have hescape : readEscape (e :: tail) = .ok (c, tail) := by
      simp [readEscape, he]
    simp [readString, hescape]
  unfold escapeChar
  split_ifs with hquote hslash hfeed hreturn htab hback hform hcontrol
  · exact hsimple (by rw [hquote]; rfl)
  · exact hsimple (by rw [hslash]; rfl)
  · exact hsimple (by rw [hfeed]; rfl)
  · exact hsimple (by rw [hreturn]; rfl)
  · exact hsimple (by rw [htab]; rfl)
  · exact hsimple (by rw [hback]; rfl)
  · exact hsimple (by rw [hform]; rfl)
  · simp [readString, readEscape, readUnicode_control hcontrol]
  · simp [readString, hquote, hslash, hcontrol]

theorem readString_escaped (cs rest : List Char) {n : Nat} (hn : cs.length < n) :
    readString n (cs.flatMap escapeChar ++ '"' :: rest) = .ok (cs, rest) := by
  induction cs generalizing n with
  | nil =>
    obtain ⟨n, rfl⟩ := Nat.exists_eq_succ_of_ne_zero (Nat.ne_zero_of_lt hn)
    simp [readString]
  | cons c cs ih =>
    obtain ⟨n, rfl⟩ := Nat.exists_eq_succ_of_ne_zero (Nat.ne_zero_of_lt hn)
    rw [List.flatMap_cons, List.append_assoc, readString_escapeChar, ih (Nat.lt_of_succ_lt_succ hn)]
    rfl

theorem length_le_flatMap_escapeChar (cs : List Char) : cs.length ≤ (cs.flatMap escapeChar).length := by
  induction cs with
  | nil => exact Nat.le_refl 0
  | cons c cs ih =>
    have hpos : 0 < (escapeChar c).length := by
      unfold escapeChar
      split_ifs <;> simp
    simp only [List.flatMap_cons, List.length_append, List.length_cons]
    omega

/-- A string behind its first quote. -/
theorem readText_escaped (s : String) (rest : List Char) :
    readText (s.toList.flatMap escapeChar ++ '"' :: rest) = .ok (s, rest) := by
  have hlength := length_le_flatMap_escapeChar s.toList
  rw [readText, readString_escaped s.toList rest (by rw [List.length_append]; omega)]
  simp

/-! Layouts. -/

namespace Layout

/-- Commas and colons with blanks or line ends behind them. -/
structure IsLoose (l : Layout) : Prop where
  comma : ∃ g, (∀ c ∈ g, isSpace c) ∧ l.comma.toList = ',' :: g
  colon : ∃ g, (∀ c ∈ g, isSpace c) ∧ l.colon.toList = ':' :: g

theorem isLoose_pretty (step : Nat) : (pretty step).IsLoose :=
  ⟨⟨[], by simp, by simp [pretty]⟩, ⟨[' '], by simp [isSpace], by simp [pretty]⟩⟩

variable {l : Layout}

theorem isSpace_of_mem_newline {k : Nat} : ∀ c ∈ (l.newline k).toList, isSpace c := by
  intro c hc
  unfold newline at hc
  split at hc
  · simp only [String.toList_append, String.toList_ofList, List.mem_append, List.mem_replicate] at hc
    rcases hc with hc | ⟨-, rfl⟩
    · rw [List.mem_singleton.mp hc]
      rfl
    · rfl
  · cases hc

/-- What stands between two parts. -/
def between (l : Layout) (k : Nat) : List Char := l.comma.toList ++ (l.newline k).toList

theorem toList_enclose (opening closing : String) (k : Nat) {parts : List String} (h : parts ≠ []) :
    (l.enclose opening closing k parts).toList = opening.toList ++ ((l.newline (k + 1)).toList ++
      (List.intercalate (l.between (k + 1)) (parts.map String.toList) ++ ((l.newline k).toList ++ closing.toList))) := by
  simp [enclose, h, between, String.toList_intercalate]

end Layout

/-! The steps of the reader at the marks around parts. -/

section
variable {gap cs : List Char} {c : Char}

theorem readListStart_item (hgap : ∀ c ∈ gap, isSpace c) (hc : isSpace c = false) (hend : c ≠ ']') :
    readListStart (gap ++ c :: cs) = .ok (true, c :: cs) := by
  have hskip := skipSpace_gap_cons hgap hc cs
  simp [readListStart, hskip, hend]

theorem readListGap_end (hgap : ∀ c ∈ gap, isSpace c) : readListGap (gap ++ ']' :: rest) = .ok (false, rest) := by
  have hskip : skipSpace (gap ++ ']' :: rest) = ']' :: rest := skipSpace_gap_cons hgap rfl rest
  simp [readListGap, hskip]

theorem readListGap_comma (hgap : ∀ c ∈ gap, isSpace c) (hc : isSpace c = false) (hend : c ≠ ']') :
    readListGap (',' :: (gap ++ c :: cs)) = .ok (true, c :: cs) := by
  have hcomma : skipSpace (',' :: (gap ++ c :: cs)) = ',' :: (gap ++ c :: cs) := rfl
  have hskip := skipSpace_gap_cons hgap hc cs
  simp [readListGap, hcomma, hskip, hend]

theorem readObjectStart_key (hgap : ∀ c ∈ gap, isSpace c) : readObjectStart (gap ++ '"' :: cs) = .ok (true, cs) := by
  have hskip : skipSpace (gap ++ '"' :: cs) = '"' :: cs := skipSpace_gap_cons hgap rfl cs
  simp [readObjectStart, hskip]

theorem readObjectGap_end (hgap : ∀ c ∈ gap, isSpace c) :
    readObjectGap (gap ++ '\x7d' :: rest) = .ok (false, rest) := by
  have hskip : skipSpace (gap ++ '\x7d' :: rest) = '\x7d' :: rest := skipSpace_gap_cons hgap rfl rest
  simp [readObjectGap, hskip]

theorem readObjectGap_comma (hgap : ∀ c ∈ gap, isSpace c) : readObjectGap (',' :: (gap ++ '"' :: cs)) = .ok (true, cs) := by
  have hcomma : skipSpace (',' :: (gap ++ '"' :: cs)) = ',' :: (gap ++ '"' :: cs) := rfl
  have hskip : skipSpace (gap ++ '"' :: cs) = '"' :: cs := skipSpace_gap_cons hgap rfl cs
  simp [readObjectGap, hcomma, hskip]

/-- A number begins with a sign or a digit, and with nothing else. -/
theorem ne_of_opens_number (hc : c = '-' ∨ c.isDigit) {d : Char} (hd : (d == '-' || d.isDigit) = false) : c ≠ d := by
  rintro rfl
  simp only [Bool.or_eq_false_iff, beq_eq_false_iff_ne] at hd
  rcases hc with hc | hc
  · exact hd.1 hc
  · rw [hd.2] at hc
    cases hc

theorem isSpace_of_opens_number (hc : c = '-' ∨ c.isDigit) : isSpace c = false := by
  have hne {d : Char} (hd : (d == '-' || d.isDigit) = false) : c ≠ d := ne_of_opens_number hc hd
  simp [isSpace, hne (d := ' ') (by decide), hne (d := '\n') (by decide), hne (d := '\t') (by decide),
    hne (d := '\r') (by decide)]

theorem readValue_number (hgap : ∀ c ∈ gap, isSpace c) (hc : c = '-' ∨ c.isDigit) (n depth : Nat) :
    readValue (n + 1) depth (gap ++ c :: cs) = (do
      let (x, cs) ← Number.read (c :: cs)
      return (.number x, cs)) := by
  have hne {d : Char} (hd : (d == '-' || d.isDigit) = false) : c ≠ d := ne_of_opens_number hc hd
  rw [readValue, skipSpace_gap hgap ((stops_cons ..).mpr (isSpace_of_opens_number hc))]
  split
  · contradiction
  · rename_i hcs
    exact absurd (List.cons.inj hcs).1 (hne (by decide))
  · rename_i hcs
    exact absurd (List.cons.inj hcs).1 (hne (by decide))
  · rename_i hcs
    exact absurd (List.cons.inj hcs).1 (hne (by decide))
  · rename_i hcs
    exact absurd (List.cons.inj hcs).1 (hne (by decide))
  · rename_i hcs
    exact absurd (List.cons.inj hcs).1 (hne (by decide))
  · rename_i hcs
    exact absurd (List.cons.inj hcs).1 (hne (by decide))
  · rename_i hcs
    obtain ⟨rfl, rfl⟩ := List.cons.inj hcs
    rw [if_pos hc]

end

/-! Values. -/

mutual

/-- What is read as it was written: numbers that are whole and fit, brackets that nest no deeper than allowed. -/
def Readable (depth : Nat) : Json → Prop
  | .number (.int i) => (Number.int i).Fits
  | .number (.float _) => False
  | .arr items => 0 < depth ∧ ReadableItems (depth - 1) items
  | .obj members => 0 < depth ∧ ReadableMembers (depth - 1) members
  | _ => True

def ReadableItems (depth : Nat) : List Json → Prop
  | [] => True
  | v :: vs => Readable depth v ∧ ReadableItems depth vs

def ReadableMembers (depth : Nat) : List (String × Json) → Prop
  | [] => True
  | (_, v) :: ms => Readable depth v ∧ ReadableMembers depth ms

end

variable {l : Layout} {depth : Nat}

theorem opens_text_int (i : Int) : ∃ c cs, (Number.int i).text.toList = c :: cs ∧ (c = '-' ∨ c.isDigit) := by
  obtain ⟨d, hd | hd⟩ := Number.exists_decimal (n := .int i) trivial
  · obtain ⟨c, cs, hc, hdigit⟩ := d.head_chars
    exact ⟨c, cs, hd.trans hc, .inr hdigit⟩
  · exact ⟨'-', _, hd, .inl rfl⟩

/-- A value begins with a character that is no blank and closes no list. -/
theorem opens_write {v : Json} (hv : v.Readable depth) (k : Nat) :
    ∃ c cs, (v.write l k).toList = c :: cs ∧ isSpace c = false ∧ c ≠ ']' := by
  have henclose (opening closing : Char) (parts : List String) : ∃ cs,
      (l.enclose (String.singleton opening) (String.singleton closing) k parts).toList = opening :: cs := by
    unfold Layout.enclose
    split
    · exact ⟨_, by simp; rfl⟩
    · exact ⟨_, by simp; rfl⟩
  cases v with
  | null => exact ⟨'n', ['u', 'l', 'l'], by simp [write], rfl, by decide⟩
  | bool b =>
    cases b with
    | true => exact ⟨'t', ['r', 'u', 'e'], by simp [write], rfl, by decide⟩
    | false => exact ⟨'f', ['a', 'l', 's', 'e'], by simp [write], rfl, by decide⟩
  | number n =>
    cases n with
    | float x => exact hv.elim
    | int i =>
      obtain ⟨c, cs, hcs, hc⟩ := opens_text_int i
      exact ⟨c, cs, hcs, isSpace_of_opens_number hc, ne_of_opens_number hc (by decide)⟩
  | str s => exact ⟨'"', _, by rw [write, quoted, String.toList_ofList]; rfl, rfl, by decide⟩
  | arr items =>
    obtain ⟨cs, hcs⟩ := henclose '[' ']' (writeItems l (k + 1) items)
    exact ⟨'[', cs, hcs, rfl, by decide⟩
  | obj members =>
    obtain ⟨cs, hcs⟩ := henclose '\x7b' '\x7d' (writeMembers l (k + 1) members)
    exact ⟨'\x7b', cs, hcs, rfl, by decide⟩

/-- Blanks end a number, and so does the mark behind them. -/
theorem stops_gap {gap : List Char} (hgap : ∀ c ∈ gap, isSpace c) {c : Char} (hc : extendsNumber c = false)
    (cs : List Char) : Stops extendsNumber (gap ++ c :: cs) := by
  cases gap with
  | nil => exact (stops_cons ..).mpr hc
  | cons d gap =>
    have hd : isSpace d := hgap d List.mem_cons_self
    simp only [isSpace, Bool.or_eq_true, beq_iff_eq] at hd
    rw [List.cons_append, stops_cons]
    rcases hd with ((rfl | rfl) | rfl) | rfl <;> rfl

/-- The parts of a list and of an object, without the line ends at the brackets. -/
def partChars (l : Layout) (k : Nat) (parts : List String) : List Char :=
  List.intercalate (l.between k) (parts.map String.toList)

theorem partChars_singleton (k : Nat) (part : String) : partChars l k [part] = part.toList := by
  simp [partChars]

theorem partChars_cons_cons (k : Nat) (part next : String) (parts : List String) :
    partChars l k (part :: next :: parts) = part.toList ++ (l.between k ++ partChars l k (next :: parts)) := by
  simp [partChars, List.intercalate_cons_cons]

theorem opens_partChars {part : String} {c : Char} {cs : List Char} (h : part.toList = c :: cs) (k : Nat)
    (parts : List String) : ∃ ds, partChars l k (part :: parts) = c :: ds := by
  cases parts with
  | nil => exact ⟨cs, by rw [partChars_singleton, h]⟩
  | cons next parts => exact ⟨_, by rw [partChars_cons_cons, h, List.cons_append]⟩

/-- The members of an object begin with the quote of a key. -/
theorem opens_writeMembers (l : Layout) (k : Nat) (m : String × Json) (ms : List (String × Json)) :
    ∃ cs, partChars l k (writeMembers l k (m :: ms)) = '"' :: cs := by
  have hopens : (quoted m.1 ++ l.colon ++ write l k m.2).toList =
      '"' :: (m.1.toList.flatMap escapeChar ++ '"' :: (l.colon ++ write l k m.2).toList) := by simp [quoted]
  exact opens_partChars hopens k _

/-- A comma, and blanks or a line end. -/
theorem Layout.IsLoose.between (hl : l.IsLoose) (k : Nat) :
    ∃ g, (∀ c ∈ g, isSpace c) ∧ l.between k = ',' :: g := by
  obtain ⟨g, hg, hcomma⟩ := hl.comma
  refine ⟨g ++ (l.newline k).toList, ?_, by rw [Layout.between, hcomma, List.cons_append]⟩
  exact List.forall_mem_append.mpr ⟨hg, Layout.isSpace_of_mem_newline⟩

/-- A value is read from its text, whatever blanks stand before it and whatever ends a number behind it. The length of
the text is work enough. -/
def ReadsBack (l : Layout) (v : Json) : Prop :=
  ∀ (depth k n : Nat) (gap rest : List Char), v.Readable depth → (v.write l k).toList.length ≤ n →
    (∀ c ∈ gap, isSpace c) → Stops extendsNumber rest →
    readValue n depth (gap ++ ((v.write l k).toList ++ rest)) = .ok (v, rest)

/-- Reading a value takes at least one step, and the step begins at the value. -/
theorem readsBack_of {v : Json} (h : ∀ (depth k n : Nat) (gap rest : List Char), v.Readable depth →
    (v.write l k).toList.length ≤ n + 1 → (∀ c ∈ gap, isSpace c) → Stops extendsNumber rest →
    skipSpace (gap ++ ((v.write l k).toList ++ rest)) = (v.write l k).toList ++ rest →
    readValue (n + 1) depth (gap ++ ((v.write l k).toList ++ rest)) = .ok (v, rest)) : ReadsBack l v := by
  intro depth k n gap rest hv hn hgap hrest
  obtain ⟨c, cs, hopens, hspace, -⟩ := opens_write (l := l) hv k
  obtain ⟨n, rfl⟩ : ∃ m, n = m + 1 := Nat.exists_eq_succ_of_ne_zero fun hzero => by
    rw [hzero, hopens] at hn
    cases hn
  refine h depth k n gap rest hv hn hgap hrest (skipSpace_gap hgap ?_)
  rw [hopens]
  exact (stops_cons ..).mpr hspace

theorem readsBack_null : ReadsBack l .null := readsBack_of fun depth k n gap rest _ _ _ _ hskip => by
  rw [readValue, hskip]
  simp [write, readWord]

theorem readsBack_bool (b : Bool) : ReadsBack l (.bool b) := readsBack_of fun depth k n gap rest _ _ _ _ hskip => by
  rw [readValue, hskip]
  cases b <;> simp [write, readWord]

theorem readsBack_number (x : Number) : ReadsBack l (.number x) :=
  readsBack_of fun depth k n gap rest hv _ hgap hrest _ => by
    cases x with
    | float x => exact hv.elim
    | int i =>
      obtain ⟨d, ds, hds, hd⟩ := opens_text_int i
      rw [write, hds, List.cons_append, readValue_number hgap hd, ← List.cons_append, ← hds, Number.read_text_int hv hrest]
      rfl

theorem readsBack_str (s : String) : ReadsBack l (.str s) := readsBack_of fun depth k n gap rest _ _ _ _ hskip => by
  have hquoted : (write l k (.str s)).toList ++ rest = '"' :: (s.toList.flatMap escapeChar ++ '"' :: rest) := by
    simp [write, quoted]
  rw [readValue, hskip, hquoted]
  simp [readText_escaped]

/-- An item is read, and the rest is up to what stands behind it. -/
theorem readItems_item {v : Json} (h : ReadsBack l v) (hv : v.Readable depth) (k : Nat) {n : Nat}
    (hn : (v.write l k).toList.length ≤ n) {after : List Char} (hafter : Stops extendsNumber after) :
    readItems (n + 1) depth ((v.write l k).toList ++ after) = (do
      let (more, rest) ← readListGap after
      if more then
        let (vs, rest) ← readItems n depth rest
        return (v :: vs, rest)
      else return ([v], rest)) := by
  have hvalue := h depth k n [] after hv hn (by simp) hafter
  rw [List.nil_append] at hvalue
  rw [readItems, hvalue]
  rfl

theorem readItems_write (hl : l.IsLoose) {items : List Json} (h : ∀ v ∈ items, ReadsBack l v)
    (hitems : ReadableItems depth items) (hne : items ≠ []) (k : Nat) {n : Nat}
    (hn : (partChars l k (writeItems l k items)).length < n) {gap : List Char} (hgap : ∀ c ∈ gap, isSpace c)
    (rest : List Char) :
    readItems n depth (partChars l k (writeItems l k items) ++ (gap ++ ']' :: rest)) = .ok (items, rest) := by
  induction items generalizing n with
  | nil => exact absurd rfl hne
  | cons v vs ih =>
    obtain ⟨n, rfl⟩ := Nat.exists_eq_succ_of_ne_zero (Nat.ne_zero_of_lt hn)
    rw [List.forall_mem_cons] at h
    cases vs with
    | nil =>
      rw [writeItems, writeItems, partChars_singleton] at hn ⊢
      rw [readItems_item h.1 hitems.1 k (Nat.le_of_lt_succ hn) (stops_gap hgap (c := ']') rfl rest),
        readListGap_end hgap]
      rfl
    | cons w ws =>
      obtain ⟨g, hg, hbetween⟩ := hl.between k
      obtain ⟨c, cs, hopens, hspace, hend⟩ := opens_write (l := l) hitems.2.1 k
      obtain ⟨ds, hds⟩ := opens_partChars (l := l) hopens k (writeItems l k ws)
      have hparts : partChars l k (writeItems l k (v :: w :: ws)) = (v.write l k).toList ++ (',' :: (g ++ c :: ds)) := by
        rw [writeItems, writeItems, partChars_cons_cons, hbetween, hds, List.cons_append]
      rw [hparts, List.length_append, List.length_cons, List.length_append] at hn
      have hrest := ih h.2 hitems.2 (List.cons_ne_nil _ _) (n := n) (by rw [writeItems, hds]; omega)
      rw [writeItems, hds, List.cons_append] at hrest
      rw [hparts, List.append_assoc, List.cons_append, List.append_assoc, List.cons_append,
        readItems_item h.1 hitems.1 k (by omega) ((stops_cons ..).mpr rfl), readListGap_comma hg hspace hend]
      simp [hrest]

/-! Members, whatever reads their values. -/

/-- The value of a member is found in its text, under the same conditions. -/
def Finds (l : Layout) (value : Nat → String → List Char → Except Fault (Option Json × List Char))
    (m : String × Json) : Prop :=
  ∀ (k n : Nat) (gap rest : List Char), (m.2.write l k).toList.length ≤ n → (∀ c ∈ gap, isSpace c) →
    Stops extendsNumber rest → value n m.1 (gap ++ ((m.2.write l k).toList ++ rest)) = .ok (some m.2, rest)

section
variable {value : Nat → String → List Char → Except Fault (Option Json × List Char)}

/-- A key, the colon and the value are read, and the rest is up to what stands behind them. -/
theorem readMembersBy_member (hl : l.IsLoose) {key : String} {v : Json} (h : Finds l value (key, v)) (k : Nat) {n : Nat}
    {cs : List Char} (hcs : (quoted key ++ l.colon ++ write l k v).toList = '"' :: cs) (hn : cs.length ≤ n)
    {after : List Char} (hafter : Stops extendsNumber after) :
    readMembersBy value (n + 1) (cs ++ after) = (do
      let (more, rest) ← readObjectGap after
      let (ms, rest) ← if more then readMembersBy value n rest else .ok ([], rest)
      return ((key, v) :: ms, rest)) := by
  obtain ⟨g, hg, hcolon⟩ := hl.colon
  have hpart : (quoted key ++ l.colon ++ write l k v).toList =
      '"' :: (key.toList.flatMap escapeChar ++ '"' :: ':' :: (g ++ (v.write l k).toList)) := by simp [quoted, hcolon]
  obtain ⟨-, rfl⟩ := List.cons.inj (hpart.symm.trans hcs)
  simp only [List.length_append, List.length_cons] at hn
  have hvalue := h k n g after (by dsimp only; omega) hg hafter
  dsimp only at hvalue
  have hread (after : List Char) : readColon (':' :: after) = .ok after := rfl
  simp only [List.append_assoc, List.cons_append]
  rw [readMembersBy, readText_escaped]
  simp [hread, hvalue]

theorem readMembersBy_write (hl : l.IsLoose) {members : List (String × Json)} (h : ∀ m ∈ members, Finds l value m)
    (hne : members ≠ []) (k : Nat) {n : Nat} {cs : List Char}
    (hcs : partChars l k (writeMembers l k members) = '"' :: cs) (hn : cs.length < n) {gap : List Char}
    (hgap : ∀ c ∈ gap, isSpace c) (rest : List Char) :
    readMembersBy value n (cs ++ (gap ++ '\x7d' :: rest)) = .ok (members, rest) := by
  induction members generalizing n cs with
  | nil => exact absurd rfl hne
  | cons m ms ih =>
    obtain ⟨n, rfl⟩ := Nat.exists_eq_succ_of_ne_zero (Nat.ne_zero_of_lt hn)
    rw [List.forall_mem_cons] at h
    cases ms with
    | nil =>
      rw [writeMembers, writeMembers, partChars_singleton] at hcs
      rw [readMembersBy_member hl h.1 k hcs (by omega) (stops_gap hgap (c := '\x7d') rfl rest), readObjectGap_end hgap]
      rfl
    | cons next ms =>
      obtain ⟨b, hb, hbetween⟩ := hl.between k
      obtain ⟨ds, hds⟩ := opens_writeMembers l k next ms
      obtain ⟨part, hpart⟩ : ∃ part, (quoted m.1 ++ l.colon ++ write l k m.2).toList = '"' :: part := by simp [quoted]
      have hparts : partChars l k (writeMembers l k (m :: next :: ms)) = '"' :: (part ++ ',' :: (b ++ '"' :: ds)) := by
        rw [writeMembers, writeMembers, partChars_cons_cons, ← writeMembers, hpart, hbetween, hds]
        rfl
      obtain ⟨-, rfl⟩ := List.cons.inj (hparts.symm.trans hcs)
      simp only [List.length_append, List.length_cons] at hn
      have hrest := ih h.2 (List.cons_ne_nil _ _) hds (n := n) (by omega)
      simp only [List.append_assoc, List.cons_append]
      rw [readMembersBy_member hl h.1 k hpart (by omega) ((stops_cons ..).mpr rfl), readObjectGap_comma hb]
      simp [hrest]

/-- An object is read behind its brace, and the brace is where its text begins. -/
theorem readObjectBy_write (hl : l.IsLoose) {members : List (String × Json)} (h : ∀ m ∈ members, Finds l value m)
    (k : Nat) : ∃ cs, (write l k (.obj members)).toList = '\x7b' :: cs ∧ ∀ (n : Nat) (rest : List Char),
      cs.length ≤ n → readObjectBy value n (cs ++ rest) = .ok (.obj members, rest) := by
  cases members with
  | nil =>
    refine ⟨['\x7d'], by simp [write, writeMembers, Layout.enclose], fun n rest _ => ?_⟩
    simp [readObjectBy, readObjectStart, skipSpace, isSpace]
  | cons m ms =>
    obtain ⟨ds, hds⟩ := opens_writeMembers l (k + 1) m ms
    refine ⟨(l.newline (k + 1)).toList ++ ('"' :: ds ++ ((l.newline k).toList ++ ['\x7d'])), ?_, fun n rest hn => ?_⟩
    · rw [write, Layout.toList_enclose _ _ _ (by simp [writeMembers]), ← hds]
      rfl
    · simp only [List.length_append, List.length_cons] at hn
      have hread := readMembersBy_write hl h (List.cons_ne_nil _ _) (k + 1) hds (n := n) (by omega)
        (Layout.isSpace_of_mem_newline (l := l) (k := k)) rest
      rw [readObjectBy]
      simp [readObjectStart_key Layout.isSpace_of_mem_newline, hread]

end

theorem readSome_of_ok {read : Nat → List Char → Except Fault (Json × List Char)} {n : Nat} {cs rest : List Char}
    {v : Json} (h : read n cs = .ok (v, rest)) : readSome read n cs = .ok (some v, rest) := by
  rw [readSome, h]
  rfl

/-- The reader of all members, as one that finds the value of each. -/
theorem readMembers_eq (n depth : Nat) (cs : List Char) :
    readMembers n depth cs = readMembersBy (fun n _ => readSome (readValue · depth) n) n cs := by
  induction n generalizing cs with
  | zero => rw [readMembers, readMembersBy]
  | succ n ih =>
    rw [readMembers, readMembersBy]
    simp only [ih, readSome, bind_assoc, pure_bind]
    refine bind_congr fun key => bind_congr fun after => bind_congr fun v => bind_congr fun more => ?_
    obtain ⟨_ | _, rest⟩ := more <;> rfl

theorem finds_readValue {members : List (String × Json)} (h : ∀ m ∈ members, ReadsBack l m.2)
    (hmembers : ReadableMembers depth members) :
    ∀ m ∈ members, Finds l (fun n _ => readSome (readValue · depth) n) m := by
  induction members with
  | nil => simp
  | cons m ms ih =>
    rw [List.forall_mem_cons] at h ⊢
    refine ⟨fun k n gap rest hn hgap hrest => ?_, ih h.2 hmembers.2⟩
    exact readSome_of_ok (h.1 depth k n gap rest hmembers.1 hn hgap hrest)

theorem readsBack_arr (hl : l.IsLoose) {items : List Json} (h : ∀ v ∈ items, ReadsBack l v) : ReadsBack l (.arr items) :=
  readsBack_of fun depth k n gap rest hv hn _ _ hskip => by
    obtain ⟨hdepth, hitems⟩ := hv
    have hdepth' : depth ≠ 0 := Nat.ne_of_gt hdepth
    cases items with
    | nil =>
      have hempty : (write l k (.arr [])).toList ++ rest = '[' :: ']' :: rest := by
        simp [write, writeItems, Layout.enclose]
      rw [readValue, hskip, hempty]
      simp [hdepth', readListStart, skipSpace, isSpace]
    | cons w ws =>
      obtain ⟨c, cs, hopens, hspace, hend⟩ := opens_write (l := l) hitems.1 (k + 1)
      obtain ⟨ds, hds⟩ := opens_partChars (l := l) hopens (k + 1) (writeItems l (k + 1) ws)
      have henclose : (write l k (.arr (w :: ws))).toList = '[' :: ((l.newline (k + 1)).toList ++
          (partChars l (k + 1) (writeItems l (k + 1) (w :: ws)) ++ ((l.newline k).toList ++ [']']))) := by
        rw [write, Layout.toList_enclose _ _ _ (by simp [writeItems])]
        rfl
      rw [writeItems, hds] at henclose
      have hread := readItems_write hl h hitems (List.cons_ne_nil _ _) (k + 1) (n := n) (by
        rw [writeItems, hds]
        simp only [henclose, List.length_append, List.length_cons, List.length_nil] at hn
        simp only [List.length_cons]
        omega) (Layout.isSpace_of_mem_newline (l := l) (k := k)) rest
      rw [writeItems, hds, List.cons_append] at hread
      rw [readValue, hskip, henclose]
      simp [hdepth', readListStart_item Layout.isSpace_of_mem_newline hspace hend, hread]

theorem readsBack_obj (hl : l.IsLoose) {members : List (String × Json)} (h : ∀ m ∈ members, ReadsBack l m.2) :
    ReadsBack l (.obj members) :=
  readsBack_of fun depth k n gap rest hv hn _ _ hskip => by
    obtain ⟨hdepth, hmembers⟩ := hv
    have hfinds := finds_readValue h hmembers
    obtain ⟨cs, hcs, hread⟩ := readObjectBy_write hl hfinds k
    rw [hcs, List.length_cons] at hn
    have hobject := hread n rest (Nat.le_of_succ_le_succ hn)
    simp only [readObjectBy, ← readMembers_eq] at hobject
    rw [readValue, hskip, hcs, List.cons_append]
    simpa [Nat.ne_of_gt hdepth] using hobject

mutual

/-- Whatever is read as it was written comes back from its text. -/
theorem readsBack (hl : l.IsLoose) (v : Json) : ReadsBack l v := by
  cases v with
  | null => exact readsBack_null
  | bool b => exact readsBack_bool b
  | number x => exact readsBack_number x
  | str s => exact readsBack_str s
  | arr items => exact readsBack_arr hl (readsBack_items hl items)
  | obj members => exact readsBack_obj hl (readsBack_members hl members)

theorem readsBack_items (hl : l.IsLoose) (items : List Json) : ∀ v ∈ items, ReadsBack l v := by
  cases items with
  | nil => simp
  | cons v vs => exact List.forall_mem_cons.mpr ⟨readsBack hl v, readsBack_items hl vs⟩

theorem readsBack_members (hl : l.IsLoose) (members : List (String × Json)) : ∀ m ∈ members, ReadsBack l m.2 := by
  cases members with
  | nil => simp
  | cons m ms => exact List.forall_mem_cons.mpr ⟨readsBack hl m.2, readsBack_members hl ms⟩

end

/-! Records. -/

variable {known : List String}

/-- An object of records, under the keys that they have in it. -/
def ofRecords (records : List (String × List (String × Json))) : Json := .obj (records.map fun (key, r) => (key, .obj r))

/-- A record as it is written: members that matter, with values that are read back. -/
def IsRecord (known : List String) (members : List (String × Json)) : Prop :=
  ∀ m ∈ members, m.1 ∈ known ∧ m.2.Readable maxDepth

theorem finds_readKnown (hl : l.IsLoose) {m : String × Json} (hkey : m.1 ∈ known) (hv : m.2.Readable maxDepth) :
    Finds l (readKnown known) m := by
  intro k n gap rest hn hgap hrest
  rw [readKnown, if_pos hkey]
  exact readSome_of_ok (readsBack hl m.2 maxDepth k n gap rest hv hn hgap hrest)

theorem readRecord_write (hl : l.IsLoose) {members : List (String × Json)} (h : IsRecord known members) (k : Nat) {n : Nat}
    (hn : (write l k (.obj members)).toList.length ≤ n) {gap : List Char} (hgap : ∀ c ∈ gap, isSpace c)
    (rest : List Char) :
    readRecord known n (gap ++ ((write l k (.obj members)).toList ++ rest)) = .ok (.obj members, rest) := by
  obtain ⟨cs, hcs, hread⟩ := readObjectBy_write hl (fun m hm => finds_readKnown hl (h m hm).1 (h m hm).2) k
  rw [hcs, List.length_cons] at hn
  rw [hcs, List.cons_append, readRecord, skipSpace_gap_cons hgap rfl]
  exact hread n rest (Nat.le_of_succ_le hn)

theorem readRecords_write (hl : l.IsLoose) {records : List (String × List (String × Json))}
    (h : ∀ r ∈ records, IsRecord known r.2) (k : Nat) {n : Nat} (hn : (write l k (ofRecords records)).toList.length ≤ n)
    (rest : List Char) :
    readRecords known n ((write l k (ofRecords records)).toList ++ rest) = .ok (ofRecords records, rest) := by
  have hfinds : ∀ m ∈ records.map fun (key, r) => (key, Json.obj r),
      Finds l (fun n _ => readSome (readRecord known) n) m := by
    intro m hm
    obtain ⟨r, hr, rfl⟩ := List.mem_map.mp hm
    exact fun k n gap rest hn hgap _ => readSome_of_ok (readRecord_write hl (h r hr) k hn hgap rest)
  obtain ⟨cs, hcs, hread⟩ := readObjectBy_write hl hfinds k
  rw [ofRecords, hcs, List.length_cons] at hn
  rw [ofRecords, hcs, List.cons_append, readRecords]
  exact hread n rest (Nat.le_of_succ_le hn)

/-- A text that is an object of records and nothing more. -/
theorem readWhole_records (hl : l.IsLoose) {records : List (String × List (String × Json))}
    (h : ∀ r ∈ records, IsRecord known r.2) :
    readWhole (readRecords known) ((ofRecords records).write l 0) = .ok (ofRecords records) := by
  have hread := readRecords_write hl h 0 (n := 2 * ((ofRecords records).write l 0).toList.length + 2) (by omega) []
  rw [List.append_nil] at hread
  rw [readWhole]
  dsimp only
  rw [hread]
  rfl

end RequestLang.Json
