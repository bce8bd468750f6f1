import RequestLang.Auth.Digest
import RequestLang.Proofs.Text.Place
import RequestLang.Proofs.Text.Word
import RequestLang.Proofs.Token.Stops

/-! Answers to digest challenges, read as challenges are. Values are put between quotes as they are, so that a quote
in one of them ends it, and the rest of it is read as further parameters. -/
namespace RequestLang.Digest
open Lexer (Stops stops_cons takeWhile_append_of_stops dropWhile_append_of_stops)

/-! Reading from left to right. -/

theorem scan_eq_drop (n : Nat) (cs : List Char) : scan n cs = scan 0 (cs.drop n) := by
  induction cs generalizing n with
  | nil => cases n <;> simp [scan]
  | cons c cs ih =>
    cases n with
    | zero => rfl
    | succ n => exact ih n

theorem scan_append {cs rest : List Char} {p : Parameter} (hcs : cs ≠ [])
    (h : parameterAt? (cs ++ rest) = some (p, cs.length)) : scan 0 (cs ++ rest) = p :: scan 0 rest := by
  cases cs with
  | nil => exact absurd rfl hcs
  | cons c cs =>
    rw [List.cons_append] at h
    rw [List.cons_append, scan, h]
    exact congrArg (p :: ·) ((scan_eq_drop ..).trans (by simp))

theorem scan_cons {c : Char} (hc : c.isAlpha = false) (cs : List Char) : scan 0 (c :: cs) = scan 0 cs := by
  have h : parameterAt? (c :: cs) = none := by simp [parameterAt?, hc]
  rw [scan, h]

theorem mem_scan {p : Parameter} {n : Nat} {cs : List Char} (h : p ∈ scan n cs) :
    ∃ found size, found <:+ cs ∧ parameterAt? found = some (p, size) := by
  induction n, cs using scan.induct with
  | case1 n => simp [scan] at h
  | case2 n c cs ih =>
    obtain ⟨found, size, hfound, hp⟩ := ih (by simpa [scan] using h)
    exact ⟨found, size, hfound.trans (List.suffix_cons c cs), hp⟩
  | case3 c cs q size hq ih =>
    rw [scan, hq] at h
    rcases List.mem_cons.mp h with rfl | h
    · exact ⟨c :: cs, size, List.suffix_rfl, hq⟩
    · obtain ⟨found, size, hfound, hp⟩ := ih h
      exact ⟨found, size, hfound.trans (List.suffix_cons c cs), hp⟩
  | case4 c cs hq ih =>
    rw [scan, hq] at h
    obtain ⟨found, size, hfound, hp⟩ := ih h
    exact ⟨found, size, hfound.trans (List.suffix_cons c cs), hp⟩

/-! One parameter. -/

def endsBare (c : Char) : Bool := c == ',' || Text.isBlank c

theorem valueOf_quoted {value : List Char} (h : '"' ∉ value) (rest : List Char) :
    valueOf ('"' :: (value ++ '"' :: rest)) = (String.ofList value, value.length + 2) := by
  have htake : (value ++ '"' :: rest).takeWhile (· != '"') = value :=
    takeWhile_append_of_stops (fun c hc => by simpa using ne_of_mem_of_not_mem hc h) (by simp)
  simp [valueOf, htake]

/-- Without a quote at its head, or with one that stays open, a value ends at a comma or a blank. -/
theorem valueOf_bare {cs : List Char} (h : ∀ rest, cs = '"' :: rest → '"' ∉ rest) :
    valueOf cs = (String.ofList (cs.takeWhile (!endsBare ·)), (cs.takeWhile (!endsBare ·)).length) := by
  unfold valueOf
  split
  · rename_i rest
    have hall : rest.takeWhile (· != '"') = rest :=
      List.takeWhile_eq_self_iff.mpr fun c hc => by simpa using ne_of_mem_of_not_mem hc (h rest rfl)
    simp [hall, endsBare]
  · rfl

/-- A name that parameters have. -/
def isName (cs : List Char) : Bool := cs.head?.any Char.isAlpha && cs.all isNameChar

theorem isNameChar_not_mark {c : Char} (h : isNameChar c) : (c ≠ '"' ∧ c ≠ ',') ∧ c ≠ '=' := by
  refine ⟨⟨?_, ?_⟩, ?_⟩ <;> (rintro rfl; exact absurd h (by decide))

theorem isBlank_not_mark {c : Char} (h : Text.isBlank c) : c ≠ '"' ∧ c ≠ ',' := by
  constructor <;> (rintro rfl; exact absurd h (by decide))

theorem isName_plain {cs : List Char} (h : isName cs) {c : Char} (hc : c ∈ cs) : c ≠ '"' ∧ c ≠ '=' := by
  have hchar := isNameChar_not_mark (List.all_eq_true.mp (Bool.and_eq_true_iff.mp h).2 c hc)
  exact ⟨hchar.1.1, hchar.2⟩

theorem parameterAt?_eq {name : List Char} (h : isName name) {start : List Char}
    (hstart : Stops Text.isBlank start) : parameterAt? (name ++ '=' :: start) =
      some (⟨(String.ofList name).toLower, (valueOf start).1⟩, name.length + 1 + (valueOf start).2) := by
  obtain ⟨halpha, hchars⟩ := Bool.and_eq_true_iff.mp h
  have hchars : ∀ c ∈ name, isNameChar c := List.all_eq_true.mp hchars
  have htake : (name ++ '=' :: start).takeWhile isNameChar = name :=
    takeWhile_append_of_stops hchars ((stops_cons ..).mpr (by decide))
  have hdrop : (name ++ '=' :: start).dropWhile isNameChar = '=' :: start :=
    dropWhile_append_of_stops hchars ((stops_cons ..).mpr (by decide))
  have hequals : Text.trimLeft ('=' :: start) = '=' :: start := rfl
  cases name with
  | nil => cases halpha
  | cons c cs =>
    have hc : c.isAlpha := by simpa using halpha
    rw [List.cons_append] at htake hdrop
    simp only [parameterAt?, List.cons_append, hc, if_true, htake, hdrop, hequals, Text.trimLeft_eq_self hstart]
    simp
    omega

/-- What stands before the value of a parameter. -/
structure IsLead (cs : List Char) : Prop where
  plain : ∀ c ∈ cs, c ≠ '"' ∧ c ≠ ','
  equals : '=' ∈ cs
  long : 2 ≤ cs.length

theorem exists_lead {cs : List Char} {p : Parameter} {size : Nat} (h : parameterAt? cs = some (p, size)) :
    ∃ lead start, cs = lead ++ start ∧ IsLead lead ∧ p.value = (valueOf start).1 := by
  unfold parameterAt? at h
  split at h
  case h_2 => cases h
  rename_i c tail
  split at h
  case isFalse => cases h
  rename_i hc
  dsimp only at h
  split at h
  case h_2 => cases h
  rename_i after hafter
  obtain ⟨rfl, -⟩ := Prod.mk.inj (Option.some.inj h)
  let name := (c :: tail).takeWhile isNameChar
  let rest := (c :: tail).dropWhile isNameChar
  have hblanks {ds : List Char} : ∀ d ∈ ds.takeWhile Text.isBlank, d ≠ '"' ∧ d ≠ ',' :=
    fun d hd => isBlank_not_mark (List.mem_takeWhile_imp hd)
  have hname : ∀ d ∈ name, d ≠ '"' ∧ d ≠ ',' := fun d hd =>
    (isNameChar_not_mark (List.mem_takeWhile_imp hd)).1
  have hne : name ≠ [] := by
    have hchar : isNameChar c := by simp [isNameChar, Char.isAlphanum, hc]
    simp [name, hchar]
  refine ⟨name ++ rest.takeWhile Text.isBlank ++ '=' :: after.takeWhile Text.isBlank, Text.trimLeft after, ?_, ?_, rfl⟩
  · have hrest : rest = rest.takeWhile Text.isBlank ++ '=' :: after := by
      rw [← hafter]
      exact List.takeWhile_append_dropWhile.symm
    calc c :: tail = name ++ rest := List.takeWhile_append_dropWhile.symm
      _ = name ++ (rest.takeWhile Text.isBlank ++ '=' :: after) := by rw [← hrest]
      _ = _ := by simp [Text.trimLeft, List.takeWhile_append_dropWhile]
  · have hlength := List.length_pos_iff.mpr hne
    constructor
    · rintro d hd
      rcases List.mem_append.mp hd with hd | hd
      · exact (List.mem_append.mp hd).elim (hname d) (hblanks d)
      · rcases List.mem_cons.mp hd with rfl | hd
        · decide
        · exact hblanks d hd
    · simp
    · simp only [List.length_append, List.length_cons]
      omega

/-! Fields side by side. -/

/-- A field of an answer. -/
inductive Field where
  | quoted (name value : String)
  | bare (name value : String)

namespace Field

def value : Field → String
  | quoted _ value | bare _ value => value

def chars : Field → List Char
  | quoted name value => name.toList ++ '=' :: '"' :: (value.toList ++ ['"'])
  | bare name value => name.toList ++ '=' :: value.toList

def text : Field → String
  | quoted name value => Digest.quoted name value
  | bare name value => name ++ "=" ++ value

theorem toList_text (f : Field) : f.text.toList = f.chars := by
  cases f <;> simp [text, chars, Digest.quoted]

/-- Names are such, and nothing in a bare value ends it or opens another. -/
def isSound : Field → Bool
  | quoted name _ => isName name.toList
  | bare name value => isName name.toList && value.toList.all fun c => c != '"' && !endsBare c

/-- What is read of a field. A quote in a value ends it. -/
def parameter : Field → Parameter
  | quoted name value => ⟨name.toLower, String.ofList (value.toList.takeWhile (· != '"'))⟩
  | bare name value => ⟨name.toLower, value⟩

end Field

/-- A text goes on behind a quote in it. -/
def Torn (cs : List Char) : Prop := ∃ before c after, cs = before ++ '"' :: c :: after ∧ c ≠ '"'

/-- Fields with a comma and a blank before each. -/
def laid (fields : List Field) : List Char := fields.flatMap fun f => ',' :: ' ' :: f.chars

theorem Torn.quote_mem {cs : List Char} (h : Torn cs) : '"' ∈ cs := by
  obtain ⟨before, c, after, rfl, -⟩ := h
  simp

theorem Torn.of_isInfix {cs ds : List Char} (h : Torn cs) (hcs : cs <:+: ds) : Torn ds := by
  obtain ⟨before, c, after, rfl, hc⟩ := h
  obtain ⟨left, right, rfl⟩ := hcs
  exact ⟨left ++ before, c, after ++ right, by simp, hc⟩

theorem Torn.of_append_quote {cs : List Char} (h : Torn (cs ++ ['"'])) : Torn cs := by
  obtain ⟨before, c, after, heq, hc⟩ := h
  rcases List.eq_nil_or_concat after with rfl | ⟨after, last, rfl⟩
  · have hlast : cs ++ ['"'] = (before ++ ['"']) ++ [c] := by simpa using heq
    exact absurd (List.singleton_inj.mp (List.append_inj' hlast rfl).2).symm hc
  · have hinit : cs ++ ['"'] = (before ++ '"' :: c :: after) ++ [last] := by simpa using heq
    exact ⟨before, c, after, (List.append_inj' hinit rfl).1, hc⟩

/-- Of a text that does not go on behind a quote only quotes are left from the first one on. -/
theorem dropWhile_of_not_torn {cs : List Char} (h : ¬Torn cs) :
    ∃ n, cs.dropWhile (· != '"') = List.replicate n '"' := by
  induction cs with
  | nil => exact ⟨0, rfl⟩
  | cons c cs ih =>
    have hrest : ¬Torn cs := fun htorn => h (htorn.of_isInfix (List.suffix_cons c cs).isInfix)
    by_cases hc : c = '"'
    · subst hc
      refine ⟨cs.length + 1, ?_⟩
      rw [List.dropWhile_cons_of_neg (by decide), List.replicate_succ]
      obtain ⟨n, hn⟩ := ih hrest
      cases cs with
      | nil => rfl
      | cons d ds =>
        have hd : d = '"' := by
          by_contra hd
          exact h ⟨[], d, ds, rfl, hd⟩
        subst hd
        rw [List.dropWhile_cons_of_neg (by decide)] at hn
        rw [hn, List.length_replicate]
    · rw [List.dropWhile_cons_of_pos (by simpa using hc)]
      exact ih hrest

theorem scan_replicate (n : Nat) (cs : List Char) : scan 0 (List.replicate n '"' ++ cs) = scan 0 cs := by
  induction n with
  | zero => rfl
  | succ n ih => rw [List.replicate_succ, List.cons_append, scan_cons (by decide), ih]

theorem head?_laid (fields : List Field) : ∀ c ∈ (laid fields).head?, c = ',' := by
  cases fields with
  | nil => simp [laid]
  | cons f fs => simp [laid]

theorem scan_quoted {name : List Char} (hname : isName name) {value : List Char} (htorn : ¬Torn value)
    (more : List Char) : scan 0 (name ++ '=' :: '"' :: (value ++ '"' :: more)) =
      ⟨(String.ofList name).toLower, String.ofList (value.takeWhile (· != '"'))⟩ :: scan 0 more := by
  obtain ⟨n, hn⟩ := dropWhile_of_not_torn htorn
  let read := value.takeWhile (· != '"')
  have hread : '"' ∉ read := fun h => by simpa using List.mem_takeWhile_imp h
  have hvalue : value ++ '"' :: more = read ++ '"' :: (List.replicate n '"' ++ more) := by
    have hclose : List.replicate n '"' ++ ['"'] = '"' :: List.replicate n '"' := List.replicate_succ'.symm
    calc value ++ '"' :: more = read ++ value.dropWhile (· != '"') ++ '"' :: more := by
          rw [List.takeWhile_append_dropWhile]
      _ = read ++ ((List.replicate n '"' ++ ['"']) ++ more) := by simp [hn]
      _ = _ := by rw [hclose, List.cons_append]
  let field := name ++ '=' :: '"' :: (read ++ ['"'])
  have hsplit : name ++ '=' :: '"' :: (value ++ '"' :: more) = field ++ (List.replicate n '"' ++ more) := by
    rw [hvalue]
    simp [field]
  have hfound : parameterAt? (field ++ (List.replicate n '"' ++ more)) =
      some (⟨(String.ofList name).toLower, String.ofList read⟩, field.length) := by
    rw [← hsplit, hvalue, parameterAt?_eq hname ((stops_cons ..).mpr rfl), valueOf_quoted hread]
    simp [field]
    omega
  rw [hsplit, scan_append (by simp [field]) hfound, scan_replicate]

theorem scan_bare {name : List Char} (hname : isName name) {value : List Char}
    (hvalue : ∀ c ∈ value, c ≠ '"' ∧ endsBare c = false) {more : List Char} (hmore : ∀ c ∈ more.head?, c = ',') :
    scan 0 (name ++ '=' :: (value ++ more)) =
      ⟨(String.ofList name).toLower, String.ofList value⟩ :: scan 0 more := by
  have htake : (value ++ more).takeWhile (!endsBare ·) = value :=
    takeWhile_append_of_stops (fun c hc => by simp [(hvalue c hc).2]) fun c hc => by rw [hmore c hc]; rfl
  have hhead : ∀ c ∈ (value ++ more).head?, c ≠ '"' ∧ Text.isBlank c = false := fun c hc => by
    cases value with
    | nil =>
      rw [hmore c hc]
      decide
    | cons d ds =>
      obtain rfl : d = c := by simpa using hc
      obtain ⟨hquote, hends⟩ := hvalue d (List.mem_cons_self ..)
      exact ⟨hquote, (Bool.or_eq_false_iff.mp hends).2⟩
  have hopen : ∀ rest, value ++ more = '"' :: rest → '"' ∉ rest := fun rest hrest =>
    absurd rfl (hhead '"' (by rw [hrest]; rfl)).1
  have hsplit : name ++ '=' :: (value ++ more) = (name ++ '=' :: value) ++ more := by simp
  have hfound : parameterAt? ((name ++ '=' :: value) ++ more) =
      some (⟨(String.ofList name).toLower, String.ofList value⟩, (name ++ '=' :: value).length) := by
    rw [← hsplit, parameterAt?_eq hname fun c hc => (hhead c hc).2, valueOf_bare hopen, htake]
    simp
    omega
  rw [hsplit, scan_append (by simp) hfound]

theorem scan_field {f : Field} (hsound : f.isSound) (htorn : ¬Torn f.value.toList) {more : List Char}
    (hmore : ∀ c ∈ more.head?, c = ',') : scan 0 (f.chars ++ more) = f.parameter :: scan 0 more := by
  cases f with
  | quoted name value =>
    have htorn : ¬Torn value.toList := htorn
    simpa [Field.chars, Field.parameter] using scan_quoted hsound htorn more
  | bare name value =>
    obtain ⟨hname, hvalue⟩ := Bool.and_eq_true_iff.mp hsound
    have hvalue : ∀ c ∈ value.toList, c ≠ '"' ∧ endsBare c = false := by simpa using hvalue
    simpa [Field.chars, Field.parameter] using scan_bare hname hvalue hmore

theorem scan_laid {fields : List Field} (hsound : ∀ f ∈ fields, f.isSound)
    (htorn : ∀ f ∈ fields, ¬Torn f.value.toList) : scan 0 (laid fields) = fields.map Field.parameter := by
  induction fields with
  | nil => rfl
  | cons f fs ih =>
    rw [List.forall_mem_cons] at hsound htorn
    have hfield := scan_field hsound.1 htorn.1 (head?_laid fs)
    have hrest := ih hsound.2 htorn.2
    rw [show laid (f :: fs) = ',' :: ' ' :: (f.chars ++ laid fs) by simp [laid], scan_cons (by decide),
      scan_cons (by decide), hfield, hrest, List.map_cons]

/-! What is read of values that go on behind a quote is shorter than one of them. -/

/-- A text without a comma stands within one field. -/
theorem exists_field {fields : List Field} {found after : List Char} (hne : found ≠ []) (hcomma : ',' ∉ found)
    (h : found ++ after <:+ laid fields) :
    ∃ f ∈ fields, ∃ tail more, tail <:+ ' ' :: f.chars ∧ found ++ after = tail ++ more ∧ found <+: tail := by
  induction fields with
  | nil => exact absurd (List.append_eq_nil_iff.mp (List.suffix_nil.mp h)).1 hne
  | cons f fs ih =>
    have hlaid : laid (f :: fs) = ',' :: (' ' :: f.chars ++ laid fs) := by simp [laid]
    rw [hlaid, List.suffix_cons_iff] at h
    rcases h with h | h
    · obtain ⟨c, cs, rfl⟩ := List.exists_cons_of_ne_nil hne
      rw [List.cons_append] at h
      exact absurd (by simp [(List.cons.inj h).1]) hcomma
    obtain ⟨before, h⟩ := h
    rcases List.append_eq_append_iff.mp h with ⟨tail, hf, hfound⟩ | ⟨skipped, -, hrest⟩
    · refine ⟨f, List.mem_cons_self .., tail, laid fs, ⟨before, hf.symm⟩, hfound, ?_⟩
      rcases List.append_eq_append_iff.mp hfound with ⟨rest, htail, -⟩ | ⟨rest, htail, hlaid⟩
      · exact ⟨rest, htail.symm⟩
      · cases rest with
        | nil => exact ⟨[], by simpa using htail⟩
        | cons c rest =>
          have hc : c = ',' := head?_laid fs c (by rw [hlaid]; rfl)
          exact absurd (by simp [htail, hc]) hcomma
    · obtain ⟨g, hg, hfound⟩ := ih ⟨skipped, hrest.symm⟩
      exact ⟨g, List.mem_cons_of_mem f hg, hfound⟩

/-- A parameter whose value is open is not found at the head of a value between quotes. -/
theorem isSuffix_of_open {name value tail more lead start : List Char} (hname : '=' ∉ name)
    (htail : tail <:+ name ++ '=' :: '"' :: (value ++ ['"'])) (hlead : IsLead lead)
    (hstart : lead ++ start = tail ++ more) (hopen : ∀ rest, start = '"' :: rest → '"' ∉ rest) :
    tail <:+ value ++ ['"'] := by
  have hhead (front : List Char) (hfront : front <:+ name ++ ['=']) : tail ≠ front ++ '"' :: (value ++ ['"']) := by
    rintro rfl
    have hstart : lead ++ start = front ++ '"' :: (value ++ '"' :: more) := by simpa using hstart
    obtain ⟨rest, rfl, rfl⟩ : ∃ rest, front = lead ++ rest ∧ start = rest ++ '"' :: (value ++ '"' :: more) := by
      rcases List.append_eq_append_iff.mp hstart with ⟨rest, hrest, h⟩ | ⟨rest, hrest, h⟩
      · exact ⟨rest, hrest, h⟩
      · cases rest with
        | nil => exact ⟨[], by simpa using hrest.symm, by simpa using h.symm⟩
        | cons c rest =>
          have hc : '"' = c := (List.cons.inj h).1
          exact absurd rfl (hlead.plain '"' (by simp [hrest, ← hc])).1
    -- The name ends with its only equals sign, so that the value begins with the quote.
    rcases List.eq_nil_or_concat rest with rfl | ⟨rest, last, rfl⟩
    · exact absurd (by simp) (hopen _ rfl)
    · obtain ⟨before, hbefore⟩ := hfront
      have hinit : (before ++ lead ++ rest) ++ [last] = name ++ ['='] := by simpa using hbefore
      have hmem : '=' ∈ before ++ lead ++ rest := by simp [hlead.equals]
      exact hname ((List.append_inj' hinit rfl).1 ▸ hmem)
  obtain ⟨before, hbefore⟩ := htail
  have hbefore : before ++ tail = (name ++ ['=']) ++ '"' :: (value ++ ['"']) := by simpa using hbefore
  rcases List.append_eq_append_iff.mp hbefore with ⟨front, hfront, h⟩ | ⟨front, -, h⟩
  · exact absurd h (hhead front ⟨before, hfront.symm⟩)
  · rcases List.suffix_cons_iff.mp ⟨front, h.symm⟩ with hall | hwithin
    · exact absurd hall (hhead [] List.nil_suffix)
    · exact hwithin

/-- Where a parameter with such a value is found, it lies within a value between quotes. -/
theorem exists_longer {fields : List Field} (hsound : ∀ f ∈ fields, f.isSound) {p : Parameter}
    (hp : p ∈ scan 0 (laid fields)) (htorn : Torn p.value.toList) :
    ∃ f ∈ fields, Torn f.value.toList ∧ p.value.toList.length < f.value.toList.length := by
  obtain ⟨found, size, hfound, hat⟩ := mem_scan hp
  obtain ⟨lead, start, rfl, hlead, hvalue⟩ := exists_lead hat
  have hopen : ∀ rest, start = '"' :: rest → '"' ∉ rest := by
    rintro rest rfl hrest
    obtain ⟨read, after, rfl, hread⟩ := List.eq_append_cons_of_mem hrest
    rw [hvalue, valueOf_quoted hread] at htorn
    exact hread (by simpa using htorn.quote_mem)
  rw [valueOf_bare hopen] at hvalue
  let bare := start.takeWhile (!endsBare ·)
  have hbare : p.value.toList = bare := by rw [hvalue, String.toList_ofList]
  rw [hbare] at htorn ⊢
  have hcomma : ',' ∉ lead ++ bare := by
    rw [List.mem_append, not_or]
    exact ⟨fun h => (hlead.plain _ h).2 rfl, fun h => absurd (List.mem_takeWhile_imp h) (by decide)⟩
  have hsplit : lead ++ start = lead ++ bare ++ start.dropWhile (!endsBare ·) := by
    rw [List.append_assoc, List.takeWhile_append_dropWhile]
  have hne : lead ++ bare ≠ [] := List.append_ne_nil_of_left_ne_nil (List.ne_nil_of_mem hlead.equals) _
  rw [hsplit] at hfound
  obtain ⟨f, hf, tail, more, ⟨before, htail⟩, hmore, hbegins⟩ := exists_field hne hcomma hfound
  rw [hsplit.symm] at hmore
  have htorn : Torn tail := htorn.of_isInfix ((List.suffix_append ..).isInfix.trans hbegins.isInfix)
  cases f with
  | bare name value =>
    obtain ⟨hname, hvalue⟩ := Bool.and_eq_true_iff.mp (hsound _ hf)
    have hquote : '"' ∈ ' ' :: (name.toList ++ '=' :: value.toList) :=
      (htorn.of_isInfix (List.IsSuffix.isInfix ⟨before, htail⟩)).quote_mem
    simp only [List.mem_cons, List.mem_append] at hquote
    rcases hquote with h | h | h | h
    · exact absurd h (by decide)
    · exact absurd rfl (isName_plain hname h).1
    · exact absurd h (by decide)
    · have hplain : ∀ c ∈ value.toList, c ≠ '"' ∧ endsBare c = false := by simpa using hvalue
      exact absurd rfl (hplain _ h).1
  | quoted name value =>
    have hequals : '=' ∉ ' ' :: name.toList := by
      rw [List.mem_cons, not_or]
      exact ⟨by decide, fun h => (isName_plain (hsound _ hf) h).2 rfl⟩
    have hwithin := isSuffix_of_open hequals ⟨before, htail⟩ hlead hmore hopen
    refine ⟨_, hf, (htorn.of_isInfix hwithin.isInfix).of_append_quote, ?_⟩
    rw [Field.value]
    have hlength := hbegins.length_le.trans hwithin.length_le
    have hlong := hlead.long
    simp only [List.length_append, List.length_singleton] at hlength
    omega

/-- Nothing in a list has a property that always leads to something larger in it. -/
theorem not_of_ascent {α : Type} {l : List α} {P : α → Prop} (size : α → Nat)
    (h : ∀ a ∈ l, P a → ∃ b ∈ l, P b ∧ size a < size b) {a : α} (ha : a ∈ l) : ¬P a := by
  classical
  intro hP
  obtain ⟨largest, hmem, hmax⟩ := Finset.exists_max_image (l.toFinset.filter P) size ⟨a, by simp [ha, hP]⟩
  obtain ⟨hl, hlargest⟩ : largest ∈ l ∧ P largest := by simpa using hmem
  obtain ⟨b, hb, hPb, hlt⟩ := h largest hl hlargest
  exact absurd (hmax b (by simp [hb, hPb])) (by omega)

/-! Answers. -/

section
variable (t : Attempt) (a : Algorithm) (realm nonce : String) (auth : Bool) (echoed : Option String)

/-- The fields of an answer. -/
def answerFields : List Field :=
  [.quoted "username" t.user, .quoted "realm" realm, .quoted "nonce" nonce, .quoted "uri" t.uri,
    .quoted "response" (response a t realm nonce auth), .bare "algorithm" a.name] ++
  (if auth then [.bare "qop" "auth", .bare "nc" nonceCount, .quoted "cnonce" t.clientNonce] else []) ++
  (echoed.map (.quoted "opaque")).toList

theorem isSound_answerFields : ∀ f ∈ answerFields t a realm nonce auth echoed, f.isSound := by
  refine List.all_eq_true.mp ?_
  cases auth <;> cases echoed <;> cases a <;> rfl

theorem map_text_answerFields : (answerFields t a realm nonce auth echoed).map Field.text =
    [quoted "username" t.user, quoted "realm" realm, quoted "nonce" nonce, quoted "uri" t.uri,
      quoted "response" (response a t realm nonce auth), "algorithm=" ++ a.name] ++
    (if auth then ["qop=auth", "nc=" ++ nonceCount, quoted "cnonce" t.clientNonce] else []) ++
    (echoed.map (quoted "opaque")).toList := by
  cases auth <;> cases echoed <;> rfl

theorem find?_eq {ps : List Parameter} {name value : String} (h : find? ps name = some value) :
    ∃ p ∈ ps, p.value = value := by
  obtain ⟨p, hp, hvalue⟩ := Option.map_eq_some_iff.mp h
  exact ⟨p, List.mem_reverse.mp (List.mem_of_find?_eq_some hp), hvalue⟩

/-- What comes back of a value between quotes. -/
def readable (value : String) : String := String.ofList (value.toList.takeWhile (· != '"'))

theorem readable_eq_self {value : String} : readable value = value ↔ '"' ∉ value.toList := by
  rw [readable, ← String.toList_inj, String.toList_ofList, List.takeWhile_eq_self_iff]
  constructor
  · intro h hmem
    simpa using h _ hmem
  · intro h c hc
    simpa using ne_of_mem_of_not_mem hc h

/-- The values of an answer: those that are taken over, and those that have no quote by themselves. -/
theorem mem_answerFields {f : Field} (h : f ∈ answerFields t a realm nonce auth echoed) :
    f.value ∈ [t.user, realm, nonce, echoed.getD ""] ∨
      f.value ∈ [t.uri, t.clientNonce, response a t realm nonce auth, a.name, "auth", nonceCount] := by
  have hall : (answerFields t a realm nonce auth echoed).map Field.value ⊆
      [t.user, realm, nonce, echoed.getD ""] ++
        [t.uri, t.clientNonce, response a t realm nonce auth, a.name, "auth", nonceCount] := by
    cases auth <;> cases echoed <;> simp [answerFields, Field.value]
  exact List.mem_append.mp (hall (List.mem_map_of_mem h))

theorem find?_answerFields :
    let read := (answerFields t a realm nonce auth echoed).map Field.parameter
    find? read "username" = some (readable t.user) ∧ find? read "realm" = some (readable realm) ∧
      find? read "nonce" = some (readable nonce) ∧ find? read "uri" = some (readable t.uri) ∧
      find? read "response" = some (readable (response a t realm nonce auth)) ∧
      find? read "algorithm" = some a.name ∧ find? read "qop" = (if auth then some "auth" else none) ∧
      find? read "nc" = (if auth then some nonceCount else none) ∧
      find? read "cnonce" = (if auth then some (readable t.clientNonce) else none) ∧
      find? read "opaque" = echoed.map readable := by
  have hlower : ∀ name ∈ ["username", "realm", "nonce", "uri", "response", "algorithm", "qop", "nc", "cnonce", "opaque"],
      name.toLower = name := by decide +kernel
  simp only [List.forall_mem_cons] at hlower
  cases auth <;> cases echoed <;> simp [answerFields, Field.parameter, hlower, find?, readable]

end

theorem toList_intercalate {fields : List Field} (h : fields ≠ []) :
    laid fields = ',' :: ' ' :: (", ".intercalate (fields.map Field.text)).toList := by
  have hchars : (fields.map Field.text).map String.toList = fields.map Field.chars := by
    rw [List.map_map]
    exact List.map_congr_left fun f _ => f.toList_text
  rw [String.toList_intercalate, hchars]
  induction fields with
  | nil => exact absurd rfl h
  | cons f fs ih =>
    cases fs with
    | nil => simp [laid]
    | cons g gs =>
      have hrest := ih (by simp) (by simp [Field.toList_text])
      rw [List.map_cons, List.map_cons, List.intercalate_cons_cons, ← List.map_cons, List.append_assoc]
      rw [show laid (f :: g :: gs) = ',' :: ' ' :: (f.chars ++ laid (g :: gs)) by simp [laid], hrest]
      rfl

theorem getLast?_chars {f : Field} (h : f.isSound) : ∀ c ∈ f.chars.getLast?, Text.isBlank c = false := by
  cases f with
  | quoted name value =>
    have hlast : (Field.quoted name value).chars.getLast? = some '"' := by
      rw [Field.chars, show name.toList ++ '=' :: '"' :: (value.toList ++ ['"']) =
        (name.toList ++ '=' :: '"' :: value.toList) ++ ['"'] by simp, List.getLast?_concat]
    rw [hlast]
    simp
    decide
  | bare name value =>
    obtain ⟨-, hvalue⟩ := Bool.and_eq_true_iff.mp h
    have hvalue : ∀ c ∈ value.toList, c ≠ '"' ∧ endsBare c = false := by simpa using hvalue
    intro c hc
    rw [Field.chars, List.getLast?_append_cons] at hc
    rcases List.mem_cons.mp (List.mem_of_getLast? hc) with rfl | hmem
    · decide
    · exact (Bool.or_eq_false_iff.mp (hvalue c hmem).2).2

theorem getLast?_laid {fields : List Field} (hsound : ∀ f ∈ fields, f.isSound) :
    ∀ c ∈ (laid fields).getLast?, Text.isBlank c = false := by
  rcases List.eq_nil_or_concat fields with rfl | ⟨init, last, rfl⟩
  · simp [laid]
  · have hchars : laid (init.concat last) = (laid init ++ [',', ' ']) ++ last.chars := by simp [laid]
    have hne : last.chars ≠ [] := by cases last <;> simp [Field.chars]
    rw [hchars, List.getLast?_append_of_ne_nil _ hne]
    exact getLast?_chars (hsound last (by simp))

/-- An answer is read as its fields are. -/
theorem parameters?_fields {fields : List Field} (hsound : ∀ f ∈ fields, f.isSound) (hne : fields ≠ []) :
    parameters? ("Digest " ++ ", ".intercalate (fields.map Field.text)) = some (scan 0 (laid fields)) := by
  have hlaid := toList_intercalate hne
  let body := (", ".intercalate (fields.map Field.text)).toList
  have hchars : ("Digest " ++ ", ".intercalate (fields.map Field.text)).toList = "Digest".toList ++ ' ' :: body := by
    simp [body]
  have hlast : ∀ c ∈ ("Digest".toList ++ ' ' :: body).getLast?, Text.isBlank c = false := by
    have hlast := getLast?_laid hsound
    rwa [hlaid, List.getLast?_cons_cons, ← List.getLast?_append_cons "Digest".toList] at hlast
  have htrim : Text.trimChars ("Digest".toList ++ ' ' :: body) = "Digest".toList ++ ' ' :: body := by
    have hhead : ∀ c ∈ ("Digest".toList ++ ' ' :: body).head?, Text.isBlank c = false := fun c hc => by
      obtain rfl : 'D' = c := by simpa using hc
      decide
    rw [Text.trimChars, Text.trimLeft_eq_self hhead, Text.trimRight_eq_self hlast]
  have hword : ∀ c ∈ "Digest".toList, (!Text.isBlank c) = true := fun c hc => by
    have hall : "Digest".toList.all Text.isNameChar := rfl
    simp [Text.isBlank_of_isNameChar (List.all_eq_true.mp hall c hc)]
  rw [parameters?, hchars, htrim, takeWhile_append_of_stops hword ((stops_cons ..).mpr (by decide)),
    dropWhile_append_of_stops hword ((stops_cons ..).mpr (by decide)), hlaid, scan_cons (by decide),
    scan_cons (by decide)]
  exact if_pos (by decide +kernel)

theorem quote_not_mem_hash (a : Algorithm) (text : String) : '"' ∉ (a.hash text).toList := by
  have hdigit : ∀ n < 16, Nat.digitChar n ≠ '"' := by decide
  have hhex (bs : Bytes) : '"' ∉ bs.hexText.toList := by
    rw [Bytes.hexText, String.toList_ofList, List.mem_flatMap]
    rintro ⟨b, -, hb⟩
    have hlt := b.toNat_lt
    simp only [List.mem_cons, List.not_mem_nil, or_false] at hb
    rcases hb with hb | hb
    · exact hdigit _ (by omega) hb.symm
    · exact hdigit _ (by omega) hb.symm
  cases a <;> exact hhex _

theorem response_eq (a : Algorithm) (t : Attempt) (realm nonce : String) (auth : Bool) :
    response a t realm nonce auth =
      let ha1 := a.hash (":".intercalate [t.user, realm, t.password])
      let ha2 := a.hash (":".intercalate [t.method, t.uri])
      if auth then a.hash (":".intercalate [ha1, nonce, nonceCount, t.clientNonce, "auth", ha2])
      else a.hash (":".intercalate [ha1, nonce, ha2]) := by
  have hauth (s u : String) : s ++ ":auth:" ++ u = s ++ ":" ++ "auth" ++ ":" ++ u := by
    simp [String.ext_iff]
  have hone (s : String) : ":".intercalate [s] = s := rfl
  have hmore (s u : String) (rest : List String) :
      ":".intercalate (s :: u :: rest) = ":".intercalate ((s ++ ":" ++ u) :: rest) := rfl
  simp only [response, hauth, hone, hmore]

theorem quote_not_mem_response (a : Algorithm) (t : Attempt) (realm nonce : String) (auth : Bool) :
    '"' ∉ (response a t realm nonce auth).toList := by
  unfold response
  cases auth <;> exact quote_not_mem_hash a _

/-- The digest of the standard, from the parameters of an answer. -/
def digestOf (a : Algorithm) (password method : String) (read : List Parameter) : String :=
  let value name := (find? read name).getD ""
  let ha1 := a.hash (":".intercalate [value "username", value "realm", password])
  let ha2 := a.hash (":".intercalate [method, value "uri"])
  match find? read "qop" with
  | some qop => a.hash (":".intercalate [ha1, value "nonce", value "nc", value "cnonce", qop, ha2])
  | none => a.hash (":".intercalate [ha1, value "nonce", ha2])

/-- What is read of an answer is what the attempt and the challenge say. -/
structure Says (t : Attempt) (challenge read : List Parameter) : Prop where
  username : find? read "username" = some t.user
  realm : find? read "realm" = some ((find? challenge "realm").getD "")
  nonce : find? read "nonce" = find? challenge "nonce"
  uri : find? read "uri" = some t.uri
  echoed : find? read "opaque" = find? challenge "opaque"
  qop : find? read "qop" = if offersAuth challenge then some "auth" else none
  count : find? read "nc" = if offersAuth challenge then some "00000001" else none
  clientNonce : find? read "cnonce" = if offersAuth challenge then some t.clientNonce else none
  response : ∃ a, Algorithm.ofName? (find? challenge "algorithm") = some a ∧
    Algorithm.ofName? (find? read "algorithm") = some a ∧
    find? read "response" = some (digestOf a t.password t.method read)

theorem answer_eq_ok {t : Attempt} {challenge header : String} (h : answer t challenge = .ok (some header)) :
    ∃ ps nonce a, parameters? challenge = some ps ∧ find? ps "nonce" = some nonce ∧
      Algorithm.ofName? (find? ps "algorithm") = some a ∧
      header = "Digest " ++ ", ".intercalate ((answerFields t a ((find? ps "realm").getD "") nonce (offersAuth ps)
        (find? ps "opaque")).map Field.text) := by
  unfold answer at h
  split at h
  case h_1 => cases h
  rename_i ps hps
  split at h
  case h_1 => cases h
  rename_i nonce hnonce
  split at h
  case h_1 => cases h
  rename_i a ha
  refine ⟨ps, nonce, a, hps, hnonce, ha, ?_⟩
  rw [map_text_answerFields]
  exact (Option.some.inj (Except.ok.inj h)).symm

section
variable {t : Attempt} {ps : List Parameter} {nonce : String} {a : Algorithm}

/-- Fields that are read one by one say what they should if no quote is in what is taken over. -/
theorem says_fields (huri : '"' ∉ t.uri.toList) (hnonce : '"' ∉ t.clientNonce.toList)
    (hfound : find? ps "nonce" = some nonce) (halgorithm : Algorithm.ofName? (find? ps "algorithm") = some a) :
    let realm := (find? ps "realm").getD ""
    let echoed := find? ps "opaque"
    Says t ps ((answerFields t a realm nonce (offersAuth ps) echoed).map Field.parameter) ↔
      ∀ value ∈ [t.user, realm, nonce, echoed.getD ""], '"' ∉ value.toList := by
  intro realm echoed
  obtain ⟨huser, hrealm, hread, huri', hresponse, hname, hqop, hcount, hclient, hopaque⟩ :=
    find?_answerFields t a realm nonce (offersAuth ps) echoed
  set read := (answerFields t a realm nonce (offersAuth ps) echoed).map Field.parameter
  constructor
  · intro hmeant
    have huser := readable_eq_self.mp (Option.some.inj (huser.symm.trans hmeant.username))
    have hrealm := readable_eq_self.mp (Option.some.inj (hrealm.symm.trans hmeant.realm))
    have hread := readable_eq_self.mp (Option.some.inj (hread.symm.trans (hmeant.nonce.trans hfound)))
    have hopaque : '"' ∉ (echoed.getD "").toList := by
      have hsame : echoed.map readable = echoed := hopaque.symm.trans hmeant.echoed
      cases hecho : echoed with
      | none => simp
      | some value =>
        rw [hecho] at hsame
        exact readable_eq_self.mp (Option.some.inj hsame)
    simpa using ⟨huser, hrealm, hread, hopaque⟩
  · intro hquotes
    simp only [List.forall_mem_cons, List.not_mem_nil, false_imp_iff, implies_true, and_true] at hquotes
    obtain ⟨hquser, hqrealm, hqnonce, hqopaque⟩ := hquotes
    rw [readable_eq_self.mpr hquser] at huser
    rw [readable_eq_self.mpr hqrealm] at hrealm
    rw [readable_eq_self.mpr hqnonce] at hread
    rw [readable_eq_self.mpr huri] at huri'
    rw [readable_eq_self.mpr hnonce] at hclient
    have hecho : echoed.map readable = echoed := by
      cases hecho : echoed with
      | none => rfl
      | some value =>
        rw [hecho] at hqopaque
        exact congrArg some (readable_eq_self.mpr hqopaque)
    rw [readable_eq_self.mpr (quote_not_mem_response a t realm nonce _)] at hresponse
    refine ⟨huser, hrealm, hread.trans hfound.symm, huri', hopaque.trans hecho, hqop, hcount, hclient,
      a, halgorithm, ?_, ?_⟩
    · rw [hname]
      cases a <;> decide +kernel
    · rw [hresponse]
      simp only [digestOf, hqop, hcount, hclient, huser, hrealm, hread, huri', Option.getD_some]
      rw [response_eq]
      cases offersAuth ps <;> simp only [Bool.false_eq_true, if_false, if_true, Option.getD_some]

/-- A quote that a value goes on behind would be read back from a longer one. -/
theorem not_torn_of_read {realm : String} {auth : Bool} {echoed : Option String} (huri : '"' ∉ t.uri.toList)
    (hnonce : '"' ∉ t.clientNonce.toList)
    (hread : ∀ value ∈ [t.user, realm, nonce, echoed.getD ""], Torn value.toList →
      ∃ p ∈ scan 0 (laid (answerFields t a realm nonce auth echoed)), p.value = value) :
    ∀ f ∈ answerFields t a realm nonce auth echoed, ¬Torn f.value.toList := by
  have hclean : ∀ value ∈ [t.uri, t.clientNonce, response a t realm nonce auth, a.name, "auth", nonceCount],
      '"' ∉ value.toList := by
    have hname : '"' ∉ a.name.toList := by cases a <;> decide
    simpa [nonceCount] using ⟨huri, hnonce, quote_not_mem_response a t realm nonce auth, hname⟩
  intro f hf
  refine not_of_ascent (l := answerFields t a realm nonce auth echoed) (P := fun f => Torn f.value.toList)
    (fun f => f.value.toList.length) (fun f hf htorn => ?_) hf
  rcases mem_answerFields t a realm nonce auth echoed hf with hgiven | hown
  · obtain ⟨p, hp, hvalue⟩ := hread f.value hgiven htorn
    rw [← hvalue] at htorn ⊢
    exact exists_longer (isSound_answerFields t a realm nonce auth echoed) hp htorn
  · exact absurd htorn.quote_mem (hclean f.value hown)

end

/-- An answer is read as it was meant exactly if no quote is in the name of the user and in what is taken over from
the challenge. -/
theorem says_answer {t : Attempt} {challenge header : String} (huri : '"' ∉ t.uri.toList)
    (hnonce : '"' ∉ t.clientNonce.toList) (h : answer t challenge = .ok (some header)) :
    ∃ ps read, parameters? challenge = some ps ∧ parameters? header = some read ∧
      (Says t ps read ↔ '"' ∉ t.user.toList ∧
        ∀ name ∈ ["realm", "nonce", "opaque"], '"' ∉ ((find? ps name).getD "").toList) := by
  obtain ⟨ps, nonce, a, hps, hfound, halgorithm, rfl⟩ := answer_eq_ok h
  let realm := (find? ps "realm").getD ""
  let echoed := find? ps "opaque"
  let fields := answerFields t a realm nonce (offersAuth ps) echoed
  have hsound : ∀ f ∈ fields, f.isSound := isSound_answerFields t a realm nonce (offersAuth ps) echoed
  have hgiven : ('"' ∉ t.user.toList ∧ ∀ name ∈ ["realm", "nonce", "opaque"], '"' ∉ ((find? ps name).getD "").toList) ↔
      ∀ value ∈ [t.user, realm, nonce, echoed.getD ""], '"' ∉ value.toList := by
    simp [realm, echoed, hfound]
  refine ⟨ps, scan 0 (laid fields), hps, parameters?_fields hsound (by simp [answerFields]), ?_⟩
  -- What is read right and what has no quote are both read field by field.
  have hread (hwhole : ∀ f ∈ fields, ¬Torn f.value.toList) :
      Says t ps (scan 0 (laid fields)) ↔ ∀ value ∈ [t.user, realm, nonce, echoed.getD ""], '"' ∉ value.toList := by
    rw [scan_laid hsound hwhole]
    exact says_fields huri hnonce hfound halgorithm
  rw [hgiven]
  constructor
  · intro hmeant
    refine (hread (not_torn_of_read huri hnonce fun value hvalue htorn => ?_)).mp hmeant
    simp only [List.mem_cons, List.not_mem_nil, or_false] at hvalue
    rcases hvalue with rfl | rfl | rfl | rfl
    · exact find?_eq hmeant.username
    · exact find?_eq hmeant.realm
    · exact find?_eq (hmeant.nonce.trans hfound)
    · have hecho : find? ps "opaque" = some (echoed.getD "") := by
        cases hecho : find? ps "opaque" with
        | none =>
          simp [echoed, hecho] at htorn
          exact absurd htorn.quote_mem List.not_mem_nil
        | some value => simp [echoed, hecho]
      exact find?_eq (hmeant.echoed.trans hecho)
  · intro hquotes
    refine (hread (not_torn_of_read huri hnonce fun value hvalue htorn => ?_)).mpr hquotes
    exact absurd htorn.quote_mem (hquotes value hvalue)

/-- A name with a quote in it is read back up to the quote. -/
theorem says_answer_quote :
    let t : Attempt := ⟨"a\"b", "p", "GET", "/", "c"⟩
    ∃ header ps read, answer t "Digest realm=\"r\", nonce=\"n\"" = .ok (some header) ∧
      parameters? "Digest realm=\"r\", nonce=\"n\"" = some ps ∧ parameters? header = some read ∧ ¬Says t ps read := by
  intro t
  have hps : parameters? "Digest realm=\"r\", nonce=\"n\"" = some [⟨"realm", "r"⟩, ⟨"nonce", "n"⟩] := by decide +kernel
  obtain ⟨header, hheader⟩ : ∃ header, answer t "Digest realm=\"r\", nonce=\"n\"" = .ok (some header) :=
    ⟨_, by rw [answer, hps]; rfl⟩
  obtain ⟨ps, read, hps, hread, hmeant⟩ := says_answer (by decide) (by decide) hheader
  exact ⟨header, ps, read, hheader, hps, hread, fun h => (hmeant.mp h).1 (by decide)⟩

end RequestLang.Digest
