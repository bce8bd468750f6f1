import RequestLang.Curl
import RequestLang.Proofs.Token.Stops
import RequestLang.Proofs.Url.Form

/-! Escapes in the name of a socket. What a decoder has to do is told as a reading from left to right, for whatever
pairs of bytes count as two digits. -/
namespace RequestLang

namespace Percent

/-- A hexadecimal digit of either case and its value. -/
def IsDigit (b : UInt8) (n : Nat) : Prop :=
  (Bytes.ofString "0123456789abcdef")[n]? = some b ∨ (Bytes.ofString "0123456789ABCDEF")[n]? = some b

instance (b : UInt8) (n : Nat) : Decidable (IsDigit b n) := inferInstanceAs (Decidable (_ ∨ _))

def Spells (high low b : UInt8) : Prop := ∃ m n, IsDigit high m ∧ IsDigit low n ∧ b = .ofNat (16 * m + n)

/-- A percent sign and two bytes that spell a third one. -/
def BeginsEscape (spells : UInt8 → UInt8 → UInt8 → Prop) (bs : Bytes) : Prop :=
  ∃ high low b rest, bs = 0x25 :: high :: low :: rest ∧ spells high low b

/-- From left to right each escape gives its byte, and every byte that begins none is copied. -/
inductive Decodes (spells : UInt8 → UInt8 → UInt8 → Prop) : Bytes → Bytes → Prop
  | nil : Decodes spells [] []
  | escape {high low b : UInt8} {bs out : Bytes} (hb : spells high low b) (h : Decodes spells bs out) :
    Decodes spells (0x25 :: high :: low :: bs) (b :: out)
  | copy {b : UInt8} {bs out : Bytes} (hb : ¬BeginsEscape spells (b :: bs)) (h : Decodes spells bs out) :
    Decodes spells (b :: bs) (b :: out)

theorem IsDigit.lt {b : UInt8} {n : Nat} (h : IsDigit b n) : n < 16 := by
  rcases h with h | h <;> exact (List.getElem?_eq_some_iff.mp h).1

theorem isDigit_iff {b : UInt8} {n : Nat} : IsDigit b n ↔ digitValue? (Char.ofNat b.toNat) = some n := by
  have hvalue : ∀ n < 16, ∀ digits ∈ ["0123456789abcdef", "0123456789ABCDEF"],
      (Bytes.ofString digits)[n]?.all fun b => digitValue? (Char.ofNat b.toNat) = some n := by decide +kernel
  have hdigit : ∀ k < 256, (digitValue? (Char.ofNat k)).all fun n => IsDigit (.ofNat k) n := by decide +kernel
  constructor
  · intro h
    have hn := h.lt
    rcases h with h | h
    · simpa [h] using hvalue n hn _ List.mem_cons_self
    · simpa [h] using hvalue n hn _ (List.mem_cons_of_mem _ List.mem_cons_self)
  · intro h
    simpa [h] using hdigit b.toNat b.toNat_lt

/-- None of the marks of a URL is a digit. -/
theorem not_isDigit {b : UInt8} (h : b ∈ Bytes.ofString "%+/?#") (n : Nat) : ¬IsDigit b n := by
  have hnone : ∀ b ∈ Bytes.ofString "%+/?#", digitValue? (Char.ofNat b.toNat) = none := by decide +kernel
  rw [isDigit_iff, hnone b h]
  nofun

theorem byte?_eq_some {high low b : UInt8} : byte? high low = some b ↔ Spells high low b := by
  simp only [byte?, Spells, isDigit_iff, bind, Option.bind_eq_some_iff, pure, Option.some.injEq]
  constructor
  · rintro ⟨m, hm, n, hn, rfl⟩
    exact ⟨m, n, hm, hn, rfl⟩
  · rintro ⟨m, n, hm, hn, rfl⟩
    exact ⟨m, hm, n, hn, rfl⟩

theorem Spells.unique {high low b b' : UInt8} (h : Spells high low b) (h' : Spells high low b') : b = b' :=
  Option.some.inj ((byte?_eq_some.mpr h).symm.trans (byte?_eq_some.mpr h'))

/-- Where two bytes spell no more than one, there is one way to read. -/
theorem Decodes.unique {spells : UInt8 → UInt8 → UInt8 → Prop} {bs out out' : Bytes} (h : Decodes spells bs out)
    (h' : Decodes spells bs out') (hspells : ∀ {high low b b'}, spells high low b → spells high low b' → b = b') :
    out = out' := by
  induction h generalizing out' with
  | nil =>
    cases h'
    rfl
  | escape hb _ ih =>
    cases h' with
    | escape hb' h' => rw [hspells hb hb', ih h']
    | copy hb' => exact absurd ⟨_, _, _, _, rfl, hb⟩ hb'
  | copy hb _ ih =>
    cases h' with
    | escape hb' => exact absurd ⟨_, _, _, _, rfl, hb'⟩ hb
    | copy _ h' => rw [ih h']

end Percent

namespace Curl
open Percent
open Lexer (takeWhile_append_of_stops dropWhile_append_of_stops)

/-- Beside two digits, a plus sign and a digit count as well. -/
def SpellsSigned (high low b : UInt8) : Prop := Spells high low b ∨ high = 0x2B ∧ ∃ n, IsDigit low n ∧ b = .ofNat n

/-- Somewhere a percent sign, a plus sign and a digit follow one another. -/
def HoldsSigned (bs : Bytes) : Prop := ∃ digit n, IsDigit digit n ∧ [0x25, 0x2B, digit] <:+: bs

/-- A text that writes each byte as itself or as an escape. A percent sign and the marks that may end the name of a
socket are not written as themselves. -/
inductive Encodes : Bytes → Bytes → Prop
  | nil : Encodes [] []
  | keep {b : UInt8} {text bs : Bytes} (hb : b ∉ Bytes.ofString "%/?#") (h : Encodes text bs) : Encodes (b :: text) (b :: bs)
  | escape {high low b : UInt8} {text bs : Bytes} (hb : Spells high low b) (h : Encodes text bs) :
    Encodes (0x25 :: high :: low :: text) (b :: bs)

theorem socketByte?_eq_some {high low b : UInt8} : socketByte? high low = some b ↔ SpellsSigned high low b := by
  rw [socketByte?, SpellsSigned]
  split
  · rename_i hplus
    have hzero : ∀ {m}, IsDigit 0x30 m → m = 0 := fun hm => (Option.some.inj (isDigit_iff.mp hm)).symm
    rw [byte?_eq_some, hplus]
    constructor
    · rintro ⟨m, n, hm, hn, rfl⟩
      obtain rfl := hzero hm
      exact .inr ⟨rfl, n, hn, by rw [Nat.mul_zero, Nat.zero_add]⟩
    · rintro (⟨m, -, hm, -⟩ | ⟨-, n, hn, rfl⟩)
      · exact absurd hm (not_isDigit (by decide) m)
      · exact ⟨0, n, isDigit_iff.mpr rfl, hn, by rw [Nat.mul_zero, Nat.zero_add]⟩
  · rename_i hplus
    simp [byte?_eq_some, hplus]

theorem SpellsSigned.unique {high low b b' : UInt8} (h : SpellsSigned high low b) (h' : SpellsSigned high low b') : b = b' :=
  Option.some.inj ((socketByte?_eq_some.mpr h).symm.trans (socketByte?_eq_some.mpr h'))

theorem decodes_socketBytes (bs : Bytes) : Decodes SpellsSigned bs (socketBytes bs) := by
  fun_induction socketBytes bs with
  | case1 high low bs b hb ih => exact .escape (socketByte?_eq_some.mp hb) ih
  | case2 high low bs hb ih =>
    refine .copy ?_ ih
    rintro ⟨high', low', b, rest, heq, hspells⟩
    obtain ⟨rfl, rfl, -⟩ : high = high' ∧ low = low' ∧ bs = rest := by simpa using heq
    rw [socketByte?_eq_some.mpr hspells] at hb
    cases hb
  | case3 b bs hb ih =>
    refine .copy ?_ ih
    rintro ⟨high, low, value, rest, heq, -⟩
    obtain ⟨rfl, rfl⟩ := List.cons.inj heq
    exact hb high low rest rfl rfl
  | case4 => exact .nil

theorem decodes_iff {bs out : Bytes} : Decodes SpellsSigned bs out ↔ out = socketBytes bs := by
  constructor
  · exact fun h => h.unique (decodes_socketBytes bs) SpellsSigned.unique
  · rintro rfl
    exact decodes_socketBytes bs

theorem holdsSigned_cons {b : UInt8} {bs : Bytes} : HoldsSigned (b :: bs) ↔
    (∃ digit n rest, IsDigit digit n ∧ b = 0x25 ∧ bs = 0x2B :: digit :: rest) ∨ HoldsSigned bs := by
  simp only [HoldsSigned, List.infix_cons_iff, and_or_left, exists_or]
  refine or_congr_left ⟨?_, ?_⟩
  · rintro ⟨digit, n, hdigit, rest, heq⟩
    obtain ⟨rfl, rfl⟩ := List.cons.inj heq
    exact ⟨digit, n, rest, hdigit, rfl, rfl⟩
  · rintro ⟨digit, n, rest, hdigit, rfl, rfl⟩
    exact ⟨digit, n, hdigit, rest, rfl⟩

/-- Neither a percent sign nor a plus sign is a digit. -/
theorem holdsSigned_escape {high low b : UInt8} {bs : Bytes} (h : Spells high low b) :
    HoldsSigned (0x25 :: high :: low :: bs) ↔ HoldsSigned bs := by
  obtain ⟨m, n, hm, hn, -⟩ := h
  have hhigh (mark : UInt8) (hmark : mark ∈ Bytes.ofString "%+/?#") : high ≠ mark := fun heq =>
    not_isDigit hmark m (heq ▸ hm)
  have hlow (mark : UInt8) (hmark : mark ∈ Bytes.ofString "%+/?#") : low ≠ mark := fun heq =>
    not_isDigit hmark n (heq ▸ hn)
  simp [holdsSigned_cons, hhigh 0x25 (by decide), hhigh 0x2B (by decide), hlow 0x25 (by decide)]

/-- At an escape with a plus sign the one reading copies a percent sign, and the other gives a byte below sixteen. -/
theorem not_holdsSigned {bs out : Bytes} (hexact : Decodes Spells bs out) (hsigned : Decodes SpellsSigned bs out) :
    ¬HoldsSigned bs := by
  induction hexact with
  | nil =>
    rintro ⟨digit, n, -, hinfix⟩
    cases List.eq_nil_of_infix_nil hinfix
  | escape hb _ ih =>
    cases hsigned with
    | escape _ hrest =>
      rw [holdsSigned_escape hb]
      exact ih hrest
    | copy hcopy => exact absurd ⟨_, _, _, _, rfl, .inl hb⟩ hcopy
  | copy hb _ ih =>
    cases hsigned with
    | escape hescape =>
      rcases hescape with hdigits | ⟨-, n, hn, hvalue⟩
      · exact absurd ⟨_, _, _, _, rfl, hdigits⟩ hb
      · have hlt := hn.lt
        have hpercent : 0x25 = n % 256 := congrArg UInt8.toNat hvalue
        omega
    | copy hcopy hrest =>
      rw [holdsSigned_cons]
      rintro (⟨digit, n, rest, hdigit, rfl, rfl⟩ | hholds)
      · exact hcopy ⟨_, digit, _, rest, rfl, .inr ⟨rfl, n, hdigit, rfl⟩⟩
      · exact ih hrest hholds

theorem decodes_of_not_holdsSigned {bs out : Bytes} (h : Decodes SpellsSigned bs out) (hplain : ¬HoldsSigned bs) :
    Decodes Spells bs out := by
  induction h with
  | nil => exact .nil
  | escape hb _ ih =>
    rcases hb with hb | ⟨rfl, n, hn, rfl⟩
    · exact .escape hb (ih fun hrest => hplain ((holdsSigned_escape hb).mpr hrest))
    · exact absurd (holdsSigned_cons.mpr (.inl ⟨_, n, _, hn, rfl, rfl⟩)) hplain
  | copy hb _ ih =>
    refine .copy ?_ (ih fun hrest => hplain (holdsSigned_cons.mpr (.inr hrest)))
    rintro ⟨high, low, value, rest, heq, hspells⟩
    exact hb ⟨high, low, value, rest, heq, .inl hspells⟩

/-- The two readings agree on just the texts without such an escape. -/
theorem decodes_spells_iff (bs : Bytes) :
    (∀ out, Decodes Spells bs out ↔ out = socketBytes bs) ↔ ¬HoldsSigned bs := by
  have hsigned := decodes_socketBytes bs
  constructor
  · exact fun h => not_holdsSigned ((h _).mpr rfl) hsigned
  · intro hplain out
    have hexact := decodes_of_not_holdsSigned hsigned hplain
    exact ⟨fun h => h.unique hexact Spells.unique, fun h => h ▸ hexact⟩

namespace Encodes
variable {text bs : Bytes}

theorem decodes (h : Encodes text bs) : Decodes SpellsSigned text bs := by
  induction h with
  | nil => exact .nil
  | keep hb _ ih =>
    refine .copy ?_ ih
    rintro ⟨_, _, _, _, heq, -⟩
    obtain ⟨rfl, -⟩ := List.cons.inj heq
    exact hb (by decide)
  | escape hb _ ih => exact .escape (.inl hb) ih

theorem not_mem (h : Encodes text bs) {mark : UInt8} (hmark : mark ∈ Bytes.ofString "/?#") : mark ∉ text := by
  have hreserved : ∀ mark ∈ Bytes.ofString "/?#", mark ∈ Bytes.ofString "%/?#" ∧ mark ∈ Bytes.ofString "%+/?#" ∧
      mark ≠ 0x25 := by decide +kernel
  obtain ⟨hkeep, hdigit, hpercent⟩ := hreserved mark hmark
  induction h with
  | nil => exact List.not_mem_nil
  | keep hb _ ih => exact List.not_mem_cons_of_ne_of_not_mem (fun heq => hb (heq ▸ hkeep)) ih
  | escape hb _ ih =>
    obtain ⟨m, n, hm, hn, -⟩ := hb
    simp only [List.mem_cons, not_or]
    refine ⟨hpercent, ?_, ?_, ih⟩
    · rintro rfl
      exact not_isDigit hdigit m hm
    · rintro rfl
      exact not_isDigit hdigit n hn

/-- The bytes of a character stand among those of a text that has it. -/
theorem not_mem_toList {text : String} (h : Encodes (Bytes.ofString text) bs) : ∀ c ∈ "/?#".toList, c ∉ text.toList := by
  intro c hc hmem
  obtain ⟨b, rest, hbytes, -⟩ := Bytes.step_ofChar c
  have hb : b ∈ Bytes.ofChar c := hbytes ▸ List.mem_cons_self
  exact h.not_mem (List.mem_flatMap.mpr ⟨c, hc, hb⟩) (List.mem_flatMap.mpr ⟨c, hmem, hb⟩)

theorem socketBytes_eq (h : Encodes text bs) : socketBytes text = bs := (decodes_iff.mp h.decodes).symm

theorem socketPath_eq {text path : String} (h : Encodes (Bytes.ofString text) (Bytes.ofString path)) :
    socketPath text.toList = path :=
  (congrArg Bytes.lossyText h.socketBytes_eq).trans (Bytes.lossyText_ofString path)

end Encodes

/-- The usual ways to escape a text. -/
theorem encodes_encode {keep : Char → Bool} (hkeep : ∀ c ∈ "%/?#".toList, keep c = false) (bs : Bytes) :
    Encodes (Bytes.ofChars (Percent.encode keep bs)) bs := by
  induction bs with
  | nil => exact .nil
  | cons b bs ih =>
    rw [encode_cons, Bytes.ofChars, List.flatMap_append]
    split
    · rename_i hkept
      obtain ⟨hascii, hkept⟩ := Bool.and_eq_true_iff.mp hkept
      rw [List.flatMap_singleton, Bytes.ofChar_byte (of_decide_eq_true hascii)]
      refine .keep (fun hmark => ?_) ih
      have hchars : ∀ b ∈ Bytes.ofString "%/?#", Char.ofNat b.toNat ∈ "%/?#".toList := by decide +kernel
      rw [hkeep _ (hchars b hmark)] at hkept
      cases hkept
    · have hbytes : (Percent.ofByte b).flatMap Bytes.ofChar = _ := ofChars_ofByte b
      rw [hbytes]
      exact .escape (byte?_eq_some.mp (byte?_hex b)) ih

/-- The name of a socket ends at the first mark. What follows stands behind the local host, with a slash before it. -/
theorem splitSocket?_append {text tail : String} (htext : ∀ c ∈ "/?#".toList, c ∉ text.toList)
    (htail : ∀ c ∈ tail.toList.head?, c ∈ "/?#".toList) :
    splitSocket? (unixScheme ++ text ++ tail) = some (socketPath text.toList,
      "http://localhost" ++ if tail.toList.head?.all (· = '/') then tail else "/" ++ tail) := by
  have hinside : ∀ c ∈ text.toList, (!(c == '/' || c == '?' || c == '#')) = true := by
    intro c hc
    have hmark : c ∉ "/?#".toList := fun hmark => htext c hmark hc
    simpa [and_assoc] using hmark
  have hends : Lexer.Stops (fun c => !(c == '/' || c == '?' || c == '#')) tail.toList := by
    intro c hc
    have hmark : c = '/' ∨ c = '?' ∨ c = '#' := by simpa using htail c hc
    rcases hmark with rfl | rfl | rfl <;> rfl
  have hurl : (unixScheme ++ text ++ tail).toList = unixScheme.toList ++ (text.toList ++ tail.toList) := by simp
  have hscheme : unixScheme.toList.isPrefixOf (unixScheme.toList ++ (text.toList ++ tail.toList)) :=
    List.isPrefixOf_iff_prefix.mpr (List.prefix_append ..)
  have hrest : (unixScheme.toList ++ (text.toList ++ tail.toList)).drop unixScheme.length = text.toList ++ tail.toList :=
    List.drop_left' rfl
  simp only [splitSocket?, hurl, if_pos hscheme, hrest, takeWhile_append_of_stops hinside hends,
    dropWhile_append_of_stops hinside hends]
  have hpath : (if tail.toList.isEmpty || tail.toList.head? == some '/' then tail.toList else '/' :: tail.toList) =
      (if tail.toList.head?.all (· = '/') then tail else "/" ++ tail).toList := by
    rw [apply_ite String.toList, String.toList_append]
    cases tail.toList <;> simp
  rw [hpath, String.ofList_toList]

/-- The name of a socket is decoded from left to right: an escape gives its byte and every other byte is copied, and
only then the bytes are taken for text. Beside a percent sign and two hexadecimal digits one with a plus sign for the
first digit counts as an escape, and a name is decoded otherwise than it should be exactly if it holds such a one. Bytes
that were escaped come back, and so does a path that is a text, as the socket of a URL with whatever behind it. -/
theorem sockets_decoded (text : String) :
    (∀ out, Decodes SpellsSigned (Bytes.ofString text) out ↔ out = socketBytes (Bytes.ofString text)) ∧
    ((∀ out, Decodes Spells (Bytes.ofString text) out ↔ out = socketBytes (Bytes.ofString text)) ↔
      ¬HoldsSigned (Bytes.ofString text)) ∧
    socketPath text.toList = (socketBytes (Bytes.ofString text)).lossyText ∧
    (∀ bs, Encodes (Bytes.ofString text) bs → socketBytes (Bytes.ofString text) = bs) ∧
    (∀ path tail : String, Encodes (Bytes.ofString text) (Bytes.ofString path) →
      (∀ c ∈ tail.toList.head?, c ∈ "/?#".toList) → splitSocket? (unixScheme ++ text ++ tail) =
        some (path, "http://localhost" ++ if tail.toList.head?.all (· = '/') then tail else "/" ++ tail)) ∧
    ∀ keep : Char → Bool, (∀ c ∈ "%/?#".toList, keep c = false) →
      ∀ bs, Encodes (Bytes.ofChars (Percent.encode keep bs)) bs := by
  refine ⟨fun _ => decodes_iff, decodes_spells_iff _, rfl, fun _ => Encodes.socketBytes_eq, fun path tail h htail => ?_,
    fun _ => encodes_encode⟩
  rw [splitSocket?_append h.not_mem_toList htail, h.socketPath_eq]

/-- A socket in a URL, and a name with a sign in it. -/
theorem sockets_decoded_sign :
    splitSocket? "http+unix://%2Fvar%2Frun%2Fdocker.sock/info?all=1" =
      some ("/var/run/docker.sock", "http://localhost/info?all=1") ∧
    HoldsSigned (Bytes.ofString "a%+1b") ∧
    ¬∀ out, Decodes Spells (Bytes.ofString "a%+1b") out ↔ out = socketBytes (Bytes.ofString "a%+1b") := by
  obtain ⟨-, -, -, -, hsplit, hencode⟩ := sockets_decoded "%2Fvar%2Frun%2Fdocker.sock"
  obtain ⟨-, hexact, -⟩ := sockets_decoded "a%+1b"
  have hsocket := hencode Percent.isUnreserved (by simp [Percent.isUnreserved]) (Bytes.ofString "/var/run/docker.sock")
  have hbytes : Bytes.ofChars (Percent.encode Percent.isUnreserved (Bytes.ofString "/var/run/docker.sock")) =
      Bytes.ofString "%2Fvar%2Frun%2Fdocker.sock" := by cbv
  rw [hbytes] at hsocket
  have hholds : HoldsSigned (Bytes.ofString "a%+1b") :=
    ⟨0x31, 1, by decide, Bytes.ofString "a", Bytes.ofString "b", by decide⟩
  exact ⟨hsplit _ "/info?all=1" hsocket (by simp), hholds, fun h => hexact.mp h hholds⟩

end Curl
end RequestLang
