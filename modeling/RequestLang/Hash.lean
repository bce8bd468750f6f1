import RequestLang.Text.Utf8

/-! Messages as blocks of sixteen words, with a length behind them. -/
namespace RequestLang.Hash

abbrev Word := UInt32

def rotateLeft (w : Word) (n : Word) : Word := (w <<< n) ||| (w >>> (32 - n))

def rotateRight (w : Word) (n : Word) : Word := (w >>> n) ||| (w <<< (32 - n))

/-- The bytes of a number, of which the last comes first. -/
def littleEndian : Nat → Nat → Bytes
  | 0, _ => []
  | n + 1, v => (v % 256).toUInt8 :: littleEndian n (v / 256)

def bigEndian (size v : Nat) : Bytes := (littleEndian size v).reverse

/-- How many zeros bring a message with one mark and eight bytes of length to whole blocks. -/
def paddingZeros (size : Nat) : Nat := (119 - size % 64) % 64

/-- A message, a mark, zeros and the number of bits. -/
def padded (length : Nat → Bytes) (message : Bytes) : Bytes :=
  message ++ 0x80 :: List.replicate (paddingZeros message.length) 0 ++ length (8 * message.length)

def bigWords : Bytes → List Word
  | a :: b :: c :: d :: rest =>
    (a.toUInt32 <<< 24 ||| b.toUInt32 <<< 16 ||| c.toUInt32 <<< 8 ||| d.toUInt32) :: bigWords rest
  | _ => []

def littleWords : Bytes → List Word
  | a :: b :: c :: d :: rest =>
    (d.toUInt32 <<< 24 ||| c.toUInt32 <<< 16 ||| b.toUInt32 <<< 8 ||| a.toUInt32) :: littleWords rest
  | _ => []

def blocksOf : Nat → List Word → List (List Word)
  | 0, _ => []
  | n + 1, ws => if ws.isEmpty then [] else ws.take 16 :: blocksOf n (ws.drop 16)

def blocks (ws : List Word) : List (List Word) := blocksOf (ws.length / 16) ws

def bigBytes (ws : List Word) : Bytes := ws.flatMap fun w => bigEndian 4 w.toNat

def littleBytes (ws : List Word) : Bytes := ws.flatMap fun w => littleEndian 4 w.toNat

/-- A schedule as a window of sixteen words: a step takes the first and puts a new one behind. -/
def slide (next : List Word → Word) (window : List Word) : List Word :=
  window.drop 1 ++ [next window]

end RequestLang.Hash

/-! The hash with 128 bits. -/
namespace RequestLang.Md5

open Hash

def constants : List Word := [
  0xD76AA478, 0xE8C7B756, 0x242070DB, 0xC1BDCEEE, 0xF57C0FAF, 0x4787C62A, 0xA8304613, 0xFD469501,
  0x698098D8, 0x8B44F7AF, 0xFFFF5BB1, 0x895CD7BE, 0x6B901122, 0xFD987193, 0xA679438E, 0x49B40821,
  0xF61E2562, 0xC040B340, 0x265E5A51, 0xE9B6C7AA, 0xD62F105D, 0x02441453, 0xD8A1E681, 0xE7D3FBC8,
  0x21E1CDE6, 0xC33707D6, 0xF4D50D87, 0x455A14ED, 0xA9E3E905, 0xFCEFA3F8, 0x676F02D9, 0x8D2A4C8A,
  0xFFFA3942, 0x8771F681, 0x6D9D6122, 0xFDE5380C, 0xA4BEEA44, 0x4BDECFA9, 0xF6BB4B60, 0xBEBFBC70,
  0x289B7EC6, 0xEAA127FA, 0xD4EF3085, 0x04881D05, 0xD9D4D039, 0xE6DB99E5, 0x1FA27CF8, 0xC4AC5665,
  0xF4292244, 0x432AFF97, 0xAB9423A7, 0xFC93A039, 0x655B59C3, 0x8F0CCC92, 0xFFEFF47D, 0x85845DD1,
  0x6FA87E4F, 0xFE2CE6E0, 0xA3014314, 0x4E0811A1, 0xF7537E82, 0xBD3AF235, 0x2AD7D2BB, 0xEB86D391]

/-- How far each round of a quarter rotates, over and over. -/
def rotations : Nat → List Word
  | 0 => [7, 12, 17, 22]
  | 1 => [5, 9, 14, 20]
  | 2 => [4, 11, 16, 23]
  | _ => [6, 10, 15, 21]

structure State where
  a : Word
  b : Word
  c : Word
  d : Word

def State.toList (s : State) : List Word := [s.a, s.b, s.c, s.d]

def start : State := ⟨0x67452301, 0xEFCDAB89, 0x98BADCFE, 0x10325476⟩

/-- How a quarter mixes, and which word of the block a round takes. -/
def mix (s : State) (i : Nat) : Word × Nat :=
  match i / 16 with
  | 0 => ((s.b &&& s.c) ||| (~~~s.b &&& s.d), i)
  | 1 => ((s.d &&& s.b) ||| (~~~s.d &&& s.c), 5 * i + 1)
  | 2 => (s.b ^^^ s.c ^^^ s.d, 3 * i + 5)
  | _ => (s.c ^^^ (s.b ||| ~~~s.d), 7 * i)

def round (block : List Word) (s : State) (k : Word) (i : Nat) : State :=
  let (f, place) := mix s i
  let sum := s.a + f + k + block.getD (place % 16) 0
  ⟨s.d, s.b + rotateLeft sum ((rotations (i / 16)).getD (i % 4) 0), s.b, s.c⟩

def compress (s : State) (block : List Word) : State :=
  let t := constants.zipIdx.foldl (fun t (k, i) => round block t k i) s
  ⟨s.a + t.a, s.b + t.b, s.c + t.c, s.d + t.d⟩

def digest (message : Bytes) : Bytes :=
  littleBytes ((blocks (littleWords (padded (littleEndian 8) message))).foldl compress start).toList

end RequestLang.Md5

/-! The hash with 160 bits. -/
namespace RequestLang.Sha1

open Hash

structure State where
  a : Word
  b : Word
  c : Word
  d : Word
  e : Word

def State.toList (s : State) : List Word := [s.a, s.b, s.c, s.d, s.e]

def start : State := ⟨0x67452301, 0xEFCDAB89, 0x98BADCFE, 0x10325476, 0xC3D2E1F0⟩

def next (window : List Word) : Word :=
  rotateLeft (window.getD 13 0 ^^^ window.getD 8 0 ^^^ window.getD 2 0 ^^^ window.getD 0 0) 1

/-- Each quarter of the rounds mixes in its own way. -/
def mix (s : State) (i : Nat) : Word :=
  if i < 20 then ((s.b &&& s.c) ||| (~~~s.b &&& s.d)) + 0x5A827999
  else if i < 40 then (s.b ^^^ s.c ^^^ s.d) + 0x6ED9EBA1
  else if i < 60 then ((s.b &&& s.c) ||| (s.b &&& s.d) ||| (s.c &&& s.d)) + 0x8F1BBCDC
  else (s.b ^^^ s.c ^^^ s.d) + 0xCA62C1D6

def round (s : State) (i : Nat) (w : Word) : State :=
  ⟨rotateLeft s.a 5 + mix s i + s.e + w, s.a, rotateLeft s.b 30, s.c, s.d⟩

def compress (s : State) (block : List Word) : State :=
  let (t, _) := (List.range 80).foldl
    (fun (t, window) i => (round t i (window.headD 0), slide next window)) (s, block)
  ⟨s.a + t.a, s.b + t.b, s.c + t.c, s.d + t.d, s.e + t.e⟩

def digest (message : Bytes) : Bytes :=
  bigBytes ((blocks (bigWords (padded (bigEndian 8) message))).foldl compress start).toList

end RequestLang.Sha1

/-! The hash with 256 bits of the second family. -/
namespace RequestLang.Sha256

open Hash

def constants : List Word := [
  0x428A2F98, 0x71374491, 0xB5C0FBCF, 0xE9B5DBA5, 0x3956C25B, 0x59F111F1, 0x923F82A4, 0xAB1C5ED5,
  0xD807AA98, 0x12835B01, 0x243185BE, 0x550C7DC3, 0x72BE5D74, 0x80DEB1FE, 0x9BDC06A7, 0xC19BF174,
  0xE49B69C1, 0xEFBE4786, 0x0FC19DC6, 0x240CA1CC, 0x2DE92C6F, 0x4A7484AA, 0x5CB0A9DC, 0x76F988DA,
  0x983E5152, 0xA831C66D, 0xB00327C8, 0xBF597FC7, 0xC6E00BF3, 0xD5A79147, 0x06CA6351, 0x14292967,
  0x27B70A85, 0x2E1B2138, 0x4D2C6DFC, 0x53380D13, 0x650A7354, 0x766A0ABB, 0x81C2C92E, 0x92722C85,
  0xA2BFE8A1, 0xA81A664B, 0xC24B8B70, 0xC76C51A3, 0xD192E819, 0xD6990624, 0xF40E3585, 0x106AA070,
  0x19A4C116, 0x1E376C08, 0x2748774C, 0x34B0BCB5, 0x391C0CB3, 0x4ED8AA4A, 0x5B9CCA4F, 0x682E6FF3,
  0x748F82EE, 0x78A5636F, 0x84C87814, 0x8CC70208, 0x90BEFFFA, 0xA4506CEB, 0xBEF9A3F7, 0xC67178F2]

structure State where
  a : Word
  b : Word
  c : Word
  d : Word
  e : Word
  f : Word
  g : Word
  h : Word

def State.toList (s : State) : List Word := [s.a, s.b, s.c, s.d, s.e, s.f, s.g, s.h]

def start : State where
  a := 0x6A09E667
  b := 0xBB67AE85
  c := 0x3C6EF372
  d := 0xA54FF53A
  e := 0x510E527F
  f := 0x9B05688C
  g := 0x1F83D9AB
  h := 0x5BE0CD19

def next (window : List Word) : Word :=
  let w15 := window.getD 1 0
  let w2 := window.getD 14 0
  let s0 := rotateRight w15 7 ^^^ rotateRight w15 18 ^^^ (w15 >>> 3)
  let s1 := rotateRight w2 17 ^^^ rotateRight w2 19 ^^^ (w2 >>> 10)
  window.getD 0 0 + s0 + window.getD 9 0 + s1

def round (s : State) (k w : Word) : State :=
  let s1 := rotateRight s.e 6 ^^^ rotateRight s.e 11 ^^^ rotateRight s.e 25
  let choice := (s.e &&& s.f) ^^^ (~~~s.e &&& s.g)
  let t1 := s.h + s1 + choice + k + w
  let s0 := rotateRight s.a 2 ^^^ rotateRight s.a 13 ^^^ rotateRight s.a 22
  let majority := (s.a &&& s.b) ^^^ (s.a &&& s.c) ^^^ (s.b &&& s.c)
  ⟨t1 + s0 + majority, s.a, s.b, s.c, s.d + t1, s.e, s.f, s.g⟩

def compress (s : State) (block : List Word) : State :=
  let (t, _) := constants.foldl
    (fun (t, window) k => (round t k (window.headD 0), slide next window)) (s, block)
  ⟨s.a + t.a, s.b + t.b, s.c + t.c, s.d + t.d, s.e + t.e, s.f + t.f, s.g + t.g, s.h + t.h⟩

def digest (message : Bytes) : Bytes :=
  bigBytes ((blocks (bigWords (padded (bigEndian 8) message))).foldl compress start).toList

end RequestLang.Sha256

/-! Message authentication codes from hashes over blocks of sixty-four bytes. -/
namespace RequestLang

/-- A key longer than a block is hashed first. -/
def hmac (digest : Bytes → Bytes) (key message : Bytes) : Bytes :=
  let key := if key.length > 64 then digest key else key
  let key := key ++ List.replicate (64 - key.length) 0
  digest (key.map (· ^^^ 0x5C) ++ digest (key.map (· ^^^ 0x36) ++ message))

end RequestLang
