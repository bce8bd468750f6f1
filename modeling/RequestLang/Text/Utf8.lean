/-! Bytes, and text as bytes. -/
namespace RequestLang

abbrev Bytes := List UInt8

namespace Bytes

def ofChar (c : Char) : Bytes := String.utf8EncodeChar c

def ofChars (cs : List Char) : Bytes := cs.flatMap ofChar

def ofString (s : String) : Bytes := ofChars s.toList

def isContinuation (b : UInt8) : Bool := 0x80 ≤ b && b ≤ 0xBF

/-- The number of bytes that a first byte announces, with the range of the second. -/
def lead? (b : UInt8) : Option (Nat × UInt8 × UInt8) :=
  if b < 0x80 then some (1, 0, 0)
  else if 0xC2 ≤ b && b ≤ 0xDF then some (2, 0x80, 0xBF)
  else if b == 0xE0 then some (3, 0xA0, 0xBF)
  else if b == 0xED then some (3, 0x80, 0x9F)
  else if 0xE1 ≤ b && b ≤ 0xEF then some (3, 0x80, 0xBF)
  else if b == 0xF0 then some (4, 0x90, 0xBF)
  else if 0xF1 ≤ b && b ≤ 0xF3 then some (4, 0x80, 0xBF)
  else if b == 0xF4 then some (4, 0x80, 0x8F)
  else none

def leadBits (b : UInt8) (size : Nat) : Nat :=
  match size with
  | 1 => b.toNat
  | 2 => b.toNat % 32
  | 3 => b.toNat % 16
  | _ => b.toNat % 8

/-- The continuation bytes that fit, at most `n` of them, of which the first has its own range. -/
def tail (low high : UInt8) : Nat → Bytes → Bytes
  | 0, _ => []
  | _ + 1, [] => []
  | n + 1, b :: bs => if low ≤ b && b ≤ high then b :: tail 0x80 0xBF n bs else []

/-- Reads a character after its first byte: the character, if it is complete, and how many bytes
follow the first. -/
def step (b : UInt8) (rest : Bytes) : Option Char × Nat :=
  match lead? b with
  | none => (none, 0)
  | some (size, low, high) =>
    let bs := tail low high (size - 1) rest
    if bs.length + 1 = size then
      (some (Char.ofNat (bs.foldl (fun n c => n * 64 + c.toNat % 64) (leadBits b size))), bs.length)
    else (none, bs.length)

/-- Each character, or `none` for a longest run of bytes that begins one and does not end it. -/
def scan : Nat → Bytes → List (Option Char)
  | _, [] => []
  | n + 1, _ :: bs => scan n bs
  | 0, b :: bs => let (c, n) := step b bs; c :: scan n bs

def chars? (bs : Bytes) : Option (List Char) := (scan 0 bs).mapM id

/-- The text that the bytes write, if they write one. -/
def text? (bs : Bytes) : Option String := (chars? bs).map String.ofList

def replacement : Char := '\uFFFD'

/-- Text with a replacement character for what is none. -/
def lossyText (bs : Bytes) : String := String.ofList ((scan 0 bs).map (·.getD replacement))

end Bytes
end RequestLang
