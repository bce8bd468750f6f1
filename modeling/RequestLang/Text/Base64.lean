import RequestLang.Text.Utf8

/-! Bytes as text: in base sixty-four and in hexadecimal digits. -/
namespace RequestLang

def base64Alphabet : List Char :=
  "ABCDEFGHIJKLMNOPQRSTUVWXYZabcdefghijklmnopqrstuvwxyz0123456789+/".toList

def base64Digit (n : Nat) : Char := base64Alphabet.getD (n % 64) 'A'

/-- Four characters for three bytes. What is missing at the end is filled with equals signs. -/
def base64 : Bytes → List Char
  | a :: b :: c :: rest =>
    let n := 65536 * a.toNat + 256 * b.toNat + c.toNat
    [base64Digit (n / 262144), base64Digit (n / 4096), base64Digit (n / 64), base64Digit n] ++
      base64 rest
  | [a, b] =>
    let n := 65536 * a.toNat + 256 * b.toNat
    [base64Digit (n / 262144), base64Digit (n / 4096), base64Digit (n / 64), '=']
  | [a] =>
    let n := 65536 * a.toNat
    [base64Digit (n / 262144), base64Digit (n / 4096), '=', '=']
  | [] => []

def Bytes.base64Text (bs : Bytes) : String := String.ofList (base64 bs)

def Bytes.hexText (bs : Bytes) : String :=
  String.ofList (bs.flatMap fun b => [Nat.digitChar (b.toNat / 16), Nat.digitChar (b.toNat % 16)])

end RequestLang

/-! Reading bytes written in base sixty-four. The last group has its equals signs, and no bits that
stand for nothing are set. -/
namespace RequestLang.Base64

/-- Why a text is not one in base sixty-four. Places count bytes from zero. -/
inductive Fault where
  | symbol (byte : UInt8) (place : Nat)
  | lastSymbol (byte : UInt8) (place : Nat)
  | size (digits : Nat)
  | padding
  deriving DecidableEq, Repr

def Fault.text : Fault → String
  | .symbol byte place =>
    "Invalid symbol " ++ toString byte.toNat ++ ", offset " ++ toString place ++ "."
  | .lastSymbol byte place =>
    "Invalid last symbol " ++ toString byte.toNat ++ ", offset " ++ toString place ++ "."
  | .size digits => "Invalid input length: " ++ toString digits
  | .padding => "Invalid padding"

def equalsSign : UInt8 := '='.toUInt8

def value? (b : UInt8) : Option Nat := base64Alphabet.idxOf? (Char.ofNat b.toNat)

def digits (place : Nat) : Bytes → Except Fault (List Nat)
  | [] => .ok []
  | b :: bs =>
    match value? b with
    | none => .error (.symbol b place)
    | some n => (digits (place + 1) bs).map (n :: ·)

/-- The digits of the last group. An equals sign comes after two of them at least, and after the
first equals sign, which stands at `filled`, come only others. -/
def lastDigits (start : Nat) : Nat → Option Nat → Bytes → Except Fault (List Nat)
  | _, _, [] => .ok []
  | i, filled, b :: bs =>
    if b = equalsSign then
      if i < 2 then .error (.symbol b (start + i))
      else lastDigits start (i + 1) (some (filled.getD i)) bs
    else
      match filled, value? b with
      | some place, _ => .error (.symbol equalsSign (start + place))
      | none, none => .error (.symbol b (start + i))
      | none, some n => (lastDigits start (i + 1) none bs).map (n :: ·)

/-- The bytes that the digits of a group write, and what is left of the last digit. -/
def groupBytes : List Nat → Bytes × Nat
  | [a, b] => ([UInt8.ofNat (4 * a + b / 16)], b % 16)
  | [a, b, c] => ([UInt8.ofNat (4 * a + b / 16), UInt8.ofNat (16 * (b % 16) + c / 4)], c % 4)
  | [a, b, c, d] =>
    ([UInt8.ofNat (4 * a + b / 16), UInt8.ofNat (16 * (b % 16) + c / 4),
      UInt8.ofNat (64 * (c % 4) + d)], 0)
  | _ => ([], 0)

def lastGroup (start : Nat) (bs : Bytes) : Except Fault Bytes := do
  let ds ← lastDigits start 0 none bs
  if !bs.isEmpty && ds.length < 2 then throw (.size (start + ds.length))
  if bs.length % 4 ≠ 0 then throw .padding
  let (written, left) := groupBytes ds
  if left ≠ 0 then
    throw (.lastSymbol (bs.getD (ds.length - 1) 0) (start + ds.length - 1))
  return written

def groups (start : Nat) : Bytes → Except Fault Bytes
  | a :: b :: c :: d :: e :: rest => do
    let ds ← digits start [a, b, c, d]
    return (groupBytes ds).1 ++ (← groups (start + 4) (e :: rest))
  | bs => lastGroup start bs

/-- A single byte after the groups of four that no digit writes is found before all else. -/
def decode (bs : Bytes) : Except Fault Bytes :=
  match bs.getLast? with
  | none => .ok []
  | some b =>
    if bs.length % 4 = 1 ∧ b ≠ equalsSign ∧ (value? b).isNone then
      .error (.symbol b (bs.length - 1))
    else groups 0 bs

end RequestLang.Base64
