import RequestLang.Url.Percent

/-! Domain names in ASCII: case is dropped, and labels with other characters are encoded. -/
namespace RequestLang.Domain

/-- Characters that no domain name may hold. -/
def isForbidden (c : Char) : Bool :=
  c.toNat ≤ 32 || c.toNat = 127 ||
    ['#', '%', '/', ':', '<', '>', '?', '@', '[', '\\', ']', '^', '|'].contains c

/-- Small letters for capitals of the Latin, Greek and Cyrillic alphabets. -/
def lowered (n : Nat) : Nat :=
  if (0x41 ≤ n ∧ n ≤ 0x5A) ∨ (0xC0 ≤ n ∧ n ≤ 0xDE ∧ n ≠ 0xD7) ∨ (0x391 ≤ n ∧ n ≤ 0x3AB ∧ n ≠ 0x3A2) ∨
      (0x410 ≤ n ∧ n ≤ 0x42F) then n + 32
  else if 0x400 ≤ n ∧ n ≤ 0x40F then n + 80
  else if ((0x100 ≤ n ∧ n ≤ 0x12F) ∨ (0x132 ≤ n ∧ n ≤ 0x137) ∨ (0x14A ≤ n ∧ n ≤ 0x177)) ∧ n % 2 = 0 then n + 1
  else if ((0x139 ≤ n ∧ n ≤ 0x148) ∨ (0x179 ≤ n ∧ n ≤ 0x17E)) ∧ n % 2 = 1 then n + 1
  else n

/-- Full-width characters are taken for their ASCII forms, other full stops for dots, and a soft
hyphen for nothing. -/
def mapped (c : Char) : List Char :=
  let n := c.toNat
  if n = 0xAD then []
  else if n = 0x3002 ∨ n = 0xFF0E ∨ n = 0xFF61 then ['.']
  else if 0xFF01 ≤ n ∧ n ≤ 0xFF5E then [Char.ofNat (lowered (n - 0xFEE0))]
  else [Char.ofNat (lowered n)]

/-- How far the threshold moves after a code point has been written. -/
def adapt (delta count : Nat) (first : Bool) : Nat :=
  let start := (if first then delta / 700 else delta / 2)
  let rec reduce : Nat → Nat → Nat → Nat
    | 0, d, k => k + 36 * d / (d + 38)
    | fuel + 1, d, k => if d > 455 then reduce fuel (d / 35) (k + 36) else k + 36 * d / (d + 38)
  reduce 32 (start + start / count) 0

def digit (n : Nat) : Char := if n < 26 then Char.ofNat (97 + n) else Char.ofNat (22 + n)

/-- A number in digits whose weights depend on the bias. -/
def variableDigits (bias : Nat) : Nat → Nat → Nat → List Char
  | 0, _, _ => []
  | fuel + 1, k, q =>
    let t := if k ≤ bias + 1 then 1 else if k ≥ bias + 26 then 26 else k - bias
    if q < t then [digit q]
    else digit (t + (q - t) % (36 - t)) :: variableDigits bias fuel (k + 36) ((q - t) / (36 - t))

structure Encoding where
  delta : Nat
  bias : Nat
  written : Nat
  first : Bool
  out : List Char

/-- Passes over a label once for the code point `n`. -/
def pass (n : Nat) (e : Encoding) (cs : List Char) : Encoding :=
  cs.foldl (fun e c =>
    if c.toNat < n then { e with delta := e.delta + 1 }
    else if c.toNat = n then
      { delta := 0
        bias := adapt e.delta (e.written + 1) e.first
        written := e.written + 1
        first := false
        out := e.out ++ variableDigits e.bias 32 36 e.delta }
    else e) e

def encodeFrom (cs : List Char) : Nat → Nat → Encoding → List Char
  | 0, _, e => e.out
  | fuel + 1, n, e =>
    match ((cs.map Char.toNat).filter (n ≤ ·)).min? with
    | none => e.out
    | some m =>
      let e := { e with delta := e.delta + (m - n) * (e.written + 1) }
      let e := pass m e cs
      encodeFrom cs fuel (m + 1) { e with delta := e.delta + 1 }

/-- A label with characters beyond ASCII: its ASCII characters, then where the others go. -/
def encodeLabel (cs : List Char) : List Char :=
  let basic := cs.filter (·.toNat < 128)
  let head := basic ++ (if basic.isEmpty then [] else ['-'])
  ['x', 'n', '-', '-'] ++ encodeFrom cs cs.length 128 ⟨0, 72, basic.length, true, head⟩

def labels (cs : List Char) : List (List Char) :=
  ((String.ofList cs).splitOn ".").map String.toList

def toAscii? (cs : List Char) : Option (List Char) :=
  let name := cs.flatMap mapped
  if name.any isForbidden then none
  else
    some (List.intercalate ['.'] ((labels name).map fun label =>
      if label.all (·.toNat < 128) then label else encodeLabel label))

end RequestLang.Domain
