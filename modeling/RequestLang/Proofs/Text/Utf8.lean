import Mathlib
import RequestLang.Text.Utf8

/-! The bytes of a text read back. A first byte tells how many bytes follow it and which may come next, so that a
text comes back from its bytes as it was. -/
namespace RequestLang.Bytes

/-- A byte behind the first, with six bits of a character. -/
def continuation (bits : Nat) : UInt8 := .ofNat (bits + 0x80)

theorem lead?_one : ∀ n < 0x80, lead? (.ofNat n) = some (1, 0, 0) ∧ leadBits (.ofNat n) 1 = n := by decide

theorem lead?_two : ∀ n < 0x20, 2 ≤ n →
    lead? (.ofNat (n + 0xC0)) = some (2, continuation 0, continuation 63) ∧
      leadBits (.ofNat (n + 0xC0)) 2 = n := by
  decide

/-- The second byte shuts out what would fit fewer bytes, and the surrogates. -/
theorem lead?_three : ∀ n < 0x10,
    lead? (.ofNat (n + 0xE0)) =
        some (3, continuation (if n = 0 then 32 else 0), continuation (if n = 13 then 31 else 63)) ∧
      leadBits (.ofNat (n + 0xE0)) 3 = n := by
  decide

theorem lead?_four : ∀ n < 5,
    lead? (.ofNat (n + 0xF0)) =
        some (4, continuation (if n = 0 then 16 else 0), continuation (if n = 4 then 15 else 63)) ∧
      leadBits (.ofNat (n + 0xF0)) 4 = n := by
  decide

theorem bits_continuation : ∀ n < 64, (continuation n).toNat % 64 = n := by decide

theorem tail_continuation {low high n : Nat} (hlow : low ≤ n) (hhigh : n ≤ high) (h : high < 64) (m : Nat)
    (bs : Bytes) : tail (continuation low) (continuation high) (m + 1) (continuation n :: bs) =
      continuation n :: tail (continuation 0) (continuation 63) m bs := by
  have hfits : continuation low ≤ continuation n ∧ continuation n ≤ continuation high := by
    simp only [continuation, UInt8.le_iff_toNat_le, UInt8.toNat_ofNat']
    omega
  rw [tail, if_pos (by simpa using hfits)]
  rfl

/-- The bytes of a character after the first are told by their number and by their ranges. -/
theorem step_of_lead {b low high : UInt8} {size : Nat} {bs rest : Bytes} {c : Char}
    (hlead : lead? b = some (size, low, high)) (htail : tail low high (size - 1) (bs ++ rest) = bs)
    (hsize : bs.length + 1 = size)
    (hvalue : bs.foldl (fun n b => n * 64 + b.toNat % 64) (leadBits b size) = c.toNat) :
    step b (bs ++ rest) = (some c, bs.length) := by
  simp [step, hlead, htail, hsize, hvalue]

theorem toNat_lt (c : Char) : c.toNat < 0x110000 ∧ ¬(0xD800 ≤ c.toNat ∧ c.toNat < 0xE000) := by
  have := c.valid
  simp only [UInt32.isValidChar, Nat.isValidChar] at this
  have h : c.toNat = c.val.toNat := rfl
  omega

theorem ofChar_eq (c : Char) : ofChar c =
    let n := c.toNat
    if n ≤ 0x7F then [.ofNat n]
    else if n ≤ 0x7FF then [.ofNat (n / 64 % 32 + 0xC0), continuation (n % 64)]
    else if n ≤ 0xFFFF then [.ofNat (n / 4096 % 16 + 0xE0), continuation (n / 64 % 64), continuation (n % 64)]
    else [.ofNat (n / 262144 % 8 + 0xF0), continuation (n / 4096 % 64), continuation (n / 64 % 64),
      continuation (n % 64)] := rfl

theorem ofChar_ofNat {n : Nat} (h : n < 0x80) : ofChar (Char.ofNat n) = [.ofNat n] := by
  have hn : (Char.ofNat n).toNat = n := by
    rw [Char.toNat_ofNat, if_pos (.inl (by omega))]
  rw [ofChar_eq, hn]
  exact if_pos (Nat.le_of_lt_succ h)

theorem ofChar_byte {b : UInt8} (h : b < 0x80) : ofChar (Char.ofNat b.toNat) = [b] := by
  rw [ofChar_ofNat (by simpa [UInt8.lt_iff_toNat_lt] using h), UInt8.ofNat_toNat]

/-- A character is read from its bytes, whatever follows them. -/
theorem step_ofChar (c : Char) :
    ∃ b bs, ofChar c = b :: bs ∧ ∀ rest, step b (bs ++ rest) = (some c, bs.length) := by
  obtain ⟨hlt, hsurrogate⟩ := toNat_lt c
  have h64 : ∀ m, m % 64 < 64 := fun m => Nat.mod_lt m (by decide)
  have hnext : ∀ n m bs, tail (continuation 0) (continuation 63) (m + 1) (continuation (n % 64) :: bs) =
      continuation (n % 64) :: tail (continuation 0) (continuation 63) m bs :=
    fun n => tail_continuation (Nat.zero_le _) (Nat.le_of_lt_succ (h64 n)) (by decide)
  rw [ofChar_eq]
  by_cases h1 : c.toNat ≤ 0x7F
  · obtain ⟨hlead, hbits⟩ := lead?_one c.toNat (by omega)
    exact ⟨_, [], by simp [h1], fun rest => step_of_lead hlead rfl rfl hbits⟩
  by_cases h2 : c.toNat ≤ 0x7FF
  · obtain ⟨hlead, hbits⟩ := lead?_two (c.toNat / 64 % 32) (by omega) (by omega)
    refine ⟨_, [continuation (c.toNat % 64)], by simp [h1, h2], fun rest => step_of_lead hlead (hnext ..) rfl ?_⟩
    simp only [List.foldl_cons, List.foldl_nil, hbits, bits_continuation _ (h64 _)]
    omega
  by_cases h3 : c.toNat ≤ 0xFFFF
  · obtain ⟨hlead, hbits⟩ := lead?_three (c.toNat / 4096 % 16) (by omega)
    refine ⟨_, [continuation (c.toNat / 64 % 64), continuation (c.toNat % 64)], by simp [h1, h2, h3],
      fun rest => step_of_lead hlead ?_ rfl ?_⟩
    · rw [List.cons_append, tail_continuation (by split <;> omega) (by split <;> omega) (by split <;> omega),
        List.cons_append, hnext, tail]
    · simp only [List.foldl_cons, List.foldl_nil, hbits, bits_continuation _ (h64 _)]
      omega
  · obtain ⟨hlead, hbits⟩ := lead?_four (c.toNat / 262144 % 8) (by omega)
    refine ⟨_, [continuation (c.toNat / 4096 % 64), continuation (c.toNat / 64 % 64), continuation (c.toNat % 64)],
      by simp [h1, h2, h3], fun rest => step_of_lead hlead ?_ rfl ?_⟩
    · rw [List.cons_append, tail_continuation (by split <;> omega) (by split <;> omega) (by split <;> omega),
        List.cons_append, hnext, List.cons_append, hnext, tail]
    · simp only [List.foldl_cons, List.foldl_nil, hbits, bits_continuation _ (h64 _)]
      omega

theorem scan_drop (n : Nat) (bs : Bytes) : scan n bs = scan 0 (bs.drop n) := by
  induction bs generalizing n with
  | nil => cases n <;> rfl
  | cons b bs ih =>
    cases n with
    | zero => rfl
    | succ n => rw [scan, ih, List.drop_succ_cons]

theorem scan_ofChars (cs : List Char) : scan 0 (ofChars cs) = cs.map some := by
  induction cs with
  | nil => rfl
  | cons c cs ih =>
    obtain ⟨b, bs, hbytes, hstep⟩ := step_ofChar c
    rw [ofChars, List.flatMap_cons, hbytes, List.cons_append, scan, hstep]
    dsimp only
    rw [scan_drop, List.drop_left, List.map_cons]
    exact congrArg _ ih

/-- A text is what its bytes write. -/
theorem lossyText_ofString (s : String) : lossyText (ofString s) = s := by
  rw [lossyText, ofString, scan_ofChars]
  simp

end RequestLang.Bytes
