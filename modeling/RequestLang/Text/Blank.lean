/-! White space: the characters with the White_Space property, and trimming by them. -/
namespace RequestLang.Text

/-- The twenty-five characters with the White_Space property. -/
def isBlank (c : Char) : Bool :=
  let n := c.toNat
  (9 ≤ n && n ≤ 13) || n == 0x20 || n == 0x85 || n == 0xA0 || n == 0x1680 ||
    (0x2000 ≤ n && n ≤ 0x200A) || n == 0x2028 || n == 0x2029 || n == 0x202F || n == 0x205F ||
    n == 0x3000

theorem isBlank_of_isWhitespace {c : Char} (h : c.isWhitespace) : isBlank c := by
  simp only [Char.isWhitespace, Bool.or_eq_true, decide_eq_true_eq] at h
  rcases h with ((rfl | rfl) | rfl) | rfl <;> decide

def trimLeft (cs : List Char) : List Char := cs.dropWhile isBlank

def trimRight (cs : List Char) : List Char := (cs.reverse.dropWhile isBlank).reverse

def trimChars (cs : List Char) : List Char := trimRight (trimLeft cs)

def trim (s : String) : String := String.ofList (trimChars s.toList)

def trimEnd (s : String) : String := String.ofList (trimRight s.toList)

theorem trimLeft_append_of_blank {g : List Char} (hg : ∀ c ∈ g, isBlank c) (cs : List Char) :
    trimLeft (g ++ cs) = trimLeft cs := by
  induction g with
  | nil => rfl
  | cons c g ih =>
    have hc : isBlank c := hg c (by simp)
    simpa [trimLeft, hc] using ih fun d hd => hg d (by simp [hd])

end RequestLang.Text
