import Mathlib
import RequestLang.Proofs.Arith.Words

/-! Expressions of whole numbers have their exact value, with the precedence of their operators, as long as no value on
the way to it is too large. -/
namespace RequestLang.Arith

inductive Expr where
  | literal (n : Nat)
  | negative (e : Expr)
  | positive (e : Expr)
  | binary (op : Op) (a b : Expr)

/-- Why there is no exact value. -/
inductive Stop where
  | tooLarge
  | exponent
  | quotient
  | zeroDivisor
  deriving DecidableEq

/-- Values are whole numbers that fit in a word together with their negation. -/
def bounded (i : Int) : Except Stop Int := if i.natAbs ≤ 2 ^ 63 - 1 then .ok i else .error .tooLarge

/-- A remainder is that of the division rounded down. -/
def Op.exact : Op → Int → Int → Except Stop Int
  | .add, x, y => bounded (x + y)
  | .sub, x, y => bounded (x - y)
  | .mul, x, y => bounded (x * y)
  | .div, _, _ => .error .quotient
  | .mod, x, y => if y = 0 then .error .zeroDivisor else bounded (x.fmod y)
  | .pow, x, y => if 0 ≤ y ∧ y < 2 ^ 32 then bounded (x ^ y.toNat) else .error .exponent

/-- The exact value, or what stands in its way first when operands are evaluated from the left. -/
def Expr.exact : Expr → Except Stop Int
  | .literal n => bounded n
  | .negative e => do
    let x ← e.exact
    bounded (-x)
  | .positive e => e.exact
  | .binary op a b => do
    let x ← a.exact
    let y ← b.exact
    op.exact x y

/-- How tightly the parts of an expression are bound together. -/
inductive Level where
  | sum | product | signed | power | atom

namespace Level

def rank : Level → Nat
  | sum => 0
  | product => 1
  | signed => 2
  | power => 3
  | atom => 4

def next : Level → Level
  | sum => product
  | product => signed
  | signed => power
  | _ => atom

end Level

namespace Op

def level : Op → Level
  | add | sub => .sum
  | mul | div | mod => .product
  | pow => .power

def left : Op → Level
  | add | sub => .sum
  | mul | div | mod => .product
  | pow => .atom

/-- Powers associate to the right, and a sign may stand in their exponent. -/
def right : Op → Level
  | add | sub => .product
  | mul | div | mod | pow => .signed

end Op

def enclose (ss : List Symbol) : List Symbol := .opening :: (ss ++ [.closing])

/-- The symbols spell the expression at the level. Parentheses stand wherever they are needed, and anywhere else. -/
inductive Writes : Level → Expr → List Symbol → Prop
  | literal (n : Nat) : Writes .atom (.literal n) [.number (.int n)]
  | enclosed {e : Expr} {ss : List Symbol} (h : Writes .sum e ss) : Writes .atom e (enclose ss)
  | negative {e : Expr} {ss : List Symbol} (h : Writes .signed e ss) : Writes .signed (.negative e) (.op .sub :: ss)
  | positive {e : Expr} {ss : List Symbol} (h : Writes .signed e ss) : Writes .signed (.positive e) (.op .add :: ss)
  | binary {op : Op} {a b : Expr} {ss ts : List Symbol} (ha : Writes op.left a ss) (hb : Writes op.right b ts) :
    Writes op.level (.binary op a b) (ss ++ .op op :: ts)
  | loosen {l : Level} {e : Expr} {ss : List Symbol} (h : Writes l.next e ss) : Writes l e ss

namespace Expr

/-- Every operation in parentheses. -/
def full : Expr → List Symbol
  | literal n => [.number (.int n)]
  | negative e => enclose (.op .sub :: e.full)
  | positive e => enclose (.op .add :: e.full)
  | binary op a b => enclose (a.full ++ .op op :: b.full)

def level : Expr → Level
  | literal _ => .atom
  | negative _ | positive _ => .signed
  | binary op _ _ => op.level

def operand (l : Level) (e : Expr) (ss : List Symbol) : List Symbol :=
  if l.rank ≤ e.level.rank then ss else enclose ss

/-- Parentheses only around operands that are bound less tightly than their operator. -/
def minimal : Expr → List Symbol
  | literal n => [.number (.int n)]
  | negative e => .op .sub :: e.operand .signed e.minimal
  | positive e => .op .add :: e.operand .signed e.minimal
  | binary op a b => a.operand op.left a.minimal ++ .op op :: b.operand op.right b.minimal

end Expr

/-- The texts of a symbol. An integer may have zeros in front. -/
inductive Symbol.Spells : Symbol → List Char → Prop
  | number {ds : List Char} (hne : ds ≠ []) (hds : ds.all Char.isDigit) (hfits : fitsSigned (Numeral.ofDigits ds)) :
    Spells (.number (.int (Numeral.ofDigits ds))) ds
  | op (o : Op) : Spells (.op o) o.mark.toList
  | opening : Spells .opening ['(']
  | closing : Spells .closing [')']

/-- The text of the symbols with any blanks before, between and behind them. -/
inductive Spaced : List Symbol → List Char → Prop
  | nil : Spaced [] []
  | blank {c : Char} {ss : List Symbol} {cs : List Char} (hc : isBlank c) (h : Spaced ss cs) : Spaced ss (c :: cs)
  | cons {s : Symbol} {ss : List Symbol} {text cs : List Char} (hs : s.Spells text) (h : Spaced ss cs) :
    Spaced (s :: ss) (text ++ cs)

theorem Writes.of_rank {l l' : Level} {e : Expr} {ss : List Symbol} (h : Writes l e ss) (hl : l'.rank ≤ l.rank) :
    Writes l' e ss := by
  -- down from one level to the other, one step at a time
  cases l <;> cases l' <;> first
    | exact absurd hl (by decide)
    | repeat first
        | exact h
        | apply Writes.loosen

namespace Expr

theorem writes_operand {e : Expr} {ss : List Symbol} (h : Writes e.level e ss) (l : Level) :
    Writes l e (e.operand l ss) := by
  unfold operand
  split
  · exact h.of_rank ‹_›
  · refine (Writes.enclosed (h.of_rank (Nat.zero_le _))).of_rank ?_
    cases l <;> decide

theorem writes_minimal (e : Expr) : Writes e.level e e.minimal := by
  induction e with
  | literal n => exact .literal n
  | negative e ih => exact .negative (writes_operand ih _)
  | positive e ih => exact .positive (writes_operand ih _)
  | binary op a b iha ihb => exact .binary (writes_operand iha _) (writes_operand ihb _)

theorem writes_full (e : Expr) : Writes .atom e e.full := by
  have hloose {l : Level} {e : Expr} {ss : List Symbol} (h : Writes .atom e ss) : Writes l e ss :=
    h.of_rank (by cases l <;> decide)
  induction e with
  | literal n => exact .literal n
  | negative e ih => exact .enclosed ((Writes.negative (hloose ih)).of_rank (by decide))
  | positive e ih => exact .enclosed ((Writes.positive (hloose ih)).of_rank (by decide))
  | binary op a b iha ihb => exact .enclosed ((Writes.binary (hloose iha) (hloose ihb)).of_rank (Nat.zero_le _))

end Expr

/-- Operands and operators take turns; an operand is due next, or an operator is. -/
inductive Alternates : (operand : Bool) → List Symbol → Prop
  | number {ss : List Symbol} (v : Number) (h : Alternates false ss) : Alternates true (.number v :: ss)
  | opening {ss : List Symbol} (h : Alternates true ss) : Alternates true (.opening :: ss)
  | sign {o : Op} {ss : List Symbol} (ho : o = .sub ∨ o = .add) (h : Alternates true ss) : Alternates true (.op o :: ss)
  | op {ss : List Symbol} (o : Op) (h : Alternates true ss) : Alternates false (.op o :: ss)
  | closing {ss : List Symbol} (h : Alternates false ss) : Alternates false (.closing :: ss)
  | nil : Alternates false []

theorem Alternates.of_op {operand : Bool} {o : Op} {ss : List Symbol} (h : Alternates operand (.op o :: ss)) :
    Alternates true ss := by
  cases h with
  | sign _ h => exact h
  | op _ h => exact h

theorem Writes.alternates {l : Level} {e : Expr} {ss rest : List Symbol} (h : Writes l e ss)
    (hrest : Alternates false rest) : Alternates true (ss ++ rest) := by
  induction h generalizing rest with
  | literal n => exact .number _ hrest
  | enclosed _ ih =>
    rw [enclose, List.cons_append, List.append_assoc]
    exact .opening (ih (.closing hrest))
  | negative _ ih => exact .sign (.inl rfl) (ih hrest)
  | positive _ ih => exact .sign (.inr rfl) (ih hrest)
  | binary _ _ iha ihb =>
    rw [List.append_assoc]
    exact iha (.op _ (ihb hrest))
  | loosen _ ih => exact ih hrest

section
variable {n : Nat} {c : Char} {ss : List Symbol} {ds cs : List Char}

theorem isBlank_iff : isBlank c ↔ c = ' ' ∨ c = '\t' ∨ c = '\n' ∨ c = '\r' := by
  simp [isBlank, or_assoc]

theorem symbols_blank (hc : isBlank c) : symbols (n + 1) (c :: cs) = symbols n cs := by
  rcases isBlank_iff.mp hc with rfl | rfl | rfl | rfl <;> rfl

theorem symbols_op (o : Op) (hcs : cs.head? ≠ some '*') :
    symbols (n + 1) (o.mark.toList ++ cs) = (symbols n cs).map (.op o :: ·) := by
  cases o with
  | mul =>
    rcases cs with _ | ⟨c, cs⟩
    · rfl
    -- two marks of a product would be read as one of a power
    have hc : c ≠ '*' := by simpa using hcs
    show symbols (n + 1) ('*' :: c :: cs) = _
    rw [symbols]
    rintro cs' ⟨⟩
    exact hc rfl
  | _ => rfl

/-- What may stand behind the digits of a number. -/
def EndsNumber (cs : List Char) : Prop := ∀ c ∈ cs.head?, ¬isNumberChar c ∧ c ≠ 'e' ∧ c ≠ 'E'

theorem numberLength_digits (hds : ds.all Char.isDigit) (hcs : EndsNumber cs) :
    numberLength (ds ++ cs) = ds.length := by
  have hbody : (ds ++ cs).takeWhile isNumberChar = ds := by
    rw [List.takeWhile_append_of_pos fun d hd => by simp [isNumberChar, List.all_eq_true.mp hds d hd]]
    rcases cs with _ | ⟨c, cs⟩
    · simp
    · rw [List.takeWhile_cons_of_neg (hcs c rfl).1, List.append_nil]
  rw [numberLength, hbody, List.drop_left]
  rcases cs with _ | ⟨c, cs⟩
  · rfl
  · obtain ⟨-, he, hE⟩ := hcs c rfl
    simp [he, hE]

theorem number?_digits (hne : ds ≠ []) (hds : ds.all Char.isDigit) (hfits : fitsSigned (Numeral.ofDigits ds)) :
    number? ds = some (.int (Numeral.ofDigits ds)) := by
  simp [number?, hds, hne, hfits]

theorem symbols_number (hne : ds ≠ []) (hds : ds.all Char.isDigit) (hfits : fitsSigned (Numeral.ofDigits ds))
    (hcs : EndsNumber cs) :
    symbols (n + 1) (ds ++ cs) = (symbols n cs).map (.number (.int (Numeral.ofDigits ds)) :: ·) := by
  have hlength := numberLength_digits hds hcs
  have hnumber := number?_digits hne hds hfits
  rcases ds with _ | ⟨d, ds⟩
  · exact absurd rfl hne
  have hd := List.all_eq_true.mp hds d List.mem_cons_self
  have hmark {c : Char} (hc : c.isDigit = false) : d ≠ c := by
    rintro rfl
    simp [hc] at hd
  have hblank : isBlank d = false := by simp [isBlank, hmark]
  rw [List.cons_append] at hlength ⊢
  rw [symbols]
  · simp [hblank, isNumberChar, hd, hlength, hnumber]
  all_goals (intros; exact absurd ‹d = _› (hmark rfl))

theorem Symbol.Spells.length_pos {s : Symbol} (h : s.Spells cs) : 0 < cs.length := by
  cases h with
  | number hne => exact List.length_pos_of_ne_nil hne
  | op o => cases o <;> decide
  | _ => decide

namespace Spaced

theorem head_ne_star (h : Spaced ss cs) (hss : Alternates true ss) : cs.head? ≠ some '*' := by
  cases h with
  | nil => simp
  | blank hc h =>
    rintro ⟨⟩
    exact absurd hc (by decide)
  | cons hs h =>
    cases hs with
    | @number ds hne hds hfits =>
      obtain ⟨d, ds, rfl⟩ := List.exists_cons_of_ne_nil hne
      rintro ⟨⟩
      exact absurd (List.all_eq_true.mp hds _ List.mem_cons_self) (by decide)
    | op o =>
      cases hss with
      | sign ho => rcases ho with rfl | rfl <;> rintro ⟨⟩
    | opening => rintro ⟨⟩
    | closing => cases hss

theorem endsNumber (h : Spaced ss cs) (hss : Alternates false ss) : EndsNumber cs := by
  cases h with
  | nil => rintro c ⟨⟩
  | @blank c ss cs hc h =>
    rintro _ ⟨⟩
    rcases isBlank_iff.mp hc with rfl | rfl | rfl | rfl <;> decide
  | cons hs h =>
    cases hs with
    | number => cases hss
    | op o => cases o <;> rintro _ ⟨⟩ <;> decide
    | opening => cases hss
    | closing => rintro _ ⟨⟩; decide

/-- The symbols are read back from their text. -/
theorem symbols_eq {operand : Bool} (h : Spaced ss cs) (hss : Alternates operand ss) (hn : cs.length < n) :
    symbols n cs = .ok ss := by
  induction h generalizing operand n with
  | nil => cases n <;> rfl
  | blank hc h ih =>
    obtain ⟨n, rfl⟩ := Nat.exists_eq_succ_of_ne_zero (Nat.ne_of_gt (Nat.zero_lt_of_lt hn))
    rw [symbols_blank hc, ih hss (Nat.lt_of_succ_lt_succ hn)]
  | @cons s ss text cs hs h ih =>
    obtain ⟨n, rfl⟩ := Nat.exists_eq_succ_of_ne_zero (Nat.ne_of_gt (Nat.zero_lt_of_lt hn))
    have hpos := hs.length_pos
    rw [List.length_append] at hn
    cases hs with
    | number hne hds hfits =>
      cases hss with
      | number _ hss =>
        rw [symbols_number hne hds hfits (h.endsNumber hss), ih hss (by omega)]
        rfl
    | op o =>
      have hss := hss.of_op
      rw [symbols_op o (h.head_ne_star hss), ih hss (by omega)]
      rfl
    | opening =>
      cases hss with
      | opening hss => exact map_eq_ok.mpr ⟨ss, ih hss (by omega), rfl⟩
    | closing =>
      cases hss with
      | closing hss => exact map_eq_ok.mpr ⟨ss, ih hss (by omega), rfl⟩

end Spaced
end

section
variable {x y v : Int} {n : Nat} {e : Expr} {op : Op}

theorem bounded_eq_ok : bounded x = .ok v ↔ x.natAbs ≤ 2 ^ 63 - 1 ∧ x = v := by
  unfold bounded
  split <;> simp_all

theorem Op.le_of_exact (h : op.exact x y = .ok v) : v.natAbs ≤ 2 ^ 63 - 1 := by
  have hbounded {i : Int} (h : bounded i = .ok v) : v.natAbs ≤ 2 ^ 63 - 1 :=
    (bounded_eq_ok.mp h).2 ▸ (bounded_eq_ok.mp h).1
  unfold exact at h
  split at h
  all_goals try split at h
  all_goals first
    | exact hbounded h
    | cases h

theorem Expr.le_of_exact (h : e.exact = .ok v) : v.natAbs ≤ 2 ^ 63 - 1 := by
  induction e generalizing v with
  | literal n =>
    obtain ⟨hle, rfl⟩ := bounded_eq_ok.mp h
    exact hle
  | negative e =>
    obtain ⟨x, -, h⟩ := bind_eq_ok.mp h
    obtain ⟨hle, rfl⟩ := bounded_eq_ok.mp h
    exact hle
  | positive e ih => exact ih h
  | binary op a b =>
    obtain ⟨x, -, h⟩ := bind_eq_ok.mp h
    obtain ⟨y, -, h⟩ := bind_eq_ok.mp h
    exact Op.le_of_exact h

/-- A remainder has the sign of the divisor. -/
theorem Op.exact_mod (h : Op.mod.exact x y = .ok v) : y ∣ x - v ∧ v.natAbs < y.natAbs ∧ 0 ≤ v * y := by
  unfold exact at h
  dsimp only at h
  split at h
  · cases h
  rename_i hy
  obtain ⟨-, rfl⟩ := bounded_eq_ok.mp h
  rcases lt_or_gt_of_ne hy with hneg | hpos
  · obtain ⟨hsum, hlow, hhigh⟩ := (Int.fdiv_fmod_unique' (a := x) hneg).mp ⟨rfl, rfl⟩
    exact ⟨⟨x.fdiv y, by omega⟩, by omega, Int.mul_nonneg_of_nonpos_of_nonpos hhigh hneg.le⟩
  · obtain ⟨hsum, hlow, hhigh⟩ := (Int.fdiv_fmod_unique (a := x) hpos).mp ⟨rfl, rfl⟩
    exact ⟨⟨x.fdiv y, by omega⟩, by omega, Int.mul_nonneg hlow hpos.le⟩

theorem fit?_eq_some (h : x.natAbs ≤ 2 ^ 63 - 1) : fit? x = some x := by
  have hfits : fitsSigned x := by
    rw [fitsSigned_iff, signedEnd]
    omega
  simp [fit?, hfits]

/-- A power that fits is found. -/
theorem power?_eq_some (h : (x ^ n).natAbs ≤ 2 ^ 63 - 1) : power? x n = some (x ^ n) := by
  unfold power?
  split
  · subst x
    split <;> simp_all
  split
  · subst x
    simp
  split
  · subst x
    split
    · simp_all [Nat.even_iff]
    · simp_all [Odd.neg_one_pow, Nat.odd_iff]
  split
  · rename_i hzero hone hminus hlarge
    have htwo : 2 ≤ x.natAbs := by omega
    have hpow : 2 ^ 64 ≤ (x ^ n).natAbs := by
      rw [Int.natAbs_pow]
      exact (Nat.pow_le_pow_right Nat.zero_lt_two hlarge).trans (Nat.pow_le_pow_left htwo n)
    omega
  · exact fit?_eq_some h

end

/-- What is read agrees with an exact value where it goes on with it, and where both stop at a remainder by zero. -/
def Agrees {α : Type} (r : Except Stop Int) (x : Except Fault α) (k : Int → Except Fault α) : Prop :=
  match r with
  | .ok v => x = k v
  | .error .zeroDivisor => x = .error .divisionByZero
  | .error _ => True

namespace Agrees
variable {α β : Type} {r : Except Stop Int} {x : Except Fault α} {k k' : Int → Except Fault α}

theorem bind {g : Int → Except Stop Int} (h : Agrees r x k) (hk : ∀ v, r = .ok v → Agrees (g v) (k v) k') :
    Agrees (r >>= g) x k' := by
  rcases r with stop | v
  · cases stop <;> exact h
  · obtain rfl : x = k v := h
    exact hk v rfl

theorem followed (h : Agrees r x k) (f : α → Except Fault β) : Agrees r (x >>= f) fun v => k v >>= f := by
  rcases r with stop | v
  · cases stop with
    | zeroDivisor =>
      obtain rfl : x = .error .divisionByZero := h
      rfl
    | _ => trivial
  · obtain rfl : x = k v := h
    rfl

theorem continued {f : α → Except Fault β} {k' : Int → Except Fault β} (h : Agrees r x k)
    (hk : ∀ v, r = .ok v → k v >>= f = k' v) : Agrees r (x >>= f) k' := by
  have h := h.followed f
  rcases r with stop | v
  · cases stop <;> exact h
  · exact Eq.trans h (hk v rfl)

end Agrees

theorem agrees_bounded {α : Type} {i : Int} {x : Except Fault α} {k : Int → Except Fault α}
    (h : i.natAbs ≤ 2 ^ 63 - 1 → x = k i) : Agrees (bounded i) x k := by
  unfold bounded
  split
  · exact h ‹_›
  · trivial

theorem Number.apply_int {op : Op} {x y v : Int} (hdiv : op ≠ .div) (hmod : op ≠ .mod) (h : intApply? op x y = some v) :
    apply op (.int x) (.int y) = .ok (.int v) := by
  cases op <;> simp_all [apply]

/-- An operator does to words what it does to whole numbers, as long as its result is one of them. -/
theorem agrees_apply (op : Op) {x : Int} (y : Int) (hx : x.natAbs ≤ 2 ^ 63 - 1) :
    Agrees (op.exact x y) (Number.apply op (.int x) (.int y)) fun v => .ok (.int v) := by
  cases op with
  | add => exact agrees_bounded fun h => Number.apply_int (by decide) (by decide) (fit?_eq_some h)
  | sub => exact agrees_bounded fun h => Number.apply_int (by decide) (by decide) (fit?_eq_some h)
  | mul => exact agrees_bounded fun h => Number.apply_int (by decide) (by decide) (fit?_eq_some h)
  | div => trivial
  | mod =>
    by_cases hy : y = 0
    · subst y
      rfl
    · have hleast : ¬(x = -signedEnd ∧ y = -1) := by
        rw [signedEnd]
        omega
      rw [Op.exact, if_neg hy]
      exact agrees_bounded fun _ => (Application.result_mod hy).trans (if_neg hleast)
  | pow =>
    rw [Op.exact]
    split
    · rename_i hy
      refine agrees_bounded fun h => Number.apply_int (by decide) (by decide) ?_
      rw [Number.intApply?, if_pos ⟨hy.1, by omega⟩]
      exact power?_eq_some h
    · trivial

/-- None of the operators comes next. -/
def NoneOf (ops : List Op) (rest : List Symbol) : Prop := ∀ o ∈ ops, rest.head? ≠ some (.op o)

theorem NoneOf.mono {ops ops' : List Op} {rest : List Symbol} (h : NoneOf ops rest) (hops : ops' ⊆ ops) :
    NoneOf ops' rest :=
  fun o ho => h o (hops ho)

/-- Symbols in front of others are read as an operand of the value, with enough steps for all of them. Sums and products
are then read on. -/
def Level.Reads (r : Except Stop Int) (ss : List Symbol) : Level → Prop
  | .atom => ∀ n rest, 6 * (ss ++ rest).length + 1 ≤ n →
    Agrees r (Arith.atom n (ss ++ rest)) fun v => .ok (.int v, rest)
  | .power => ∀ n rest, NoneOf [.pow] rest → 6 * (ss ++ rest).length + 2 ≤ n →
    Agrees r (Arith.power n (ss ++ rest)) fun v => .ok (.int v, rest)
  | .signed => ∀ n rest, NoneOf [.pow] rest → 6 * (ss ++ rest).length + 3 ≤ n →
    Agrees r (Arith.signed n (ss ++ rest)) fun v => .ok (.int v, rest)
  | .product => ∀ n rest, NoneOf [.pow] rest → 6 * (ss ++ rest).length + 4 ≤ n →
    ∃ m, 6 * rest.length < m ∧ Agrees r (Arith.product n (ss ++ rest)) fun v => productRest m (.int v) rest
  | .sum => ∀ n rest, NoneOf [.mul, .div, .mod, .pow] rest → 6 * (ss ++ rest).length + 5 ≤ n →
    ∃ m, 6 * rest.length < m ∧ Agrees r (Arith.sum n (ss ++ rest)) fun v => sumRest m (.int v) rest

theorem sumRest_stop {n : Nat} {rest : List Symbol} (h : NoneOf [.add, .sub] rest) (left : Number) :
    sumRest (n + 1) left rest = .ok (left, rest) := by
  obtain ⟨o, rest, rfl, ho⟩ | hstop := sumRest_cases n left rest
  · exact absurd rfl (h o (by simpa using ho))
  · exact hstop

theorem productRest_stop {n : Nat} {rest : List Symbol} (h : NoneOf [.mul, .div, .mod] rest) (left : Number) :
    productRest (n + 1) left rest = .ok (left, rest) := by
  obtain ⟨o, rest, rfl, ho⟩ | hstop := productRest_cases n left rest
  · exact absurd rfl (h o (by simpa using ho))
  · exact hstop

section
variable {e a b : Expr} {r : Except Stop Int} {ss ts : List Symbol}

theorem reads_literal (i : Nat) : Level.atom.Reads (bounded i) [.number (.int i)] := by
  intro n rest hn
  obtain ⟨n, rfl⟩ := Nat.exists_eq_succ_of_ne_zero (show n ≠ 0 by omega)
  exact agrees_bounded fun _ => rfl

theorem reads_enclosed (h : Level.sum.Reads r ss) : Level.atom.Reads r (enclose ss) := by
  intro n rest hn
  obtain ⟨n, rfl⟩ := Nat.exists_eq_succ_of_ne_zero (show n ≠ 0 by omega)
  simp only [enclose, List.cons_append, List.append_assoc, List.nil_append, List.length_cons, List.length_append] at hn
  obtain ⟨m, hm, h⟩ := h n (.closing :: rest) (by simp [NoneOf]) (by simp; omega)
  obtain ⟨m, rfl⟩ := Nat.exists_eq_succ_of_ne_zero (show m ≠ 0 by omega)
  rw [enclose, List.cons_append, List.append_assoc, atom]
  refine h.continued fun v hv => ?_
  rw [sumRest_stop (by simp [NoneOf])]
  rfl

theorem reads_power (h : Level.atom.Reads r ss) : Level.power.Reads r ss := by
  intro n rest hrest hn
  obtain ⟨n, rfl⟩ := Nat.exists_eq_succ_of_ne_zero (show n ≠ 0 by omega)
  rw [power]
  refine (h n rest (by omega)).continued fun v hv => ?_
  rcases rest with _ | ⟨s, rest⟩
  · rfl
  cases s with
  | op o =>
    cases o with
    | pow => exact absurd rfl (hrest .pow List.mem_cons_self)
    | _ => rfl
  | _ => rfl

theorem reads_pow (ha : Level.atom.Reads a.exact ss) (hb : Level.signed.Reads b.exact ts) :
    Level.power.Reads (Expr.binary .pow a b).exact (ss ++ .op .pow :: ts) := by
  intro n rest hrest hn
  obtain ⟨n, rfl⟩ := Nat.exists_eq_succ_of_ne_zero (show n ≠ 0 by omega)
  rw [List.append_assoc, List.cons_append] at hn ⊢
  rw [power]
  refine ((ha n _ (by omega)).followed _).bind fun x hx => ?_
  simp only [List.length_append, List.length_cons] at hn
  refine ((hb n rest hrest (by simp; omega)).followed _).bind fun y hy => ?_
  exact ((agrees_apply .pow y (Expr.le_of_exact hx)).followed _)

theorem reads_signed (hss : ∀ n rest, signed (n + 1) (ss ++ rest) = power n (ss ++ rest)) (h : Level.power.Reads r ss) :
    Level.signed.Reads r ss := by
  intro n rest hrest hn
  obtain ⟨n, rfl⟩ := Nat.exists_eq_succ_of_ne_zero (show n ≠ 0 by omega)
  rw [hss]
  exact h n rest hrest (by omega)

theorem reads_negative (h : Level.signed.Reads e.exact ss) :
    Level.signed.Reads (Expr.negative e).exact (.op .sub :: ss) := by
  intro n rest hrest hn
  obtain ⟨n, rfl⟩ := Nat.exists_eq_succ_of_ne_zero (show n ≠ 0 by omega)
  rw [List.cons_append, List.length_cons] at hn
  rw [List.cons_append, signed]
  refine ((h n rest hrest (by omega)).followed _).bind fun x hx => ?_
  have hfits : fitsSigned (-x) := by
    have hle := Expr.le_of_exact hx
    rw [fitsSigned_iff, signedEnd]
    omega
  exact agrees_bounded fun _ => congrArg (fun v => Except.ok (v, rest)) (Number.neg_int hfits)

theorem reads_positive (h : Level.signed.Reads r ss) : Level.signed.Reads r (.op .add :: ss) := by
  intro n rest hrest hn
  obtain ⟨n, rfl⟩ := Nat.exists_eq_succ_of_ne_zero (show n ≠ 0 by omega)
  rw [List.cons_append, List.length_cons] at hn
  exact h n rest hrest (by omega)

theorem reads_product (h : Level.signed.Reads r ss) : Level.product.Reads r ss := by
  intro n rest hrest hn
  obtain ⟨n, rfl⟩ := Nat.exists_eq_succ_of_ne_zero (show n ≠ 0 by omega)
  refine ⟨n, by simp at hn; omega, ?_⟩
  rw [product]
  exact (h n rest hrest (by omega)).followed _

theorem reads_factor {op : Op} (hop : op = .mul ∨ op = .div ∨ op = .mod) (ha : Level.product.Reads a.exact ss)
    (hb : Level.signed.Reads b.exact ts) :
    Level.product.Reads (Expr.binary op a b).exact (ss ++ .op op :: ts) := by
  intro n rest hrest hn
  rw [List.append_assoc, List.cons_append] at hn ⊢
  obtain ⟨m, hm, ha⟩ := ha n (.op op :: (ts ++ rest)) (by rcases hop with rfl | rfl | rfl <;> simp [NoneOf]) hn
  obtain ⟨m, rfl⟩ := Nat.exists_eq_succ_of_ne_zero (show m ≠ 0 by omega)
  simp only [List.length_cons, List.length_append] at hm
  refine ⟨m, by omega, ha.bind fun x hx => ?_⟩
  rw [productRest_op hop]
  refine ((hb m rest hrest (by simp; omega)).followed _).bind fun y hy => ?_
  exact (agrees_apply op y (Expr.le_of_exact hx)).followed _

theorem reads_sum (h : Level.product.Reads r ss) : Level.sum.Reads r ss := by
  intro n rest hrest hn
  obtain ⟨n, rfl⟩ := Nat.exists_eq_succ_of_ne_zero (show n ≠ 0 by omega)
  obtain ⟨m, hm, h⟩ := h n rest (hrest.mono (by decide)) (by omega)
  obtain ⟨m, rfl⟩ := Nat.exists_eq_succ_of_ne_zero (show m ≠ 0 by omega)
  simp only [List.length_append] at hn
  refine ⟨n, by omega, ?_⟩
  rw [sum]
  -- what comes next ends the product, so that the sum is read on with its value
  refine h.continued fun v hv => ?_
  rw [productRest_stop (hrest.mono (by decide))]
  rfl

theorem reads_term {op : Op} (hop : op = .add ∨ op = .sub) (ha : Level.sum.Reads a.exact ss)
    (hb : Level.product.Reads b.exact ts) :
    Level.sum.Reads (Expr.binary op a b).exact (ss ++ .op op :: ts) := by
  intro n rest hrest hn
  rw [List.append_assoc, List.cons_append] at hn ⊢
  obtain ⟨m, hm, ha⟩ := ha n (.op op :: (ts ++ rest)) (by rcases hop with rfl | rfl <;> simp [NoneOf]) hn
  obtain ⟨m, rfl⟩ := Nat.exists_eq_succ_of_ne_zero (show m ≠ 0 by omega)
  simp only [List.length_cons, List.length_append] at hm
  refine ⟨m, by omega, ha.bind fun x hx => ?_⟩
  rw [sumRest_op hop]
  obtain ⟨k, hk, hb⟩ := hb m rest (hrest.mono (by decide)) (by simp; omega)
  obtain ⟨k, rfl⟩ := Nat.exists_eq_succ_of_ne_zero (show k ≠ 0 by omega)
  refine (hb.followed _).bind fun y hy => ?_
  rw [productRest_stop (hrest.mono (by decide))]
  exact (agrees_apply op y (Expr.le_of_exact hx)).followed _

end

namespace Writes
variable {l : Level} {e : Expr} {ss : List Symbol}

/-- No sign comes first in a power. -/
theorem signed_eq_power (h : Writes l e ss) (hl : Level.power.rank ≤ l.rank) (n : Nat)
    (rest : List Symbol) : signed (n + 1) (ss ++ rest) = power n (ss ++ rest) := by
  induction h generalizing rest with
  | literal | enclosed => rfl
  | negative | positive => exact absurd hl (by decide)
  | @binary op a b ss ts ha hb iha ihb =>
    cases op with
    | pow =>
      rw [List.append_assoc]
      exact iha (by decide) _
    | _ => exact absurd hl (by decide)
  | @loosen l _ _ _ ih =>
    refine ih ?_ rest
    cases l <;> simp_all [Level.rank, Level.next]

/-- What is written at a level is read at it with its exact value. -/
theorem reads (h : Writes l e ss) : l.Reads e.exact ss := by
  induction h with
  | literal i => exact reads_literal i
  | enclosed _ ih => exact reads_enclosed ih
  | negative _ ih => exact reads_negative ih
  | positive _ ih => exact reads_positive ih
  | @binary op _ _ _ _ _ _ iha ihb =>
    cases op with
    | add => exact reads_term (.inl rfl) iha ihb
    | sub => exact reads_term (.inr rfl) iha ihb
    | mul => exact reads_factor (.inl rfl) iha ihb
    | div => exact reads_factor (.inr (.inl rfl)) iha ihb
    | mod => exact reads_factor (.inr (.inr rfl)) iha ihb
    | pow => exact reads_pow iha ihb
  | @loosen l e ss h ih =>
    cases l with
    | sum => exact reads_sum ih
    | product => exact reads_product ih
    | signed => exact reads_signed (h.signed_eq_power le_rfl) ih
    | power => exact reads_power ih
    | atom => exact ih

end Writes

theorem valueOf_exact {e : Expr} {ss : List Symbol} {cs : List Char} (h : Writes .sum e ss) (hcs : Spaced ss cs) :
    Agrees e.exact (valueOf cs) fun v => .ok (.int v) := by
  have halt : Alternates true ss := by simpa using h.alternates .nil
  have hsymbols := hcs.symbols_eq halt (Nat.lt_succ_self _)
  have hne : ss.isEmpty = false := by cases halt <;> rfl
  obtain ⟨m, hm, hsum⟩ := h.reads (6 * ss.length + 6) [] (by simp [NoneOf]) (by simp)
  obtain ⟨m, rfl⟩ := Nat.exists_eq_succ_of_ne_zero (show m ≠ 0 by omega)
  rw [List.append_nil] at hsum
  rw [valueOf, hsymbols, ok_bind, hne]
  refine hsum.continued fun v hv => ?_
  rw [sumRest_stop (by simp [NoneOf])]
  rfl

/-- An expression is evaluated to its exact value, from the left and with the precedence of its operators, however it
is put in parentheses and spaced. A remainder by zero is reported if nothing else stands in the way of the value
before it. -/
theorem evaluate_exact (e : Expr) :
    (∀ ss text, Writes .sum e ss → Spaced ss text.toList →
        (∀ v, e.exact = .ok v → evaluate text = .ok (toString v)) ∧
          (e.exact = .error .zeroDivisor → (evaluate text).mapError Fault.message = .error "division by zero")) ∧
      Writes .sum e e.minimal ∧ Writes .sum e e.full ∧
      ∀ x y m, Op.mod.exact x y = .ok m → y ∣ x - m ∧ m.natAbs < y.natAbs ∧ 0 ≤ m * y := by
  refine ⟨fun ss text hss htext => ?_, e.writes_minimal.of_rank (Nat.zero_le _), e.writes_full.of_rank (Nat.zero_le _),
    fun x y m => Op.exact_mod⟩
  have hvalue := valueOf_exact hss htext
  constructor
  · intro v hv
    rw [hv] at hvalue
    rw [evaluate, show valueOf text.toList = .ok (.int v) from hvalue]
    rfl
  · intro hstop
    rw [hstop] at hvalue
    rw [evaluate, show valueOf text.toList = .error .divisionByZero from hvalue]
    rfl

theorem evaluate_exact_precedence :
    evaluate "-2**2 %3 - 010" = .ok "-8" ∧
      (evaluate "1%(2-2)").mapError Fault.message = .error "division by zero" := by
  have hdigits (ds : List Char) (h : ds ≠ [] ∧ ds.all Char.isDigit ∧ fitsSigned (Numeral.ofDigits ds)) :=
    Symbol.Spells.number h.1 h.2.1 h.2.2
  constructor
  · let power := Expr.binary .pow (.literal 2) (.literal 2)
    let e := Expr.binary .sub (.binary .mod (.negative power) (.literal 3)) (.literal 10)
    have htext : Spaced e.minimal "-2**2 %3 - 010".toList :=
      .cons (.op .sub) <| .cons (hdigits ['2'] (by decide)) <| .cons (.op .pow) <|
        .cons (hdigits ['2'] (by decide)) <| .blank rfl <| .cons (.op .mod) <|
        .cons (hdigits ['3'] (by decide)) <| .blank rfl <| .cons (.op .sub) <| .blank rfl <|
        .cons (hdigits ['0', '1', '0'] (by decide)) .nil
    obtain ⟨h, hminimal, -⟩ := evaluate_exact e
    exact (h _ _ hminimal htext).1 (-8) (by decide)
  · let e := Expr.binary .mod (.literal 1) (.binary .sub (.literal 2) (.literal 2))
    have htext : Spaced e.minimal "1%(2-2)".toList :=
      .cons (hdigits ['1'] (by decide)) <| .cons (.op .mod) <| .cons .opening <|
        .cons (hdigits ['2'] (by decide)) <| .cons (.op .sub) <|
        .cons (hdigits ['2'] (by decide)) <| .cons .closing .nil
    obtain ⟨h, hminimal, -⟩ := evaluate_exact e
    exact (h _ _ hminimal htext).2 (by decide)

end RequestLang.Arith
