import Mathlib
import RequestLang.Arith.Evaluate
import RequestLang.Proofs.Steps

/-! The operations of an evaluation that nothing checks: on words of sixty-four bits the negation of a sign and the
remainder with its correction, and the division of floats. All numbers of an evaluation fit in words, so that
these operations overflow for the least word alone. -/
namespace RequestLang.Arith

theorem fitsSigned_iff {i : Int} : fitsSigned i ↔ -signedEnd ≤ i ∧ i < signedEnd := by
  simp [fitsSigned]

section
variable {x y : Int}

/-- The remainder with the sign of its divisor comes from the one with the sign of its dividend. -/
theorem fmod_eq (x : Int) (hy : y ≠ 0) :
    x.fmod y = if x.tmod y ≠ 0 ∧ (x.tmod y < 0 ↔ ¬y < 0) then x.tmod y + y else x.tmod y := by
  have hsum := Int.tmod_add_mul_tdiv x y
  have hlt := Nat.mod_lt x.natAbs (Int.natAbs_pos.mpr hy)
  rw [← Int.natAbs_tmod] at hlt
  generalize x.tmod y = r at *
  generalize x.tdiv y = q at *
  rcases lt_or_gt_of_ne hy with hneg | hpos
  · split
    · exact ((Int.fdiv_fmod_unique' (q := q - 1) hneg).mpr ⟨by rw [mul_sub]; omega, by omega, by omega⟩).2
    · exact ((Int.fdiv_fmod_unique' (q := q) hneg).mpr ⟨by omega, by omega, by omega⟩).2
  · split
    · exact ((Int.fdiv_fmod_unique (q := q - 1) hpos).mpr ⟨by rw [mul_sub]; omega, by omega, by omega⟩).2
    · exact ((Int.fdiv_fmod_unique (q := q) hpos).mpr ⟨by omega, by omega, by omega⟩).2

theorem fits_add_of_signs (hx : fitsSigned x) (hy : fitsSigned y) (h : x < 0 ↔ ¬y < 0) : fitsSigned (x + y) := by
  rw [fitsSigned_iff] at hx hy ⊢
  omega

theorem fits_tmod (hy : fitsSigned y) (hne : y ≠ 0) : fitsSigned (x.tmod y) := by
  have hlt := Nat.mod_lt x.natAbs (Int.natAbs_pos.mpr hne)
  rw [← Int.natAbs_tmod] at hlt
  rw [fitsSigned_iff, signedEnd] at hy ⊢
  omega

theorem fits_fmod (hy : fitsSigned y) (hne : y ≠ 0) : fitsSigned (x.fmod y) := by
  rw [fmod_eq x hne]
  split
  · rename_i hsigns
    exact fits_add_of_signs (fits_tmod hy hne) hy hsigns.2
  · exact fits_tmod hy hne

theorem fits_neg_iff (hx : fitsSigned x) : fitsSigned (-x) ↔ x ≠ -signedEnd := by
  rw [fitsSigned_iff] at hx ⊢
  omega

/-- The quotient of two words is a word, unless it is the one that is too large by one. -/
theorem fits_tdiv (hx : fitsSigned x) (hy : y ≠ 0) : fitsSigned (x.tdiv y) ↔ ¬(x = -signedEnd ∧ y = -1) := by
  rw [fitsSigned_iff] at hx ⊢
  rcases Nat.lt_or_ge y.natAbs 2 with hsmall | hlarge
  · obtain rfl | rfl : y = 1 ∨ y = -1 := by omega
    · rw [Int.tdiv_one]
      simpa using hx
    · rw [Int.tdiv_neg, Int.tdiv_one]
      rw [signedEnd] at hx ⊢
      omega
  · have hhalf : (x.tdiv y).natAbs ≤ x.natAbs / 2 := by
      rw [Int.natAbs_tdiv]
      exact Nat.div_le_div_left hlarge Nat.zero_lt_two
    rw [signedEnd] at hx ⊢
    omega

end

/-- An operation that the machine does without a check. -/
inductive Operation where
  | negate (i : Int)
  | remainder (x y : Int)
  | add (x y : Int)
  | quotient (x y : Float)

namespace Operation

/-- Nothing is divided by zero. -/
def Defined : Operation → Prop
  | .remainder _ y => y ≠ 0
  | .quotient _ y => (y == 0.0) = false
  | _ => True

/-- The result is too large for a word. A remainder is found together with its quotient. -/
def Overflows : Operation → Prop
  | .negate i => fitsSigned (-i) = false
  | .remainder x y => fitsSigned (x.tdiv y) = false
  | .add x y => fitsSigned (x + y) = false
  | .quotient _ _ => False

end Operation

/-- A sign or an operator with the values it is applied to. -/
inductive Application where
  | negate (v : Number)
  | apply (op : Op) (a b : Number)

/-- A remainder is taken with the sign of the dividend, and the divisor is added where the signs differ. -/
def remainderOperations (x y : Int) : List Operation :=
  .remainder x y :: if x.tmod y ≠ 0 ∧ (x.tmod y < 0 ↔ ¬y < 0) then [.add (x.tmod y) y] else []

def quotientOperations (x y : Float) : List Operation := if y == 0.0 then [] else [.quotient x y]

namespace Application

def result : Application → Except Fault Number
  | .negate v => .ok v.neg
  | .apply op a b => Number.apply op a b

/-- What is done without a check. Sums, differences, products and powers of integers are checked, and where
they do not fit they are made of floats. -/
def operations : Application → List Operation
  | .negate (.int i) => [.negate i]
  | .negate (.float _) => []
  | .apply .mod (.int _) (.int 0) => []
  | .apply .mod (.int x) (.int y) => remainderOperations x y
  | .apply .div _ (.int 0) => []
  | .apply .div a b => quotientOperations a.toFloat b.toFloat
  | .apply .mod a b => quotientOperations a.toFloat b.toFloat
  | .apply _ _ _ => []

end Application

/-- The number is one that the machine can hold. -/
def Number.Fits : Number → Prop
  | .int i => fitsSigned i
  | .float _ => True

def Application.Fits : Application → Prop
  | .negate v => v.Fits
  | .apply _ a b => a.Fits ∧ b.Fits

namespace Number
variable {op : Op} {a b v : Number}

theorem fits_neg (a : Number) : a.neg.Fits := by
  cases a with
  | float x => exact trivial
  | int i =>
    have hlow := Int.le_bmod (x := -i) (m := wordEnd) (by decide)
    have hhigh := Int.bmod_lt (x := -i) (m := wordEnd) (by decide)
    rw [neg, Fits, fitsSigned_iff]
    rw [wordEnd] at hlow hhigh ⊢
    rw [signedEnd]
    omega

theorem neg_int {i : Int} (h : fitsSigned (-i)) : (Number.int i).neg = .int (-i) := by
  rw [fitsSigned_iff, signedEnd] at h
  rw [neg, Int.bmod_eq_of_le] <;> rw [wordEnd] <;> omega

theorem fits_of_number? {cs : List Char} (h : number? cs = some v) : v.Fits := by
  unfold number? at h
  dsimp only at h
  split at h
  · rename_i hwhole
    cases h
    exact (Bool.and_eq_true_iff.mp hwhole).2
  · obtain ⟨n, -, rfl⟩ := Option.map_eq_some_iff.mp h
    exact trivial

theorem fits_of_fit? {i j : Int} (h : fit? i = some j) : fitsSigned j := by
  unfold fit? at h
  split at h
  · exact Option.some.inj h ▸ ‹_›
  · cases h

theorem fits_of_power? {x i : Int} {n : Nat} (h : power? x n = some i) : fitsSigned i := by
  unfold power? at h
  split at h
  · cases h
    split <;> decide
  split at h
  · cases h
    decide
  split at h
  · cases h
    split <;> decide
  split at h
  · cases h
  · exact fits_of_fit? h

theorem fits_of_intApply? {x y i : Int} (hop : op ≠ .mod) (h : intApply? op x y = some i) : fitsSigned i := by
  unfold intApply? at h
  split at h
  · exact fits_of_fit? h
  · exact fits_of_fit? h
  · exact fits_of_fit? h
  · cases h
  · exact absurd rfl hop
  · split at h
    · exact fits_of_power? h
    · cases h

theorem fits_floatApply {x y : Float} (h : floatApply op x y = .ok v) : v.Fits := by
  unfold floatApply at h
  split at h
  all_goals try split at h
  all_goals first
    | exact (Except.ok.inj h) ▸ trivial
    | cases h

/-- What an operator makes of numbers that fit is a number that fits. -/
theorem fits_apply (hb : b.Fits) (h : apply op a b = .ok v) : v.Fits := by
  unfold apply at h
  split at h
  · cases h
  · cases h
  · rename_i x y hne
    split at h
    · cases h
    · exact Except.ok.inj h ▸ fits_fmod hb hne
  · rename_i x y _ _ hmod
    split at h
    · rename_i i hi
      exact Except.ok.inj h ▸ fits_of_intApply? hmod hi
    · exact fits_floatApply h
  · exact fits_floatApply h

end Number

section
variable {o : Operation}

/-- The operation is defined, and it overflows only as a negation or a remainder of the least word. -/
def Operation.Safe (o : Operation) : Prop :=
  o.Defined ∧ (o.Overflows ↔ o = .negate (-signedEnd) ∨ o = .remainder (-signedEnd) (-1))

theorem safe_of_mem_remainderOperations {x y : Int} (hx : fitsSigned x) (hy : fitsSigned y) (hne : y ≠ 0)
    (ho : o ∈ remainderOperations x y) : o.Safe := by
  rcases List.mem_cons.mp ho with rfl | ho
  · refine ⟨hne, ?_⟩
    rw [Operation.Overflows, ← Bool.not_eq_true, fits_tdiv hx hne]
    simp
  · split at ho
    · rename_i hsigns
      obtain rfl := List.mem_singleton.mp ho
      refine ⟨trivial, ?_⟩
      rw [Operation.Overflows, fits_add_of_signs (fits_tmod hy hne) hy hsigns.2]
      simp
    · cases ho

theorem safe_of_mem_quotientOperations {x y : Float} (ho : o ∈ quotientOperations x y) : o.Safe := by
  unfold quotientOperations at ho
  split at ho
  · cases ho
  · rename_i hne
    obtain rfl := List.mem_singleton.mp ho
    exact ⟨by simpa [Operation.Defined] using hne, by simp [Operation.Overflows]⟩

theorem Application.operations_safe {a : Application} (ha : a.Fits) (ho : o ∈ a.operations) : o.Safe := by
  unfold operations at ho
  split at ho
  case h_1 i =>
    obtain rfl := List.mem_singleton.mp ho
    refine ⟨trivial, ?_⟩
    rw [Operation.Overflows, ← Bool.not_eq_true, fits_neg_iff ha]
    simp
  case h_4 x y hne => exact safe_of_mem_remainderOperations ha.1 ha.2 hne ho
  case h_6 => exact safe_of_mem_quotientOperations ho
  case h_7 => exact safe_of_mem_quotientOperations ho
  all_goals cases ho

end

/-- What an operation on integers gives. -/
def Operation.value? : Operation → Option Int
  | .negate i => some (-i)
  | .remainder x y => some (x.tmod y)
  | .add x y => some (x + y)
  | .quotient _ _ => none

/-- A fault of the grammar. -/
def Fault.IsSyntax (f : Fault) : Prop :=
  f = .unexpectedEnd ∨ f = .missingParenthesis ∨ ∃ token, f = .unexpectedToken token

namespace Application
variable {a : Application} {v : Number}

theorem fits_result (ha : a.Fits) (h : a.result = .ok v) : v.Fits := by
  cases a with
  | negate w => exact Except.ok.inj h ▸ w.fits_neg
  | apply op x y => exact Number.fits_apply ha.2 h

theorem operations_mod {x y : Int} (hne : y ≠ 0) :
    operations (.apply .mod (.int x) (.int y)) = remainderOperations x y := by
  rw [operations]
  exact hne

theorem result_mod {x y : Int} (hne : y ≠ 0) : result (.apply .mod (.int x) (.int y)) =
    if x = -signedEnd ∧ y = -1 then .error .remainderOverflow else .ok (.int (x.fmod y)) := by
  rw [result, Number.apply]
  exact hne

/-- What an application gives is what the last of its operations gives. -/
theorem result_of_operations {o : Operation} {i : Int} (ha : a.Fits) (hlast : a.operations.getLast? = some o)
    (hi : o.value? = some i) (hsafe : ∀ o ∈ a.operations, ¬o.Overflows) : a.result = .ok (.int i) := by
  have hquotient {x y : Float} : (quotientOperations x y).getLast? ≠ some o := by
    unfold quotientOperations
    split
    · simp
    · rintro ⟨⟩
      cases hi
  unfold operations at hlast
  split at hlast
  case h_1 j =>
    obtain rfl := Option.some.inj hlast
    obtain rfl := Option.some.inj hi
    have hfits : fitsSigned (-j) := by
      have hnegate := hsafe _ List.mem_cons_self
      rwa [Operation.Overflows, Bool.not_eq_false] at hnegate
    rw [result, Number.neg_int hfits]
  case h_4 x y hne =>
    have hleast : ¬(x = -signedEnd ∧ y = -1) := by
      rw [operations_mod hne] at hsafe
      have hremainder := hsafe _ List.mem_cons_self
      rwa [Operation.Overflows, Bool.not_eq_false, fits_tdiv ha.1 hne] at hremainder
    rw [result_mod hne, if_neg hleast, fmod_eq x hne]
    unfold remainderOperations at hlast
    split at hlast <;> cases hlast <;> cases hi
    · rw [if_pos ‹_›]
    · rw [if_neg ‹_›]
  case h_6 => exact absurd hlast hquotient
  case h_7 => exact absurd hlast hquotient
  all_goals cases hlast

/-- The negation of the least word is not the number that it should be. -/
theorem result_of_least (h : .negate (-signedEnd) ∈ a.operations) : a.result = .ok (.int (-signedEnd)) := by
  unfold operations at h
  split at h
  case h_1 j =>
    cases List.mem_singleton.mp h
    rfl
  case h_4 =>
    unfold remainderOperations at h
    split at h <;> simp at h
  case h_6 | h_7 =>
    unfold quotientOperations at h
    split at h <;> simp at h
  all_goals cases h

/-- The one result that is no number of the machine. -/
theorem result_eq_overflow : a.result = .error .remainderOverflow ↔ .remainder (-signedEnd) (-1) ∈ a.operations := by
  have hfloat (op : Op) (x y : Float) : Number.floatApply op x y ≠ .error .remainderOverflow := by
    unfold Number.floatApply
    split
    all_goals try split
    all_goals exact nofun
  have hquotient (x y : Float) : .remainder (-signedEnd) (-1) ∉ quotientOperations x y := by
    unfold quotientOperations
    split <;> simp
  constructor
  · intro h
    cases a with
    | negate v => cases h
    | apply op x y =>
      rw [result] at h
      unfold Number.apply at h
      split at h
      case h_3 x y hne =>
        rw [operations_mod hne]
        split at h
        · rename_i hleast
          obtain ⟨rfl, rfl⟩ := hleast
          exact List.mem_cons_self
        · cases h
      case h_4 =>
        split at h
        · cases h
        · exact absurd h (hfloat _ _ _)
      case h_5 => exact absurd h (hfloat _ _ _)
      all_goals cases h
  · intro h
    unfold operations at h
    split at h
    case h_4 x y hne =>
      rcases List.mem_cons.mp h with heq | h
      · cases heq
        rfl
      · split at h <;> simp at h
    case h_6 => exact absurd h (hquotient _ _)
    case h_7 => exact absurd h (hquotient _ _)
    all_goals simp at h

end Application

section
variable {n : Nat} {left : Number} {ss : List Symbol}

theorem sumRest_op {o : Op} (ho : o = .add ∨ o = .sub) : sumRest (n + 1) left (.op o :: ss) = (do
    let (right, ss) ← product n ss
    sumRest n (← Number.apply o left right) ss) := by
  rw [sumRest, if_pos ho]

theorem productRest_op {o : Op} (ho : o = .mul ∨ o = .div ∨ o = .mod) : productRest (n + 1) left (.op o :: ss) = (do
    let (right, ss) ← signed n ss
    productRest n (← Number.apply o left right) ss) := by
  rw [productRest, if_pos ho]

/-- A sum goes on where an operator of sums stands, and ends elsewhere. -/
theorem sumRest_cases (n : Nat) (left : Number) (ss : List Symbol) :
    (∃ o rest, ss = .op o :: rest ∧ (o = .add ∨ o = .sub)) ∨ sumRest (n + 1) left ss = .ok (left, ss) := by
  rcases ss with _ | ⟨s, ss⟩
  · exact .inr rfl
  cases s with
  | op o =>
    by_cases ho : o = .add ∨ o = .sub
    · exact .inl ⟨o, ss, rfl, ho⟩
    · exact .inr (by rw [sumRest, if_neg ho])
  | _ => exact .inr rfl

theorem productRest_cases (n : Nat) (left : Number) (ss : List Symbol) :
    (∃ o rest, ss = .op o :: rest ∧ (o = .mul ∨ o = .div ∨ o = .mod)) ∨ productRest (n + 1) left ss = .ok (left, ss) := by
  rcases ss with _ | ⟨s, ss⟩
  · exact .inr rfl
  cases s with
  | op o =>
    by_cases ho : o = .mul ∨ o = .div ∨ o = .mod
    · exact .inl ⟨o, ss, rfl, ho⟩
    · exact .inr (by rw [productRest, if_neg ho])
  | _ => exact .inr rfl

/-- Where no sign stands, a power is read. -/
theorem signed_cases (n : Nat) (ss : List Symbol) :
    (∃ rest, ss = .op .sub :: rest) ∨ (∃ rest, ss = .op .add :: rest) ∨
      (∀ o rest, ss = .op o :: rest → o ≠ .sub ∧ o ≠ .add) ∧ signed (n + 1) ss = power n ss := by
  rcases ss with _ | ⟨s, ss⟩
  · exact .inr (.inr ⟨by simp, rfl⟩)
  cases s with
  | op o =>
    cases o with
    | sub => exact .inl ⟨ss, rfl⟩
    | add => exact .inr (.inl ⟨ss, rfl⟩)
    | _ => exact .inr (.inr ⟨by simp, rfl⟩)
  | _ => exact .inr (.inr ⟨by simp, rfl⟩)

end

/-- A part of an evaluation, with the symbols that are left for it. -/
inductive Call where
  | sum (ss : List Symbol)
  | sumRest (left : Number) (ss : List Symbol)
  | product (ss : List Symbol)
  | productRest (left : Number) (ss : List Symbol)
  | signed (ss : List Symbol)
  | power (ss : List Symbol)
  | atom (ss : List Symbol)

namespace Call

def run (n : Nat) : Call → Reading
  | .sum ss => Arith.sum n ss
  | .sumRest left ss => Arith.sumRest n left ss
  | .product ss => Arith.product n ss
  | .productRest left ss => Arith.productRest n left ss
  | .signed ss => Arith.signed n ss
  | .power ss => Arith.power n ss
  | .atom ss => Arith.atom n ss

/-- One part of an evaluation goes on to another. -/
inductive Enters (n : Nat) : Call → Call → Prop
  | sum (ss) : Enters n (.sum ss) (.product ss)
  | sumRest {ss left rest} (h : Arith.product n ss = .ok (left, rest)) : Enters n (.sum ss) (.sumRest left rest)
  | term {o} (ho : o = .add ∨ o = .sub) (left ss) : Enters n (.sumRest left (.op o :: ss)) (.product ss)
  | terms {o left ss right rest v} (ho : o = .add ∨ o = .sub) (h : Arith.product n ss = .ok (right, rest))
    (hv : Number.apply o left right = .ok v) : Enters n (.sumRest left (.op o :: ss)) (.sumRest v rest)
  | product (ss) : Enters n (.product ss) (.signed ss)
  | productRest {ss left rest} (h : Arith.signed n ss = .ok (left, rest)) :
    Enters n (.product ss) (.productRest left rest)
  | factor {o} (ho : o = .mul ∨ o = .div ∨ o = .mod) (left ss) :
    Enters n (.productRest left (.op o :: ss)) (.signed ss)
  | factors {o left ss right rest v} (ho : o = .mul ∨ o = .div ∨ o = .mod) (h : Arith.signed n ss = .ok (right, rest))
    (hv : Number.apply o left right = .ok v) : Enters n (.productRest left (.op o :: ss)) (.productRest v rest)
  | minus (ss) : Enters n (.signed (.op .sub :: ss)) (.signed ss)
  | plus (ss) : Enters n (.signed (.op .add :: ss)) (.signed ss)
  | unsigned {ss} (h : ∀ o rest, ss = .op o :: rest → o ≠ .sub ∧ o ≠ .add) : Enters n (.signed ss) (.power ss)
  | base (ss) : Enters n (.power ss) (.atom ss)
  | exponent {ss base rest} (h : Arith.atom n ss = .ok (base, .op .pow :: rest)) : Enters n (.power ss) (.signed rest)
  | inner (ss) : Enters n (.atom (.opening :: ss)) (.sum ss)

/-- A part of an evaluation applies a sign or an operator. -/
inductive Applies (n : Nat) : Call → Application → Prop
  | minus {ss v rest} (h : Arith.signed n ss = .ok (v, rest)) : Applies n (.signed (.op .sub :: ss)) (.negate v)
  | term {o left ss right rest} (ho : o = .add ∨ o = .sub) (h : Arith.product n ss = .ok (right, rest)) :
    Applies n (.sumRest left (.op o :: ss)) (.apply o left right)
  | factor {o left ss right rest} (ho : o = .mul ∨ o = .div ∨ o = .mod) (h : Arith.signed n ss = .ok (right, rest)) :
    Applies n (.productRest left (.op o :: ss)) (.apply o left right)
  | power {ss base rest exponent rest'} (h : Arith.atom n ss = .ok (base, .op .pow :: rest))
    (h' : Arith.signed n rest = .ok (exponent, rest')) : Applies n (.power ss) (.apply .pow base exponent)

inductive Performs : Nat → Call → Application → Prop
  | here {n c a} (h : Applies n c a) : Performs (n + 1) c a
  | within {n c c' a} (h : Enters n c c') (h' : Performs n c' a) : Performs (n + 1) c a

variable {n : Nat} {c c' : Call} {a : Application} {f : Fault} {v : Number} {rest : List Symbol}

theorem Enters.run_eq_error (h : Enters n c c') (hrun : c'.run n = .error f) : c.run (n + 1) = .error f := by
  cases h with
  | sum => simp_all [run, Arith.sum]
  | sumRest => simp_all [run, Arith.sum]
  | term => simp_all [run, Arith.sumRest]
  | terms => simp_all [run, Arith.sumRest]
  | product => simp_all [run, Arith.product]
  | productRest => simp_all [run, Arith.product]
  | factor => simp_all [run, Arith.productRest]
  | factors => simp_all [run, Arith.productRest]
  | minus => simp_all [run, Arith.signed]
  | plus => simp_all [run, Arith.signed]
  | @unsigned ss hss =>
    obtain ⟨rest, rfl⟩ | ⟨rest, rfl⟩ | ⟨-, hpower⟩ := signed_cases n ss
    · simp at hss
    · simp at hss
    · exact hpower.trans hrun
  | base => simp_all [run, Arith.power]
  | exponent => simp_all [run, Arith.power]
  | inner => simp_all [run, Arith.atom]

theorem Applies.run_eq_error (h : Applies n c a) (hresult : a.result = .error f) : c.run (n + 1) = .error f := by
  cases h with
  | minus => cases hresult
  | term => simp_all [run, Arith.sumRest, Application.result]
  | factor => simp_all [run, Arith.productRest, Application.result]
  | power => simp_all [run, Arith.power, Application.result]

/-- An evaluation fails in a part of it, in an application or at a symbol. -/
theorem run_succ_eq_error (h : c.run (n + 1) = .error f) :
    (∃ c', Enters n c c' ∧ c'.run n = .error f) ∨ (∃ a, Applies n c a ∧ a.result = .error f) ∨ f.IsSyntax := by
  cases c with
  | sum ss =>
    rcases bind_eq_error.mp h with h | ⟨⟨left, rest⟩, hleft, h⟩
    · exact .inl ⟨_, .sum ss, h⟩
    · exact .inl ⟨_, .sumRest hleft, h⟩
  | product ss =>
    rcases bind_eq_error.mp h with h | ⟨⟨left, rest⟩, hleft, h⟩
    · exact .inl ⟨_, .product ss, h⟩
    · exact .inl ⟨_, .productRest hleft, h⟩
  | sumRest left ss =>
    obtain ⟨o, ss, rfl, ho⟩ | hstop := sumRest_cases n left ss
    · rw [run, sumRest_op ho] at h
      rcases bind_eq_error.mp h with h | ⟨⟨right, rest⟩, hright, h⟩
      · exact .inl ⟨_, .term ho left ss, h⟩
      rcases bind_eq_error.mp h with h | ⟨v, hv, h⟩
      · exact .inr (.inl ⟨_, .term ho hright, h⟩)
      · exact .inl ⟨_, .terms ho hright hv, h⟩
    · cases hstop.symm.trans h
  | productRest left ss =>
    obtain ⟨o, ss, rfl, ho⟩ | hstop := productRest_cases n left ss
    · rw [run, productRest_op ho] at h
      rcases bind_eq_error.mp h with h | ⟨⟨right, rest⟩, hright, h⟩
      · exact .inl ⟨_, .factor ho left ss, h⟩
      rcases bind_eq_error.mp h with h | ⟨v, hv, h⟩
      · exact .inr (.inl ⟨_, .factor ho hright, h⟩)
      · exact .inl ⟨_, .factors ho hright hv, h⟩
    · cases hstop.symm.trans h
  | signed ss =>
    obtain ⟨ss, rfl⟩ | ⟨ss, rfl⟩ | ⟨hss, hpower⟩ := signed_cases n ss
    · rcases bind_eq_error.mp h with h | ⟨⟨v, rest⟩, -, h⟩
      · exact .inl ⟨_, .minus ss, h⟩
      · cases h
    · exact .inl ⟨_, .plus ss, h⟩
    · exact .inl ⟨_, .unsigned hss, hpower.symm.trans h⟩
  | power ss =>
    rcases bind_eq_error.mp h with h | ⟨⟨base, rest⟩, hbase, h⟩
    · exact .inl ⟨_, .base ss, h⟩
    dsimp only at h
    split at h
    · rcases bind_eq_error.mp h with h | ⟨⟨exponent, rest'⟩, hexponent, h⟩
      · exact .inl ⟨_, .exponent hbase, h⟩
      rcases bind_eq_error.mp h with h | ⟨v, -, h⟩
      · exact .inr (.inl ⟨_, .power hbase hexponent, h⟩)
      · cases h
    · cases h
  | atom ss =>
    rcases ss with _ | ⟨s, ss⟩
    · cases h
      exact .inr (.inr (.inl rfl))
    cases s with
    | number v => cases h
    | opening =>
      rcases bind_eq_error.mp h with h | ⟨⟨v, rest⟩, -, h⟩
      · exact .inl ⟨_, .inner ss, h⟩
      dsimp only at h
      split at h
      · cases h
      · cases h
        exact .inr (.inr (.inr (.inl rfl)))
    | _ =>
      cases h
      exact .inr (.inr (.inr (.inr ⟨_, rfl⟩)))

/-- What an evaluation gives comes from a part of it, from an application, from a symbol or from the left. -/
theorem run_succ_eq_ok (h : c.run (n + 1) = .ok (v, rest)) :
    (∃ c', Enters n c c' ∧ c'.run n = .ok (v, rest)) ∨
      (∃ a c' w, Applies n c a ∧ a.result = .ok v ∧ Enters n c c' ∧ c'.run n = .ok (w, rest)) ∨
      (∃ c', Enters n c c' ∧ c'.run n = .ok (v, .closing :: rest)) ∨
      c = .atom (.number v :: rest) ∨ c = .sumRest v rest ∨ c = .productRest v rest := by
  cases c with
  | sum ss =>
    obtain ⟨⟨left, rest'⟩, hleft, h⟩ := bind_eq_ok.mp h
    exact .inl ⟨_, .sumRest hleft, h⟩
  | product ss =>
    obtain ⟨⟨left, rest'⟩, hleft, h⟩ := bind_eq_ok.mp h
    exact .inl ⟨_, .productRest hleft, h⟩
  | sumRest left ss =>
    obtain ⟨o, ss, rfl, ho⟩ | hstop := sumRest_cases n left ss
    · rw [run, sumRest_op ho] at h
      obtain ⟨⟨right, rest'⟩, hright, h⟩ := bind_eq_ok.mp h
      obtain ⟨w, hw, h⟩ := bind_eq_ok.mp h
      exact .inl ⟨_, .terms ho hright hw, h⟩
    · cases hstop.symm.trans h
      exact .inr (.inr (.inr (.inr (.inl rfl))))
  | productRest left ss =>
    obtain ⟨o, ss, rfl, ho⟩ | hstop := productRest_cases n left ss
    · rw [run, productRest_op ho] at h
      obtain ⟨⟨right, rest'⟩, hright, h⟩ := bind_eq_ok.mp h
      obtain ⟨w, hw, h⟩ := bind_eq_ok.mp h
      exact .inl ⟨_, .factors ho hright hw, h⟩
    · cases hstop.symm.trans h
      exact .inr (.inr (.inr (.inr (.inr rfl))))
  | signed ss =>
    obtain ⟨ss, rfl⟩ | ⟨ss, rfl⟩ | ⟨hss, hpower⟩ := signed_cases n ss
    · obtain ⟨⟨w, rest'⟩, hw, h⟩ := bind_eq_ok.mp h
      cases h
      exact .inr (.inl ⟨_, _, w, .minus hw, rfl, .minus ss, hw⟩)
    · exact .inl ⟨_, .plus ss, h⟩
    · exact .inl ⟨_, .unsigned hss, hpower.symm.trans h⟩
  | power ss =>
    obtain ⟨⟨base, rest'⟩, hbase, h⟩ := bind_eq_ok.mp h
    dsimp only at h
    split at h
    · obtain ⟨⟨exponent, rest''⟩, hexponent, h⟩ := bind_eq_ok.mp h
      obtain ⟨w, hw, h⟩ := bind_eq_ok.mp h
      cases h
      exact .inr (.inl ⟨_, _, exponent, .power hbase hexponent, hw, .exponent hbase, hexponent⟩)
    · cases h
      exact .inl ⟨_, .base ss, hbase⟩
  | atom ss =>
    rcases ss with _ | ⟨s, ss⟩
    · cases h
    cases s with
    | number v =>
      cases h
      exact .inr (.inr (.inr (.inl rfl)))
    | opening =>
      obtain ⟨⟨w, rest'⟩, hw, h⟩ := bind_eq_ok.mp h
      dsimp only at h
      split at h
      · cases h
        exact .inr (.inr (.inl ⟨_, .inner ss, hw⟩))
      · cases h
    | _ => cases h

/-- The numbers among the symbols are ones that the machine can hold. -/
def AllFit (ss : List Symbol) : Prop := ∀ v, .number v ∈ ss → v.Fits

theorem AllFit.tail {s : Symbol} {ss : List Symbol} (h : AllFit (s :: ss)) : AllFit ss :=
  fun v hv => h v (List.mem_cons_of_mem s hv)

def Fits : Call → Prop
  | .sum ss | .product ss | .signed ss | .power ss | .atom ss => AllFit ss
  | .sumRest left ss | .productRest left ss => left.Fits ∧ AllFit ss

/-- With this bound, numbers that fit make numbers that fit. -/
def KeepsFit (n : Nat) : Prop := ∀ c v rest, Fits c → c.run n = .ok (v, rest) → v.Fits ∧ AllFit rest

theorem Enters.fits (hn : KeepsFit n) (h : Enters n c c') (hc : c.Fits) : c'.Fits := by
  cases h with
  | sum => exact hc
  | sumRest h => exact hn (.product _) _ _ hc h
  | term => exact hc.2.tail
  | terms _ h hv =>
    obtain ⟨hright, hrest⟩ := hn (.product _) _ _ hc.2.tail h
    exact ⟨Number.fits_apply hright hv, hrest⟩
  | product => exact hc
  | productRest h => exact hn (.signed _) _ _ hc h
  | factor => exact hc.2.tail
  | factors _ h hv =>
    obtain ⟨hright, hrest⟩ := hn (.signed _) _ _ hc.2.tail h
    exact ⟨Number.fits_apply hright hv, hrest⟩
  | minus => exact hc.tail
  | plus => exact hc.tail
  | unsigned => exact hc
  | base => exact hc
  | exponent h => exact (hn (.atom _) _ _ hc h).2.tail
  | inner => exact hc.tail

theorem Applies.fits (hn : KeepsFit n) (h : Applies n c a) (hc : c.Fits) : a.Fits := by
  cases h with
  | minus h => exact (hn (.signed _) _ _ hc.tail h).1
  | term _ h => exact ⟨hc.1, (hn (.product _) _ _ hc.2.tail h).1⟩
  | factor _ h => exact ⟨hc.1, (hn (.signed _) _ _ hc.2.tail h).1⟩
  | power h h' =>
    obtain ⟨hbase, hrest⟩ := hn (.atom _) _ _ hc h
    exact ⟨hbase, (hn (.signed _) _ _ hrest.tail h').1⟩

theorem keepsFit (n : Nat) : KeepsFit n := by
  induction n with
  | zero =>
    intro c v rest _ h
    cases c <;> cases h
  | succ n ih =>
    intro c v rest hc h
    obtain ⟨c', hc', h⟩ | ⟨a, c', w, ha, hv, hc', h⟩ | ⟨c', hc', h⟩ | rfl | rfl | rfl := run_succ_eq_ok h
    · exact ih c' v rest (hc'.fits ih hc) h
    · exact ⟨Application.fits_result (ha.fits ih hc) hv, (ih c' w rest (hc'.fits ih hc) h).2⟩
    · obtain ⟨hv, hrest⟩ := ih c' v _ (hc'.fits ih hc) h
      exact ⟨hv, hrest.tail⟩
    · exact ⟨hc v List.mem_cons_self, hc.tail⟩
    · exact hc
    · exact hc

theorem Performs.fits (h : Performs n c a) (hc : c.Fits) : a.Fits := by
  induction h with
  | @here n c a h => exact h.fits (keepsFit n) hc
  | @within n c c' a h _ ih => exact ih (h.fits (keepsFit n) hc)

/-- What goes wrong in an application goes wrong in the whole. -/
theorem Performs.run_eq_error (h : Performs n c a) (hresult : a.result = .error f) : c.run n = .error f := by
  induction h with
  | here h => exact h.run_eq_error hresult
  | within h _ ih => exact h.run_eq_error (ih hresult)

theorem exists_performs_of_run (h : c.run n = .error f) (hf : ¬f.IsSyntax) : ∃ a, Performs n c a ∧ a.result = .error f := by
  induction n generalizing c with
  | zero =>
    refine absurd (.inl ?_) hf
    cases c <;> exact (Except.error.inj h).symm
  | succ n ih =>
    obtain ⟨c', hc', h⟩ | ⟨a, ha, h⟩ | hsyntax := run_succ_eq_error h
    · obtain ⟨a, ha, hresult⟩ := ih h
      exact ⟨a, .within hc' ha, hresult⟩
    · exact ⟨a, .here ha, h⟩
    · exact absurd hsyntax hf

end Call

/-- Every number that is read fits. -/
theorem allFit_symbols {n : Nat} {cs : List Char} {ss : List Symbol} (h : symbols n cs = .ok ss) : Call.AllFit ss := by
  induction n generalizing cs ss with
  | zero =>
    cases h
    exact fun _ hv => absurd hv List.not_mem_nil
  | succ n ih =>
    have hput {s : Symbol} {left : List Char} (hs : ∀ v, s = .number v → v.Fits)
        (h : (symbols n left).map (s :: ·) = .ok ss) : Call.AllFit ss := by
      obtain ⟨rest, hrest, rfl⟩ := map_eq_ok.mp h
      intro v hv
      rcases List.mem_cons.mp hv with rfl | hv
      · exact hs v rfl
      · exact ih hrest v hv
    cases cs with
    | nil =>
      cases h
      exact fun _ hv => absurd hv List.not_mem_nil
    | cons c cs =>
      unfold symbols at h
      dsimp only at h
      split at h
      case h_9 =>
        split at h
        · exact ih h
        split at h
        · split at h
          · rename_i v hv
            refine hput (fun w hw => ?_) h
            cases hw
            exact Number.fits_of_number? hv
          · cases h
        · cases h
      all_goals exact hput (by simp) h

theorem symbols_eq_error {n : Nat} {cs : List Char} {f : Fault} (h : symbols n cs = .error f) :
    (∃ text, f = .invalidNumber text) ∨ ∃ c, f = .unexpectedCharacter c := by
  induction n generalizing cs with
  | zero => cases h
  | succ n ih =>
    cases cs with
    | nil => cases h
    | cons c cs =>
      unfold symbols at h
      dsimp only at h
      split at h
      case h_9 =>
        split at h
        · exact ih h
        split at h
        · split at h
          · exact ih (map_eq_error.mp h)
          · cases h
            exact .inl ⟨_, rfl⟩
        · cases h
          exact .inr ⟨_, rfl⟩
      all_goals exact ih (map_eq_error.mp h)

/-- An evaluation of the text applies a sign or an operator. -/
def Performed (text : String) (a : Application) : Prop :=
  ∃ ss, symbols (text.toList.length + 1) text.toList = .ok ss ∧ ss ≠ [] ∧ Call.Performs (6 * ss.length + 6) (.sum ss) a

theorem Performed.fits {text : String} {a : Application} (h : Performed text a) : a.Fits := by
  obtain ⟨ss, hss, -, h⟩ := h
  exact h.fits (allFit_symbols hss)

/-- A fault of arithmetic comes from an application. -/
theorem evaluate_eq_error {text : String} {f : Fault} (hf : f = .divisionByZero ∨ f = .remainderOverflow) :
    evaluate text = .error f ↔ ∃ a, Performed text a ∧ a.result = .error f := by
  have hsyntax : ¬f.IsSyntax := by rcases hf with rfl | rfl <;> simp [Fault.IsSyntax]
  rw [evaluate, map_eq_error]
  constructor
  · intro h
    rcases bind_eq_error.mp h with h | ⟨ss, hss, h⟩
    · rcases symbols_eq_error h with ⟨_, rfl⟩ | ⟨_, rfl⟩ <;> simp at hf
    split at h
    · cases h
      simp at hf
    rename_i hne
    rcases bind_eq_error.mp h with h | ⟨⟨v, rest⟩, -, h⟩
    · obtain ⟨a, ha, hresult⟩ := Call.exists_performs_of_run (n := 6 * ss.length + 6) (c := .sum ss) h hsyntax
      exact ⟨a, ⟨ss, hss, by simpa using hne, ha⟩, hresult⟩
    · dsimp only at h
      split at h
      · cases h
      · cases h
        simp at hf
  · rintro ⟨a, ⟨ss, hss, hne, ha⟩, hresult⟩
    have hrun : sum (6 * ss.length + 6) ss = .error f := ha.run_eq_error hresult
    simp [valueOf, hss, hne, hrun]

/-- An evaluation applies signs and operators to words and floats alone. It divides by no zero, and what it does
without a check overflows only where it negates the least word, which stays as it is, and where it takes the
remainder of that by minus one, which ends it. -/
theorem evaluate_operations (text : String) :
    (∀ a, Performed text a → a.Fits ∧ (∀ o ∈ a.operations, o.Safe) ∧ (∀ v, a.result = .ok v → v.Fits) ∧
        ((∀ o ∈ a.operations, ¬o.Overflows) →
          ∀ o ∈ a.operations.getLast?, ∀ i ∈ o.value?, a.result = .ok (.int i)) ∧
        (.negate (-signedEnd) ∈ a.operations → a.result = .ok (.int (-signedEnd)))) ∧
      (evaluate text = .error .remainderOverflow ↔
        ∃ a, Performed text a ∧ .remainder (-signedEnd) (-1) ∈ a.operations) ∧
      (evaluate text = .error .divisionByZero ↔ ∃ a, Performed text a ∧ a.result = .error .divisionByZero) := by
  refine ⟨fun a ha => ?_, ?_, evaluate_eq_error (.inl rfl)⟩
  · refine ⟨ha.fits, fun o => Application.operations_safe ha.fits, fun v => Application.fits_result ha.fits,
      fun hsafe o ho i hi => Application.result_of_operations ha.fits ho hi hsafe, Application.result_of_least⟩
  · simp only [evaluate_eq_error (.inr rfl), Application.result_eq_overflow]

theorem evaluate_operations_least :
    let text := "(-9223372036854775807-1)%-1"
    ∃ a, Performed text a ∧ .remainder (-signedEnd) (-1) ∈ a.operations ∧ a.Fits ∧ ∀ o ∈ a.operations, o.Safe := by
  intro text
  have hvalue : (match evaluate text with
      | .error f => some f
      | .ok _ => none) = some .remainderOverflow := by decide +kernel
  obtain ⟨hperformed, hoverflow, -⟩ := evaluate_operations text
  split at hvalue
  · rename_i f hf
    cases hvalue
    obtain ⟨a, ha, hremainder⟩ := hoverflow.mp hf
    exact ⟨a, ha, hremainder, (hperformed a ha).1, (hperformed a ha).2.1⟩
  · cases hvalue

end RequestLang.Arith
