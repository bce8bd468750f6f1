import Mathlib
import RequestLang.Arith.Evaluate
import RequestLang.Proofs.Steps

/-! Arithmetic that a comment stands in has no value. -/
namespace RequestLang

/-- What opens a comment stands somewhere in the text. -/
inductive Commented : List Char → Prop
  | hash (cs : List Char) : Commented ('#' :: cs)
  | slash {c : Char} (hc : c = '/' ∨ c = '*') (cs : List Char) : Commented ('/' :: c :: cs)
  | cons (c : Char) {cs : List Char} (h : Commented cs) : Commented (c :: cs)

namespace Commented
variable {c : Char} {cs : List Char}

theorem append_left (h : Commented cs) (front : List Char) : Commented (front ++ cs) := by
  induction front with
  | nil => exact h
  | cons c front ih => exact .cons c ih

theorem append_right (h : Commented cs) (rest : List Char) : Commented (cs ++ rest) := by
  induction h with
  | hash cs => exact .hash _
  | slash hc cs => exact .slash hc _
  | cons c _ ih => exact .cons c ih

theorem tail (h : Commented (c :: cs)) (hhash : c ≠ '#') (hslash : c ≠ '/') : Commented cs := by
  cases h with
  | hash => exact absurd rfl hhash
  | slash => exact absurd rfl hslash
  | cons _ h => exact h

/-- What opens no comment may be left out in front. -/
theorem of_append {front : List Char} (h : Commented (front ++ cs)) (hfront : ∀ c ∈ front, c ≠ '#' ∧ c ≠ '/') :
    Commented cs := by
  induction front with
  | nil => exact h
  | cons c front ih =>
    rw [List.forall_mem_cons] at hfront
    exact ih (h.tail hfront.1.1 hfront.1.2) hfront.2

theorem exists_mem (h : Commented cs) : ∃ c ∈ ['/', '#'], c ∈ cs := by
  induction h with
  | hash cs => exact ⟨'#', by decide, List.mem_cons_self⟩
  | slash _ cs => exact ⟨'/', by decide, List.mem_cons_self⟩
  | cons c _ ih =>
    obtain ⟨d, hd, hmem⟩ := ih
    exact ⟨d, hd, List.mem_cons_of_mem c hmem⟩

end Commented

namespace Arith

/-- A division with an operator behind it that is no sign. -/
inductive Stuck : List Symbol → Prop
  | here {o : Op} (ho : o = .div ∨ o = .mul ∨ o = .pow) (ss : List Symbol) : Stuck (.op .div :: .op o :: ss)
  | cons (s : Symbol) {ss : List Symbol} (h : Stuck ss) : Stuck (s :: ss)

/-- A number goes over digits, points, an exponent and its sign. -/
theorem numberLength_plain (cs : List Char) : ∀ c ∈ cs.take (numberLength cs), c ≠ '#' ∧ c ≠ '/' := by
  have hwhile {p : Char → Bool} (hhash : p '#' = false) (hslash : p '/' = false) (ds : List Char) :
      ∀ c ∈ ds.takeWhile p, c ≠ '#' ∧ c ≠ '/' := by
    intro c hc
    have hp := List.mem_takeWhile_imp hc
    exact ⟨fun h => by simp [h, hhash] at hp, fun h => by simp [h, hslash] at hp⟩
  have hdigits (ds : List Char) : ∀ c ∈ ds.take (ds.takeWhile Char.isDigit).length, c ≠ '#' ∧ c ≠ '/' := by
    rw [← List.prefix_iff_eq_take.mp (List.takeWhile_prefix _)]
    exact hwhile (by decide) (by decide) ds
  have hbody := hwhile (p := isNumberChar) (by decide) (by decide) cs
  have hsplit := (List.takeWhile_append_dropWhile (p := isNumberChar) (l := cs)).symm
  rw [numberLength]
  generalize cs.takeWhile isNumberChar = body at hbody hsplit ⊢
  generalize cs.dropWhile isNumberChar = tail at hsplit
  subst hsplit
  rw [List.drop_left]
  cases tail with
  | nil => simpa using hbody
  | cons e rest =>
    dsimp only
    split
    · rename_i he
      have hletter : e ≠ '#' ∧ e ≠ '/' := by rcases he with rfl | rfl <;> decide
      rw [Nat.add_assoc, Nat.add_assoc, List.take_length_add_append, Nat.add_comm 1, List.take_succ_cons, List.take_add]
      intro c hc
      simp only [List.mem_append, List.mem_cons] at hc
      rcases hc with hc | rfl | hc | hc
      · exact hbody c hc
      · exact hletter
      · cases rest with
        | nil => simp at hc
        | cons s rest =>
          dsimp only at hc
          split at hc
          · rename_i hs
            obtain rfl : c = s := by simpa using hc
            rcases hs with rfl | rfl <;> decide
          · simp at hc
      · exact hdigits _ c hc
    · rw [List.take_left]
      exact hbody

theorem numberLength_pos {c : Char} (hc : isNumberChar c) (cs : List Char) : 0 < numberLength (c :: cs) := by
  rw [numberLength, List.takeWhile_cons_of_pos hc]
  split
  · split <;> simp only [List.length_cons] <;> omega
  · simp

/-- What is taken off before the next symbol: a division sign, or nothing that opens a comment. -/
theorem symbols_cons {n : Nat} {c : Char} {cs : List Char} {ss : List Symbol} (h : symbols (n + 1) (c :: cs) = .ok ss) :
    (c = '/' ∧ ∃ rest, symbols n cs = .ok rest ∧ ss = .op .div :: rest) ∨
      ∃ front left rest, c :: cs = front ++ left ∧ front ≠ [] ∧ (∀ d ∈ front, d ≠ '#' ∧ d ≠ '/') ∧
        symbols n left = .ok rest ∧ ∃ new, ss = new ++ rest := by
  have hput (front : List Char) {left : List Char} {s : Symbol} (hcs : c :: cs = front ++ left) (hne : front ≠ [])
      (hfront : ∀ d ∈ front, d ≠ '#' ∧ d ≠ '/') (h : (symbols n left).map (s :: ·) = .ok ss) :
      ∃ front left rest, c :: cs = front ++ left ∧ front ≠ [] ∧ (∀ d ∈ front, d ≠ '#' ∧ d ≠ '/') ∧
        symbols n left = .ok rest ∧ ∃ new, ss = new ++ rest := by
    obtain ⟨rest, hrest, rfl⟩ := map_eq_ok.mp h
    exact ⟨front, left, rest, hcs, hne, hfront, hrest, [s], rfl⟩
  unfold symbols at h
  dsimp only at h
  split at h
  case h_3 => exact .inr (hput ['*', '*'] rfl (by simp) (by simp) h)
  case h_7 =>
    obtain ⟨rest, hrest, rfl⟩ := map_eq_ok.mp h
    exact .inl ⟨rfl, rest, hrest, rfl⟩
  case h_9 =>
    split at h
    · rename_i hblank
      refine .inr ⟨[c], cs, ss, rfl, by simp, ?_, h, [], rfl⟩
      simp only [List.mem_singleton, forall_eq]
      constructor <;> (rintro rfl; revert hblank; decide)
    split at h
    · split at h
      · refine .inr (hput _ (List.take_append_drop _ _).symm ?_ (numberLength_plain (c :: cs)) h)
        rename_i hc _ _ _
        simpa using (numberLength_pos hc cs).ne'
      · cases h
    · cases h
  all_goals exact .inr (hput [_] rfl (by simp) (by simp) h)

theorem head_symbols {n : Nat} {c : Char} {cs : List Char} {ss : List Symbol} (hc : c = '/' ∨ c = '*')
    (h : symbols (n + 1) (c :: cs) = .ok ss) : ∃ o rest, (o = .div ∨ o = .mul ∨ o = .pow) ∧ ss = .op o :: rest := by
  rcases hc with rfl | rfl
  · obtain ⟨rest, -, rfl⟩ := map_eq_ok.mp h
    exact ⟨.div, rest, .inl rfl, rfl⟩
  · unfold symbols at h
    dsimp only at h
    split at h
    case h_3 =>
      obtain ⟨rest, -, rfl⟩ := map_eq_ok.mp h
      exact ⟨.pow, rest, .inr (.inr rfl), rfl⟩
    case h_6 =>
      obtain ⟨rest, -, rfl⟩ := map_eq_ok.mp h
      exact ⟨.mul, rest, .inr (.inl rfl), rfl⟩
    all_goals contradiction

/-- A comment is taken for operators that stand side by side, or for a character that nothing begins with. -/
theorem stuck_of_commented {n : Nat} {cs : List Char} {ss : List Symbol} (h : Commented cs) (hn : cs.length < n)
    (hss : symbols n cs = .ok ss) : Stuck ss := by
  -- on the fuel, since a step may take off several characters; what it takes off opens no comment unless it is a
  -- slash, and then the sign behind it is next
  induction n generalizing cs ss with
  | zero => omega
  | succ n ih =>
    cases cs with
    | nil => cases h
    | cons c cs =>
      rw [List.length_cons] at hn
      obtain ⟨rfl, rest, hrest, rfl⟩ | ⟨front, left, rest, hcs, hne, hfront, hrest, new, rfl⟩ := symbols_cons hss
      · cases h with
        | slash hc cs =>
          obtain ⟨n, rfl⟩ := Nat.exists_eq_succ_of_ne_zero (show n ≠ 0 by omega)
          obtain ⟨o, rest, ho, rfl⟩ := head_symbols hc hrest
          exact .here ho rest
        | cons _ h => exact .cons _ (ih h (by omega) hrest)
      · have hlength := congrArg List.length hcs
        have hpos := List.length_pos_of_ne_nil hne
        rw [List.length_cons, List.length_append] at hlength
        have hstuck := ih ((hcs ▸ h).of_append hfront) (by omega) hrest
        clear hss
        induction new with
        | nil => exact hstuck
        | cons s new ih => exact .cons s ih

/-- No sum, product or power begins with an operator that is no sign. -/
theorem signed_ne_ok {o : Op} (ho : o = .div ∨ o = .mul ∨ o = .pow) (n : Nat) (ss rest : List Symbol) (v : Number) :
    signed n (.op o :: ss) ≠ .ok (v, rest) := by
  have hatom (n : Nat) (x : Number × List Symbol) : atom n (.op o :: ss) ≠ .ok x := by
    cases n <;> simp [atom]
  have hpower (n : Nat) (x : Number × List Symbol) : power n (.op o :: ss) ≠ .ok x := by
    cases n with
    | zero => simp [power]
    | succ n =>
      intro h
      obtain ⟨y, hy, -⟩ := bind_eq_ok.mp h
      exact hatom n y hy
  cases n with
  | zero => simp [signed]
  | succ n =>
    rcases ho with rfl | rfl | rfl <;> exact hpower n _

/-- Operators that stand side by side are never passed. -/
structure KeepsStuck (n : Nat) : Prop where
  sum {ss rest : List Symbol} {v : Number} (h : sum n ss = .ok (v, rest)) (hss : Stuck ss) : Stuck rest
  sumRest {left v : Number} {ss rest : List Symbol} (h : sumRest n left ss = .ok (v, rest)) (hss : Stuck ss) : Stuck rest
  product {ss rest : List Symbol} {v : Number} (h : product n ss = .ok (v, rest)) (hss : Stuck ss) : Stuck rest
  productRest {left v : Number} {ss rest : List Symbol} (h : productRest n left ss = .ok (v, rest)) (hss : Stuck ss) :
    Stuck rest
  signed {ss rest : List Symbol} {v : Number} (h : signed n ss = .ok (v, rest)) (hss : Stuck ss) : Stuck rest
  power {ss rest : List Symbol} {v : Number} (h : power n ss = .ok (v, rest)) (hss : Stuck ss) : Stuck rest
  atom {ss rest : List Symbol} {v : Number} (h : atom n ss = .ok (v, rest)) (hss : Stuck ss) : Stuck rest

theorem Stuck.tail {s : Symbol} {ss : List Symbol} (h : Stuck (s :: ss)) (hs : ∀ o, s = .op o → o ≠ .div) : Stuck ss := by
  cases h with
  | here => exact absurd rfl (hs _ rfl)
  | cons _ h => exact h

namespace KeepsStuck
variable {n : Nat} {ss rest : List Symbol} {v : Number}

theorem sum_succ (ih : KeepsStuck n) (h : Arith.sum (n + 1) ss = .ok (v, rest)) (hss : Stuck ss) : Stuck rest := by
  obtain ⟨⟨left, ss'⟩, hleft, h⟩ := bind_eq_ok.mp h
  exact ih.sumRest h (ih.product hleft hss)

theorem sumRest_succ (ih : KeepsStuck n) {left : Number} (h : Arith.sumRest (n + 1) left ss = .ok (v, rest))
    (hss : Stuck ss) : Stuck rest := by
  rw [Arith.sumRest.eq_def] at h
  split at h
  case h_1 => cases h
  case h_2 n _ o ss heq =>
    obtain rfl := Nat.succ.inj heq
    split at h
    · rename_i ho
      obtain ⟨⟨right, ss'⟩, hright, h⟩ := bind_eq_ok.mp h
      obtain ⟨x, -, h⟩ := bind_eq_ok.mp h
      refine ih.sumRest h (ih.product hright (hss.tail ?_))
      rintro o ⟨⟩ rfl
      simp at ho
    · cases h
      exact hss
  case h_3 =>
    cases h
    exact hss

theorem product_succ (ih : KeepsStuck n) (h : Arith.product (n + 1) ss = .ok (v, rest)) (hss : Stuck ss) : Stuck rest := by
  obtain ⟨⟨left, ss'⟩, hleft, h⟩ := bind_eq_ok.mp h
  exact ih.productRest h (ih.signed hleft hss)

/-- The division sign itself is passed, but not with an operator behind it. -/
theorem productRest_succ (ih : KeepsStuck n) {left : Number} (h : Arith.productRest (n + 1) left ss = .ok (v, rest))
    (hss : Stuck ss) : Stuck rest := by
  rw [Arith.productRest.eq_def] at h
  split at h
  case h_1 => cases h
  case h_2 n _ o ss heq =>
    obtain rfl := Nat.succ.inj heq
    split at h
    · obtain ⟨⟨right, ss'⟩, hright, h⟩ := bind_eq_ok.mp h
      obtain ⟨x, -, h⟩ := bind_eq_ok.mp h
      refine ih.productRest h (ih.signed hright ?_)
      cases hss with
      | here ho ss => exact absurd hright (signed_ne_ok ho _ _ _ _)
      | cons _ hss => exact hss
    · cases h
      exact hss
  case h_3 =>
    cases h
    exact hss

theorem signed_succ (ih : KeepsStuck n) (h : Arith.signed (n + 1) ss = .ok (v, rest)) (hss : Stuck ss) : Stuck rest := by
  rcases ss with _ | ⟨s, ss⟩
  · exact ih.power h hss
  cases s with
  | op o =>
    cases o with
    | sub =>
      obtain ⟨⟨x, ss'⟩, hx, h⟩ := bind_eq_ok.mp h
      cases h
      exact ih.signed hx (hss.tail (by simp))
    | add => exact ih.signed h (hss.tail (by simp))
    | _ => exact ih.power h hss
  | _ => exact ih.power h hss

theorem power_succ (ih : KeepsStuck n) (h : Arith.power (n + 1) ss = .ok (v, rest)) (hss : Stuck ss) : Stuck rest := by
  obtain ⟨⟨base, ss'⟩, hbase, h⟩ := bind_eq_ok.mp h
  have hrest := ih.atom hbase hss
  -- the sign of a power is no division, so that it is not where the operators meet
  dsimp only at h
  split at h
  · obtain ⟨⟨exponent, ss'⟩, hexponent, h⟩ := bind_eq_ok.mp h
    obtain ⟨x, -, h⟩ := bind_eq_ok.mp h
    cases h
    exact ih.signed hexponent (hrest.tail (by simp))
  · cases h
    exact hrest

theorem atom_succ (ih : KeepsStuck n) (h : Arith.atom (n + 1) ss = .ok (v, rest)) (hss : Stuck ss) : Stuck rest := by
  rcases ss with _ | ⟨s, ss⟩
  · cases h
  cases s with
  | number x =>
    cases h
    exact hss.tail (by simp)
  | opening =>
    obtain ⟨⟨x, ss'⟩, hx, h⟩ := bind_eq_ok.mp h
    dsimp only at h
    split at h
    · cases h
      exact (ih.sum hx (hss.tail (by simp))).tail (by simp)
    · cases h
  | _ => cases h

end KeepsStuck

theorem keepsStuck (n : Nat) : KeepsStuck n := by
  induction n with
  | zero => constructor <;> (intros; contradiction)
  | succ n ih =>
    exact ⟨ih.sum_succ, ih.sumRest_succ, ih.product_succ, ih.productRest_succ, ih.signed_succ, ih.power_succ,
      ih.atom_succ⟩

/-- Arithmetic that a comment stands in has no value. -/
theorem evaluate_commented {cs : List Char} (h : Commented cs) (v : String) : evaluate (String.ofList cs) ≠ .ok v := by
  rw [evaluate, String.toList_ofList]
  intro hv
  obtain ⟨x, hx, -⟩ := map_eq_ok.mp hv
  obtain ⟨ss, hss, hx⟩ := bind_eq_ok.mp hx
  have hstuck := stuck_of_commented h (Nat.lt_succ_self _) hss
  split at hx
  · cases hx
  · obtain ⟨⟨y, rest⟩, hsum, hy⟩ := bind_eq_ok.mp hx
    have hrest := (keepsStuck _).sum hsum hstuck
    dsimp only at hy
    split at hy
    · rename_i hempty
      rw [List.isEmpty_iff.mp hempty] at hrest
      cases hrest
    · cases hy

end Arith
end RequestLang
