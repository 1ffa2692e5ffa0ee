import Keyczar.Java.EcCore
import Keyczar.Lib.DoubleAndAdd
import Mathlib.GroupTheory.OrderOfElement

/-!
# The steps of the multiplications of points

The doublings and additions that the scalars ask for, in any group: what they should give, and what they lose where an element is added to
itself. For one point of prime order and a scalar below it nothing is lost but by one scalar, two less than the order, where the order is
one modulo four.
-/

namespace Java

namespace EcCore

open DoubleAndAdd (Step exact apply lost)

variable {G : Type} [AddCommGroup G]

/-! ## The steps of `multiplyPoints` -/

/-- What is added at bit `i`. -/
def sumAdditions (A B : G) (k l i : Nat) : List (Step G) :=
  if k.testBit i then if l.testBit i then [.add (A + B)] else [.add A] else if l.testBit i then [.add B] else []

/-- The steps, with `i` bits to go. -/
def sumSteps (A B : G) (k l : Nat) : Nat → List (Step G)
  | 0 => []
  | i + 1 => .double :: (sumAdditions A B k l i ++ sumSteps A B k l i)

/-- What is added at bit `i` altogether. -/
def sumAddend (A B : G) (k l i : Nat) : G := (k.testBit i).toNat • A + (l.testBit i).toNat • B

/-- What is added should be the multiples by the bits. -/
theorem foldl_exact_sumAdditions (A B : G) (k l i : Nat) (acc : G) :
    (sumAdditions A B k l i).foldl exact acc = acc + sumAddend A B k l i := by
  unfold sumAdditions sumAddend
  cases k.testBit i with
  | true =>
    cases l.testBit i with
    | true => simp [exact]
    | false => simp [exact]
  | false =>
    cases l.testBit i with
    | true => simp [exact]
    | false => simp

/-- The steps should multiply by what the bits to go say. -/
theorem foldl_exact_sumSteps (A B : G) (k l : Nat) (acc : G) (i : Nat) :
    (sumSteps A B k l i).foldl exact acc = 2 ^ i • acc + ((k % 2 ^ i) • A + (l % 2 ^ i) • B) := by
  induction i generalizing acc with
  | zero => simp [sumSteps, Nat.mod_one]
  | succ i ih =>
    have hbit (m : Nat) : m % 2 ^ (i + 1) = m % 2 ^ i + 2 ^ i * (m.testBit i).toNat := by
      rw [Nat.mod_pow_succ, Nat.toNat_testBit]
    rw [sumSteps, List.foldl_cons, List.foldl_append, foldl_exact_sumAdditions, ih, exact, sumAddend, hbit, hbit, ← two_nsmul,
      nsmul_add, nsmul_add, ← mul_nsmul', ← mul_nsmul', ← mul_nsmul', pow_succ, add_nsmul, add_nsmul]
    abel

/-- What the steps should give from the point at infinity. -/
theorem foldl_exact_zero_sumSteps (A B : G) (k l : Nat) :
    (sumSteps A B k l (max (bitLength k) (bitLength l))).foldl exact 0 = k • A + l • B := by
  have hlt (m i : Nat) (h : bitLength m ≤ i) : m % 2 ^ i = m := Nat.mod_eq_of_lt (Nat.size_le.mp h)
  rw [foldl_exact_sumSteps, nsmul_zero, zero_add, hlt k _ (le_max_left _ _), hlt l _ (le_max_right _ _)]

/-- What the bits from `i` on give. -/
def sumPrefix (A B : G) (k l i : Nat) : G := (k / 2 ^ i) • A + (l / 2 ^ i) • B

theorem sumPrefix_eq (A B : G) (k l i : Nat) :
    sumPrefix A B k l i = sumPrefix A B k l (i + 1) + sumPrefix A B k l (i + 1) + sumAddend A B k l i := by
  have hdiv (m : Nat) : m / 2 ^ i = m / 2 ^ (i + 1) + m / 2 ^ (i + 1) + (m.testBit i).toNat := by
    rw [Nat.toNat_testBit, pow_succ, ← Nat.div_div_eq_div_mul]
    omega
  rw [sumPrefix, hdiv k, hdiv l, add_nsmul, add_nsmul, add_nsmul, add_nsmul, sumPrefix, sumAddend]
  abel

theorem sumPrefix_bitLength (A B : G) (k l : Nat) : sumPrefix A B k l (max (bitLength k) (bitLength l)) = 0 := by
  have hzero (m i : Nat) (h : bitLength m ≤ i) : m / 2 ^ i = 0 := Nat.div_eq_of_lt (Nat.size_le.mp h)
  rw [sumPrefix, hzero k _ (le_max_left _ _), hzero l _ (le_max_right _ _), zero_nsmul, zero_nsmul, add_zero]

/-! ## The steps of `multiplyPoint` -/

/-- An addition, if it is made. -/
def addIf (b : Bool) (A : G) : List (Step G) := if b then [.add A] else []

/-- What is added at bit `j`. -/
def nafAdditions (A : G) (k j : Nat) : List (Step G) := addIf ((3 * k).testBit j) A ++ addIf (k.testBit j) (-A)

/-- The steps, with `i` bits to go. -/
def nafSteps (A : G) (k : Nat) : Nat → List (Step G)
  | 0 => []
  | i + 1 => .double :: (nafAdditions A k (i + 1) ++ nafSteps A k i)

/-- The multiple that the bits from `j` on give. -/
def nafPrefix (k j : Nat) : Nat := 3 * k / 2 ^ j - k / 2 ^ j

theorem nafPrefix_one (k : Nat) : nafPrefix k 1 = k := by
  unfold nafPrefix
  omega

theorem three_mul_div_le (k j : Nat) : 3 * (k / 2 ^ j) ≤ 3 * k / 2 ^ j := Nat.mul_div_le_mul_div_assoc 3 k (2 ^ j)

theorem nafPrefix_step (k j : Nat) :
    nafPrefix k j + (k.testBit j).toNat = nafPrefix k (j + 1) + nafPrefix k (j + 1) + ((3 * k).testBit j).toNat := by
  have hle := three_mul_div_le k j
  rw [Nat.toNat_testBit, Nat.toNat_testBit, nafPrefix, nafPrefix, pow_succ, ← Nat.div_div_eq_div_mul, ← Nat.div_div_eq_div_mul]
  omega

theorem nafPrefix_pos {k j : Nat} (h : 2 ^ j ≤ 3 * k) : 0 < nafPrefix k j := by
  have hle := three_mul_div_le k j
  have hpos := Nat.div_pos h (Nat.two_pow_pos j)
  unfold nafPrefix
  omega

theorem nafPrefix_le {k j : Nat} (h : 2 ≤ j) : nafPrefix k j ≤ (k + 1) / 2 := by
  induction j, h using Nat.le_induction with
  | base =>
    unfold nafPrefix
    omega
  | succ j _ ih =>
    refine le_trans ?_ ih
    have hle := three_mul_div_le k j
    rw [nafPrefix, nafPrefix, pow_succ, ← Nat.div_div_eq_div_mul, ← Nat.div_div_eq_div_mul]
    omega

/-- The highest bit gives one. -/
theorem nafPrefix_top {k j : Nat} (h : 2 ^ j ≤ 3 * k) (hlt : 3 * k < 2 ^ (j + 1)) : nafPrefix k j = 1 := by
  rw [pow_succ] at hlt
  have hone : 3 * k / 2 ^ j = 1 := Nat.div_eq_of_lt_le (by omega) (by omega)
  rw [nafPrefix, hone, Nat.div_eq_of_lt (by omega)]

theorem foldl_exact_addIf (acc A : G) (b : Bool) : (addIf b A).foldl exact acc = acc + b.toNat • A := by
  cases b with
  | true => simp [addIf, exact]
  | false => simp [addIf]

/-- What a bit adds takes one multiple to the next. -/
theorem nafPrefix_nsmul (A : G) (k j : Nat) :
    nafPrefix k (j + 1) • A + nafPrefix k (j + 1) • A + ((3 * k).testBit j).toNat • A + (k.testBit j).toNat • -A = nafPrefix k j • A := by
  rw [← add_nsmul, ← add_nsmul, ← nafPrefix_step, add_nsmul, neg_nsmul, add_neg_cancel_right]

/-- The steps should give the multiple. -/
theorem foldl_exact_nafSteps (A : G) (k i : Nat) : (nafSteps A k i).foldl exact (nafPrefix k (i + 1) • A) = k • A := by
  induction i with
  | zero => rw [nafSteps, List.foldl_nil, nafPrefix_one]
  | succ i ih =>
    rw [nafSteps, List.foldl_cons, List.foldl_append, nafAdditions, List.foldl_append, foldl_exact_addIf, foldl_exact_addIf, exact,
      nafPrefix_nsmul, ih]

/-! ## Multiples of a point of prime order -/

/-- Twice a multiple is not the point itself, up to the order. -/
theorem nsmul_add_nsmul_ne {A : G} {m : Nat} (hm : 0 < m) (hle : 2 * m ≤ addOrderOf A) : m • A + m • A ≠ A := by
  intro h
  have hsplit : m • A + m • A = (2 * m - 1) • A + A := by
    rw [← add_nsmul, ← succ_nsmul]
    congr 1
    omega
  rw [hsplit] at h
  have hdvd := Nat.le_of_dvd (by omega) (addOrderOf_dvd_iff_nsmul_eq_zero.mpr (add_eq_right.mp h))
  omega

theorem nsmul_eq_neg_iff (A : G) (m : Nat) : m • A = -A ↔ addOrderOf A ∣ m + 1 := by
  rw [addOrderOf_dvd_iff_nsmul_eq_zero, succ_nsmul, eq_neg_iff_add_eq_zero]

/-- The point is never added to itself. -/
theorem nafPrefix_ne {A : G} {k j : Nat} (hlt : k < addOrderOf A) (hj : 1 ≤ j) (hpow : 2 ^ (j + 1) ≤ 3 * k) :
    nafPrefix k (j + 1) • A + nafPrefix k (j + 1) • A ≠ A := by
  have hle := nafPrefix_le (k := k) (j := j + 1) (by omega)
  exact nsmul_add_nsmul_ne (nafPrefix_pos hpow) (by omega)

/-- When the opposite is added to itself. -/
theorem nafPrefix_eq_neg_iff (A : G) {k j : Nat} (hk : k.testBit j = true) :
    nafPrefix k (j + 1) • A + nafPrefix k (j + 1) • A + ((3 * k).testBit j).toNat • A = -A ↔ addOrderOf A ∣ nafPrefix k j + 2 := by
  have hstep := nafPrefix_step k j
  rw [hk, Bool.toNat_true] at hstep
  rw [← add_nsmul, ← add_nsmul, ← hstep, nsmul_eq_neg_iff]

/-- It is at no bit but the last, and there for one multiple, where the order is one modulo four. -/
theorem dvd_nafPrefix_iff {n k j : Nat} (hn : n.Prime) (hlt : k < n) (hj : 1 ≤ j) (hk : k.testBit j = true) :
    n ∣ nafPrefix k j + 2 ↔ j = 1 ∧ n % 4 = 1 ∧ k = n - 2 := by
  have hge : 2 ^ j ≤ k := Nat.ge_two_pow_of_testBit hk
  -- at the last bit the prefix is the scalar itself, and before it at most half of it
  rcases Nat.eq_or_lt_of_le hj with rfl | hj
  · have hbit : k / 2 % 2 = 1 := by simpa [Nat.testBit_eq_decide_div_mod_eq] using hk
    have hodd := hn.eq_two_or_odd
    rw [nafPrefix_one]
    constructor
    · intro hdvd
      have heq : k + 2 = n := Nat.eq_of_dvd_of_lt_two_mul (by omega) hdvd (by omega)
      omega
    · rintro ⟨-, -, hk⟩
      exact dvd_of_eq (by omega)
  · have hle := nafPrefix_le (k := k) (j := j) hj
    have hfour : 2 ^ 2 ≤ 2 ^ j := Nat.pow_le_pow_right (by omega) hj
    constructor
    · intro hdvd
      have := Nat.le_of_dvd (by omega) hdvd
      omega
    · rintro ⟨rfl, -, -⟩
      omega

/-! ## What the steps lose -/

variable [DecidableEq G]

/-- Nothing is lost at a bit, unless what is added is the same. -/
theorem lost_sumAdditions {A B : G} {k l i : Nat} {acc : G}
    (h : k.testBit i = true ∨ l.testBit i = true → acc ≠ sumAddend A B k l i) (steps : List (Step G)) :
    lost acc (sumAdditions A B k l i ++ steps) = lost (acc + sumAddend A B k l i) steps := by
  unfold sumAddend at *
  unfold sumAdditions
  cases hk : k.testBit i with
  | true =>
    cases hl : l.testBit i with
    | true =>
      have hne : acc ≠ A + B := by simpa [hk, hl] using h
      simpa using DoubleAndAdd.lost_add hne steps
    | false =>
      have hne : acc ≠ A := by simpa [hk, hl] using h
      simpa using DoubleAndAdd.lost_add hne steps
  | false =>
    cases hl : l.testBit i with
    | true =>
      have hne : acc ≠ B := by simpa [hk, hl] using h
      simpa using DoubleAndAdd.lost_add hne steps
    | false => simp

/-- Nothing is lost at all when at no bit what is added is the same as the double of what the bits before it give. -/
theorem lost_sumSteps {A B : G} {k l : Nat}
    (h : ∀ i, k.testBit i = true ∨ l.testBit i = true →
      sumPrefix A B k l (i + 1) + sumPrefix A B k l (i + 1) ≠ sumAddend A B k l i) (i : Nat) :
    lost (sumPrefix A B k l i) (sumSteps A B k l i) = 0 := by
  induction i with
  | zero => rfl
  | succ i ih => rw [sumSteps, lost, lost_sumAdditions (h i), ← sumPrefix_eq, ih]

theorem lost_addIf {acc A : G} {b : Bool} (h : b = true → acc ≠ A) (steps : List (Step G)) :
    lost acc (addIf b A ++ steps) = lost (acc + b.toNat • A) steps := by
  cases b with
  | true => simpa [addIf] using DoubleAndAdd.lost_add (h rfl) steps
  | false => simp [addIf]

/-- Both additions of a bit lose nothing, unless one of them is to the same. -/
theorem lost_nafAdditions {A : G} {k j : Nat} {acc : G} (h : acc ≠ A)
    (h' : k.testBit j = true → acc + ((3 * k).testBit j).toNat • A ≠ -A) (steps : List (Step G)) :
    lost acc (nafAdditions A k j ++ steps) = lost (acc + ((3 * k).testBit j).toNat • A + (k.testBit j).toNat • -A) steps := by
  rw [nafAdditions, List.append_assoc, lost_addIf fun _ => h, lost_addIf h']

/-- The last bit loses something for one multiple. -/
theorem lost_nafSteps_one {A : G} {k : Nat} (hn : (addOrderOf A).Prime) (hlt : k < addOrderOf A) (hpow : 2 ^ 2 ≤ 3 * k) :
    lost (nafPrefix k 2 • A) (nafSteps A k 1) = if addOrderOf A % 4 = 1 ∧ k = addOrderOf A - 2 then -A + -A else 0 := by
  have hne := nafPrefix_ne hlt (j := 1) (le_refl 1) hpow
  rw [nafSteps, nafSteps, lost, nafAdditions, List.append_assoc, lost_addIf fun _ => hne]
  cases hk : k.testBit 1 with
  | true =>
    have hneg := (nafPrefix_eq_neg_iff A hk).trans (dvd_nafPrefix_iff hn hlt (le_refl 1) hk)
    by_cases hlast : addOrderOf A % 4 = 1 ∧ k = addOrderOf A - 2
    · rw [if_pos hlast, hneg.mpr ⟨rfl, hlast⟩]
      simp [addIf, lost, DoubleAndAdd.doublings]
    · rw [if_neg hlast, lost_addIf fun _ heq => hlast (hneg.mp heq).2, lost]
  | false =>
    have hlast : ¬(addOrderOf A % 4 = 1 ∧ k = addOrderOf A - 2) := by
      rintro ⟨hfour, rfl⟩
      have hbit : (addOrderOf A - 2) / 2 % 2 = 0 := by simpa [Nat.testBit_eq_decide_div_mod_eq] using hk
      omega
    rw [if_neg hlast]
    simp [addIf, lost]

/-- What the steps lose, from what the bits before them give. -/
theorem lost_nafSteps {A : G} {k : Nat} (hn : (addOrderOf A).Prime) (hlt : k < addOrderOf A) (i : Nat) (hpow : 2 ^ (i + 2) ≤ 3 * k) :
    lost (nafPrefix k (i + 2) • A) (nafSteps A k (i + 1)) =
      if addOrderOf A % 4 = 1 ∧ k = addOrderOf A - 2 then -A + -A else 0 := by
  induction i with
  | zero => exact lost_nafSteps_one hn hlt hpow
  | succ i ih =>
    have hne := nafPrefix_ne hlt (j := i + 2) (by omega) hpow
    have hneg (hk : k.testBit (i + 2) = true) := mt ((nafPrefix_eq_neg_iff A hk).trans (dvd_nafPrefix_iff hn hlt (by omega) hk)).mp
    rw [pow_succ] at hpow
    rw [nafSteps, lost, lost_nafAdditions hne fun hk => hneg hk (by omega), nafPrefix_nsmul]
    exact ih (by omega)

/-- A whole run: the one scalar whose run loses something gives zero. -/
theorem foldl_apply_nafSteps {A : G} {k : Nat} (hn : (addOrderOf A).Prime) (hpos : 1 ≤ k) (hlt : k < addOrderOf A) :
    (nafSteps A k (bitLength (3 * k) - 2)).foldl apply A = if addOrderOf A % 4 = 1 ∧ k = addOrderOf A - 2 then 0 else k • A := by
  have hfirst : 1 < bitLength (3 * k) := Nat.lt_size.mpr (by omega)
  obtain ⟨i, hi⟩ : ∃ i, bitLength (3 * k) = i + 2 := ⟨bitLength (3 * k) - 2, by omega⟩
  have hpow : 2 ^ (i + 1) ≤ 3 * k := Nat.lt_size.mp (show i + 1 < bitLength (3 * k) by omega)
  have hsize : 3 * k < 2 ^ (i + 2) := by
    rw [← hi]
    exact Nat.lt_size_self _
  -- the loop starts behind the highest bit of the product, from the point itself
  have hstart : nafPrefix k (i + 1) • A = A := by rw [nafPrefix_top hpow hsize, one_nsmul]
  have hrun := DoubleAndAdd.foldl_apply_add_lost (nafPrefix k (i + 1) • A) (nafSteps A k i)
  rw [foldl_exact_nafSteps, hstart] at hrun
  rw [hi, Nat.add_sub_cancel]
  cases i with
  | zero =>
    have hlast : ¬(addOrderOf A % 4 = 1 ∧ k = addOrderOf A - 2) := by omega
    rw [if_neg hlast, ← hrun, nafSteps, lost, add_zero]
  | succ i =>
    have hlost := lost_nafSteps hn hlt i hpow
    rw [hstart] at hlost
    rw [hlost] at hrun
    by_cases hlast : addOrderOf A % 4 = 1 ∧ k = addOrderOf A - 2
    · have hmultiple : k • A = -A + -A := by
        have hzero : k • A + (A + A) = 0 := by
          rw [← two_nsmul, ← add_nsmul, ← addOrderOf_dvd_iff_nsmul_eq_zero]
          exact dvd_of_eq (by omega)
        rw [← neg_add]
        exact eq_neg_of_add_eq_zero_left hzero
      rw [if_pos hlast, hmultiple] at hrun
      rw [if_pos hlast]
      exact add_eq_right.mp hrun
    · rw [if_neg hlast, add_zero] at hrun
      rw [if_neg hlast, hrun]

end EcCore

end Java
