import Keyczar.Java.EcPoints
import Keyczar.Java.EcSteps
import Keyczar.Lib.Throwing

/-!
# Multiplying points

`multiplyPoints` gives what the sum of the multiples is unless the points are the same or opposite, or the additions of equal points on
the way lose something. `multiplyPoint` is right for every scalar below the order of the point but two less than the order, where it
depends on the order modulo four.
-/

namespace Java

namespace EcCore

open Throwing
open DoubleAndAdd (apply lost)

variable {params : ECParameterSpec} [Fact params.p.Prime]

/-! ## A small curve -/

/-- The curve `y ^ 2 = x ^ 3 - 3 * x + 1` over the field of seven elements. -/
def smallCurve : ECParameterSpec := { p := 7, a := -3, b := 1 }

instance : Fact smallCurve.p.Prime := ⟨Nat.prime_seven⟩

theorem smallCurve_a : (smallCurve.a : ZMod smallCurve.p) = -3 := by decide

theorem nonsingular_0_1 : smallCurve.curve.Nonsingular (0 : Int) (1 : Int) := (ShortWeierstrass.nonsingular_iff _ _).mpr (by decide)

/-- A point of the curve, of order five. -/
def smallPoint : smallCurve.curve.Point := .some _ _ nonsingular_0_1

theorem isAffine_smallPoint : IsAffine { x := some 0, y := some 1 } smallPoint := ⟨0, 1, nonsingular_0_1, rfl, rfl⟩

theorem nonsingular_4_2 : smallCurve.curve.Nonsingular (4 : Int) (2 : Int) := (ShortWeierstrass.nonsingular_iff _ _).mpr (by decide)

/-- Three times the other point. -/
def smallMultiple : smallCurve.curve.Point := .some _ _ nonsingular_4_2

theorem isAffine_smallMultiple : IsAffine { x := some 4, y := some 2 } smallMultiple := ⟨4, 2, nonsingular_4_2, rfl, rfl⟩

/-- Adding a point, if it is added. -/
theorem addPointIf_spec {R : JacobianPoint} {P : AffinePoint} {A B : params.curve.Point} (hR : Represents R A) (hP : IsAffine P B)
    (b : Bool) : ∃ R', addPointIf params b R P = .ok R' ∧ Represents R' ((addIf b B).foldl apply A) := by
  cases b with
  | true => exact addPointsJA_spec hR hP
  | false => exact ⟨R, rfl, hR⟩

/-! ## `multiplyPoints` -/

/-- Adding at a bit follows the additions of the bit. -/
theorem addPointsAt_spec {P Q PQ : AffinePoint} {A B : params.curve.Point} (hP : IsAffine P A) (hQ : IsAffine Q B)
    (hPQ : IsAffine PQ (A + B)) (k l i : Nat) {R : JacobianPoint} {C : params.curve.Point} (hR : Represents R C) :
    ∃ R', addPointsAt params P Q PQ k l i R = .ok R' ∧ Represents R' ((sumAdditions A B k l i).foldl apply C) := by
  unfold addPointsAt sumAdditions
  cases k.testBit i with
  | true =>
    cases l.testBit i with
    | true => exact addPointsJA_spec hR hPQ
    | false => exact addPointsJA_spec hR hP
  | false => exact addPointIf_spec hR hQ (l.testBit i)

/-- The loop follows the steps. -/
theorem multiplyPointsLoop_spec (ha : (params.a : ZMod params.p) = -3) {P Q PQ : AffinePoint} {A B : params.curve.Point}
    (hP : IsAffine P A) (hQ : IsAffine Q B) (hPQ : IsAffine PQ (A + B)) (k l i : Nat) {R : JacobianPoint} {C : params.curve.Point}
    (hR : Represents R C) :
    ∃ R', multiplyPointsLoop params P Q PQ k l i R = .ok R' ∧ Represents R' ((sumSteps A B k l i).foldl apply C) := by
  induction i generalizing R C with
  | zero => exact ⟨R, rfl, hR⟩
  | succ i ih =>
    obtain ⟨R₁, hdouble, h₁⟩ := doublePointJ_spec ha hR
    obtain ⟨R₂, hadd, h₂⟩ := addPointsAt_spec hP hQ hPQ k l i h₁
    obtain ⟨R', hloop, h'⟩ := ih h₂
    refine ⟨R', ?_, ?_⟩
    · rw [multiplyPointsLoop, hdouble, ok_bind, hadd, ok_bind, hloop]
    · rw [sumSteps, List.foldl_cons, List.foldl_append]
      exact h'

/-- For points that are not the same nor opposite, the result follows the steps. -/
theorem multiplyPoints_spec (ha : (params.a : ZMod params.p) = -3) {P Q : AffinePoint} {A B : params.curve.Point} (hP : IsAffine P A)
    (hQ : IsAffine Q B) (hne : A ≠ B) (hneg : A ≠ -B) (k l : Nat) :
    ∃ R, multiplyPoints params P k Q l = .ok R ∧
      Represents R ((sumSteps A B k l (max (bitLength k) (bitLength l))).foldl apply 0) := by
  obtain ⟨PQ, hsum, hPQ⟩ := addPointsA_spec hP hQ hne hneg
  obtain ⟨R, hloop, hR⟩ := multiplyPointsLoop_spec ha hP hQ hPQ k l (max (bitLength k) (bitLength l))
    (R := { x := none, y := none, z := 0 }) (Or.inl ⟨rfl, rfl⟩)
  refine ⟨R, ?_, hR⟩
  rw [multiplyPoints, hsum, ok_bind, hloop]

/-- The sum of the multiples is computed exactly for points that are not the same nor opposite, where what is lost adds up to nothing. -/
theorem multiplyPoints_iff (ha : (params.a : ZMod params.p) = -3) {P Q : AffinePoint} {A B : params.curve.Point} (hP : IsAffine P A)
    (hQ : IsAffine Q B) (k l : Nat) :
    (∃ R, multiplyPoints params P k Q l = .ok R ∧ Represents R (k • A + l • B)) ↔
      A ≠ B ∧ A ≠ -B ∧ lost 0 (sumSteps A B k l (max (bitLength k) (bitLength l))) = 0 := by
  by_cases hsame : A = B ∨ A = -B
  · have herror : multiplyPoints params P k Q l = .error .arithmetic := by
      rw [multiplyPoints, addPointsA_error hP hQ hsame]
      rfl
    constructor
    · rintro ⟨R, hR, -⟩
      rw [herror] at hR
      cases hR
    · rintro ⟨hne, hneg, -⟩
      exact (hsame.elim hne hneg).elim
  · obtain ⟨hne, hneg⟩ := not_or.mp hsame
    obtain ⟨R, hR, hrepresents⟩ := multiplyPoints_spec ha hP hQ hne hneg k l
    rw [← DoubleAndAdd.foldl_apply_eq_iff, foldl_exact_zero_sumSteps]
    constructor
    · rintro ⟨R', hR', hrepresents'⟩
      rw [hR] at hR'
      cases hR'
      exact ⟨hne, hneg, hrepresents.unique hrepresents'⟩
    · rintro ⟨-, -, heq⟩
      exact ⟨R, hR, heq ▸ hrepresents⟩

theorem multiplyPoints_smallCurve :
    ∃ R, multiplyPoints smallCurve { x := some 0, y := some 1 } 1 { x := some 4, y := some 2 } 1 = .ok R ∧
      Represents R (1 • smallPoint + 1 • smallMultiple) := by
  have hx : ((0 : Int) : ZMod smallCurve.p) ≠ (4 : Int) := by decide
  have hne : smallPoint ≠ smallMultiple := fun h => hx (WeierstrassCurve.Affine.Point.X_eq_iff.mpr (Or.inl h))
  have hneg : smallPoint ≠ -smallMultiple := fun h => hx (WeierstrassCurve.Affine.Point.X_eq_iff.mpr (Or.inr h))
  have hsum : (0 : smallCurve.curve.Point) + 0 ≠ smallPoint + smallMultiple := fun h =>
    hneg (eq_neg_of_add_eq_zero_left (h.symm.trans (add_zero 0)))
  refine (multiplyPoints_iff smallCurve_a isAffine_smallPoint isAffine_smallMultiple 1 1).mpr ⟨hne, hneg, ?_⟩
  show lost 0 [.double, .add (smallPoint + smallMultiple)] = 0
  rw [lost, lost, if_neg hsum, lost]

/-- A point cannot be given twice: its sum with itself is not computed. -/
theorem same_point_throws :
    multiplyPoints smallCurve { x := some 0, y := some 1 } 1 { x := some 0, y := some 1 } 1 = .error .arithmetic ∧
      ¬∃ R, multiplyPoints smallCurve { x := some 0, y := some 1 } 1 { x := some 0, y := some 1 } 1 = .ok R ∧
        Represents R (1 • smallPoint + 1 • smallPoint) := by
  have herror : multiplyPoints smallCurve { x := some 0, y := some 1 } 1 { x := some 0, y := some 1 } 1 = .error .arithmetic := by decide
  refine ⟨herror, ?_⟩
  rintro ⟨R, hR, -⟩
  rw [herror] at hR
  cases hR

/-- It is where at no bit the point that is added is the same as the double of what the bits before it give. -/
theorem multiplyPoints_of_different (ha : (params.a : ZMod params.p) = -3) {P Q : AffinePoint} {A B : params.curve.Point}
    (hP : IsAffine P A) (hQ : IsAffine Q B) (hne : A ≠ B) (hneg : A ≠ -B) {k l : Nat}
    (h : ∀ i, k.testBit i = true ∨ l.testBit i = true →
      sumPrefix A B k l (i + 1) + sumPrefix A B k l (i + 1) ≠ sumAddend A B k l i) :
    ∃ R, multiplyPoints params P k Q l = .ok R ∧ Represents R (k • A + l • B) := by
  obtain ⟨R, hR, hrepresents⟩ := multiplyPoints_spec ha hP hQ hne hneg k l
  have hlost := lost_sumSteps h (max (bitLength k) (bitLength l))
  rw [sumPrefix_bitLength] at hlost
  rw [(DoubleAndAdd.foldl_apply_eq_iff _ _).mpr hlost, foldl_exact_zero_sumSteps] at hrepresents
  exact ⟨R, hR, hrepresents⟩

/-! ## `multiplyPoint` -/

/-- The opposite point. -/
theorem IsAffine.neg {x y : Int} {A : params.curve.Point} (h : IsAffine { x := some x, y := some y } A) :
    IsAffine { x := some x, y := some (-y) } (-A) := by
  obtain ⟨x', y', h, heq, rfl⟩ := h
  cases heq
  have hy : params.curve.negY x y = ((-y : Int) : ZMod params.p) := by rw [ShortWeierstrass.negY_eq, Int.cast_neg]
  obtain ⟨h', hsame⟩ := ShortWeierstrass.exists_some ((WeierstrassCurve.Affine.nonsingular_neg ..).mpr h) rfl hy
  exact ⟨x, -y, h', rfl, hsame⟩

/-- The loop follows the steps. -/
theorem multiplyPointLoop_spec (ha : (params.a : ZMod params.p) = -3) {P Pneg : AffinePoint} {A : params.curve.Point}
    (hP : IsAffine P A) (hPneg : IsAffine Pneg (-A)) (k i : Nat) {R : JacobianPoint} {C : params.curve.Point} (hR : Represents R C) :
    ∃ R', multiplyPointLoop params P Pneg (3 * k) k i R = .ok R' ∧ Represents R' ((nafSteps A k i).foldl apply C) := by
  induction i generalizing R C with
  | zero => exact ⟨R, rfl, hR⟩
  | succ i ih =>
    obtain ⟨R₁, hdouble, h₁⟩ := doublePointJ_spec ha hR
    obtain ⟨R₂, hadd, h₂⟩ := addPointIf_spec h₁ hP ((3 * k).testBit (i + 1))
    obtain ⟨R₃, hsub, h₃⟩ := addPointIf_spec h₂ hPneg (k.testBit (i + 1))
    obtain ⟨R', hloop, h'⟩ := ih h₃
    refine ⟨R', ?_, ?_⟩
    · rw [multiplyPointLoop, hdouble, ok_bind, hadd, ok_bind, hsub, ok_bind, hloop]
    · rw [nafSteps, List.foldl_cons, nafAdditions, List.foldl_append, List.foldl_append]
      exact h'

/-- The result follows the steps. -/
theorem multiplyPoint_spec (ha : (params.a : ZMod params.p) = -3) {P : AffinePoint} {A : params.curve.Point} (hP : IsAffine P A)
    (k : Nat) :
    ∃ R, multiplyPoint params P k = .ok R ∧ Represents R ((nafSteps A k (bitLength (3 * k) - 2)).foldl apply A) := by
  obtain ⟨x, y, h, rfl, hA⟩ := id hP
  exact multiplyPointLoop_spec ha hP hP.neg k (bitLength (3 * k) - 2) hP.represents

/-- A point of prime order is multiplied by every scalar below it, but for one: where the order is one modulo four, that is the scalar
that is two less. -/
theorem multiplyPoint_iff (ha : (params.a : ZMod params.p) = -3) {P : AffinePoint} {A : params.curve.Point} (hP : IsAffine P A)
    (hn : (addOrderOf A).Prime) {k : Nat} (hpos : 1 ≤ k) (hlt : k < addOrderOf A) :
    (∃ R R', multiplyPoint params P k = .ok R ∧ toAffine params R = .ok R' ∧ IsReduced R' (k • A)) ↔
      ¬(addOrderOf A % 4 = 1 ∧ k = addOrderOf A - 2) := by
  obtain ⟨R, hR, hrepresents⟩ := multiplyPoint_spec ha hP k
  rw [foldl_apply_nafSteps hn hpos hlt] at hrepresents
  constructor
  · rintro ⟨R', R'', hR', haffine, -⟩ hlast
    rw [if_pos hlast] at hrepresents
    rw [hR] at hR'
    cases hR'
    rw [toAffine_zero hrepresents rfl] at haffine
    cases haffine
  · intro hlast
    rw [if_neg hlast] at hrepresents
    have hne : k • A ≠ 0 := by
      rw [ne_eq, ← addOrderOf_dvd_iff_nsmul_eq_zero]
      exact Nat.not_dvd_of_pos_of_lt hpos hlt
    obtain ⟨R', haffine, hreduced⟩ := toAffine_spec hrepresents hne
    exact ⟨R, R', hR, haffine, hreduced⟩

theorem addOrderOf_smallPoint : addOrderOf smallPoint = 5 := by
  obtain ⟨R₁, hdouble, h₁⟩ := doublePointJ_spec smallCurve_a isAffine_smallPoint.represents
  have hvalue : doublePointJ smallCurve { x := some 0, y := some 1, z := 1 } = .ok { x := some 2, y := some 5, z := 2 } := by decide
  rw [hvalue] at hdouble
  cases hdouble
  obtain ⟨R₂, hdouble, h₂⟩ := doublePointJ_spec smallCurve_a h₁
  have hvalue : doublePointJ smallCurve { x := some 2, y := some 5, z := 2 } = .ok { x := some 0, y := some 1, z := 6 } := by decide
  rw [hvalue] at hdouble
  cases hdouble
  -- the fourth multiple is the opposite
  have hopposite : Represents { x := some 0, y := some 1, z := 6 } (-smallPoint) := by
    refine Or.inr ⟨by decide, 0, 1, rfl, rfl, ?_⟩
    have hz : ((6 : Int) : ZMod smallCurve.p) ≠ 0 := by decide
    rw [ShortWeierstrass.IsJacobian, if_neg hz]
    refine ShortWeierstrass.exists_some ((WeierstrassCurve.Affine.nonsingular_neg ..).mpr nonsingular_0_1) ?_ ?_
    · rw [eq_div_iff (pow_ne_zero 2 hz)]
      decide
    · rw [ShortWeierstrass.negY_eq, eq_div_iff (pow_ne_zero 3 hz)]
      decide
  have hfour := h₂.unique hopposite
  have hprime : Fact (Nat.Prime 5) := ⟨Nat.prime_five⟩
  refine addOrderOf_eq_prime ?_ (WeierstrassCurve.Affine.Point.some_ne_zero nonsingular_0_1)
  have hfive : 5 • smallPoint = smallPoint + smallPoint + (smallPoint + smallPoint) + smallPoint := by
    rw [← two_nsmul, ← two_nsmul, ← mul_nsmul', ← succ_nsmul]
  rw [hfive, hfour, neg_add_cancel]

theorem multiplyPoint_smallCurve :
    ∃ R R', multiplyPoint smallCurve { x := some 0, y := some 1 } 2 = .ok R ∧ toAffine smallCurve R = .ok R' ∧
      IsReduced R' (2 • smallPoint) := by
  have hprime : (addOrderOf smallPoint).Prime := by
    rw [addOrderOf_smallPoint]
    exact Nat.prime_five
  refine (multiplyPoint_iff smallCurve_a isAffine_smallPoint hprime (by decide) ?_).mpr ?_
  · rw [addOrderOf_smallPoint]
    decide
  · rw [addOrderOf_smallPoint]
    decide

/-- The third multiple of a point of order five is computed as the point at infinity. -/
theorem third_multiple_is_lost :
    (addOrderOf smallPoint).Prime ∧ 3 < addOrderOf smallPoint ∧
      ¬∃ R R', multiplyPoint smallCurve { x := some 0, y := some 1 } 3 = .ok R ∧ toAffine smallCurve R = .ok R' ∧
        IsReduced R' (3 • smallPoint) := by
  rw [addOrderOf_smallPoint]
  refine ⟨Nat.prime_five, by decide, ?_⟩
  rintro ⟨R, R', hR, haffine, -⟩
  have herror : (multiplyPoint smallCurve { x := some 0, y := some 1 } 3 >>= toAffine smallCurve) = .error .arithmetic := by decide
  rw [hR, ok_bind, haffine] at herror
  cases herror

end EcCore

end Java
