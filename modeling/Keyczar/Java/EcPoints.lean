import Keyczar.Java.EcCore
import Keyczar.Lib.DoubleAndAdd
import Keyczar.Lib.Throwing
import Keyczar.Lib.ShortWeierstrass
import Mathlib.Data.ZMod.Basic
import Mathlib.Algebra.Field.ZMod

/-!
# What the operations on points do in the group of a curve

On a curve over a prime field, doubling is right for every point, and adding two affine points for two with different first coordinates.
Adding an affine point to one in Jacobian coordinates is right for every point but itself, of which it gives the point at infinity.
-/

namespace Java

namespace EcCore

open Throwing

/-- The curve of the parameters. -/
abbrev ECParameterSpec.curve (params : ECParameterSpec) [Fact params.p.Prime] : WeierstrassCurve.Affine (ZMod params.p) :=
  ShortWeierstrass.curve (params.a : ZMod params.p) (params.b : ZMod params.p)

variable {params : ECParameterSpec} [Fact params.p.Prime]

/-! ## Numbers modulo a prime -/

theorem natCast_dvd_iff (x : Int) : (params.p : Int) ∣ x ↔ (x : ZMod params.p) = 0 := (ZMod.intCast_zmod_eq_zero_iff_dvd x params.p).symm

theorem emod_eq_zero_iff (x : Int) : x % params.p = 0 ↔ (x : ZMod params.p) = 0 := by
  rw [← natCast_dvd_iff, Int.dvd_iff_emod_eq_zero]

/-- What is not zero has an inverse. -/
theorem modInverse_ok {x : Int} (h : (x : ZMod params.p) ≠ 0) :
    ∃ i, modInverse x params.p = .ok i ∧ (i : ZMod params.p) * x = 1 := by
  have hgcd : Int.gcd x params.p = 1 := by
    rw [Int.gcd_comm, Int.gcd_eq_natAbs, Int.natAbs_natCast]
    refine (Nat.Prime.coprime_iff_not_dvd Fact.out).mpr fun hdvd => h ?_
    rw [← natCast_dvd_iff]
    exact Int.natCast_dvd.mpr hdvd
  refine ⟨_, if_pos hgcd, ?_⟩
  have hbezout := congrArg (fun n : Int => (n : ZMod params.p)) (Int.gcd_eq_gcd_ab x params.p)
  simp only [hgcd, Int.cast_add, Int.cast_mul, Int.cast_natCast, ZMod.natCast_self, zero_mul, add_zero] at hbezout
  rw [ZMod.intCast_mod, mul_comm, ← hbezout, Nat.cast_one]

/-- The inversion of zero throws. -/
theorem modInverse_zero {x : Int} (h : (x : ZMod params.p) = 0) : modInverse x params.p = .error .arithmetic := by
  refine if_neg fun hgcd => ?_
  have hdvd := Int.dvd_coe_gcd ((natCast_dvd_iff x).mpr h) (dvd_refl (params.p : Int))
  rw [hgcd] at hdvd
  exact Nat.Prime.one_lt Fact.out |>.ne' (Nat.dvd_one.mp (by exact_mod_cast hdvd))

/-! ## Points -/

/-- A point that is not at infinity, in affine coordinates. -/
def IsAffine (P : AffinePoint) (A : params.curve.Point) : Prop :=
  ∃ (x y : Int) (h : params.curve.Nonsingular x y), P = { x := some x, y := some y } ∧ A = .some _ _ h

/-- A point in Jacobian coordinates: it is at infinity exactly when the last of them is zero. -/
def Represents (R : JacobianPoint) (A : params.curve.Point) : Prop :=
  (R.z = 0 ∧ A = 0) ∨
    ((R.z : ZMod params.p) ≠ 0 ∧ ∃ X Y : Int, R.x = some X ∧ R.y = some Y ∧ ShortWeierstrass.IsJacobian (X : ZMod params.p) Y R.z A)

theorem IsAffine.ne_zero {P : AffinePoint} {A : params.curve.Point} (h : IsAffine P A) : A ≠ 0 := by
  obtain ⟨x, y, h, -, rfl⟩ := h
  exact WeierstrassCurve.Affine.Point.some_ne_zero h

theorem IsAffine.represents {P : AffinePoint} {A : params.curve.Point} (h : IsAffine P A) :
    Represents { x := P.x, y := P.y, z := 1 } A := by
  obtain ⟨x, y, h, rfl, rfl⟩ := h
  refine Or.inr ⟨by simp, x, y, rfl, rfl, ?_⟩
  rw [Int.cast_one]
  exact ShortWeierstrass.isJacobian_one h

theorem Represents.z_eq_zero_iff {R : JacobianPoint} {A : params.curve.Point} (h : Represents R A) : R.z = 0 ↔ A = 0 := by
  rcases h with ⟨hz, hA⟩ | ⟨hz, X, Y, -, -, hJ⟩
  · exact iff_of_true hz hA
  · have hne : R.z ≠ 0 := fun h => hz (by rw [h, Int.cast_zero])
    exact iff_of_false hne (mt hJ.eq_zero_iff.mpr hz)

theorem Represents.unique {R : JacobianPoint} {A B : params.curve.Point} (hA : Represents R A) (hB : Represents R B) : A = B := by
  by_cases hz : R.z = 0
  · rw [hA.z_eq_zero_iff.mp hz, hB.z_eq_zero_iff.mp hz]
  · obtain ⟨-, X, Y, hX, hY, hJ⟩ := hA.resolve_left fun h => hz h.1
    obtain ⟨-, X', Y', hX', hY', hJ'⟩ := hB.resolve_left fun h => hz h.1
    obtain rfl := Option.some.inj (hX.symm.trans hX')
    obtain rfl := Option.some.inj (hY.symm.trans hY')
    exact hJ.unique hJ'

/-- Coordinates with a last one that was reduced. -/
theorem represents_of_isJacobian {X Y Z : Int} {A : params.curve.Point}
    (h : ShortWeierstrass.IsJacobian (X : ZMod params.p) Y Z A) : Represents { x := some X, y := some Y, z := Z % params.p } A := by
  by_cases hz : Z % params.p = 0
  · exact Or.inl ⟨hz, h.eq_zero_iff.mp ((emod_eq_zero_iff Z).mp hz)⟩
  · refine Or.inr ⟨?_, X, Y, rfl, rfl, ?_⟩
    · rw [ZMod.intCast_mod]
      exact mt (emod_eq_zero_iff Z).mpr hz
    · rw [ZMod.intCast_mod]
      exact h

/-! ## Doubling -/

/-- A point is doubled. -/
theorem doublePointJ_spec (ha : (params.a : ZMod params.p) = -3) {R : JacobianPoint} {A : params.curve.Point} (h : Represents R A) :
    ∃ R', doublePointJ params R = .ok R' ∧ Represents R' (A + A) := by
  rcases h with ⟨hz, rfl⟩ | ⟨hz, X, Y, hX, hY, hJ⟩
  · refine ⟨R, if_pos hz, Or.inl ⟨hz, add_zero 0⟩⟩
  · have hne : R.z ≠ 0 := fun h => hz (by rw [h, Int.cast_zero])
    rw [doublePointJ, if_neg hne, hX, hY]
    refine ⟨_, rfl, represents_of_isJacobian ?_⟩
    have hdouble := hJ.double (A := 4 * X * Y ^ 2) (M := 3 * (X - R.z ^ 2) * (X + R.z ^ 2)) rfl (by rw [ha]; ring) rfl
    simpa [ZMod.intCast_mod] using hdouble

/-! ## Adding -/

/-- An affine point is added, unless it is the same. -/
theorem addPointsJA_spec {R : JacobianPoint} {P : AffinePoint} {A B : params.curve.Point} (hR : Represents R A) (hP : IsAffine P B) :
    ∃ R', addPointsJA params R P = .ok R' ∧ Represents R' (DoubleAndAdd.apply A (.add B)) := by
  rcases hR with ⟨hz, rfl⟩ | ⟨hz, X, Y, hX, hY, hJ⟩
  · refine ⟨_, if_pos hz, ?_⟩
    rw [DoubleAndAdd.apply, if_neg hP.ne_zero.symm, zero_add]
    exact hP.represents
  · have hne : R.z ≠ 0 := fun h => hz (by rw [h, Int.cast_zero])
    obtain ⟨x, y, h, rfl, rfl⟩ := hP
    rw [addPointsJA, if_neg hne, hX, hY]
    refine ⟨_, rfl, represents_of_isJacobian ?_⟩
    have hadd := hJ.add hz h rfl rfl rfl
    simpa [ZMod.intCast_mod, DoubleAndAdd.apply] using hadd

/-- Two affine points with different first coordinates are added. -/
theorem addPointsA_spec {P Q : AffinePoint} {A B : params.curve.Point} (hP : IsAffine P A) (hQ : IsAffine Q B) (hne : A ≠ B)
    (hneg : A ≠ -B) : ∃ PQ, addPointsA params P Q = .ok PQ ∧ IsAffine PQ (A + B) := by
  obtain ⟨x₁, y₁, h₁, rfl, rfl⟩ := hP
  obtain ⟨x₂, y₂, h₂, rfl, rfl⟩ := hQ
  have hx : (x₁ : ZMod params.p) ≠ x₂ := fun hx =>
    (WeierstrassCurve.Affine.Point.X_eq_iff.mp hx).elim hne hneg
  have hsub : ((x₂ - x₁ : Int) : ZMod params.p) ≠ 0 := by
    rw [Int.cast_sub]
    exact sub_ne_zero.mpr hx.symm
  obtain ⟨i, hi, hinverse⟩ := modInverse_ok hsub
  have hd : ((y₂ - y₁) * i : ZMod params.p) * (x₂ - x₁) = y₂ - y₁ := by
    rw [Int.cast_sub] at hinverse
    rw [mul_assoc, hinverse, mul_one]
  obtain ⟨h, hsum⟩ := ShortWeierstrass.add_some h₁ h₂ hx hd
  rw [addPointsA]
  dsimp only
  rw [hi, hsum]
  refine ⟨_, rfl, _, _, ?_, rfl, ?_⟩
  · simpa [ZMod.intCast_mod] using h
  · simp [ZMod.intCast_mod]

/-- Two affine points with the same first coordinate are not added. -/
theorem addPointsA_error {P Q : AffinePoint} {A B : params.curve.Point} (hP : IsAffine P A) (hQ : IsAffine Q B)
    (h : A = B ∨ A = -B) : addPointsA params P Q = .error .arithmetic := by
  obtain ⟨x₁, y₁, h₁, rfl, rfl⟩ := hP
  obtain ⟨x₂, y₂, h₂, rfl, rfl⟩ := hQ
  have hx : (x₁ : ZMod params.p) = x₂ := WeierstrassCurve.Affine.Point.X_eq_iff.mpr h
  have hsub : ((x₂ - x₁ : Int) : ZMod params.p) = 0 := by rw [Int.cast_sub, hx, sub_self]
  rw [addPointsA]
  dsimp only
  rw [modInverse_zero hsub]
  rfl

/-! ## Back to affine coordinates -/

/-- The affine coordinates of a point, reduced. -/
def IsReduced (R : JacobianPoint) (A : params.curve.Point) : Prop :=
  ∃ (x y : Int) (h : params.curve.Nonsingular x y), R.x = some x ∧ R.y = some y ∧ 0 ≤ x ∧ x < params.p ∧ 0 ≤ y ∧ y < params.p ∧
    A = .some _ _ h

/-- The point at infinity has no affine coordinates. -/
theorem toAffine_zero {R : JacobianPoint} {A : params.curve.Point} (h : Represents R A) (hA : A = 0) :
    toAffine params R = .error .arithmetic := by
  have hz : ((R.z ^ 2 : Int) : ZMod params.p) = 0 := by rw [h.z_eq_zero_iff.mpr hA]; simp
  rw [toAffine, toAffineX, modInverse_zero hz]
  rfl

/-- Any other has. -/
theorem toAffine_spec {R : JacobianPoint} {A : params.curve.Point} (h : Represents R A) (hA : A ≠ 0) :
    ∃ R', toAffine params R = .ok R' ∧ IsReduced R' A := by
  obtain ⟨hz, X, Y, hX, hY, hJ⟩ := h.resolve_left fun h => hA h.2
  rw [ShortWeierstrass.IsJacobian, if_neg hz] at hJ
  obtain ⟨hns, rfl⟩ := hJ
  have hz2 : ((R.z ^ 2 : Int) : ZMod params.p) ≠ 0 := by
    rw [Int.cast_pow]
    exact pow_ne_zero 2 hz
  have hz3 : ((R.z ^ 3 : Int) : ZMod params.p) ≠ 0 := by
    rw [Int.cast_pow]
    exact pow_ne_zero 3 hz
  obtain ⟨i, hi, hinverse⟩ := modInverse_ok hz2
  obtain ⟨j, hj, hinverse'⟩ := modInverse_ok hz3
  rw [Int.cast_pow] at hinverse hinverse'
  have hx : (X : ZMod params.p) / R.z ^ 2 = ((X * i % params.p : Int) : ZMod params.p) := by
    rw [ZMod.intCast_mod, Int.cast_mul, div_eq_iff (pow_ne_zero 2 hz), mul_assoc, hinverse, mul_one]
  have hy : (Y : ZMod params.p) / R.z ^ 3 = ((Y * j % params.p : Int) : ZMod params.p) := by
    rw [ZMod.intCast_mod, Int.cast_mul, div_eq_iff (pow_ne_zero 3 hz), mul_assoc, hinverse', mul_one]
  have hpos : (0 : Int) < params.p := by exact_mod_cast Nat.Prime.pos Fact.out
  obtain ⟨h', hsame⟩ := ShortWeierstrass.exists_some hns hx hy
  have hfirst : toAffineX params R = .ok { R with x := some (X * i % params.p) } := by
    rw [toAffineX, hi, ok_bind, hX]
    rfl
  refine ⟨{ R with x := some (X * i % params.p), y := some (Y * j % params.p) }, ?_, _, _, h', rfl, rfl, Int.emod_nonneg _ hpos.ne',
    Int.emod_lt_of_pos _ hpos, Int.emod_nonneg _ hpos.ne', Int.emod_lt_of_pos _ hpos, hsame⟩
  rw [toAffine, hfirst, ok_bind]
  show (modInverse (R.z ^ 3) params.p >>= _) = _
  rw [hj, ok_bind, hY]
  rfl

end EcCore

end Java
