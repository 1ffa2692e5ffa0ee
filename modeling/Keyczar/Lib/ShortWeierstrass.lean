import Mathlib.AlgebraicGeometry.EllipticCurve.Affine.Point

/-!
# Jacobian coordinates on a short Weierstrass curve

The points of a curve `y ^ 2 = x ^ 3 + a * x + b` over any field, in coordinates with `x = X / Z ^ 2` and `y = Y / Z ^ 3`, where the point
at infinity has `Z = 0`. The formulas for doubling a point, and for adding one in affine coordinates that is not the same.
-/

namespace ShortWeierstrass

open WeierstrassCurve

variable {F : Type} [Field F]

/-- The curve `y ^ 2 = x ^ 3 + a * x + b`. -/
def curve (a b : F) : Affine F := { a₁ := 0, a₂ := 0, a₃ := 0, a₄ := a, a₆ := b }

variable {a b : F}

theorem negY_eq (x y : F) : (curve a b).negY x y = -y := by simp [curve]

/-- A pair is a point of the curve when the equation holds, and a nonsingular one when a derivative is not zero. -/
theorem nonsingular_iff (x y : F) :
    (curve a b).Nonsingular x y ↔ y ^ 2 = x ^ 3 + a * x + b ∧ (3 * x ^ 2 + a ≠ 0 ∨ 2 * y ≠ 0) := by
  rw [Affine.nonsingular_iff, Affine.equation_iff]
  simp [curve, eq_comm, two_mul, eq_neg_iff_add_eq_zero]

/-- A point is one with other coordinates that are the same. -/
theorem exists_some {x y x' y' : F} (h : (curve a b).Nonsingular x y) (hx : x = x') (hy : y = y') :
    ∃ h', (.some x y h : (curve a b).Point) = .some x' y' h' := by
  subst hx hy
  exact ⟨h, rfl⟩

variable [DecidableEq F]

/-! ## Coordinates -/

/-- Jacobian coordinates of a point. -/
def IsJacobian (X Y Z : F) (P : (curve a b).Point) : Prop :=
  if Z = 0 then P = 0 else ∃ h, P = .some (X / Z ^ 2) (Y / Z ^ 3) h

theorem isJacobian_zero (X Y : F) : IsJacobian X Y 0 (0 : (curve a b).Point) := by rw [IsJacobian, if_pos rfl]

theorem isJacobian_one {x y : F} (h : (curve a b).Nonsingular x y) : IsJacobian x y 1 (.some x y h : (curve a b).Point) := by
  rw [IsJacobian, if_neg one_ne_zero]
  exact exists_some h (by rw [one_pow, div_one]) (by rw [one_pow, div_one])

/-- Coordinates are those of one point. -/
theorem IsJacobian.unique {X Y Z : F} {P Q : (curve a b).Point} (hP : IsJacobian X Y Z P) (hQ : IsJacobian X Y Z Q) : P = Q := by
  unfold IsJacobian at hP hQ
  split at hP
  · rename_i hz
    rw [if_pos hz] at hQ
    rw [hP, hQ]
  · rename_i hz
    rw [if_neg hz] at hQ
    obtain ⟨h, rfl⟩ := hP
    obtain ⟨h', rfl⟩ := hQ
    rfl

theorem IsJacobian.eq_zero_iff {X Y Z : F} {P : (curve a b).Point} (h : IsJacobian X Y Z P) : Z = 0 ↔ P = 0 := by
  unfold IsJacobian at h
  split at h
  · rename_i hz
    exact iff_of_true hz h
  · rename_i hz
    obtain ⟨h', rfl⟩ := h
    exact iff_of_false hz (Affine.Point.some_ne_zero h')

/-! ## The formulas -/

/-- A point is doubled. -/
theorem IsJacobian.double {X Y Z : F} {P : (curve a b).Point} (h : IsJacobian X Y Z P) {A M X' : F} (hA : A = 4 * X * Y ^ 2)
    (hM : M = 3 * X ^ 2 + a * Z ^ 4) (hX' : X' = M ^ 2 - (A + A)) : IsJacobian X' (M * (A - X') - 8 * Y ^ 4) (2 * Y * Z) (P + P) := by
  by_cases hz : Z = 0
  · rw [h.eq_zero_iff.mp hz, hz, mul_zero, add_zero]
    exact isJacobian_zero _ _
  rw [IsJacobian, if_neg hz] at h
  obtain ⟨h, rfl⟩ := h
  by_cases hy : 2 * Y = 0
  · have hself : Y / Z ^ 3 = (curve a b).negY (X / Z ^ 2) (Y / Z ^ 3) := by
      rw [two_mul] at hy
      rw [negY_eq, ← neg_div, ← eq_neg_of_add_eq_zero_left hy]
    rw [Affine.Point.add_self_of_Y_eq hself, hy, zero_mul]
    exact isJacobian_zero _ _
  · have hself : Y / Z ^ 3 ≠ (curve a b).negY (X / Z ^ 2) (Y / Z ^ 3) := by
      rw [negY_eq, ← neg_div, ne_eq, div_left_inj' (pow_ne_zero 3 hz)]
      intro heq
      exact hy (by rw [two_mul, ← eq_neg_iff_add_eq_zero]; exact heq)
    have hslope : (curve a b).slope (X / Z ^ 2) (X / Z ^ 2) (Y / Z ^ 3) (Y / Z ^ 3) = M / (2 * Y * Z) := by
      have hdenominator : Y / Z ^ 3 - -(Y / Z ^ 3) = 2 * Y / Z ^ 3 := by ring
      rw [Affine.slope_of_Y_ne rfl hself, negY_eq, hdenominator, hM]
      simp only [curve]
      generalize 2 * Y = U at hy ⊢
      field_simp
      ring
    rw [Affine.Point.add_self_of_Y_ne hself, IsJacobian, if_neg (mul_ne_zero hy hz)]
    refine exists_some _ ?_ ?_
    · rw [hslope, Affine.addX, hX', hA]
      simp only [curve]
      have h2 : (2 : F) ≠ 0 := left_ne_zero_of_mul hy
      have hY : Y ≠ 0 := right_ne_zero_of_mul hy
      field_simp
      ring
    · rw [hslope, Affine.addY, negY_eq, Affine.negAddY, Affine.addX, hX', hA]
      simp only [curve]
      have h2 : (2 : F) ≠ 0 := left_ne_zero_of_mul hy
      have hY : Y ≠ 0 := right_ne_zero_of_mul hy
      field_simp
      ring

/-- A point in affine coordinates is added, unless it is the same. -/
theorem IsJacobian.add {X Y Z x y : F} {P : (curve a b).Point} (h : IsJacobian X Y Z P) (hz : Z ≠ 0) (hQ : (curve a b).Nonsingular x y)
    {C D X' : F} (hC : C = x * Z ^ 2 - X) (hD : D = y * Z ^ 3 - Y) (hX' : X' = D ^ 2 - (C ^ 3 + 2 * X * C ^ 2)) :
    IsJacobian X' (D * (X * C ^ 2 - X') - Y * C ^ 3) (Z * C)
      (if P = Affine.Point.some x y hQ then 0 else P + Affine.Point.some x y hQ) := by
  rw [IsJacobian, if_neg hz] at h
  obtain ⟨h, rfl⟩ := h
  by_cases hC0 : C = 0
  · have hx : X / Z ^ 2 = x := by
      rw [div_eq_iff (pow_ne_zero 2 hz)]
      exact (sub_eq_zero.mp (hC.symm.trans hC0)).symm
    rw [hC0, mul_zero]
    have hzero : (if Affine.Point.some (X / Z ^ 2) (Y / Z ^ 3) h = Affine.Point.some x y hQ then 0
        else Affine.Point.some (X / Z ^ 2) (Y / Z ^ 3) h + Affine.Point.some x y hQ) = 0 := by
      rcases Affine.Point.X_eq_iff.mp hx with heq | heq
      · exact if_pos heq
      · split
        · rfl
        · rw [heq, neg_add_cancel]
    rw [hzero]
    exact isJacobian_zero _ _
  · have hx : X / Z ^ 2 ≠ x := by
      intro hx
      rw [div_eq_iff (pow_ne_zero 2 hz)] at hx
      exact hC0 (by rw [hC, hx, sub_self])
    have hne : (.some (X / Z ^ 2) (Y / Z ^ 3) h : (curve a b).Point) ≠ .some x y hQ := fun heq => hx (Affine.Point.some.inj heq).1
    rw [if_neg hne, Affine.Point.add_of_X_ne hx, IsJacobian, if_neg (mul_ne_zero hz hC0)]
    have hslope : (curve a b).slope (X / Z ^ 2) x (Y / Z ^ 3) y = D / (Z * C) := by
      have hnumerator : Y / Z ^ 3 - y = -(D / Z ^ 3) := by
        rw [hD]
        field_simp
        ring
      have hdenominator : X / Z ^ 2 - x = -(C / Z ^ 2) := by
        rw [hC]
        field_simp
        ring
      rw [Affine.slope_of_X_ne hx, hnumerator, hdenominator, neg_div_neg_eq]
      field_simp
    have hx' : (curve a b).addX (X / Z ^ 2) x (D / (Z * C)) = X' / (Z * C) ^ 2 := by
      have hx2 : x = (C + X) / Z ^ 2 := by
        rw [hC]
        field_simp
        ring
      rw [Affine.addX, hX', hx2]
      simp only [curve]
      field_simp
      ring
    refine exists_some _ (by rw [hslope, hx']) ?_
    rw [hslope, Affine.addY, negY_eq, Affine.negAddY, hx']
    field_simp
    ring

/-- Two points in affine coordinates are added, by the slope of the line through them. -/
theorem add_some {x₁ y₁ x₂ y₂ d : F} (h₁ : (curve a b).Nonsingular x₁ y₁) (h₂ : (curve a b).Nonsingular x₂ y₂) (hx : x₁ ≠ x₂)
    (hd : d * (x₂ - x₁) = y₂ - y₁) :
    ∃ h, Affine.Point.some x₁ y₁ h₁ + Affine.Point.some x₂ y₂ h₂ =
      Affine.Point.some (d ^ 2 - x₁ - x₂) (d * (x₁ - (d ^ 2 - x₁ - x₂)) - y₁) h := by
  have hslope : (curve a b).slope x₁ x₂ y₁ y₂ = d := by
    rw [Affine.slope_of_X_ne hx, ← neg_sub y₂, ← neg_sub x₂, neg_div_neg_eq, ← hd]
    exact mul_div_cancel_right₀ d (sub_ne_zero.mpr hx.symm)
  have hx' : (curve a b).addX x₁ x₂ d = d ^ 2 - x₁ - x₂ := by simp [curve]
  rw [Affine.Point.add_of_X_ne hx]
  refine exists_some _ (by rw [hslope, hx']) ?_
  rw [hslope, Affine.addY, negY_eq, Affine.negAddY, hx']
  ring

/-- A point in affine coordinates is doubled, by the slope of the tangent. -/
theorem double_some {x y d : F} (h : (curve a b).Nonsingular x y) (hy : 2 * y ≠ 0) (hd : d * (2 * y) = 3 * x ^ 2 + a) :
    ∃ h', Affine.Point.some x y h + Affine.Point.some x y h =
      Affine.Point.some (d ^ 2 - 2 * x) (d * (x - (d ^ 2 - 2 * x)) - y) h' := by
  have hself : y ≠ (curve a b).negY x y := by
    intro heq
    rw [negY_eq] at heq
    exact hy (by rw [two_mul, ← eq_neg_iff_add_eq_zero]; exact heq)
  have hslope : (curve a b).slope x x y y = d := by
    rw [Affine.slope_of_Y_ne rfl hself, negY_eq, sub_neg_eq_add, ← two_mul]
    refine (div_eq_iff hy).mpr ?_
    rw [hd]
    simp [curve]
  have hx' : (curve a b).addX x x d = d ^ 2 - 2 * x := by
    simp only [Affine.addX, curve]
    ring
  rw [Affine.Point.add_self_of_Y_ne hself]
  refine exists_some _ (by rw [hslope, hx']) ?_
  rw [hslope, Affine.addY, negY_eq, Affine.negAddY, hx']
  ring

/-- A point with a zero second coordinate, twice, is its opposite. -/
theorem double_eq_zero {x y : F} (h : (curve a b).Nonsingular x y) (hy : 2 * y = 0) :
    Affine.Point.some x y h + Affine.Point.some x y h = 0 := by
  refine Affine.Point.add_self_of_Y_eq ?_
  rw [two_mul] at hy
  rw [negY_eq, ← eq_neg_of_add_eq_zero_left hy]

end ShortWeierstrass
