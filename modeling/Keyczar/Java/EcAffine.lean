import Keyczar.Java.EcMultiplication

/-!
# The plain multiplication of points

`EcCore` has a second multiplication, in affine coordinates only, against which the other two were checked while they were debugged. Below
the order of the point it is right for every scalar. So the checks pass exactly where the fast multiplications are right.
-/

namespace Java

namespace EcCore

open Throwing
open DoubleAndAdd (lost)

/-! ## The functions -/

section

variable (params : ECParameterSpec)

/-- `doublePointA`. -/
def doublePointA (P : AffinePoint) : Except Thrown AffinePoint :=
  match P.x, P.y with
  | some x, some y => do
    let inverse ← modInverse (2 * y) params.p
    let d := (x ^ 2 * 3 + params.a) * inverse
    let X : Int := (d ^ 2 - 2 * x) % params.p
    return { x := some X, y := some ((d * (x - X) - y) % params.p) }
  | _, _ => .ok P

/-- The loop of `multiplyPointA`, with `i` bits to go. -/
def multiplyPointALoop (P : AffinePoint) (k : Nat) : Nat → AffinePoint → Except Thrown AffinePoint
  | 0, Q => .ok Q
  | i + 1, Q => do
    let Q ← doublePointA params Q
    let Q ← if k.testBit i then addPointsA params Q P else .ok Q
    multiplyPointALoop P k i Q

/-- `multiplyPointA`. -/
def multiplyPointA (P : AffinePoint) (k : Nat) : Except Thrown AffinePoint :=
  multiplyPointALoop params P k (bitLength k) { x := none, y := none }

end

variable {params : ECParameterSpec} [Fact params.p.Prime]

/-! ## Points that may be at infinity -/

/-- A point whose coordinates are `null` at infinity, and are reduced elsewhere. -/
def IsAffineOrNull (P : AffinePoint) (A : params.curve.Point) : Prop :=
  (P = { x := none, y := none } ∧ A = 0) ∨
    ∃ (x y : Int) (h : params.curve.Nonsingular x y), P = { x := some x, y := some y } ∧ 0 ≤ x ∧ x < params.p ∧ 0 ≤ y ∧ y < params.p ∧
      A = .some _ _ h

theorem IsAffineOrNull.of_affine {x y : Int} {A : params.curve.Point} (h : IsAffine { x := some x, y := some y } A) (hx : 0 ≤ x)
    (hxlt : x < params.p) (hy : 0 ≤ y) (hylt : y < params.p) : IsAffineOrNull { x := some x, y := some y } A := by
  obtain ⟨x', y', hns, heq, rfl⟩ := h
  cases heq
  exact Or.inr ⟨x, y, hns, rfl, hx, hxlt, hy, hylt, rfl⟩

theorem IsAffineOrNull.affine {P : AffinePoint} {A : params.curve.Point} (h : IsAffineOrNull P A) (hA : A ≠ 0) : IsAffine P A := by
  rcases h with ⟨-, hzero⟩ | ⟨x, y, hns, rfl, -, -, -, -, rfl⟩
  · exact absurd hzero hA
  · exact ⟨x, y, hns, rfl, rfl⟩

/-- Reduced coordinates that are those of one number modulo the prime are the same. -/
theorem eq_of_reduced {x y : Int} (hx : 0 ≤ x) (hxlt : x < params.p) (hy : 0 ≤ y) (hylt : y < params.p)
    (h : (x : ZMod params.p) = y) : x = y := by
  have hmod := (ZMod.intCast_eq_intCast_iff' x y params.p).mp h
  rwa [Int.emod_eq_of_lt hx hxlt, Int.emod_eq_of_lt hy hylt] at hmod

/-- A point has one pair of reduced coordinates. -/
theorem IsReduced.eq {R : JacobianPoint} {P : AffinePoint} {A : params.curve.Point} (h : IsReduced R A) (hP : IsAffineOrNull P A) :
    R.x = P.x ∧ R.y = P.y := by
  obtain ⟨x, y, hns, hx, hy, hx0, hxlt, hy0, hylt, rfl⟩ := h
  rcases hP with ⟨-, hzero⟩ | ⟨x', y', hns', rfl, hx0', hxlt', hy0', hylt', heq⟩
  · exact absurd hzero (WeierstrassCurve.Affine.Point.some_ne_zero hns)
  · obtain ⟨hxx, hyy⟩ := WeierstrassCurve.Affine.Point.some.inj heq
    rw [hx, hy, eq_of_reduced hx0 hxlt hx0' hxlt' hxx, eq_of_reduced hy0 hylt hy0' hylt' hyy]
    exact ⟨rfl, rfl⟩

theorem prime_pos : (0 : Int) < params.p := by exact_mod_cast Nat.Prime.pos Fact.out

/-- The inverse is the reduced one. -/
theorem modInverse_eq {x i : Int} (hi : 0 ≤ i) (hlt : i < params.p) (h : ((i * x : Int) : ZMod params.p) = 1) :
    modInverse x params.p = .ok i := by
  rw [Int.cast_mul] at h
  have hx : (x : ZMod params.p) ≠ 0 := right_ne_zero_of_mul (h.trans_ne one_ne_zero)
  obtain ⟨j, hj, hinverse⟩ := modInverse_ok hx
  have hreduced : 0 ≤ j ∧ j < params.p := by
    unfold modInverse at hj
    split at hj
    · cases hj
      exact ⟨Int.emod_nonneg _ prime_pos.ne', Int.emod_lt_of_pos _ prime_pos⟩
    · cases hj
  rw [hj, eq_of_reduced hreduced.1 hreduced.2 hi hlt (mul_right_cancel₀ hx (hinverse.trans h.symm))]

/-! ## Doubling and adding -/

/-- A point is doubled, unless its double is at infinity and it is not. -/
theorem doublePointA_spec {P : AffinePoint} {A : params.curve.Point} (h : IsAffineOrNull P A) (hA : A ≠ 0 → A + A ≠ 0) :
    ∃ P', doublePointA params P = .ok P' ∧ IsAffineOrNull P' (A + A) := by
  rcases h with ⟨rfl, rfl⟩ | ⟨x, y, hns, rfl, -, -, -, -, rfl⟩
  · exact ⟨_, rfl, Or.inl ⟨rfl, add_zero 0⟩⟩
  · have hy : (2 * y : ZMod params.p) ≠ 0 := fun hy =>
      hA (WeierstrassCurve.Affine.Point.some_ne_zero hns) (ShortWeierstrass.double_eq_zero hns hy)
    have hy' : ((2 * y : Int) : ZMod params.p) ≠ 0 := by
      rw [Int.cast_mul]
      exact_mod_cast hy
    obtain ⟨i, hi, hinverse⟩ := modInverse_ok hy'
    have hd : ((3 * x ^ 2 + params.a) * i : ZMod params.p) * (2 * y) = 3 * x ^ 2 + params.a := by
      push_cast at hinverse
      rw [mul_assoc, hinverse, mul_one]
    obtain ⟨h', hdouble⟩ := ShortWeierstrass.double_some hns hy hd
    rw [doublePointA]
    dsimp only
    rw [hi, hdouble]
    have hX : ((((x ^ 2 * 3 + params.a) * i) ^ 2 - 2 * x) % params.p : Int) =
        (((3 * x ^ 2 + params.a) * i) ^ 2 - 2 * x : ZMod params.p) := by
      rw [ZMod.intCast_mod]
      push_cast
      ring
    have hY : ((((x ^ 2 * 3 + params.a) * i) * (x - (((x ^ 2 * 3 + params.a) * i) ^ 2 - 2 * x) % params.p) - y) % params.p : Int) =
        ((3 * x ^ 2 + params.a) * i * (x - (((3 * x ^ 2 + params.a) * i) ^ 2 - 2 * x)) - y : ZMod params.p) := by
      rw [ZMod.intCast_mod, Int.cast_sub, Int.cast_mul, Int.cast_sub, hX]
      push_cast
      ring
    obtain ⟨h'', hsame⟩ := ShortWeierstrass.exists_some h' hX.symm hY.symm
    exact ⟨_, rfl, Or.inr ⟨_, _, h'', rfl, Int.emod_nonneg _ prime_pos.ne', Int.emod_lt_of_pos _ prime_pos,
      Int.emod_nonneg _ prime_pos.ne', Int.emod_lt_of_pos _ prime_pos, hsame⟩⟩

/-- The sum of two affine points has reduced coordinates. -/
theorem reduced_of_addPointsA {x₁ y₁ x₂ y₂ : Int} {PQ : AffinePoint} {A : params.curve.Point}
    (h : addPointsA params { x := some x₁, y := some y₁ } { x := some x₂, y := some y₂ } = .ok PQ) (hPQ : IsAffine PQ A) :
    IsAffineOrNull PQ A := by
  obtain ⟨i, -, hi⟩ := ok_of_bind h
  cases hi
  exact .of_affine hPQ (Int.emod_nonneg _ prime_pos.ne') (Int.emod_lt_of_pos _ prime_pos) (Int.emod_nonneg _ prime_pos.ne')
    (Int.emod_lt_of_pos _ prime_pos)

/-- Two points are added that are not the same nor opposite, unless one is at infinity. -/
theorem addPointsA_orNull {Q P : AffinePoint} {A B : params.curve.Point} (hQ : IsAffineOrNull Q A) (hP : IsAffineOrNull P B)
    (h : A ≠ 0 → B ≠ 0 → A ≠ B ∧ A ≠ -B) : ∃ R, addPointsA params Q P = .ok R ∧ IsAffineOrNull R (A + B) := by
  rcases id hP with ⟨rfl, rfl⟩ | ⟨x₂, y₂, hns₂, rfl, -, -, -, -, hB⟩
  · rw [add_zero]
    exact ⟨Q, rfl, hQ⟩
  · have hB0 : B ≠ 0 := hB ▸ WeierstrassCurve.Affine.Point.some_ne_zero hns₂
    rcases id hQ with ⟨rfl, rfl⟩ | ⟨x₁, y₁, hns₁, rfl, -, -, -, -, hA⟩
    · rw [zero_add]
      exact ⟨_, rfl, hP⟩
    · have hA0 : A ≠ 0 := hA ▸ WeierstrassCurve.Affine.Point.some_ne_zero hns₁
      obtain ⟨hne, hneg⟩ := h hA0 hB0
      obtain ⟨PQ, hadd, hPQ⟩ := addPointsA_spec (hQ.affine hA0) (hP.affine hB0) hne hneg
      exact ⟨PQ, hadd, reduced_of_addPointsA hadd hPQ⟩

/-- Of points that are the same or opposite a sum is given only where they are at infinity. -/
theorem addPointsA_same {Q P PQ : AffinePoint} {A B : params.curve.Point} (hQ : IsAffineOrNull Q A) (hP : IsAffineOrNull P B)
    (h : A = B ∨ A = -B) (hadd : addPointsA params Q P = .ok PQ) : IsAffineOrNull PQ (0 : params.curve.Point) := by
  have hiff : A = 0 ↔ B = 0 := by
    rcases h with rfl | rfl
    · rfl
    · exact neg_eq_zero
  by_cases hB : B = 0
  · rw [hiff.mpr hB] at hQ
    rw [hB] at hP
    obtain ⟨PQ', hadd', hPQ⟩ := addPointsA_orNull hQ hP fun hne => absurd rfl hne
    obtain rfl := Except.ok.inj (hadd.symm.trans hadd')
    rwa [add_zero] at hPQ
  · rw [addPointsA_error (hQ.affine (mt hiff.mp hB)) (hP.affine hB) h] at hadd
    cases hadd

/-! ## Multiplying -/

theorem div_two_pow (k i : Nat) : k / 2 ^ i = 2 * (k / 2 ^ (i + 1)) + (k.testBit i).toNat := by
  rw [Nat.toNat_testBit, pow_succ, ← Nat.div_div_eq_div_mul]
  omega

theorem nsmul_ne_zero_of_lt {A : params.curve.Point} {m : Nat} (hpos : 0 < m) (hlt : m < addOrderOf A) : m • A ≠ 0 := fun h =>
  Nat.not_dvd_of_pos_of_lt hpos hlt (addOrderOf_dvd_iff_nsmul_eq_zero.mpr h)

/-- The loop multiplies by the bits that it has seen. -/
theorem multiplyPointALoop_spec {P : AffinePoint} {A : params.curve.Point} (hP : IsAffineOrNull P A) {k : Nat} (hlt : k < addOrderOf A)
    (i : Nat) {Q : AffinePoint} (hQ : IsAffineOrNull Q ((k / 2 ^ i) • A)) :
    ∃ R, multiplyPointALoop params P k i Q = .ok R ∧ IsAffineOrNull R (k • A) := by
  induction i generalizing Q with
  | zero =>
    rw [pow_zero, Nat.div_one] at hQ
    exact ⟨Q, rfl, hQ⟩
  | succ i ih =>
    have hstep := div_two_pow k i
    have hle : k / 2 ^ i ≤ k := Nat.div_le_self k (2 ^ i)
    generalize hm : k / 2 ^ (i + 1) = m at hQ hstep
    have hdouble : m • A + m • A = (2 * m) • A := by rw [← add_nsmul, two_mul]
    obtain ⟨Q₁, hdoubled, hQ₁⟩ := doublePointA_spec hQ fun hne => by
      rw [hdouble]
      have hpos : 0 < m := Nat.pos_of_ne_zero fun hm => hne (by rw [hm, zero_nsmul])
      exact nsmul_ne_zero_of_lt (by omega) (by omega)
    rw [hdouble] at hQ₁
    cases hbit : k.testBit i with
    | false =>
      rw [hbit, Bool.toNat_false, Nat.add_zero] at hstep
      rw [← hstep] at hQ₁
      obtain ⟨R, hloop, hR⟩ := ih hQ₁
      refine ⟨R, ?_, hR⟩
      rw [multiplyPointALoop, hdoubled, ok_bind, hbit]
      exact hloop
    | true =>
      rw [hbit, Bool.toNat_true] at hstep
      have hsum : (2 * m) • A + A = (k / 2 ^ i) • A := by rw [hstep, succ_nsmul]
      obtain ⟨Q₂, hadded, hQ₂⟩ := addPointsA_orNull hQ₁ hP fun hne _ => by
        have hpos : 0 < 2 * m := Nat.pos_of_ne_zero fun hm => hne (by rw [hm, zero_nsmul])
        constructor
        -- neither one less than the multiple nor one more is a multiple of the order
        · intro heq
          refine nsmul_ne_zero_of_lt (A := A) (m := 2 * m - 1) (by omega) (by omega) ?_
          have hsub : (2 * m) • A = (2 * m - 1) • A + A := by
            rw [← succ_nsmul]
            congr 1
            omega
          rw [hsub] at heq
          exact add_eq_right.mp heq
        · intro heq
          refine nsmul_ne_zero_of_lt (A := A) (m := 2 * m + 1) (by omega) (by omega) ?_
          rw [succ_nsmul, heq, neg_add_cancel]
      rw [hsum] at hQ₂
      obtain ⟨R, hloop, hR⟩ := ih hQ₂
      refine ⟨R, ?_, hR⟩
      rw [multiplyPointALoop, hdoubled, ok_bind, hbit]
      show (addPointsA params Q₁ P >>= _) = _
      rw [hadded]
      exact hloop

/-- A point is multiplied by every scalar below its order. -/
theorem multiplyPointA_spec {P : AffinePoint} {A : params.curve.Point} (hP : IsAffineOrNull P A) {k : Nat} (hlt : k < addOrderOf A) :
    ∃ R, multiplyPointA params P k = .ok R ∧ IsAffineOrNull R (k • A) := by
  refine multiplyPointALoop_spec hP hlt (bitLength k) (Or.inl ⟨rfl, ?_⟩)
  have hzero : k / 2 ^ bitLength k = 0 := Nat.div_eq_of_lt (Nat.lt_size_self k)
  rw [hzero, zero_nsmul]

/-! ## The checks -/

theorem affine_smallPoint : IsAffineOrNull { x := some 0, y := some 1 } smallPoint :=
  .of_affine isAffine_smallPoint (by decide) (by decide) (by decide) (by decide)

/-- Points with the same reduced coordinates are the same. -/
theorem IsReduced.eq_point {R : JacobianPoint} {P : AffinePoint} {A B : params.curve.Point} (h : IsReduced R A)
    (hP : IsAffineOrNull P B) (hx : R.x = P.x) (hy : R.y = P.y) : A = B := by
  obtain ⟨x, y, hns, hRx, hRy, -, -, -, -, rfl⟩ := h
  rcases hP with ⟨rfl, rfl⟩ | ⟨x', y', hns', rfl, -, -, -, -, rfl⟩
  · rw [hRx] at hx
    cases hx
  · obtain rfl := Option.some.inj (hRx.symm.trans hx)
    obtain rfl := Option.some.inj (hRy.symm.trans hy)
    rfl

/-- The check of `multiplyPoint` passes for every scalar below a prime order but one. -/
theorem multiplyPoint_agrees_iff (ha : (params.a : ZMod params.p) = -3) {P : AffinePoint} {A : params.curve.Point}
    (hP : IsAffineOrNull P A) (hn : (addOrderOf A).Prime) {k : Nat} (hpos : 1 ≤ k) (hlt : k < addOrderOf A) :
    (∃ R SS RR, multiplyPoint params P k = .ok R ∧ toAffine params R = .ok SS ∧ multiplyPointA params P k = .ok RR ∧
      SS.x = RR.x ∧ SS.y = RR.y) ↔ ¬(addOrderOf A % 4 = 1 ∧ k = addOrderOf A - 2) := by
  have hA : A ≠ 0 := by
    rintro rfl
    rw [addOrderOf_zero] at hn
    exact Nat.not_prime_one hn
  obtain ⟨R, hR, hrepresents⟩ := multiplyPoint_spec ha (hP.affine hA) k
  rw [foldl_apply_nafSteps hn hpos hlt] at hrepresents
  obtain ⟨RR, hRR, haffine⟩ := multiplyPointA_spec hP hlt
  constructor
  · rintro ⟨R', SS, -, hR', hSS, -, -, -⟩ hlast
    rw [if_pos hlast] at hrepresents
    rw [hR] at hR'
    cases hR'
    rw [toAffine_zero hrepresents rfl] at hSS
    cases hSS
  · intro hlast
    rw [if_neg hlast] at hrepresents
    obtain ⟨SS, hSS, hreduced⟩ := toAffine_spec hrepresents (nsmul_ne_zero_of_lt hpos hlt)
    exact ⟨R, SS, RR, hR, hSS, hRR, hreduced.eq haffine⟩

theorem multiplyPoint_agrees_smallCurve :
    ∃ R SS RR, multiplyPoint smallCurve { x := some 0, y := some 1 } 2 = .ok R ∧ toAffine smallCurve R = .ok SS ∧
      multiplyPointA smallCurve { x := some 0, y := some 1 } 2 = .ok RR ∧ SS.x = RR.x ∧ SS.y = RR.y := by
  have hprime : (addOrderOf smallPoint).Prime := by
    rw [addOrderOf_smallPoint]
    exact Nat.prime_five
  refine (multiplyPoint_agrees_iff smallCurve_a affine_smallPoint hprime (by decide) ?_).mpr ?_
  · rw [addOrderOf_smallPoint]
    decide
  · rw [addOrderOf_smallPoint]
    decide

/-- The check of `multiplyPoints` passes exactly where the result is right and the plain sum is one of points that are not the same nor
opposite. -/
theorem multiplyPoints_agrees_iff (ha : (params.a : ZMod params.p) = -3) {P Q : AffinePoint} {A B : params.curve.Point}
    (hP : IsAffineOrNull P A) (hA : A ≠ 0) (hQ : IsAffineOrNull Q B) (hB : B ≠ 0) {k l : Nat} (hk : k < addOrderOf A)
    (hl : l < addOrderOf B) :
    (∃ R SS AA BB AB, multiplyPoints params P k Q l = .ok R ∧ toAffine params R = .ok SS ∧ multiplyPointA params P k = .ok AA ∧
      multiplyPointA params Q l = .ok BB ∧ addPointsA params AA BB = .ok AB ∧ SS.x = AB.x ∧ SS.y = AB.y) ↔
      A ≠ B ∧ A ≠ -B ∧ lost 0 (sumSteps A B k l (max (bitLength k) (bitLength l))) = 0 ∧ k • A ≠ l • B ∧ k • A ≠ -(l • B) := by
  obtain ⟨AA, hAA, hAAaffine⟩ := multiplyPointA_spec hP hk
  obtain ⟨BB, hBB, hBBaffine⟩ := multiplyPointA_spec hQ hl
  constructor
  · rintro ⟨R, SS, AA', BB', AB, hR, hSS, hAA', hBB', hAB, hx, hy⟩
    obtain rfl := Except.ok.inj (hAA.symm.trans hAA')
    obtain rfl := Except.ok.inj (hBB.symm.trans hBB')
    have hdifferent : ¬(A = B ∨ A = -B) := by
      intro hsame
      rw [multiplyPoints, addPointsA_error (hP.affine hA) (hQ.affine hB) hsame] at hR
      cases hR
    obtain ⟨hne, hneg⟩ := not_or.mp hdifferent
    obtain ⟨R', hR', hrepresents⟩ := multiplyPoints_spec ha (hP.affine hA) (hQ.affine hB) hne hneg k l
    obtain rfl := Except.ok.inj (hR.symm.trans hR')
    have hnonzero : (sumSteps A B k l (max (bitLength k) (bitLength l))).foldl DoubleAndAdd.apply 0 ≠ 0 := by
      intro hzero
      rw [toAffine_zero hrepresents hzero] at hSS
      cases hSS
    obtain ⟨SS', hSS', hreduced⟩ := toAffine_spec hrepresents hnonzero
    obtain rfl := Except.ok.inj (hSS.symm.trans hSS')
    have hsums : ¬(k • A = l • B ∨ k • A = -(l • B)) := by
      intro hsame
      exact hnonzero (hreduced.eq_point (addPointsA_same hAAaffine hBBaffine hsame hAB) hx hy)
    obtain ⟨hne', hneg'⟩ := not_or.mp hsums
    obtain ⟨AB', hAB', hsum⟩ := addPointsA_orNull hAAaffine hBBaffine fun _ _ => ⟨hne', hneg'⟩
    obtain rfl := Except.ok.inj (hAB.symm.trans hAB')
    have heq := hreduced.eq_point hsum hx hy
    rw [← foldl_exact_zero_sumSteps, DoubleAndAdd.foldl_apply_eq_iff] at heq
    exact ⟨hne, hneg, heq, hne', hneg'⟩
  · rintro ⟨hne, hneg, hlost, hne', hneg'⟩
    obtain ⟨R, hR, hrepresents⟩ := multiplyPoints_spec ha (hP.affine hA) (hQ.affine hB) hne hneg k l
    rw [(DoubleAndAdd.foldl_apply_eq_iff _ _).mpr hlost, foldl_exact_zero_sumSteps] at hrepresents
    have hnonzero : k • A + l • B ≠ 0 := fun h => hneg' (eq_neg_of_add_eq_zero_left h)
    obtain ⟨SS, hSS, hreduced⟩ := toAffine_spec hrepresents hnonzero
    obtain ⟨AB, hAB, hsum⟩ := addPointsA_orNull hAAaffine hBBaffine fun _ _ => ⟨hne', hneg'⟩
    exact ⟨R, SS, AA, BB, AB, hR, hSS, hAA, hBB, hAB, hreduced.eq hsum⟩

/-- Twice the point of the small curve. -/
def smallDouble : smallCurve.curve.Point := smallPoint + smallPoint

theorem smallPoint_ne_zero : smallPoint ≠ 0 := WeierstrassCurve.Affine.Point.some_ne_zero nonsingular_0_1

theorem smallDouble_eq : smallDouble = 2 • smallPoint := (two_nsmul _).symm

theorem smallDouble_ne_zero : smallDouble ≠ 0 := by
  rw [smallDouble_eq]
  exact nsmul_ne_zero_of_lt (by decide) (by rw [addOrderOf_smallPoint]; decide)

theorem affine_smallDouble : IsAffineOrNull { x := some 4, y := some 5 } smallDouble := by
  obtain ⟨P, hP, hdouble⟩ := doublePointA_spec affine_smallPoint fun _ => smallDouble_ne_zero
  have hvalue : doublePointA smallCurve { x := some 0, y := some 1 } = .ok { x := some 4, y := some 5 } := by
    rw [doublePointA]
    dsimp only
    rw [modInverse_eq (i := 4) (by decide) (by decide) (by decide)]
    rfl
  obtain rfl := Except.ok.inj (hvalue.symm.trans hP)
  exact hdouble

theorem addOrderOf_smallDouble : addOrderOf smallDouble = 5 := by
  rw [smallDouble_eq, Nat.Coprime.addOrderOf_nsmul, addOrderOf_smallPoint]
  rw [addOrderOf_smallPoint]
  decide

theorem smallPoint_ne_smallDouble : smallPoint ≠ smallDouble := fun h => smallPoint_ne_zero (left_eq_add.mp h)

theorem smallPoint_ne_neg_smallDouble : smallPoint ≠ -smallDouble := by
  intro h
  have hthree : 3 • smallPoint = 0 := by
    rw [succ_nsmul, ← smallDouble_eq, add_comm]
    exact eq_neg_iff_add_eq_zero.mp h
  exact nsmul_ne_zero_of_lt (by decide) (by rw [addOrderOf_smallPoint]; decide) hthree

theorem multiplyPoints_agrees_smallCurve :
    ∃ R SS AA BB AB, multiplyPoints smallCurve { x := some 0, y := some 1 } 1 { x := some 4, y := some 5 } 1 = .ok R ∧
      toAffine smallCurve R = .ok SS ∧ multiplyPointA smallCurve { x := some 0, y := some 1 } 1 = .ok AA ∧
      multiplyPointA smallCurve { x := some 4, y := some 5 } 1 = .ok BB ∧ addPointsA smallCurve AA BB = .ok AB ∧ SS.x = AB.x ∧
      SS.y = AB.y := by
  have hP : 1 < addOrderOf smallPoint := by rw [addOrderOf_smallPoint]; decide
  have hQ : 1 < addOrderOf smallDouble := by rw [addOrderOf_smallDouble]; decide
  refine (multiplyPoints_agrees_iff smallCurve_a affine_smallPoint smallPoint_ne_zero affine_smallDouble smallDouble_ne_zero hP hQ).mpr
    ⟨smallPoint_ne_smallDouble, smallPoint_ne_neg_smallDouble, ?_, ?_, ?_⟩
  · have hsum : (0 : smallCurve.curve.Point) + 0 ≠ smallPoint + smallDouble := fun h =>
      smallPoint_ne_neg_smallDouble (eq_neg_of_add_eq_zero_left (h.symm.trans (add_zero 0)))
    have hsteps : sumSteps smallPoint smallDouble 1 1 (max (bitLength 1) (bitLength 1)) = [.double, .add (smallPoint + smallDouble)] := rfl
    rw [hsteps, lost, lost, if_neg hsum, lost]
  · rw [one_nsmul, one_nsmul]
    exact smallPoint_ne_smallDouble
  · rw [one_nsmul, one_nsmul]
    exact smallPoint_ne_neg_smallDouble

end EcCore

end Java
