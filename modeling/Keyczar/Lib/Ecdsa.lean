import Mathlib.Data.Int.ModEq
import Mathlib.GroupTheory.OrderOfElement
import Mathlib.Tactic.Ring

/-!
# Signatures over an element of finite order

A signature over `g` is a pair of numbers modulo the order `n`: `r` is a number of the point `k • g` of a nonce `k`, and `s` is such that
`s * k` is `e + d * r`, for the number `e` of what is signed and the key `d`. From the pair and the public point `d • g` that point is
computed again.
-/

namespace Ecdsa

variable {G : Type} [AddCommGroup G] {g w : G} {n : Nat}

/-- The point that is computed from a number, the first half of a signature, and the inverse of the second. -/
def point (g w : G) (n : Nat) (e r c : Int) : G := (e * c % n) • g + (r * c % n) • w

/-- A multiple depends on the scalar modulo the order. -/
theorem zsmul_eq_of_modEq (hg : n • g = 0) {a b : Int} (h : a ≡ b [ZMOD n]) : a • g = b • g := by
  have hdvd : (addOrderOf g : Int) ∣ n := Int.natCast_dvd_natCast.mpr (addOrderOf_dvd_iff_nsmul_eq_zero.mpr hg)
  exact zsmul_eq_zsmul_iff_modEq.mpr (h.of_dvd hdvd)

theorem point_eq (hg : n • g = 0) (hw : n • w = 0) (e r c : Int) : point g w n e r c = (e * c) • g + (r * c) • w := by
  rw [point, zsmul_eq_of_modEq hg (Int.mod_modEq _ _), zsmul_eq_of_modEq hw (Int.mod_modEq _ _)]

theorem nsmul_zsmul_eq_zero (hg : n • g = 0) (d : Int) : n • d • g = 0 := by
  rw [smul_comm, hg, smul_zero]

/-- From a signature the point of its nonce is computed. -/
theorem point_of_signature (hg : n • g = 0) {e r s c d k : Int} (hs : s * k ≡ e + d * r [ZMOD n]) (hc : c * s ≡ 1 [ZMOD n]) :
    point g (d • g) n e r c = k • g := by
  have hsum : (e * c + r * c * d : Int) ≡ k [ZMOD n] := by
    calc e * c + r * c * d = c * (e + d * r) := by ring
      _ ≡ c * (s * k) [ZMOD n] := hs.symm.mul_left c
      _ = c * s * k := by ring
      _ ≡ 1 * k [ZMOD n] := hc.mul_right k
      _ = k := one_mul k
  rw [point_eq hg (nsmul_zsmul_eq_zero hg d), smul_smul, ← add_smul]
  exact zsmul_eq_of_modEq hg hsum

/-- From a signature with the opposite second half the opposite point is. -/
theorem point_neg (hg : n • g = 0) (hw : n • w = 0) {e r c c' : Int} (hc : c' ≡ -c [ZMOD n]) :
    point g w n e r c' = -point g w n e r c := by
  rw [point_eq hg hw, point_eq hg hw, neg_add, ← neg_smul, ← neg_smul, ← mul_neg, ← mul_neg]
  exact congrArg₂ (· + ·) (zsmul_eq_of_modEq hg (hc.mul_left e)) (zsmul_eq_of_modEq hw (hc.mul_left r))

end Ecdsa
