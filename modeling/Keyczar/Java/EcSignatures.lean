import Keyczar.Java.EcSignature
import Keyczar.Lib.Ecdsa

/-!
# The numbers of signatures over curves

What is signed with which nonce, and exactly which pairs of numbers are accepted: those whose point has the first number, where the point
is the one that the multiplication computes. Where that loses nothing it is the point of the nonce.
-/

namespace Java

namespace EcSignatureImpl

open EcCore Throwing
open DoubleAndAdd (apply lost)

/-! ## Curves with a generator -/

/-- The generator of the parameters is a point of prime order. -/
structure IsDomain (params : DomainParameters) [Fact params.p.Prime] (g : params.curve.Point) : Prop where
  a : (params.a : ZMod params.p) = -3
  generator : IsAffine params.generator g
  order : addOrderOf g = params.order
  prime : params.order.Prime

variable {params : DomainParameters} [Fact params.p.Prime] {g w : params.curve.Point}

theorem IsDomain.nsmul_order (D : IsDomain params g) : params.order • g = 0 := by
  rw [← D.order]
  exact addOrderOf_nsmul_eq_zero g

/-- The number of a point: its first coordinate modulo the order. -/
def number : params.curve.Point → Int
  | .zero => 0
  | .some x _ _ => (x.val : Int) % params.order

/-- Opposite points have one number. -/
theorem number_neg (A : params.curve.Point) : number (-A) = number A := by
  cases A with
  | zero => rfl
  | some x y h => rfl

theorem number_nonneg (A : params.curve.Point) : 0 ≤ number A := by
  cases A with
  | zero => exact le_refl 0
  | some x y h => exact Int.emod_nonneg _ (Int.natCast_ne_zero.mpr params.order_pos.ne')

theorem number_lt (A : params.curve.Point) : number A < params.order := by
  have hpos : (0 : Int) < params.order := by exact_mod_cast params.order_pos
  cases A with
  | zero => exact hpos
  | some x y h => exact Int.emod_lt_of_pos _ hpos

/-- The number of a point at infinity is not computed. -/
theorem toAffineX_zero {R : JacobianPoint} {A : params.curve.Point} (h : Represents R A) (hA : A = 0) :
    toAffineX params.toECParameterSpec R = .error .arithmetic := by
  have hz : ((R.z ^ 2 : Int) : ZMod params.p) = 0 := by rw [h.z_eq_zero_iff.mpr hA]; simp
  rw [toAffineX, modInverse_zero hz]
  rfl

/-- The number of any other point is. -/
theorem toAffineX_spec {R : JacobianPoint} {A : params.curve.Point} (h : Represents R A) (hA : A ≠ 0) :
    ∃ R' x, toAffineX params.toECParameterSpec R = .ok R' ∧ R'.x = some x ∧ x % params.order = number A := by
  obtain ⟨R', haffine, x, y, hns, hx, -, hpos, hlt, -, -, rfl⟩ := toAffine_spec h hA
  obtain ⟨R₁, hfirst, hrest⟩ := ok_of_bind haffine
  obtain ⟨i, -, hrest⟩ := ok_of_bind hrest
  obtain ⟨Y, -, hrest⟩ := ok_of_bind hrest
  cases hrest
  refine ⟨R₁, x, hfirst, hx, ?_⟩
  rw [number, ZMod.val_intCast, Int.emod_eq_of_lt hpos hlt]

/-! ## Keys -/

theorem toAffine_affine {R : JacobianPoint} {A : params.curve.Point} (h : Represents R A) (hA : A ≠ 0) :
    ∃ R', toAffine params.toECParameterSpec R = .ok R' ∧ IsAffine { x := R'.x, y := R'.y } A := by
  obtain ⟨R', haffine, x, y, hns, hx, hy, -, -, -, -, rfl⟩ := toAffine_spec h hA
  exact ⟨R', haffine, x, y, hns, by rw [hx, hy], rfl⟩

/-- The keys of a pair that is generated belong together. -/
theorem generateKeyPair_spec (D : IsDomain params g) {draws : List Nat} {publicKey : ECPublicKey} {privateKey : ECPrivateKey}
    (h : generateKeyPair params draws = some (.ok (publicKey, privateKey))) :
    ∃ S : Nat, 1 ≤ S ∧ S < params.order ∧ privateKey = { S, params } ∧ publicKey.params = params ∧ IsAffine publicKey.W (S • g) := by
  induction draws with
  | nil => cases h
  | cons draw draws ih =>
    rw [generateKeyPair] at h
    have hlt := Nat.mod_lt draw params.order_pos
    generalize draw % params.order = S at *
    by_cases hS : S = 0
    · rw [if_pos hS] at h
      exact ih h
    · rw [if_neg hS] at h
      have hpos : 1 ≤ S := Nat.pos_of_ne_zero hS
      have hlt' : S < addOrderOf g := D.order ▸ hlt
      obtain ⟨R, hR, hrest⟩ := ok_of_bind (Option.some.inj h)
      obtain ⟨Q, hQ, hrest⟩ := ok_of_bind hrest
      cases hrest
      obtain ⟨R', hR', hrepresents⟩ := multiplyPoint_spec D.a D.generator S
      obtain rfl := Except.ok.inj (hR.symm.trans hR')
      rw [foldl_apply_nafSteps (D.order ▸ D.prime) hpos hlt'] at hrepresents
      refine ⟨S, hpos, hlt, rfl, rfl, ?_⟩
      by_cases hlast : addOrderOf g % 4 = 1 ∧ S = addOrderOf g - 2
      · rw [if_pos hlast] at hrepresents
        rw [toAffine_zero hrepresents rfl] at hQ
        cases hQ
      · rw [if_neg hlast] at hrepresents
        obtain ⟨Q', hQ', haffine⟩ := toAffine_affine hrepresents (nsmul_ne_zero_of_lt hpos hlt')
        obtain rfl := Except.ok.inj (hQ.symm.trans hQ')
        exact haffine

/-! ## Inverses modulo the order -/

/-- What `modInverse` returns. -/
def inverse (x : Int) (m : Nat) : Int := Int.gcdA x m % m

theorem modInverse_spec {n : Nat} (hn : n.Prime) {x : Int} (hpos : 0 < x) (hlt : x < n) :
    modInverse x n = .ok (inverse x n) ∧ inverse x n * x ≡ 1 [ZMOD n] := by
  have hx : (x : ZMod n) ≠ 0 := by
    rw [ne_eq, ZMod.intCast_zmod_eq_zero_iff_dvd]
    exact fun hdvd => absurd (Int.le_of_dvd hpos hdvd) (not_le.mpr hlt)
  obtain ⟨i, hi, hinverse⟩ := @modInverse_ok { p := n, a := 0, b := 0 } ⟨hn⟩ x hx
  have heq : i = inverse x n := by
    unfold modInverse at hi
    split at hi
    · exact (Except.ok.inj hi).symm
    · cases hi
  rw [hi, heq]
  refine ⟨rfl, ?_⟩
  rw [← ZMod.intCast_eq_intCast_iff, Int.cast_mul, ← heq, Int.cast_one]
  exact hinverse

/-! ## Signing -/

/-- The nonce whose point is computed as the one at infinity. -/
def Lost (n k : Nat) : Prop := n % 4 = 1 ∧ k = n - 2

instance (n k : Nat) : Decidable (Lost n k) := inferInstanceAs (Decidable (_ ∧ _))

/-- The second number that a nonce gives. -/
def secondNumber (g : params.curve.Point) (S : Int) (e k : Nat) : Int := inverse k params.order * (e + S * number (k • g)) % params.order

/-- The nonces for which a loop goes on. -/
def Skips (g : params.curve.Point) (S : Int) (e k : Nat) : Prop :=
  k = 0 ∨ (¬Lost params.order k ∧ (number (k • g) = 0 ∨ secondNumber g S e k = 0))

/-- What a turn of the loops does. -/
theorem tryNonce_spec (D : IsDomain params g) (key : ECPrivateKey) (e : Nat) {k : Nat} (hlt : k < params.order) :
    (Skips g key.S e k → tryNonce params (some key) e k = .ok none) ∧
      (¬Skips g key.S e k → tryNonce params (some key) e k =
        if Lost params.order k then .error .arithmetic else .ok (some (number (k • g), secondNumber g key.S e k))) := by
  by_cases hk : k = 0
  · exact ⟨fun _ => if_pos hk, fun h => absurd (Or.inl hk) h⟩
  have hpos : 1 ≤ k := Nat.pos_of_ne_zero hk
  have hlt' : k < addOrderOf g := D.order ▸ hlt
  have hprime : (addOrderOf g).Prime := D.order ▸ D.prime
  obtain ⟨R, hR, hrepresents⟩ := multiplyPoint_spec D.a D.generator k
  rw [foldl_apply_nafSteps hprime hpos hlt', D.order] at hrepresents
  unfold tryNonce
  rw [if_neg hk, hR, ok_bind]
  by_cases hlost : Lost params.order k
  · have hskips : ¬Skips g key.S e k := fun h => h.elim hk fun h => h.1 hlost
    have hlast : params.order % 4 = 1 ∧ k = params.order - 2 := hlost
    rw [if_pos hlast] at hrepresents
    rw [toAffineX_zero hrepresents rfl, if_pos hlost]
    exact ⟨fun h => absurd h hskips, fun _ => rfl⟩
  · have hlast : ¬(params.order % 4 = 1 ∧ k = params.order - 2) := hlost
    rw [if_neg hlast] at hrepresents
    obtain ⟨R', x, haffine, hx, hnumber⟩ := toAffineX_spec hrepresents (nsmul_ne_zero_of_lt hpos hlt')
    obtain ⟨hinverse, -⟩ := modInverse_spec D.prime (x := k) (by exact_mod_cast hpos) (by exact_mod_cast hlt)
    rw [haffine, ok_bind, hx, if_neg hlost]
    simp only [EcCore.get, ok_bind, hnumber]
    by_cases hzero : number (k • g) = 0
    · rw [if_pos hzero]
      exact ⟨fun _ => rfl, fun h => absurd (Or.inr ⟨hlost, Or.inl hzero⟩) h⟩
    · rw [if_neg hzero, hinverse, ok_bind, nonNull, ok_bind]
      have hsecond : inverse k params.order * (e + key.S * number (k • g)) % params.order = secondNumber g key.S e k := rfl
      rw [hsecond]
      by_cases hzero' : secondNumber g key.S e k = 0
      · rw [if_pos hzero']
        exact ⟨fun _ => rfl, fun h => absurd (Or.inr ⟨hlost, Or.inr hzero'⟩) h⟩
      · rw [if_neg hzero']
        exact ⟨fun h => (h.elim hk fun h => h.2.elim hzero hzero').elim, fun _ => rfl⟩

/-- What the loops end with for a nonce. -/
def nonceResult (g : params.curve.Point) (S : Int) (e k : Nat) : Except Thrown (Int × Int) :=
  if Lost params.order k then .error .arithmetic else .ok (number (k • g), secondNumber g S e k)

theorem signLoop_of_skips (D : IsDomain params g) (key : ECPrivateKey) {e draw : Nat} (draws : List Nat)
    (h : Skips g key.S e (draw % params.order)) :
    signLoop params (some key) e (draw :: draws) = signLoop params (some key) e draws := by
  rw [signLoop, (tryNonce_spec D key e (Nat.mod_lt draw params.order_pos)).1 h]

theorem signLoop_of_not_skips (D : IsDomain params g) (key : ECPrivateKey) {e draw : Nat} (draws : List Nat)
    (h : ¬Skips g key.S e (draw % params.order)) :
    signLoop params (some key) e (draw :: draws) = some (nonceResult g key.S e (draw % params.order)) := by
  rw [signLoop, (tryNonce_spec D key e (Nat.mod_lt draw params.order_pos)).2 h, nonceResult]
  by_cases hlost : Lost params.order (draw % params.order)
  · rw [if_pos hlost, if_pos hlost]
  · rw [if_neg hlost, if_neg hlost]

/-- The loops go on over the numbers that are drawn up to the first one that gives a signature or is lost. -/
theorem signLoop_iff (D : IsDomain params g) (key : ECPrivateKey) (e : Nat) (draws : List Nat) (result : Except Thrown (Int × Int)) :
    signLoop params (some key) e draws = some result ↔
      ∃ skipped draw rest, draws = skipped ++ draw :: rest ∧ (∀ d ∈ skipped, Skips g key.S e (d % params.order)) ∧
        ¬Skips g key.S e (draw % params.order) ∧ result = nonceResult g key.S e (draw % params.order) := by
  induction draws with
  | nil =>
    constructor
    · intro h
      cases h
    · rintro ⟨skipped, draw, rest, hdraws, -⟩
      exact absurd hdraws.symm (List.append_ne_nil_of_right_ne_nil _ (List.cons_ne_nil _ _))
  | cons d draws ih =>
    by_cases h : Skips g key.S e (d % params.order)
    · rw [signLoop_of_skips D key draws h, ih]
      constructor
      · rintro ⟨skipped, draw, rest, rfl, hskipped, hlast⟩
        exact ⟨d :: skipped, draw, rest, rfl, List.forall_mem_cons.mpr ⟨h, hskipped⟩, hlast⟩
      · rintro ⟨skipped, draw, rest, hdraws, hskipped, hlast⟩
        cases skipped with
        | nil =>
          cases hdraws
          exact absurd h hlast.1
        | cons d' skipped =>
          cases hdraws
          exact ⟨skipped, draw, rest, rfl, (List.forall_mem_cons.mp hskipped).2, hlast⟩
    · rw [signLoop_of_not_skips D key draws h]
      constructor
      · intro heq
        exact ⟨[], d, draws, rfl, List.forall_mem_nil _, h, (Option.some.inj heq).symm⟩
      · rintro ⟨skipped, draw, rest, hdraws, hskipped, -, rfl⟩
        cases skipped with
        | nil =>
          cases hdraws
          rfl
        | cons d' skipped =>
          cases hdraws
          exact absurd (List.forall_mem_cons.mp hskipped).1 h

/-- What is signed with a nonce. -/
structure IsSignature (g : params.curve.Point) (S : Int) (e : Nat) (r s : Int) : Prop where
  r_pos : 1 ≤ r
  r_lt : r < params.order
  s_pos : 1 ≤ s
  s_lt : s < params.order
  nonce : ∃ k : Nat, r = number (k • g) ∧ k • g ≠ 0 ∧ s * k ≡ e + S * r [ZMOD params.order]

/-- What the loops return is a signature. -/
theorem IsSignature.of_signLoop (D : IsDomain params g) {key : ECPrivateKey} {e : Nat} {draws : List Nat} {r s : Int}
    (h : signLoop params (some key) e draws = some (.ok (r, s))) : IsSignature g key.S e r s := by
  obtain ⟨skipped, draw, rest, -, -, hskips, hresult⟩ := (signLoop_iff D key e draws _).mp h
  have hlt := Nat.mod_lt draw params.order_pos
  generalize draw % params.order = k at *
  unfold nonceResult at hresult
  by_cases hlost : Lost params.order k
  · rw [if_pos hlost] at hresult
    cases hresult
  · rw [if_neg hlost] at hresult
    cases hresult
    have hk : k ≠ 0 := fun hk => hskips (Or.inl hk)
    have hr : number (k • g) ≠ 0 := fun hr => hskips (Or.inr ⟨hlost, Or.inl hr⟩)
    have hs : secondNumber g key.S e k ≠ 0 := fun hs => hskips (Or.inr ⟨hlost, Or.inr hs⟩)
    have hpos : (0 : Int) < params.order := by exact_mod_cast params.order_pos
    refine ⟨lt_of_le_of_ne (number_nonneg _) hr.symm, number_lt _,
      lt_of_le_of_ne (Int.emod_nonneg _ hpos.ne') hs.symm, Int.emod_lt_of_pos _ hpos, k, rfl, ?_, ?_⟩
    · exact nsmul_ne_zero_of_lt (Nat.pos_of_ne_zero hk) (D.order ▸ hlt)
    · obtain ⟨-, hinverse⟩ := modInverse_spec D.prime (x := k) (by exact_mod_cast Nat.pos_of_ne_zero hk) (by exact_mod_cast hlt)
      calc secondNumber g key.S e k * k ≡ inverse k params.order * (e + key.S * number (k • g)) * k [ZMOD params.order] :=
            (Int.mod_modEq _ _).mul_right k
        _ = inverse k params.order * k * (e + key.S * number (k • g)) := by ring
        _ ≡ 1 * (e + key.S * number (k • g)) [ZMOD params.order] := hinverse.mul_right _
        _ = e + key.S * number (k • g) := one_mul _

/-! ## Verifying -/

/-- The scalars that a verification multiplies by. -/
def firstScalar (n : Nat) (e s : Int) : Nat := (e * inverse s n % n).toNat

def secondScalar (n : Nat) (r s : Int) : Nat := (r * inverse s n % n).toNat

/-- The steps of the multiplication in a verification. -/
def verifySteps (g w : params.curve.Point) (e : Nat) (r s : Int) : List (DoubleAndAdd.Step params.curve.Point) :=
  sumSteps g w (firstScalar params.order e s) (secondScalar params.order r s)
    (max (bitLength (firstScalar params.order e s)) (bitLength (secondScalar params.order r s)))

/-- The point that the multiplication in a verification computes. -/
def computed (g w : params.curve.Point) (e : Nat) (r s : Int) : params.curve.Point := (verifySteps g w e r s).foldl apply 0

/-- Numbers that a signature may have. -/
def InRange (n : Nat) (r s : Int) : Prop := 1 ≤ r ∧ r < n ∧ 1 ≤ s ∧ s < n

omit [Fact params.p.Prime] in
/-- Other numbers are refused. -/
theorem verifyNumbers_of_not_inRange {r s : Int} (h : ¬InRange params.order r s) (publicKey : Option ECPublicKey) (e : Nat) :
    verifyNumbers params publicKey e r s = .ok false := by
  unfold verifyNumbers
  dsimp only
  by_cases hr : r < 1 ∨ (params.order : Int) ≤ r
  · rw [if_pos hr]
  · obtain ⟨hr1, hrn⟩ := not_or.mp hr
    have hs : s < 1 ∨ (params.order : Int) ≤ s := by
      by_contra hs
      obtain ⟨hs1, hsn⟩ := not_or.mp hs
      exact h ⟨not_lt.mp hr1, not_le.mp hrn, not_lt.mp hs1, not_le.mp hsn⟩
    rw [if_neg hr, if_pos hs]

/-- With the generator or its opposite as the public point every verification throws. -/
theorem verifyNumbers_of_same (D : IsDomain params g) {key : ECPublicKey} (hW : IsAffine key.W w) (hsame : g = w ∨ g = -w) {r s : Int}
    (h : InRange params.order r s) (e : Nat) : verifyNumbers params (some key) e r s = .error .arithmetic := by
  obtain ⟨hr1, hrn, hs1, hsn⟩ := h
  obtain ⟨hinverse, -⟩ := modInverse_spec D.prime (by omega) hsn
  unfold verifyNumbers
  dsimp only
  rw [if_neg (by omega), if_neg (by omega), hinverse, ok_bind]
  rw [nonNull, ok_bind, multiplyPoints, addPointsA_error D.generator hW hsame]
  rfl

/-- With another public point the number of the point that is computed is compared, and it throws where that is at infinity. -/
theorem verifyNumbers_of_different (D : IsDomain params g) {key : ECPublicKey} (hW : IsAffine key.W w) (hne : g ≠ w) (hneg : g ≠ -w)
    {r s : Int} (h : InRange params.order r s) (e : Nat) :
    (computed g w e r s = 0 → verifyNumbers params (some key) e r s = .error .arithmetic) ∧
      (computed g w e r s ≠ 0 → verifyNumbers params (some key) e r s = .ok (decide (number (computed g w e r s) = r))) := by
  obtain ⟨hr1, hrn, hs1, hsn⟩ := h
  obtain ⟨hinverse, -⟩ := modInverse_spec D.prime (by omega) hsn
  obtain ⟨R, hR, hrepresents⟩ := multiplyPoints_spec D.a D.generator hW hne hneg (firstScalar params.order e s)
    (secondScalar params.order r s)
  unfold verifyNumbers
  dsimp only
  rw [if_neg (by omega), if_neg (by omega), hinverse, ok_bind]
  rw [nonNull, ok_bind]
  unfold firstScalar secondScalar at hR
  rw [hR, ok_bind]
  constructor
  · intro hzero
    rw [toAffineX_zero hrepresents hzero]
    rfl
  · intro hnonzero
    obtain ⟨R', x, haffine, hx, hnumber⟩ := toAffineX_spec hrepresents hnonzero
    rw [haffine, ok_bind, hx, EcCore.get, ok_bind, hnumber]
    rfl

/-- A pair of numbers is accepted exactly where the point that is computed has the first of them, for a public point that is not the
generator nor its opposite; and it throws, for numbers in range, exactly where there is no such point. -/
theorem verifyNumbers_iff (D : IsDomain params g) {key : ECPublicKey} (hW : IsAffine key.W w) (e : Nat) (r s : Int) :
    (verifyNumbers params (some key) e r s = .ok true ↔
      InRange params.order r s ∧ g ≠ w ∧ g ≠ -w ∧ computed g w e r s ≠ 0 ∧ number (computed g w e r s) = r) ∧
    ((∃ t, verifyNumbers params (some key) e r s = .error t) ↔
      InRange params.order r s ∧ (g = w ∨ g = -w ∨ computed g w e r s = 0)) := by
  by_cases h : InRange params.order r s
  · by_cases hsame : g = w ∨ g = -w
    · rw [verifyNumbers_of_same D hW hsame h e]
      refine ⟨⟨nofun, ?_⟩, ⟨fun _ => ⟨h, hsame.imp_right Or.inl⟩, fun _ => ⟨_, rfl⟩⟩⟩
      rintro ⟨-, hne, hneg, -⟩
      exact (hsame.elim hne hneg).elim
    · obtain ⟨hne, hneg⟩ := not_or.mp hsame
      obtain ⟨hthrows, hcompares⟩ := verifyNumbers_of_different D hW hne hneg h e
      by_cases hzero : computed g w e r s = 0
      · rw [hthrows hzero]
        refine ⟨⟨nofun, ?_⟩, ⟨fun _ => ⟨h, Or.inr (Or.inr hzero)⟩, fun _ => ⟨_, rfl⟩⟩⟩
        rintro ⟨-, -, -, hnonzero, -⟩
        exact absurd hzero hnonzero
      · rw [hcompares hzero]
        constructor
        · rw [Except.ok.injEq, decide_eq_true_iff]
          exact ⟨fun hnumber => ⟨h, hne, hneg, hzero, hnumber⟩, fun h => h.2.2.2.2⟩
        · refine ⟨?_, ?_⟩
          · rintro ⟨t, ht⟩
            cases ht
          · rintro ⟨-, hsame | hsame | hzero'⟩
            · exact absurd hsame hne
            · exact absurd hsame hneg
            · exact absurd hzero' hzero
  · rw [verifyNumbers_of_not_inRange h]
    refine ⟨⟨?_, fun hok => absurd hok.1 h⟩, ⟨?_, fun hthrows => absurd hthrows.1 h⟩⟩
    · intro heq
      cases heq
    · rintro ⟨t, ht⟩
      cases ht

/-! ## What is accepted -/

/-- The public point is not the generator nor its opposite, and the multiplication loses nothing. -/
structure Uneventful (g w : params.curve.Point) (e : Nat) (r s : Int) : Prop where
  ne : g ≠ w
  ne_neg : g ≠ -w
  lost : lost 0 (verifySteps g w e r s) = 0

theorem toNat_nsmul_emod (A : params.curve.Point) (x : Int) : (x % params.order).toNat • A = (x % params.order) • A := by
  have hnonneg : 0 ≤ x % params.order := Int.emod_nonneg _ (Int.natCast_ne_zero.mpr params.order_pos.ne')
  rw [← natCast_zsmul, Int.toNat_of_nonneg hnonneg]

/-- Where nothing is lost, the point is the one of the scheme. -/
theorem Uneventful.computed_eq {e : Nat} {r s : Int} (h : Uneventful g w e r s) :
    computed g w e r s = Ecdsa.point g w params.order e r (inverse s params.order) := by
  rw [computed, (DoubleAndAdd.foldl_apply_eq_iff _ _).mpr h.lost, verifySteps, foldl_exact_zero_sumSteps, firstScalar, secondScalar,
    toNat_nsmul_emod, toNat_nsmul_emod, Ecdsa.point]

/-- What was signed with a key is accepted with the point of the key. -/
theorem verifyNumbers_of_signature (D : IsDomain params g) {S : Int} {key : ECPublicKey} (hW : IsAffine key.W (S • g)) {e : Nat} {r s : Int}
    (hsignature : IsSignature g S e r s) (h : Uneventful g (S • g) e r s) : verifyNumbers params (some key) e r s = .ok true := by
  obtain ⟨k, hr, hnonzero, hnonce⟩ := hsignature.nonce
  obtain ⟨-, hinverse⟩ := modInverse_spec D.prime (Int.lt_of_lt_of_le Int.zero_lt_one hsignature.s_pos) hsignature.s_lt
  have hpoint : computed g (S • g) e r s = k • g := by
    rw [h.computed_eq, Ecdsa.point_of_signature D.nsmul_order hnonce hinverse, natCast_zsmul]
  refine (verifyNumbers_iff D hW e r s).1.mpr ⟨⟨hsignature.r_pos, hsignature.r_lt, hsignature.s_pos, hsignature.s_lt⟩, h.ne, h.ne_neg, ?_⟩
  rw [hpoint]
  exact ⟨hnonzero, hr.symm⟩

/-! ### On the small curve -/

/-- The small curve with its point of order five. -/
abbrev smallDomain : DomainParameters where
  toECParameterSpec := smallCurve
  generator := { x := some 0, y := some 1 }
  order := 5
  order_pos := by decide

theorem isDomain_small : IsDomain smallDomain smallPoint where
  a := smallCurve_a
  generator := isAffine_smallPoint
  order := addOrderOf_smallPoint
  prime := Nat.prime_five

theorem two_zsmul_smallPoint : (2 : Int) • smallPoint = smallDouble := two_zsmul _

theorem isAffine_smallDouble : IsAffine { x := some 4, y := some 5 } smallDouble := affine_smallDouble.affine smallDouble_ne_zero

theorem number_smallDouble : @number smallDomain _ smallDouble = 4 := by
  obtain ⟨x, y, hns, heq, hA⟩ := isAffine_smallDouble
  cases heq
  rw [hA]
  rfl

theorem number_two_smallPoint : @number smallDomain _ (2 • smallPoint) = 4 := (congrArg _ smallDouble_eq).symm.trans number_smallDouble

theorem zero_add_zero_ne_smallDouble : (0 : smallCurve.curve.Point) + 0 ≠ smallDouble := fun h =>
  smallDouble_ne_zero (h.symm.trans (add_zero 0))

/-- What is signed with the key two and the nonce two. -/
theorem isSignature_small {e : Nat} {s : Int} (hpos : 1 ≤ s) (hlt : s < 5) (hs : s * 2 ≡ e + 2 * 4 [ZMOD 5]) :
    @IsSignature smallDomain _ smallPoint 2 e 4 s where
  r_pos := by decide
  r_lt := by decide
  s_pos := hpos
  s_lt := hlt
  nonce := by
    refine ⟨2, ?_, ?_, hs⟩
    · exact (number_smallDouble.symm.trans (congrArg _ smallDouble_eq))
    · exact smallDouble_eq ▸ smallDouble_ne_zero

theorem generateKeyPair_small : generateKeyPair smallDomain [0, 2] =
    some (.ok ({ W := { x := some 4, y := some 5 }, params := smallDomain }, { S := 2, params := smallDomain })) := by
  obtain ⟨R, hR, hrepresents⟩ := multiplyPoint_spec smallCurve_a isAffine_smallPoint 2
  have hprime : (addOrderOf smallPoint).Prime := addOrderOf_smallPoint ▸ Nat.prime_five
  have hlast : ¬(addOrderOf smallPoint % 4 = 1 ∧ 2 = addOrderOf smallPoint - 2) := by
    rw [addOrderOf_smallPoint]
    decide
  rw [foldl_apply_nafSteps hprime (by decide) (by rw [addOrderOf_smallPoint]; decide), if_neg hlast, ← smallDouble_eq] at hrepresents
  obtain ⟨Q, hQ, hreduced⟩ := toAffine_spec hrepresents smallDouble_ne_zero
  obtain ⟨hx, hy⟩ := hreduced.eq affine_smallDouble
  have hzero : 0 % smallDomain.order = 0 := rfl
  have htwo : ¬2 % smallDomain.order = 0 := by decide
  rw [generateKeyPair, if_pos hzero, generateKeyPair, if_neg htwo]
  have hR' : multiplyPoint smallDomain.toECParameterSpec smallDomain.generator (2 % smallDomain.order) = .ok R := hR
  have hQ' : toAffine smallDomain.toECParameterSpec R = .ok Q := hQ
  rw [hR', ok_bind, hQ', ok_bind, hx, hy]
  rfl

theorem inverse_five {x i : Int} (hpos : 0 < x) (hlt : x < 5) (hi : 0 ≤ i) (hilt : i < 5) (h : ((i * x : Int) : ZMod 5) = 1) :
    inverse x 5 = i := by
  obtain ⟨hinverse, -⟩ := modInverse_spec Nat.prime_five hpos hlt
  have heq := @modInverse_eq { p := 5, a := 0, b := 0 } ⟨Nat.prime_five⟩ x i hi hilt h
  exact Except.ok.inj (hinverse.symm.trans heq)

theorem secondNumber_small : @secondNumber smallDomain _ smallPoint 2 0 2 = 4 := by
  have hinverse : inverse 2 5 = 3 := inverse_five (by decide) (by decide) (by decide) (by decide) (by decide)
  unfold secondNumber
  rw [number_two_smallPoint]
  exact congrArg (fun i : Int => i * (0 + 2 * 4) % 5) hinverse

theorem not_skips_small : ¬@Skips smallDomain _ smallPoint 2 0 2 := by
  rintro (h | ⟨-, h | h⟩)
  · cases h
  · rw [number_two_smallPoint] at h
    cases h
  · rw [secondNumber_small] at h
    cases h

theorem uneventful_0_4_4 : @Uneventful smallDomain _ smallPoint smallDouble 0 4 4 where
  ne := smallPoint_ne_smallDouble
  ne_neg := smallPoint_ne_neg_smallDouble
  lost := by
    have hinverse : inverse 4 5 = 4 := inverse_five (by decide) (by decide) (by decide) (by decide) (by decide)
    have hsteps : @verifySteps smallDomain _ smallPoint smallDouble 0 4 4 = [.double, .add smallDouble] := by
      unfold verifySteps firstScalar secondScalar
      rw [hinverse]
      rfl
    rw [hsteps, lost, lost, if_neg zero_add_zero_ne_smallDouble, lost]

theorem uneventful_0_4_1 : @Uneventful smallDomain _ smallPoint smallDouble 0 4 1 where
  ne := smallPoint_ne_smallDouble
  ne_neg := smallPoint_ne_neg_smallDouble
  lost := by
    have hinverse : inverse 1 5 = 1 := inverse_five (by decide) (by decide) (by decide) (by decide) (by decide)
    have hsteps : @verifySteps smallDomain _ smallPoint smallDouble 0 4 1 = [.double, .add smallDouble, .double, .double] := by
      unfold verifySteps firstScalar secondScalar
      rw [hinverse]
      rfl
    rw [hsteps, lost, lost, if_neg zero_add_zero_ne_smallDouble, lost, lost, lost]

/-- With the opposite second number a pair of numbers is accepted as well. -/
theorem verifyNumbers_opposite (D : IsDomain params g) {key : ECPublicKey} (hW : IsAffine key.W w) (hw : params.order • w = 0) {e : Nat}
    {r s : Int} (haccepted : verifyNumbers params (some key) e r s = .ok true) (h : Uneventful g w e r s)
    (h' : Uneventful g w e r (params.order - s)) : verifyNumbers params (some key) e r (params.order - s) = .ok true := by
  obtain ⟨⟨hr1, hrn, hs1, hsn⟩, hne, hneg, hnonzero, hnumber⟩ := (verifyNumbers_iff D hW e r s).1.mp haccepted
  obtain ⟨-, hinverse⟩ := modInverse_spec D.prime (x := s) (by omega) hsn
  obtain ⟨-, hinverse'⟩ := modInverse_spec D.prime (x := params.order - s) (by omega) (by omega)
  -- both are inverses of the one number, up to the sign
  have hopposite : inverse (params.order - s) params.order ≡ -inverse s params.order [ZMOD params.order] := by
    have hsub : (params.order - s : Int) ≡ -s [ZMOD params.order] := by
      simpa using (Int.modEq_zero_iff_dvd.mpr (dvd_refl (params.order : Int))).sub_right s
    generalize inverse (params.order - s) params.order = i' at *
    generalize inverse s params.order = i at *
    calc i' ≡ i' * 1 [ZMOD params.order] := by rw [mul_one]
      _ ≡ i' * (i * s) [ZMOD params.order] := hinverse.symm.mul_left i'
      _ = -(i * (i' * -s)) := by ring
      _ ≡ -(i * (i' * (params.order - s))) [ZMOD params.order] := ((hsub.symm.mul_left i').mul_left i).neg
      _ ≡ -(i * 1) [ZMOD params.order] := (hinverse'.mul_left i).neg
      _ = -i := by rw [mul_one]
  have hpoint : computed g w e r (params.order - s) = -computed g w e r s := by
    rw [h.computed_eq, h'.computed_eq, Ecdsa.point_neg D.nsmul_order hw hopposite]
  refine (verifyNumbers_iff D hW e r _).1.mpr ⟨⟨hr1, hrn, by omega, by omega⟩, hne, hneg, ?_⟩
  rw [hpoint, number_neg]
  exact ⟨neg_ne_zero.mpr hnonzero, hnumber⟩

theorem verifyNumbers_opposite_small :
    verifyNumbers smallDomain (some { W := { x := some 4, y := some 5 }, params := smallDomain }) 0 4 1 = .ok true := by
  have hsignature : @IsSignature smallDomain _ smallPoint 2 0 4 4 := isSignature_small (by decide) (by decide) (by decide)
  have hW : IsAffine { x := some 4, y := some 5 } ((2 : Int) • smallPoint) := two_zsmul_smallPoint ▸ isAffine_smallDouble
  have haccepted := @verifyNumbers_of_signature smallDomain _ _ isDomain_small 2
    { W := { x := some 4, y := some 5 }, params := smallDomain } hW 0 4 4 hsignature (two_zsmul_smallPoint ▸ uneventful_0_4_4)
  have hw : 5 • smallDouble = 0 := by
    rw [← addOrderOf_smallDouble]
    exact addOrderOf_nsmul_eq_zero _
  exact @verifyNumbers_opposite smallDomain _ _ _ isDomain_small { W := { x := some 4, y := some 5 }, params := smallDomain }
    isAffine_smallDouble hw 0 4 4 haccepted uneventful_0_4_4 uneventful_0_4_1

end EcSignatureImpl

end Java
