import Keyczar.Java.EcCore
import Keyczar.Lib.Throwing
import Mathlib.Algebra.Order.Floor.Div
import Mathlib.NumberTheory.Bertrand

/-!
# Points as bytes

A coordinate takes as many bytes as the field needs: the bytes of an integer lose what stands in front, or get zeros there. What is
written into an array is the same where the array has zeros. A point is read back as long as the number of bits of the field is
below the greatest `int` by seven.
-/

namespace Java

namespace EcCore

open Bytes Throwing

/-! ## Arrays -/

theorem newBytes_natCast (n : Nat) : newBytes n = .ok (List.replicate n 0) := by
  rw [newBytes, if_neg (by omega), Int.toNat_natCast]

/-- A copy that fits. -/
theorem arraycopy_ok {src dest : Bytes} (i j n : Nat) {srcPos destPos length : Int} (hsrcPos : srcPos = i) (hdestPos : destPos = j)
    (hlength : length = n) (hsrc : i + n ≤ src.length) (hdest : j + n ≤ dest.length) :
    arraycopy src srcPos dest destPos length = .ok (overwrite dest j ((src.drop i).take n)) := by
  subst hsrcPos hdestPos hlength
  rw [arraycopy, if_neg (by omega), Int.toNat_natCast, Int.toNat_natCast, Int.toNat_natCast]

/-! ## Coordinates -/

/-- There are primes of every number of bits but one. -/
theorem exists_prime_bitLength (n : Nat) (h : 1 ≤ n) : ∃ p, p.Prime ∧ bitLength p = n + 1 := by
  obtain ⟨p, hp, hlt, hle⟩ := Nat.exists_prime_lt_and_le_two_mul (2 ^ n) (Nat.two_pow_pos n).ne'
  have hle' : p ≤ 2 ^ (n + 1) := by rw [pow_succ]; omega
  have hne : p ≠ 2 ^ (n + 1) := by
    rintro rfl
    exact Nat.Prime.not_prime_pow (by omega) hp
  refine ⟨p, hp, le_antisymm (Nat.size_le.mpr (lt_of_le_of_ne hle' hne)) ?_⟩
  exact Nat.lt_size.mpr hlt.le

/-- Bytes brought to a length: what stands in front is taken away, or zeros are put there. -/
def toLength (len : Nat) (s : Bytes) : Bytes :=
  if len < s.length then s.drop (s.length - len) else List.replicate (len - s.length) 0 ++ s

@[simp] theorem length_toLength (len : Nat) (s : Bytes) : (toLength len s).length = len := by
  unfold toLength
  split
  · rw [List.length_drop]
    omega
  · rw [List.length_append, List.length_replicate]
    omega

/-- A number that has no more bytes is not changed. -/
theorem ofBytes_toLength_natBytes {n len : Nat} (h : n < 256 ^ len) : BigEndian.ofBytes (toLength len (TwosComplement.natBytes n)) = n := by
  obtain ⟨k, hk⟩ := TwosComplement.exists_natBytes_eq n
  have hlen := BigEndian.length_toBytes_le h
  rw [hk]
  unfold toLength
  split
  · rw [List.drop_append_of_le_length, List.drop_replicate, BigEndian.ofBytes_zeros_append, BigEndian.ofBytes_toBytes]
    rw [List.length_append, List.length_replicate]
    omega
  · rw [BigEndian.ofBytes_zeros_append, BigEndian.ofBytes_zeros_append, BigEndian.ofBytes_toBytes]

/-- The end of more bytes is copied. -/
theorem arraycopy_end {s data : Bytes} {len off : Nat} {srcPos destPos : Int} (hsrcPos : srcPos = s.length - len) (hdestPos : destPos = off)
    (h : len < s.length) (hfits : off + len ≤ data.length) :
    arraycopy s srcPos data destPos len = .ok (overwrite data off (toLength len s)) := by
  refine (arraycopy_ok (s.length - len) off len (by omega) hdestPos rfl (by omega) hfits).trans (congrArg Except.ok ?_)
  rw [toLength, if_pos h, List.take_of_length_le (by rw [List.length_drop]; omega)]

/-- Fewer bytes are copied behind zeros that are there. -/
theorem arraycopy_behind {s data : Bytes} {len off : Nat} {destPos : Int} (hdestPos : destPos = len - s.length + off)
    (h : s.length ≤ len) (hfits : off + len ≤ data.length) (hzeros : (data.drop off).take len = List.replicate len 0) :
    arraycopy s 0 data destPos s.length = .ok (overwrite data off (toLength len s)) := by
  have hfront : overwrite data off (List.replicate (len - s.length) 0) = data := by
    refine overwrite_same ?_
    have htake := congrArg (List.take (len - s.length)) hzeros
    rw [List.take_take, List.take_replicate, Nat.min_eq_left (by omega)] at htake
    rw [List.length_replicate]
    exact htake
  have hback := overwrite_overwrite (s := data) (v := List.replicate (len - s.length) 0) (w := s) (n := off)
    (by rw [List.length_replicate]; omega)
  rw [hfront, List.length_replicate] at hback
  refine (arraycopy_ok 0 (off + (len - s.length)) s.length rfl (by omega) rfl (by omega) (by omega)).trans (congrArg Except.ok ?_)
  rw [List.drop_zero, List.take_length, hback, toLength, if_neg (by omega)]

section

variable {params : ECParameterSpec} (hp : bitLength params.p + 7 < 2 ^ 31)

/-- The bytes that a coordinate takes. -/
def fieldBytes (params : ECParameterSpec) : Nat := bitLength params.p ⌈/⌉ 8

include hp in
theorem fieldLength_eq : fieldLength params = fieldBytes params := by
  have hcast : ((bitLength params.p : Int) + 7) = ((bitLength params.p + 7 : Nat) : Int) := by omega
  rw [fieldLength, hcast, toInt32_of_lt hp, fieldBytes, Nat.ceilDiv_eq_add_pred_div]
  exact (Int.ofNat_tdiv _ 8).symm

theorem lt_pow_fieldBytes {n : Nat} (h : n < params.p) : n < 256 ^ fieldBytes params := by
  have hsize : params.p < 2 ^ bitLength params.p := Nat.lt_size_self _
  have hle : bitLength params.p ≤ 8 * fieldBytes params := by
    rw [fieldBytes, Nat.ceilDiv_eq_add_pred_div]
    omega
  calc n < 2 ^ bitLength params.p := h.trans hsize
    _ ≤ 2 ^ (8 * fieldBytes params) := Nat.pow_le_pow_right (by decide) hle
    _ = 256 ^ fieldBytes params := by rw [pow_mul]; rfl

include hp in
/-- Every integer is brought to the length of the field. -/
theorem fieldElemToBytes_spec (a : Int) : fieldElemToBytes params a = .ok (toLength (fieldBytes params) (TwosComplement.toBytes a)) := by
  unfold fieldElemToBytes
  rw [fieldLength_eq hp]
  generalize TwosComplement.toBytes a = s
  generalize fieldBytes params = len
  have hnew : (List.replicate len (0 : UInt8)).length = len := List.length_replicate
  have hall : overwrite (List.replicate len 0) 0 (toLength len s) = toLength len s := overwrite_to_end (by simp)
  rcases Nat.lt_trichotomy len s.length with hlt | rfl | hlt
  · have hcopy : arraycopy s (s.length - (List.replicate len (0 : UInt8)).length) (List.replicate len 0) (0 : Nat) len =
        .ok (overwrite (List.replicate len 0) 0 (toLength len s)) :=
      arraycopy_end (by omega) rfl hlt (by omega)
    rw [hall] at hcopy
    rw [if_pos (by omega), newBytes_natCast]
    show arraycopy s _ _ 0 (List.replicate len (0 : UInt8)).length = _
    rw [hnew] at hcopy ⊢
    exact hcopy
  · rw [if_neg (by omega), if_neg (by omega), toLength, if_neg (by omega), Nat.sub_self]
    rfl
  · have hcopy : arraycopy s 0 (List.replicate len 0) ((List.replicate len (0 : UInt8)).length - s.length) s.length =
        .ok (overwrite (List.replicate len 0) 0 (toLength len s)) :=
      arraycopy_behind (by omega) hlt.le (by omega) (by simp)
    rw [hall] at hcopy
    rw [if_neg (by omega), if_pos (by omega), newBytes_natCast]
    exact hcopy

include hp in
/-- In place the same bytes are written, where there were zeros. -/
theorem fieldElemToBytesAt_spec (a : Int) {data : Bytes} {off : Nat} (hfits : off + fieldBytes params ≤ data.length)
    (hzeros : (data.drop off).take (fieldBytes params) = List.replicate (fieldBytes params) 0) :
    fieldElemToBytesAt params a data off =
      .ok (overwrite data off (toLength (fieldBytes params) (TwosComplement.toBytes a)), (fieldBytes params : Int)) := by
  unfold fieldElemToBytesAt
  rw [fieldLength_eq hp]
  generalize TwosComplement.toBytes a = s
  generalize fieldBytes params = len at *
  rcases Nat.lt_trichotomy len s.length with hlt | rfl | hlt
  · rw [if_pos (by omega), arraycopy_end rfl rfl hlt hfits]
    rfl
  · rw [if_neg (by omega), if_neg (by omega), arraycopy_behind (by omega) (le_refl _) hfits hzeros]
    rfl
  · rw [if_neg (by omega), if_pos (by omega), arraycopy_behind rfl hlt.le hfits hzeros]
    rfl

/-! ## Points -/

include hp in
theorem fieldBytes_lt : 1 + fieldBytes params + fieldBytes params < 2 ^ 31 := by
  rw [fieldBytes, Nat.ceilDiv_eq_add_pred_div]
  omega

include hp in
/-- A point is the byte four and its coordinates. -/
theorem ecPointToBytes_spec (x y : Int) :
    ecPointToBytes params x y =
      .ok (0x04 ::
        (toLength (fieldBytes params) (TwosComplement.toBytes x) ++ toLength (fieldBytes params) (TwosComplement.toBytes y))) := by
  have hlt := fieldBytes_lt hp
  have hx := length_toLength (fieldBytes params) (TwosComplement.toBytes x)
  have hy := length_toLength (fieldBytes params) (TwosComplement.toBytes y)
  rw [ecPointToBytes, fieldElemToBytes_spec hp, fieldElemToBytes_spec hp, ok_bind, ok_bind]
  generalize toLength (fieldBytes params) (TwosComplement.toBytes x) = fe1 at *
  generalize toLength (fieldBytes params) (TwosComplement.toBytes y) = fe2 at *
  generalize fieldBytes params = len at *
  have hsize : toInt32 (1 + fe1.length + fe2.length) = ((1 + len + len : Nat) : Int) := by
    have hcast : (1 + (fe1.length : Int) + fe2.length) = ((1 + len + len : Nat) : Int) := by omega
    rw [hcast, toInt32_of_lt hlt]
  have hset : (List.replicate (1 + len + len) (0 : UInt8)).set 0 0x04 = 0x04 :: List.replicate (len + len) 0 := by
    rw [Nat.add_assoc, Nat.add_comm 1, List.replicate_succ, List.set_cons_zero]
  have hlen : (0x04 :: List.replicate (len + len) (0 : UInt8)).length = 1 + len + len := by simp; omega
  have hfirst : arraycopy fe1 0 (0x04 :: List.replicate (len + len) 0) 1 fe1.length =
      .ok (overwrite (0x04 :: List.replicate (len + len) 0) 1 fe1) := by
    refine (arraycopy_ok 0 1 fe1.length rfl rfl rfl (by omega) (by omega)).trans (congrArg Except.ok ?_)
    rw [List.drop_zero, List.take_length]
  have hsecond : arraycopy fe2 0 (overwrite (0x04 :: List.replicate (len + len) 0) 1 fe1) (1 + fe1.length) fe2.length =
      .ok (0x04 :: (fe1 ++ fe2)) := by
    refine (arraycopy_ok 0 (1 + fe1.length) fe2.length rfl (by omega) rfl (by omega) ?_).trans (congrArg Except.ok ?_)
    · rw [length_overwrite (by omega)]
      omega
    · rw [List.drop_zero, List.take_length, overwrite_overwrite (by omega), overwrite_to_end (by rw [List.length_append]; omega)]
      rfl
  rw [hsize, newBytes_natCast, ok_bind, hset]
  dsimp only
  rw [hfirst, ok_bind, hsecond]

include hp in
/-- Coordinates of the length of the field are read back. -/
theorem bytesToECPoint_spec {fe1 fe2 : Bytes} (h1 : fe1.length = fieldBytes params) (h2 : fe2.length = fieldBytes params) :
    bytesToECPoint params (0x04 :: (fe1 ++ fe2)) = .ok ((BigEndian.ofBytes fe1 : Int), (BigEndian.ofBytes fe2 : Int)) := by
  have hnew : (List.replicate (fieldBytes params) (0 : UInt8)).length = fieldBytes params := List.length_replicate
  have hlen : (0x04 :: (fe1 ++ fe2)).length = 1 + fieldBytes params + fieldBytes params := by
    rw [List.length_cons, List.length_append]
    omega
  have hfirst : arraycopy (0x04 :: (fe1 ++ fe2)) 1 (List.replicate (fieldBytes params) 0) 0
      (List.replicate (fieldBytes params) (0 : UInt8)).length = .ok fe1 := by
    refine (arraycopy_ok 1 0 (fieldBytes params) rfl rfl (by omega) (by omega) (by omega)).trans (congrArg Except.ok ?_)
    rw [List.drop_succ_cons, List.drop_zero, ← h1, List.take_left, overwrite_to_end (by rw [List.length_replicate, Nat.zero_add])]
    rfl
  have hsecond : arraycopy (0x04 :: (fe1 ++ fe2)) (1 + fe1.length) fe1 0 fe1.length = .ok fe2 := by
    refine (arraycopy_ok (fe1.length + 1) 0 fe1.length (by omega) rfl rfl (by omega) (by omega)).trans (congrArg Except.ok ?_)
    rw [List.drop_succ_cons, List.drop_left, List.take_of_length_le (by omega), overwrite_to_end (by omega)]
    rfl
  rw [bytesToECPoint, if_neg (by decide), if_neg (by decide), if_pos rfl, fieldLength_eq hp, newBytes_natCast, ok_bind,
    hfirst, ok_bind, hsecond]
  rfl

/-- A coordinate is read back from its bytes. -/
theorem ofBytes_toLength_toBytes {x : Int} (hx : 0 ≤ x) (hlt : x < params.p) :
    (BigEndian.ofBytes (toLength (fieldBytes params) (TwosComplement.toBytes x)) : Int) = x := by
  obtain ⟨n, rfl⟩ := Int.eq_ofNat_of_zero_le hx
  exact congrArg Nat.cast (ofBytes_toLength_natBytes (lt_pow_fieldBytes (by exact_mod_cast hlt)))

include hp in
/-- Points are encoded in a length that the field gives, and read back; and a coordinate is written in place as it is returned. -/
theorem point_encoding_round_trip :
    (∀ x y : Int, 0 ≤ x → x < params.p → 0 ≤ y → y < params.p →
      ∃ bytes, ecPointToBytes params x y = .ok bytes ∧ bytes.length = 1 + 2 * (bitLength params.p ⌈/⌉ 8) ∧
        bytesToECPoint params bytes = .ok (x, y)) ∧
    ∀ (a : Int) (data : Bytes) (off : Nat), off + (bitLength params.p ⌈/⌉ 8) ≤ data.length →
      (∀ b ∈ (data.drop off).take (bitLength params.p ⌈/⌉ 8), b = 0) →
      ∃ bytes, fieldElemToBytes params a = .ok bytes ∧
        fieldElemToBytesAt params a data off = .ok (overwrite data off bytes, (bytes.length : Int)) := by
  constructor
  · intro x y hx hxlt hy hylt
    refine ⟨_, ecPointToBytes_spec hp x y, ?_, ?_⟩
    · rw [List.length_cons, List.length_append, length_toLength, length_toLength, fieldBytes]
      omega
    · rw [bytesToECPoint_spec hp (length_toLength _ _) (length_toLength _ _), ofBytes_toLength_toBytes hx hxlt,
        ofBytes_toLength_toBytes hy hylt]
  · intro a data off hfits hzeros
    refine ⟨_, fieldElemToBytes_spec hp a, ?_⟩
    rw [length_toLength]
    refine fieldElemToBytesAt_spec hp a hfits (List.eq_replicate_iff.mpr ⟨?_, hzeros⟩)
    rw [List.length_take, List.length_drop]
    exact Nat.min_eq_left (Nat.le_sub_of_add_le' hfits)

end

/-- Parameters over a field of nine bits. -/
def nineBits : ECParameterSpec := { p := 257, a := -3, b := 1 }

theorem bitLength_nineBits : bitLength nineBits.p = 9 := le_antisymm (Nat.size_le.mpr (by decide)) (Nat.lt_size.mpr (by decide))

theorem point_encoding_nineBits :
    (∃ bytes, ecPointToBytes nineBits 3 256 = .ok bytes ∧ bytes.length = 5 ∧ bytesToECPoint nineBits bytes = .ok (3, 256)) ∧
      ∃ bytes, fieldElemToBytes nineBits (-1) = .ok bytes ∧
        fieldElemToBytesAt nineBits (-1) [0, 0, 0, 0] 2 = .ok (overwrite [0, 0, 0, 0] 2 bytes, (bytes.length : Int)) := by
  have hp : bitLength nineBits.p + 7 < 2 ^ 31 := by rw [bitLength_nineBits]; decide
  have hlen : bitLength nineBits.p ⌈/⌉ 8 = 2 := by rw [bitLength_nineBits]; rfl
  obtain ⟨hpoints, helements⟩ := point_encoding_round_trip hp
  rw [hlen] at hpoints helements
  constructor
  · exact hpoints 3 256 (by decide) (by decide) (by decide) (by decide)
  · exact helements (-1) [0, 0, 0, 0] 2 (by decide) (by simp)

/-- Over a field of seven bits less than two to the thirty-first, no point is encoded. -/
theorem largest_field_throws :
    ∃ p, p.Prime ∧ bitLength p = 2 ^ 31 - 7 ∧
      ecPointToBytes { p := p, a := -3, b := 1 } 0 0 = .error (.runtime .negativeArraySize) := by
  obtain ⟨p, hp, hbits⟩ := exists_prime_bitLength (2 ^ 31 - 8) (by decide)
  have hbits' : bitLength p = 2147483641 := hbits
  refine ⟨p, hp, hbits', ?_⟩
  have hlen : fieldLength { p := p, a := -3, b := 1 } = -268435456 := by
    rw [fieldLength, hbits']
    decide
  have hthrows : fieldElemToBytes { p := p, a := -3, b := 1 } 0 = .error (.runtime .negativeArraySize) := by
    unfold fieldElemToBytes
    rw [hlen, if_pos (by omega)]
    rfl
  rw [ecPointToBytes, hthrows]
  rfl

end EcCore

end Java
