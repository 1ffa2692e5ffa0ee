import Keyczar.Lib.Base64

/-!
# Strings of the C++ library

`std::string::substr` throws when it starts behind the end of the string. Its arguments are of type `size_t`; the library computes
many of them as an `int`, and a negative `int` becomes a `size_t` that no string is as long as.
-/

namespace Cpp

open Bytes

/-- What may escape from a call: a position behind the end of a string, and a size that no string has. -/
inductive Exception where
  | outOfRange
  | lengthError
  deriving DecidableEq, Repr

/-- The `int` that a length or an arithmetic result becomes, in two's complement. -/
def toInt (x : Int) : Int := x.bmod (2 ^ 32)

/-- A `size_t`: `npos` is any that no string is as long as. -/
inductive Size where
  | of (n : Nat)
  | npos
  deriving DecidableEq, Repr

/-- The `size_t` that an `int` becomes. -/
def Size.ofInt (x : Int) : Size := if x < 0 then .npos else .of x.toNat

/-- Is a length smaller? -/
def Size.exceeds : Size → Nat → Bool
  | .of n, len => len < n
  | .npos, _ => true

/-- The first bytes of a string, as many as there are. -/
def Size.take : Size → Bytes → Bytes
  | .of n, s => s.take n
  | .npos, s => s

/-- `substr(pos, n)`. -/
def substr (s : Bytes) (pos : Size) (n : Size := .npos) : Except Exception Bytes :=
  match pos with
  | .npos => .error .outOfRange
  | .of p => if s.length < p then .error .outOfRange else .ok (n.take (s.drop p))

/-- `resize`: what is new is zeros. -/
def resize (s : Bytes) (n : Nat) : Bytes := s.take n ++ List.replicate (n - s.length) 0

/-- `Base64WEncode`: nothing is encoded as a failure. -/
def base64WEncode (s : Bytes) : Option Bytes := if s.isEmpty then none else some (Base64.encode Base64.webSafe s)

/-- `Base64WDecode`, of what was encoded. -/
def base64WDecode (s : Bytes) : Option Bytes := (Base64.decode Base64.webSafe s).filter (!·.isEmpty)

/-- `Int32ToByteString`, of a length. -/
def int32ToByteString (num : Nat) : Bytes := be32 num

/-- `ByteStringToInt32`. -/
def byteStringToInt32 (str : Bytes) (offset : Nat) : Option Int :=
  if str.length < offset + 4 then none else (readBe32 ((str.drop offset).take 4)).map int32

/-- `SafeStringEquals`. -/
def safeStringEquals (s1 s2 : Bytes) : Bool := constantTimeEq s1 s2

/-- What is not empty is encoded. -/
theorem base64WEncode_eq {s : Bytes} (h : 0 < s.length) : base64WEncode s = some (Base64.encode Base64.webSafe s) := by
  cases s with
  | nil => cases h
  | cons b s => rfl

/-- Decoding undoes encoding. -/
theorem base64WDecode_encode {s : Bytes} (h : 0 < s.length) : base64WDecode (Base64.encode Base64.webSafe s) = some s := by
  rw [base64WDecode, Base64.decode_encode]
  cases s with
  | nil => cases h
  | cons b s => rfl

/-! ## When a cut throws -/

/-- A cut that starts in the string, or at its end. -/
theorem substr_of_le {s : Bytes} {p : Nat} (h : p ≤ s.length) (n : Size) : substr s (.of p) n = .ok (n.take (s.drop p)) :=
  if_neg (Nat.not_lt.mpr h)

/-- A cut that starts behind the end. -/
theorem substr_of_lt {s : Bytes} {p : Nat} (h : s.length < p) (n : Size) : substr s (.of p) n = .error .outOfRange := if_pos h

theorem Size.ofInt_of_neg {x : Int} (h : x < 0) : Size.ofInt x = .npos := if_pos h

@[simp] theorem Size.ofInt_natCast (n : Nat) : Size.ofInt n = .of n := by
  rw [Size.ofInt, if_neg (Int.not_lt.mpr (Int.natCast_nonneg n)), Int.toNat_natCast]

theorem toInt_of_lt {n : Nat} (h : n < 2 ^ 31) : toInt n = n := by
  unfold toInt
  rw [Int.bmod_eq_of_le] <;> omega

/-- An `int` is congruent to what it was made from, and in its range. -/
theorem toInt_emod (x : Int) : toInt x % 2 ^ 32 = x % 2 ^ 32 := Int.bmod_emod

theorem toInt_lt (x : Int) : toInt x < 2 ^ 31 := by
  have hlt : toInt x < ((2 ^ 32 : Nat) + 1) / 2 := Int.bmod_lt (by decide)
  exact hlt

theorem neg_le_toInt (x : Int) : -(2 ^ 31) ≤ toInt x := Int.le_bmod (by decide)

/-- Only the low 32 bits are read. -/
theorem toInt_mod (n : Nat) : toInt (n % 2 ^ 32 : Nat) = toInt n := by
  rw [Int.natCast_mod]
  exact Int.emod_bmod n (2 ^ 32)

/-- A number in the upper half of the range is negative. -/
theorem toInt_neg {x : Int} (h : 2 ^ 31 ≤ x) (h' : x < 2 ^ 32) : toInt x < 0 := by
  have hmod := toInt_emod x
  have hlt := toInt_lt x
  omega

/-- The bytes of a number are read as the `int` of their bits. -/
theorem int32_eq_toInt (n : Nat) : int32 n = toInt n := by
  have hmod := toInt_emod n
  have hlt := toInt_lt n
  have hle := neg_le_toInt n
  unfold int32
  split <;> omega

theorem toInt_add_toInt (x y : Int) : toInt (x + toInt y) = toInt (x + y) := by
  unfold toInt
  exact Int.add_bmod_bmod

theorem toInt_sub_toInt (x y : Int) : toInt (toInt x - y) = toInt (x - y) := by
  unfold toInt
  exact Int.bmod_sub_bmod

end Cpp
