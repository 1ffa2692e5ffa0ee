import Keyczar.Cpp.Keyset
import Keyczar.Lib.BigEndian
import Keyczar.Lib.Throwing

/-!
# The public keys of the C++ library

The parameters of a public key become numbers of OpenSSL. They are written out again with a zero in front, and `AddToHash` cuts off the
zeros in front of a field before it is hashed. A field of zeros only makes that cut throw.
-/

namespace Cpp

open Bytes

/-! ## Fields of a hash -/

/-- `AddToHash`, as it is called without `trim_zeros`: what it adds for a field. -/
def Key.addToHash (field : Bytes) : Except Exception Bytes := do
  let trimmedField ← substr field (findFirstNotOf field 0)
  return AESKey.addToHash trimmedField

theorem findFirstNotOf_zeros (k : Nat) : findFirstNotOf (List.replicate k 0) 0 = .npos := by
  have hnone : (List.replicate k (0 : UInt8)).findIdx? (· ≠ 0) = none := by
    rw [List.findIdx?_eq_none_iff]
    intro b hb
    rw [List.eq_of_mem_replicate hb]
    rfl
  rw [findFirstNotOf, hnone]

theorem findFirstNotOf_zeros_append (k : Nat) {b : UInt8} (hb : b ≠ 0) (s : Bytes) :
    findFirstNotOf (List.replicate k 0 ++ b :: s) 0 = .of k := by
  have hsome : (List.replicate k 0 ++ b :: s).findIdx? (· ≠ 0) = some k := by
    induction k with
    | zero => rw [List.replicate_zero, List.nil_append, List.findIdx?_cons, if_pos (by simpa using hb)]
    | succ k ih =>
      rw [List.replicate_succ, List.cons_append, List.findIdx?_cons, if_neg (by decide), ih]
      rfl
  rw [findFirstNotOf, hsome]

/-- Cutting a string at its first byte that is not zero: there is one, or the cut throws. -/
theorem substr_findFirstNotOf (s : Bytes) :
    substr s (findFirstNotOf s 0) = if BigEndian.strip s = [] then .error .outOfRange else .ok (BigEndian.strip s) := by
  obtain ⟨k, hk⟩ := BigEndian.eq_zeros_append_strip s
  cases hstrip : BigEndian.strip s with
  | nil =>
    rw [hstrip, List.append_nil] at hk
    rw [hk, findFirstNotOf_zeros]
    rfl
  | cons b t =>
    rw [hstrip] at hk
    have hle : k ≤ (List.replicate k 0 ++ b :: t).length := by
      rw [List.length_append, List.length_replicate]
      exact Nat.le_add_right _ _
    rw [hk, findFirstNotOf_zeros_append k (BigEndian.ne_zero_of_strip_cons hstrip), substr_of_le hle, if_neg (List.cons_ne_nil b t),
      List.drop_left' List.length_replicate]
    rfl

/-- `RSAIntermediateKey`, as far as public keys go. -/
structure RSAIntermediateKey where
  n : Bytes
  e : Bytes
  deriving DecidableEq, Repr

/-- `RSAOpenSSL`, of a public key. -/
structure RSAOpenSSL where
  n : Nat
  e : Nat
  deriving DecidableEq, Repr

namespace RSAOpenSSL

/-- `Create`, with `BN_bin2bn` for each number. -/
def create (key : RSAIntermediateKey) : RSAOpenSSL where
  n := BigEndian.ofBytes key.n
  e := BigEndian.ofBytes key.e

/-- `GetPublicAttributes`. -/
def getPublicAttributes (r : RSAOpenSSL) : RSAIntermediateKey where
  n := 0 :: BigEndian.toBytes r.n
  e := 0 :: BigEndian.toBytes r.e

/-- `Size`. -/
def size (r : RSAOpenSSL) : Int := (BigEndian.toBytes r.n).length * 8

end RSAOpenSSL

/-- The sizes of RSA keys. -/
def kRSASizes : List Int := [1024, 2048, 3072, 4096]

/-- `RSAPublicKey`. -/
structure RSAPublicKey where
  rsaImpl : RSAOpenSSL
  size : Int
  deriving DecidableEq, Repr

namespace RSAPublicKey

/-- `CreateFromValue`, of the fields of the key. -/
def createFromValue (modulus publicExponent : Bytes) (size : Int) : Option RSAPublicKey := do
  let n ← base64WDecode modulus
  let e ← base64WDecode publicExponent
  let rsaPublicKeyImpl := RSAOpenSSL.create { n, e }
  if size ≠ rsaPublicKeyImpl.size ∨ !kRSASizes.contains size then none
  else some { rsaImpl := rsaPublicKeyImpl, size }

/-- `Hash`. -/
def hash (P : Primitives) (k : RSAPublicKey) : Except Exception (Option Bytes) := do
  let key := k.rsaImpl.getPublicAttributes
  let n ← Key.addToHash key.n
  let e ← Key.addToHash key.e
  return base64WEncode ((P.sha1 (n ++ e)).take kKeyHashSize)

end RSAPublicKey

/-! ## DSA -/

/-- `DSAIntermediateKey`, as far as public keys go. -/
structure DSAIntermediateKey where
  p : Bytes
  q : Bytes
  g : Bytes
  y : Bytes
  deriving DecidableEq, Repr

/-- `DSAOpenSSL`, of a public key. -/
structure DSAOpenSSL where
  p : Nat
  q : Nat
  g : Nat
  pubKey : Nat
  deriving DecidableEq, Repr

namespace DSAOpenSSL

/-- `Create`. -/
def create (key : DSAIntermediateKey) : DSAOpenSSL where
  p := BigEndian.ofBytes key.p
  q := BigEndian.ofBytes key.q
  g := BigEndian.ofBytes key.g
  pubKey := BigEndian.ofBytes key.y

/-- `GetPublicAttributes`. -/
def getPublicAttributes (d : DSAOpenSSL) : DSAIntermediateKey where
  p := 0 :: BigEndian.toBytes d.p
  q := 0 :: BigEndian.toBytes d.q
  g := 0 :: BigEndian.toBytes d.g
  y := 0 :: BigEndian.toBytes d.pubKey

/-- `Size`. -/
def size (d : DSAOpenSSL) : Int := (BigEndian.toBytes d.p).length * 8

end DSAOpenSSL

/-- The sizes of DSA keys. -/
def kDSASizes : List Int := [1024, 2048, 3072]

/-- `DSAPublicKey`. -/
structure DSAPublicKey where
  dsaImpl : DSAOpenSSL
  size : Int
  deriving DecidableEq, Repr

namespace DSAPublicKey

/-- `CreateFromValue`, of the fields of the key. -/
def createFromValue (p q g y : Bytes) (size : Int) : Option DSAPublicKey := do
  let p ← base64WDecode p
  let q ← base64WDecode q
  let g ← base64WDecode g
  let y ← base64WDecode y
  let dsaPublicKeyImpl := DSAOpenSSL.create { p, q, g, y }
  if size ≠ dsaPublicKeyImpl.size ∨ !kDSASizes.contains size then none
  else some { dsaImpl := dsaPublicKeyImpl, size }

/-- `Hash`. -/
def hash (P : Primitives) (k : DSAPublicKey) : Except Exception (Option Bytes) := do
  let key := k.dsaImpl.getPublicAttributes
  let p ← Key.addToHash key.p
  let q ← Key.addToHash key.q
  let g ← Key.addToHash key.g
  let y ← Key.addToHash key.y
  return base64WEncode ((P.sha1 (p ++ q ++ g ++ y)).take kKeyHashSize)

end DSAPublicKey

end Cpp
