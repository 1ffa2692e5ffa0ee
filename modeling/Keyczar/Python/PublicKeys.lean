import Keyczar.Python.RsaKeys
import Keyczar.Python.StreamReader

/-!
# Reading the public keys of `keys.py`

The parameters of a public key are kept as they are decoded. Its identifier is a hash of them without the zeros in front.
-/

namespace Python

open Bytes

variable (P : Primitives)

/-! ## RSA -/

/-- `Read`, of the fields of the key. -/
def RsaPublicKey.read (modulus publicExponent : Bytes) (size : Int) : Except PyError RsaPublicKey := do
  let modulus ← base64WSDecode modulus
  let publicExponent ← base64WSDecode publicExponent
  return { modulus, publicExponent, size := setSize .rsaPub size }

def RsaPublicKey.hashId (k : RsaPublicKey) : Bytes := base64WSEncode (k.hash P)

/-- The parameters that `Generate` gives the public key of a pair. -/
def RsaPublicKey.generated (n e : Nat) (size : Int) : RsaPublicKey where
  modulus := padBytes (bigIntToBytes n) 1
  publicExponent := padBytes (bigIntToBytes e) 1
  size := setSize .rsaPub size

/-! ## DSA -/

/-- A DSA public key. -/
structure DsaPublicKey where
  y : Bytes
  p : Bytes
  g : Bytes
  q : Bytes
  size : Int := KeyType.dsaPub.defaultSize
  deriving DecidableEq, Repr

namespace DsaPublicKey

/-- The bytes of the hash identifier. -/
def hash (k : DsaPublicKey) : Bytes :=
  (prefixHash P [trimBytes k.p, trimBytes k.q, trimBytes k.g, trimBytes k.y]).take KEY_HASH_SIZE

def hashId (k : DsaPublicKey) : Bytes := base64WSEncode (k.hash P)

/-- `Read`, of the fields of the key. -/
def read (p q g y : Bytes) (size : Int) : Except PyError DsaPublicKey := do
  let y ← base64WSDecode y
  let p ← base64WSDecode p
  let g ← base64WSDecode g
  let q ← base64WSDecode q
  return { y, p, g, q, size := setSize .dsaPub size }

end DsaPublicKey

/-! ## Trimming -/

/-- Of bytes that stand for a positive number, trimming leaves its own bytes. -/
theorem trimBytes_of_pos {s : Bytes} (h : 0 < BigEndian.ofBytes s) : trimBytes s = BigEndian.toBytes (BigEndian.ofBytes s) := by
  have hne : BigEndian.strip s ≠ [] := by
    intro hnil
    rw [← BigEndian.ofBytes_strip, hnil] at h
    exact absurd h (lt_irrefl 0)
  rw [trimBytes, if_neg hne, BigEndian.toBytes_ofBytes]

end Python
