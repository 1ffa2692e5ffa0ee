import Keyczar.Lib.Cbc

/-!
# The cryptographic primitives

The three implementations call the same primitives of three different libraries: the AES block function, the SHA hash
functions and HMAC over them. They are one parameter of the development; only their lengths, and that AES decryption undoes AES
encryption, are assumed.
-/

/-- The hash functions that a key names. -/
inductive Digest where
  | sha1 | sha224 | sha256 | sha384 | sha512
  deriving DecidableEq, Repr

/-- The length of the hash in bytes. -/
def Digest.size : Digest → Nat
  | .sha1 => 20
  | .sha224 => 28
  | .sha256 => 32
  | .sha384 => 48
  | .sha512 => 64

/-- No hash is shorter than that of SHA-1. -/
theorem Digest.le_size (d : Digest) : 20 ≤ d.size := by
  cases d <;> decide

theorem Digest.size_le (d : Digest) : d.size ≤ 64 := by
  cases d <;> decide

/-- The primitives: AES under each key, the hash functions, and HMAC under each key. -/
structure Primitives where
  aes : Bytes → Cbc.BlockCipher 16
  hash : Digest → Bytes → Bytes
  hmac : Digest → Bytes → Bytes → Bytes
  length_hash : ∀ d m, (hash d m).length = d.size
  length_hmac : ∀ d k m, (hmac d k m).length = d.size

attribute [simp] Primitives.length_hash Primitives.length_hmac

namespace Primitives

/-- HMAC-SHA1. -/
def hmacSha1 (P : Primitives) (key msg : Bytes) : Bytes := P.hmac .sha1 key msg

@[simp] theorem length_hmacSha1 (P : Primitives) (key msg : Bytes) : (P.hmacSha1 key msg).length = 20 :=
  P.length_hmac .sha1 key msg

/-- SHA-1. -/
def sha1 (P : Primitives) (msg : Bytes) : Bytes := P.hash .sha1 msg

@[simp] theorem length_sha1 (P : Primitives) (msg : Bytes) : (P.sha1 msg).length = 20 :=
  P.length_hash .sha1 msg

/-- A string cut or filled with zeros to a length. -/
def fit (n : Nat) (s : Bytes) : Bytes := (s ++ List.replicate n 0).take n

@[simp] theorem length_fit (n : Nat) (s : Bytes) : (fit n s).length = n := by
  simp [fit]

/-- Primitives one can compute with by hand: AES is the identity, a hash is the start of what is hashed, and HMAC is the start
of its key. Two keys that start differently make different tags. -/
def plain : Primitives where
  aes _ :=
    { encrypt := id
      decrypt := id
      length_encrypt := fun _ h => h
      length_decrypt := fun _ h => h
      decrypt_encrypt := fun _ _ => rfl }
  hash d m := fit d.size m
  hmac d k _ := fit d.size k
  length_hash _ _ := length_fit _ _
  length_hmac _ _ _ := length_fit _ _

end Primitives
