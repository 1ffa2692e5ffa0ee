import Keyczar.Python.Keys
import Keyczar.Java.Collisions
import Keyczar.Cpp.AESRuns

/-!
# Ciphertexts across the implementations

An AES key with HMAC-SHA1 as the three implementations hold it. All encrypt to the common format, and all decrypt it; they differ only
in where the initial vector comes from. The lengths of arrays in Java and of strings in OpenSSL are `int`s, which bounds the plaintexts
that this holds for.
-/

namespace Interop

open Bytes

/-- An AES key of a valid length with an HMAC-SHA1 key that every platform accepts. -/
structure SharedKey where
  aesBytes : Bytes
  hmacBytes : Bytes
  valid : Cpp.validKeyLength aesBytes.length
  hmac_ne_nil : hmacBytes ≠ []

namespace SharedKey

variable (P : Primitives) (k : SharedKey)

theorem aes_ne_nil : k.aesBytes ≠ [] := by
  intro h
  have hvalid := k.valid
  rw [h] at hvalid
  cases hvalid

/-- The key of the Python library. -/
def python : Python.AesKey := { keyBytes := k.aesBytes, hmacKey := { keyBytes := k.hmacBytes } }

/-- The key of the Java library, in the mode that all keys are generated for. -/
def java : Java.AesKey where
  aesBytes := k.aesBytes
  hmacKey := { keyBytes := k.hmacBytes, ne_nil := k.hmac_ne_nil }
  mode := .cbc
  ne_nil := k.aes_ne_nil

/-- The key of the C++ library. -/
def cpp : Cpp.AESKey where
  aesImpl := { key := k.aesBytes, valid := k.valid }
  hmacKey := { keyBytes := k.hmacBytes, digest := .sha1 }

/-- The hash of the key. -/
def hash : Bytes := (P.sha1 (be32 k.aesBytes.length ++ k.aesBytes ++ k.hmacBytes)).take 4

theorem hash_python : k.python.hash P = k.hash P := rfl

theorem hash_java : k.java.hash P = k.hash P := rfl

theorem hash_cpp : k.cpp.hashBytes P = k.hash P := rfl

/-- The ciphertext of the common format. -/
def ciphertext (iv plain : Bytes) : Bytes := Format.ciphertext P (k.hash P) k.aesBytes k.hmacBytes iv plain

/-! ## What each implementation makes of it -/

variable {P k}

theorem python_encrypt (iv plain : Bytes) : k.python.encrypt P iv plain = .ok (k.ciphertext P iv plain) :=
  Python.AesKey.encrypt_eq P k.python iv plain k.valid

theorem python_decrypt {iv : Bytes} (hiv : iv.length = 16) (plain : Bytes) :
    k.python.decrypt P (k.ciphertext P iv plain) = .ok plain :=
  Python.AesKey.decrypt_ciphertext P k.python hiv plain k.valid

theorem java_valid : Java.validKeyLength k.java.aesBytes.length = true := k.valid

theorem java_encrypt {ivPreImage plain : Bytes} (hpre : ivPreImage.length = 16) (hlen : plain.length < 2 ^ 31 - 48) :
    Java.Encrypter.encryptWith P k.java ivPreImage plain =
      .ok (k.ciphertext P (Java.Encrypter.ivOf P k.java ivPreImage) plain) :=
  Java.Encrypter.encryptWith_eq (k := k.java) rfl java_valid hpre hlen

/-- In a key set where no other key has the hash, `Crypter.decrypt` finds the key. -/
theorem java_decrypt {z : Java.Keyczar} (hz : z.getKey (k.hash P) = [.aes k.java]) {iv : Bytes} (hiv : iv.length = 16)
    (plain : Bytes) : Java.Crypter.decrypt P z (k.ciphertext P iv plain) = .ok plain := by
  have hown : Java.Crypter.OnlyOwn P (Java.Crypter.message P k.java hiv plain) k.java [k.java] := by
    intro k' hk' _
    exact List.mem_singleton.mp hk'
  have hfirst : [k.java].takeWhile (· ≠ k.java) = [] := by simp
  have hrun := Java.Crypter.decrypt_ok_of_short hiv rfl java_valid hz hown (List.mem_singleton.mpr rfl) (Or.inl hfirst)
  rw [Java.Crypter.bytes_message] at hrun
  exact hrun

theorem cpp_encrypt (iv : Bytes) {plain : Bytes} (hlen : plain.length < 2 ^ 31 - 48) :
    k.cpp.encrypt P iv plain = some (k.ciphertext P iv plain) :=
  Cpp.AESKey.encrypt_eq rfl iv (by omega)

theorem cpp_decrypt {iv : Bytes} (hiv : iv.length = 16) {plain : Bytes} (hlen : plain.length < 2 ^ 31 - 48) :
    k.cpp.decrypt P (k.ciphertext P iv plain) [] = .ok (true, plain) :=
  Cpp.AESKey.decrypt_format rfl hiv hlen

end SharedKey

open SharedKey

/-- Whatever of the three encrypts, with whatever random bytes, the ciphertext is of the common format, and each of the three decrypts
it. -/
theorem ciphertexts_interchangeable (P : Primitives) (k : SharedKey) {z : Java.Keyczar} (hz : z.getKey (k.hash P) = [.aes k.java])
    {plain : Bytes} (hlen : plain.length < 2 ^ 31 - 48) :
    (∀ iv : Bytes, iv.length = 16 →
      k.python.encrypt P iv plain = .ok (Format.ciphertext P (k.hash P) k.aesBytes k.hmacBytes iv plain)) ∧
    (∀ ivPreImage : Bytes, ivPreImage.length = 16 → ∃ iv : Bytes, iv.length = 16 ∧
      Java.Encrypter.encryptWith P k.java ivPreImage plain =
        .ok (Format.ciphertext P (k.hash P) k.aesBytes k.hmacBytes iv plain)) ∧
    (∀ iv : Bytes, iv.length = 16 →
      k.cpp.encrypt P iv plain = some (Format.ciphertext P (k.hash P) k.aesBytes k.hmacBytes iv plain)) ∧
    (∀ iv : Bytes, iv.length = 16 → ∀ ct, ct = Format.ciphertext P (k.hash P) k.aesBytes k.hmacBytes iv plain →
      k.python.decrypt P ct = .ok plain ∧ Java.Crypter.decrypt P z ct = .ok plain ∧ k.cpp.decrypt P ct [] = .ok (true, plain)) := by
  refine ⟨fun iv _ => python_encrypt iv plain, fun pre hpre => ?_, fun iv _ => cpp_encrypt iv hlen, ?_⟩
  · exact ⟨_, Java.Encrypter.length_ivOf hpre, java_encrypt hpre hlen⟩
  · rintro iv hiv _ rfl
    exact ⟨python_decrypt hiv plain, java_decrypt hz hiv plain, cpp_decrypt hiv hlen⟩

theorem validKeyLength_ones : Cpp.validKeyLength (List.replicate 16 (1 : UInt8)).length := rfl

/-- A key of ones. -/
def ones : SharedKey where
  aesBytes := List.replicate 16 1
  hmacBytes := List.replicate 20 1
  valid := validKeyLength_ones
  hmac_ne_nil := List.cons_ne_nil _ _

/-- A key set of this key. -/
def onesSet : Java.Keyczar where
  hashMap hash := if hash = ones.hash .plain then [.aes ones.java] else []

theorem ciphertexts_interchangeable_ones :
    ∃ ct, ones.cpp.encrypt .plain (List.replicate 16 0) [7] = some ct ∧ ones.python.decrypt .plain ct = .ok [7] ∧
      Java.Crypter.decrypt .plain onesSet ct = .ok [7] ∧ ones.cpp.decrypt .plain ct [] = .ok (true, [7]) := by
  have hz : onesSet.getKey (ones.hash .plain) = [.aes ones.java] := by
    unfold Java.Keyczar.getKey onesSet
    dsimp only
    rw [if_pos (Eq.refl (ones.hash .plain))]
  have hlen : List.length ([7] : Bytes) < 2 ^ 31 - 48 := by decide
  obtain ⟨_, _, hcpp, hdecrypt⟩ := ciphertexts_interchangeable .plain ones hz hlen
  have hiv : (List.replicate 16 (0 : UInt8)).length = 16 := List.length_replicate
  exact ⟨_, hcpp _ hiv, hdecrypt _ hiv _ rfl⟩

/-- The Java library refuses a plaintext that Python and C++ encrypt: the ciphertext would not fit in an array. -/
theorem large_plaintext_refused : Java.Encrypter.encryptWith .plain ones.java (List.replicate 16 0) (List.replicate (2 ^ 31 - 48) 0) =
    .error (.runtime .illegalArgument) := by
  refine Java.Encrypter.encryptWith_of_large (k := ones.java) rfl java_valid ?_ ?_
  · rw [List.length_replicate]
  · rw [List.length_replicate]
    omega

end Interop
