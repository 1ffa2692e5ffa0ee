import Keyczar.Python.PublicKeys
import Keyczar.Java.PublicKeys
import Keyczar.Cpp.PublicKeys
import Mathlib.Data.PNat.Basic

/-!
# Key identifiers across the implementations

Every implementation hashes a key on its own way. For symmetric keys all hash the length and the bytes; keys with zeros in front have a
second identifier, because an old version of the C++ library cut the zeros off. For public keys the three ways lead from the text of a
key over its bytes or numbers to the same bytes.
-/

namespace Interop

open Bytes

/-- An identifier as the Python and the C++ library keep it. -/
def encoded (id : Bytes) : Bytes := Base64.encode Base64.webSafe id

/-- What is four bytes long is encoded. -/
theorem base64WEncode_take (P : Primitives) (s : Bytes) :
    Cpp.base64WEncode ((P.sha1 s).take Cpp.kKeyHashSize) = some (encoded ((P.sha1 s).take 4)) := by
  have hlength : 0 < ((P.sha1 s).take 4).length := by
    rw [List.length_take, Primitives.length_sha1]
    decide
  exact Cpp.base64WEncode_eq hlength

theorem length_take_sha1 (P : Primitives) (s : Bytes) : ((P.sha1 s).take 4).length = 4 := by
  rw [List.length_take, Primitives.length_sha1]
  rfl

/-! ## Symmetric keys -/

/-- The HMAC keys with these bytes have one identifier. -/
def HmacIdentifiers (P : Primitives) (hmacBytes : Bytes) : Prop :=
  ∃ id : Bytes, id.length = 4 ∧
    (∀ k : Python.HmacKey, k.keyBytes = hmacBytes → k.hashId P = encoded id) ∧
    (∀ k : Java.HmacKey, k.keyBytes = hmacBytes → k.hash P = id) ∧
    (∀ k : Cpp.HMACKey, k.keyBytes = hmacBytes → k.hash P = some (encoded id))

/-- The AES keys with these bytes have one identifier. -/
def AesIdentifiers (P : Primitives) (aesBytes hmacBytes : Bytes) : Prop :=
  ∃ id : Bytes, id.length = 4 ∧
    (∀ k : Python.AesKey, k.keyBytes = aesBytes → k.hmacKey.keyBytes = hmacBytes → k.hashId P = encoded id) ∧
    (∀ k : Java.AesKey, k.aesBytes = aesBytes → k.hmacKey.keyBytes = hmacBytes → k.hash P = id) ∧
    (∀ k : Cpp.AESKey, k.aesImpl.key = aesBytes → k.hmacKey.keyBytes = hmacBytes → k.hash P = some (encoded id))

/-- The hash that Java registers for keys of its own old versions. -/
def blockSizeHash (P : Primitives) (aesBytes hmacBytes : Bytes) : List Bytes :=
  if aesBytes.length ≠ Java.BLOCK_SIZE then [Java.AesKey.shortHash P Java.BLOCK_SIZE aesBytes hmacBytes] else []

/-- Java and C++ register the same second identifier for a key that starts with a zero, and none for another. -/
def BuggyIdentifiers (P : Primitives) (aesBytes hmacBytes : Bytes) : Prop :=
  ∃ buggy : Option Bytes, (buggy.isSome ↔ aesBytes.head? = some 0) ∧
    (∀ k : Cpp.AESKey, k.aesImpl.key = aesBytes → k.hmacKey.keyBytes = hmacBytes → k.buggyHash P = .ok (buggy.map encoded)) ∧
    (∀ k : Java.AesKey, k.aesBytes = aesBytes → k.hmacKey.keyBytes = hmacBytes →
      k.fallbackHash P = blockSizeHash P aesBytes hmacBytes ++ buggy.toList)

/-- The identifiers of symmetric keys agree. -/
structure SymmetricIdentifiers (P : Primitives) (aesBytes hmacBytes : Bytes) : Prop where
  hmac : HmacIdentifiers P hmacBytes
  aes : AesIdentifiers P aesBytes hmacBytes
  buggy : BuggyIdentifiers P aesBytes hmacBytes

theorem hmacIdentifiers (P : Primitives) (hmacBytes : Bytes) : HmacIdentifiers P hmacBytes := by
  refine ⟨(P.sha1 hmacBytes).take 4, length_take_sha1 P _, ?_, ?_, ?_⟩
  · rintro k rfl
    rfl
  · rintro k rfl
    rfl
  · rintro k rfl
    exact base64WEncode_take P _

theorem aesIdentifiers (P : Primitives) (aesBytes hmacBytes : Bytes) : AesIdentifiers P aesBytes hmacBytes := by
  refine ⟨(P.sha1 (be32 aesBytes.length ++ aesBytes ++ hmacBytes)).take 4, length_take_sha1 P _, ?_, ?_, ?_⟩
  · rintro k rfl rfl
    rfl
  · rintro k rfl rfl
    rfl
  · rintro k rfl rfl
    exact base64WEncode_take P _

/-- The hash of a key without the zeros in front, as both implementations compute it. -/
def strippedHash (P : Primitives) (aesBytes hmacBytes : Bytes) : Bytes :=
  (P.sha1 (be32 (BigEndian.strip aesBytes).length ++ BigEndian.strip aesBytes ++ hmacBytes)).take 4

/-- The second hash in C++: of a key of zeros only there is none, but an exception. -/
theorem cpp_buggyHash_eq (P : Primitives) (k : Cpp.AESKey) :
    k.buggyHash P =
      if k.aesImpl.key.head? ≠ some 0 then .ok none
      else if BigEndian.strip k.aesImpl.key = [] then .error .outOfRange
      else .ok (some (encoded (strippedHash P k.aesImpl.key k.hmacKey.keyBytes))) := by
  unfold Cpp.AESKey.buggyHash
  split
  · rfl
  · rw [Cpp.substr_findFirstNotOf]
    split
    · rfl
    · rw [Throwing.ok_bind, base64WEncode_take]
      rfl

theorem java_fallbackHash_eq (P : Primitives) (k : Java.AesKey) :
    k.fallbackHash P = blockSizeHash P k.aesBytes k.hmacKey.keyBytes ++
      if k.aesBytes.head? = some 0 then [strippedHash P k.aesBytes k.hmacKey.keyBytes] else [] := rfl

theorem buggyIdentifiers_of_ne_zero (P : Primitives) {aesBytes : Bytes} (h : ∃ b ∈ aesBytes, b ≠ 0) (hmacBytes : Bytes) :
    BuggyIdentifiers P aesBytes hmacBytes := by
  have hne : BigEndian.strip aesBytes ≠ [] := by
    intro hnil
    obtain ⟨b, hb, hb0⟩ := h
    exact hb0 ((BigEndian.strip_eq_nil_iff aesBytes).mp hnil b hb)
  by_cases hhead : aesBytes.head? = some 0
  · refine ⟨some (strippedHash P aesBytes hmacBytes), by simp [hhead], ?_, ?_⟩
    · rintro k rfl rfl
      rw [cpp_buggyHash_eq, if_neg (not_not.mpr hhead), if_neg hne]
      rfl
    · rintro k rfl rfl
      rw [java_fallbackHash_eq, if_pos hhead]
      rfl
  · refine ⟨none, by simp [hhead], ?_, ?_⟩
    · rintro k rfl rfl
      rw [cpp_buggyHash_eq, if_pos hhead]
      rfl
    · rintro k rfl rfl
      rw [java_fallbackHash_eq, if_neg hhead]
      rfl

/-- Of a key of zeros only the C++ library computes no second hash. -/
theorem not_buggyIdentifiers_of_zero (P : Primitives) {aesBytes : Bytes} (hvalid : Cpp.validKeyLength aesBytes.length = true)
    (h : ∀ b ∈ aesBytes, b = 0) (hmacBytes : Bytes) : ¬BuggyIdentifiers P aesBytes hmacBytes := by
  rintro ⟨buggy, -, hcpp, -⟩
  have hhead : aesBytes.head? = some 0 := by
    cases aesBytes with
    | nil => cases hvalid
    | cons b s => rw [List.head?_cons, h b List.mem_cons_self]
  have hbuggy := hcpp { aesImpl := ⟨aesBytes, hvalid⟩, hmacKey := ⟨hmacBytes, .sha1⟩ } rfl rfl
  rw [cpp_buggyHash_eq, if_neg (not_not.mpr hhead), if_pos ((BigEndian.strip_eq_nil_iff aesBytes).mpr h)] at hbuggy
  cases hbuggy

/-- The identifiers agree on every key but the one of zeros only. -/
theorem symmetricIdentifiers_iff (P : Primitives) {aesBytes : Bytes} (hvalid : Cpp.validKeyLength aesBytes.length = true)
    (hmacBytes : Bytes) : SymmetricIdentifiers P aesBytes hmacBytes ↔ ∃ b ∈ aesBytes, b ≠ 0 := by
  constructor
  · rintro ⟨-, -, hbuggy⟩
    by_contra hzero
    push Not at hzero
    exact not_buggyIdentifiers_of_zero P hvalid hzero hmacBytes hbuggy
  · intro h
    exact ⟨hmacIdentifiers P hmacBytes, aesIdentifiers P aesBytes hmacBytes, buggyIdentifiers_of_ne_zero P h hmacBytes⟩

theorem symmetricIdentifiers_small :
    SymmetricIdentifiers Primitives.plain (0 :: 0 :: List.replicate 14 7) (List.replicate 32 1) :=
  (symmetricIdentifiers_iff Primitives.plain (by decide) (List.replicate 32 1)).mpr (by decide)

/-- The key of sixteen zeros, with an HMAC key. -/
def zeroKey : Cpp.AESKey where
  aesImpl := ⟨List.replicate 16 0, by decide⟩
  hmacKey := ⟨List.replicate 32 1, .sha256⟩

/-- For it the C++ library throws, where Java registers the hash of a key without bytes. -/
theorem zeroKey_buggyHash_throws :
    zeroKey.buggyHash Primitives.plain = .error .outOfRange ∧
      (∀ k : Java.AesKey, k.aesBytes = zeroKey.aesImpl.key → k.hmacKey.keyBytes = zeroKey.hmacKey.keyBytes →
        k.fallbackHash Primitives.plain = [Java.AesKey.shortHash Primitives.plain 0 [] zeroKey.hmacKey.keyBytes]) ∧
      ¬SymmetricIdentifiers Primitives.plain zeroKey.aesImpl.key zeroKey.hmacKey.keyBytes := by
  have hzero : ∀ b ∈ zeroKey.aesImpl.key, b = 0 := fun b hb => List.eq_of_mem_replicate hb
  refine ⟨by rw [cpp_buggyHash_eq]; rfl, ?_, ?_⟩
  · intro k hk hmac
    rw [java_fallbackHash_eq, hk, hmac]
    rfl
  · intro h
    exact not_buggyIdentifiers_of_zero Primitives.plain zeroKey.aesImpl.valid hzero _ h.buggy

/-! ## Public keys -/

/-- A field of a key that gives a number: the base 64 of its big-endian bytes with zeros in front, so that the first bit is not set. -/
def Encodes (n : Nat) (field : Bytes) : Prop :=
  ∃ k, TwosComplement.Nonneg (List.replicate k 0 ++ BigEndian.toBytes n) ∧
    field = encoded (List.replicate k 0 ++ BigEndian.toBytes n)

/-- What the Python library writes gives the number. -/
theorem encodes_python (n : Nat) : Encodes n (Python.base64WSEncode (Python.padBytes (Python.bigIntToBytes n) 1)) :=
  ⟨1, TwosComplement.nonneg_zero_cons _, rfl⟩

/-- What the Java library writes gives the number. -/
theorem encodes_java (n : Nat) : Encodes n (Java.encodeBigInteger n) := by
  obtain ⟨k, hk⟩ := TwosComplement.exists_natBytes_eq n
  refine ⟨k, ?_, ?_⟩
  · rw [← hk]
    exact TwosComplement.nonneg_natBytes n
  · rw [← hk]
    rfl

/-- What the C++ library writes gives the number. -/
theorem encodes_cpp (n e : Nat) :
    Cpp.base64WEncode (Cpp.RSAOpenSSL.getPublicAttributes ⟨n, e⟩).n = some (encoded (0 :: BigEndian.toBytes n)) ∧
      Encodes n (encoded (0 :: BigEndian.toBytes n)) :=
  ⟨rfl, 1, TwosComplement.nonneg_zero_cons _, rfl⟩

/-- The bytes of a field of a positive number. -/
theorem Encodes.exists_bytes {n : Nat} {field : Bytes} (h : Encodes n field) (hpos : 0 < n) :
    ∃ s, field = encoded s ∧ s ≠ [] ∧ TwosComplement.Nonneg s ∧ BigEndian.ofBytes s = n := by
  obtain ⟨k, hnonneg, hfield⟩ := h
  have hvalue : BigEndian.ofBytes (List.replicate k 0 ++ BigEndian.toBytes n) = n := by
    rw [BigEndian.ofBytes_zeros_append, BigEndian.ofBytes_toBytes]
  refine ⟨_, hfield, ?_, hnonneg, hvalue⟩
  intro hnil
  rw [hnil] at hvalue
  exact absurd hvalue hpos.ne

theorem Encodes.python {n : Nat} {field : Bytes} (h : Encodes n field) (hpos : 0 < n) :
    ∃ s, Python.base64WSDecode field = .ok s ∧ Python.trimBytes s = BigEndian.toBytes n := by
  obtain ⟨s, rfl, -, -, hvalue⟩ := h.exists_bytes hpos
  have htrim := Python.trimBytes_of_pos (s := s) (by rw [hvalue]; exact hpos)
  rw [hvalue] at htrim
  exact ⟨s, Python.base64WSDecode_encode s, htrim⟩

theorem Encodes.java {n : Nat} {field : Bytes} (h : Encodes n field) (hpos : 0 < n) : Java.decodeBigInteger field = .ok n := by
  obtain ⟨s, rfl, hne, hnonneg, hvalue⟩ := h.exists_bytes hpos
  rw [encoded, Java.decodeBigInteger_encode hne hnonneg, hvalue]

theorem Encodes.cpp {n : Nat} {field : Bytes} (h : Encodes n field) (hpos : 0 < n) :
    ∃ s, Cpp.base64WDecode field = some s ∧ BigEndian.ofBytes s = n := by
  obtain ⟨s, rfl, hne, -, hvalue⟩ := h.exists_bytes hpos
  exact ⟨s, Cpp.base64WDecode_encode (List.length_pos_iff.mpr hne), hvalue⟩

/-- What is hashed for numbers: the length and the bytes of each. -/
def hashed (numbers : List Nat) : Bytes := numbers.flatMap fun n => be32 (BigEndian.toBytes n).length ++ BigEndian.toBytes n

end Interop
