import Keyczar.Python.Keyczar

/-!
# Encrypting, decrypting, signing and verifying with a key set

The classes `Encrypter`, `Crypter`, `Verifier` and `Signer`. They find the key of an input by the hash identifier in its header, so
what they do with the output of a key depends on which version of the key set was loaded last under that identifier.
-/

namespace Python

open Bytes

/-- A byte string through an optional coder; `none` stands for Python's `None`, no coding. -/
def decodeWith (decoder : Option (Bytes → Except PyError Bytes)) (s : Bytes) : Except PyError Bytes :=
  match decoder with
  | none => .ok s
  | some decoder => decoder s

def encodeWith (encoder : Option (Bytes → Bytes)) (s : Bytes) : Bytes :=
  match encoder with
  | none => s
  | some encoder => encoder s

variable {κ ρ : Type} (C : KeyClass κ ρ)

/-! ## Encrypter and Crypter -/

/-- `Encrypter.Encrypt`. The property `primary_key` raises when there is none, so the check for `None` after it is never true. -/
def Encrypter.encrypt (s : Keyczar κ) (random : ρ) (data : Bytes) (encoder : Option (Bytes → Bytes)) :
    Except PyError Bytes := do
  let encryptingKey ← s.primaryKey
  let ciphertext ← C.encrypt encryptingKey random data
  return encodeWith encoder ciphertext

/-- `Crypter.Decrypt`. -/
def Crypter.decrypt (s : Keyczar κ) (ciphertext : Bytes) (decoder : Option (Bytes → Except PyError Bytes)) :
    Except PyError Bytes := do
  let dataBytes ← decodeWith decoder ciphertext
  if dataBytes.length < HEADER_SIZE then throw (.shortCiphertextError dataBytes.length)
  let key ← s.parseHeader (sliceTo dataBytes HEADER_SIZE)
  C.decrypt key dataBytes

/-! ## Verifier and Signer -/

/-- The bytes that are signed: the data, the nonce with its length, and the version byte. -/
def signedBytes (data : Bytes) (nonce : Option Bytes) : Except PyError Bytes := do
  let packed ← packByteArray nonce
  return data ++ packed ++ [VERSION]

/-- `Verifier.__InternalVerify`. -/
def Verifier.internalVerify (s : Keyczar κ) (header signature data : Bytes) (nonce : Option Bytes) :
    Except PyError Bool := do
  let key ← s.parseHeader header
  let msg ← signedBytes data nonce
  C.verify key msg signature

/-- `Verifier.Verify`. -/
def Verifier.verify (s : Keyczar κ) (data sig : Bytes) (decoder : Option (Bytes → Except PyError Bytes)) :
    Except PyError Bool := do
  let sigBytes ← decodeWith decoder sig
  if sigBytes.length < HEADER_SIZE then throw (.shortSignatureError sigBytes.length)
  Verifier.internalVerify C s (sliceTo sigBytes HEADER_SIZE) (sliceFrom sigBytes HEADER_SIZE) data none

/-- `Verifier.AttachedVerify`: the data, or `None` when the signature does not verify. -/
def Verifier.attachedVerify (s : Keyczar κ) (signedData nonce : Bytes) (decoder : Option (Bytes → Except PyError Bytes)) :
    Except PyError (Option Bytes) := do
  let decodedData ← decodeWith decoder signedData
  let (data, offset) ← unpackByteArray decodedData HEADER_SIZE
  let signature := sliceFrom decodedData offset
  if ← Verifier.internalVerify C s (sliceTo decodedData HEADER_SIZE) signature data (some nonce) then return some data
  else return none

/-- `Signer.__InternalSign`. -/
def Signer.internalSign (s : Keyczar κ) (random : ρ) (data : Bytes) (nonce : Option Bytes) : Except PyError Bytes := do
  let signingKey ← s.primaryKey
  let msg ← signedBytes data nonce
  C.sign signingKey random msg

/-- `Signer.Sign`. -/
def Signer.sign (s : Keyczar κ) (random : ρ) (data : Bytes) (encoder : Option (Bytes → Bytes)) : Except PyError Bytes := do
  let key ← s.primaryKey
  let signature ← Signer.internalSign C s random data none
  return encodeWith encoder (C.header key ++ signature)

/-- `Signer.AttachedSign`. -/
def Signer.attachedSign (s : Keyczar κ) (random : ρ) (data nonce : Bytes) (encoder : Option (Bytes → Bytes)) :
    Except PyError Bytes := do
  let key ← s.primaryKey
  let packed ← packByteArray (some data)
  let signature ← Signer.internalSign C s random data (some nonce)
  return encodeWith encoder (C.header key ++ packed ++ signature)

/-! ## Inputs that start with the header of a key -/

variable {C}

/-- The header of a key leads to whatever is stored under its identifier. -/
theorem parseHeader_header (s : Keyczar κ) (k : κ) : s.parseHeader (C.header k) = s.getKey (.hash (C.hashId k)) := by
  simp [KeyClass.header, Python.header, Keyczar.parseHeader, KeyClass.hashId]

/-- An input that starts with the header of a key is decrypted with the key under its identifier. -/
theorem Crypter.decrypt_of_header (s : Keyczar κ) {k : κ} {c : Bytes} (h : c.take HEADER_SIZE = C.header k) :
    Crypter.decrypt C s c none = (s.getKey (.hash (C.hashId k))).bind fun key => C.decrypt key c := by
  have hlen : ¬ c.length < HEADER_SIZE := by
    have := congrArg List.length h
    rw [C.length_header, List.length_take] at this
    omega
  unfold Crypter.decrypt decodeWith
  simp only [bind, Except.bind, sliceTo_nat, if_neg hlen, h, parseHeader_header]

/-- A signature with the header of a key is verified with the key under its identifier. -/
theorem Verifier.verify_header (s : Keyczar κ) (k : κ) (d t : Bytes) :
    Verifier.verify C s d (C.header k ++ t) none =
      (s.getKey (.hash (C.hashId k))).bind fun key => C.verify key (d ++ [VERSION]) t := by
  have hh := C.length_header k
  have hlen : ¬ (C.header k ++ t).length < HEADER_SIZE := by
    rw [List.length_append, hh]
    omega
  unfold Verifier.verify decodeWith Verifier.internalVerify signedBytes
  simp only [bind, Except.bind, sliceTo_nat, sliceFrom_nat, if_neg hlen, List.take_left' hh, List.drop_left' hh,
    parseHeader_header, packByteArray_none, pure, Except.pure, List.append_nil]

/-! ## Versions with the same identifier -/

namespace Keyczar

/-- The last version of a key set, in the order in which its versions are loaded, whose stored key has the hash identifier of a
key. -/
def lastWithHashOf (C : KeyClass κ ρ) (order : DictOrder) (reader : Reader κ) (s : Keyczar κ) (k : κ) : Option Ref :=
  (order.list s.metadata.refs).reverse.find? fun r =>
    match storedKey reader s r with
    | .ok key => C.hash key = C.hash k
    | .error _ => false

theorem hashId_eq_iff (k k' : κ) : C.hashId k = C.hashId k' ↔ C.hash k = C.hash k' :=
  ⟨fun h => base64WSEncode_injective h, fun h => congrArg base64WSEncode h⟩

/-- Looking for a version from the end of the load order finds the key that the hash entry was last written with. -/
theorem find?_storedKey {reader : Reader κ} {s : Keyczar κ} {k : κ} {l : List (Ref × κ)}
    (hl : ∀ p ∈ l, storedKey reader s p.1 = .ok p.2) :
    ((l.map Prod.fst).find? fun r =>
        match storedKey reader s r with
        | .ok key => C.hash key = C.hash k
        | .error _ => false) =
      (l.find? fun p => C.hashId p.2 = C.hashId k).map Prod.fst := by
  induction l with
  | nil => rfl
  | cons p l ih =>
    have hp := hl p (List.mem_cons_self ..)
    have ih' := ih fun q hq => hl q (List.mem_cons_of_mem p hq)
    simp only [List.map_cons, List.find?_cons, hp, hashId_eq_iff]
    by_cases h : C.hash p.2 = C.hash k
    · simp [h]
    · simpa [h, hashId_eq_iff] using ih'

/-- The identifier of a key of a loaded set leads to the key of the last version that has it. -/
theorem getKey_hash_of_init {accept : KeyPurpose → Bool} {order : DictOrder} {reader : Reader κ} {s : Keyczar κ}
    (h : init C accept order reader = .ok s) {r : Ref} {k : κ} (hr : r ∈ s.metadata.refs)
    (hk : storedKey reader s r = .ok k) :
    ∃ w last, lastWithHashOf C order reader s k = some w ∧ storedKey reader s w = .ok last ∧
      C.hash last = C.hash k ∧ s.getKey (.hash (C.hashId k)) = .ok last := by
  obtain ⟨l, horder, hl⟩ := loaded_of_init h
  have hstored : ∀ p ∈ l.reverse, storedKey reader s p.1 = .ok p.2 := fun p hp => hl.stored p (List.mem_reverse.mp hp)
  obtain ⟨p, hp, hpr⟩ := List.mem_map.mp (hl.perm.mem_iff.mpr hr)
  have hpk : p.2 = k := by
    have := hl.stored p hp
    rw [hpr, hk] at this
    exact (Except.ok.inj this).symm
  have hsome : (l.reverse.find? fun q => C.hashId q.2 = C.hashId k).isSome := by
    rw [List.find?_isSome]
    exact ⟨p, List.mem_reverse.mpr hp, by simp [hpk]⟩
  obtain ⟨q, hq⟩ := Option.isSome_iff_exists.mp hsome
  have hqmem := List.mem_of_find?_eq_some hq
  have hqhash : C.hashId q.2 = C.hashId k := by simpa using List.find?_some hq
  refine ⟨q.1, q.2, ?_, hstored q hqmem, (hashId_eq_iff _ _).mp hqhash, ?_⟩
  · rw [lastWithHashOf, ← horder, ← List.map_reverse, find?_storedKey hstored, hq]
    rfl
  · rw [getKey_eq_ok_iff, hl.keys_eq, lookup_hash_foldl, hq]
    rfl

end Keyczar

/-- What a key set does with the output of one of its keys: it decrypts every ciphertext of the key to its plaintext, and accepts
every signature of the key on its data. -/
def WorksFor (C : KeyClass κ ρ) (s : Keyczar κ) (k : κ) : Prop :=
  (∀ random d c, C.encrypt k random d = .ok c → Crypter.decrypt C s c none = .ok d) ∧
  (∀ random d t, C.sign k random (d ++ [VERSION]) = .ok t → Verifier.verify C s d (C.header k ++ t) none = .ok true)

/-- One key does not stand in for another: some output of `k` is refused by the other key. -/
def Refuses (C : KeyClass κ ρ) (other k : κ) : Prop :=
  (∃ random d c, C.encrypt k random d = .ok c ∧ C.decrypt other c ≠ .ok d) ∨
  (∃ random d t, C.sign k random (d ++ [VERSION]) = .ok t ∧ C.verify other (d ++ [VERSION]) t ≠ .ok true)

/-- The key of a version of a loaded set works with the set when the last version loaded under its identifier has the same key; and
only then, where keys refuse the output of other keys. -/
theorem loaded_key_works (C : KeyClass κ ρ) (hC : C.Lawful) (accept : KeyPurpose → Bool) (order : DictOrder)
    (reader : Reader κ) (s : Keyczar κ) (h : Keyczar.init C accept order reader = .ok s) (r : Ref) (k : κ)
    (hr : r ∈ s.metadata.refs) (hk : Keyczar.storedKey reader s r = .ok k) :
    ((∃ w, Keyczar.lastWithHashOf C order reader s k = some w ∧ Keyczar.storedKey reader s w = .ok k) → WorksFor C s k) ∧
    ((∀ other, other ≠ k → C.hash other = C.hash k → Refuses C other k) → WorksFor C s k →
      ∃ w, Keyczar.lastWithHashOf C order reader s k = some w ∧ Keyczar.storedKey reader s w = .ok k) := by
  obtain ⟨w, last, hw, hlast, hhash, hget⟩ := Keyczar.getKey_hash_of_init h hr hk
  have hdec : ∀ {random d c}, C.encrypt k random d = .ok c → Crypter.decrypt C s c none = C.decrypt last c := by
    intro random d c hc
    rw [Crypter.decrypt_of_header s (hC.encrypt_header hc), hget]
    rfl
  have hver : ∀ d t, Verifier.verify C s d (C.header k ++ t) none = C.verify last (d ++ [VERSION]) t := by
    intro d t
    rw [Verifier.verify_header, hget]
    rfl
  constructor
  · rintro ⟨w', hw', hk'⟩
    have hww : w = w' := Option.some.inj (hw.symm.trans hw')
    subst hww
    have hlk : last = k := Except.ok.inj (hlast.symm.trans hk')
    subst hlk
    refine ⟨?_, ?_⟩
    · intro random d c hc
      rw [hdec hc]
      exact hC.decrypt_encrypt hc
    · intro random d t ht
      rw [hver]
      exact hC.verify_sign ht
  · intro hrefuse hworks
    refine ⟨w, hw, ?_⟩
    by_cases hlk : last = k
    · rw [hlast, hlk]
    · rcases hrefuse last hlk hhash with ⟨random, d, c, hc, hne⟩ | ⟨random, d, t, ht, hne⟩
      · exact absurd (hdec hc ▸ hworks.1 random d c hc) hne
      · exact absurd (hver d t ▸ hworks.2 random d t ht) hne

/-! ### Two keys under one identifier -/

/-- Two AES keys whose identifiers agree under primitives whose hash of a key is the length of the key. -/
def firstAesKey : AesKey := { keyBytes := List.replicate 16 1, hmacKey := { keyBytes := [1] } }

def secondAesKey : AesKey := { keyBytes := List.replicate 16 2, hmacKey := { keyBytes := [2] } }

/-- A key set with both keys, the second as the primary version. -/
def collidingReader : Reader AesKey where
  metadata := { name := "two", purpose := "DECRYPT_AND_ENCRYPT", type := "AES", encrypted := false,
                versions := [⟨1, "ACTIVE", false⟩, ⟨2, "PRIMARY", false⟩] }
  isEncryptedReader := false
  getKey _ n := .ok (if n = 1 then firstAesKey else secondAesKey)

/-- The metadata of the two keys is listed with the last added first; they are loaded the other way round. -/
def lastAddedLast : DictOrder := { list := List.reverse, perm := List.reverse_perm }

/-- The two keys, loaded. -/
def collidingSet : Keyczar AesKey where
  metadata := { name := "two", purpose := .decryptAndEncrypt, type := .aes,
                versions := ((∅ : AList _).insert 1 0).insert 2 1 }
  heap := (Heap.empty.alloc ⟨1, .active, false⟩).alloc ⟨2, .primary, false⟩
  keys := Keyczar.addEntries (aesKeys Primitives.plain)
    (Keyczar.addEntries (aesKeys Primitives.plain) ∅ 0 firstAesKey) 1 secondAesKey
  primaryVersion := some 1
  defaultSize := 128

theorem init_collidingReader :
    Keyczar.init (aesKeys Primitives.plain) (· = .decryptAndEncrypt) lastAddedLast collidingReader = .ok collidingSet := rfl

/-- The second of the two keys works with the set. -/
theorem loaded_key_works_second : WorksFor (aesKeys Primitives.plain) collidingSet secondAesKey :=
  (loaded_key_works (aesKeys Primitives.plain) (aesKeys_lawful _) (· = .decryptAndEncrypt) lastAddedLast collidingReader
    collidingSet init_collidingReader 1 secondAesKey (by decide) rfl).1 ⟨1, by decide, rfl⟩

/-- What the first of the two keys encrypts is refused: its identifier leads to the second key. -/
theorem colliding_version_not_decrypted :
    Keyczar.init (aesKeys Primitives.plain) (· = .decryptAndEncrypt) lastAddedLast collidingReader = .ok collidingSet ∧
    0 ∈ collidingSet.metadata.refs ∧ Keyczar.storedKey collidingReader collidingSet 0 = .ok firstAesKey ∧
    ∃ c, (aesKeys Primitives.plain).encrypt firstAesKey ⟨List.replicate 16 0, rfl⟩ [7] = .ok c ∧
      Crypter.decrypt (aesKeys Primitives.plain) collidingSet c none = .error .invalidSignatureError ∧
      ¬ WorksFor (aesKeys Primitives.plain) collidingSet firstAesKey := by
  have hc : (aesKeys Primitives.plain).encrypt firstAesKey ⟨List.replicate 16 0, rfl⟩ [7] =
      .ok (firstAesKey.ciphertext Primitives.plain (List.replicate 16 0) [7]) := AesKey.encrypt_eq _ _ _ _ rfl
  have hd : Crypter.decrypt (aesKeys Primitives.plain) collidingSet
      (firstAesKey.ciphertext Primitives.plain (List.replicate 16 0) [7]) none = .error .invalidSignatureError := by
    decide
  refine ⟨init_collidingReader, by decide, rfl, _, hc, hd, ?_⟩
  intro hworks
  have := hworks.1 _ _ _ hc
  rw [hd] at this
  cases this

end Python
