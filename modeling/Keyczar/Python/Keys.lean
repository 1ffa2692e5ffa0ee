import Keyczar.Primitives
import Keyczar.Python.Util

/-!
# The symmetric keys of `keys.py`

HMAC keys with their streaming form, and AES keys: a ciphertext is a header, an initial vector, the chained encryption of the
padded plaintext, and a signature over all that. `decrypt` undoes `encrypt` for each key of a valid length.
-/

namespace Python

open Bytes

/-- The version byte of every output. -/
def VERSION : UInt8 := 0

def KEY_HASH_SIZE : Nat := 4

def HEADER_SIZE : Nat := 1 + KEY_HASH_SIZE

/-- The size a key object gets: a size that is not valid for its type is ignored. -/
def setSize (t : KeyType) (newSize : Int) : Int := if t.isValidSize newSize then newSize else t.defaultSize

/-- The header of a key: the version byte and the bytes that its hash identifier stands for. -/
def header (hash : Bytes) : Bytes := VERSION :: hash

/-! ## HMAC keys -/

/-- An HMAC-SHA1 key; its key string is kept decoded. -/
structure HmacKey where
  keyBytes : Bytes
  size : Int := KeyType.hmacSha1.defaultSize
  deriving DecidableEq, Repr

namespace HmacKey

variable (P : Primitives)

/-- The bytes of the hash identifier. -/
def hash (k : HmacKey) : Bytes := (P.sha1 k.keyBytes).take KEY_HASH_SIZE

def hashId (k : HmacKey) : Bytes := base64WSEncode (k.hash P)

def sign (k : HmacKey) (msg : Bytes) : Bytes := P.hmacSha1 k.keyBytes msg

/-- `VerifySignedData`: every byte is compared. -/
def verifySignedData (macBytes sigBytes : Bytes) : Bool := constantTimeEq macBytes sigBytes

def verify (k : HmacKey) (msg sigBytes : Bytes) : Bool := verifySignedData (k.sign P msg) sigBytes

@[simp] theorem length_hash (k : HmacKey) : (k.hash P).length = 4 := by
  simp [hash, KEY_HASH_SIZE]

/-- A key verifies exactly the signature it makes. -/
theorem verify_iff (k : HmacKey) (msg sigBytes : Bytes) : k.verify P msg sigBytes = true ↔ k.sign P msg = sigBytes :=
  constantTimeEq_iff _ _

end HmacKey

/-- `HmacKeyStream`: the key and what it was updated with so far. -/
structure HmacKeyStream where
  hmacKey : HmacKey
  data : Bytes := []
  deriving DecidableEq, Repr

namespace HmacKeyStream

def update (s : HmacKeyStream) (data : Bytes) : HmacKeyStream := { s with data := s.data ++ data }

def sign (P : Primitives) (s : HmacKeyStream) : Bytes := s.hmacKey.sign P s.data

end HmacKeyStream

/-! ## The cipher object of the AES library -/

/-- The lengths of an AES key. -/
def validKeyLength (n : Nat) : Bool := n = 16 || n = 24 || n = 32

/-- A chaining cipher object: its key, and the block that the next one is chained to. -/
structure AesCipher where
  key : Bytes
  chain : Bytes
  deriving DecidableEq, Repr

namespace AesCipher

/-- `AES.new(key, AES.MODE_CBC, iv)`. -/
def new (key iv : Bytes) : Except PyError AesCipher :=
  if validKeyLength key.length then .ok { key, chain := iv } else .error .valueError

variable (P : Primitives)

/-- Encrypt whole blocks. -/
def encrypt (c : AesCipher) (data : Bytes) : Except PyError (Bytes × AesCipher) :=
  if data.length % 16 ≠ 0 then .error .valueError
  else
    let out := Cbc.encrypt (P.aes c.key) c.chain data
    .ok (out, { c with chain := Cbc.lastBlock c.chain out })

/-- Decrypt whole blocks. -/
def decrypt (c : AesCipher) (data : Bytes) : Except PyError (Bytes × AesCipher) :=
  if data.length % 16 ≠ 0 then .error .valueError
  else .ok (Cbc.decrypt (P.aes c.key) c.chain data, { c with chain := Cbc.lastBlock c.chain data })

theorem encrypt_of_dvd {c : AesCipher} {data : Bytes} (h : 16 ∣ data.length) :
    c.encrypt P data = .ok (Cbc.encrypt (P.aes c.key) c.chain data,
      { c with chain := Cbc.lastBlock c.chain (Cbc.encrypt (P.aes c.key) c.chain data) }) :=
  if_neg (not_not_intro (Nat.mod_eq_zero_of_dvd h))

theorem decrypt_of_dvd {c : AesCipher} {data : Bytes} (h : 16 ∣ data.length) :
    c.decrypt P data =
      .ok (Cbc.decrypt (P.aes c.key) c.chain data, { c with chain := Cbc.lastBlock c.chain data }) :=
  if_neg (not_not_intro (Nat.mod_eq_zero_of_dvd h))

/-- Only whole blocks are decrypted. -/
theorem decrypt_of_not_dvd {c : AesCipher} {data : Bytes} (h : ¬ 16 ∣ data.length) : c.decrypt P data = .error .valueError :=
  if_pos fun h' => h (Nat.dvd_of_mod_eq_zero h')

end AesCipher

/-! ## AES keys -/

/-- An AES key with its HMAC key; the key string is kept decoded. -/
structure AesKey where
  keyBytes : Bytes
  hmacKey : HmacKey
  size : Int := KeyType.aes.defaultSize
  deriving DecidableEq, Repr

namespace AesKey

def blockSize : Nat := 16

/-- `_Pad`. -/
def pad (data : Bytes) : Bytes := Cbc.pad blockSize data

/-- `_UnPad`: as many bytes are cut off as the last one says, whatever the others are. -/
def unPad (padded : Bytes) : Except PyError Bytes :=
  match padded.getLast? with
  | none => .error .indexError
  | some pad => .ok (sliceTo padded (-(pad.toNat : Int)))

/-- `_NoPadBufferSize`. -/
def noPadBufferSize (bufferSize : Int) : Int := max (blockSize * (bufferSize / blockSize)) blockSize

variable (P : Primitives)

/-- The bytes of the hash identifier: of the length of the key, the key and the HMAC key. -/
def hash (k : AesKey) : Bytes :=
  (P.sha1 (be32 k.keyBytes.length ++ k.keyBytes ++ k.hmacKey.keyBytes)).take KEY_HASH_SIZE

def hashId (k : AesKey) : Bytes := base64WSEncode (k.hash P)

/-- `Encrypt` with the random bytes it draws for the initial vector. -/
def encrypt (k : AesKey) (ivBytes data : Bytes) : Except PyError Bytes := do
  let data := pad data
  let cipher ← AesCipher.new k.keyBytes ivBytes
  let (ciphBytes, _) ← cipher.encrypt P data
  let msgBytes := header (k.hash P) ++ ivBytes ++ ciphBytes
  let sigBytes := k.hmacKey.sign P msgBytes
  return msgBytes ++ sigBytes

/-- `Decrypt`. -/
def decrypt (k : AesKey) (inputBytes : Bytes) : Except PyError Bytes := do
  let dataBytes := sliceFrom inputBytes HEADER_SIZE
  if dataBytes.length < blockSize + HLEN then throw (.shortCiphertextError dataBytes.length)
  let ivBytes := sliceTo dataBytes blockSize
  let ciphBytes := slice dataBytes blockSize (-(HLEN : Int))
  let sigBytes := sliceFrom dataBytes (-(HLEN : Int))
  if !k.hmacKey.verify P (sliceTo inputBytes (-(HLEN : Int))) sigBytes then throw .invalidSignatureError
  let cipher ← AesCipher.new k.keyBytes ivBytes
  let (plain, _) ← cipher.decrypt P ciphBytes
  unPad plain

@[simp] theorem length_hash (k : AesKey) : (k.hash P).length = 4 := by
  simp [hash, KEY_HASH_SIZE]

/-! ### What `decrypt` checks, in order -/

/-- A zero last byte cuts everything off. -/
theorem sliceTo_neg_toNat (s : Bytes) (b : UInt8) :
    sliceTo s (-(b.toNat : Int)) = if b = 0 then [] else s.take (s.length - b.toNat) := by
  by_cases hb : b = 0
  · subst hb
    rw [if_pos rfl]
    exact sliceTo_zero s
  · rw [if_neg hb]
    apply sliceTo_neg
    have : b.toNat ≠ 0 := fun h => hb (UInt8.toNat_inj.mp h)
    omega

/-- Unpadding undoes padding. -/
theorem unPad_pad (data : Bytes) : unPad (pad data) = .ok data := by
  have hpos := Cbc.padLength_pos (n := 16) (by decide) data.length
  have hle := Cbc.padLength_le 16 data.length
  have hnat : (UInt8.ofNat (Cbc.padLength 16 data.length)).toNat = Cbc.padLength 16 data.length := by
    rw [UInt8.toNat_ofNat']
    omega
  unfold unPad pad blockSize
  rw [Cbc.getLast?_pad (by decide)]
  simp only [hnat]
  rw [sliceTo_neg _ hpos, Cbc.length_pad, Nat.add_sub_cancel]
  simp [Cbc.pad]

/-- The parts of an input of at least 41 bytes: the payload is what is left between the initial vector and the signature. -/
def payload (b : Bytes) : Bytes := (b.drop 21).take (b.length - 41)

def iv (b : Bytes) : Bytes := (b.drop 5).take 16

theorem length_payload (b : Bytes) : (payload b).length = b.length - 41 := by
  simp [payload]
  omega

theorem length_iv {b : Bytes} (h : 41 ≤ b.length) : (iv b).length = 16 := by
  simp [iv]
  omega

/-- `decrypt` in terms of the parts of its input. -/
theorem decrypt_eq (k : AesKey) (b : Bytes) :
    k.decrypt P b =
      if b.length < 41 then .error (.shortCiphertextError (b.length - 5))
      else if k.hmacKey.sign P (b.take (b.length - 20)) ≠ b.drop (b.length - 20) then .error .invalidSignatureError
      else if ¬ validKeyLength k.keyBytes.length then .error .valueError
      else if (payload b).length % 16 ≠ 0 then .error .valueError
      else unPad (Cbc.decrypt (P.aes k.keyBytes) (iv b) (payload b)) := by
  have hfrom : sliceFrom b (HEADER_SIZE : Int) = b.drop 5 := sliceFrom_nat b 5
  unfold decrypt
  simp only [hfrom, List.length_drop, blockSize, HLEN]
  by_cases hlen : b.length < 41
  · rw [if_pos (by omega), if_pos hlen]
    rfl
  · rw [if_neg (by omega), if_neg hlen]
    have hsig : sliceFrom (b.drop 5) (-((20 : Nat) : Int)) = b.drop (b.length - 20) := by
      rw [sliceFrom_neg _ (by decide), List.length_drop, List.drop_drop]
      congr 1
      omega
    have hmsg : sliceTo b (-((20 : Nat) : Int)) = b.take (b.length - 20) := sliceTo_neg b (by decide)
    have hiv : sliceTo (b.drop 5) ((16 : Nat) : Int) = iv b := sliceTo_nat _ _
    have hciph : slice (b.drop 5) ((16 : Nat) : Int) (-((20 : Nat) : Int)) = payload b := by
      have h1 : index (b.drop 5).length ((16 : Nat) : Int) = 16 := by
        rw [index_of_nonneg, List.length_drop]
        omega
      have h2 : index (b.drop 5).length (-((20 : Nat) : Int)) = b.length - 25 := by
        rw [index_neg _ _ (by decide), List.length_drop]
        omega
      rw [slice, h1, h2, List.drop_drop, payload]
      rfl
    rw [hsig, hmsg, hiv, hciph]
    by_cases hv : k.hmacKey.sign P (b.take (b.length - 20)) = b.drop (b.length - 20)
    · rw [(HmacKey.verify_iff P _ _ _).mpr hv, if_neg (not_not_intro hv)]
      by_cases hk : validKeyLength k.keyBytes.length = true
      · by_cases hm : (payload b).length % 16 = 0
        · simp [AesCipher.new, AesCipher.decrypt, hk, hm, bind, Except.bind]
        · simp [AesCipher.new, AesCipher.decrypt, hk, hm, bind, Except.bind]
      · simp [AesCipher.new, hk, bind, Except.bind]
    · have hv' : k.hmacKey.verify P (b.take (b.length - 20)) (b.drop (b.length - 20)) = false := by
        rw [← Bool.not_eq_true, HmacKey.verify_iff]
        exact hv
      rw [hv', if_pos hv]
      rfl

/-! ### Encryption and decryption -/

/-- What a key of a valid length makes of a plaintext. -/
def ciphertext (k : AesKey) (ivBytes data : Bytes) : Bytes :=
  let msgBytes := header (k.hash P) ++ ivBytes ++ Cbc.encrypt (P.aes k.keyBytes) ivBytes (Cbc.pad 16 data)
  msgBytes ++ P.hmacSha1 k.hmacKey.keyBytes msgBytes

theorem encrypt_eq (k : AesKey) (ivBytes data : Bytes) (hk : validKeyLength k.keyBytes.length = true) :
    k.encrypt P ivBytes data = .ok (k.ciphertext P ivBytes data) := by
  have henc := AesCipher.encrypt_of_dvd P (c := ⟨k.keyBytes, ivBytes⟩) (Cbc.dvd_length_pad (n := 16) (by decide) data)
  simp only [encrypt, AesCipher.new, hk, if_true, pad, blockSize, bind, Except.bind, henc]
  rfl

@[simp] theorem length_header (k : AesKey) : (header (k.hash P)).length = 5 := by
  simp [header]

theorem length_body {k : AesKey} {ivBytes : Bytes} (hiv : ivBytes.length = 16) (data : Bytes) :
    (Cbc.encrypt (P.aes k.keyBytes) ivBytes (Cbc.pad 16 data)).length = (data.length / 16 + 1) * 16 := by
  rw [Cbc.length_encrypt hiv (Cbc.dvd_length_pad (by decide) data), Cbc.length_pad_eq (by decide)]

/-- The parts of a string laid out as header, initial vector, payload and signature. -/
theorem parts_of_layout {b hdr ivBytes body sig : Bytes} (hb : b = hdr ++ ivBytes ++ body ++ sig) (hhdr : hdr.length = 5)
    (hiv : ivBytes.length = 16) (hsig : sig.length = 20) :
    b.length = 41 + body.length ∧ b.take 5 = hdr ∧ iv b = ivBytes ∧ payload b = body ∧
      b.take (b.length - 20) = hdr ++ ivBytes ++ body ∧ b.drop (b.length - 20) = sig := by
  have hlen : b.length = 41 + body.length := by
    rw [hb]
    simp only [List.length_append]
    omega
  have hcut : b.length - 20 = (hdr ++ ivBytes ++ body).length := by
    rw [hlen]
    simp only [List.length_append]
    omega
  refine ⟨hlen, ?_, ?_, ?_, ?_, ?_⟩
  · rw [hb, List.append_assoc, List.append_assoc, List.take_left' hhdr]
  · rw [iv, hb, List.append_assoc, List.append_assoc, List.drop_left' hhdr, List.take_left' hiv]
  · rw [payload, hlen, hb, List.append_assoc, List.drop_left' (by rw [List.length_append, hhdr, hiv]),
      List.take_left' (by omega)]
  · rw [hcut, hb, List.take_left' rfl]
  · rw [hcut, hb, List.drop_left' rfl]

/-- What `decrypt` does with a string laid out as header, initial vector, payload and signature. -/
theorem decrypt_parts (k : AesKey) (hdr ivBytes body sig : Bytes) (hhdr : hdr.length = 5) (hiv : ivBytes.length = 16)
    (hsig : sig.length = 20) :
    k.decrypt P (hdr ++ ivBytes ++ body ++ sig) =
      if k.hmacKey.sign P (hdr ++ ivBytes ++ body) ≠ sig then .error .invalidSignatureError
      else if ¬ validKeyLength k.keyBytes.length then .error .valueError
      else if body.length % 16 ≠ 0 then .error .valueError
      else unPad (Cbc.decrypt (P.aes k.keyBytes) ivBytes body) := by
  obtain ⟨hlen, -, hivEq, hpay, htake, hdrop⟩ := parts_of_layout (rfl : hdr ++ ivBytes ++ body ++ sig = _) hhdr hiv hsig
  rw [decrypt_eq, htake, hdrop, hivEq, hpay, if_neg (by omega)]

/-- A string laid out with a signature of the key, of whole blocks. -/
theorem decrypt_layout (k : AesKey) (hdr ivBytes body : Bytes) (hhdr : hdr.length = 5) (hiv : ivBytes.length = 16)
    (hk : validKeyLength k.keyBytes.length = true) (hbody : body.length % 16 = 0) :
    k.decrypt P (hdr ++ ivBytes ++ body ++ P.hmacSha1 k.hmacKey.keyBytes (hdr ++ ivBytes ++ body)) =
      unPad (Cbc.decrypt (P.aes k.keyBytes) ivBytes body) := by
  have hsig : k.hmacKey.sign P (hdr ++ ivBytes ++ body) = P.hmacSha1 k.hmacKey.keyBytes (hdr ++ ivBytes ++ body) := rfl
  rw [decrypt_parts P k hdr ivBytes body _ hhdr hiv (P.length_hmacSha1 _ _), if_neg (not_not_intro hsig),
    if_neg (not_not_intro hk), if_neg (not_not_intro hbody)]

/-- Decryption undoes encryption. -/
theorem decrypt_ciphertext (k : AesKey) {ivBytes : Bytes} (hiv : ivBytes.length = 16) (data : Bytes)
    (hk : validKeyLength k.keyBytes.length = true) : k.decrypt P (k.ciphertext P ivBytes data) = .ok data := by
  have hdvd := Cbc.dvd_length_pad (n := 16) (by decide) data
  have hbody : (Cbc.encrypt (P.aes k.keyBytes) ivBytes (Cbc.pad 16 data)).length % 16 = 0 := by
    rw [length_body P hiv, Nat.mul_mod_left]
  rw [ciphertext, decrypt_layout P k _ ivBytes _ (length_header P k) hiv hk hbody, Cbc.decrypt_encrypt hiv hdvd]
  exact unPad_pad data

end AesKey

end Python
