import Keyczar.Cpp.AESRuns
import Keyczar.Cpp.Base64W
import Keyczar.Cpp.Signer

/-!
# Signed sessions of the C++ library

The two objects of a signed session once they share its key and its nonce. A string to write to is handed down from the session to the
key and to the cipher, which writes behind what it finds: so what the caller's string holds afterwards depends on what it held, and a final
call that fails has written too.
-/

namespace Cpp

open Bytes Throwing

/-- `Session`. -/
structure Session where
  sessionKey : AESKey
  nonce : Bytes
  deriving DecidableEq, Repr

namespace Session

variable (P : Primitives) (s : Session)

/-- `Encrypt`. -/
def encrypt (iv plaintext : Bytes) : Option Bytes := s.sessionKey.encrypt P iv plaintext

/-- `Decrypt`. -/
def decrypt (ciphertext plaintext : Bytes) : Except Exception (Bool × Bytes) := s.sessionKey.decrypt P ciphertext plaintext

end Session

/-- `SignedSessionEncrypter`. The encoding is that of its signer. -/
structure SignedSessionEncrypter (ρ : Type) where
  signer : Signer ρ
  encoding : Encoding := .base64W
  session : Session

/-- `SessionEncrypt`. -/
def SignedSessionEncrypter.sessionEncrypt {ρ : Type} (P : Primitives) (e : SignedSessionEncrypter ρ) (iv : Bytes) (random : ρ)
    (plaintext : Bytes) : Except Exception (Option Bytes) :=
  match e.session.encrypt P iv plaintext with
  | none => .ok none
  | some ciphertext =>
    match e.signer.attachedSign random ciphertext e.session.nonce with
    | none => .ok none
    | some unencodedResult => e.encoding.encode unencodedResult

/-- `SignedSessionDecrypter`. The encoding is that of its verifier. -/
structure SignedSessionDecrypter where
  verifier : Keyczar
  encoding : Encoding := .base64W
  session : Session

namespace SignedSessionDecrypter

variable (P : Primitives) (d : SignedSessionDecrypter)

/-- `AttachedVerify` of the verifier, with its encoding. -/
def attachedVerify (signedData hidden data : Bytes) : Except Exception (Bool × Bytes) := do
  match ← d.encoding.decode signedData with
  | none => return (false, data)
  | some decodedBytes => Verifier.attachedVerify P d.verifier decodedBytes hidden data

/-- `SessionDecrypt` into a string. -/
def sessionDecrypt (ciphertext plaintext : Bytes) : Except Exception (Bool × Bytes) := do
  let (verified, encryptedData) ← d.attachedVerify P ciphertext d.session.nonce []
  if !verified then return (false, plaintext)
  d.session.decrypt P encryptedData plaintext

end SignedSessionDecrypter

/-! ## What the cipher writes -/

namespace AESOpenSSL

variable {P : Primitives} {a : AESOpenSSL} {iv body out out' : Bytes}

/-- An update has written its blocks; the final call follows, with room for a block. -/
theorem decryptFinal_of_decrypt (hiv : iv.length = 16) (hbody : body.length + 16 < 2 ^ 31) {b : Bool}
    (h : a.decrypt P iv body out = .ok (b, out')) :
    ∃ n w, currentSize out = .ok n ∧ w.length = n + updateLength body.length ∧ w.length + 16 < 2 ^ 31 ∧
      finalSize w = .ok w.length ∧ a.decryptFinal P iv body w = .ok (b, out') := by
  have hdecrypt := h
  obtain ⟨n, hsize, -⟩ := ok_of_bind h
  rw [decrypt_of_size (by omega) hsize] at hdecrypt
  have hn := natCast_of_currentSize hsize
  have hle := toInt_le out.length
  have hlt := toInt_lt out.length
  have hupdate := updateLength_le body.length
  have hwritten : (out.take n ++ Cbc.decrypt (P.aes a.key) iv (body.take (updateLength body.length))).length =
      n + updateLength body.length := by
    rw [List.length_append, List.length_take_of_le (by omega), length_decrypt_take a hiv]
  have hfinal := @finalSize_eq (out.take n ++ Cbc.decrypt (P.aes a.key) iv (body.take (updateLength body.length)))
    (by rw [hwritten]; omega)
  generalize out.take n ++ Cbc.decrypt (P.aes a.key) iv (body.take (updateLength body.length)) = w at hdecrypt hwritten hfinal
  by_cases hroom : w.length + blockSize < 2 ^ 31
  · rw [if_pos hroom] at hfinal
    exact ⟨n, w, hsize, hwritten, hroom, hfinal, hdecrypt⟩
  · rw [if_neg hroom] at hfinal
    rw [decryptFinal, hfinal, error_bind] at hdecrypt
    cases hdecrypt

/-- A decryption that fails has changed the string. -/
theorem ne_of_decrypt_false (hiv : iv.length = 16) (hbody : body.length + 16 < 2 ^ 31)
    (h : a.decrypt P iv body out = .ok (false, out')) : out' ≠ out := by
  obtain ⟨n, w, hsize, hw, hroom, hfinal, hrun⟩ := decryptFinal_of_decrypt hiv hbody h
  rcases @decryptFinal_of_size P _ _ a iv body hfinal with ⟨last, htrue⟩ | hfalse
  · rw [htrue] at hrun
    cases hrun
  · rw [hfalse] at hrun
    have hlength : out'.length = w.length + 16 := by
      rw [← (Prod.mk.inj (Except.ok.inj hrun)).2, resize, List.length_append, List.length_replicate, List.length_take, blockSize]
      omega
    rintro rfl
    -- a string of that length would have been kept whole
    rw [currentSize_of_lt (by omega)] at hsize
    have hn : out'.length = n := Except.ok.inj hsize
    omega

/-- The lengths of a string that was decrypted into, before and after, are `int`s. -/
theorem lengths_of_decrypt_true (hiv : iv.length = 16) (hbody : body.length + 16 < 2 ^ 31)
    (h : a.decrypt P iv body out = .ok (true, out')) : (∃ n, currentSize out = .ok n) ∧ out'.length < 2 ^ 31 := by
  obtain ⟨n, w, hsize, -, hroom, hfinal, hrun⟩ := decryptFinal_of_decrypt hiv hbody h
  refine ⟨⟨n, hsize⟩, ?_⟩
  rw [decryptFinal, hfinal, ok_bind] at hrun
  dsimp only at hrun
  by_cases hwhole : body.length % blockSize ≠ 0 ∨ body = []
  · rw [if_pos hwhole] at hrun
    cases hrun
  · rw [if_neg hwhole] at hrun
    split at hrun
    · cases hrun
    · rename_i last hunpad
      obtain ⟨hmod, hne⟩ := not_or.mp hwhole
      have hpos := List.length_pos_iff.mpr hne
      have hmod' : body.length % 16 = 0 := not_not.mp hmod
      have hblock : (body.drop (updateLength body.length)).length = 16 := by
        rw [List.length_drop, updateLength, blockSize, if_pos hmod']
        omega
      have hlast := Cbc.length_of_unpad? hunpad
      rw [Cbc.length_decrypt (by rw [Cbc.length_lastBlock, hiv]) (by rw [hblock]), hblock] at hlast
      rw [← (Prod.mk.inj (Except.ok.inj hrun)).2, List.length_append, List.take_length]
      omega

variable (P a) in
/-- Encrypted bytes that are those of a plaintext. -/
def Opens (iv body : Bytes) : Prop := 16 ∣ body.length ∧ ∃ plain, Cbc.decrypt (P.aes a.key) iv body = Cbc.pad 16 plain

/-- They are decrypted, or the string becomes too long. -/
theorem decrypt_ne_false (hiv : iv.length = 16) (hbody : body.length + 16 < 2 ^ 31) (hopens : a.Opens P iv body) :
    a.decrypt P iv body out ≠ .ok (false, out') := by
  obtain ⟨hdvd, plain, hplain⟩ := hopens
  intro h
  obtain ⟨n, hsize, -⟩ := ok_of_bind h
  rw [decrypt_of_pad hiv hdvd (by omega) hplain hsize] at h
  split at h
  · cases h
  · cases h

/-- A plaintext that leaves no room for a block is not encrypted. -/
theorem encrypt_of_large {plain : Bytes} (hlarge : 2 ^ 31 ≤ plain.length + 16) (hlt : plain.length < 2 ^ 31) :
    a.encrypt P iv plain = none := by
  have hneg : toInt ((plain.length : Int) / blockSize * blockSize + blockSize) < 0 := by
    have hcast : ((plain.length : Int) / blockSize * blockSize + blockSize) = (plain.length / 16 * 16 + 16 : Nat) := by
      rw [blockSize]
      push_cast
      omega
    rw [hcast]
    exact toInt_neg (by omega) (by omega)
  rw [encrypt, updateInput_of_lt hlt, Option.bind_eq_bind, Option.bind_some, if_pos hneg]
  rfl

end AESOpenSSL

/-! ## What the key makes of a string -/

namespace AESKey

variable {P : Primitives} {k : AESKey} {data out out' : Bytes}

/-- A decryption that fails has changed the string exactly when it has come to the cipher. -/
theorem eq_iff_of_decrypt_false (h : k.decrypt P data out = .ok (false, out')) :
    out' = out ↔ ¬∃ iv body, k.verified P data = .ok (some (iv, body)) ∧ ¬k.aesImpl.Opens P iv body := by
  rw [decrypt_eq] at h
  obtain ⟨parts, hverified, h⟩ := ok_of_bind h
  cases parts with
  | none =>
    have heq : out = out' := (Prod.mk.inj (Except.ok.inj h)).2
    refine iff_of_true heq.symm ?_
    rintro ⟨iv, body, hparts, -⟩
    rw [hverified] at hparts
    cases hparts
  | some parts =>
    obtain ⟨iv, body⟩ := parts
    obtain ⟨hiv, hbody⟩ := length_of_verified hverified
    refine iff_of_false (AESOpenSSL.ne_of_decrypt_false hiv hbody h) (not_not_intro ⟨iv, body, hverified, ?_⟩)
    intro hopens
    exact AESOpenSSL.decrypt_ne_false hiv hbody hopens h

theorem lengths_of_decrypt_true (h : k.decrypt P data out = .ok (true, out')) :
    (∃ n, AESOpenSSL.currentSize out = .ok n) ∧ out'.length < 2 ^ 31 := by
  rw [decrypt_eq] at h
  obtain ⟨parts, hverified, h⟩ := ok_of_bind h
  cases parts with
  | none => cases h
  | some parts =>
    obtain ⟨iv, body⟩ := parts
    obtain ⟨hiv, hbody⟩ := length_of_verified hverified
    exact AESOpenSSL.lengths_of_decrypt_true hiv hbody h

end AESKey

/-! ## What a session delivers -/

/-- A verifier has the key that goes with the primary key of a signer, and accepts what this has signed. No signature is long. -/
structure Verifies (P : Primitives) {ρ : Type} (signer : Signer ρ) (verifier : Keyczar) (k : SigningKey ρ) (hashBytes : Bytes)
    (key : Key) : Prop where
  signing : ∃ keyset, signer.keyset = some keyset
  primary : signer.primaryKey = some k
  length_hash : hashBytes.length = kKeyHashSize
  hash : k.hash = base64WEncode hashBytes
  found : ∃ keyset, verifier.keyset = some keyset ∧ keyset.getKeyFromHash (Base64.encode Base64.webSafe hashBytes) = some key
  accepts : ∀ {random message sig}, k.sign random message = some sig → key.verify P message sig = true
  length_sign : ∀ {random message sig}, k.sign random message = some sig → sig.length < 2 ^ 16

namespace SignedSessionDecrypter

variable {P : Primitives} {d : SignedSessionDecrypter} {ciphertext data out out' : Bytes}

theorem attachedVerify_of_decode {decoded : Bytes} (h : d.encoding.decode ciphertext = .ok (some decoded)) (hidden old : Bytes) :
    d.attachedVerify P ciphertext hidden old = Verifier.attachedVerify P d.verifier decoded hidden old := by
  rw [attachedVerify, h, ok_bind]

/-- What was verified is decrypted. -/
theorem sessionDecrypt_of_verified (h : d.attachedVerify P ciphertext d.session.nonce [] = .ok (true, data)) (out : Bytes) :
    d.sessionDecrypt P ciphertext out = d.session.decrypt P data out := by
  rw [sessionDecrypt, h, ok_bind]
  simp only [Bool.not_true, Bool.false_eq_true, if_false]

/-- What was not leaves the string as it is. -/
theorem sessionDecrypt_of_refused (h : d.attachedVerify P ciphertext d.session.nonce [] = .ok (false, data)) (out : Bytes) :
    d.sessionDecrypt P ciphertext out = .ok (false, out) := by
  rw [sessionDecrypt, h, ok_bind]
  rfl

variable (P d ciphertext) in
/-- A message that is signed as it should be, and the ciphertext in it too, with encrypted bytes that are those of no plaintext. -/
def NoPlaintext : Prop :=
  ∃ data iv body, d.attachedVerify P ciphertext d.session.nonce [] = .ok (true, data) ∧
    d.session.sessionKey.verified P data = .ok (some (iv, body)) ∧ ¬d.session.sessionKey.aesImpl.Opens P iv body

/-- A call that fails leaves the string as it was, except for such a message. -/
theorem eq_iff_of_sessionDecrypt_false (h : d.sessionDecrypt P ciphertext out = .ok (false, out')) :
    out' = out ↔ ¬d.NoPlaintext P ciphertext := by
  obtain ⟨⟨verified, data⟩, hverify, -⟩ := ok_of_bind h
  cases verified with
  | false =>
    rw [sessionDecrypt_of_refused hverify] at h
    have heq : out = out' := (Prod.mk.inj (Except.ok.inj h)).2
    refine iff_of_true heq.symm ?_
    rintro ⟨data', iv, body, hverify', -⟩
    rw [hverify] at hverify'
    cases hverify'
  | true =>
    rw [sessionDecrypt_of_verified hverify] at h
    rw [AESKey.eq_iff_of_decrypt_false h, not_iff_not]
    constructor
    · rintro ⟨iv, body, hparts, hopens⟩
      exact ⟨data, iv, body, hverify, hparts, hopens⟩
    · rintro ⟨data', iv, body, hverify', hparts, hopens⟩
      rw [hverify] at hverify'
      obtain ⟨-, rfl⟩ := Prod.mk.inj (Except.ok.inj hverify')
      exact ⟨iv, body, hparts, hopens⟩

theorem lengths_of_sessionDecrypt_true (h : d.sessionDecrypt P ciphertext out = .ok (true, out')) :
    (∃ n, AESOpenSSL.currentSize out = .ok n) ∧ out'.length < 2 ^ 31 := by
  obtain ⟨⟨verified, data⟩, hverify, -⟩ := ok_of_bind h
  cases verified with
  | false =>
    rw [sessionDecrypt_of_refused hverify] at h
    cases h
  | true =>
    rw [sessionDecrypt_of_verified hverify] at h
    exact AESKey.lengths_of_decrypt_true h

end SignedSessionDecrypter

/-- A blob that is shorter than a header and a length is refused. -/
theorem Verifier.attachedVerify_of_short (P : Primitives) (z : Keyczar) {signedData : Bytes} (h : signedData.length < headerSize + 4)
    (hidden old : Bytes) : Verifier.attachedVerify P z signedData hidden old = .ok (false, old) := by
  have hnum : byteStringToInt32 signedData headerSize = none := by rw [byteStringToInt32, if_pos h]
  have hparse : Verifier.parseAttachedSignature signedData = .ok none := by
    unfold Verifier.parseAttachedSignature
    rw [substr_of_le (Nat.zero_le _), ok_bind]
    simp only [hnum]
    rfl
  rw [Verifier.attachedVerify, hparse]
  rfl

namespace Session

/-- How long the ciphertext of a plaintext is. -/
def ciphertextLength (s : Session) (plaintext : Bytes) : Nat := 21 + (plaintext.length / 16 + 1) * 16 + s.sessionKey.hmacKey.digest.size

/-- The ciphertext ends at an `int` in the blob, and the blob can be encoded. -/
def Fits (s : Session) (encoding : Encoding) (plaintext sig : Bytes) : Prop :=
  9 + s.ciphertextLength plaintext < 2 ^ 31 ∧ encoding.Fits (9 + s.ciphertextLength plaintext + sig.length)

end Session

section

variable {P : Primitives} {ρ : Type} {signer : Signer ρ} {verifier : Keyczar} {k : SigningKey ρ} {hashBytes : Bytes} {key : Key}
  {session : Session} {encoding : Encoding} {iv plaintext sig : Bytes} {random : ρ}

/-- What the encrypter gives to the encoder, for a plaintext that leaves room for a block. -/
theorem Verifies.sessionEncrypt (h : Verifies P signer verifier k hashBytes key) (hlen : plaintext.length + 16 < 2 ^ 31)
    (hsig : k.sign random (Verifier.buildMessageToSign (session.sessionKey.ciphertext P iv plaintext) (some session.nonce)) = some sig) :
    SignedSessionEncrypter.sessionEncrypt P ⟨signer, encoding, session⟩ iv random plaintext =
      encoding.encode ([0] ++ hashBytes ++ (be32 (session.sessionKey.ciphertext P iv plaintext).length ++
        session.sessionKey.ciphertext P iv plaintext) ++ sig) := by
  obtain ⟨keyset, hkeyset⟩ := h.signing
  have hpos : 0 < hashBytes.length := by
    rw [h.length_hash]
    decide
  have hencrypt : session.encrypt P iv plaintext = some (session.sessionKey.ciphertext P iv plaintext) :=
    AESKey.encrypt_eq_ciphertext iv hlen
  have hsign := Signer.attachedSign_eq hkeyset h.primary hpos h.hash hsig
  rw [SignedSessionEncrypter.sessionEncrypt, hencrypt]
  dsimp only
  rw [hsign]

/-- The blob of a ciphertext that ends at an `int`, once it is decoded, is decrypted behind what the string holds. -/
theorem Verifies.sessionDecrypt (h : Verifies P signer verifier k hashBytes key) (hiv : iv.length = 16)
    (hlen : 9 + session.ciphertextLength plaintext < 2 ^ 31)
    (hsig : k.sign random (Verifier.buildMessageToSign (session.sessionKey.ciphertext P iv plaintext) (some session.nonce)) = some sig)
    {blob : Bytes} (hdecode : encoding.decode blob = .ok (some ([0] ++ hashBytes ++
      (be32 (session.sessionKey.ciphertext P iv plaintext).length ++ session.sessionKey.ciphertext P iv plaintext) ++ sig)))
    {out : Bytes} {n : Nat} (hsize : AESOpenSSL.currentSize out = .ok n) :
    SignedSessionDecrypter.sessionDecrypt P ⟨verifier, encoding, session⟩ blob out =
      if n + (plaintext.length / 16 + 1) * 16 < 2 ^ 31 then .ok (true, out.take n ++ plaintext) else .error .lengthError := by
  obtain ⟨keyset, hkeyset, hkey⟩ := h.found
  have hlength : (session.sessionKey.ciphertext P iv plaintext).length = session.ciphertextLength plaintext :=
    AESKey.length_ciphertext hiv plaintext
  have hverify : SignedSessionDecrypter.attachedVerify P ⟨verifier, encoding, session⟩ blob session.nonce [] =
      .ok (true, session.sessionKey.ciphertext P iv plaintext) := by
    have haccepts := h.accepts hsig
    simp only [Verifier.buildMessageToSign, int32ToByteString, kVersionByte, List.append_assoc] at haccepts
    rw [SignedSessionDecrypter.attachedVerify_of_decode hdecode,
      Verifier.attachedVerify_layout P verifier h.length_hash (by rw [hlength]; exact hlen) hkeyset hkey]
    simp only [List.append_assoc, haccepts]
  rw [SignedSessionDecrypter.sessionDecrypt_of_verified hverify]
  exact AESKey.decrypt_ciphertext hiv (by rw [hlength]; omega) hsize

theorem Verifies.length_blob (h : Verifies P signer verifier k hashBytes key) (session : Session) (hiv : iv.length = 16)
    (plaintext sig : Bytes) :
    ([0] ++ hashBytes ++ (be32 (session.sessionKey.ciphertext P iv plaintext).length ++
      session.sessionKey.ciphertext P iv plaintext) ++ sig).length = 9 + session.ciphertextLength plaintext + sig.length := by
  have hdata : (session.sessionKey.ciphertext P iv plaintext).length = session.ciphertextLength plaintext :=
    AESKey.length_ciphertext hiv plaintext
  simp only [List.length_append, List.length_singleton, h.length_hash, kKeyHashSize, length_be32, hdata]
  omega

/-- A blob that can be encoded is decoded again. -/
theorem Verifies.decode_encode (h : Verifies P signer verifier k hashBytes key) (hiv : iv.length = 16)
    (hfits : encoding.Fits (9 + session.ciphertextLength plaintext + sig.length)) :
    ∃ t, encoding.encode ([0] ++ hashBytes ++ (be32 (session.sessionKey.ciphertext P iv plaintext).length ++
        session.sessionKey.ciphertext P iv plaintext) ++ sig) = .ok (some t) ∧
      encoding.decode t = .ok (some ([0] ++ hashBytes ++ (be32 (session.sessionKey.ciphertext P iv plaintext).length ++
        session.sessionKey.ciphertext P iv plaintext) ++ sig)) := by
  have hblob := h.length_blob session hiv plaintext sig
  refine Encoding.decode_encode ?_ (hblob.symm ▸ hfits)
  rw [← List.length_pos_iff, hblob]
  omega

/-- A blob that the session's decrypter takes the plaintext out of can be encoded, and its ciphertext ends at an `int`. -/
theorem Verifies.fits_of_delivered (h : Verifies P signer verifier k hashBytes key) (hiv : iv.length = 16)
    (hsig : k.sign random (Verifier.buildMessageToSign (session.sessionKey.ciphertext P iv plaintext) (some session.nonce)) = some sig)
    {blob out : Bytes}
    (hencrypt : SignedSessionEncrypter.sessionEncrypt P ⟨signer, encoding, session⟩ iv random plaintext = .ok (some blob))
    (hdecrypt : SignedSessionDecrypter.sessionDecrypt P ⟨verifier, encoding, session⟩ blob out = .ok (true, plaintext)) :
    session.Fits encoding plaintext sig ∧ encoding.decode blob = .ok (some ([0] ++ hashBytes ++
      (be32 (session.sessionKey.ciphertext P iv plaintext).length ++ session.sessionKey.ciphertext P iv plaintext) ++ sig)) := by
  have hshort : plaintext.length < 2 ^ 31 := (SignedSessionDecrypter.lengths_of_sessionDecrypt_true hdecrypt).2
  have hdigest := session.sessionKey.hmacKey.digest.size_le
  have hsign := h.length_sign hsig
  -- the plaintext was encrypted
  have hlen : plaintext.length + 16 < 2 ^ 31 := by
    by_contra hlarge
    have hnone : session.encrypt P iv plaintext = none := by
      rw [Session.encrypt, AESKey.encrypt, AESOpenSSL.encrypt_of_large (Nat.not_lt.mp hlarge) hshort]
      rfl
    rw [SignedSessionEncrypter.sessionEncrypt, hnone] at hencrypt
    cases hencrypt
  rw [h.sessionEncrypt hlen hsig] at hencrypt
  have hdata : (session.sessionKey.ciphertext P iv plaintext).length = session.ciphertextLength plaintext :=
    AESKey.length_ciphertext hiv plaintext
  have hbound : session.ciphertextLength plaintext < 2 ^ 31 + 2 ^ 10 := by
    unfold Session.ciphertextLength
    omega
  have hblob := h.length_blob session hiv plaintext sig
  -- the blob was encoded whole
  by_cases hfits : encoding.Fits (9 + session.ciphertextLength plaintext + sig.length)
  · obtain ⟨t, ht, hdecode⟩ := h.decode_encode hiv hfits
    rw [ht] at hencrypt
    obtain rfl := Option.some.inj (Except.ok.inj hencrypt)
    refine ⟨⟨?_, hfits⟩, hdecode⟩
    by_contra hlarge
    have hparse : Verifier.parseAttachedSignature ([0] ++ hashBytes ++ (be32 (session.sessionKey.ciphertext P iv plaintext).length ++
        session.sessionKey.ciphertext P iv plaintext) ++ sig) = .ok none :=
      Verifier.parseAttachedSignature_of_large h.length_hash (by rw [hdata]; omega) (by rw [hdata]; omega)
    have hrefused : SignedSessionDecrypter.attachedVerify P ⟨verifier, encoding, session⟩ t session.nonce [] = .ok (false, []) := by
      rw [SignedSessionDecrypter.attachedVerify_of_decode hdecode, Verifier.attachedVerify, hparse]
      rfl
    rw [SignedSessionDecrypter.sessionDecrypt_of_refused hrefused] at hdecrypt
    cases hdecrypt
  · rcases Encoding.encode_of_not_fits (hblob.symm ▸ hfits) (by rw [hblob]; omega) with herror | ⟨t, ht, hdecode⟩
    · rw [herror] at hencrypt
      cases hencrypt
    · rw [ht] at hencrypt
      obtain rfl := Option.some.inj (Except.ok.inj hencrypt)
      have hrefused : SignedSessionDecrypter.attachedVerify P ⟨verifier, encoding, session⟩ t session.nonce [] = .ok (false, []) := by
        rw [SignedSessionDecrypter.attachedVerify_of_decode hdecode]
        exact Verifier.attachedVerify_of_short P verifier ((List.length_take_le 2 _).trans_lt (by decide)) _ _
      rw [SignedSessionDecrypter.sessionDecrypt_of_refused hrefused] at hdecrypt
      cases hdecrypt

/-- The size that is read of a string is zero: it is empty, or its length a multiple of `2 ^ 32`. -/
theorem AESOpenSSL.currentSize_eq_zero_iff {out : Bytes} : AESOpenSSL.currentSize out = .ok 0 ↔ 2 ^ 32 ∣ out.length := by
  have hmod := toInt_emod out.length
  have hlt := toInt_lt out.length
  have hle := neg_le_toInt out.length
  constructor
  · intro h
    have hzero := AESOpenSSL.natCast_of_currentSize h
    omega
  · intro h
    have hzero : toInt out.length = 0 := by omega
    rw [AESOpenSSL.currentSize, hzero]
    rfl

/-- A signed session delivers a plaintext, and nothing but it, exactly into a string of which no byte is kept, as long as the lengths are
`int`s. A decryption that fails leaves the string as it was, except for a message that is signed as it should be, by the holder of the
session key too, and has encrypted bytes that are those of no plaintext. -/
theorem sessions_deliver_iff (h : Verifies P signer verifier k hashBytes key) (session : Session) (encoding : Encoding) :
    (∀ iv random plaintext sig out, iv.length = 16 →
      k.sign random (Verifier.buildMessageToSign (session.sessionKey.ciphertext P iv plaintext) (some session.nonce)) = some sig →
      ((∃ blob, SignedSessionEncrypter.sessionEncrypt P ⟨signer, encoding, session⟩ iv random plaintext = .ok (some blob) ∧
          SignedSessionDecrypter.sessionDecrypt P ⟨verifier, encoding, session⟩ blob out = .ok (true, plaintext)) ↔
        2 ^ 32 ∣ out.length ∧ session.Fits encoding plaintext sig)) ∧
    ∀ ciphertext out out',
      SignedSessionDecrypter.sessionDecrypt P ⟨verifier, encoding, session⟩ ciphertext out = .ok (false, out') →
      (out' = out ↔ ¬SignedSessionDecrypter.NoPlaintext P ⟨verifier, encoding, session⟩ ciphertext) := by
  refine ⟨?_, fun ciphertext out out' => SignedSessionDecrypter.eq_iff_of_sessionDecrypt_false⟩
  intro iv random plaintext sig out hiv hsig
  constructor
  · rintro ⟨blob, hencrypt, hdecrypt⟩
    obtain ⟨hfits, hdecode⟩ := h.fits_of_delivered hiv hsig hencrypt hdecrypt
    refine ⟨?_, hfits⟩
    obtain ⟨n, hsize⟩ := (SignedSessionDecrypter.lengths_of_sessionDecrypt_true hdecrypt).1
    rw [h.sessionDecrypt hiv hfits.1 hsig hdecode hsize] at hdecrypt
    split at hdecrypt
    · have heq : out.take n ++ plaintext = plaintext := (Prod.mk.inj (Except.ok.inj hdecrypt)).2
      have hn := AESOpenSSL.natCast_of_currentSize hsize
      have hle := toInt_le out.length
      have hlength := congrArg List.length heq
      rw [List.length_append, List.length_take_of_le (by omega)] at hlength
      obtain rfl : n = 0 := by omega
      exact AESOpenSSL.currentSize_eq_zero_iff.mp hsize
    · cases hdecrypt
  · rintro ⟨hout, hfits⟩
    have hbound := hfits.1
    unfold Session.ciphertextLength at hbound
    obtain ⟨blob, hencode, hdecode⟩ := h.decode_encode hiv hfits.2
    refine ⟨blob, (h.sessionEncrypt (by omega) hsig).trans hencode, ?_⟩
    rw [h.sessionDecrypt hiv hfits.1 hsig hdecode (AESOpenSSL.currentSize_eq_zero_iff.mpr hout), if_pos (by omega)]
    rfl

end

/-! ## Sessions with an HMAC key -/

/-- An HMAC key as a key that signs. -/
def HMACKey.signingKey (P : Primitives) (k : HMACKey) : SigningKey Unit where
  key := .hmac k
  hash := k.hash P
  sign _ data := some (k.sign P data)

/-- A signer with one HMAC key. -/
def hmacSigner (P : Primitives) (k : HMACKey) : Signer Unit where
  keyset := some { hashMap := fun hash => if k.hash P = some hash then some (.hmac k) else none }
  primaryKey := some (k.signingKey P)

/-- It verifies what it signs. -/
theorem verifies_hmacSigner (P : Primitives) (k : HMACKey) :
    Verifies P (hmacSigner P k) (hmacSigner P k).toKeyczar (k.signingKey P) ((P.sha1 k.keyBytes).take kKeyHashSize) (.hmac k) where
  signing := ⟨_, rfl⟩
  primary := rfl
  length_hash := by simp [kKeyHashSize]
  hash := rfl
  found := by
    have hpos : 0 < ((P.sha1 k.keyBytes).take kKeyHashSize).length := by simp [kKeyHashSize]
    exact ⟨_, rfl, if_pos (base64WEncode_eq hpos)⟩
  accepts := by
    rintro random message sig hsign
    rw [← Option.some.inj hsign, Key.verify, HMACKey.verify, safeStringEquals, constantTimeEq_iff]
    rfl
  length_sign := by
    rintro random message sig hsign
    have hsize := k.digest.size_le
    rw [← Option.some.inj hsign, HMACKey.sign, P.length_hmac]
    omega

/-- The session of a key of ones. -/
def onesSession : Session where
  sessionKey := onesSet.onesKey
  nonce := [9]

theorem sessions_deliver_ones : ∃ blob,
    SignedSessionEncrypter.sessionEncrypt .plain ⟨hmacSigner .plain onesSet.onesKey.hmacKey, .base64W, onesSession⟩
      (List.replicate 16 0) () [7] = .ok (some blob) ∧
    SignedSessionDecrypter.sessionDecrypt .plain ⟨(hmacSigner .plain onesSet.onesKey.hmacKey).toKeyczar, .base64W, onesSession⟩ blob [] =
      .ok (true, [7]) := by
  have hfits : onesSession.Fits .base64W [7] (List.replicate 20 1) := ⟨by decide, show Base64W.Fits _ from by decide⟩
  have hdeliver := (sessions_deliver_iff (verifies_hmacSigner .plain onesSet.onesKey.hmacKey) onesSession .base64W).1
  exact (hdeliver (List.replicate 16 0) () [7] _ [] rfl rfl).mpr ⟨Nat.dvd_zero _, hfits⟩

/-- Into a string that is not empty the plaintext is written behind what it held; and a message with no encrypted bytes in it, which all the
keys have signed, is refused with a block of zeros there. -/
theorem output_is_written_behind :
    (∃ blob,
      SignedSessionEncrypter.sessionEncrypt .plain ⟨hmacSigner .plain onesSet.onesKey.hmacKey, .base64W, onesSession⟩
        (List.replicate 16 0) () [7] = .ok (some blob) ∧
      SignedSessionDecrypter.sessionDecrypt .plain ⟨(hmacSigner .plain onesSet.onesKey.hmacKey).toKeyczar, .base64W, onesSession⟩ blob
        [1] = .ok (true, [1, 7])) ∧
    SignedSessionDecrypter.sessionDecrypt .plain ⟨(hmacSigner .plain onesSet.onesKey.hmacKey).toKeyczar, .noEncoding, onesSession⟩
      ([0, 1, 1, 1, 1, 0, 0, 0, 41] ++ ([0, 0, 0, 0, 16] ++ List.replicate 16 0 ++ List.replicate 20 1) ++ List.replicate 20 1) [1] =
        .ok (false, [1] ++ List.replicate 16 0) := by
  have hverifies := verifies_hmacSigner .plain onesSet.onesKey.hmacKey
  have hfits : onesSession.Fits .base64W [7] (List.replicate 20 1) := ⟨by decide, show Base64W.Fits _ from by decide⟩
  have hiv : (List.replicate 16 (0 : UInt8)).length = 16 := rfl
  refine ⟨?_, by decide +kernel⟩
  have hsig : (onesSet.onesKey.hmacKey.signingKey .plain).sign () (Verifier.buildMessageToSign
      (onesSession.sessionKey.ciphertext .plain (List.replicate 16 0) [7]) (some onesSession.nonce)) = some (List.replicate 20 1) := rfl
  obtain ⟨blob, hencode, hdecode⟩ := hverifies.decode_encode hiv hfits.2
  refine ⟨blob, (hverifies.sessionEncrypt (by decide) hsig).trans hencode, ?_⟩
  exact hverifies.sessionDecrypt hiv hfits.1 hsig hdecode (show AESOpenSSL.currentSize [1] = .ok 1 from rfl)

end Cpp
