import Keyczar.Cpp.Keyczar
import Keyczar.Lib.Throwing

/-!
# Which calls cut a string where it has ended

Every cut of `keyczar.cc` and of the keys, with what has been checked by then. The lookup of a key checks the length of a header and
the parser of attached signatures checks each length; `Verify` cuts before any check, and the decryption of an AES key cuts with
lengths that nobody checks.
-/

namespace Cpp

open Bytes Throwing

/-! ## Lengths as `int`s -/

/-- No length becomes a larger `int`. -/
theorem toInt_le (n : Nat) : toInt n ≤ n := by
  rcases Nat.lt_or_ge n (2 ^ 31) with h | h
  · rw [toInt_of_lt h]
  · have hlt : toInt n < ((2 ^ 32 : Nat) + 1) / 2 := Int.bmod_lt (by decide)
    omega

/-- A difference of a length and a hash size that is not negative as an `int` is that of a length that is not smaller. -/
theorem le_of_toInt_sub_nonneg {n : Nat} {d : Digest} (h : 0 ≤ toInt ((n : Int) - d.size)) : d.size ≤ n := by
  by_contra hlt
  have hsize := d.size_le
  have hneg : toInt ((n : Int) - d.size) = n - d.size := by
    unfold toInt
    rw [Int.bmod_eq_of_le] <;> omega
  omega

theorem toInt_sub_le {n m : Nat} (h : m ≤ n) : toInt ((n : Int) - m) ≤ n := by
  have hle := toInt_le (n - m)
  rw [Int.natCast_sub h] at hle
  omega

/-! ## Looking up a key -/

/-- A string that is shorter than a header has no hash. -/
theorem Keyczar.getHash_of_short {bytes : Bytes} (h : toInt bytes.length < headerSize) : getHash bytes = .ok none := by
  unfold getHash
  rw [if_pos h]
  rfl

/-- The hash of a header. -/
theorem Keyczar.getHash_of_le {bytes : Bytes} (h : headerSize ≤ toInt bytes.length) :
    getHash bytes = .ok (some (Base64.encode Base64.webSafe ((bytes.drop 1).take kKeyHashSize))) := by
  have hlen : 5 ≤ bytes.length := Int.ofNat_le.mp (Int.le_trans h (toInt_le bytes.length))
  have hcut := substr_of_le (s := bytes) (p := 1) (by omega) (.of kKeyHashSize)
  have hsize : ((bytes.drop 1).take kKeyHashSize).length = 4 := by
    rw [List.length_take, List.length_drop]
    exact Nat.min_eq_left (show 4 ≤ bytes.length - 1 by omega)
  unfold getHash
  rw [if_neg (Int.not_lt.mpr h), hcut]
  exact congrArg Except.ok (base64WEncode_eq (hsize ▸ Nat.zero_lt_succ _))

/-- The key that a header names. -/
def Keyczar.headerKey (z : Keyczar) (keyHeader : Bytes) : Option Key :=
  if toInt keyHeader.length < headerSize then none
  else z.keyset.bind fun keyset => keyset.getKeyFromHash (Base64.encode Base64.webSafe ((keyHeader.drop 1).take kKeyHashSize))

/-- A lookup always returns. -/
theorem Keyczar.lookupKey_eq (z : Keyczar) (keyHeader : Bytes) : z.lookupKey keyHeader = .ok (z.headerKey keyHeader) := by
  unfold lookupKey headerKey
  by_cases hshort : toInt keyHeader.length < headerSize
  · rw [if_pos hshort, getHash_of_short hshort]
    cases z.keyset <;> rfl
  · rw [if_neg hshort, getHash_of_le (Int.not_lt.mp hshort)]
    cases z.keyset <;> rfl

/-- The header that a key is found by is all there. -/
theorem Keyczar.length_of_headerKey {z : Keyczar} {keyHeader : Bytes} {key : Key} (h : z.headerKey keyHeader = some key) :
    headerSize ≤ keyHeader.length := by
  unfold headerKey at h
  split at h
  · cases h
  · have hle := toInt_le keyHeader.length
    omega

/-! ## Writing behind a string -/

namespace AESOpenSSL

variable {P : Primitives} {out : Bytes} {n : Nat}

theorem natCast_of_currentSize (h : currentSize out = .ok n) : (n : Int) = toInt out.length := by
  unfold currentSize at h
  by_cases hneg : toInt out.length < 0
  · rw [if_pos hneg] at h
    cases h
  · rw [if_neg hneg] at h
    rw [← Except.ok.inj h, Int.toNat_of_nonneg (Int.not_lt.mp hneg)]

theorem currentSize_of_lt (h : out.length < 2 ^ 31) : currentSize out = .ok out.length := by
  rw [currentSize, toInt_of_lt h, if_neg (Int.not_lt.mpr (Int.natCast_nonneg _)), Int.toNat_natCast]

/-- A final call has its room as long as the size with it is an `int`. -/
theorem finalSize_eq (h : out.length < 2 ^ 32) :
    finalSize out = if out.length + blockSize < 2 ^ 31 then .ok out.length else .error .lengthError := by
  unfold finalSize
  rcases Nat.lt_or_ge out.length (2 ^ 31) with hlt | hge
  · have hcast : ((out.length : Int) + blockSize) = (out.length + blockSize : Nat) := rfl
    rw [currentSize_of_lt hlt, ok_bind, hcast]
    by_cases hroom : out.length + blockSize < 2 ^ 31
    · rw [if_pos hroom, toInt_of_lt hroom, if_neg (Int.not_lt.mpr (Int.natCast_nonneg _))]
      rfl
    · have hblock : blockSize = 16 := rfl
      rw [if_neg hroom, if_pos (toInt_neg (by omega) (by omega))]
      rfl
  · rw [currentSize, if_pos (toInt_neg (by omega) (by omega)), error_bind, if_neg (by omega)]

theorem updateLength_le (n : Nat) : updateLength n ≤ n := by
  unfold updateLength blockSize
  split <;> omega

theorem dvd_updateLength (n : Nat) : 16 ∣ updateLength n := by
  unfold updateLength blockSize
  split <;> omega

/-- What an update writes is as long as the blocks that it decrypts. -/
theorem length_decrypt_take (a : AESOpenSSL) {iv : Bytes} (hiv : iv.length = 16) (data : Bytes) :
    (Cbc.decrypt (P.aes a.key) iv (data.take (updateLength data.length))).length = updateLength data.length := by
  have hlength : (data.take (updateLength data.length)).length = updateLength data.length :=
    List.length_take_of_le (updateLength_le data.length)
  rw [Cbc.length_decrypt hiv (hlength.symm ▸ dvd_updateLength _), hlength]

/-- A string whose length is an `int` is read whole. -/
theorem updateInput_of_lt {s : Bytes} (h : s.length < 2 ^ 31) : updateInput s = some s := by
  have hint := int32_of_lt h
  unfold updateInput
  rw [hint, if_neg (Int.not_lt.mpr (Int.natCast_nonneg _)), Int.toNat_natCast, List.take_length]

/-- A decryption whose update has its room: the final call follows. -/
theorem decrypt_of_size {a : AESOpenSSL} {iv body : Bytes} (hbody : body.length < 2 ^ 31) (hsize : currentSize out = .ok n) :
    a.decrypt P iv body out =
      a.decryptFinal P iv body (out.take n ++ Cbc.decrypt (P.aes a.key) iv (body.take (updateLength body.length))) := by
  rw [decrypt, hsize, ok_bind, updateInput_of_lt hbody]

/-- What a final call does once it has room. -/
theorem decryptFinal_of_size {a : AESOpenSSL} {iv data : Bytes} (hsize : finalSize out = .ok n) :
    (∃ last, a.decryptFinal P iv data out = .ok (true, out.take n ++ last)) ∨
    a.decryptFinal P iv data out = .ok (false, resize out (n + blockSize)) := by
  unfold decryptFinal
  rw [hsize, ok_bind]
  dsimp only
  by_cases hwhole : data.length % blockSize ≠ 0 ∨ data = []
  · rw [if_pos hwhole]
    exact Or.inr rfl
  · rw [if_neg hwhole]
    split
    · exact Or.inr rfl
    · exact Or.inl ⟨_, rfl⟩

/-- Into an empty string a decryption never throws. -/
theorem decrypt_nil_ok {a : AESOpenSSL} {iv body : Bytes} (hiv : iv.length = 16) (hbody : body.length + 16 < 2 ^ 31) :
    ∃ r, a.decrypt P iv body [] = .ok r := by
  have hsize : currentSize [] = .ok 0 := rfl
  have hle := updateLength_le body.length
  have hwritten := length_decrypt_take (P := P) a hiv body
  rw [decrypt_of_size (by omega) hsize, List.take_nil, List.nil_append]
  have hfinal : finalSize (Cbc.decrypt (P.aes a.key) iv (body.take (updateLength body.length))) = .ok (updateLength body.length) := by
    have hroom : updateLength body.length + blockSize < 2 ^ 31 := by
      unfold blockSize
      omega
    rw [finalSize_eq (by omega), hwritten, if_pos hroom]
  rcases @decryptFinal_of_size P _ _ a iv body hfinal with ⟨last, hrun⟩ | hrun
  · exact ⟨_, hrun⟩
  · exact ⟨_, hrun⟩

end AESOpenSSL

/-! ## Decryption -/

/-- The part of a decryption that is done before the block cipher: the vector and the encrypted bytes, when the signature is right. -/
def AESKey.verified (P : Primitives) (k : AESKey) (ciphertext : Bytes) : Except Exception (Option (Bytes × Bytes)) := do
  let digestSize : Int := k.hmacKey.digestSize / 8
  let dataBytes ← substr ciphertext (.of headerSize)
  let dataBytesLen := toInt dataBytes.length
  let ivBytes ← substr dataBytes (.of 0) (.of AESOpenSSL.blockSize)
  let aesBytes ← substr dataBytes (.of AESOpenSSL.blockSize)
    (.ofInt (toInt (toInt (dataBytesLen - digestSize) - AESOpenSSL.blockSize)))
  let signatureBytes ← substr dataBytes (.ofInt (toInt (dataBytesLen - digestSize)))
  let signed ← substr ciphertext (.of 0) (.ofInt (ciphertext.length - digestSize))
  if !k.hmacKey.verify P signed signatureBytes then return none
  return some (ivBytes, aesBytes)

/-- A decryption is what comes before the block cipher, and the block cipher. -/
theorem AESKey.decrypt_eq (P : Primitives) (k : AESKey) (ciphertext plaintext : Bytes) :
    k.decrypt P ciphertext plaintext = k.verified P ciphertext >>= fun parts =>
      match parts with
      | none => .ok (false, plaintext)
      | some (ivBytes, aesBytes) => k.aesImpl.decrypt P ivBytes aesBytes plaintext := by
  unfold decrypt verified
  simp only [bind_assoc]
  refine bind_congr fun dataBytes => bind_congr fun ivBytes => bind_congr fun aesBytes => bind_congr fun signatureBytes =>
    bind_congr fun signed => ?_
  cases k.hmacKey.verify P signed signatureBytes with
  | false => rfl
  | true => simp only [Bool.not_true, Bool.false_eq_true, if_false, pure_bind]

/-- With a header in front, the cuts throw exactly when there is no room for the signature behind it, in `int` arithmetic. -/
theorem AESKey.verified_cases (P : Primitives) (k : AESKey) {ciphertext : Bytes} (hlen : headerSize ≤ ciphertext.length) :
    (toInt (ciphertext.length - headerSize - k.hmacKey.digest.size) < 0 ∧ k.verified P ciphertext = .error .outOfRange) ∨
    (0 ≤ toInt (ciphertext.length - headerSize - k.hmacKey.digest.size) ∧ ∃ r, k.verified P ciphertext = .ok r) := by
  have hdigest : ((k.hmacKey.digestSize : Nat) : Int) / 8 = k.hmacKey.digest.size := by
    rw [HMACKey.digestSize]
    omega
  have hlow := k.hmacKey.digest.le_size
  obtain ⟨n, hn⟩ := Nat.exists_eq_add_of_le hlen
  have hdata : (ciphertext.drop headerSize).length = n := by
    rw [List.length_drop, hn, Nat.add_sub_cancel_left]
  have hstart : ((ciphertext.length : Int) - headerSize - k.hmacKey.digest.size) = (n : Int) - k.hmacKey.digest.size := by
    rw [hn]
    push_cast
    omega
  rw [hstart]
  unfold verified
  rw [substr_of_le hlen, ok_bind]
  simp only [Size.take, hdigest, hdata, toInt_sub_toInt]
  rw [substr_of_le (Nat.zero_le _), ok_bind]
  rcases Int.lt_or_le (toInt ((n : Int) - k.hmacKey.digest.size)) 0 with hneg | hpos
  · left
    refine ⟨hneg, ?_⟩
    rcases Nat.lt_or_ge n AESOpenSSL.blockSize with hshort | hblock
    · rw [substr_of_lt (hdata.trans_lt hshort), error_bind]
    · rw [substr_of_le (hdata.symm ▸ hblock), ok_bind, Size.ofInt_of_neg hneg]
      rfl
  · right
    refine ⟨hpos, ?_⟩
    have hsize := le_of_toInt_sub_nonneg hpos
    have hblock : AESOpenSSL.blockSize ≤ n := by
      show 16 ≤ n
      omega
    obtain ⟨p, hp⟩ := Int.eq_ofNat_of_zero_le hpos
    have hple : p ≤ n := by
      have hle := toInt_sub_le hsize
      omega
    rw [substr_of_le (hdata.symm ▸ hblock), ok_bind, hp, Size.ofInt_natCast, substr_of_le (hdata.symm ▸ hple), ok_bind,
      substr_of_le (Nat.zero_le _), ok_bind]
    split
    · exact ⟨_, rfl⟩
    · exact ⟨_, rfl⟩

/-- What a cut that returned gives. -/
theorem of_substr {s t : Bytes} {p : Size} {m : Size} (h : substr s p m = .ok t) :
    ∃ q, p = .of q ∧ q ≤ s.length ∧ t = m.take (s.drop q) := by
  unfold substr at h
  split at h
  · cases h
  · rename_i q
    split at h
    · cases h
    · rename_i hle
      cases h
      exact ⟨q, rfl, Nat.not_lt.mp hle, rfl⟩

/-- A position that a string was cut at, from the number that it was computed as. -/
theorem Size.of_ofInt {x : Int} {q : Nat} (h : Size.ofInt x = .of q) : x = q := by
  unfold Size.ofInt at h
  by_cases hneg : x < 0
  · rw [if_pos hneg] at h
    cases h
  · rw [if_neg hneg] at h
    rw [← Size.of.inj h, Int.toNat_of_nonneg (Int.not_lt.mp hneg)]

/-- With a right signature the vector is whole, and the encrypted bytes leave room for a block. -/
theorem AESKey.length_of_verified {P : Primitives} {k : AESKey} {ciphertext iv body : Bytes}
    (h : k.verified P ciphertext = .ok (some (iv, body))) : iv.length = 16 ∧ body.length + 16 < 2 ^ 31 := by
  have hdigest : ((k.hmacKey.digestSize : Nat) : Int) / 8 = k.hmacKey.digest.size := by
    rw [HMACKey.digestSize]
    omega
  have hlow := k.hmacKey.digest.le_size
  have hhigh := k.hmacKey.digest.size_le
  unfold verified at h
  obtain ⟨dataBytes, -, h⟩ := ok_of_bind h
  obtain ⟨ivBytes, hiv, h⟩ := ok_of_bind h
  obtain ⟨aesBytes, haes, h⟩ := ok_of_bind h
  obtain ⟨signatureBytes, hsig, h⟩ := ok_of_bind h
  obtain ⟨signed, -, h⟩ := ok_of_bind h
  cases hverify : k.hmacKey.verify P signed signatureBytes with
  | false =>
    rw [hverify] at h
    cases h
  | true =>
    rw [hverify] at h
    obtain ⟨rfl, rfl⟩ := Prod.mk.inj (Option.some.inj (Except.ok.inj h))
    rw [hdigest, toInt_sub_toInt (dataBytes.length : Int)] at haes hsig
    obtain ⟨p, hp, -, hivEq⟩ := of_substr hiv
    obtain ⟨q, hq, hle, haesEq⟩ := of_substr haes
    obtain ⟨s, hs, hsle, hsigEq⟩ := of_substr hsig
    have hstart := Size.of_ofInt hs
    rw [← Size.of.inj hp, List.drop_zero] at hivEq
    rw [← Size.of.inj hq] at hle haesEq
    -- the signature is as long as a hash
    have hlength : dataBytes.length - s = k.hmacKey.digest.size := by
      rw [HMACKey.verify, safeStringEquals, constantTimeEq_iff] at hverify
      rw [← List.length_drop, ← P.length_hmac k.hmacKey.digest k.hmacKey.keyBytes signed, hverify, hsigEq]
      rfl
    have hlt := toInt_lt ((dataBytes.length : Int) - k.hmacKey.digest.size)
    rw [hstart] at hlt haesEq
    have hdrop : (dataBytes.drop AESOpenSSL.blockSize).length = dataBytes.length - 16 := List.length_drop
    refine ⟨?_, ?_⟩
    · rw [hivEq]
      exact List.length_take_of_le hle
    · rcases Nat.lt_or_ge s 16 with hshort | hlong
      · have hneg : toInt ((s : Int) - AESOpenSSL.blockSize) < 0 := by
          have hblock : ((AESOpenSSL.blockSize : Nat) : Int) = 16 := rfl
          rw [hblock, toInt, Int.bmod_eq_of_le] <;> omega
        rw [Size.ofInt_of_neg hneg] at haesEq
        have hall : aesBytes.length = dataBytes.length - 16 := by rw [haesEq, ← hdrop]; rfl
        omega
      · have hsub : toInt ((s : Int) - AESOpenSSL.blockSize) = (s - 16 : Nat) := by
          rw [← Int.natCast_sub (show AESOpenSSL.blockSize ≤ s from hlong)]
          exact toInt_of_lt (by omega)
        rw [hsub, Size.ofInt_natCast] at haesEq
        have hcut : aesBytes.length ≤ s - 16 := by
          rw [haesEq]
          exact List.length_take_le _ _
        omega

/-- With a header in front, the decryption of an AES key throws exactly when the cuts do. -/
theorem AESKey.decrypt_cases (P : Primitives) (k : AESKey) {ciphertext : Bytes} (hlen : headerSize ≤ ciphertext.length) :
    (toInt (ciphertext.length - headerSize - k.hmacKey.digest.size) < 0 ∧ k.decrypt P ciphertext [] = .error .outOfRange) ∨
    (0 ≤ toInt (ciphertext.length - headerSize - k.hmacKey.digest.size) ∧ ∃ r, k.decrypt P ciphertext [] = .ok r) := by
  rw [k.decrypt_eq]
  rcases k.verified_cases P hlen with ⟨hneg, hrun⟩ | ⟨hpos, r, hrun⟩
  · left
    exact ⟨hneg, by rw [hrun, error_bind]⟩
  · right
    refine ⟨hpos, ?_⟩
    rw [hrun, ok_bind]
    cases r with
    | none => exact ⟨_, rfl⟩
    | some parts =>
      obtain ⟨iv, body⟩ := parts
      obtain ⟨hiv, hbody⟩ := length_of_verified hrun
      exact AESOpenSSL.decrypt_nil_ok hiv hbody

/-- Keys of the other classes always return, once a header is there. -/
theorem RSAPrivateKey.decryptWithHeader_ok (k : RSAPrivateKey) {ciphertext : Bytes} (hlen : headerSize ≤ ciphertext.length)
    (plaintext : Bytes) : ∃ r, k.decryptWithHeader ciphertext plaintext = .ok r := by
  unfold decryptWithHeader
  rw [substr_of_le hlen, ok_bind]
  split
  · exact ⟨_, rfl⟩
  · exact ⟨_, rfl⟩

/-- The key that a ciphertext names is an AES key, and there is no room for its signature behind the header. -/
def Keyczar.NoRoom (z : Keyczar) (ciphertext : Bytes) : Prop :=
  ∃ k, z.headerKey ciphertext = some (.aes k) ∧ toInt (ciphertext.length - headerSize - k.hmacKey.digest.size) < 0

/-- The decryption with a key that was found. -/
theorem Key.decrypt_cases (P : Primitives) (key : Key) {ciphertext : Bytes} (hlen : headerSize ≤ ciphertext.length) :
    ((∃ k, key = .aes k ∧ toInt (ciphertext.length - headerSize - k.hmacKey.digest.size) < 0) ∧
      key.decrypt P ciphertext [] = .error .outOfRange) ∨
    ((∀ k, key = .aes k → 0 ≤ toInt (ciphertext.length - headerSize - k.hmacKey.digest.size)) ∧
      ∃ r, key.decrypt P ciphertext [] = .ok r) := by
  cases key with
  | aes k =>
    rcases k.decrypt_cases P hlen with ⟨hneg, hrun⟩ | ⟨hpos, hrun⟩
    · exact Or.inl ⟨⟨k, rfl, hneg⟩, hrun⟩
    · right
      refine ⟨?_, hrun⟩
      rintro _ ⟨⟩
      exact hpos
  | hmac k => exact Or.inr ⟨nofun, _, rfl⟩
  | rsaPrivate k => exact Or.inr ⟨nofun, k.decryptWithHeader_ok hlen []⟩
  | other hash verify => exact Or.inr ⟨nofun, _, rfl⟩

/-- A decryption throws exactly when the key that was found does. -/
theorem Crypter.decrypt_cases (P : Primitives) (z : Keyczar) (ciphertext plaintext : Bytes) :
    (z.NoRoom ciphertext ∧ decrypt P z ciphertext plaintext = .error .outOfRange) ∨
    (¬ z.NoRoom ciphertext ∧ ∃ r, decrypt P z ciphertext plaintext = .ok r) := by
  unfold decrypt
  cases hset : z.keyset with
  | none =>
    right
    refine ⟨?_, _, rfl⟩
    rintro ⟨k, hk, _⟩
    simp [Keyczar.headerKey, hset] at hk
  | some keyset =>
    simp only
    rw [z.lookupKey_eq, ok_bind]
    cases hkey : z.headerKey ciphertext with
    | none =>
      right
      refine ⟨?_, _, rfl⟩
      rintro ⟨k, hk, _⟩
      rw [hkey] at hk
      cases hk
    | some key =>
      simp only
      rcases key.decrypt_cases P (Keyczar.length_of_headerKey hkey) with ⟨⟨k, hk, hneg⟩, hrun⟩ | ⟨hpos, r, hrun⟩
      · left
        refine ⟨⟨k, hk ▸ hkey, hneg⟩, ?_⟩
        rw [hrun, error_bind]
      · right
        refine ⟨?_, ?_⟩
        · rintro ⟨k, hk, hneg⟩
          have heq : key = .aes k := Option.some.inj (hkey.symm.trans hk)
          exact absurd (hpos k heq) (Int.not_le.mpr hneg)
        · obtain ⟨decrypted, compressed⟩ := r
          rw [hrun, ok_bind]
          cases decrypted with
          | false => exact ⟨_, rfl⟩
          | true => exact ⟨_, rfl⟩

/-! ## Verification -/

namespace Verifier

variable (P : Primitives) (z : Keyczar)

theorem internalVerify_ok (verificationData keyHeader signature : Bytes) :
    ∃ b, internalVerify P z verificationData keyHeader signature = .ok b := by
  unfold internalVerify
  rw [z.lookupKey_eq, ok_bind]
  cases z.headerKey keyHeader with
  | none => exact ⟨_, rfl⟩
  | some key => exact ⟨_, rfl⟩

/-- A signature without a whole header is not refused: the cut behind the header throws. -/
theorem verify_cases (data signature : Bytes) :
    (signature.length < headerSize ∧ verify P z data signature = .error .outOfRange) ∨
    (headerSize ≤ signature.length ∧ ∃ b, verify P z data signature = .ok b) := by
  unfold verify
  rcases Nat.lt_or_ge signature.length headerSize with hshort | hlen
  · left
    exact ⟨hshort, by rw [substr_of_lt hshort, error_bind]⟩
  · right
    rw [substr_of_le hlen, ok_bind]
    exact ⟨hlen, internalVerify_ok P z _ _ _⟩

/-- The parser never throws: a negative length moves the last cut back, but not in front of the string. -/
theorem parseAttachedSignature_ok (signedData : Bytes) : ∃ r, parseAttachedSignature signedData = .ok r := by
  unfold parseAttachedSignature
  rw [substr_of_le (Nat.zero_le _), ok_bind]
  simp only
  cases hnum : byteStringToInt32 signedData headerSize with
  | none => exact ⟨_, rfl⟩
  | some dataLen =>
    have hlen : headerSize + 4 ≤ signedData.length := by
      unfold byteStringToInt32 at hnum
      by_contra hshort
      rw [if_pos (Nat.lt_of_not_le hshort)] at hnum
      cases hnum
    have hstart : (headerSize : Int) + 4 = (headerSize + 4 : Nat) := rfl
    simp only [hstart]
    cases hend : Size.ofInt (toInt (((headerSize + 4 : Nat) : Int) + dataLen)) with
    | npos => exact ⟨_, rfl⟩
    | of p =>
      rcases Nat.lt_or_ge signedData.length p with hshort | hple
      · have hexceeds : (Size.of p).exceeds signedData.length = true := decide_eq_true hshort
        rw [if_pos hexceeds]
        exact ⟨_, rfl⟩
      · have hwithin : ¬ (Size.of p).exceeds signedData.length = true := by
          rw [Size.exceeds, decide_eq_true_eq]
          exact Nat.not_lt.mpr hple
        rw [if_neg hwithin, Size.ofInt_natCast, substr_of_le hlen, ok_bind, substr_of_le hple, ok_bind]
        exact ⟨_, rfl⟩

/-- An attached signature is accepted or refused, whatever it is. -/
theorem attachedVerify_ok (signedData hidden data : Bytes) : ∃ r, attachedVerify P z signedData hidden data = .ok r := by
  obtain ⟨r, hr⟩ := parseAttachedSignature_ok signedData
  unfold attachedVerify
  rw [hr, ok_bind]
  cases r with
  | none => exact ⟨_, rfl⟩
  | some parts =>
    obtain ⟨header, data, signature⟩ := parts
    obtain ⟨b, hb⟩ := internalVerify_ok P z (buildMessageToSign data (some hidden)) header signature
    simp only
    rw [hb]
    exact ⟨_, rfl⟩

end Verifier

/-- The loop over the keys ends, and answers whether any key accepts. -/
theorem UnversionedVerifier.verifyKeys_eq (P : Primitives) (data signature : Bytes) (keys : List (Int × Key)) :
    verifyKeys P data signature keys = .ok (keys.any fun key => key.2.verify P data signature) := by
  induction keys with
  | nil => rfl
  | cons key keys ih =>
    obtain ⟨version, key⟩ := key
    rw [verifyKeys, List.any_cons, ih]
    cases key.verify P data signature with
    | true => rfl
    | false => rfl

theorem UnversionedVerifier.verify_ok (P : Primitives) (z : Keyczar) (data signature : Bytes) :
    ∃ b, verify P z data signature = .ok b := by
  unfold verify
  cases z.keyset with
  | none => exact ⟨_, rfl⟩
  | some keyset => exact ⟨_, verifyKeys_eq P data signature keyset.versionNumberMap⟩

/-! ## The entry points -/

/-- Which inputs are answered by true or false: to `Verify` those as long as a header, to `Decrypt` those that leave room for the
signature of the AES key they name, and to the others all. -/
theorem entry_points_return_iff (P : Primitives) (z : Keyczar) :
    (∀ data signature, (∃ b, Verifier.verify P z data signature = .ok b) ↔ headerSize ≤ signature.length) ∧
    (∀ signedData hidden data, ∃ r, Verifier.attachedVerify P z signedData hidden data = .ok r) ∧
    (∀ data signature, ∃ b, UnversionedVerifier.verify P z data signature = .ok b) ∧
    (∀ ciphertext plaintext, (∃ r, Crypter.decrypt P z ciphertext plaintext = .ok r) ↔ ¬ z.NoRoom ciphertext) := by
  refine ⟨fun data signature => ?_, Verifier.attachedVerify_ok P z, UnversionedVerifier.verify_ok P z,
    fun ciphertext plaintext => ?_⟩
  · rcases Verifier.verify_cases P z data signature with ⟨hshort, hrun⟩ | ⟨hlen, hrun⟩
    · refine iff_of_false ?_ (Nat.not_le.mpr hshort)
      rintro ⟨b, hb⟩
      rw [hrun] at hb
      cases hb
    · exact iff_of_true hrun hlen
  · rcases Crypter.decrypt_cases P z ciphertext plaintext with ⟨hroom, hrun⟩ | ⟨hroom, hrun⟩
    · refine iff_of_false ?_ (not_not_intro hroom)
      rintro ⟨r, hr⟩
      rw [hrun] at hr
      cases hr
    · exact iff_of_true hrun hroom

/-- A key set of one AES key, of 16 ones. -/
def onesSet : Keyczar where
  keyset := some
    { versionNumberMap := [(1, .aes onesKey)]
      hashMap := fun hash => if onesKey.hash .plain = some hash then some (.aes onesKey) else none }
where
  onesKey : AESKey :=
    { aesImpl := { key := List.replicate 16 1, valid := rfl }
      hmacKey := { keyBytes := List.replicate 20 1, digest := .sha1 } }

/-- An empty signature, and a ciphertext that is only the header of the key. -/
theorem short_inputs_throw : Verifier.verify .plain onesSet [] [] = .error .outOfRange ∧
    Crypter.decrypt .plain onesSet [0, 0, 0, 0, 16] [] = .error .outOfRange :=
  ⟨rfl, rfl⟩

end Cpp
