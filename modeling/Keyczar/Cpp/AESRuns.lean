import Keyczar.Cpp.Cuts
import Keyczar.Format

/-!
# What the C++ library encrypts to, and decrypts

A ciphertext of the common format, for keys with HMAC-SHA1. The lengths that the cipher and the cuts are given as an `int` bound the
strings this is about.
-/

namespace Cpp

open Bytes Cbc Cbc.CipherStream Throwing

variable {P : Primitives}

namespace AESOpenSSL

/-- The final call over whole blocks that decrypt to a padded plaintext: the rest of the plaintext is put behind what the string
holds. -/
theorem decryptFinal_of_pad {a : AESOpenSSL} {iv body plain : Bytes} (hiv : iv.length = 16) (hdvd : 16 ∣ body.length)
    (hplain : Cbc.decrypt (P.aes a.key) iv body = Cbc.pad 16 plain) :
    ∃ last, plain = Cbc.decrypt (P.aes a.key) iv (body.take (updateLength body.length)) ++ last ∧
      ∀ out n, finalSize out = .ok n → a.decryptFinal P iv body out = .ok (true, out.take n ++ last) := by
  have hmod : body.length % 16 = 0 := Nat.mod_eq_zero_of_dvd hdvd
  have hne : body ≠ [] := by
    rintro rfl
    rw [Cbc.decrypt_nil] at hplain
    exact Cbc.pad_ne_nil (by decide) plain hplain.symm
  have hpos := List.length_pos_iff.mpr hne
  have hheld : updateLength body.length = held 16 body.length := by
    rw [updateLength, held, blockSize, if_pos hmod]
    omega
  -- the cipher object once it was updated with all of the blocks
  have hstream : Decrypting (P.aes a.key) iv body (Cbc.decrypt (P.aes a.key) iv (body.take (updateLength body.length)))
      { chain := Cbc.lastBlock iv (body.take (updateLength body.length)), buffer := body.drop (updateLength body.length) } := by
    rw [hheld]
    exact ⟨hiv, rfl, rfl, rfl⟩
  have hdvd' : 16 ∣ (body ++ []).length := by rwa [List.append_nil]
  have hplain' : Cbc.decrypt (P.aes a.key) iv (body ++ []) = Cbc.pad 16 plain := by rwa [List.append_nil]
  obtain ⟨last, hfinal, heq⟩ := hstream.final (by decide) (by decide) hdvd' hplain'
  have hunpad : Cbc.unpad? blockSize (Cbc.decrypt (P.aes a.key) (Cbc.lastBlock iv (body.take (updateLength body.length)))
      (body.drop (updateLength body.length))) = some last := by
    unfold CipherStream.decryptFinal at hfinal
    simp only [List.append_nil] at hfinal
    split at hfinal
    · cases hfinal
    · split at hfinal
      · rename_i hnil
        have h0 := congrArg List.length hnil
        rw [List.length_drop, hheld, held, List.length_nil] at h0
        omega
      · split at hfinal
        · cases hfinal
        · rename_i hsome
          cases hfinal
          exact hsome
  have hwhole : ¬ (body.length % blockSize ≠ 0 ∨ body = []) := by
    rintro (h | h)
    · exact h hmod
    · exact hne h
  refine ⟨last, heq, ?_⟩
  intro out n hsize
  rw [decryptFinal, hsize, ok_bind]
  dsimp only
  rw [if_neg hwhole, hunpad]
  rfl

/-- Whole blocks that decrypt to a padded plaintext: the plaintext is put behind what the string holds, of which the size was taken as an
`int`. -/
theorem decrypt_of_pad {a : AESOpenSSL} {iv body plain : Bytes} (hiv : iv.length = 16) (hdvd : 16 ∣ body.length)
    (hlen : body.length < 2 ^ 31) (hplain : Cbc.decrypt (P.aes a.key) iv body = Cbc.pad 16 plain) {out : Bytes} {n : Nat}
    (hsize : currentSize out = .ok n) :
    a.decrypt P iv body out =
      if n + body.length < 2 ^ 31 then .ok (true, out.take n ++ plain) else .error .lengthError := by
  obtain ⟨last, heq, hfinal⟩ := decryptFinal_of_pad hiv hdvd hplain
  have hpos : 16 ≤ body.length := by
    refine Nat.le_of_dvd (List.length_pos_iff.mpr ?_) hdvd
    rintro rfl
    rw [Cbc.decrypt_nil] at hplain
    exact Cbc.pad_ne_nil (by decide) plain hplain.symm
  have hn := natCast_of_currentSize hsize
  have hle := toInt_le out.length
  have hlt := toInt_lt out.length
  have hupdate : updateLength body.length = body.length - 16 := by
    rw [updateLength, blockSize, if_pos (Nat.mod_eq_zero_of_dvd hdvd)]
  have hwritten : (out.take n ++ Cbc.decrypt (P.aes a.key) iv (body.take (updateLength body.length))).length =
      n + (body.length - 16) := by
    rw [List.length_append, List.length_take_of_le (by omega), length_decrypt_take a hiv, hupdate]
  have hsize' := @finalSize_eq (out.take n ++ Cbc.decrypt (P.aes a.key) iv (body.take (updateLength body.length)))
    (by rw [hwritten]; omega)
  rw [hwritten, blockSize] at hsize'
  rw [decrypt_of_size hlen hsize]
  by_cases hroom : n + body.length < 2 ^ 31
  · rw [if_pos (by omega), ← hwritten] at hsize'
    rw [if_pos hroom, hfinal _ _ hsize', List.take_length, List.append_assoc, ← heq]
  · rw [if_neg (by omega)] at hsize'
    rw [if_neg hroom, decryptFinal, hsize', error_bind]

/-- A plaintext that leaves room for a block is encrypted. -/
theorem encrypt_eq {a : AESOpenSSL} {iv plain : Bytes} (hlen : plain.length + 16 < 2 ^ 31) :
    a.encrypt P iv plain = some (Cbc.encrypt (P.aes a.key) iv (Cbc.pad 16 plain)) := by
  have hcast : ((plain.length : Int) / blockSize * blockSize + blockSize) = (plain.length / 16 * 16 + 16 : Nat) := by
    rw [blockSize]
    push_cast
    omega
  have hroom : ¬toInt ((plain.length : Int) / blockSize * blockSize + blockSize) < 0 := by
    rw [hcast, toInt_of_lt (by omega)]
    exact Int.not_lt.mpr (Int.natCast_nonneg _)
  rw [encrypt, updateInput_of_lt (by omega), Option.bind_eq_bind, Option.bind_some, if_neg hroom]
  rfl

end AESOpenSSL

namespace AESKey

variable {k : AESKey}

theorem length_hashBytes (k : AESKey) : (k.hashBytes P).length = 4 := by
  simp [hashBytes, kKeyHashSize]

/-- The header is the version byte and the bytes of the hash. -/
theorem header_eq (k : AESKey) : k.header P = some (kVersionByte :: k.hashBytes P) := by
  have hpos : 0 < (k.hashBytes P).length := by rw [length_hashBytes]; decide
  unfold header hash
  rw [base64WEncode_eq hpos]
  simp only [bind, Option.bind, base64WDecode_encode hpos]
  rfl

variable (P k) in
/-- A ciphertext of the key, with its signature. -/
def ciphertext (iv plain : Bytes) : Bytes :=
  Format.signed P (k.hashBytes P) k.aesImpl.key iv plain ++
    P.hmac k.hmacKey.digest k.hmacKey.keyBytes (Format.signed P (k.hashBytes P) k.aesImpl.key iv plain)

/-- With HMAC-SHA1 it is a ciphertext of the common format. -/
theorem ciphertext_eq (hdigest : k.hmacKey.digest = .sha1) (iv plain : Bytes) :
    k.ciphertext P iv plain = Format.ciphertext P (k.hashBytes P) k.aesImpl.key k.hmacKey.keyBytes iv plain := by
  rw [ciphertext, hdigest]
  rfl

theorem length_ciphertext {iv : Bytes} (hiv : iv.length = 16) (plain : Bytes) :
    (k.ciphertext P iv plain).length = 21 + (plain.length / 16 + 1) * 16 + k.hmacKey.digest.size := by
  rw [ciphertext, List.length_append, Format.length_signed P k.length_hashBytes hiv, P.length_hmac]

/-- What a key encrypts to. -/
theorem encrypt_eq_ciphertext (iv : Bytes) {plain : Bytes} (hlen : plain.length + 16 < 2 ^ 31) :
    k.encrypt P iv plain = some (k.ciphertext P iv plain) := by
  rw [encrypt, AESOpenSSL.encrypt_eq hlen, header_eq]
  rfl

/-- A key with HMAC-SHA1 encrypts to the common format. -/
theorem encrypt_eq (hdigest : k.hmacKey.digest = .sha1) (iv : Bytes) {plain : Bytes} (hlen : plain.length + 16 < 2 ^ 31) :
    k.encrypt P iv plain = some (Format.ciphertext P (k.hashBytes P) k.aesImpl.key k.hmacKey.keyBytes iv plain) := by
  rw [encrypt_eq_ciphertext iv hlen, ciphertext_eq hdigest]

/-- A string of the layout of a ciphertext, with the right signature. -/
theorem decrypt_layout (k : AESKey) {hdr iv body tag : Bytes} (hhdr : hdr.length = 5) (hiv : iv.length = 16)
    (htag : tag = P.hmac k.hmacKey.digest k.hmacKey.keyBytes (hdr ++ iv ++ body))
    (hlen : (hdr ++ iv ++ body ++ tag).length < 2 ^ 31) (out : Bytes) :
    k.decrypt P (hdr ++ iv ++ body ++ tag) out = k.aesImpl.decrypt P iv body out := by
  have htagLength : tag.length = k.hmacKey.digest.size := by rw [htag, P.length_hmac]
  have hdigest : ((k.hmacKey.digestSize : Nat) : Int) / 8 = tag.length := by
    rw [HMACKey.digestSize, htagLength]
    omega
  have hall : (hdr ++ iv ++ body ++ tag).length = 21 + body.length + tag.length := by
    simp only [List.length_append, hhdr, hiv]
  have hdata : (hdr ++ iv ++ body ++ tag).drop headerSize = iv ++ (body ++ tag) := by
    rw [List.append_assoc, List.append_assoc]
    exact List.drop_left' hhdr
  have hdataLength : (iv ++ (body ++ tag)).length = 16 + body.length + tag.length := by
    simp only [List.length_append, hiv]
    omega
  have hstart : toInt (toInt ((16 + body.length + tag.length : Nat) : Int) - tag.length) = (16 + body.length : Nat) := by
    rw [toInt_of_lt (by omega), ← Int.natCast_sub (by omega), Nat.add_sub_cancel, toInt_of_lt (by omega)]
  have hbody : toInt (((16 + body.length : Nat) : Int) - AESOpenSSL.blockSize) = (body.length : Nat) := by
    have hsub : 16 + body.length - AESOpenSSL.blockSize = body.length := Nat.add_sub_cancel_left 16 body.length
    rw [← Int.natCast_sub (show AESOpenSSL.blockSize ≤ 16 + body.length from Nat.le_add_right _ _), hsub,
      toInt_of_lt (by omega)]
  have hsigned : (((21 + body.length + tag.length : Nat) : Int) - tag.length) = (21 + body.length : Nat) := by
    push_cast
    omega
  -- the four cuts
  have hcutIv : (iv ++ (body ++ tag)).take AESOpenSSL.blockSize = iv := List.take_left' hiv
  have hcutBody : ((iv ++ (body ++ tag)).drop AESOpenSSL.blockSize).take body.length = body := by
    have hdrop : (iv ++ (body ++ tag)).drop AESOpenSSL.blockSize = body ++ tag := List.drop_left' hiv
    rw [hdrop, List.take_left]
  have hcutTag : (iv ++ (body ++ tag)).drop (16 + body.length) = tag := by
    rw [← List.append_assoc]
    exact List.drop_left' (by rw [List.length_append, hiv])
  have hcutSigned : (hdr ++ iv ++ body ++ tag).take (21 + body.length) = hdr ++ iv ++ body :=
    List.take_left' (by simp only [List.length_append, hhdr, hiv])
  unfold decrypt
  rw [substr_of_le (by rw [hall]; exact Nat.le_trans (by decide : headerSize ≤ 21) (by omega)), ok_bind]
  simp only [Size.take, hdata, hdigest, hall]
  rw [substr_of_le (Nat.zero_le _), ok_bind]
  simp only [Size.take, List.drop_zero, hcutIv, hdataLength, hstart, hbody, hsigned, Size.ofInt_natCast]
  rw [substr_of_le (by rw [hdataLength]; exact Nat.le_trans (by decide : AESOpenSSL.blockSize ≤ 16) (by omega)), ok_bind,
    substr_of_le (by rw [hdataLength]; omega), ok_bind, substr_of_le (Nat.zero_le _), ok_bind]
  simp only [Size.take, hcutBody, hcutTag, List.drop_zero, hcutSigned]
  have hverify : k.hmacKey.verify P (hdr ++ iv ++ body) tag = true := by
    rw [HMACKey.verify, safeStringEquals, constantTimeEq_iff, htag]
  rw [hverify]
  simp only [Bool.not_true, Bool.false_eq_true, if_false]

/-- A ciphertext of the key whose length is an `int`, decrypted behind what a string holds. -/
theorem decrypt_ciphertext {iv : Bytes} (hiv : iv.length = 16) {plain : Bytes} (hlen : (k.ciphertext P iv plain).length < 2 ^ 31)
    {out : Bytes} {n : Nat} (hsize : AESOpenSSL.currentSize out = .ok n) :
    k.decrypt P (k.ciphertext P iv plain) out =
      if n + (plain.length / 16 + 1) * 16 < 2 ^ 31 then .ok (true, out.take n ++ plain) else .error .lengthError := by
  have hbody : (Cbc.encrypt (P.aes k.aesImpl.key) iv (Cbc.pad 16 plain)).length = (plain.length / 16 + 1) * 16 :=
    Format.length_body P hiv plain
  have hall := @length_ciphertext P k iv hiv plain
  have hdvd : 16 ∣ (Cbc.encrypt (P.aes k.aesImpl.key) iv (Cbc.pad 16 plain)).length := by
    rw [hbody]
    exact Nat.dvd_mul_left _ _
  have hhdr : (Format.version :: k.hashBytes P).length = 5 := by rw [List.length_cons, length_hashBytes]
  have hrun := k.decrypt_layout (P := P) hhdr hiv rfl hlen out
  rw [AESOpenSSL.decrypt_of_pad hiv hdvd (by omega) (Format.decrypt_body P hiv plain) hsize, hbody] at hrun
  exact hrun

/-- A ciphertext of the common format is decrypted, when its length is an `int`. -/
theorem decrypt_format (hdigest : k.hmacKey.digest = .sha1) {iv : Bytes} (hiv : iv.length = 16) {plain : Bytes}
    (hlen : plain.length < 2 ^ 31 - 48) :
    k.decrypt P (Format.ciphertext P (k.hashBytes P) k.aesImpl.key k.hmacKey.keyBytes iv plain) [] = .ok (true, plain) := by
  have hall := @length_ciphertext P k iv hiv plain
  have hsize : k.hmacKey.digest.size = 20 := by rw [hdigest]; rfl
  have hlt : (k.ciphertext P iv plain).length < 2 ^ 31 := by omega
  have hrun := decrypt_ciphertext hiv hlt (show AESOpenSSL.currentSize [] = .ok 0 from rfl)
  rw [if_pos (by omega)] at hrun
  rw [← ciphertext_eq hdigest, hrun]
  rfl

end AESKey

end Cpp
