import Keyczar.Java.Encrypter
import Keyczar.Java.AesRuns
import Keyczar.Format

/-!
# What the Java library encrypts to

The initial vector is what the random block is encrypted to under a zero vector, so the pieces that the cipher returns are the
vector and the encrypted plaintext. `Writing` is the state of an encryption after some pieces of the plaintext; its end is the
ciphertext of the common format, whatever the length of the plaintext.
-/

namespace Java

open Bytes Cbc Cbc.CipherStream

namespace Encrypter

variable {P : Primitives}

/-- The vector that a random block becomes. -/
def ivOf (P : Primitives) (k : AesKey) (ivPreImage : Bytes) : Bytes := Cbc.encrypt (P.aes k.aesBytes) zeroIv ivPreImage

theorem length_ivOf {k : AesKey} {ivPreImage : Bytes} (h : ivPreImage.length = 16) : (ivOf P k ivPreImage).length = 16 := by
  rw [ivOf, Cbc.length_encrypt length_zeroIv (by rw [h]), h]

/-- The message with its random block in front, from a zero vector: the vector, then the plaintext under the vector. -/
theorem encrypt_from_zero {k : AesKey} {ivPreImage : Bytes} (h : ivPreImage.length = 16) (plain : Bytes) :
    Cbc.encrypt (P.aes k.aesBytes) zeroIv (Cbc.pad 16 (ivPreImage ++ plain)) =
      ivOf P k ivPreImage ++ Cbc.encrypt (P.aes k.aesBytes) (ivOf P k ivPreImage) (Cbc.pad 16 plain) := by
  have hdvd : 16 ∣ ivPreImage.length := by rw [h]
  have hlast : Cbc.lastBlock zeroIv (ivOf P k ivPreImage) = ivOf P k ivPreImage :=
    Cbc.lastBlock_block ((length_ivOf h).trans length_zeroIv.symm)
  rw [Cbc.pad_append hdvd, Cbc.encrypt_append length_zeroIv hdvd]
  exact congrArg _ (congrArg (Cbc.encrypt (P.aes k.aesBytes) · _) hlast)

/-- The cipher of an encryption has seen the random block and the pieces `seen`, and `w` was put. -/
structure Feeding (P : Primitives) (k : AesKey) (ivPreImage seen w : Bytes) (s : AesStream) : Prop where
  key_eq : s.key = k
  cipher : ∃ c, s.encryptingCipher = .cbc c ∧ Encrypting (P.aes k.aesBytes) zeroIv (ivPreImage ++ seen) w c

/-- What is asked room for, with what was put: all that was read, padded. -/
theorem Feeding.encryptSize_eq {k : AesKey} {ivPreImage seen w : Bytes} {s : AesStream} (h : Feeding P k ivPreImage seen w s)
    (n : Nat) : s.encryptingCipher.encryptSize n + w.length = ((ivPreImage ++ seen).length + n) / 16 * 16 + 16 := by
  obtain ⟨c, hc, he⟩ := h.cipher
  have hlen := he.length_out
  have hle := whole_le 16 (ivPreImage ++ seen).length
  have hbuf : c.buffer.length = (ivPreImage ++ seen).length - whole 16 (ivPreImage ++ seen).length := by
    rw [he.buffer_eq, List.length_drop]
  have hpad : padLength 16 (c.buffer.length + n) = padLength 16 ((ivPreImage ++ seen).length + n) := by
    have hsum : c.buffer.length + n = (ivPreImage ++ seen).length + n - whole 16 (ivPreImage ++ seen).length := by omega
    rw [hsum, padLength_sub (dvd_whole 16 _) (by omega)]
  simp only [hc, Cipher.encryptSize, BLOCK_SIZE]
  rw [hpad, padLength]
  omega

/-- One more piece. -/
theorem Feeding.encryptingUpdate {k : AesKey} {ivPreImage seen w : Bytes} {s s' : AesStream} {input output output' : ByteBuffer}
    (h : Feeding P k ivPreImage seen w s) (hup : s.encryptingUpdate P input output = .ok (s', output')) :
    ∃ w', output.Wrote w' output' ∧ output'.mark = output.mark ∧ Feeding P k ivPreImage (seen ++ input.rest) (w ++ w') s' ∧
      s'.signStream = s.signStream := by
  unfold AesStream.encryptingUpdate at hup
  by_cases hnil : input.remaining = 0
  · rw [if_pos hnil] at hup
    cases hup
    have hrest : input.rest = [] := List.eq_nil_of_length_eq_zero (input.length_rest.trans hnil)
    refine ⟨[], ByteBuffer.wrote_refl _, rfl, ?_, rfl⟩
    rw [hrest, List.append_nil, List.append_nil]
    exact h
  · obtain ⟨c, hc, he⟩ := h.cipher
    rw [if_neg hnil] at hup
    simp only [hc, Cipher.encryptUpdate, h.key_eq] at hup
    split at hup
    · cases hup
    · rename_i hput
      cases hup
      refine ⟨_, wrote_of_transfer hput, mark_of_transfer hput, ⟨rfl, _, rfl, ?_⟩, rfl⟩
      have hnext := he.update input.rest
      rw [List.append_assoc] at hnext
      exact hnext

/-- With room for all that was read, padded, less what was put already, a piece is accepted. -/
theorem Feeding.encryptingUpdate_ok {k : AesKey} {ivPreImage seen w : Bytes} {s : AesStream} {input output : ByteBuffer}
    (h : Feeding P k ivPreImage seen w s)
    (hroom : ((ivPreImage ++ seen).length + input.remaining) / 16 * 16 + 16 ≤ output.remaining + w.length) :
    ∃ r, s.encryptingUpdate P input output = .ok r := by
  unfold AesStream.encryptingUpdate
  by_cases hnil : input.remaining = 0
  · exact ⟨_, if_pos hnil⟩
  · obtain ⟨c, hc, he⟩ := h.cipher
    have hsize := h.encryptSize_eq input.remaining
    rw [hc] at hsize
    have hout := (he.update input.rest).length_out
    generalize ivPreImage ++ seen = read at *
    simp only [List.length_append, ByteBuffer.length_rest, whole] at hout
    have hfits : (Cipher.cbc c).encryptSize input.remaining ≤ output.remaining := by omega
    have hshort : (c.encryptUpdate (P.aes k.aesBytes) input.rest).1.length ≤ (Cipher.cbc c).encryptSize input.remaining := by
      omega
    obtain ⟨output', hput⟩ := transfer_ok hfits hshort
    rw [if_neg hnil]
    simp only [hc, Cipher.encryptUpdate, h.key_eq, hput]
    exact ⟨_, rfl⟩

/-- The last piece: all that was put is the vector and the encrypted plaintext. -/
theorem Feeding.doFinalEncrypt {k : AesKey} {ivPreImage seen w : Bytes} {s : AesStream} {input output output' : ByteBuffer}
    (h : Feeding P k ivPreImage seen w s) (hup : s.doFinalEncrypt P input output = .ok output') :
    ∃ out, output.Wrote out output' ∧ output'.mark = output.mark ∧
      w ++ out = Cbc.encrypt (P.aes k.aesBytes) zeroIv (Cbc.pad 16 (ivPreImage ++ (seen ++ input.rest))) := by
  unfold AesStream.doFinalEncrypt at hup
  split at hup
  · cases hup
  · rename_i hput
    cases hup
    obtain ⟨c, hc, he⟩ := h.cipher
    refine ⟨_, wrote_of_transfer hput, mark_of_transfer hput, ?_⟩
    rw [hc, h.key_eq, ← List.append_assoc]
    exact he.final input.rest

/-- The final call puts as much as it asks room for. -/
theorem Feeding.length_encryptFinal {k : AesKey} {ivPreImage seen w : Bytes} {s : AesStream} (h : Feeding P k ivPreImage seen w s)
    (data : Bytes) :
    (s.encryptingCipher.encryptFinal P s.key.aesBytes data).length = s.encryptingCipher.encryptSize data.length := by
  obtain ⟨c, hc, he⟩ := h.cipher
  have hsize := h.encryptSize_eq data.length
  have hfinal := congrArg List.length (he.final data)
  rw [Cbc.length_encrypt length_zeroIv (Cbc.dvd_length_pad (by decide) _), Cbc.length_pad_eq (by decide)] at hfinal
  rw [hc, h.key_eq] at *
  simp only [Cipher.encryptFinal, List.length_append] at *
  omega

theorem Feeding.doFinalEncrypt_ok {k : AesKey} {ivPreImage seen w : Bytes} {s : AesStream} {input output : ByteBuffer}
    (h : Feeding P k ivPreImage seen w s)
    (hroom : ((ivPreImage ++ seen).length + input.remaining) / 16 * 16 + 16 ≤ output.remaining + w.length) :
    ∃ output', s.doFinalEncrypt P input output = .ok output' := by
  have hsize := h.encryptSize_eq input.remaining
  have hlen := h.length_encryptFinal input.rest
  rw [ByteBuffer.length_rest] at hlen
  have hfits : s.encryptingCipher.encryptSize input.remaining ≤ output.remaining := by omega
  obtain ⟨output', hput⟩ := transfer_ok hfits (Nat.le_of_eq hlen)
  unfold AesStream.doFinalEncrypt
  simp only [hput]
  exact ⟨_, rfl⟩

/-! ## The output buffer -/

/-- An encryption of `plain` into the buffer `start`: the header `hdr` and `w` were put, and the first `j` bytes of that are signed. -/
structure Writing (P : Primitives) (k : AesKey) (ivPreImage hdr plain : Bytes) (start : ByteBuffer) (seen w : Bytes) (j : Nat)
    (s : AesStream) (inputCopy output : ByteBuffer) : Prop where
  feeding : Feeding P k ivPreImage seen w s
  plain_eq : seen ++ inputCopy.rest = plain
  wrote : start.Wrote (hdr ++ w) output
  mark_eq : output.mark = some start.position
  signed_le : j ≤ (hdr ++ w).length
  sign_eq : s.signStream = { hmacKey := k.hmacKey, data := (hdr ++ w).take j }

/-- Signing up to the position signs all that was put. -/
theorem signUpTo_eq {k : AesKey} {start output : ByteBuffer} {v w : Bytes} {j : Nat} {s : AesStream}
    (hw : start.Wrote (v ++ w) output) (hj : j ≤ v.length) (hs : s.signStream = { hmacKey := k.hmacKey, data := v.take j }) :
    signUpTo s output (start.position + j) = { s with signStream := { hmacKey := k.hmacKey, data := v ++ w } } := by
  have hlen : (start.content.take start.position).length = start.position := by
    rw [List.length_take]
    exact Nat.min_eq_left (Nat.le_trans start.position_le start.limit_le)
  have hdrop : (output.content.take output.position).drop (start.position + j) = (v ++ w).drop j := by
    rw [hw.take_position, ← List.drop_drop, List.drop_left' hlen]
  have htake : v.take j = (v ++ w).take j := (List.take_append_of_le_length hj).symm
  simp only [signUpTo, HmacStream.updateSign, ByteBuffer.rest_wrap, hdrop, hs, htake, List.take_append_drop]

/-- The loop of an encryption ends, unless the output is too small for the header, the vector and the padded plaintext. -/
theorem Writing.encryptChunks {k : AesKey} {ivPreImage hdr plain : Bytes} {start : ByteBuffer} {seen w : Bytes} {j : Nat}
    {s : AesStream} {inputCopy output : ByteBuffer} (hpre : ivPreImage.length = 16)
    (h : Writing P k ivPreImage hdr plain start seen w j s inputCopy output) (fuel : Nat) :
    (start.remaining < hdr.length + 16 + (plain.length / 16 + 1) * 16 ∧
      ∃ e o, encryptChunks P fuel s inputCopy (start.position + j) output = .error e o) ∨
    (∃ seen' w' j' s' inputCopy' output',
      encryptChunks P fuel s inputCopy (start.position + j) output = .ok (s', inputCopy', start.position + j') output' ∧
      Writing P k ivPreImage hdr plain start seen' w' j' s' inputCopy' output') := by
  induction fuel generalizing seen w j s inputCopy output with
  | zero => exact Or.inr ⟨seen, w, j, s, inputCopy, output, rfl, h⟩
  | succ fuel ih =>
    unfold Encrypter.encryptChunks
    by_cases hle : inputCopy.remaining ≤ ENCRYPT_CHUNK_SIZE
    · right
      refine ⟨seen, w, j, s, inputCopy, output, ?_, h⟩
      simp only [if_pos hle]
    · simp only [if_neg hle]
      have hcs : ENCRYPT_CHUNK_SIZE = 1024 := rfl
      obtain ⟨chunk, hchunk, hsize, hrest, _⟩ := ByteBuffer.slice_ok (Nat.le_of_not_le hle)
      have hnext : inputCopy.position + ENCRYPT_CHUNK_SIZE ≤ inputCopy.limit := by
        rw [ByteBuffer.remaining_eq] at hle
        omega
      obtain ⟨next, hset, hnc, hnp, hnl, _⟩ := ByteBuffer.setPosition_ok hnext
      have hsum := congrArg List.length h.plain_eq
      have hfed := h.wrote.length_le
      have hrem := h.wrote.remaining_eq
      rw [hchunk]
      cases hup : s.encryptingUpdate P chunk output with
      | error e =>
        left
        have hsmall : ¬ (((ivPreImage ++ seen).length + chunk.remaining) / 16 * 16 + 16 ≤ output.remaining + w.length) := by
          intro hroom
          obtain ⟨r, hr⟩ := h.feeding.encryptingUpdate_ok hroom
          rw [hup] at hr
          cases hr
        refine ⟨?_, .keyczar .shortBuffer, output, ?_⟩
        · simp only [List.length_append, ByteBuffer.length_rest, hpre] at hsum hsmall hfed hrem
          omega
        · simp only [AesStream.updateEncrypt, hup]
      | ok r =>
        obtain ⟨s', output'⟩ := r
        obtain ⟨w', hw', hmark, hfeed, hsign⟩ := h.feeding.encryptingUpdate hup
        have hwrote := h.wrote.trans hw'
        have hsigned : signUpTo s' output' (start.position + j) =
            { s' with signStream := { hmacKey := k.hmacKey, data := hdr ++ w ++ w' } } :=
          signUpTo_eq hwrote h.signed_le (hsign.trans h.sign_eq)
        have hpos : output'.position = start.position + (hdr ++ (w ++ w')).length := by
          rw [hwrote.position_eq, List.append_assoc]
        simp only [AesStream.updateEncrypt, hup, hset, hsigned, hpos]
        refine ih ⟨⟨hfeed.key_eq, hfeed.cipher⟩, ?_, ?_, hmark.trans h.mark_eq, Nat.le_refl _, ?_⟩
        · rw [List.append_assoc, hrest, ByteBuffer.rest_drop hnc hnp hnl, List.take_append_drop]
          exact h.plain_eq
        · rw [← List.append_assoc]
          exact hwrote
        · rw [List.take_length, List.append_assoc]

/-- The end of an encryption: when it returns, the whole ciphertext was put, and the limit is at its end. -/
theorem Writing.finish {k : AesKey} {ivPreImage hdr plain ct : Bytes} {start : ByteBuffer} {seen w : Bytes} {j : Nat}
    {s : AesStream} {inputCopy output output' : ByteBuffer}
    (h : Writing P k ivPreImage hdr plain start seen w j s inputCopy output)
    (hct : ct = hdr ++ Cbc.encrypt (P.aes k.aesBytes) zeroIv (Cbc.pad 16 (ivPreImage ++ plain)))
    (hrun : finish P s inputCopy (start.position + j) output = .ok () output') :
    output'.content = overwrite start.content start.position (ct ++ P.hmacSha1 k.hmacKey.keyBytes ct) ∧
      output'.position = start.position + (ct ++ P.hmacSha1 k.hmacKey.keyBytes ct).length ∧ output'.limit = output'.position ∧
      output'.mark = some start.position := by
  unfold Encrypter.finish at hrun
  split at hrun
  · cases hrun
  · rename_i o hup
    obtain ⟨out, hout, hmark, heq⟩ := h.feeding.doFinalEncrypt hup
    rw [h.plain_eq] at heq
    have hwrote := h.wrote.trans hout
    rw [List.append_assoc, heq, ← hct] at hwrote
    split at hrun
    · cases hrun
    · rename_i o' hlimit
      have hlarge : o.position + HMAC_DIGEST_SIZE ≤ o.content.length := by
        by_contra hsmall
        rw [ByteBuffer.setLimit, dif_neg hsmall] at hlimit
        cases hlimit
      obtain ⟨o₂, ho₂, hc, hp, hl, hm⟩ := ByteBuffer.setLimit_ok hlarge
      rw [ho₂] at hlimit
      cases hlimit
      have hp' : o'.position = o.position := by
        rw [hp]
        exact Nat.min_eq_left (Nat.le_add_right _ _)
      -- only the limit has changed since the ciphertext was put
      have hsigned : signUpTo s o' (start.position + j) = { s with signStream := { hmacKey := k.hmacKey, data := ct } } := by
        have hsame : signUpTo s o' (start.position + j) = signUpTo s o (start.position + j) := by
          simp only [signUpTo, hc, hp']
        have hall := signUpTo_eq (h.wrote.trans hout) h.signed_le h.sign_eq
        rw [List.append_assoc, heq, ← hct] at hall
        exact hsame.trans hall
      rw [hsigned] at hrun
      simp only [HmacStream.sign] at hrun
      split at hrun
      · cases hrun
      · rename_i o₃ hput
        cases hrun
        have hlast := ByteBuffer.wrote_of_put hput
        refine ⟨?_, ?_, ?_, ?_⟩
        · rw [hlast.content_eq, hc, hwrote.content_eq, hp', hwrote.position_eq, overwrite_overwrite hwrote.fits]
        · rw [hlast.position_eq, hp', hwrote.position_eq, List.length_append, Nat.add_assoc]
        · rw [hlast.limit_eq, hl, hlast.position_eq, hp', P.length_hmacSha1]
          rfl
        · rw [ByteBuffer.mark_of_put hput, hm, ByteBuffer.filter_mark (Nat.le_add_right _ _), hmark, h.mark_eq]

/-- With room for all of the ciphertext the end of an encryption returns. -/
theorem Writing.finish_ok {k : AesKey} {ivPreImage hdr plain : Bytes} {start : ByteBuffer} {seen w : Bytes} {j : Nat}
    {s : AesStream} {inputCopy output : ByteBuffer} (hpre : ivPreImage.length = 16)
    (h : Writing P k ivPreImage hdr plain start seen w j s inputCopy output)
    (hroom : hdr.length + 16 + (plain.length / 16 + 1) * 16 + HMAC_DIGEST_SIZE ≤ start.remaining) :
    ∃ output', Encrypter.finish P s inputCopy (start.position + j) output = .ok () output' := by
  have hsum := congrArg List.length h.plain_eq
  have hfed := h.wrote.length_le
  have hrem := h.wrote.remaining_eq
  have hdigest : HMAC_DIGEST_SIZE = 20 := rfl
  simp only [List.length_append, ByteBuffer.length_rest] at hsum hfed hrem
  have hfinal : ((ivPreImage ++ seen).length + inputCopy.remaining) / 16 * 16 + 16 ≤ output.remaining + w.length := by
    rw [List.length_append]
    omega
  obtain ⟨o, hup⟩ := h.feeding.doFinalEncrypt_ok hfinal
  obtain ⟨out, hout, _, heq⟩ := h.feeding.doFinalEncrypt hup
  have hlen := congrArg List.length heq
  rw [Cbc.length_encrypt length_zeroIv (Cbc.dvd_length_pad (by decide) _), Cbc.length_pad_eq (by decide)] at hlen
  simp only [List.length_append, ByteBuffer.length_rest, hpre] at hlen
  have hwrote := h.wrote.trans hout
  have hpos := hwrote.position_eq
  simp only [List.length_append] at hpos
  have hstart := start.position_le
  have hcap := start.limit_le
  rw [ByteBuffer.remaining_eq] at hroom
  have hlarge : o.position + HMAC_DIGEST_SIZE ≤ o.content.length := by
    rw [hwrote.content_eq, Bytes.length_overwrite hwrote.fits]
    omega
  obtain ⟨o', hlimit, _, hp, hl, _⟩ := ByteBuffer.setLimit_ok hlarge
  have hlast : ((signUpTo s o' (start.position + j)).signStream.sign P).length ≤ o'.remaining := by
    rw [HmacStream.sign, P.length_hmacSha1, ByteBuffer.remaining_eq, hp, hl]
    omega
  obtain ⟨o₂, hput, _⟩ := ByteBuffer.put_ok hlast
  unfold Encrypter.finish
  simp only [hup, hlimit, hput]
  exact ⟨_, rfl⟩

/-! ## Whole encryptions -/

/-- The ciphertext of an AES key. -/
def ciphertext (P : Primitives) (k : AesKey) (ivPreImage plain : Bytes) : Bytes :=
  Format.ciphertext P (k.hash P) k.aesBytes k.hmacKey.keyBytes (ivOf P k ivPreImage) plain

/-- Putting the header. Where there is no room for all of it, its first byte may have been put. -/
theorem copyHeader_cases (P : Primitives) (k : AesKey) (output : ByteBuffer) :
    (output.remaining < 5 ∧ ∃ w o, copyHeader P k output = .error (.runtime .bufferOverflow) o ∧ output.Wrote w o) ∨
    (∃ o, copyHeader P k output = .ok () o ∧ output.Wrote (FORMAT_VERSION :: k.hash P) o ∧ o.mark = output.mark) := by
  unfold copyHeader
  rcases Nat.lt_or_ge output.remaining 1 with hnone | hsome
  · left
    rw [ByteBuffer.put_error (b := output) (w := [FORMAT_VERSION]) hnone]
    exact ⟨by omega, [], output, rfl, ByteBuffer.wrote_refl _⟩
  · obtain ⟨o, h₁, hw₁⟩ := ByteBuffer.put_ok (b := output) (w := [FORMAT_VERSION]) hsome
    have hrem := hw₁.remaining_eq
    simp only [List.length_singleton] at hrem
    simp only [h₁]
    rcases Nat.lt_or_ge o.remaining (k.hash P).length with hshort | hroom
    · left
      rw [ByteBuffer.put_error hshort]
      rw [AesKey.length_hash] at hshort
      exact ⟨by omega, [FORMAT_VERSION], o, rfl, hw₁⟩
    · right
      obtain ⟨o', h₂, hw₂⟩ := ByteBuffer.put_ok hroom
      simp only [h₂]
      exact ⟨o', rfl, hw₁.trans hw₂, (ByteBuffer.mark_of_put h₂).trans (ByteBuffer.mark_of_put h₁)⟩

/-- The stream of a key that does not count, before anything was encrypted. -/
theorem feeding_of_new {k : AesKey} {s : AesStream} (hmode : k.mode ≠ .ctr) (hnew : AesStream.new k = .ok s) :
    Feeding P k [] [] [] { s with signStream := s.signStream.initSign } ∧
      s.signStream.initSign = { hmacKey := k.hmacKey, data := [] } := by
  obtain ⟨c, hinit, rfl⟩ := AesStream.cipher_of_new hnew
  rcases AesStream.init_cases hinit with ⟨-, rfl⟩ | ⟨hctr, -⟩
  · exact ⟨⟨rfl, _, rfl, encrypting_init length_zeroIv⟩, rfl⟩
  · exact absurd hctr hmode

/-- An encryption into a buffer fails when there is no room for all of the ciphertext but the signature; when it returns, the
ciphertext is between the mark and the limit; and with room for all of it, it returns. -/
theorem encryptBuffer_cases {k : AesKey} {stream : AesStream} (hmode : k.mode = .cbc) (hnew : AesStream.new k = .ok stream)
    {ivPreImage : Bytes} (hpre : ivPreImage.length = 16) (input output : ByteBuffer) :
    (output.remaining < (ciphertext P k ivPreImage input.rest).length ∧
      ∃ e o, encryptBuffer P k ivPreImage input output = .error e o) ∨
    (∃ o, encryptBuffer P k ivPreImage input output = .ok () o ∧
      o.content = overwrite output.content output.position (ciphertext P k ivPreImage input.rest) ∧
      o.position = output.position + (ciphertext P k ivPreImage input.rest).length ∧ o.limit = o.position ∧
      o.mark = some output.position) := by
  have hct : (ciphertext P k ivPreImage input.rest).length = 41 + (input.rest.length / 16 + 1) * 16 :=
    Format.length_ciphertext P _ (k.length_hash P) (length_ivOf hpre) _
  obtain ⟨hfeed, hsign⟩ := feeding_of_new (P := P) (hmode ▸ nofun) hnew
  unfold encryptBuffer
  simp only [hnew]
  rcases copyHeader_cases P k output.setMark with ⟨hsmall, _, o, hcopy, _⟩ | ⟨o, hcopy, hwrote, hmark⟩
  · left
    refine ⟨?_, .runtime .bufferOverflow, o, by simp only [hcopy]⟩
    have : output.setMark.remaining = output.remaining := rfl
    omega
  · simp only [hcopy, AesStream.initEncrypt, AesStream.updateEncrypt]
    have hrem := hwrote.remaining_eq
    have hle := hwrote.length_le
    simp only [List.length_cons, AesKey.length_hash] at hrem hle
    have hsame : output.setMark.remaining = output.remaining := rfl
    cases hup : ({ stream with signStream := stream.signStream.initSign } : AesStream).encryptingUpdate P
        (ByteBuffer.wrap ivPreImage) o with
    | error e =>
      left
      refine ⟨?_, _, _, rfl⟩
      by_contra hroom
      have hfits : (([] ++ [] : Bytes).length + (ByteBuffer.wrap ivPreImage).remaining) / 16 * 16 + 16 ≤
          o.remaining + ([] : Bytes).length := by
        rw [ByteBuffer.remaining_wrap, hpre, List.append_nil, List.length_nil]
        omega
      obtain ⟨r, hr⟩ := hfeed.encryptingUpdate_ok hfits
      rw [hup] at hr
      cases hr
    | ok r =>
      obtain ⟨stream', o'⟩ := r
      obtain ⟨w', hw', hmark', hfeed', hsign'⟩ := hfeed.encryptingUpdate hup
      have hstart : Writing P k ivPreImage (FORMAT_VERSION :: k.hash P) input.rest output.setMark [] w' 0 stream'
          input.asReadOnlyBuffer o' := by
        refine ⟨?_, rfl, hwrote.trans hw', ?_, Nat.zero_le _, ?_⟩
        · rw [List.nil_append, ByteBuffer.rest_wrap, List.nil_append] at hfeed'
          refine ⟨hfeed'.key_eq, ?_⟩
          rw [List.append_nil]
          exact hfeed'.cipher
        · rw [hmark', hmark]
          rfl
        · rw [hsign', List.take_zero]
          exact hsign
      have hsigned : Format.signed P (k.hash P) k.aesBytes (ivOf P k ivPreImage) input.rest =
          (FORMAT_VERSION :: k.hash P) ++ Cbc.encrypt (P.aes k.aesBytes) zeroIv (Cbc.pad 16 (ivPreImage ++ input.rest)) := by
        rw [encrypt_from_zero hpre, Format.signed, ← List.append_assoc]
        rfl
      have hroom : output.setMark.remaining < 5 + 16 + (input.rest.length / 16 + 1) * 16 + 20 →
          output.remaining < (ciphertext P k ivPreImage input.rest).length := by
        rw [hsame, hct]
        omega
      simp only
      rcases hstart.encryptChunks hpre input.remaining with ⟨hsmall, e, o₂, hrun⟩ | ⟨seen, w, j, s, b, o₂, hrun, hend⟩
      · left
        refine ⟨hroom ?_, e, o₂, ?_⟩
        · simp only [List.length_cons, AesKey.length_hash] at hsmall
          omega
        · have hrun' : encryptChunks P input.remaining stream' input.asReadOnlyBuffer output.position o' = .error e o₂ := hrun
          simp only [hrun']
      · have hrun' : encryptChunks P input.remaining stream' input.asReadOnlyBuffer output.position o' =
            .ok (s, b, output.position + j) o₂ := hrun
        simp only [hrun']
        cases hfin : Encrypter.finish P s b (output.position + j) o₂ with
        | error e o₃ =>
          left
          refine ⟨hroom ?_, e, o₃, rfl⟩
          by_contra hlarge
          obtain ⟨o₃, hok⟩ := hend.finish_ok hpre (by
            simp only [List.length_cons, AesKey.length_hash]
            exact Nat.le_of_not_lt hlarge)
          have hok' : Encrypter.finish P s b (output.position + j) o₂ = .ok () o₃ := hok
          rw [hfin] at hok'
          cases hok'
        | ok u o₃ =>
          right
          obtain ⟨hc, hp, hl, hm⟩ := hend.finish hsigned hfin
          exact ⟨o₃, rfl, hc, hp, hl, hm⟩

/-! ## Array to array -/

/-- A key of a valid length in the padded chaining mode has a stream. -/
theorem new_ok {k : AesKey} (hmode : k.mode = .cbc) (hkey : validKeyLength k.aesBytes.length) : ∃ s, AesStream.new k = .ok s := by
  unfold AesStream.new Cipher.init
  rw [hkey, hmode]
  exact ⟨_, rfl⟩

theorem validKeyLength_of_new {k : AesKey} {s : AesStream} (h : AesStream.new k = .ok s) : validKeyLength k.aesBytes.length := by
  unfold AesStream.new Cipher.init at h
  by_contra hkey
  rw [Bool.not_eq_true] at hkey
  rw [hkey] at h
  cases h

/-- The size that is computed is that of the ciphertext, as far as an `int` can say it. -/
theorem ciphertextSize_eq {k : AesKey} {s : AesStream} (hmode : k.mode = .cbc) (hnew : AesStream.new k = .ok s) (n : Nat) :
    ciphertextSize k n = .ok (toInt32 ((41 + (n / 16 + 1) * 16 : Nat) : Int)) := by
  simp only [ciphertextSize, hnew, AesStream.maxOutputSize, (AesStream.key_of_new hnew).1, hmode, CipherMode.getOutputSize, HEADER_SIZE,
    KEY_HASH_SIZE, HMAC_DIGEST_SIZE, BLOCK_SIZE, Except.ok.injEq]
  congr 1
  push_cast
  omega

/-- A negative size is not allocated. -/
theorem encryptWith_of_neg {k : AesKey} {ivPreImage plain : Bytes} {size : Int} (hsize : ciphertextSize k plain.length = .ok size)
    (h : size < 0) : encryptWith P k ivPreImage plain = .error (.runtime .illegalArgument) := by
  simp only [encryptWith, hsize, bind, Except.bind, if_pos h]
  rfl

/-- An encryption into a new array: the ciphertext, when there is room for it. -/
theorem encryptWith_cases {k : AesKey} {stream : AesStream} (hmode : k.mode = .cbc) (hnew : AesStream.new k = .ok stream)
    {ivPreImage : Bytes} (hpre : ivPreImage.length = 16) {plain : Bytes} {size : Int}
    (hsize : ciphertextSize k plain.length = .ok size) (h : 0 ≤ size) :
    (size < (ciphertext P k ivPreImage plain).length ∧ ∃ e, encryptWith P k ivPreImage plain = .error e) ∨
    encryptWith P k ivPreImage plain = .ok (ciphertext P k ivPreImage plain) := by
  simp only [encryptWith, hsize, bind, Except.bind, if_neg (Int.not_lt.mpr h)]
  rcases encryptBuffer_cases (P := P) hmode hnew hpre (ByteBuffer.wrap plain) (ByteBuffer.allocate size.toNat) with
    ⟨hsmall, e, o, hrun⟩ | ⟨o, hrun, hc, hp, hl, hm⟩
  · left
    rw [ByteBuffer.rest_wrap, ByteBuffer.allocate, ByteBuffer.remaining_wrap, List.length_replicate] at hsmall
    refine ⟨by omega, e, ?_⟩
    simp only [hrun]
  · right
    rw [ByteBuffer.rest_wrap] at hc hp
    obtain ⟨o', o'', ho', ho''⟩ := ByteBuffer.get_of_reset rfl hc hp hl hm
    simp only [hrun, ho', ho'']

/-- What an encryption returns is the ciphertext. -/
theorem encryptWith_eq_ok {k : AesKey} (hmode : k.mode = .cbc) {ivPreImage : Bytes} (hpre : ivPreImage.length = 16)
    {plain ct : Bytes} (h : encryptWith P k ivPreImage plain = .ok ct) :
    validKeyLength k.aesBytes.length ∧ ct = ciphertext P k ivPreImage plain := by
  cases hnew : AesStream.new k with
  | error e =>
    unfold encryptWith ciphertextSize at h
    rw [hnew] at h
    cases h
  | ok stream =>
    refine ⟨validKeyLength_of_new hnew, ?_⟩
    have hsize := ciphertextSize_eq hmode hnew plain.length
    rcases Int.lt_or_le (toInt32 ((41 + (plain.length / 16 + 1) * 16 : Nat) : Int)) 0 with hneg | hpos
    · rw [encryptWith_of_neg hsize hneg] at h
      cases h
    · rcases encryptWith_cases (P := P) hmode hnew hpre hsize hpos with ⟨_, e, hrun⟩ | hrun
      · rw [hrun] at h
        cases h
      · rw [hrun] at h
        cases h
        rfl

/-- A plaintext is encrypted, unless the ciphertext is longer than any array. -/
theorem encryptWith_eq {k : AesKey} (hmode : k.mode = .cbc) (hkey : validKeyLength k.aesBytes.length) {ivPreImage : Bytes}
    (hpre : ivPreImage.length = 16) {plain : Bytes} (hlen : plain.length < 2 ^ 31 - 48) :
    encryptWith P k ivPreImage plain = .ok (ciphertext P k ivPreImage plain) := by
  obtain ⟨stream, hnew⟩ := new_ok hmode hkey
  have hct : (ciphertext P k ivPreImage plain).length = 41 + (plain.length / 16 + 1) * 16 :=
    Format.length_ciphertext P _ (k.length_hash P) (length_ivOf hpre) _
  have hsize := ciphertextSize_eq hmode hnew plain.length
  rw [toInt32_of_lt (by omega)] at hsize
  rcases encryptWith_cases (P := P) hmode hnew hpre hsize (Int.natCast_nonneg _) with ⟨hsmall, _⟩ | hrun
  · rw [hct] at hsmall
    exact absurd hsmall (Int.lt_irrefl _)
  · exact hrun

/-- A plaintext of an array whose ciphertext is longer than any array is refused. -/
theorem encryptWith_of_large {k : AesKey} (hmode : k.mode = .cbc) (hkey : validKeyLength k.aesBytes.length) {ivPreImage plain : Bytes}
    (hlarge : 2 ^ 31 - 48 ≤ plain.length) (harray : plain.length < 2 ^ 31) :
    encryptWith P k ivPreImage plain = .error (.runtime .illegalArgument) := by
  obtain ⟨stream, hnew⟩ := new_ok hmode hkey
  refine encryptWith_of_neg (ciphertextSize_eq hmode hnew plain.length) (toInt32_neg ?_ ?_)
  · omega
  · omega

end Encrypter

end Java
