import Keyczar.Java.EncrypterRuns

/-!
# Encryption into any buffer

How `Encrypter.encrypt` ends for a key of any mode and an output of any size. The room that is asked for is counted: the header and the
vector, what the mode makes of the plaintext, and the signature. The last step moves the limit before the signature is put, wherever in
the array it was.
-/

namespace Java

open Bytes

namespace Encrypter

variable {P : Primitives} {k : AesKey}

/-- What a stream of a mode makes of `n` bytes, the block for the vector among them. -/
def outputLength (mode : CipherMode) (n : Nat) : Nat :=
  match mode with
  | .ctr => n
  | _ => n / 16 * 16 + 16

theorem outputLength_ctr {mode : CipherMode} (h : mode = .ctr) (n : Nat) : outputLength mode n = n := by
  rw [h, outputLength]

theorem outputLength_of_ne {mode : CipherMode} (h : mode ≠ .ctr) (n : Nat) : outputLength mode n = n / 16 * 16 + 16 := by
  cases mode with
  | ctr => exact absurd rfl h
  | cbc => rfl
  | ecb => rfl
  | detCbc => rfl

theorem outputLength_mono (mode : CipherMode) {m n : Nat} (h : m ≤ n) : outputLength mode m ≤ outputLength mode n := by
  by_cases hmode : mode = .ctr
  · rw [outputLength_ctr hmode, outputLength_ctr hmode]
    exact h
  · rw [outputLength_of_ne hmode, outputLength_of_ne hmode]
    omega

/-- What is put in front of the signature, for a plaintext of `n` bytes. -/
def bodyLength (mode : CipherMode) (n : Nat) : Nat := HEADER_SIZE + outputLength mode (BLOCK_SIZE + n)

/-- The stream of an encryption has read `r` bytes, and `l` bytes were put. -/
def Counted (P : Primitives) (k : AesKey) (r l : Nat) (s : AesStream) : Prop :=
  (k.mode ≠ .ctr ∧ ∃ pre seen w, Feeding P k pre seen w s ∧ (pre ++ seen).length = r ∧ w.length = l) ∨
  (k.mode = .ctr ∧ s.key = k ∧ l = r ∧ ∃ done, s.encryptingCipher = .ctr done)

variable {r l : Nat} {s : AesStream}

/-- What was signed is not counted. -/
theorem Counted.signing (h : Counted P k r l s) (signStream : HmacStream) : Counted P k r l { s with signStream } := by
  rcases h with ⟨hmode, pre, seen, w, hfeed, hr, hl⟩ | h
  · exact Or.inl ⟨hmode, pre, seen, w, ⟨hfeed.key_eq, hfeed.cipher⟩, hr, hl⟩
  · exact Or.inr h

/-- What is asked room for, with what was put: what the mode makes of all that was read. -/
theorem Counted.encryptSize_eq (h : Counted P k r l s) (n : Nat) :
    s.encryptingCipher.encryptSize n + l = outputLength k.mode (r + n) := by
  rcases h with ⟨hmode, pre, seen, w, hfeed, rfl, rfl⟩ | ⟨hmode, _, rfl, done, hc⟩
  · rw [hfeed.encryptSize_eq, outputLength_of_ne hmode]
  · rw [hc, outputLength_ctr hmode, Cipher.encryptSize, Nat.add_comm]

/-- The length that a counting stream returns is that of its input. -/
theorem length_keyed (data key : Bytes) (done : Nat) : (xor data (Cipher.keyStream P key done data.length)).length = data.length := by
  simp [Cipher.keyStream]

/-- Another piece: without room for what the mode makes of all that was read, it is refused. -/
theorem Counted.encryptingUpdate (h : Counted P k r l s) (input output : ByteBuffer) :
    (output.remaining + l < outputLength k.mode (r + input.remaining) ∧ ∃ e, s.encryptingUpdate P input output = .error e) ∨
    (∃ s' output' w, s.encryptingUpdate P input output = .ok (s', output') ∧ output.Wrote w output' ∧
      Counted P k (r + input.remaining) (l + w.length) s') := by
  rcases h with ⟨hmode, pre, seen, w, hfeed, rfl, rfl⟩ | ⟨hmode, hkey, rfl, done, hc⟩
  · cases hup : s.encryptingUpdate P input output with
    | error e =>
      left
      refine ⟨?_, e, rfl⟩
      by_contra hroom
      rw [outputLength_of_ne hmode] at hroom
      obtain ⟨r, hr⟩ := hfeed.encryptingUpdate_ok (Nat.le_of_not_lt hroom)
      rw [hup] at hr
      cases hr
    | ok r =>
      obtain ⟨s', output'⟩ := r
      obtain ⟨w', hw', _, hfeed', _⟩ := hfeed.encryptingUpdate hup
      refine Or.inr ⟨s', output', w', rfl, hw', Or.inl ⟨hmode, pre, _, _, hfeed', ?_, List.length_append⟩⟩
      rw [← List.append_assoc, List.length_append, ByteBuffer.length_rest]
  · unfold AesStream.encryptingUpdate
    rw [outputLength_ctr hmode]
    by_cases hnil : input.remaining = 0
    · rw [if_pos hnil, hnil]
      exact Or.inr ⟨s, output, [], rfl, ByteBuffer.wrote_refl _, Or.inr ⟨hmode, hkey, rfl, done, hc⟩⟩
    · simp only [if_neg hnil, hc, Cipher.encryptUpdate, Cipher.encryptSize]
      have hlen := (length_keyed (P := P) input.rest s.key.aesBytes done).trans input.length_rest
      rcases Nat.lt_or_ge output.remaining input.remaining with hshort | hroom
      · left
        rw [transfer_error hshort]
        exact ⟨by omega, _, rfl⟩
      · right
        obtain ⟨output', hput⟩ := transfer_ok hroom (Nat.le_of_eq hlen)
        rw [hput]
        exact ⟨_, _, _, rfl, wrote_of_transfer hput, Or.inr ⟨hmode, hkey, by rw [hlen], _, rfl⟩⟩

/-- The last piece: with that room, all that the mode makes of the message was put. -/
theorem Counted.doFinalEncrypt (h : Counted P k r l s) (input output : ByteBuffer) :
    (output.remaining + l < outputLength k.mode (r + input.remaining) ∧
      s.doFinalEncrypt P input output = .error (.keyczar .generalSecurity)) ∨
    (outputLength k.mode (r + input.remaining) ≤ output.remaining + l ∧ ∃ output' w,
      s.doFinalEncrypt P input output = .ok output' ∧ output.Wrote w output' ∧
        l + w.length = outputLength k.mode (r + input.remaining)) := by
  have hsize := h.encryptSize_eq input.remaining
  have hlen : (s.encryptingCipher.encryptFinal P s.key.aesBytes input.rest).length =
      s.encryptingCipher.encryptSize input.remaining := by
    rcases h with ⟨_, pre, seen, w, hfeed, _⟩ | ⟨_, _, _, done, hc⟩
    · rw [hfeed.length_encryptFinal, ByteBuffer.length_rest]
    · rw [hc, Cipher.encryptFinal, Cipher.encryptSize, length_keyed, ByteBuffer.length_rest]
  unfold AesStream.doFinalEncrypt
  rcases Nat.lt_or_ge output.remaining (s.encryptingCipher.encryptSize input.remaining) with hshort | hroom
  · left
    rw [transfer_error hshort]
    exact ⟨by omega, rfl⟩
  · right
    obtain ⟨output', hput⟩ := transfer_ok hroom (Nat.le_of_eq hlen)
    rw [hput]
    exact ⟨by omega, output', _, rfl, wrote_of_transfer hput, by omega⟩

/-- The loop: it is left with all but the last piece put, or the output is too small for what the mode makes of the message. -/
theorem Counted.encryptChunks (h : Counted P k r l s) {start output : ByteBuffer} {v : Bytes} (hv : start.Wrote v output)
    (hlen : v.length = HEADER_SIZE + l) (inputCopy : ByteBuffer) (fuel signed : Nat) :
    (start.remaining < HEADER_SIZE + outputLength k.mode (r + inputCopy.remaining) ∧ ∃ e w o,
      encryptChunks P fuel s inputCopy signed output = .error (.keyczar e) o ∧ start.Wrote w o) ∨
    (∃ s' rest j o r' l' w, encryptChunks P fuel s inputCopy signed output = .ok (s', rest, j) o ∧ Counted P k r' l' s' ∧
      r' + rest.remaining = r + inputCopy.remaining ∧ start.Wrote w o ∧ w.length = HEADER_SIZE + l') := by
  induction fuel generalizing r l s output inputCopy v signed with
  | zero => exact Or.inr ⟨s, inputCopy, signed, output, r, l, v, rfl, h, rfl, hv, hlen⟩
  | succ fuel ih =>
    unfold Encrypter.encryptChunks
    by_cases hle : inputCopy.remaining ≤ ENCRYPT_CHUNK_SIZE
    · simp only [if_pos hle]
      exact Or.inr ⟨s, inputCopy, signed, output, r, l, v, rfl, h, rfl, hv, hlen⟩
    · simp only [if_neg hle]
      obtain ⟨chunk, hchunk, hsize, _, _⟩ := ByteBuffer.slice_ok (Nat.le_of_not_le hle)
      have hnext : inputCopy.position + ENCRYPT_CHUNK_SIZE ≤ inputCopy.limit := by
        rw [ByteBuffer.remaining_eq] at hle
        omega
      obtain ⟨next, hset, _, hnp, hnl, _⟩ := ByteBuffer.setPosition_ok hnext
      have hrem : next.remaining + chunk.remaining = inputCopy.remaining := by
        rw [hsize, ByteBuffer.remaining_eq, ByteBuffer.remaining_eq, hnp, hnl]
        omega
      rw [hchunk]
      rcases h.encryptingUpdate chunk output with ⟨hshort, e, hup⟩ | ⟨s', output', w, hup, hw, hnext'⟩
      · left
        simp only [AesStream.updateEncrypt, hup]
        have hmono := outputLength_mono k.mode (m := r + chunk.remaining) (n := r + inputCopy.remaining) (by omega)
        have hfed := hv.length_le
        have hleft := hv.remaining_eq
        exact ⟨by omega, .shortBuffer, v, output, rfl, hv⟩
      · simp only [AesStream.updateEncrypt, hup, hset]
        have hall : (v ++ w).length = HEADER_SIZE + (l + w.length) := by
          rw [List.length_append, hlen, Nat.add_assoc]
        have hsum : r + chunk.remaining + next.remaining = r + inputCopy.remaining := by omega
        have hrun := ih (s := signUpTo s' output' signed) (hnext'.signing _) (hv.trans hw) hall next output'.position
        rw [hsum] at hrun
        exact hrun

/-- The end: the rest of the message, and the signature behind it. It is put beyond the limit when the array goes on there. -/
theorem Counted.finish (h : Counted P k r l s) {start output inputCopy : ByteBuffer} {v : Bytes} (hv : start.Wrote v output)
    (hlen : v.length = HEADER_SIZE + l) (signed : Nat) {body : Nat} (hbody : body = HEADER_SIZE + outputLength k.mode (r + inputCopy.remaining)) :
    (start.remaining < body ∧ ∃ e w o, finish P s inputCopy signed output = .error (.keyczar e) o ∧ start.Wrote w o) ∨
    (body ≤ start.remaining ∧ start.content.length < start.position + (body + HMAC_DIGEST_SIZE) ∧ ∃ w o,
      finish P s inputCopy signed output = .error (.runtime .illegalArgument) o ∧ start.Wrote w o) ∨
    (body ≤ start.remaining ∧ start.position + (body + HMAC_DIGEST_SIZE) ≤ start.content.length ∧ ∃ w o,
      finish P s inputCopy signed output = .ok () o ∧ w.length = body + HMAC_DIGEST_SIZE ∧
      o.content = overwrite start.content start.position w ∧ o.position = start.position + w.length ∧ o.limit = o.position) := by
  subst hbody
  have hfed := hv.length_le
  have hleft := hv.remaining_eq
  unfold Encrypter.finish
  rcases h.doFinalEncrypt inputCopy output with ⟨hshort, hup⟩ | ⟨hroom, o, w, hup, hw, hsum⟩
  · left
    simp only [hup]
    exact ⟨by omega, .generalSecurity, v, output, rfl, hv⟩
  · right
    have hwrote := hv.trans hw
    have hall : (v ++ w).length = HEADER_SIZE + outputLength k.mode (r + inputCopy.remaining) := by
      rw [List.length_append, hlen, Nat.add_assoc, hsum]
    have hcap : o.content.length = start.content.length := by rw [hwrote.content_eq, length_overwrite hwrote.fits]
    have hpos := hwrote.position_eq
    have hfits := hwrote.length_le
    rw [hall] at hpos hfits
    simp only [hup]
    rcases Nat.lt_or_ge start.content.length (o.position + HMAC_DIGEST_SIZE) with hbeyond | hinside
    · left
      rw [ByteBuffer.setLimit_error (hcap ▸ hbeyond)]
      exact ⟨hfits, by omega, v ++ w, o, rfl, hwrote⟩
    · right
      obtain ⟨o', hlimit, hc, hp, hl, _⟩ := ByteBuffer.setLimit_ok (b := o) (hcap.symm ▸ hinside)
      have hp' : o'.position = o.position := by
        rw [hp]
        exact Nat.min_eq_left (Nat.le_add_right _ _)
      have htag : ((signUpTo s o' signed).signStream.sign P).length = HMAC_DIGEST_SIZE := by rw [HmacStream.sign, P.length_hmacSha1]; rfl
      obtain ⟨o₂, hput, hlast⟩ := ByteBuffer.put_ok (b := o') (w := (signUpTo s o' signed).signStream.sign P) (by
        rw [htag, ByteBuffer.remaining_eq, hl, hp']
        omega)
      simp only [hlimit, hput]
      refine ⟨hfits, by omega, v ++ w ++ (signUpTo s o' signed).signStream.sign P, o₂, rfl, ?_, ?_, ?_, ?_⟩
      · rw [List.length_append, hall, htag]
      · rw [hlast.content_eq, hc, hp', hwrote.content_eq, hwrote.position_eq, overwrite_overwrite hwrote.fits]
      · have hsplit : (v ++ w ++ (signUpTo s o' signed).signStream.sign P).length =
            (v ++ w).length + ((signUpTo s o' signed).signStream.sign P).length := List.length_append
        rw [hlast.position_eq, hp', hwrote.position_eq, hsplit, Nat.add_assoc]
      · rw [hlast.limit_eq, hl, hlast.position_eq, hp', htag]

/-- A new stream has read nothing. -/
theorem counted_of_new {s : AesStream} (hnew : AesStream.new k = .ok s) :
    Counted P k 0 0 { s with signStream := s.signStream.initSign } := by
  by_cases hmode : k.mode = .ctr
  · refine Or.inr ⟨hmode, (AesStream.key_of_new hnew).1, rfl, 0, ?_⟩
    obtain ⟨c, hinit, rfl⟩ := AesStream.cipher_of_new hnew
    rcases AesStream.init_cases hinit with ⟨hchain, -⟩ | ⟨-, hc⟩
    · rw [hmode] at hchain
      rcases hchain with hm | hm <;> cases hm
    · exact hc
  · exact Or.inl ⟨hmode, [], [], [], (feeding_of_new hmode hnew).1, rfl, rfl⟩

/-- How an encryption ends, by the room in the output: there is none for the header; none for all that comes in front of the signature;
none in the array for the signature; or the whole was put, up to the limit that the call has set. -/
theorem encryptBuffer_ends {stream : AesStream} (hnew : AesStream.new k = .ok stream) {ivPreImage : Bytes}
    (hpre : ivPreImage.length = BLOCK_SIZE) (input output : ByteBuffer) {body : Nat} (hbody : body = bodyLength k.mode input.remaining) :
    (output.remaining < HEADER_SIZE ∧ ∃ w o,
      encryptBuffer P k ivPreImage input output = .error (.runtime .bufferOverflow) o ∧ output.Wrote w o) ∨
    (HEADER_SIZE ≤ output.remaining ∧ output.remaining < body ∧ ∃ e w o,
      encryptBuffer P k ivPreImage input output = .error (.keyczar e) o ∧ output.Wrote w o) ∨
    (body ≤ output.remaining ∧ output.content.length < output.position + (body + HMAC_DIGEST_SIZE) ∧ ∃ w o,
      encryptBuffer P k ivPreImage input output = .error (.runtime .illegalArgument) o ∧ output.Wrote w o) ∨
    (body ≤ output.remaining ∧ output.position + (body + HMAC_DIGEST_SIZE) ≤ output.content.length ∧ ∃ w o,
      encryptBuffer P k ivPreImage input output = .ok () o ∧ w.length = body + HMAC_DIGEST_SIZE ∧
        o.content = overwrite output.content output.position w ∧ o.position = output.position + w.length ∧ o.limit = o.position) := by
  subst hbody
  unfold encryptBuffer
  simp only [hnew]
  rcases copyHeader_cases P k output.setMark with ⟨hsmall, w, o, hcopy, hw⟩ | ⟨o, hcopy, hw, _⟩
  · left
    simp only [hcopy]
    exact ⟨hsmall, w, o, rfl, hw.content_eq, hw.position_eq, hw.limit_eq⟩
  · right
    have hheader : (FORMAT_VERSION :: k.hash P).length = HEADER_SIZE := by rw [List.length_cons, AesKey.length_hash]; rfl
    have hw : output.Wrote (FORMAT_VERSION :: k.hash P) o := ⟨hw.content_eq, hw.position_eq, hw.limit_eq⟩
    have hroom := hw.length_le
    have hleft := hw.remaining_eq
    rw [hheader] at hroom hleft
    have hblock : (ByteBuffer.wrap ivPreImage).remaining = BLOCK_SIZE := (ByteBuffer.remaining_wrap _).trans hpre
    have hmono := outputLength_mono k.mode (Nat.le_add_right BLOCK_SIZE input.remaining)
    simp only [hcopy, AesStream.initEncrypt, AesStream.updateEncrypt]
    rcases (counted_of_new (P := P) hnew).encryptingUpdate (ByteBuffer.wrap ivPreImage) o with
      ⟨hshort, e, hup⟩ | ⟨s, o₁, w₁, hup, hw₁, hcount⟩
    · left
      rw [hblock, Nat.zero_add] at hshort
      simp only [hup]
      exact ⟨hroom, by rw [bodyLength]; omega, .shortBuffer, _, o, rfl, hw⟩
    · rw [hblock, Nat.zero_add, Nat.zero_add] at hcount
      have hlen : (FORMAT_VERSION :: k.hash P ++ w₁).length = HEADER_SIZE + w₁.length := by rw [List.length_append, hheader]
      simp only [hup]
      rcases hcount.encryptChunks (hw.trans hw₁) hlen input input.remaining output.position with
        ⟨hshort, e, v, o₂, hrun, hv⟩ | ⟨s', rest, j, o₂, r, l, v, hrun, hcount', hsum, hv, hvlen⟩
      · left
        have hrun' : Encrypter.encryptChunks P input.remaining s input.asReadOnlyBuffer output.position o₁ = .error (.keyczar e) o₂ := hrun
        simp only [hrun']
        exact ⟨hroom, hshort, e, v, o₂, rfl, hv⟩
      · have hrun' : Encrypter.encryptChunks P input.remaining s input.asReadOnlyBuffer output.position o₁ = .ok (s', rest, j) o₂ := hrun
        simp only [hrun']
        have hbody : bodyLength k.mode input.remaining = HEADER_SIZE + outputLength k.mode (r + rest.remaining) := by
          rw [hsum]
          rfl
        rcases hcount'.finish hv hvlen j hbody with
          ⟨hshort, e, v', o₃, hfin, hv'⟩ | ⟨hfits, hcap, v', o₃, hfin, hv'⟩ | ⟨hfits, hcap, v', o₃, hfin, hend⟩
        · exact Or.inl ⟨hroom, hshort, e, v', o₃, hfin, hv'⟩
        · exact Or.inr (Or.inl ⟨hfits, hcap, v', o₃, hfin, hv'⟩)
        · exact Or.inr (Or.inr ⟨hfits, hcap, v', o₃, hfin, hend⟩)

end Encrypter

end Java
