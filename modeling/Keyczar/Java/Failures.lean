import Keyczar.Java.Collisions

/-!
# What a decryption that throws leaves

The signature is checked when all chunks but the last are in the output, so a failure is seen in it: the bytes that were put stay,
and so does the position behind them. Nothing else has changed, and without a chunk before the last nothing has.
-/

namespace Java

open Bytes

namespace Crypter

variable {P : Primitives}

/-- A message with the header of a key and a signature that is not the key's: with a payload of more than a chunk, the first chunk
is in the output when the decryption throws. -/
theorem wrong_signature {z : Keyczar} {k : AesKey} {m : Message} {stream : AesStream} (hnew : AesStream.new k = .ok stream)
    (hheader : m.header = FORMAT_VERSION :: k.hash P) (hkeys : z.getKey (k.hash P) = [.aes k])
    (htag : P.hmacSha1 k.hmacKey.keyBytes m.signed ≠ m.tag) (output : ByteBuffer) :
    ∃ e output', decryptBuffer P z (ByteBuffer.wrap m.bytes) output = .error e output' ∧
      (DECRYPT_CHUNK_SIZE < m.payload.length → DECRYPT_CHUNK_SIZE ≤ output.remaining →
        output.position + 1008 ≤ output'.position) := by
  obtain ⟨s, hs, hout, heq⟩ := decryptBuffer_message hheader hkeys (List.cons_ne_nil _ _) output
  rw [show decide ([KeyczarKey.aes k].length > 1) = false from rfl] at heq
  cases ht : tryKey P (ByteBuffer.wrap m.bytes) (.aes stream) (withTempBuffer false s) with
  | ok u t => exact absurd (verified_of_tryKey_ok (hs.withTempBuffer false) hnew ht) htag
  | error e t =>
    rw [tryKeys_of_tryKey_error (getStream_aes hnew) hs.content_eq hs.mark_eq ht] at heq
    refine ⟨_, _, heq, fun hlong hroom => ?_⟩
    obtain ⟨w, hw, hlen⟩ := le_wrote_of_tryKey_error (hs.withTempBuffer false) hnew hlong (hout ▸ hroom) ht
    have hpos : t.output.position = output.position + w.length := by
      rw [hw.position_eq]
      exact congrArg (·.position + w.length) hout
    show output.position + 1008 ≤ t.output.position
    omega

/-! ### A signature of zeros -/

/-- A message for the key `keyOf 1` with a payload of `n` zeros and a signature of zeros. -/
def zeros (n : Nat) : Message where
  header := FORMAT_VERSION :: (keyOf 1).hash .plain
  iv := List.replicate 16 0
  payload := List.replicate n 0
  tag := List.replicate 20 0
  length_header := rfl
  length_iv := rfl
  length_tag := rfl

/-- A key set of one key. -/
def oneKey : KeyczarReader where
  metadata :=
    { purpose := .decryptAndEncrypt
      versions := [{ versionNumber := 1, status := .primary }] }
  getKey _ := .ok (.aes (keyOf 1))

theorem wrong_signature_zeros (n : Nat) (output : ByteBuffer) : ∃ z, Keyczar.new .plain isAcceptablePurpose oneKey = .ok z ∧
    ∃ e output', decryptBuffer .plain z (ByteBuffer.wrap (zeros n).bytes) output = .error e output' ∧
      (DECRYPT_CHUNK_SIZE < (zeros n).payload.length → DECRYPT_CHUNK_SIZE ≤ output.remaining →
        output.position + 1008 ≤ output'.position) := by
  obtain ⟨stream, hnew⟩ := Encrypter.new_ok (k := keyOf 1) rfl rfl
  have htag : Primitives.plain.hmacSha1 (keyOf 1).hmacKey.keyBytes (zeros n).signed ≠ (zeros n).tag := by
    show Primitives.fit 20 (List.replicate 20 (1 : UInt8)) ≠ List.replicate 20 0
    decide
  exact ⟨_, rfl, wrong_signature hnew rfl rfl htag output⟩

/-- A call that throws leaves the limit and all bytes outside of what was put between the old position and the new one; with
payloads of at most one chunk it leaves the whole output. -/
theorem failed_decryption_leaves_rest (P : Primitives) (z : Keyczar) (input output output' : ByteBuffer) (e : Exception)
    (h : decryptBuffer P z input output = .error e output') :
    output'.limit = output.limit ∧ output'.content.length = output.content.length ∧ output.position ≤ output'.position ∧
      output'.content.take output.position = output.content.take output.position ∧
      output'.content.drop output'.position = output.content.drop output'.position ∧
      ((∀ key ∈ z.getKey (headerHash input), payloadLength key (input.remaining - HEADER_SIZE) ≤ DECRYPT_CHUNK_SIZE) →
        output'.content = output.content ∧ output'.position = output.position) := by
  have hwrote : ∃ w, output.Wrote w output' ∧
      ((∀ key ∈ z.getKey (headerHash input), payloadLength key (input.remaining - HEADER_SIZE) ≤ DECRYPT_CHUNK_SIZE) →
        w = []) := by
    rcases decryptBuffer_cases (P := P) z input output with ⟨_, e', he⟩ | ⟨_, inputCopy, hc, hp, hl, hm, heq⟩
    · rw [he] at h
      cases h
      exact ⟨[], ByteBuffer.wrote_refl _, fun _ => rfl⟩
    · rw [heq] at h
      split at h
      · cases h
      · rename_i ht
        cases h
        obtain ⟨w, hw, hsmall⟩ := wrote_of_tryKeys_error (s := { inputCopy, output }) hc hm ht
        refine ⟨w, hw, fun hle => hsmall ?_⟩
        have hrem : inputCopy.remaining = input.remaining - HEADER_SIZE := by
          rw [ByteBuffer.remaining_eq, ByteBuffer.remaining_eq, hp, hl]
          omega
        rw [hrem]
        exact hle
  obtain ⟨w, hw, hsmall⟩ := hwrote
  have hfits := hw.fits
  refine ⟨hw.limit_eq, ?_, ?_, ?_, ?_, ?_⟩
  · rw [hw.content_eq, Bytes.length_overwrite hfits]
  · rw [hw.position_eq]
    exact Nat.le_add_right _ _
  · rw [hw.content_eq, Bytes.take_overwrite hfits (Nat.le_refl _)]
  · rw [hw.content_eq, hw.position_eq, Bytes.drop_overwrite hfits]
  · intro hle
    have hnil := hsmall hle
    subst hnil
    exact ⟨by rw [hw.content_eq, Bytes.overwrite_nil], by rw [hw.position_eq]; rfl⟩

theorem failed_decryption_leaves_rest_zeros : ∃ z output', Keyczar.new .plain isAcceptablePurpose oneKey = .ok z ∧
    output'.limit = 64 ∧ output'.content = List.replicate 64 0 ∧ output'.position = 0 ∧
    ∃ e, decryptBuffer .plain z (ByteBuffer.wrap (zeros 16).bytes) (ByteBuffer.allocate 64) = .error e output' := by
  obtain ⟨z, hload, e, output', hrun, _⟩ := wrong_signature_zeros 16 (ByteBuffer.allocate 64)
  obtain ⟨hlimit, _, _, _, _, hsame⟩ := failed_decryption_leaves_rest .plain z _ _ output' e hrun
  have hshort : ∀ key ∈ z.getKey (headerHash (ByteBuffer.wrap (zeros 16).bytes)),
      payloadLength key ((ByteBuffer.wrap (zeros 16).bytes).remaining - HEADER_SIZE) ≤ DECRYPT_CHUNK_SIZE := by
    intro key _
    refine Nat.le_trans (payloadLength_le key _) ?_
    decide
  obtain ⟨hcontent, hposition⟩ := hsame hshort
  exact ⟨z, output', hload, hlimit, hcontent, hposition, e, hrun⟩

/-- After a payload of more than a chunk with a wrong signature, the position of the output is not what it was. -/
theorem first_chunk_is_left : ∃ z e output', Keyczar.new .plain isAcceptablePurpose oneKey = .ok z ∧
    decryptBuffer .plain z (ByteBuffer.wrap (zeros 1040).bytes) (ByteBuffer.allocate 1040) = .error e output' ∧
    output'.position ≠ (ByteBuffer.allocate 1040).position := by
  obtain ⟨z, hload, e, output', hrun, hpos⟩ := wrong_signature_zeros 1040 (ByteBuffer.allocate 1040)
  refine ⟨z, e, output', hload, hrun, ?_⟩
  have hlong : DECRYPT_CHUNK_SIZE < (zeros 1040).payload.length := by
    show 1024 < (List.replicate 1040 (0 : UInt8)).length
    rw [List.length_replicate]
    decide
  have hroom : DECRYPT_CHUNK_SIZE ≤ (ByteBuffer.allocate 1040).remaining := by
    rw [ByteBuffer.allocate, ByteBuffer.remaining_wrap, List.length_replicate]
    decide
  have hput := hpos hlong hroom
  show output'.position ≠ 0
  omega

end Crypter

end Java
