import Keyczar.Java.Crypter

/-!
# What a failed decryption leaves behind

Each part of a try is run once, for every way it can end. From these follows what holds at every exit: the view of the input can be
put back, and the output has only had bytes put.
-/

namespace Java

open Throwing

namespace DecryptingStream

/-- How many bytes of the payload `initDecrypt` reads. -/
def ivSize : DecryptingStream → Nat
  | .aes _ => BLOCK_SIZE
  | .rsaPrivate _ => 0

/-- `initDecrypt` reads the vector or fails because the input is too short for it. -/
theorem initDecrypt_cases (P : Primitives) (d : DecryptingStream) (input : ByteBuffer) :
    (input.remaining < d.ivSize ∧ ∃ e, d.initDecrypt P input = .error (.runtime e)) ∨
    (d.ivSize ≤ input.remaining ∧ ∃ d' input', d.initDecrypt P input = .ok (d', input') ∧ input'.content = input.content ∧
      input'.position = input.position + d.ivSize ∧ input'.limit = input.limit ∧ input'.mark = input.mark) := by
  cases d with
  | aes s =>
    rcases Nat.lt_or_ge input.remaining BLOCK_SIZE with h | h
    · left
      refine ⟨h, .bufferUnderflow, ?_⟩
      simp only [initDecrypt, AesStream.initDecrypt, ByteBuffer.get_error h]
    · right
      obtain ⟨b, hb, hc, hp, hl, hm⟩ := ByteBuffer.get_ok h
      refine ⟨h, .aes { s.discard P (input.rest.take BLOCK_SIZE) with ivRead := true }, b, ?_, hc, hp, hl, hm⟩
      simp only [initDecrypt, AesStream.initDecrypt, hb]
  | rsaPrivate s => exact Or.inr ⟨Nat.zero_le _, _, input, rfl, rfl, rfl, rfl, rfl⟩

end DecryptingStream

namespace Crypter

variable {P : Primitives}

/-- The state once `tempBuffer.mark()` was called. -/
def marked (s : Buffers) : Buffers :=
  match s.tempBuffer with
  | none => { s with output := s.output.setMark }
  | some temp => { s with tempBuffer := some temp.setMark }

theorem onInput_ok {f : ByteBuffer → Except RuntimeException ByteBuffer} {s : Buffers} {b : ByteBuffer}
    (h : f s.inputCopy = .ok b) : onInput f s = .ok () { s with inputCopy := b } := by
  simp only [onInput, h]

/-- How the start of a try can end, from a view of the input that is marked where it stands: too short for a signature, too short
for a vector, or ready with the signature cut off and the header and the vector verified. -/
theorem begin_cases (input : ByteBuffer) (d : DecryptingStream) {s : Buffers}
    (hcontent : s.inputCopy.content = input.content) (hmark : s.inputCopy.mark = some s.inputCopy.position) :
    (s.inputCopy.remaining < d.getVerifyingStream.digestSize ∧
      begin P input d s = .error (.keyczar (.shortCiphertext s.inputCopy.remaining)) s) ∨
    (d.getVerifyingStream.digestSize ≤ s.inputCopy.remaining ∧ ∃ body : ByteBuffer, body.content = input.content ∧
      body.position = s.inputCopy.position ∧ body.limit = s.inputCopy.limit - d.getVerifyingStream.digestSize ∧
      body.mark = s.inputCopy.mark ∧
      ((body.remaining < d.ivSize ∧ ∃ e, begin P input d s = .error (.runtime e) { s with inputCopy := body }) ∨
       (d.ivSize ≤ body.remaining ∧ ∃ d' payload header signature, d.initDecrypt P body = .ok (d', payload) ∧
          payload.content = input.content ∧ payload.position = s.inputCopy.position + d.ivSize ∧ payload.limit = body.limit ∧
          payload.mark = s.inputCopy.mark ∧
          header.rest = (input.content.take payload.position).drop input.position ∧
          signature.rest = s.inputCopy.rest.drop (s.inputCopy.remaining - d.getVerifyingStream.digestSize) ∧
          begin P input d s = .ok (d', d.getVerifyingStream.initVerify.updateVerify header, signature)
            (marked { s with inputCopy := payload })))) := by
  rcases Nat.lt_or_ge s.inputCopy.remaining d.getVerifyingStream.digestSize with hshort | hlong
  · left
    refine ⟨hshort, ?_⟩
    unfold begin
    simp only [bind, EStateM.bind, get_apply, if_pos hshort]
    rfl
  · right
    refine ⟨hlong, ?_⟩
    have hple := s.inputCopy.position_le
    have hrem := s.inputCopy.remaining_eq
    -- the four calls on the view before the vector is read
    obtain ⟨atSig, hAt, hAtC, hAtP, hAtL, hAtM⟩ :=
      ByteBuffer.setPosition_ok (Nat.sub_le s.inputCopy.limit d.getVerifyingStream.digestSize)
    have hmark' : atSig.mark = some s.inputCopy.position := by
      rw [hAtM, ByteBuffer.filter_mark (by omega), hmark]
    obtain ⟨start, hStart, hStartC, hStartP, hStartL, hStartM⟩ := ByteBuffer.reset_ok hmark'
    have hbound : start.limit - d.getVerifyingStream.digestSize ≤ start.content.length :=
      Nat.le_trans (Nat.sub_le _ _) start.limit_le
    obtain ⟨body, hBody, hBodyC, hBodyP, hBodyL, hBodyM⟩ := ByteBuffer.setLimit_ok hbound
    have hbodyC : body.content = input.content := by rw [hBodyC, hStartC, hAtC, hcontent]
    have hbodyP : body.position = s.inputCopy.position := by
      rw [hBodyP, hStartP, hStartL, hAtL]
      omega
    have hbodyL : body.limit = s.inputCopy.limit - d.getVerifyingStream.digestSize := by rw [hBodyL, hStartL, hAtL]
    have hbodyM : body.mark = s.inputCopy.mark := by
      rw [hBodyM, ByteBuffer.filter_mark (by omega), hStartM, hmark', hmark]
    refine ⟨body, hbodyC, hbodyP, hbodyL, hbodyM, ?_⟩
    have hlt : ¬ s.inputCopy.remaining < d.getVerifyingStream.digestSize := Nat.not_lt.mpr hlong
    rcases d.initDecrypt_cases P body with ⟨hiv, e, he⟩ | ⟨hiv, d', payload, he, hc, hp, hl, hm⟩
    · left
      refine ⟨hiv, e, ?_⟩
      unfold begin
      simp only [bind, EStateM.bind, get_apply, if_neg hlt, pure, onInput, hAt, hStart,
        hBody, initDecrypt, he]
    · right
      have hpos : payload.position ≤ input.content.length := by
        rw [← hbodyC, ← hc]
        exact Nat.le_trans payload.position_le payload.limit_le
      obtain ⟨header, hHeader, hHeaderC, hHeaderP, hHeaderL, _⟩ := ByteBuffer.setLimit_ok hpos
      refine ⟨hiv, d', payload, header, atSig.slice, he, by rw [hc, hbodyC], by rw [hp, hbodyP], hl, by rw [hm, hbodyM], ?_, ?_, ?_⟩
      · rw [ByteBuffer.rest, hHeaderC, hHeaderP, hHeaderL]
        rcases Nat.le_total input.position payload.position with h | h
        · rw [Nat.min_eq_left h]
        · rw [Nat.min_eq_right h, List.drop_eq_nil_of_le (by simp), List.drop_eq_nil_of_le (by simp; omega)]
      · rw [ByteBuffer.slice, ByteBuffer.rest_wrap]
        refine ByteBuffer.rest_drop hAtC ?_ hAtL
        rw [hAtP]
        omega
      · unfold begin
        simp only [bind, EStateM.bind, get_apply, if_neg hlt, pure, EStateM.pure, onInput, hAt, hStart,
          hBody, initDecrypt, he, orThrow, ByteBuffer.asReadOnlyBuffer, hHeader, Except.mapError, modify_apply]
        rfl

/-- A turn of the loop decrypts the next chunk, whatever the streams are. -/
theorem decryptChunk_eq {s : Buffers} (h : DECRYPT_CHUNK_SIZE < s.inputCopy.remaining) :
    ∃ chunk inputCopy : ByteBuffer, chunk.remaining = DECRYPT_CHUNK_SIZE ∧ chunk.rest = s.inputCopy.rest.take DECRYPT_CHUNK_SIZE ∧
      chunk.rewind.rest = s.inputCopy.rest.take DECRYPT_CHUNK_SIZE ∧
      inputCopy.content = s.inputCopy.content ∧ inputCopy.position = s.inputCopy.position + DECRYPT_CHUNK_SIZE ∧
      inputCopy.limit = s.inputCopy.limit ∧ inputCopy.mark = s.inputCopy.mark ∧
      ∀ d v, decryptChunk P d v s =
        match d.updateDecrypt P chunk s.output with
        | .error e => .error e s
        | .ok (d', output) => .ok (d', v.updateVerify chunk.rewind) { s with inputCopy, output } := by
  obtain ⟨chunk, hchunk, hrem, hrest, hrew⟩ := ByteBuffer.slice_ok (Nat.le_of_lt h)
  have hle : s.inputCopy.position + DECRYPT_CHUNK_SIZE ≤ s.inputCopy.limit := by
    rw [ByteBuffer.remaining_eq] at h
    omega
  obtain ⟨inputCopy, hset, hc, hp, hl, hm⟩ := ByteBuffer.setPosition_ok hle
  rw [ByteBuffer.filter_mark (Nat.le_add_right _ _)] at hm
  refine ⟨chunk, inputCopy, hrem, hrest, hrew, hc, hp, hl, hm, ?_⟩
  intro d v
  unfold decryptChunk
  simp only [bind, EStateM.bind, get_apply, orThrow, hchunk, Except.mapError]
  cases d.updateDecrypt P chunk s.output with
  | error e => rfl
  | ok r =>
    simp only [modify_apply, onInput, hset]
    rfl

/-- How a turn of the loop can end: the cipher throws and nothing has changed, or the view has moved one chunk on. -/
theorem decryptChunk_cases {d : DecryptingStream} {v : VerifyingStream} {s : Buffers}
    (h : DECRYPT_CHUNK_SIZE < s.inputCopy.remaining) :
    ∃ chunk : ByteBuffer, chunk.remaining = DECRYPT_CHUNK_SIZE ∧ chunk.rest = s.inputCopy.rest.take DECRYPT_CHUNK_SIZE ∧
      chunk.rewind.rest = s.inputCopy.rest.take DECRYPT_CHUNK_SIZE ∧
      ((∃ e, d.updateDecrypt P chunk s.output = .error e ∧ decryptChunk P d v s = .error e s) ∨
       (∃ d' output inputCopy, d.updateDecrypt P chunk s.output = .ok (d', output) ∧
          inputCopy.content = s.inputCopy.content ∧ inputCopy.position = s.inputCopy.position + DECRYPT_CHUNK_SIZE ∧
          inputCopy.limit = s.inputCopy.limit ∧ inputCopy.mark = s.inputCopy.mark ∧
          decryptChunk P d v s = .ok (d', v.updateVerify chunk.rewind) { s with inputCopy, output })) := by
  obtain ⟨chunk, inputCopy, hrem, hrest, hrew, hc, hp, hl, hm, heq⟩ := decryptChunk_eq (P := P) h
  refine ⟨chunk, hrem, hrest, hrew, ?_⟩
  rw [heq]
  cases hup : d.updateDecrypt P chunk s.output with
  | error e =>
    left
    exact ⟨e, rfl, rfl⟩
  | ok r =>
    right
    exact ⟨r.1, r.2, inputCopy, rfl, hc, hp, hl, hm, rfl⟩

/-- What the end of a try does. -/
theorem finish_eq (d : DecryptingStream) (v : VerifyingStream) (signature : ByteBuffer) (s : Buffers) :
    finish P d v signature s =
      if (v.updateVerify s.inputCopy).verify P signature = false then .error (.keyczar .invalidSignature) s
      else match s.tempBuffer with
        | none => match d.doFinalDecrypt P s.inputCopy s.output with
          | .error e => .error e s
          | .ok output => .ok () { s with output := output.limitHere }
        | some temp => match d.doFinalDecrypt P s.inputCopy temp with
          | .error e => .error e s
          | .ok temp => match s.output.put temp.limitHere.rewind.rest with
            | .error e => .error (.runtime e) s
            | .ok output => .ok () { s with output := output.limitHere, tempBuffer := some temp.limitHere.rewind } := by
  obtain ⟨inputCopy, output, tempBuffer⟩ := s
  unfold finish
  cases hv : (v.updateVerify inputCopy).verify P signature with
  | false =>
    simp only [bind, EStateM.bind, get_apply, hv]
    rfl
  | true =>
    simp only [bind, EStateM.bind, get_apply, hv, onInput, ByteBuffer.setPosition_self,
      Bool.not_true, Bool.false_eq_true, if_false, Bool.true_eq_false]
    cases tempBuffer with
    | none =>
      simp only [orThrow, EStateM.bind]
      cases d.doFinalDecrypt P inputCopy output with
      | error e => rfl
      | ok output => rfl
    | some temp =>
      simp only [orThrow, EStateM.bind]
      cases d.doFinalDecrypt P inputCopy temp with
      | error e => rfl
      | ok temp =>
        simp only
        cases output.put temp.limitHere.rewind.rest with
        | error e => rfl
        | ok output => rfl

/-! ## At every exit -/

/-- The view of the input has moved only between its mark and its limit, and `w` was put into the output. -/
structure Kept (s : Buffers) (w : Bytes) (s' : Buffers) : Prop where
  content_eq : s'.inputCopy.content = s.inputCopy.content
  mark_eq : s'.inputCopy.mark = s.inputCopy.mark
  wrote : s.output.Wrote w s'.output

theorem Kept.trans {a b c : Buffers} {v w : Bytes} (h : Kept a v b) (h' : Kept b w c) : Kept a (v ++ w) c :=
  ⟨h'.content_eq.trans h.content_eq, h'.mark_eq.trans h.mark_eq, h.wrote.trans h'.wrote⟩

theorem kept_refl (s : Buffers) : Kept s [] s := ⟨rfl, rfl, ByteBuffer.wrote_refl _⟩

theorem output_marked (s : Buffers) : s.output.Wrote [] (marked s).output := by
  unfold marked
  split
  · exact ByteBuffer.wrote_nil rfl rfl rfl
  · exact ByteBuffer.wrote_refl _

theorem inputCopy_marked (s : Buffers) : (marked s).inputCopy = s.inputCopy := by
  unfold marked
  split <;> rfl

/-- However the start of a try ends, nothing was put. -/
theorem kept_begin (input : ByteBuffer) (d : DecryptingStream) {s : Buffers}
    (hcontent : s.inputCopy.content = input.content) (hmark : s.inputCopy.mark = some s.inputCopy.position) :
    Kept s [] (leaves (begin P input d s)) := by
  rcases begin_cases (P := P) input d hcontent hmark with ⟨_, hb⟩ | ⟨_, body, hc, _, _, hm, hb⟩
  · rw [hb]
    exact kept_refl s
  · rcases hb with ⟨_, e, hb⟩ | ⟨_, d', payload, header, signature, _, hpc, _, _, hpm, _, _, hb⟩
    · rw [hb]
      exact ⟨hc.trans hcontent.symm, hm, ByteBuffer.wrote_refl _⟩
    · rw [hb, leaves_ok]
      refine ⟨?_, ?_, ?_⟩
      · rw [inputCopy_marked]
        exact hpc.trans hcontent.symm
      · rw [inputCopy_marked]
        exact hpm
      · exact output_marked { s with inputCopy := payload }

/-- A turn of the loop puts what the cipher returns. -/
theorem kept_decryptChunk {d : DecryptingStream} {v : VerifyingStream} {s : Buffers}
    (h : DECRYPT_CHUNK_SIZE < s.inputCopy.remaining) : ∃ w, Kept s w (leaves (decryptChunk P d v s)) := by
  obtain ⟨chunk, _, _, _, hcases⟩ := decryptChunk_cases (P := P) (d := d) (v := v) h
  rcases hcases with ⟨e, _, hd⟩ | ⟨d', output, inputCopy, hup, hc, _, _, hm, hd⟩
  · rw [hd]
    exact ⟨[], kept_refl s⟩
  · rw [hd]
    obtain ⟨w, hw⟩ := DecryptingStream.wrote_of_updateDecrypt hup
    exact ⟨w, hc, hm, hw⟩

theorem decryptChunks_of_le {fuel : Nat} {d : DecryptingStream} {v : VerifyingStream} {s : Buffers}
    (h : s.inputCopy.remaining ≤ DECRYPT_CHUNK_SIZE) : decryptChunks P fuel d v s = .ok (d, v) s := by
  cases fuel with
  | zero => rfl
  | succ fuel =>
    unfold decryptChunks
    simp only [bind, EStateM.bind, get_apply, if_pos h]
    rfl

theorem decryptChunks_of_lt (fuel : Nat) (d : DecryptingStream) (v : VerifyingStream) {s : Buffers}
    (h : DECRYPT_CHUNK_SIZE < s.inputCopy.remaining) :
    decryptChunks P (fuel + 1) d v s = (decryptChunk P d v >>= fun r => decryptChunks P fuel r.1 r.2) s := by
  conv_lhs => unfold decryptChunks
  simp only [bind, EStateM.bind, get_apply, if_neg (Nat.not_le.mpr h)]

/-- The whole loop only puts, whether it ends or throws. -/
theorem kept_decryptChunks (fuel : Nat) (d : DecryptingStream) (v : VerifyingStream) (s : Buffers) :
    ∃ w, Kept s w (leaves (decryptChunks P fuel d v s)) := by
  induction fuel generalizing d v s with
  | zero => exact ⟨[], kept_refl s⟩
  | succ fuel ih =>
    rcases Nat.lt_or_ge DECRYPT_CHUNK_SIZE s.inputCopy.remaining with h | h
    · rw [decryptChunks_of_lt _ _ _ h]
      obtain ⟨w, hw⟩ := kept_decryptChunk (P := P) (d := d) (v := v) h
      cases hd : decryptChunk P d v s with
      | ok r t =>
        rw [bind_ok hd]
        rw [hd] at hw
        obtain ⟨w', hw'⟩ := ih r.1 r.2 t
        exact ⟨w ++ w', hw.trans hw'⟩
      | error e t =>
        rw [bind_error hd]
        rw [hd] at hw
        exact ⟨w, hw⟩
    · rw [decryptChunks_of_le h]
      exact ⟨[], kept_refl s⟩

/-- When the end of a try throws, it has changed nothing. -/
theorem finish_error {d : DecryptingStream} {v : VerifyingStream} {signature : ByteBuffer} {s s' : Buffers} {e : Exception}
    (h : finish P d v signature s = .error e s') : s' = s := by
  rw [finish_eq] at h
  split at h
  · cases h
    rfl
  · split at h
    · split at h
      · cases h
        rfl
      · cases h
    · split at h
      · cases h
        rfl
      · split at h
        · cases h
          rfl
        · cases h

/-- When the end of a try returns, the view of the input has not moved. -/
theorem finish_ok {d : DecryptingStream} {v : VerifyingStream} {signature : ByteBuffer} {s s' : Buffers}
    (h : finish P d v signature s = .ok () s') : s'.inputCopy = s.inputCopy := by
  rw [finish_eq] at h
  split at h
  · cases h
  · split at h
    · split at h
      · cases h
      · cases h
        rfl
    · split at h
      · cases h
      · split at h
        · cases h
        · cases h
          rfl

/-- A try whose start throws. -/
theorem tryKey_of_begin_error {input : ByteBuffer} {d : DecryptingStream} {s t : Buffers} {e : Exception}
    (h : begin P input d s = .error e t) : tryKey P input d s = .error e t := by
  unfold tryKey
  rw [bind_error h]

/-- A try whose start returns goes on with the loop. -/
theorem tryKey_of_begin {input : ByteBuffer} {d d' : DecryptingStream} {v : VerifyingStream} {signature : ByteBuffer}
    {s t : Buffers} (h : begin P input d s = .ok (d', v, signature) t) :
    tryKey P input d s =
      (decryptChunks P t.inputCopy.remaining d' v >>= fun r => finish P r.1 r.2 signature) t := by
  unfold tryKey
  rw [bind_ok h]
  rfl

/-- A loop and an end that throw have kept the view, and have only put bytes into the output: none, when one chunk was left. -/
theorem kept_of_loop_error {fuel : Nat} {d : DecryptingStream} {v : VerifyingStream} {signature : ByteBuffer} {s s' : Buffers}
    {e : Exception} (h : (decryptChunks P fuel d v >>= fun r => finish P r.1 r.2 signature) s = .error e s') :
    ∃ w, Kept s w s' ∧ (s.inputCopy.remaining ≤ DECRYPT_CHUNK_SIZE → w = []) := by
  by_cases hle : s.inputCopy.remaining ≤ DECRYPT_CHUNK_SIZE
  · rw [bind_ok (decryptChunks_of_le hle)] at h
    rw [finish_error h]
    exact ⟨[], kept_refl s, fun _ => rfl⟩
  · obtain ⟨w, hw⟩ := kept_decryptChunks (P := P) fuel d v s
    refine ⟨w, ?_, fun h' => absurd h' hle⟩
    cases hc : decryptChunks P fuel d v s with
    | error e' t =>
      rw [bind_error hc] at h
      cases h
      rw [hc] at hw
      exact hw
    | ok r t =>
      rw [bind_ok hc] at h
      rw [finish_error h]
      rw [hc] at hw
      exact hw

/-- A try that throws has kept the view, and has only put bytes into the output: none, when the payload is one chunk. -/
theorem kept_of_tryKey_error {input : ByteBuffer} {d : DecryptingStream} {s s' : Buffers} {e : Exception}
    (hcontent : s.inputCopy.content = input.content) (hmark : s.inputCopy.mark = some s.inputCopy.position)
    (h : tryKey P input d s = .error e s') :
    ∃ w, Kept s w s' ∧
      (s.inputCopy.remaining - d.getVerifyingStream.digestSize - d.ivSize ≤ DECRYPT_CHUNK_SIZE → w = []) := by
  have hbegin := kept_begin (P := P) input d hcontent hmark
  cases hb : begin P input d s with
  | error e' t =>
    rw [tryKey_of_begin_error hb] at h
    cases h
    rw [hb] at hbegin
    exact ⟨[], hbegin, fun _ => rfl⟩
  | ok r t =>
    obtain ⟨d', v, signature⟩ := r
    rw [hb] at hbegin
    rw [tryKey_of_begin hb] at h
    have hsize : t.inputCopy.remaining = s.inputCopy.remaining - d.getVerifyingStream.digestSize - d.ivSize := by
      rcases begin_cases (P := P) input d hcontent hmark with ⟨_, hb'⟩ | ⟨_, body, _, hp, hl, _, hb'⟩
      · rw [hb'] at hb
        cases hb
      · rcases hb' with ⟨_, e, hb'⟩ | ⟨_, _, payload, _, _, _, _, hpp, hpl, _, _, _, hb'⟩
        · rw [hb'] at hb
          cases hb
        · rw [hb'] at hb
          cases hb
          rw [inputCopy_marked]
          simp only [ByteBuffer.remaining, hpp, hpl, hl]
          omega
    obtain ⟨w, hw, hsmall⟩ := kept_of_loop_error h
    exact ⟨w, hbegin.trans hw, fun hle => hsmall (hsize.trans_le hle)⟩

/-- A try that returns has kept the view. -/
theorem kept_of_tryKey_ok {input : ByteBuffer} {d : DecryptingStream} {s s' : Buffers}
    (hcontent : s.inputCopy.content = input.content) (hmark : s.inputCopy.mark = some s.inputCopy.position)
    (h : tryKey P input d s = .ok () s') :
    s'.inputCopy.content = s.inputCopy.content ∧ s'.inputCopy.mark = s.inputCopy.mark := by
  have hbegin := kept_begin (P := P) input d hcontent hmark
  cases hb : begin P input d s with
  | error e t =>
    rw [tryKey_of_begin_error hb] at h
    cases h
  | ok r t =>
    obtain ⟨d', v, signature⟩ := r
    rw [hb] at hbegin
    rw [tryKey_of_begin hb, bind_eq_ok_iff] at h
    obtain ⟨r, t', hc, h⟩ := h
    obtain ⟨w, hw⟩ := kept_decryptChunks (P := P) t.inputCopy.remaining d' v t
    rw [hc] at hw
    rw [finish_ok h]
    have hkept := hbegin.trans hw
    exact ⟨hkept.content_eq, hkept.mark_eq⟩

/-- The `finally` block puts the view back to what it was before the try. -/
theorem putBack_eq {s : Buffers} {b : ByteBuffer} (hcontent : s.inputCopy.content = b.content)
    (hmark : s.inputCopy.mark = b.mark) (hb : b.mark = some b.position) :
    putBack b.limit s = .ok () { s with inputCopy := b } := by
  obtain ⟨start, hstart, hc, hp, _, hm⟩ := ByteBuffer.reset_ok (hmark.trans hb)
  have hle : b.limit ≤ start.content.length := by
    rw [hc, hcontent]
    exact b.limit_le
  obtain ⟨back, hback, hc', hp', hl', hm'⟩ := ByteBuffer.setLimit_ok hle
  have heq : back = b := by
    have hpos : start.position ≤ b.limit := hp ▸ b.position_le
    refine ByteBuffer.ext (hc'.trans (hc.trans hcontent)) ?_ hl' ?_
    · rw [hp', Nat.min_eq_left hpos, hp]
    · rw [hm', ByteBuffer.filter_mark hpos, hm, hmark]
  unfold putBack
  rw [bind_ok (onInput_ok hstart), onInput_ok hback, heq]

/-- A try with the `finally` block after it. The view is as before, whatever happened. -/
theorem putBack_of_tryKey_error {input : ByteBuffer} {d : DecryptingStream} {s s' : Buffers} {e : Exception}
    (hcontent : s.inputCopy.content = input.content) (hmark : s.inputCopy.mark = some s.inputCopy.position)
    (h : tryKey P input d s = .error e s') : putBack s.inputCopy.limit s' = .ok () { s' with inputCopy := s.inputCopy } := by
  obtain ⟨w, hw, _⟩ := kept_of_tryKey_error hcontent hmark h
  exact putBack_eq hw.content_eq hw.mark_eq hmark

/-! ## Over the keys -/

/-- What `error` is set to. -/
def caught : Exception → KeyczarException
  | .keyczar e => e
  | .runtime _ => .invalidSignature

/-- A key without a stream ends the search. -/
theorem tryKeys_of_getStream_error {input : ByteBuffer} {n : Nat} {collision : Bool} {key : KeyczarKey} {keys : List KeyczarKey}
    {error : Option KeyczarException} {s : Buffers} {e : Exception} (h : key.getStream = .error e) :
    tryKeys P input n collision (key :: keys) error s = .error e (withTempBuffer collision s) := by
  simp only [tryKeys, bind, EStateM.bind, modify_apply, orThrow, h]

/-- A try that returns ends the search. -/
theorem tryKeys_of_tryKey_ok {input : ByteBuffer} {collision : Bool} {key : KeyczarKey} {keys : List KeyczarKey}
    {error : Option KeyczarException} {s s' : Buffers} {d : DecryptingStream} (hstream : key.getStream = .ok d)
    (hcontent : s.inputCopy.content = input.content) (hmark : s.inputCopy.mark = some s.inputCopy.position)
    (h : tryKey P input d (withTempBuffer collision s) = .ok () s') :
    tryKeys P input s.inputCopy.limit collision (key :: keys) error s = .ok () { s' with inputCopy := s.inputCopy } := by
  obtain ⟨hc, hm⟩ := kept_of_tryKey_ok (s := withTempBuffer collision s) hcontent hmark h
  simp only [tryKeys, bind, EStateM.bind, modify_apply, orThrow, hstream, h]
  exact putBack_eq hc hm hmark

/-- After a try that throws, the next key is tried with the view as it was. -/
theorem tryKeys_of_tryKey_error {input : ByteBuffer} {collision : Bool} {key : KeyczarKey} {keys : List KeyczarKey}
    {error : Option KeyczarException} {s s' : Buffers} {e : Exception} {d : DecryptingStream} (hstream : key.getStream = .ok d)
    (hcontent : s.inputCopy.content = input.content) (hmark : s.inputCopy.mark = some s.inputCopy.position)
    (h : tryKey P input d (withTempBuffer collision s) = .error e s') :
    tryKeys P input s.inputCopy.limit collision (key :: keys) error s =
      tryKeys P input s.inputCopy.limit collision keys (some (caught e)) { s' with inputCopy := s.inputCopy } := by
  have hback : putBack s.inputCopy.limit s' = .ok () { s' with inputCopy := s.inputCopy } :=
    putBack_of_tryKey_error (s := withTempBuffer collision s) hcontent hmark h
  simp only [tryKeys, bind, EStateM.bind, modify_apply, orThrow, hstream, h]
  cases e with
  | keyczar e => simp only [hback, caught]
  | runtime e => simp only [hback, caught]

/-- The length of the payload for a key, when `n` bytes follow the header. -/
def payloadLength : KeyczarKey → Nat → Nat
  | .aes _, n => n - HMAC_DIGEST_SIZE - BLOCK_SIZE
  | .rsaPrivate _, n => n
  | .other _ _, _ => 0

theorem payloadLength_le (key : KeyczarKey) (n : Nat) : payloadLength key n ≤ n := by
  cases key with
  | aes k => exact Nat.le_trans (Nat.sub_le _ _) (Nat.sub_le _ _)
  | rsaPrivate k => exact Nat.le_refl n
  | other hash hashes => exact Nat.zero_le n

theorem payloadLength_eq {key : KeyczarKey} {d : DecryptingStream} (h : key.getStream = .ok d) (n : Nat) :
    payloadLength key n = n - d.getVerifyingStream.digestSize - d.ivSize := by
  cases key with
  | aes k =>
    simp only [KeyczarKey.getStream] at h
    split at h
    · cases h
      rfl
    · cases h
  | rsaPrivate k =>
    cases h
    rfl
  | other hash hashes => cases h

/-- A search that throws has only put bytes into the output: none, when for every key the payload is one chunk. -/
theorem wrote_of_tryKeys_error {input : ByteBuffer} {collision : Bool} {keys : List KeyczarKey}
    {error : Option KeyczarException} {s s' : Buffers} {e : Exception} (hcontent : s.inputCopy.content = input.content)
    (hmark : s.inputCopy.mark = some s.inputCopy.position)
    (h : tryKeys P input s.inputCopy.limit collision keys error s = .error e s') :
    ∃ w, s.output.Wrote w s'.output ∧
      ((∀ key ∈ keys, payloadLength key s.inputCopy.remaining ≤ DECRYPT_CHUNK_SIZE) → w = []) := by
  induction keys generalizing error s with
  | nil =>
    cases error with
    | none => cases h
    | some error =>
      cases h
      exact ⟨[], ByteBuffer.wrote_refl _, fun _ => rfl⟩
  | cons key keys ih =>
    cases hstream : key.getStream with
    | error e' =>
      rw [tryKeys_of_getStream_error hstream] at h
      cases h
      exact ⟨[], ByteBuffer.wrote_refl _, fun _ => rfl⟩
    | ok d =>
      cases ht : tryKey P input d (withTempBuffer collision s) with
      | ok u t =>
        rw [tryKeys_of_tryKey_ok hstream hcontent hmark ht] at h
        cases h
      | error e' t =>
        rw [tryKeys_of_tryKey_error hstream hcontent hmark ht] at h
        obtain ⟨w, hw, hsmall⟩ := kept_of_tryKey_error (s := withTempBuffer collision s) hcontent hmark ht
        obtain ⟨w', hw', hsmall'⟩ := ih (s := { t with inputCopy := s.inputCopy }) hcontent hmark h
        refine ⟨w ++ w', hw.wrote.trans hw', ?_⟩
        intro hle
        have hkey := hle key List.mem_cons_self
        rw [payloadLength_eq hstream] at hkey
        rw [hsmall hkey, hsmall' fun k hk => hle k (List.mem_cons_of_mem _ hk)]
        rfl

/-! ## Over the whole call -/

/-- The hash in the header of an input. -/
def headerHash (input : ByteBuffer) : Bytes := (input.rest.drop 1).take KEY_HASH_SIZE

/-- The header of a long enough input is read in two steps: the version, and the hash. -/
theorem exists_header_gets {input : ByteBuffer} (h : ¬ input.remaining < HEADER_SIZE) :
    ∃ b b' : ByteBuffer, input.get 1 = .ok (input.rest.take 1, b) ∧ b.get KEY_HASH_SIZE = .ok (headerHash input, b') ∧
      b'.content = input.content ∧ b'.position = input.position + HEADER_SIZE ∧ b'.limit = input.limit := by
  have hsize : HEADER_SIZE = 5 := rfl
  have hhashSize : KEY_HASH_SIZE = 4 := rfl
  obtain ⟨b, hb, hbc, hbp, hbl, _⟩ := ByteBuffer.get_ok (b := input) (n := 1) (by omega)
  have hremaining : KEY_HASH_SIZE ≤ b.remaining := by
    rw [ByteBuffer.remaining_eq] at h ⊢
    omega
  obtain ⟨b', hb', hbc', hbp', hbl', _⟩ := ByteBuffer.get_ok hremaining
  have hhash : b.rest.take KEY_HASH_SIZE = headerHash input := by
    rw [headerHash, ByteBuffer.rest_drop hbc hbp hbl]
  refine ⟨b, b', hb, hhash ▸ hb', hbc'.trans hbc, ?_, hbl'.trans hbl⟩
  rw [hbp', hbp, Nat.add_assoc]
  rfl

/-- A call whose header does not name a key fails at once; any other is the search, from a view of the input that is marked behind
the header. -/
theorem decryptBuffer_cases (z : Keyczar) (input output : ByteBuffer) :
    ((input.remaining < HEADER_SIZE ∨ input.rest.take 1 ≠ [FORMAT_VERSION] ∨ z.getKey (headerHash input) = []) ∧
      ∃ e, decryptBuffer P z input output = .error e output) ∨
    (z.getKey (headerHash input) ≠ [] ∧ ∃ inputCopy : ByteBuffer, inputCopy.content = input.content ∧
      inputCopy.position = input.position + HEADER_SIZE ∧ inputCopy.limit = input.limit ∧
      inputCopy.mark = some inputCopy.position ∧
      decryptBuffer P z input output =
        match tryKeys P input inputCopy.limit ((z.getKey (headerHash input)).length > 1) (z.getKey (headerHash input)) none
            { inputCopy, output } with
        | .ok _ s => .ok () s.output
        | .error e s => .error e s.output) := by
  unfold decryptBuffer ByteBuffer.asReadOnlyBuffer
  by_cases hshort : input.remaining < HEADER_SIZE
  · left
    exact ⟨Or.inl hshort, _, if_pos hshort⟩
  · simp only [if_neg hshort]
    obtain ⟨b, b', hb, hb', hcontent, hposition, hlimit⟩ := exists_header_gets hshort
    rw [hb]
    by_cases hversion : input.rest.take 1 ≠ [FORMAT_VERSION]
    · left
      exact ⟨Or.inr (Or.inl hversion), _, if_pos hversion⟩
    · simp only [if_neg hversion]
      rw [hb']
      simp only
      cases hkeys : z.getKey (headerHash input) with
      | nil =>
        left
        exact ⟨Or.inr (Or.inr rfl), _, rfl⟩
      | cons key keys =>
        right
        exact ⟨List.cons_ne_nil _ _, b'.setMark, hcontent, hposition, hlimit, rfl, rfl⟩

end Crypter

end Java
