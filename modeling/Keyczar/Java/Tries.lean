import Keyczar.Java.CrypterRuns
import Keyczar.Java.AesRuns

/-!
# A try with an AES key

What the `try` block of `Crypter.decrypt` does to a message with an AES key. The key of the message puts its plaintext. A key whose
signature does not verify fails, but with a payload of more than one chunk it has put bytes into the output by then.
-/

namespace Java

open Throwing Bytes

/-- The parts of a message. -/
structure Message where
  header : Bytes
  iv : Bytes
  payload : Bytes
  tag : Bytes
  length_header : header.length = 5
  length_iv : iv.length = 16
  length_tag : tag.length = 20

namespace Message

variable (m : Message)

/-- What the signature is over. -/
def signed : Bytes := m.header ++ m.iv ++ m.payload

def bytes : Bytes := m.signed ++ m.tag

theorem length_signed : m.signed.length = 21 + m.payload.length := by
  simp only [signed, List.length_append, m.length_header, m.length_iv]

theorem length_bytes : m.bytes.length = 41 + m.payload.length := by
  rw [bytes, List.length_append, m.length_signed, m.length_tag]
  omega

variable {m : Message} {b : ByteBuffer}

/-- What a view of the message has left behind the header. -/
theorem rest_of_header (hc : b.content = m.bytes) (hp : b.position = 5) (hl : b.limit = m.bytes.length) :
    b.rest = m.iv ++ m.payload ++ m.tag := by
  rw [ByteBuffer.rest, hc, hl, hp, List.take_length, bytes, signed, List.append_assoc, List.append_assoc,
    List.drop_left' m.length_header, List.append_assoc]

/-- The same without the signature. -/
theorem rest_of_body (hc : b.content = m.bytes) (hp : b.position = 5) (hl : b.limit = m.signed.length) :
    b.rest = m.iv ++ m.payload := by
  rw [ByteBuffer.rest, hc, hl, hp, bytes, List.take_left, signed, List.append_assoc, List.drop_left' m.length_header]

/-- The same without the vector. -/
theorem rest_of_payload (hc : b.content = m.bytes) (hp : b.position = 21) (hl : b.limit = m.signed.length) :
    b.rest = m.payload := by
  rw [ByteBuffer.rest, hc, hl, hp, bytes, List.take_left, signed]
  exact List.drop_left' (by rw [List.length_append, m.length_header, m.length_iv])

end Message

namespace Crypter

variable {P : Primitives}

/-- A try is about to start: the view of the message is marked behind the header. -/
structure AtStart (m : Message) (s : Buffers) : Prop where
  content_eq : s.inputCopy.content = m.bytes
  position_eq : s.inputCopy.position = 5
  limit_eq : s.inputCopy.limit = m.bytes.length
  mark_eq : s.inputCopy.mark = some s.inputCopy.position

theorem AtStart.withTempBuffer {m : Message} {s : Buffers} (h : AtStart m s) (collision : Bool) :
    AtStart m (withTempBuffer collision s) :=
  ⟨h.content_eq, h.position_eq, h.limit_eq, h.mark_eq⟩

theorem AtStart.remaining_eq {m : Message} {s : Buffers} (h : AtStart m s) :
    s.inputCopy.remaining = 36 + m.payload.length := by
  rw [ByteBuffer.remaining_eq, h.position_eq, h.limit_eq, m.length_bytes]
  omega

/-- The start of a try with an AES key: the vector is read, the header and the vector are signed, and the payload is left. -/
theorem begin_of_atStart {m : Message} {s : Buffers} {k : AesKey} {stream : AesStream} (h : AtStart m s)
    (hnew : AesStream.new k = .ok stream) :
    ∃ t signature, begin P (ByteBuffer.wrap m.bytes) (.aes stream) s =
        .ok (.aes { stream.discard P m.iv with ivRead := true },
          .hmac { hmacKey := k.hmacKey, data := m.header ++ m.iv }, signature) t ∧
      signature.rest = m.tag ∧ t.inputCopy.rest = m.payload ∧ Kept s [] t ∧ t.tempBuffer = s.tempBuffer.map (·.setMark) := by
  have hrem := h.remaining_eq
  have hdigest : (DecryptingStream.aes stream).getVerifyingStream.digestSize = 20 := rfl
  have hivSize : (DecryptingStream.aes stream).ivSize = 16 := rfl
  have hkept := kept_begin (P := P) (ByteBuffer.wrap m.bytes) (.aes stream) h.content_eq h.mark_eq
  rcases begin_cases (P := P) (ByteBuffer.wrap m.bytes) (.aes stream) h.content_eq h.mark_eq with
    ⟨hshort, _⟩ | ⟨_, body, hbc, hbp, hbl, _, hb⟩
  · omega
  · have hbl' : body.limit = m.signed.length := by
      rw [hbl, h.limit_eq, m.length_bytes, m.length_signed, hdigest]
      omega
    have hbody := Message.rest_of_body hbc (hbp.trans h.position_eq) hbl'
    have hbrem : body.remaining = 16 + m.payload.length := by
      rw [← body.length_rest, hbody, List.length_append, m.length_iv]
    rcases hb with ⟨hshort, _⟩ | ⟨_, d', payload, header, signature, hinit, hpc, hpp, hpl, _, hheader, hsig, hb⟩
    · omega
    · have hiv : body.rest.take BLOCK_SIZE = m.iv := by
        rw [hbody]
        exact List.take_left' m.length_iv
      have hd' : d' = .aes { stream.discard P m.iv with ivRead := true } := by
        obtain ⟨b, hget, _⟩ := ByteBuffer.get_ok (b := body) (n := BLOCK_SIZE) (by rw [hbrem]; exact Nat.le_add_right _ _)
        simp only [DecryptingStream.initDecrypt, AesStream.initDecrypt, hget, hiv, Except.ok.injEq, Prod.mk.injEq] at hinit
        exact hinit.1.symm
      have hpos : payload.position = 21 := by rw [hpp, h.position_eq, hivSize]
      have hheader' : header.rest = m.header ++ m.iv := by
        rw [hheader, hpos]
        show (m.bytes.take 21).drop 0 = m.header ++ m.iv
        rw [List.drop_zero, Message.bytes, Message.signed, List.append_assoc]
        exact List.take_left' (by rw [List.length_append, m.length_header, m.length_iv])
      have hv : (DecryptingStream.aes stream).getVerifyingStream.initVerify.updateVerify header =
          .hmac { hmacKey := k.hmacKey, data := m.header ++ m.iv } := by
        simp only [DecryptingStream.getVerifyingStream, VerifyingStream.initVerify, VerifyingStream.updateVerify,
          HmacStream.initSign, HmacStream.updateSign, hheader', (AesStream.key_of_new hnew).2, List.nil_append]
      refine ⟨marked { s with inputCopy := payload }, signature, by rw [hb, hd', hv], ?_, ?_, ?_, ?_⟩
      · rw [hsig, Message.rest_of_header h.content_eq h.position_eq h.limit_eq, hrem, hdigest]
        exact List.drop_left' (by rw [List.length_append, m.length_iv]; omega)
      · rw [inputCopy_marked]
        exact Message.rest_of_payload hpc hpos (hpl.trans hbl')
      · rw [hb] at hkept
        exact hkept
      · unfold marked
        cases s.tempBuffer <;> rfl

/-! ## The loop over the chunks -/

/-- What was verified in the loop: the bytes that the view has passed over. -/
theorem decryptChunks_verified {fuel : Nat} {d d' : DecryptingStream} {h : HmacStream} {v' : VerifyingStream} {s s' : Buffers}
    (hrun : decryptChunks P fuel d (.hmac h) s = .ok (d', v') s') :
    ∃ seen, v' = .hmac { h with data := h.data ++ seen } ∧ seen ++ s'.inputCopy.rest = s.inputCopy.rest := by
  induction fuel generalizing d h s with
  | zero =>
    cases hrun
    exact ⟨[], by rw [List.append_nil], rfl⟩
  | succ fuel ih =>
    rcases Nat.lt_or_ge DECRYPT_CHUNK_SIZE s.inputCopy.remaining with hlt | hle
    · obtain ⟨chunk, _, _, hrew, hcases⟩ := decryptChunk_cases (P := P) (d := d) (v := .hmac h) hlt
      rw [decryptChunks_of_lt _ _ _ hlt] at hrun
      rcases hcases with ⟨e, _, hd⟩ | ⟨d₁, output, inputCopy, _, hc, hp, hl, _, hd⟩
      · rw [bind_error hd] at hrun
        cases hrun
      · rw [bind_ok hd] at hrun
        obtain ⟨seen, hv, hrest⟩ := ih hrun
        refine ⟨chunk.rewind.rest ++ seen, ?_, ?_⟩
        · rw [hv]
          simp only [HmacStream.updateSign, List.append_assoc]
        · rw [List.append_assoc, hrest, hrew]
          show _ ++ inputCopy.rest = _
          rw [ByteBuffer.rest_drop hc hp hl, List.take_append_drop]
    · rw [decryptChunks_of_le hle] at hrun
      cases hrun
      exact ⟨[], by rw [List.append_nil], rfl⟩

/-- The state of a try with a chaining key, `w` put into the output since its start. -/
structure Running (P : Primitives) (m : Message) (k : AesKey) (start : Buffers) (seen w : Bytes) (stream : AesStream)
    (s : Buffers) : Prop where
  fed : stream.Fed P m.iv seen w
  key_eq : stream.key = k
  payload_eq : seen ++ s.inputCopy.rest = m.payload
  wrote : start.output.Wrote w s.output
  tempBuffer_eq : s.tempBuffer = start.tempBuffer

/-- The loop of a try with a chaining key ends with at most a chunk left, unless the output is too small for the payload. -/
theorem Running.decryptChunks {m : Message} {k : AesKey} {start s : Buffers} {seen w : Bytes} {stream : AesStream}
    (h : Running P m k start seen w stream s) {fuel : Nat} (hfuel : s.inputCopy.remaining ≤ fuel) (v : VerifyingStream) :
    (start.output.remaining < m.payload.length ∧ ∃ e t, decryptChunks P fuel (.aes stream) v s = .error e t) ∨
    (∃ seen' w' stream' v' t, decryptChunks P fuel (.aes stream) v s = .ok (.aes stream', v') t ∧
      Running P m k start seen' w' stream' t) := by
  induction fuel generalizing seen w stream v s with
  | zero => exact Or.inr ⟨seen, w, stream, v, s, rfl, h⟩
  | succ fuel ih =>
    rcases Nat.lt_or_ge DECRYPT_CHUNK_SIZE s.inputCopy.remaining with hlt | hle
    · obtain ⟨chunk, hsize, hchunk, _, hcases⟩ := decryptChunk_cases (P := P) (d := .aes stream) (v := v) hlt
      rw [decryptChunks_of_lt _ _ _ hlt]
      have hb : BLOCK_SIZE ≤ chunk.remaining := by
        rw [hsize]
        decide
      rcases hcases with ⟨e, hup, hd⟩ | ⟨d', output, inputCopy, hup, hc, hp, hl, _, hd⟩
      · left
        refine ⟨?_, e, s, bind_error hd⟩
        by_contra hroom
        have hsum := congrArg List.length h.payload_eq
        rw [List.length_append, ByteBuffer.length_rest] at hsum
        have hrem := h.wrote.remaining_eq
        have hw := h.wrote.length_le
        have hfits : seen.length + chunk.remaining ≤ s.output.remaining + w.length := by omega
        obtain ⟨r, hr⟩ := h.fed.updateDecrypt_ok hb hfits
        simp only [DecryptingStream.updateDecrypt, hr] at hup
        cases hup
      · rw [bind_ok hd]
        simp only [DecryptingStream.updateDecrypt] at hup
        split at hup
        · cases hup
        · rename_i stream' output' hr
          cases hup
          obtain ⟨w', hw', hpast, hkey⟩ := h.fed.updateDecrypt hb hr
          refine ih (s := { s with inputCopy, output })
            ⟨Or.inr hpast, hkey.trans h.key_eq, ?_, h.wrote.trans hw', h.tempBuffer_eq⟩ ?_ _
          · show seen ++ chunk.rest ++ inputCopy.rest = m.payload
            rw [List.append_assoc, hchunk, ByteBuffer.rest_drop hc hp hl, List.take_append_drop, h.payload_eq]
          · show inputCopy.remaining ≤ fuel
            have hcs : DECRYPT_CHUNK_SIZE = 1024 := rfl
            rw [ByteBuffer.remaining_eq] at hfuel ⊢
            omega
    · rw [decryptChunks_of_le hle]
      exact Or.inr ⟨seen, w, stream, v, s, rfl, h⟩

/-! ## The end of a try -/

/-- The signature is checked over the whole message. -/
theorem verify_hmac {k : AesKey} {m : Message} {seen : Bytes} {b signature : ByteBuffer} (hsig : signature.rest = m.tag)
    (hrest : seen ++ b.rest = m.payload) :
    ((VerifyingStream.hmac { hmacKey := k.hmacKey, data := m.header ++ m.iv ++ seen }).updateVerify b).verify P signature = true ↔
      P.hmacSha1 k.hmacKey.keyBytes m.signed = m.tag := by
  simp only [VerifyingStream.updateVerify, VerifyingStream.verify, HmacStream.updateSign, HmacStream.verify, constantTimeEq_iff, hsig,
    List.append_assoc, hrest, Message.signed]

/-- A try that returns has verified the signature. -/
theorem verified_of_tryKey_ok {m : Message} {k : AesKey} {stream : AesStream} {s s' : Buffers} (h : AtStart m s)
    (hnew : AesStream.new k = .ok stream) (hrun : tryKey P (ByteBuffer.wrap m.bytes) (.aes stream) s = .ok () s') :
    P.hmacSha1 k.hmacKey.keyBytes m.signed = m.tag := by
  obtain ⟨t, signature, hb, hsig, hpay, _, _⟩ := begin_of_atStart (P := P) h hnew
  rw [tryKey_of_begin hb, bind_eq_ok_iff] at hrun
  obtain ⟨⟨d', v'⟩, t', hc, hfinish⟩ := hrun
  obtain ⟨seen, hv, hrest⟩ := decryptChunks_verified hc
  rw [hpay] at hrest
  subst hv
  rw [finish_eq] at hfinish
  split at hfinish
  · cases hfinish
  · rename_i hver
    rw [Bool.not_eq_false] at hver
    exact (verify_hmac hsig hrest).mp hver

section Own

variable {m : Message} {k : AesKey} {start s : Buffers} {seen w plain : Bytes} {stream : AesStream} {signature : ByteBuffer}

/-- When the end of a try with the key of the message returns, what was put since its start is the plaintext. -/
theorem Running.wrote_of_finish (h : Running P m k start seen w stream s) (hdvd : 16 ∣ m.payload.length)
    (hplain : Cbc.decrypt (P.aes k.aesBytes) m.iv m.payload = Cbc.pad 16 plain)
    (htemp : ∀ temp ∈ start.tempBuffer, temp.position = 0) {v : VerifyingStream} {s' : Buffers}
    (hrun : finish P (.aes stream) v signature s = .ok () s') : ∃ o, start.output.Wrote plain o ∧ s'.output = o.limitHere := by
  rw [← h.payload_eq] at hdvd hplain
  rw [← h.key_eq] at hplain
  rw [finish_eq] at hrun
  split at hrun
  · cases hrun
  · split at hrun
    · split at hrun
      · cases hrun
      · rename_i o hup
        cases hrun
        obtain ⟨out, hout, heq⟩ := h.fed.doFinalDecrypt hdvd hplain hup
        refine ⟨o, ?_, rfl⟩
        rw [heq]
        exact h.wrote.trans hout
    · rename_i temp hs
      split at hrun
      · cases hrun
      · rename_i temp' hup
        split at hrun
        · cases hrun
        · rename_i o hput
          cases hrun
          obtain ⟨out, hout, heq⟩ := h.fed.doFinalDecrypt hdvd hplain hup
          have h0 : temp.position = 0 := htemp temp (h.tempBuffer_eq.symm.trans hs)
          refine ⟨o, ?_, rfl⟩
          rw [heq]
          have hwrote := ByteBuffer.wrote_of_put hput
          rw [hout.rest_rewind h0] at hwrote
          exact h.wrote.trans hwrote

/-- With the right signature and room for the payload, the end of a try with the key of the message returns. -/
theorem Running.finish_ok (h : Running P m k start seen w stream s) (hdvd : 16 ∣ m.payload.length)
    (hplain : Cbc.decrypt (P.aes k.aesBytes) m.iv m.payload = Cbc.pad 16 plain)
    (htemp : ∀ temp ∈ start.tempBuffer, temp.position = 0 ∧ m.payload.length ≤ temp.remaining)
    (hroom : m.payload.length ≤ start.output.remaining) {v : VerifyingStream}
    (hver : (v.updateVerify s.inputCopy).verify P signature = true) :
    ∃ s', finish P (.aes stream) v signature s = .ok () s' := by
  have hsum := congrArg List.length h.payload_eq
  rw [List.length_append, ByteBuffer.length_rest] at hsum
  have hrem := h.wrote.remaining_eq
  have hle := h.wrote.length_le
  -- the plaintext is shorter than the payload, so what is left of it fits behind the chunks
  have hshort : plain.length ≤ m.payload.length := by
    have hlen := Cbc.length_decrypt (c := P.aes k.aesBytes) m.length_iv hdvd
    rw [hplain, Cbc.length_pad] at hlen
    omega
  have hdec := hplain
  rw [← h.payload_eq] at hdvd hdec
  rw [← h.key_eq] at hdec
  rw [finish_eq, hver, if_neg (by decide)]
  cases ht : s.tempBuffer with
  | none =>
    have hfits : seen.length + s.inputCopy.remaining ≤ s.output.remaining + w.length := by omega
    obtain ⟨o, hup⟩ := h.fed.doFinalDecrypt_ok hdvd hdec hfits
    simp only [DecryptingStream.doFinalDecrypt, hup]
    exact ⟨_, rfl⟩
  | some temp =>
    obtain ⟨h0, htroom⟩ := htemp temp (h.tempBuffer_eq.symm.trans ht)
    have hfits : seen.length + s.inputCopy.remaining ≤ temp.remaining + w.length := by omega
    obtain ⟨temp', hup⟩ := h.fed.doFinalDecrypt_ok hdvd hdec hfits
    obtain ⟨out, hout, heq⟩ := h.fed.doFinalDecrypt hdvd hdec hup
    have hparts := congrArg List.length heq
    rw [List.length_append] at hparts
    obtain ⟨o, hput, _⟩ := ByteBuffer.put_ok (b := s.output) (w := temp'.limitHere.rewind.rest)
      (by rw [hout.rest_rewind h0]; omega)
    simp only [DecryptingStream.doFinalDecrypt, hup, hput]
    exact ⟨_, rfl⟩

end Own

/-! ## A whole try -/

/-- A message that the key `k` decrypts to `plain`. -/
structure Own (P : Primitives) (m : Message) (k : AesKey) (plain : Bytes) : Prop where
  mode_eq : k.mode = .cbc
  tag_eq : P.hmacSha1 k.hmacKey.keyBytes m.signed = m.tag
  dvd_payload : 16 ∣ m.payload.length
  decrypt_eq : Cbc.decrypt (P.aes k.aesBytes) m.iv m.payload = Cbc.pad 16 plain

/-- What a try starts from: without a buffer of its own, or with an empty one as large as the room in the output. -/
theorem tempBuffer_withTempBuffer {collision : Bool} {s : Buffers} {temp : ByteBuffer}
    (h : temp ∈ (withTempBuffer collision s).tempBuffer) : temp.position = 0 ∧ temp.remaining = s.output.remaining := by
  cases collision with
  | false => cases h
  | true =>
    cases h
    exact ⟨rfl, by simp [ByteBuffer.allocate]⟩

/-- The state in front of the loop of a try with the key of the message. -/
theorem Own.running {m : Message} {k : AesKey} {plain : Bytes} (h : Own P m k plain) {s : Buffers} {stream : AesStream}
    (hs : AtStart m s) (hnew : AesStream.new k = .ok stream) :
    ∃ t signature, begin P (ByteBuffer.wrap m.bytes) (.aes stream) s =
        .ok (.aes { stream.discard P m.iv with ivRead := true },
          .hmac { hmacKey := k.hmacKey, data := m.header ++ m.iv }, signature) t ∧
      signature.rest = m.tag ∧ t.inputCopy.rest = m.payload ∧
      Running P m k { s with tempBuffer := s.tempBuffer.map (·.setMark) } [] []
        { stream.discard P m.iv with ivRead := true } t := by
  obtain ⟨t, signature, hb, hsig, hpay, hkept, htemp⟩ := begin_of_atStart (P := P) hs hnew
  refine ⟨t, signature, hb, hsig, hpay, ?_, ?_, hpay, hkept.wrote, htemp⟩
  · exact AesStream.fed_of_initDecrypt (Or.inl h.mode_eq) hnew m.length_iv
  · exact (AesStream.key_of_new hnew).1

/-- When a try with the key of the message returns, it has put the plaintext. -/
theorem Own.wrote_of_tryKey_ok {m : Message} {k : AesKey} {plain : Bytes} (h : Own P m k plain) {collision : Bool}
    {s s' : Buffers} {stream : AesStream} (hs : AtStart m s) (hnew : AesStream.new k = .ok stream)
    (hrun : tryKey P (ByteBuffer.wrap m.bytes) (.aes stream) (withTempBuffer collision s) = .ok () s') :
    ∃ o, s.output.Wrote plain o ∧ s'.output = o.limitHere := by
  obtain ⟨t, signature, hb, hsig, hpay, hstart⟩ := h.running (hs.withTempBuffer collision) hnew
  rw [tryKey_of_begin hb] at hrun
  rcases hstart.decryptChunks (Nat.le_refl _) (.hmac { hmacKey := k.hmacKey, data := m.header ++ m.iv }) with
    ⟨_, e, t', hc⟩ | ⟨seen, w, stream', v', t', hc, hend⟩
  · rw [bind_error hc] at hrun
    cases hrun
  · rw [bind_ok hc] at hrun
    refine hend.wrote_of_finish h.dvd_payload h.decrypt_eq ?_ hrun
    intro temp htemp
    obtain ⟨temp', htemp', rfl⟩ := Option.map_eq_some_iff.mp htemp
    exact (tempBuffer_withTempBuffer htemp').1

/-- With room for the payload, a try with the key of the message returns. -/
theorem Own.tryKey_ok {m : Message} {k : AesKey} {plain : Bytes} (h : Own P m k plain) (collision : Bool) {s : Buffers}
    {stream : AesStream} (hs : AtStart m s) (hnew : AesStream.new k = .ok stream)
    (hroom : m.payload.length ≤ s.output.remaining) :
    ∃ s', tryKey P (ByteBuffer.wrap m.bytes) (.aes stream) (withTempBuffer collision s) = .ok () s' := by
  obtain ⟨t, signature, hb, hsig, hpay, hstart⟩ := h.running (hs.withTempBuffer collision) hnew
  rw [tryKey_of_begin hb]
  rcases hstart.decryptChunks (Nat.le_refl _) (.hmac { hmacKey := k.hmacKey, data := m.header ++ m.iv }) with
    ⟨hsmall, _⟩ | ⟨seen, w, stream', v', t', hc, hend⟩
  · exact absurd hroom (Nat.not_le.mpr hsmall)
  · rw [bind_ok hc]
    obtain ⟨seen', hv, hrest⟩ := decryptChunks_verified hc
    rw [hpay] at hrest
    subst hv
    refine hend.finish_ok h.dvd_payload h.decrypt_eq ?_ hroom ((verify_hmac hsig hrest).mpr h.tag_eq)
    intro temp htemp
    obtain ⟨temp', htemp', rfl⟩ := Option.map_eq_some_iff.mp htemp
    obtain ⟨h0, hrem⟩ := tempBuffer_withTempBuffer htemp'
    exact ⟨h0, by rw [show temp'.setMark.remaining = temp'.remaining from rfl, hrem]; exact hroom⟩

/-- With a payload of more than a chunk, a try that throws has put the first chunk, short of its first block, whatever the key. -/
theorem le_wrote_of_tryKey_error {m : Message} {k : AesKey} {s s' : Buffers} {stream : AesStream} {e : Exception}
    (hs : AtStart m s) (hnew : AesStream.new k = .ok stream) (hlong : DECRYPT_CHUNK_SIZE < m.payload.length)
    (hroom : DECRYPT_CHUNK_SIZE ≤ s.output.remaining)
    (hrun : tryKey P (ByteBuffer.wrap m.bytes) (.aes stream) s = .error e s') :
    ∃ w, s.output.Wrote w s'.output ∧ 1008 ≤ w.length := by
  obtain ⟨t, signature, hb, _, hpay, hkept, _⟩ := begin_of_atStart (P := P) hs hnew
  have hrem : t.inputCopy.remaining = m.payload.length := by rw [← ByteBuffer.length_rest, hpay]
  rw [tryKey_of_begin hb] at hrun
  obtain ⟨fuel, hfuel⟩ : ∃ fuel, t.inputCopy.remaining = fuel + 1 := Nat.exists_eq_succ_of_ne_zero (by omega)
  have hlt : DECRYPT_CHUNK_SIZE < t.inputCopy.remaining := by omega
  obtain ⟨chunk, hsize, _, _, hcases⟩ := decryptChunk_cases (P := P)
    (d := .aes { stream.discard P m.iv with ivRead := true })
    (v := .hmac { hmacKey := k.hmacKey, data := m.header ++ m.iv }) hlt
  have hroom' : 1024 ≤ t.output.remaining := by
    rw [hkept.wrote.remaining_eq]
    exact hroom
  obtain ⟨stream', output', w, hup, hw, hlen⟩ := AesStream.first_chunk (P := P) hnew m.length_iv hsize hroom'
  rcases hcases with ⟨e', he, _⟩ | ⟨d', output, inputCopy, he, _, _, _, _, hd⟩
  · simp only [DecryptingStream.updateDecrypt, hup] at he
    cases he
  · simp only [DecryptingStream.updateDecrypt, hup, Except.ok.injEq, Prod.mk.injEq] at he
    obtain ⟨-, rfl⟩ := he
    have hloop := decryptChunks_of_lt (P := P) fuel (.aes { stream.discard P m.iv with ivRead := true })
      (.hmac { hmacKey := k.hmacKey, data := m.header ++ m.iv }) hlt
    rw [bind_ok hd] at hloop
    rw [hfuel, bind_congr_left hloop] at hrun
    -- from here on bytes are only added
    obtain ⟨w', hw', _⟩ := kept_of_loop_error hrun
    have hw' := hw'.wrote
    refine ⟨[] ++ w ++ w', (hkept.wrote.trans hw).trans hw', ?_⟩
    simp only [List.nil_append, List.length_append]
    omega

end Crypter

end Java
