import Keyczar.Java.CrypterRuns
import Keyczar.Lib.Relational

/-!
# Decryption sees only the remaining bytes

`Crypter.decrypt` reads its input through views that stand at different places in the array. Two inputs with the same remaining bytes,
wherever in an array they are, are decrypted alike: the same bytes are put into the output, and the same is thrown.
-/

namespace Java

open Relational

namespace ByteBuffer

variable {a b b' : ByteBuffer}

theorem remaining_congr (h : b.rest = b'.rest) : b.remaining = b'.remaining := by
  rw [← length_rest, h, length_rest]

/-- The bytes from the position up to a place before the limit. -/
theorem take_drop_content {n : Nat} (hn : n ≤ b.remaining) : (b.content.take (b.position + n)).drop b.position = b.rest.take n := by
  have hle := b.position_le
  have hlimit : b.position + n ≤ b.limit := by
    rw [remaining_eq] at hn
    omega
  rw [rest, List.take_drop, List.take_take, Nat.min_eq_left hlimit]

/-- A view that ends `n` bytes earlier is short of the last `n` bytes. -/
theorem rest_sub_limit {n : Nat} (hc : b.content = a.content) (hp : b.position = a.position) (hl : b.limit = a.limit - n)
    (hn : n ≤ a.remaining) : b.rest = a.rest.take (a.remaining - n) := by
  have hle := a.position_le
  have hlimit : a.limit - n = a.position + (a.remaining - n) := by
    rw [remaining_eq] at hn ⊢
    omega
  rw [← take_drop_content (Nat.sub_le _ _), rest, hc, hp, hl, hlimit]

/-- Reading depends on the remaining bytes. -/
theorem get_congr (h : b.rest = b'.rest) (n : Nat) :
    Alike (fun r r' => r.1 = r'.1 ∧ r.2.rest = r'.2.rest) (b.get n) (b'.get n) := by
  have hrem := remaining_congr h
  rcases Nat.lt_or_ge b.remaining n with hlt | hle
  · rw [get_error hlt, get_error (hrem ▸ hlt)]
    exact rfl
  · obtain ⟨c, hc, hcc, hcp, hcl, _⟩ := get_ok hle
    obtain ⟨c', hc', hcc', hcp', hcl', _⟩ := get_ok (hrem ▸ hle)
    rw [hc, hc']
    refine ⟨by rw [h], ?_⟩
    rw [rest_drop hcc hcp hcl, rest_drop hcc' hcp' hcl', h]

end ByteBuffer

/-! ## The streams -/

namespace AesStream

variable {P : Primitives} {input input' : ByteBuffer} (h : input.rest = input'.rest) (s : AesStream) (output : ByteBuffer)

include h

theorem initDecrypt_congr :
    Alike (fun r r' => r.1 = r'.1 ∧ r.2.rest = r'.2.rest) (s.initDecrypt P input) (s.initDecrypt P input') := by
  unfold initDecrypt
  rcases (ByteBuffer.get_congr h BLOCK_SIZE).cases with ⟨e, hb, hb'⟩ | ⟨⟨iv, b⟩, ⟨iv', b'⟩, hb, hb', hiv, hrest⟩
  · rw [hb, hb']
    exact rfl
  · rw [hb, hb']
    obtain rfl : iv = iv' := hiv
    exact ⟨rfl, hrest⟩

theorem decryptingUpdate_congr : s.decryptingUpdate P input output = s.decryptingUpdate P input' output := by
  unfold decryptingUpdate
  rw [ByteBuffer.remaining_congr h, h]

theorem updateDecrypt_congr : s.updateDecrypt P input output = s.updateDecrypt P input' output := by
  unfold updateDecrypt
  rw [ByteBuffer.remaining_congr h, decryptingUpdate_congr h]
  rcases (ByteBuffer.get_congr h BLOCK_SIZE).cases with ⟨e, hb, hb'⟩ | ⟨⟨temp, b⟩, ⟨temp', b'⟩, hb, hb', htemp, hrest⟩
  · rw [hb, hb']
  · rw [hb, hb']
    simp only at htemp hrest
    simp only [htemp, decryptingUpdate_congr hrest]

theorem decryptingFinal_congr : s.decryptingFinal P input output = s.decryptingFinal P input' output := by
  unfold decryptingFinal
  rw [ByteBuffer.remaining_congr h, h]

theorem doFinalDecrypt_congr : s.doFinalDecrypt P input output = s.doFinalDecrypt P input' output := by
  unfold doFinalDecrypt
  rw [ByteBuffer.remaining_congr h, decryptingFinal_congr h]
  rcases (ByteBuffer.get_congr h BLOCK_SIZE).cases with ⟨e, hb, hb'⟩ | ⟨⟨temp, b⟩, ⟨temp', b'⟩, hb, hb', htemp, hrest⟩
  · rw [hb, hb']
  · rw [hb, hb']
    simp only at htemp hrest
    simp only [htemp, decryptingFinal_congr hrest]

end AesStream

namespace DecryptingStream

variable {P : Primitives} {input input' : ByteBuffer} (h : input.rest = input'.rest) (d : DecryptingStream) (output : ByteBuffer)

include h

theorem initDecrypt_congr :
    Alike (fun r r' => r.1 = r'.1 ∧ r.2.rest = r'.2.rest) (d.initDecrypt P input) (d.initDecrypt P input') := by
  cases d with
  | aes s =>
    simp only [initDecrypt]
    rcases (s.initDecrypt_congr (P := P) h).cases with ⟨e, hs, hs'⟩ | ⟨⟨t, b⟩, ⟨t', b'⟩, hs, hs', ht, hrest⟩
    · rw [hs, hs']
      exact rfl
    · rw [hs, hs']
      exact ⟨congrArg DecryptingStream.aes ht, hrest⟩
  | rsaPrivate s => exact ⟨rfl, h⟩

theorem updateDecrypt_congr : d.updateDecrypt P input output = d.updateDecrypt P input' output := by
  cases d with
  | aes s => rw [updateDecrypt, updateDecrypt, s.updateDecrypt_congr h]
  | rsaPrivate s =>
    simp only [updateDecrypt, RsaPrivateStream.updateDecrypt]
    rw [ByteBuffer.remaining_congr h, h]

theorem doFinalDecrypt_congr : d.doFinalDecrypt P input output = d.doFinalDecrypt P input' output := by
  cases d with
  | aes s => exact s.doFinalDecrypt_congr h output
  | rsaPrivate s =>
    simp only [doFinalDecrypt, RsaPrivateStream.doFinalDecrypt]
    rw [h]

end DecryptingStream

namespace VerifyingStream

theorem updateVerify_congr {input input' : ByteBuffer} (h : input.rest = input'.rest) (v : VerifyingStream) :
    v.updateVerify input = v.updateVerify input' := by
  cases v with
  | hmac s => rw [updateVerify, updateVerify, HmacStream.updateSign, HmacStream.updateSign, h]
  | none => rfl

theorem verify_congr {P : Primitives} {signature signature' : ByteBuffer} (h : signature.rest = signature'.rest)
    (v : VerifyingStream) : v.verify P signature = v.verify P signature' := by
  cases v with
  | hmac s => rw [verify, verify, HmacStream.verify, HmacStream.verify, h]
  | none => rfl

end VerifyingStream

namespace Crypter

variable {P : Primitives}

/-! ## A try -/

/-- The views have the same left, and the other buffers are the same. -/
structure SameRest (s s' : Buffers) : Prop where
  rest_eq : s.inputCopy.rest = s'.inputCopy.rest
  output_eq : s.output = s'.output
  tempBuffer_eq : s.tempBuffer = s'.tempBuffer

/-- Exceptions that the loop over the keys takes for the same. -/
def SameCaught (e e' : Exception) : Prop := caught e = caught e'

/-- A view of the input that is marked where it stands, `n` bytes behind the start. -/
structure Viewing (n : Nat) (input b : ByteBuffer) : Prop where
  content_eq : b.content = input.content
  position_eq : b.position = input.position + n
  limit_eq : b.limit = input.limit
  mark_eq : b.mark = some b.position

/-- The header and the vector are in front of the limit. -/
theorem Viewing.header_le {n m k : Nat} {input b body payload : ByteBuffer} (h : Viewing n input b) (hbl : body.limit = b.limit - m)
    (hp : payload.position = b.position + k) (hl : payload.limit = body.limit) : n + k ≤ input.remaining := by
  have hle := payload.position_le
  rw [hp, hl, hbl, h.position_eq, h.limit_eq] at hle
  rw [ByteBuffer.remaining_eq]
  omega

theorem Viewing.rest_eq {n : Nat} {input b : ByteBuffer} (h : Viewing n input b) : b.rest = input.rest.drop n :=
  ByteBuffer.rest_drop h.content_eq h.position_eq h.limit_eq

section Views

variable {n : Nat} {input input' : ByteBuffer} (hrest : input.rest = input'.rest) {s s' : Buffers}
  (hs : Viewing n input s.inputCopy) (hs' : Viewing n input' s'.inputCopy)
  (houtput : s.output = s'.output) (htemp : s.tempBuffer = s'.tempBuffer)

include hrest hs hs' houtput htemp

/-- The start of a try, of the same two inputs. -/
theorem begin_congr (d : DecryptingStream) :
    Related SameRest SameCaught (fun r r' => r.1 = r'.1 ∧ r.2.1 = r'.2.1 ∧ r.2.2.rest = r'.2.2.rest)
      (begin P input d s) (begin P input' d s') := by
  have hview : s.inputCopy.rest = s'.inputCopy.rest := by rw [hs.rest_eq, hs'.rest_eq, hrest]
  have hrem := ByteBuffer.remaining_congr hview
  rcases begin_cases (P := P) input d hs.content_eq hs.mark_eq with ⟨hshort, hb⟩ | ⟨hlong, body, hbc, hbp, hbl, _, hb⟩
  · rcases begin_cases (P := P) input' d hs'.content_eq hs'.mark_eq with ⟨_, hb'⟩ | ⟨hlong', _⟩
    · rw [hb, hb', hrem]
      exact ⟨rfl, hview, houtput, htemp⟩
    · exact absurd (hrem ▸ hshort) (Nat.not_lt.mpr hlong')
  · rcases begin_cases (P := P) input' d hs'.content_eq hs'.mark_eq with ⟨hshort', _⟩ | ⟨hlong', body', hbc', hbp', hbl', _, hb'⟩
    · exact absurd (hrem ▸ hshort') (Nat.not_lt.mpr hlong)
    · -- both views end before the signature
      have hsame : body.rest = body'.rest := by
        rw [ByteBuffer.rest_sub_limit (hbc.trans hs.content_eq.symm) hbp hbl hlong,
          ByteBuffer.rest_sub_limit (hbc'.trans hs'.content_eq.symm) hbp' hbl' hlong', hview, hrem]
      have hbrem := ByteBuffer.remaining_congr hsame
      rcases hb with ⟨hiv, e, hb⟩ | ⟨hiv, d₁, payload, header, signature, hinit, _, hpp, hpl, _, hheader, hsig, hb⟩
      · rcases hb' with ⟨_, e', hb'⟩ | ⟨hiv', _⟩
        · rw [hb, hb']
          exact ⟨rfl, hsame, houtput, htemp⟩
        · exact absurd (hbrem ▸ hiv) (Nat.not_lt.mpr hiv')
      · rcases hb' with ⟨hiv', _⟩ | ⟨_, d₂, payload', header', signature', hinit', _, hpp', hpl', _, hheader', hsig', hb'⟩
        · exact absurd (hbrem ▸ hiv') (Nat.not_lt.mpr hiv)
        · have halike := d.initDecrypt_congr (P := P) hsame
          rw [hinit, hinit'] at halike
          obtain ⟨hd, hpayload⟩ := halike
          have hh : header.rest = header'.rest := by
            have hfits := hs.header_le hbl hpp hpl
            have hfits' := hs'.header_le hbl' hpp' hpl'
            rw [hheader, hheader', hpp, hpp', hs.position_eq, hs'.position_eq, Nat.add_assoc, Nat.add_assoc,
              ByteBuffer.take_drop_content hfits, ByteBuffer.take_drop_content hfits', hrest]
          have hsigs : signature.rest = signature'.rest := by rw [hsig, hsig', hview, hrem]
          rw [hb, hb']
          refine ⟨⟨hd, VerifyingStream.updateVerify_congr hh _, hsigs⟩, ?_, ?_, ?_⟩
          · rw [inputCopy_marked, inputCopy_marked]
            exact hpayload
          · simp only [marked, ← htemp]
            cases s.tempBuffer with
            | none => exact congrArg ByteBuffer.setMark houtput
            | some temp => exact houtput
          · simp only [marked, ← htemp]
            cases s.tempBuffer <;> rfl

end Views

/-- A turn of the loop. -/
theorem decryptChunk_congr {s s' : Buffers} (hs : SameRest s s') (hlong : DECRYPT_CHUNK_SIZE < s.inputCopy.remaining)
    (d : DecryptingStream) (v : VerifyingStream) :
    Related SameRest SameCaught Eq (decryptChunk P d v s) (decryptChunk P d v s') := by
  have hlong' : DECRYPT_CHUNK_SIZE < s'.inputCopy.remaining := ByteBuffer.remaining_congr hs.rest_eq ▸ hlong
  obtain ⟨chunk, next, _, hchunk, hrew, hc, hp, hl, _, heq⟩ := decryptChunk_eq (P := P) hlong
  obtain ⟨chunk', next', _, hchunk', hrew', hc', hp', hl', _, heq'⟩ := decryptChunk_eq (P := P) hlong'
  have hsame : chunk.rest = chunk'.rest := by rw [hchunk, hchunk', hs.rest_eq]
  have hsame' : chunk.rewind.rest = chunk'.rewind.rest := by rw [hrew, hrew', hs.rest_eq]
  rw [heq, heq', d.updateDecrypt_congr hsame, hs.output_eq]
  cases d.updateDecrypt P chunk' s'.output with
  | error e => exact ⟨rfl, hs⟩
  | ok r =>
    refine ⟨Prod.ext rfl (VerifyingStream.updateVerify_congr hsame' v), ?_, rfl, hs.tempBuffer_eq⟩
    rw [ByteBuffer.rest_drop hc hp hl, ByteBuffer.rest_drop hc' hp' hl', hs.rest_eq]

/-- The loop. -/
theorem decryptChunks_congr {s s' : Buffers} (hs : SameRest s s') (fuel : Nat) (d : DecryptingStream) (v : VerifyingStream) :
    Related SameRest SameCaught Eq (decryptChunks P fuel d v s) (decryptChunks P fuel d v s') := by
  induction fuel generalizing d v s s' with
  | zero => exact ⟨rfl, hs⟩
  | succ fuel ih =>
    have hrem := ByteBuffer.remaining_congr hs.rest_eq
    rcases Nat.lt_or_ge DECRYPT_CHUNK_SIZE s.inputCopy.remaining with hlong | hshort
    · rw [decryptChunks_of_lt fuel d v hlong, decryptChunks_of_lt fuel d v (hrem ▸ hlong)]
      refine (decryptChunk_congr hs hlong d v).bind ?_
      rintro r r' t t' rfl ht
      exact ih ht r.1 r.2
    · rw [decryptChunks_of_le hshort, decryptChunks_of_le (hrem ▸ hshort)]
      exact ⟨rfl, hs⟩

/-- The end of a try. -/
theorem finish_congr {s s' : Buffers} (hs : SameRest s s') (d : DecryptingStream) (v : VerifyingStream)
    {signature signature' : ByteBuffer} (hsig : signature.rest = signature'.rest) :
    Related SameRest SameCaught Eq (finish P d v signature s) (finish P d v signature' s') := by
  rw [finish_eq, finish_eq, VerifyingStream.updateVerify_congr hs.rest_eq, VerifyingStream.verify_congr hsig, ← hs.output_eq,
    ← hs.tempBuffer_eq]
  cases (v.updateVerify s'.inputCopy).verify P signature' with
  | false => exact ⟨rfl, hs⟩
  | true =>
    simp only [Bool.true_eq_false, if_false]
    cases s.tempBuffer with
    | none =>
      simp only [d.doFinalDecrypt_congr hs.rest_eq]
      cases d.doFinalDecrypt P s'.inputCopy s.output with
      | error e => exact ⟨rfl, hs⟩
      | ok output => exact ⟨rfl, hs.rest_eq, rfl, rfl⟩
    | some temp =>
      simp only [d.doFinalDecrypt_congr hs.rest_eq]
      cases d.doFinalDecrypt P s'.inputCopy temp with
      | error e => exact ⟨rfl, hs⟩
      | ok temp =>
        simp only
        cases s.output.put temp.limitHere.rewind.rest with
        | error e => exact ⟨rfl, hs⟩
        | ok output => exact ⟨rfl, hs.rest_eq, rfl, rfl⟩

section Views

variable {n : Nat} {input input' : ByteBuffer} (hrest : input.rest = input'.rest)

include hrest

/-- A whole try. -/
theorem tryKey_congr {s s' : Buffers} (hs : Viewing n input s.inputCopy) (hs' : Viewing n input' s'.inputCopy)
    (houtput : s.output = s'.output) (htemp : s.tempBuffer = s'.tempBuffer) (d : DecryptingStream) :
    Related SameRest SameCaught Eq (tryKey P input d s) (tryKey P input' d s') := by
  have hbegin := begin_congr (P := P) hrest hs hs' houtput htemp d
  rcases hbegin.cases with ⟨e, e', t, t', hb, hb', he, ht⟩ | ⟨r, r', t, t', hb, hb', ⟨hd, hv, hsig⟩, ht⟩
  · rw [tryKey_of_begin_error hb, tryKey_of_begin_error hb']
    exact ⟨he, ht⟩
  · obtain ⟨d₁, v, signature⟩ := r
    obtain ⟨d₂, v', signature'⟩ := r'
    obtain rfl : d₁ = d₂ := hd
    obtain rfl : v = v' := hv
    rw [tryKey_of_begin hb, tryKey_of_begin hb', ByteBuffer.remaining_congr ht.rest_eq]
    refine (decryptChunks_congr ht _ d₁ v).bind ?_
    rintro a b u u' rfl hu
    exact finish_congr hu a.1 a.2 hsig

/-! ## The whole call -/

/-- The loop over the keys: the views are put back after each try, so the next one starts alike. -/
theorem tryKeys_congr {b b' : ByteBuffer} (hb : Viewing n input b) (hb' : Viewing n input' b') (collision : Bool)
    (keys : List KeyczarKey) (error : Option KeyczarException) (output : ByteBuffer) (temp : Option ByteBuffer) :
    Related (fun s s' => s.output = s'.output) Eq Eq (tryKeys P input b.limit collision keys error ⟨b, output, temp⟩)
      (tryKeys P input' b'.limit collision keys error ⟨b', output, temp⟩) := by
  induction keys generalizing error output temp with
  | nil =>
    cases error with
    | none => exact ⟨rfl, rfl⟩
    | some error => exact ⟨rfl, rfl⟩
  | cons key keys ih =>
    cases hstream : key.getStream with
    | error e =>
      rw [tryKeys_of_getStream_error hstream, tryKeys_of_getStream_error hstream]
      exact ⟨rfl, rfl⟩
    | ok d =>
      have hstart : Viewing n input (withTempBuffer collision ⟨b, output, temp⟩).inputCopy := hb
      have hstart' : Viewing n input' (withTempBuffer collision ⟨b', output, temp⟩).inputCopy := hb'
      have htry := tryKey_congr (P := P) hrest hstart hstart' rfl rfl d
      rcases htry.cases with ⟨e, e', t, t', ht, ht', he, hr⟩ | ⟨u, u', t, t', ht, ht', _, hr⟩
      · have he' : caught e = caught e' := he
        rw [tryKeys_of_tryKey_error (s := ⟨b, output, temp⟩) hstream hb.content_eq hb.mark_eq ht,
          tryKeys_of_tryKey_error (s := ⟨b', output, temp⟩) hstream hb'.content_eq hb'.mark_eq ht', he', hr.output_eq, hr.tempBuffer_eq]
        exact ih _ _ _
      · rw [tryKeys_of_tryKey_ok (s := ⟨b, output, temp⟩) hstream hb.content_eq hb.mark_eq ht,
          tryKeys_of_tryKey_ok (s := ⟨b', output, temp⟩) hstream hb'.content_eq hb'.mark_eq ht']
        exact ⟨rfl, hr.output_eq⟩

/-- Decryption depends on the remaining bytes of its input, not on where they are. -/
theorem decryptBuffer_congr (z : Keyczar) (output : ByteBuffer) :
    decryptBuffer P z input output = decryptBuffer P z input' output := by
  have hrem := ByteBuffer.remaining_congr hrest
  unfold decryptBuffer ByteBuffer.asReadOnlyBuffer
  simp only [← hrem]
  by_cases hshort : input.remaining < HEADER_SIZE
  · simp only [if_pos hshort]
  · have hsize : HEADER_SIZE = 5 := rfl
    obtain ⟨b, hb, hbc, hbp, hbl, _⟩ := ByteBuffer.get_ok (b := input) (n := 1) (by omega)
    obtain ⟨b', hb', hbc', hbp', hbl', _⟩ := ByteBuffer.get_ok (b := input') (n := 1) (by omega)
    have hbrest : b.rest = b'.rest := by rw [ByteBuffer.rest_drop hbc hbp hbl, ByteBuffer.rest_drop hbc' hbp' hbl', hrest]
    simp only [if_neg hshort, hb, hb', hrest]
    by_cases hversion : input'.rest.take 1 ≠ [FORMAT_VERSION]
    · simp only [if_pos hversion]
    · have hroom : KEY_HASH_SIZE ≤ b.remaining := by
        have hk : KEY_HASH_SIZE = 4 := rfl
        rw [ByteBuffer.remaining_eq] at hshort ⊢
        omega
      obtain ⟨c, hc, hcc, hcp, hcl, _⟩ := ByteBuffer.get_ok hroom
      obtain ⟨c', hc', hcc', hcp', hcl', _⟩ := ByteBuffer.get_ok (ByteBuffer.remaining_congr hbrest ▸ hroom)
      simp only [if_neg hversion, hc, hc', hbrest]
      cases z.getKey (b'.rest.take KEY_HASH_SIZE) with
      | nil => rfl
      | cons key keys =>
        have hview : Viewing (1 + KEY_HASH_SIZE) input c.setMark :=
          ⟨hcc.trans hbc, (hcp.trans (congrArg (· + KEY_HASH_SIZE) hbp)).trans (Nat.add_assoc _ _ _), hcl.trans hbl, rfl⟩
        have hview' : Viewing (1 + KEY_HASH_SIZE) input' c'.setMark :=
          ⟨hcc'.trans hbc', (hcp'.trans (congrArg (· + KEY_HASH_SIZE) hbp')).trans (Nat.add_assoc _ _ _), hcl'.trans hbl', rfl⟩
        have hkeys := tryKeys_congr (P := P) hrest hview hview' ((key :: keys).length > 1) (key :: keys) none output none
        rcases hkeys.cases with ⟨e, e', t, t', ht, ht', rfl, ho⟩ | ⟨u, u', t, t', ht, ht', _, ho⟩
        · simp only [ht, ht', ho]
        · simp only [ht, ht', ho]

end Views

end Crypter

end Java
