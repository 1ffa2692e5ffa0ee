import Keyczar.Java.StreamCache
import Keyczar.Java.Tries
import Keyczar.Lib.Relational

/-!
# A used stream beside a new one

A stream that was put back may hold the vector of a message with an empty payload. It goes through its next message in step with a new
stream: what they are chained to differs until the first block behind the new vector pushes the vector out, and what comes out by then
is thrown away. This is so for the chaining modes; a counting cipher that was not reset counts on.
-/

namespace Java

open Bytes Cbc.CipherStream

/-! ## Ciphers -/

namespace Cipher

variable {P : Primitives} {key : Bytes}

/-- A chaining cipher that holds one block back. -/
def HoldsBlock (c : Cipher) : Prop := ∃ t : Cbc.CipherStream, c = .cbc t ∧ t.chain.length = BLOCK_SIZE ∧ t.buffer.length = BLOCK_SIZE

/-- A cipher as it was initialised, or as it is when only vectors were read. -/
def Idle (c : Cipher) : Prop := c.reset = c ∨ c.HoldsBlock

theorem reset_init {mode : CipherMode} {c : Cipher} (h : init mode key = .ok c) : c.reset = c := by
  unfold init at h
  split at h
  · cases h
  · split at h
    · cases h
      rfl
    · cases h
      rfl
    · cases h
      rfl
    · cases h

@[simp] theorem reset_reset (c : Cipher) : c.reset.reset = c.reset := by
  cases c <;> rfl

/-- Reading does not change what the cipher is reset to. -/
@[simp] theorem reset_decryptUpdate (c : Cipher) (data : Bytes) : (c.decryptUpdate P key data).2.reset = c.reset := by
  cases c <;> rfl

@[simp] theorem reset_encryptUpdate (c : Cipher) (data : Bytes) : (c.encryptUpdate P key data).2.reset = c.reset := by
  cases c <;> rfl

/-- A chaining cipher that reads a block holds it, whatever it held. -/
theorem decryptUpdate_cbc {t : Cbc.CipherStream} (h : Idle (.cbc t)) {block : Bytes} (hblock : block.length = BLOCK_SIZE) :
    ∃ chain : Bytes, chain.length = BLOCK_SIZE ∧
      ((Cipher.cbc t).decryptUpdate P key block).2 = .cbc { chain := chain, buffer := block } := by
  rcases h with hreset | ⟨t', ht', hchain, hbuffer⟩
  · have ht : t = .init (List.replicate BLOCK_SIZE 0) := (Cipher.cbc.inj hreset).symm
    subst ht
    refine ⟨List.replicate BLOCK_SIZE 0, List.length_replicate, ?_⟩
    exact congrArg Cipher.cbc (decryptUpdate_of_nil (c := P.aes key) rfl hblock)
  · cases ht'
    exact ⟨t.buffer, hbuffer, congrArg Cipher.cbc (decryptUpdate_of_block (c := P.aes key) (by decide) hchain hbuffer hblock)⟩

/-- An idle chaining cipher still is one after a block. -/
theorem holdsBlock_decryptUpdate {c : Cipher} (h : c.Idle) (hcbc : ∃ t, c = .cbc t) {block : Bytes}
    (hblock : block.length = BLOCK_SIZE) : (c.decryptUpdate P key block).2.HoldsBlock := by
  obtain ⟨t, rfl⟩ := hcbc
  obtain ⟨chain, hchain, hupdate⟩ := decryptUpdate_cbc (P := P) h hblock
  exact ⟨_, hupdate, hchain, hblock⟩

/-- Two blocks push out what tells an idle cipher from a new one. -/
theorem decryptUpdate_twice {c : Cipher} (h : c.Idle) {iv block : Bytes} (hiv : iv.length = BLOCK_SIZE)
    (hblock : block.length = BLOCK_SIZE) :
    ((c.decryptUpdate P key iv).2.decryptUpdate P key block).2 = ((c.reset.decryptUpdate P key iv).2.decryptUpdate P key block).2 := by
  rcases h with hreset | hholds
  · rw [hreset]
  · obtain ⟨t, rfl, -, -⟩ := id hholds
    have hidle : Idle (Cipher.cbc t).reset := Or.inl (reset_reset _)
    obtain ⟨chain, hchain, hupdate⟩ := decryptUpdate_cbc (P := P) (Or.inr hholds) hiv
    obtain ⟨chain', hchain', hupdate'⟩ := decryptUpdate_cbc (P := P) (t := .init (List.replicate BLOCK_SIZE 0)) hidle hiv
    have hnext : ((Cipher.cbc t).reset.decryptUpdate P key iv).2 = .cbc { chain := chain', buffer := iv } := hupdate'
    rw [hupdate, hnext]
    have hpush := decryptUpdate_of_block (c := P.aes key) (s := { chain := chain, buffer := iv }) (by decide) hchain hiv hblock
    have hpush' := decryptUpdate_of_block (c := P.aes key) (s := { chain := chain', buffer := iv }) (by decide) hchain' hiv hblock
    exact congrArg Cipher.cbc (hpush.trans hpush'.symm)

end Cipher

/-! ## Streams -/

namespace AesStream

variable {P : Primitives} {k : AesKey} {s s' : AesStream} {input output : ByteBuffer}

/-- A stream that a key may give out again. -/
structure Reusable (k : AesKey) (s : AesStream) : Prop where
  key_eq : s.key = k
  hmacKey_eq : s.signStream.hmacKey = k.hmacKey
  encrypting : Cipher.init k.mode k.aesBytes = .ok s.encryptingCipher
  decrypting : Cipher.init k.mode k.aesBytes = .ok s.decryptingCipher.reset
  idle : s.decryptingCipher.Idle

/-- A stream of a key that decrypts a message. -/
structure Active (k : AesKey) (s : AesStream) : Prop where
  key_eq : s.key = k
  hmacKey_eq : s.signStream.hmacKey = k.hmacKey
  encrypting : Cipher.init k.mode k.aesBytes = .ok s.encryptingCipher
  decrypting : Cipher.init k.mode k.aesBytes = .ok s.decryptingCipher.reset
  holds : s.ivRead = true → Chains k → s.decryptingCipher.HoldsBlock

theorem reusable_of_new (h : new k = .ok s) : Reusable k s := by
  unfold new at h
  cases hinit : Cipher.init k.mode k.aesBytes with
  | error e =>
    rw [hinit] at h
    cases h
  | ok c =>
    rw [hinit] at h
    cases h
    have hreset := Cipher.reset_init hinit
    exact ⟨rfl, rfl, hinit, hinit.trans (congrArg Except.ok hreset.symm), Or.inl hreset⟩

/-- A key with a stream to give out could make a new one. -/
theorem Reusable.new_ok (h : Reusable k s) : ∃ s₀, new k = .ok s₀ := by
  unfold new
  rw [h.encrypting]
  exact ⟨_, rfl⟩

/-- A new stream beside one that is given out again. -/
theorem Reusable.ciphers_new (h : Reusable k s) (hnew : new k = .ok s') :
    s'.encryptingCipher = s.encryptingCipher ∧ s'.decryptingCipher = s.decryptingCipher.reset := by
  unfold new at hnew
  rw [h.encrypting] at hnew
  cases hnew
  exact ⟨rfl, Except.ok.inj (h.encrypting.symm.trans h.decrypting)⟩

/-- What the cipher of a chaining key is. -/
theorem cbc_of_init {c : Cipher} (hchain : Chains k) (h : Cipher.init k.mode k.aesBytes = .ok c.reset) : ∃ t, c = .cbc t := by
  cases c with
  | cbc t => exact ⟨t, rfl⟩
  | ctr done =>
    rcases init_cases h with ⟨-, hc⟩ | ⟨hmode, -⟩
    · cases hc
    · rcases hchain with hm | hm <;> rw [hm] at hmode <;> cases hmode

/-- The vector is read. -/
theorem Reusable.discard (h : Reusable k s) {iv : Bytes} (hiv : iv.length = BLOCK_SIZE) :
    Active k { s.discard P iv with ivRead := true } where
  key_eq := h.key_eq
  hmacKey_eq := h.hmacKey_eq
  encrypting := h.encrypting
  decrypting := by
    rw [h.decrypting]
    exact congrArg Except.ok (Cipher.reset_decryptUpdate _ _).symm
  holds _ hchain := Cipher.holdsBlock_decryptUpdate h.idle (cbc_of_init hchain h.decrypting) hiv

/-- What is left at the end of a message can be given out again, unless a counting cipher was not reset. -/
theorem Active.decrypted (h : Active k s) (hempty : s.ivRead = true → input.remaining = 0 → Chains k) :
    Reusable k (s.decrypted input) := by
  unfold AesStream.decrypted
  split
  · rename_i hcase
    exact ⟨h.key_eq, h.hmacKey_eq, h.encrypting, h.decrypting, Or.inr (h.holds hcase.1 (hempty hcase.1 hcase.2))⟩
  · refine ⟨h.key_eq, h.hmacKey_eq, h.encrypting, ?_, Or.inl (Cipher.reset_reset _)⟩
    rw [Cipher.reset_reset]
    exact h.decrypting

/-- A used stream beside a new one, in one message. -/
structure Paired (P : Primitives) (s s' : AesStream) : Prop where
  key_eq : s'.key = s.key
  ivRead_eq : s'.ivRead = s.ivRead
  cipher : s.ivRead = false → s'.decryptingCipher = s.decryptingCipher
  pushed : s.ivRead = true → ∀ block : Bytes, block.length = BLOCK_SIZE →
    (s'.discard P block).decryptingCipher = (s.discard P block).decryptingCipher

/-- Both read the vector. -/
theorem Reusable.paired (h : Reusable k s) (hnew : new k = .ok s') {iv : Bytes} (hiv : iv.length = BLOCK_SIZE) :
    Paired P { s.discard P iv with ivRead := true } { s'.discard P iv with ivRead := true } where
  key_eq := (key_of_new hnew).1.trans h.key_eq.symm
  ivRead_eq := rfl
  cipher := nofun
  pushed _ block hblock := by
    have hkey : s'.key = s.key := (key_of_new hnew).1.trans h.key_eq.symm
    have htwice : ((s.decryptingCipher.decryptUpdate P s.key.aesBytes iv).2.decryptUpdate P s.key.aesBytes block).2 =
        ((s.decryptingCipher.reset.decryptUpdate P s.key.aesBytes iv).2.decryptUpdate P s.key.aesBytes block).2 :=
      Cipher.decryptUpdate_twice h.idle hiv hblock
    simp only [AesStream.discard, hkey, (h.ciphers_new hnew).2]
    exact htwice.symm

/-- The block behind the vector makes them one. -/
theorem Paired.push (h : Paired P s s') (hread : s.ivRead = true) {block : Bytes} (hblock : block.length = BLOCK_SIZE) :
    Paired P { s.discard P block with ivRead := false } { s'.discard P block with ivRead := false } where
  key_eq := h.key_eq
  ivRead_eq := rfl
  cipher _ := h.pushed hread block hblock
  pushed := nofun

theorem Active.push (h : Active k s) (block : Bytes) : Active k { s.discard P block with ivRead := false } where
  key_eq := h.key_eq
  hmacKey_eq := h.hmacKey_eq
  encrypting := h.encrypting
  decrypting := by
    rw [h.decrypting]
    exact congrArg Except.ok (Cipher.reset_decryptUpdate _ _).symm
  holds := nofun

/-- A block of the input. -/
theorem length_take_block (h : BLOCK_SIZE ≤ input.remaining) : (input.rest.take BLOCK_SIZE).length = BLOCK_SIZE := by
  rw [List.length_take, ByteBuffer.length_rest]
  exact Nat.min_eq_left h

/-- Two streams with one cipher in step. -/
def InStep (P : Primitives) (k : AesKey) (r r' : AesStream × ByteBuffer) : Prop :=
  Paired P r.1 r'.1 ∧ Active k r.1 ∧ r.1.ivRead = false ∧ r.2 = r'.2

theorem decryptingUpdate_inStep (hpair : Paired P s s') (hactive : Active k s) (hread : s.ivRead = false) :
    Relational.Alike (InStep P k) (s.decryptingUpdate P input output) (s'.decryptingUpdate P input output) := by
  have hcipher := hpair.cipher hread
  unfold decryptingUpdate
  by_cases hnil : input.remaining = 0
  · rw [if_pos hnil, if_pos hnil]
    exact ⟨hpair, hactive, hread, rfl⟩
  · rw [if_neg hnil, if_neg hnil, hcipher, hpair.key_eq]
    dsimp only
    cases transfer (s.decryptingCipher.decryptSize input.remaining)
        (s.decryptingCipher.decryptUpdate P s.key.aesBytes input.rest).1 output with
    | error e => rfl
    | ok output' =>
      refine ⟨⟨rfl, hpair.ivRead_eq, fun _ => rfl, ?_⟩, ⟨hactive.key_eq, hactive.hmacKey_eq, hactive.encrypting, ?_, ?_⟩,
        hread, rfl⟩
      · intro hread'
        exact absurd (hread.symm.trans hread') Bool.false_ne_true
      · rw [hactive.decrypting]
        exact congrArg Except.ok (Cipher.reset_decryptUpdate _ _).symm
      · intro hread'
        exact absurd (hread.symm.trans hread') Bool.false_ne_true

/-- What `updateDecrypt` does to the first block behind the vector. -/
theorem updateDecrypt_of_ivRead (hread : s.ivRead = true) (hsize : BLOCK_SIZE ≤ input.remaining) {block : Bytes} {b : ByteBuffer}
    (hget : input.get BLOCK_SIZE = .ok (block, b)) :
    s.updateDecrypt P input output =
      (decryptingUpdate P { s.discard P block with ivRead := false } b output).mapError fun _ => .keyczar .shortBuffer := by
  unfold updateDecrypt
  rw [if_pos ⟨hread, hsize⟩, hget]
  dsimp only
  cases decryptingUpdate P { s.discard P block with ivRead := false } b output with
  | error e => rfl
  | ok r => rfl

theorem updateDecrypt_of_past (hread : s.ivRead = false) :
    s.updateDecrypt P input output = (s.decryptingUpdate P input output).mapError fun _ => .keyczar .shortBuffer := by
  unfold updateDecrypt
  rw [hread, if_neg (by simp)]
  cases s.decryptingUpdate P input output with
  | error e => rfl
  | ok r => rfl

/-- A piece of at least a block brings both in step. -/
theorem updateDecrypt_inStep (hpair : Paired P s s') (hactive : Active k s) (hsize : BLOCK_SIZE ≤ input.remaining) :
    Relational.Alike (InStep P k) (s.updateDecrypt P input output) (s'.updateDecrypt P input output) := by
  cases hread : s.ivRead with
  | true =>
    obtain ⟨b, hget, -⟩ := ByteBuffer.get_ok hsize
    rw [updateDecrypt_of_ivRead hread hsize hget, updateDecrypt_of_ivRead (hpair.ivRead_eq.trans hread) hsize hget]
    exact (decryptingUpdate_inStep (hpair.push hread (length_take_block hsize)) (hactive.push _) rfl).mapError _
  | false =>
    rw [updateDecrypt_of_past hread, updateDecrypt_of_past (hpair.ivRead_eq.trans hread)]
    exact (decryptingUpdate_inStep hpair hactive hread).mapError _

/-- The final call does the same with both. -/
theorem Paired.doFinalDecrypt (h : Paired P s s') : s.doFinalDecrypt P input output = s'.doFinalDecrypt P input output := by
  have hfinal : ∀ {t t' : AesStream} (b : ByteBuffer), Paired P t t' → t.ivRead = false →
      t.decryptingFinal P b output = t'.decryptingFinal P b output := by
    intro t t' b hpair hread
    unfold decryptingFinal
    rw [hpair.cipher hread, hpair.key_eq]
  unfold AesStream.doFinalDecrypt
  rw [h.ivRead_eq]
  cases hread : s.ivRead with
  | false => exact hfinal input h hread
  | true =>
    rw [if_pos rfl, if_pos rfl]
    by_cases hnil : input.remaining = 0
    · rw [if_pos hnil, if_pos hnil]
    · rw [if_neg hnil, if_neg hnil]
      rcases Nat.lt_or_ge input.remaining BLOCK_SIZE with hshort | hsize
      · rw [ByteBuffer.get_error hshort]
      · obtain ⟨b, hget, -⟩ := ByteBuffer.get_ok hsize
        rw [hget]
        exact hfinal b (h.push hread (length_take_block hsize)) rfl

end AesStream

/-! ## A try -/

namespace Cached

open Relational Crypter

variable {P : Primitives} {k : AesKey} {stream stream' : AesStream} {input : ByteBuffer} {s : Buffers}

/-- Two streams in one message, with the same verification. -/
def SameMessage {ν : Type} (P : Primitives) (k : AesKey) (r r' : DecryptingStream × ν) : Prop :=
  ∃ t t', r.1 = .aes t ∧ r'.1 = .aes t' ∧ t.Paired P t' ∧ t.Active k ∧ r.2 = r'.2

/-- Both start alike. -/
theorem begin_match (h : stream.Reusable k) (hnew : AesStream.new k = .ok stream') :
    Match (fun r r' _ => SameMessage P k r r') (begin P input (.aes stream) s) (begin P input (.aes stream') s) := by
  have hhmac : (AesStream.new k = .ok stream' → stream'.signStream.hmacKey = k.hmacKey) := fun h => (AesStream.key_of_new h).2
  have hverify : (DecryptingStream.aes stream').getVerifyingStream.initVerify =
      (DecryptingStream.aes stream).getVerifyingStream.initVerify := by
    simp only [DecryptingStream.getVerifyingStream, VerifyingStream.initVerify, HmacStream.initSign, hhmac hnew, h.hmacKey_eq]
  have hinit : ∀ t : Buffers, Match (fun d d' _ => ∃ r r', d = .aes r ∧ d' = .aes r' ∧ r.Paired P r' ∧ r.Active k)
      (initDecrypt P (.aes stream) t) (initDecrypt P (.aes stream') t) := by
    intro t
    rcases Nat.lt_or_ge t.inputCopy.remaining BLOCK_SIZE with hshort | hsize
    · simp only [initDecrypt, DecryptingStream.initDecrypt, AesStream.initDecrypt, ByteBuffer.get_error hshort]
      exact ⟨rfl, rfl⟩
    · obtain ⟨b, hget, -⟩ := ByteBuffer.get_ok hsize
      have hiv := AesStream.length_take_block hsize
      simp only [initDecrypt, DecryptingStream.initDecrypt, AesStream.initDecrypt, hget]
      exact ⟨⟨_, _, rfl, rfl, h.paired hnew hiv, h.discard hiv⟩, rfl⟩
  unfold begin
  refine match_bind fun b t _ => ?_
  have hdigest : (DecryptingStream.aes stream').getVerifyingStream.digestSize =
      (DecryptingStream.aes stream).getVerifyingStream.digestSize := rfl
  dsimp only
  rw [hdigest, hverify]
  by_cases hshort : b.inputCopy.remaining < (DecryptingStream.aes stream).getVerifyingStream.digestSize
  · rw [if_pos hshort, if_pos hshort]
    exact ⟨rfl, rfl⟩
  · rw [if_neg hshort, if_neg hshort]
    refine match_bind fun _ t _ => ?_
    refine match_bind fun atSignature t _ => ?_
    refine match_bind fun _ t _ => ?_
    refine match_bind fun _ t _ => ?_
    refine (hinit t).bind fun d d' t hd => ?_
    refine match_bind fun payload t _ => ?_
    refine match_bind fun header t _ => ?_
    refine match_bind fun _ t _ => ?_
    obtain ⟨r, r', rfl, rfl, hpair, hactive⟩ := hd
    exact ⟨⟨r, r', rfl, rfl, hpair, hactive, rfl⟩, rfl⟩

/-- A turn of the loop. Behind it both are past the vector. -/
theorem decryptChunk_match {r r' : AesStream} (hpair : r.Paired P r') (hactive : r.Active k) (v : VerifyingStream)
    (hlong : DECRYPT_CHUNK_SIZE < s.inputCopy.remaining) :
    Match (fun d d' _ => SameMessage P k d d' ∧ ∃ t, d.1 = .aes t ∧ t.ivRead = false)
      (decryptChunk P (.aes r) v s) (decryptChunk P (.aes r') v s) := by
  obtain ⟨chunk, inputCopy, hsize, -, -, -, -, -, -, heq⟩ := decryptChunk_eq (P := P) hlong
  have hblock : BLOCK_SIZE ≤ chunk.remaining := by
    rw [hsize]
    decide
  have hstep : Alike (AesStream.InStep P k) (r.updateDecrypt P chunk s.output) (r'.updateDecrypt P chunk s.output) :=
    AesStream.updateDecrypt_inStep hpair hactive hblock
  rw [heq, heq]
  simp only [DecryptingStream.updateDecrypt]
  rcases hstep.cases with ⟨e, hup, hup'⟩ | ⟨x, x', hup, hup', hpair', hactive', hread, houtput⟩
  · rw [hup, hup']
    exact ⟨rfl, rfl⟩
  · rw [hup, hup']
    dsimp only
    rw [houtput]
    exact ⟨⟨⟨x.1, x'.1, rfl, rfl, hpair', hactive', rfl⟩, x.1, rfl, hread⟩, rfl⟩

/-- The loop. A stream that is still at the vector has seen no chunk. -/
theorem decryptChunks_match {fuel : Nat} {r r' : AesStream} (hpair : r.Paired P r') (hactive : r.Active k) (v : VerifyingStream) :
    Match (fun d d' t => SameMessage P k d d' ∧ ∃ u, d.1 = .aes u ∧ (u.ivRead = true → r.ivRead = true ∧ t = s))
      (decryptChunks P fuel (.aes r) v s) (decryptChunks P fuel (.aes r') v s) := by
  induction fuel generalizing r r' v s with
  | zero => exact ⟨⟨⟨r, r', rfl, rfl, hpair, hactive, rfl⟩, r, rfl, fun h => ⟨h, rfl⟩⟩, rfl⟩
  | succ fuel ih =>
    rcases Nat.lt_or_ge DECRYPT_CHUNK_SIZE s.inputCopy.remaining with hlong | hshort
    · rw [decryptChunks_of_lt _ _ _ hlong, decryptChunks_of_lt _ _ _ hlong]
      refine (decryptChunk_match hpair hactive v hlong).bind ?_
      rintro ⟨d, v₁⟩ ⟨d', v₂⟩ t ⟨⟨x, x', hd, hd', hpair', hactive', hv⟩, y, hy, hread⟩
      dsimp only at hd hd' hv hy
      subst hd hd' hv
      cases hy
      refine (ih (s := t) hpair' hactive' v₁).mono ?_
      rintro e e' u ⟨hsame, z, hz, hback⟩
      exact ⟨hsame, z, hz, fun h => absurd (hread.symm.trans (hback h).1) Bool.false_ne_true⟩
    · rw [decryptChunks_of_le hshort, decryptChunks_of_le hshort]
      exact ⟨⟨⟨r, r', rfl, rfl, hpair, hactive, rfl⟩, r, rfl, fun h => ⟨h, rfl⟩⟩, rfl⟩

/-- What the start of a try with an AES key has read, and what was cut off. -/
theorem remaining_of_begin {r : DecryptingStream × VerifyingStream × ByteBuffer} {t : Buffers}
    (hcontent : s.inputCopy.content = input.content) (hmark : s.inputCopy.mark = some s.inputCopy.position)
    (h : begin P input (.aes stream) s = .ok r t) :
    t.inputCopy.remaining + (BLOCK_SIZE + HMAC_DIGEST_SIZE) = s.inputCopy.remaining := by
  have hdigest : (DecryptingStream.aes stream).getVerifyingStream.digestSize = HMAC_DIGEST_SIZE := rfl
  have hivSize : (DecryptingStream.aes stream).ivSize = BLOCK_SIZE := rfl
  rcases begin_cases (P := P) input (.aes stream) hcontent hmark with ⟨-, hb⟩ | ⟨hlong, body, -, hbp, hbl, -, hb⟩
  · rw [hb] at h
    cases h
  · rcases hb with ⟨-, e, hb⟩ | ⟨hsize, d', payload, header, signature, -, -, hpp, hpl, -, -, -, hb⟩
    · rw [hb] at h
      cases h
    · rw [hb] at h
      cases h
      rw [inputCopy_marked]
      rw [hdigest] at hlong hbl
      rw [hivSize] at hsize hpp
      rw [ByteBuffer.remaining_eq] at hlong hsize ⊢
      rw [ByteBuffer.remaining_eq]
      dsimp only
      omega

/-- The end of a try does the same with both. -/
theorem finish_eq_of_paired {r r' : AesStream} (h : r.Paired P r') (v : VerifyingStream) (signature : ByteBuffer) :
    finish P (.aes r) v signature s = finish P (.aes r') v signature s := by
  simp only [finish_eq, DecryptingStream.doFinalDecrypt, h.doFinalDecrypt]

/-- The `try` block throws the same with both, or returns with both and leaves the same buffers. The stream that is left can be given
out again, unless it is one of a counting key and the payload was empty. -/
theorem tryKey_match (h : stream.Reusable k) (hnew : AesStream.new k = .ok stream')
    (hcontent : s.inputCopy.content = input.content) (hmark : s.inputCopy.mark = some s.inputCopy.position) :
    Match (fun d _ _ => ∃ t, d = .aes t ∧
        ((s.inputCopy.remaining = BLOCK_SIZE + HMAC_DIGEST_SIZE → AesStream.Chains k) → t.Reusable k))
      (tryKey P input (.aes stream) s) (Crypter.tryKey P input (.aes stream') s) := by
  unfold tryKey Crypter.tryKey
  refine ((begin_match h hnew).and_left fun r t => remaining_of_begin hcontent hmark).bind ?_
  rintro ⟨d, v₁, signature⟩ ⟨d', w₁⟩ t₁ ⟨⟨x, x', hd, hd', hpair, hactive, hv⟩, hremaining⟩
  dsimp only at hd hd' hv
  subst hd hd' hv
  refine match_bind fun b t ht => ?_
  cases ht
  refine (decryptChunks_match hpair hactive v₁).bind ?_
  rintro ⟨e, w⟩ ⟨e', w'⟩ t₂ ⟨⟨y, y', he, he', hpair', hactive', hw⟩, z, hz, hback⟩
  dsimp only at he he' hw hz
  subst he he' hw
  cases hz
  have hleft : (s.inputCopy.remaining = BLOCK_SIZE + HMAC_DIGEST_SIZE → AesStream.Chains k) →
      (y.decrypted t₂.inputCopy).Reusable k := by
    refine fun hchain => hactive'.decrypted fun hread hnil => hchain ?_
    rw [(hback hread).2] at hnil
    omega
  have hfinish := finish_eq_of_paired (s := t₂) hpair' w signature
  have hget : (get : OnBuffers Buffers) t₂ = .ok t₂ t₂ := rfl
  dsimp only
  rw [Throwing.bind_ok hget, ← hfinish]
  cases hrun : finish P (.aes y) w signature t₂ with
  | error e u =>
    rw [Throwing.bind_error hrun]
    exact ⟨rfl, rfl⟩
  | ok _ u =>
    rw [Throwing.bind_ok hrun]
    exact ⟨⟨_, rfl, hleft⟩, rfl⟩

end Cached

end Java
