import Keyczar.Java.EncrypterBuffers
import Keyczar.Java.CrypterViews
import Keyczar.Java.Collisions

/-!
# Encryption and decryption between buffers of a caller

What `encrypt` and `decrypt` do to the buffers of their caller, for a key of any mode and outputs of any room. `ciphertextSize` tells the
caller how much room to give. It is right for one mode; and an output that is too small by no more than the signature is not noticed,
because the limit is moved before the signature is put.
-/

namespace Java

open Bytes

namespace Encrypter

variable {P : Primitives} {k : AesKey}

/-- `encrypt(ByteBuffer, ByteBuffer)` under the primary key, on both of its buffers: the input is only read, through views of it. -/
def encryptBoth (P : Primitives) (encryptingKey : AesKey) (ivPreImage : Bytes) : EStateM Exception (ByteBuffer × ByteBuffer) Unit :=
  fun (input, output) => match encryptBuffer P encryptingKey ivPreImage input output with
    | .error e output => .error e (input, output)
    | .ok _ output => .ok () (input, output)

/-- `ciphertextSize`, before it is an `int`. -/
def sizeLength (mode : CipherMode) (n : Nat) : Nat := HEADER_SIZE + mode.getOutputSize BLOCK_SIZE n + HMAC_DIGEST_SIZE

theorem ciphertextSize_of_new {stream : AesStream} (hnew : AesStream.new k = .ok stream) (n : Nat) :
    ciphertextSize k n = .ok (toInt32 (sizeLength k.mode n : Nat)) := by
  simp only [ciphertextSize, hnew, AesStream.maxOutputSize, (AesStream.key_of_new hnew).1, sizeLength]
  push_cast
  rfl

theorem ciphertextSize_error {e : KeyczarException} (hnew : AesStream.new k = .error e) (n : Nat) :
    ciphertextSize k n = .error (.keyczar e) := by
  simp only [ciphertextSize, hnew]

/-- The size is announced right for the padded chaining mode only; for the others it is too small. -/
theorem sizeLength_cbc (n : Nat) : sizeLength .cbc n = bodyLength .cbc n + HMAC_DIGEST_SIZE := by
  simp only [sizeLength, bodyLength, outputLength, CipherMode.getOutputSize, HEADER_SIZE, KEY_HASH_SIZE, BLOCK_SIZE, HMAC_DIGEST_SIZE]
  omega

theorem sizeLength_lt {mode : CipherMode} (hcbc : mode ≠ .cbc) (hecb : mode ≠ .ecb) (n : Nat) :
    bodyLength mode n ≤ sizeLength mode n ∧ sizeLength mode n < bodyLength mode n + HMAC_DIGEST_SIZE := by
  cases mode with
  | cbc => exact absurd rfl hcbc
  | ecb => exact absurd rfl hecb
  | ctr =>
    simp only [sizeLength, bodyLength, outputLength, CipherMode.getOutputSize, HEADER_SIZE, KEY_HASH_SIZE, BLOCK_SIZE, HMAC_DIGEST_SIZE]
    omega
  | detCbc =>
    simp only [sizeLength, bodyLength, outputLength, CipherMode.getOutputSize, HEADER_SIZE, KEY_HASH_SIZE, BLOCK_SIZE, HMAC_DIGEST_SIZE]
    omega

theorem bodyLength_le {mode : CipherMode} (hecb : mode ≠ .ecb) (n : Nat) : bodyLength mode n ≤ sizeLength mode n := by
  by_cases hcbc : mode = .cbc
  · rw [hcbc, sizeLength_cbc]
    exact Nat.le_add_right _ _
  · exact (sizeLength_lt hcbc hecb n).1

theorem mode_ne_ecb {stream : AesStream} (hnew : AesStream.new k = .ok stream) : k.mode ≠ .ecb := by
  have hstream := Crypter.hasStream_iff.mpr ⟨stream, hnew⟩
  intro hmode
  rw [Crypter.hasStream, hmode] at hstream
  simp at hstream

/-- No plaintext of an `int` length makes the size wrap round to a positive one. -/
theorem sizeLength_bound {mode : CipherMode} {n : Nat} (hn : n < 2 ^ 31) : sizeLength mode n < 2 ^ 32 := by
  cases mode <;>
    simp only [sizeLength, CipherMode.getOutputSize, HEADER_SIZE, KEY_HASH_SIZE, BLOCK_SIZE, HMAC_DIGEST_SIZE] <;> omega

/-- What is promised about the buffers of a call. With the announced room in the output, exactly that many bytes are written, from its
position up to its new limit, and any view of them is decrypted to the plaintext, which is all that is put into the buffer for it. With
less room, a checked exception is thrown, and nothing is changed behind the limit. The input is as it was. -/
structure RespectsBuffers (P : Primitives) (z : Keyczar) (k : AesKey) (ivPreImage : Bytes) (input output : ByteBuffer) : Prop where
  fits : ∀ size, ciphertextSize k input.remaining = .ok size → size ≤ output.remaining → ∃ w o,
    encryptBoth P k ivPreImage (input, output) = .ok () (input, o) ∧ (w.length : Int) = size ∧
    o.content = overwrite output.content output.position w ∧ o.limit = output.position + w.length ∧
    ∀ region target : ByteBuffer, region.rest = w → size ≤ target.remaining → ∃ t, Crypter.decryptBuffer P z region target = .ok () t ∧
      t.content = overwrite target.content target.position input.rest ∧ t.position = target.position + input.remaining
  tooSmall : ∀ size, ciphertextSize k input.remaining = .ok size → output.remaining < size → ∃ e o,
    encryptBoth P k ivPreImage (input, output) = .error (.keyczar e) (input, o) ∧
    o.content.drop output.limit = output.content.drop output.limit

theorem encryptBoth_ok {ivPreImage : Bytes} {input output o : ByteBuffer} :
    encryptBoth P k ivPreImage (input, output) = .ok () (input, o) ↔ encryptBuffer P k ivPreImage input output = .ok () o := by
  cases hrun : encryptBuffer P k ivPreImage input output <;> simp [encryptBoth, hrun]

theorem encryptBoth_error {ivPreImage : Bytes} {input output o : ByteBuffer} {e : Exception} :
    encryptBoth P k ivPreImage (input, output) = .error e (input, o) ↔ encryptBuffer P k ivPreImage input output = .error e o := by
  cases hrun : encryptBuffer P k ivPreImage input output <;> simp [encryptBoth, hrun]

section

variable {z : Keyczar} {stream : AesStream} (hnew : AesStream.new k = .ok stream) {ivPreImage : Bytes}
  (hpre : ivPreImage.length = BLOCK_SIZE) {input output : ByteBuffer}

include hnew hpre

/-- An output that is too small is noticed when there is room for the header, but not for all that comes in front of the signature. -/
theorem tooSmall_iff :
    (∃ e o, encryptBoth P k ivPreImage (input, output) = .error (.keyczar e) (input, o) ∧
      o.content.drop output.limit = output.content.drop output.limit) ↔
    HEADER_SIZE ≤ output.remaining ∧ output.remaining < bodyLength k.mode input.remaining := by
  simp only [encryptBoth_error]
  rcases encryptBuffer_ends (P := P) hnew hpre input output rfl with ⟨hsmall, w, o, hrun, _⟩ | ⟨hheader, hbody, e, w, o, hrun, hw⟩ |
      ⟨hbody, _, w, o, hrun, _⟩ | ⟨hbody, _, w, o, hrun, _⟩
  · rw [hrun]
    constructor
    · rintro ⟨e, o', he, _⟩
      cases he
    · rintro ⟨hheader, _⟩
      omega
  · rw [hrun]
    exact ⟨fun _ => ⟨hheader, hbody⟩, fun _ => ⟨e, o, rfl, hw.drop_limit⟩⟩
  · rw [hrun]
    constructor
    · rintro ⟨e, o', he, _⟩
      cases he
    · rintro ⟨_, hlt⟩
      omega
  · rw [hrun]
    constructor
    · rintro ⟨e, o', he, _⟩
      cases he
    · rintro ⟨_, hlt⟩
      omega

/-- An encryption that writes as much as the size says was made with the padded chaining mode. -/
theorem mode_of_fits {w : Bytes} {o : ByteBuffer} (hrun : encryptBuffer P k ivPreImage input output = .ok () o)
    (hsize : w.length = sizeLength k.mode input.remaining) (hlimit : o.limit = output.position + w.length) : k.mode = .cbc := by
  rcases encryptBuffer_ends (P := P) hnew hpre input output rfl with ⟨_, v, o', hrun', _⟩ | ⟨_, _, e, v, o', hrun', _⟩ |
      ⟨_, _, v, o', hrun', _⟩ | ⟨_, _, v, o', hrun', hlen, _, hpos, hend⟩
  · rw [hrun] at hrun'
    cases hrun'
  · rw [hrun] at hrun'
    cases hrun'
  · rw [hrun] at hrun'
    cases hrun'
  · rw [hrun] at hrun'
    cases hrun'
    by_contra hcbc
    have hlt := (sizeLength_lt hcbc (mode_ne_ecb hnew) input.remaining).2
    omega

/-- Then what was written is the ciphertext. -/
theorem ciphertext_of_fits (hmode : k.mode = .cbc) {w : Bytes} {o : ByteBuffer}
    (hrun : encryptBuffer P k ivPreImage input output = .ok () o) (hcontent : o.content = overwrite output.content output.position w)
    (hlimit : o.limit = output.position + w.length) : w = ciphertext P k ivPreImage input.rest := by
  rcases encryptBuffer_cases (P := P) hmode hnew hpre input output with ⟨_, e, o', hrun'⟩ | ⟨o', hrun', hc, hp, hl, _⟩
  · rw [hrun] at hrun'
    cases hrun'
  · rw [hrun] at hrun'
    cases hrun'
    exact overwrite_inj (by omega) (hcontent.symm.trans hc)

end

/-- When the ciphertext is decrypted into a buffer of its size, no other key stands in the way. -/
theorem first_of_decrypts {z : Keyczar} {keys : List AesKey} {ivPreImage plain : Bytes} (hmode : k.mode = .cbc)
    (hiv : (ivOf P k ivPreImage).length = 16) (hkeys : z.getKey (k.hash P) = keys.map .aes)
    (hown : keys.takeWhile (· ≠ k) ≠ [] → Crypter.OnlyOwn P (Crypter.message P k hiv plain) k keys) (hmem : k ∈ keys)
    {target t : ByteBuffer} (hroom : (ciphertext P k ivPreImage plain).length ≤ target.remaining)
    (hrun : Crypter.decryptBuffer P z (ByteBuffer.wrap (ciphertext P k ivPreImage plain)) target = .ok () t)
    (hposition : t.position = target.position + plain.length) :
    keys.takeWhile (· ≠ k) = [] ∨
      plain.length < Crypter.DECRYPT_CHUNK_SIZE ∧ ∀ k' ∈ keys.takeWhile (· ≠ k), Crypter.hasStream k' := by
  have hlen : (ciphertext P k ivPreImage plain).length = 41 + (plain.length / 16 + 1) * 16 :=
    Format.length_ciphertext P _ (k.length_hash P) hiv _
  have hchunk : Crypter.DECRYPT_CHUNK_SIZE ≤ target.remaining ∨ plain.length < 1024 := by
    show 1024 ≤ _ ∨ _
    omega
  refine (Crypter.short_or_behind_of_decryptBuffer_ok hiv hmode hkeys hown hmem hchunk hrun).resolve_right ?_
  rintro ⟨w, o, ho, rfl, hw⟩
  have hput := ho.position_eq
  rw [List.length_append] at hput
  have hsame : o.limitHere.position = o.position := rfl
  omega

/-- With the announced room and no other key in the way, all that is promised of an encryption with the padded chaining mode. -/
theorem fits_of_first {z : Keyczar} {stream : AesStream} (hnew : AesStream.new k = .ok stream) {keys : List AesKey}
    {ivPreImage : Bytes} (hpre : ivPreImage.length = BLOCK_SIZE) (hmode : k.mode = .cbc) {input output : ByteBuffer}
    (hiv : (ivOf P k ivPreImage).length = 16) (hkeys : z.getKey (k.hash P) = keys.map .aes)
    (hown : keys.takeWhile (· ≠ k) ≠ [] → Crypter.OnlyOwn P (Crypter.message P k hiv input.rest) k keys) (hmem : k ∈ keys)
    (hbefore : keys.takeWhile (· ≠ k) = [] ∨
      input.remaining < Crypter.DECRYPT_CHUNK_SIZE ∧ ∀ k' ∈ keys.takeWhile (· ≠ k), Crypter.hasStream k')
    (hroom : sizeLength k.mode input.remaining ≤ output.remaining) :
    ∃ w o, encryptBoth P k ivPreImage (input, output) = .ok () (input, o) ∧
      (w.length : Int) = (sizeLength k.mode input.remaining : Nat) ∧
      o.content = overwrite output.content output.position w ∧ o.limit = output.position + w.length ∧
      ∀ region target : ByteBuffer, region.rest = w → ((sizeLength k.mode input.remaining : Nat) : Int) ≤ target.remaining →
        ∃ t, Crypter.decryptBuffer P z region target = .ok () t ∧
          t.content = overwrite target.content target.position input.rest ∧ t.position = target.position + input.remaining := by
  have hlen : (ciphertext P k ivPreImage input.rest).length = sizeLength k.mode input.remaining := by
    rw [hmode, sizeLength_cbc, bodyLength, outputLength_of_ne (by decide)]
    have hformat : (ciphertext P k ivPreImage input.rest).length = 41 + (input.rest.length / 16 + 1) * 16 :=
      Format.length_ciphertext P _ (k.length_hash P) hiv _
    rw [hformat, input.length_rest]
    simp only [HEADER_SIZE, KEY_HASH_SIZE, BLOCK_SIZE, HMAC_DIGEST_SIZE]
    omega
  rcases encryptBuffer_cases (P := P) hmode hnew hpre input output with ⟨hsmall, _⟩ | ⟨o, hrun, hc, hp, hl, _⟩
  · omega
  · refine ⟨_, o, encryptBoth_ok.mpr hrun, congrArg Int.ofNat hlen, hc, hl.trans hp, ?_⟩
    intro region target hregion htarget
    have hpayload : (Crypter.message P k hiv input.rest).payload.length ≤ target.remaining := by
      have hparts := (Crypter.message P k hiv input.rest).length_bytes
      have hwhole : (Crypter.message P k hiv input.rest).bytes.length = sizeLength k.mode input.remaining := hlen
      omega
    rw [← input.length_rest] at hbefore
    obtain ⟨t, hback, ht⟩ := Crypter.decryptBuffer_ok_of_short hiv hmode (validKeyLength_of_new hnew) hkeys hown hmem hbefore hpayload
    refine ⟨t.limitHere, ?_, ht.content_eq, ?_⟩
    · have hsame : region.rest = (ByteBuffer.wrap (Crypter.message P k hiv input.rest).bytes).rest := by
        rw [hregion, ByteBuffer.rest_wrap]
        rfl
      rw [Crypter.decryptBuffer_congr hsame]
      exact hback
    · rw [← input.length_rest]
      exact ht.position_eq

/-- The buffers of a call are respected exactly when there is no stream for the key; or the size is an `int`, and the room in the output
is at least that of the header but not enough for all that comes in front of the signature; or the mode is the padded chaining one, the
room is that of the size, and no other key stands in the way of the decryption. -/
theorem respectsBuffers_iff (P : Primitives) {reader : KeyczarReader} {z : Keyczar}
    (hload : Keyczar.new P Crypter.isAcceptablePurpose reader = .ok z) {k : AesKey} (hprimary : z.getPrimaryKey = some (.aes k))
    {keys : List AesKey} (hkeys : z.getKey (k.hash P) = keys.map .aes) {ivPreImage : Bytes} (hpre : ivPreImage.length = BLOCK_SIZE)
    (input output : ByteBuffer) (harray : input.remaining < 2 ^ 31)
    (hideal : keys.takeWhile (· ≠ k) ≠ [] → ∀ k' ∈ keys,
      P.hmacSha1 k'.hmacKey.keyBytes ((ciphertext P k ivPreImage input.rest).take
        ((ciphertext P k ivPreImage input.rest).length - HMAC_DIGEST_SIZE)) =
        (ciphertext P k ivPreImage input.rest).drop ((ciphertext P k ivPreImage input.rest).length - HMAC_DIGEST_SIZE) → k' = k) :
    RespectsBuffers P z k ivPreImage input output ↔
      Crypter.hasStream k = false ∨ sizeLength k.mode input.remaining < 2 ^ 31 ∧
        (HEADER_SIZE ≤ output.remaining ∧ output.remaining < bodyLength k.mode input.remaining ∨
         k.mode = .cbc ∧ sizeLength k.mode input.remaining ≤ output.remaining ∧
           (keys.takeWhile (· ≠ k) = [] ∨
            input.remaining < Crypter.DECRYPT_CHUNK_SIZE ∧ ∀ k' ∈ keys.takeWhile (· ≠ k), Crypter.hasStream k')) := by
  have hmem : k ∈ keys := by
    have hin := Keyczar.mem_getKey_of_primary hload hprimary
    rw [show KeyczarKey.hash P (.aes k) = k.hash P from rfl, hkeys] at hin
    obtain ⟨k', hk', heq⟩ := List.mem_map.mp hin
    cases heq
    exact hk'
  have hiv := length_ivOf (P := P) (k := k) hpre
  have hown : keys.takeWhile (· ≠ k) ≠ [] → Crypter.OnlyOwn P (Crypter.message P k hiv input.rest) k keys :=
    fun hne => Crypter.onlyOwn_iff.mpr (hideal hne)
  have hbytes : (Crypter.message P k hiv input.rest).bytes = ciphertext P k ivPreImage input.rest := rfl
  cases hnew : AesStream.new k with
  | error e =>
    have hnone : Crypter.hasStream k = false := by
      rw [← Bool.not_eq_true]
      intro hstream
      obtain ⟨stream, hok⟩ := Crypter.hasStream_iff.mp hstream
      rw [hnew] at hok
      cases hok
    refine ⟨fun _ => Or.inl hnone, fun _ => ⟨?_, ?_⟩⟩
    · intro size hsize
      rw [ciphertextSize_error hnew] at hsize
      cases hsize
    · intro size hsize
      rw [ciphertextSize_error hnew] at hsize
      cases hsize
  | ok stream =>
    have hstream : Crypter.hasStream k = true := Crypter.hasStream_iff.mpr ⟨stream, hnew⟩
    have hsize := ciphertextSize_of_new hnew input.remaining
    constructor
    · intro h
      right
      by_cases hint : sizeLength k.mode input.remaining < 2 ^ 31
      · refine ⟨hint, ?_⟩
        rw [toInt32_of_lt hint] at hsize
        rcases Nat.lt_or_ge output.remaining (sizeLength k.mode input.remaining) with hsmall | hroom
        · exact Or.inl ((tooSmall_iff hnew hpre).mp (h.tooSmall _ hsize (Int.ofNat_lt.mpr hsmall)))
        · right
          obtain ⟨w, o, hrun, hlen, hc, hl, hdecrypt⟩ := h.fits _ hsize (Int.ofNat_le.mpr hroom)
          rw [encryptBoth_ok] at hrun
          have hmode := mode_of_fits hnew hpre hrun (Int.ofNat.inj hlen) hl
          obtain rfl := ciphertext_of_fits hnew hpre hmode hrun hc hl
          obtain ⟨t, hback, _, hposition⟩ := hdecrypt (ByteBuffer.wrap _) (ByteBuffer.allocate (sizeLength k.mode input.remaining))
            (ByteBuffer.rest_wrap _) (by rw [ByteBuffer.allocate, ByteBuffer.remaining_wrap, List.length_replicate])
          have htarget : (ciphertext P k ivPreImage input.rest).length ≤
              (ByteBuffer.allocate (sizeLength k.mode input.remaining)).remaining := by
            rw [ByteBuffer.allocate, ByteBuffer.remaining_wrap, List.length_replicate, Int.ofNat.inj hlen]
          rw [← input.length_rest] at hposition
          have hfirst := first_of_decrypts hmode hiv hkeys hown hmem htarget hback hposition
          rw [input.length_rest] at hfirst
          exact ⟨hmode, hroom, hfirst⟩
      · -- a size that is no `int` is negative, and nothing is that long
        have hneg := toInt32_neg (Nat.le_of_not_lt hint) (sizeLength_bound harray)
        obtain ⟨w, _, _, hlen, _⟩ := h.fits _ hsize (by omega)
        omega
    · rintro (hnone | ⟨hint, hcases⟩)
      · rw [hstream] at hnone
        cases hnone
      · rw [toInt32_of_lt hint] at hsize
        rcases hcases with ⟨hheader, hbody⟩ | ⟨hmode, hroom, hbefore⟩
        · have hle := bodyLength_le (mode_ne_ecb hnew) input.remaining
          constructor
          · intro size hsize' hroom
            rw [hsize] at hsize'
            cases hsize'
            omega
          · intro size _ _
            exact (tooSmall_iff hnew hpre).mpr ⟨hheader, hbody⟩
        · constructor
          · intro size hsize' _
            rw [hsize] at hsize'
            cases hsize'
            exact fits_of_first hnew hpre hmode hiv hkeys hown hmem hbefore hroom
          · intro size hsize' hsmall
            rw [hsize] at hsize'
            cases hsize'
            omega

theorem loaded_twoKeys : ∃ z, Keyczar.new .plain Crypter.isAcceptablePurpose Crypter.twoKeys = .ok z ∧
    z.getPrimaryKey = some (.aes (Crypter.keyOf 2)) ∧
    z.getKey ((Crypter.keyOf 2).hash .plain) = [Crypter.keyOf 1, Crypter.keyOf 2].map .aes :=
  ⟨_, rfl, rfl, rfl⟩

theorem respectsBuffers_iff_second_key : ∃ z, Keyczar.new .plain Crypter.isAcceptablePurpose Crypter.twoKeys = .ok z ∧
    (RespectsBuffers .plain z (Crypter.keyOf 2) (List.replicate 16 0) (ByteBuffer.wrap [7, 8, 9]) (ByteBuffer.allocate 57) ↔
      Crypter.hasStream (Crypter.keyOf 2) = false ∨ sizeLength .cbc 3 < 2 ^ 31 ∧
        (HEADER_SIZE ≤ (ByteBuffer.allocate 57).remaining ∧ (ByteBuffer.allocate 57).remaining < bodyLength .cbc 3 ∨
         (Crypter.keyOf 2).mode = .cbc ∧ sizeLength .cbc 3 ≤ (ByteBuffer.allocate 57).remaining ∧
           ([Crypter.keyOf 1, Crypter.keyOf 2].takeWhile (· ≠ Crypter.keyOf 2) = [] ∨ 3 < Crypter.DECRYPT_CHUNK_SIZE ∧
            ∀ k' ∈ [Crypter.keyOf 1, Crypter.keyOf 2].takeWhile (· ≠ Crypter.keyOf 2), Crypter.hasStream k'))) := by
  obtain ⟨z, hload, hprimary, hkeys⟩ := loaded_twoKeys
  have hpre : (List.replicate 16 (0 : UInt8)).length = BLOCK_SIZE := List.length_replicate
  have hiv := length_ivOf (P := .plain) (k := Crypter.keyOf 2) hpre
  have hideal := Crypter.onlyOwn_iff.mp (Crypter.onlyOwn_twoKeys hiv [7, 8, 9])
  exact ⟨z, hload, respectsBuffers_iff .plain hload hprimary hkeys hpre (ByteBuffer.wrap [7, 8, 9]) (ByteBuffer.allocate 57)
    (by decide) fun _ => hideal⟩

theorem limited_mark_le : ∀ m ∈ (none : Option Nat), m ≤ 0 := by
  intro m hm
  cases hm

/-- An output with 40 bytes up to the limit, in an array that goes on behind it. -/
def limited : ByteBuffer where
  content := List.replicate 100 0
  position := 0
  limit := 40
  mark := none
  position_le := Nat.zero_le _
  limit_le := by decide
  mark_le := limited_mark_le

/-- An encryption to 57 bytes is not refused there. -/
theorem limit_is_not_respected : ∃ z, Keyczar.new .plain Crypter.isAcceptablePurpose Crypter.twoKeys = .ok z ∧
    z.getPrimaryKey = some (.aes (Crypter.keyOf 2)) ∧ ciphertextSize (Crypter.keyOf 2) 3 = .ok 57 ∧ limited.remaining = 40 ∧
    ¬ RespectsBuffers .plain z (Crypter.keyOf 2) (List.replicate 16 0) (ByteBuffer.wrap [7, 8, 9]) limited := by
  obtain ⟨z, hload, hprimary, _⟩ := loaded_twoKeys
  obtain ⟨stream, hnew⟩ := new_ok (k := Crypter.keyOf 2) rfl rfl
  refine ⟨z, hload, hprimary, by decide, rfl, fun h => ?_⟩
  have hsmall := h.tooSmall 57 (by decide) (by decide)
  have hbody := ((tooSmall_iff hnew List.length_replicate).mp hsmall).2
  exact absurd hbody (by decide)

end Encrypter

end Java
