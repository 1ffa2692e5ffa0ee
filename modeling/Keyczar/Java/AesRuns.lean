import Keyczar.Java.Keys

/-!
# An AES stream that decrypts a message in pieces

The stream of a chaining key is at the vector, or past it. Past it, its cipher has seen the vector and the pieces of the payload,
and what it returned is the block that comes out for the vector and the bytes that were put. However the payload is cut, all that
is put is its plaintext.
-/

namespace Java

open Bytes Cbc Cbc.CipherStream

def zeroIv : Bytes := List.replicate BLOCK_SIZE 0

@[simp] theorem length_zeroIv : zeroIv.length = 16 := rfl

namespace AesStream

variable {P : Primitives}

/-- The vector was read, and nothing else. -/
structure AtIv (P : Primitives) (iv : Bytes) (s : AesStream) : Prop where
  ivRead_eq : s.ivRead = true
  length_iv : iv.length = 16
  cipher : ∃ c, s.decryptingCipher = .cbc c ∧ Decrypting (P.aes s.key.aesBytes) zeroIv iv [] c

/-- The pieces `seen` of the payload were read, and `w` was put. -/
structure Past (P : Primitives) (iv seen w : Bytes) (s : AesStream) : Prop where
  ivRead_eq : s.ivRead = false
  length_iv : iv.length = 16
  cipher : ∃ c pre, s.decryptingCipher = .cbc c ∧ pre.length = 16 ∧
    Decrypting (P.aes s.key.aesBytes) zeroIv (iv ++ seen) (pre ++ w) c

/-- The stream has the vector, and is at it or past it. -/
def Fed (P : Primitives) (iv seen w : Bytes) (s : AesStream) : Prop :=
  (AtIv P iv s ∧ seen = [] ∧ w = []) ∨ Past P iv seen w s

/-- The modes that chain. -/
def Chains (k : AesKey) : Prop := k.mode = .cbc ∨ k.mode = .detCbc

/-- The first block read after the vector pushes the block for the vector out. -/
theorem AtIv.discard {iv temp : Bytes} {s : AesStream} (h : AtIv P iv s) (htemp : temp.length = 16) :
    Past P iv temp [] { s.discard P temp with ivRead := false } := by
  obtain ⟨c, hc, hd⟩ := h.cipher
  have hup := hd.update temp
  refine ⟨rfl, h.length_iv, (c.decryptUpdate (P.aes s.key.aesBytes) temp).2, (c.decryptUpdate (P.aes s.key.aesBytes) temp).1,
    ?_, ?_, ?_⟩
  · simp only [AesStream.discard, Cipher.decryptUpdate, hc]
  · have hlen := hup.length_out
    rw [List.nil_append, List.length_append, h.length_iv, htemp] at hlen
    exact hlen
  · rw [List.append_nil]
    exact hup

/-- How much was put past the vector: all that was read, short of what the cipher holds. -/
theorem Past.length_buffer {iv seen w : Bytes} {s : AesStream} (h : Past P iv seen w s) (n : Nat) :
    s.decryptingCipher.decryptSize n + w.length = seen.length + n := by
  obtain ⟨c, pre, hc, hpre, hd⟩ := h.cipher
  have hlen := hd.length_out
  have hle := held_le 16 (iv ++ seen).length
  have hbuf : c.buffer.length = (iv ++ seen).length - held 16 (iv ++ seen).length := by
    rw [hd.buffer_eq, List.length_drop]
  have hiv := h.length_iv
  simp only [List.length_append] at hlen hle hbuf
  simp only [hc, Cipher.decryptSize]
  omega

/-- A piece past the vector. -/
theorem Past.decryptingUpdate {iv seen w : Bytes} {s s' : AesStream} {input output output' : ByteBuffer}
    (h : Past P iv seen w s) (hup : s.decryptingUpdate P input output = .ok (s', output')) :
    ∃ w', output.Wrote w' output' ∧ Past P iv (seen ++ input.rest) (w ++ w') s' ∧ s'.key = s.key := by
  unfold AesStream.decryptingUpdate at hup
  by_cases hnil : input.remaining = 0
  · rw [if_pos hnil] at hup
    cases hup
    have hrest : input.rest = [] := List.eq_nil_of_length_eq_zero (input.length_rest.trans hnil)
    refine ⟨[], ByteBuffer.wrote_refl _, ?_, rfl⟩
    rw [hrest, List.append_nil, List.append_nil]
    exact h
  · obtain ⟨c, pre, hc, hpre, hd⟩ := h.cipher
    rw [if_neg hnil] at hup
    simp only [hc, Cipher.decryptUpdate] at hup
    split at hup
    · cases hup
    · rename_i hput
      cases hup
      refine ⟨_, wrote_of_transfer hput, ⟨h.ivRead_eq, h.length_iv, _, pre, rfl, hpre, ?_⟩, rfl⟩
      have hnext := hd.update input.rest
      rw [List.append_assoc, List.append_assoc] at hnext
      exact hnext

/-- With room for all that was read, less what was put already, a piece is accepted. -/
theorem Past.decryptingUpdate_ok {iv seen w : Bytes} {s : AesStream} {input output : ByteBuffer} (h : Past P iv seen w s)
    (hroom : seen.length + input.remaining ≤ output.remaining + w.length) :
    ∃ r, s.decryptingUpdate P input output = .ok r := by
  unfold AesStream.decryptingUpdate
  by_cases hnil : input.remaining = 0
  · exact ⟨_, if_pos hnil⟩
  · obtain ⟨c, pre, hc, hpre, hd⟩ := h.cipher
    have hsize := h.length_buffer input.remaining
    rw [hc] at hsize
    have hnext := hd.update input.rest
    have hout := hnext.length_out
    have hlen := hd.length_out
    have hle := held_le 16 (iv ++ seen ++ input.rest).length
    have hiv := h.length_iv
    simp only [List.length_append, ByteBuffer.length_rest] at hout hlen hle
    have hfits : (Cipher.cbc c).decryptSize input.remaining ≤ output.remaining := by omega
    have hshort : (c.decryptUpdate (P.aes s.key.aesBytes) input.rest).1.length ≤ (Cipher.cbc c).decryptSize input.remaining := by
      omega
    obtain ⟨output', hput⟩ := transfer_ok hfits hshort
    rw [if_neg hnil]
    simp only [hc, Cipher.decryptUpdate, hput]
    exact ⟨_, rfl⟩

/-- A piece of at least a block, from the vector on. -/
theorem Fed.updateDecrypt {iv seen w : Bytes} {s s' : AesStream} {input output output' : ByteBuffer} (h : Fed P iv seen w s)
    (hlen : BLOCK_SIZE ≤ input.remaining) (hup : s.updateDecrypt P input output = .ok (s', output')) :
    ∃ w', output.Wrote w' output' ∧ Past P iv (seen ++ input.rest) (w ++ w') s' ∧ s'.key = s.key := by
  unfold AesStream.updateDecrypt at hup
  rcases h with ⟨h, rfl, rfl⟩ | h
  · rw [if_pos ⟨h.ivRead_eq, hlen⟩] at hup
    obtain ⟨b, hget, hc, hp, hl, _⟩ := ByteBuffer.get_ok hlen
    rw [hget] at hup
    simp only at hup
    have htemp : (input.rest.take BLOCK_SIZE).length = 16 := by
      rw [List.length_take, ByteBuffer.length_rest]
      exact Nat.min_eq_left hlen
    split at hup
    · cases hup
    · rename_i r hput
      cases hup
      obtain ⟨w', hw, hpast, hkey⟩ := (h.discard htemp).decryptingUpdate hput
      rw [ByteBuffer.rest_drop hc hp hl, List.take_append_drop] at hpast
      exact ⟨w', hw, hpast, hkey⟩
  · have hread : ¬ (s.ivRead = true ∧ BLOCK_SIZE ≤ input.remaining) := by
      rw [h.ivRead_eq]
      rintro ⟨hread, -⟩
      cases hread
    rw [if_neg hread] at hup
    split at hup
    · cases hup
    · rename_i r hput
      cases hup
      exact h.decryptingUpdate hput

theorem Fed.updateDecrypt_ok {iv seen w : Bytes} {s : AesStream} {input output : ByteBuffer} (h : Fed P iv seen w s)
    (hlen : BLOCK_SIZE ≤ input.remaining) (hroom : seen.length + input.remaining ≤ output.remaining + w.length) :
    ∃ r, s.updateDecrypt P input output = .ok r := by
  unfold AesStream.updateDecrypt
  rcases h with ⟨h, rfl, rfl⟩ | h
  · rw [if_pos ⟨h.ivRead_eq, hlen⟩]
    obtain ⟨b, hget, hc, hp, hl, _⟩ := ByteBuffer.get_ok hlen
    have htemp : (input.rest.take BLOCK_SIZE).length = 16 := by
      rw [List.length_take, ByteBuffer.length_rest]
      exact Nat.min_eq_left hlen
    have hroom' : (input.rest.take BLOCK_SIZE).length + b.remaining ≤ output.remaining + ([] : Bytes).length := by
      simp only [htemp, ByteBuffer.remaining, hp, hl, List.length_nil] at hroom ⊢
      have hb : BLOCK_SIZE = 16 := rfl
      rw [ByteBuffer.remaining_eq] at hlen
      omega
    obtain ⟨r, hr⟩ := (h.discard htemp).decryptingUpdate_ok hroom'
    rw [hget]
    simp only [hr]
    exact ⟨_, rfl⟩
  · have hread : ¬ (s.ivRead = true ∧ BLOCK_SIZE ≤ input.remaining) := by
      rw [h.ivRead_eq]
      rintro ⟨hread, -⟩
      cases hread
    rw [if_neg hread]
    obtain ⟨r, hr⟩ := h.decryptingUpdate_ok hroom
    simp only [hr]
    exact ⟨_, rfl⟩

/-! ## The end of the message -/

/-- A message that starts with its vector, from a zero vector: one block for the vector, then the payload. -/
theorem decrypt_from_zero {key iv payload plain : Bytes} (hiv : iv.length = 16)
    (hp : Cbc.decrypt (P.aes key) iv payload = Cbc.pad 16 plain) :
    ∃ preImage, preImage.length = 16 ∧ Cbc.decrypt (P.aes key) zeroIv (iv ++ payload) = Cbc.pad 16 (preImage ++ plain) := by
  have hdvd : 16 ∣ iv.length := by rw [hiv]
  have hlen : (Cbc.decrypt (P.aes key) zeroIv iv).length = 16 := by rw [Cbc.length_decrypt length_zeroIv hdvd, hiv]
  refine ⟨Cbc.decrypt (P.aes key) zeroIv iv, hlen, ?_⟩
  have hlast : Cbc.lastBlock zeroIv iv = iv := Cbc.lastBlock_block (hiv.trans length_zeroIv.symm)
  rw [Cbc.decrypt_append length_zeroIv hdvd, hlast, hp, Cbc.pad_append (by rw [hlen])]

/-- The final call returns the rest of the plaintext. -/
theorem Past.decryptFinal {iv seen w data plain : Bytes} {s : AesStream} (h : Past P iv seen w s)
    (hdvd : 16 ∣ (seen ++ data).length) (hp : Cbc.decrypt (P.aes s.key.aesBytes) iv (seen ++ data) = Cbc.pad 16 plain) :
    ∃ out, s.decryptingCipher.decryptFinal P s.key.aesBytes data = .ok out ∧ plain = w ++ out := by
  obtain ⟨c, pre, hc, hpre, hd⟩ := h.cipher
  obtain ⟨preImage, hlen, hall⟩ := decrypt_from_zero h.length_iv hp
  rw [← List.append_assoc] at hall
  have hdvd' : 16 ∣ (iv ++ seen ++ data).length := by
    rw [List.append_assoc, List.length_append, h.length_iv]
    exact Nat.dvd_add (Nat.dvd_refl 16) hdvd
  obtain ⟨out, hout, heq⟩ := hd.final (by decide) (by decide) hdvd' hall
  refine ⟨out, by simp only [hc, Cipher.decryptFinal, hout], ?_⟩
  rw [List.append_assoc] at heq
  exact (List.append_inj heq (hlen.trans hpre.symm)).2

/-- What the final call returns fits into what it asks room for. -/
theorem Past.length_out_le {iv seen w data plain out : Bytes} {s : AesStream} (h : Past P iv seen w s)
    (hdvd : 16 ∣ (seen ++ data).length) (hp : Cbc.decrypt (P.aes s.key.aesBytes) iv (seen ++ data) = Cbc.pad 16 plain)
    (hout : plain = w ++ out) : out.length ≤ s.decryptingCipher.decryptSize data.length := by
  have h1 := h.length_buffer data.length
  have h2 := Cbc.length_decrypt (c := P.aes s.key.aesBytes) h.length_iv hdvd
  rw [hp, Cbc.length_pad, hout] at h2
  simp only [List.length_append] at h2
  omega

theorem Past.decryptingFinal {iv seen w plain : Bytes} {s : AesStream} {input output output' : ByteBuffer}
    (h : Past P iv seen w s) (hdvd : 16 ∣ (seen ++ input.rest).length)
    (hp : Cbc.decrypt (P.aes s.key.aesBytes) iv (seen ++ input.rest) = Cbc.pad 16 plain)
    (hup : s.decryptingFinal P input output = .ok output') : ∃ out, output.Wrote out output' ∧ plain = w ++ out := by
  obtain ⟨out, hout, heq⟩ := h.decryptFinal hdvd hp
  refine ⟨out, ?_, heq⟩
  unfold AesStream.decryptingFinal at hup
  rw [hout] at hup
  simp only at hup
  split at hup
  · split at hup
    · cases hup
    · rename_i hput
      cases hup
      exact ByteBuffer.wrote_of_put hput
  · split at hup
    · cases hup
    · rename_i hput
      cases hup
      exact wrote_of_transfer hput

theorem Past.decryptingFinal_ok {iv seen w plain : Bytes} {s : AesStream} {input output : ByteBuffer}
    (h : Past P iv seen w s) (hdvd : 16 ∣ (seen ++ input.rest).length)
    (hp : Cbc.decrypt (P.aes s.key.aesBytes) iv (seen ++ input.rest) = Cbc.pad 16 plain)
    (hroom : seen.length + input.remaining ≤ output.remaining + w.length) :
    ∃ output', s.decryptingFinal P input output = .ok output' := by
  obtain ⟨out, hout, heq⟩ := h.decryptFinal hdvd hp
  have hsize := h.length_buffer input.remaining
  have hle := h.length_out_le hdvd hp heq
  rw [ByteBuffer.length_rest] at hle
  unfold AesStream.decryptingFinal
  rw [hout]
  by_cases hnil : input.remaining = 0
  · obtain ⟨output', hput, _⟩ := ByteBuffer.put_ok (b := output) (w := out) (by omega)
    refine ⟨output', ?_⟩
    simp only [if_pos hnil, hput]
  · have hfits : s.decryptingCipher.decryptSize input.remaining ≤ output.remaining := by omega
    obtain ⟨output', hput⟩ := transfer_ok hfits hle
    refine ⟨output', ?_⟩
    simp only [if_neg hnil, hput]

/-- A payload that decrypts to a padded plaintext has at least one block. -/
theorem block_le_of_decrypt_eq {key iv payload plain : Bytes} (hiv : iv.length = 16) (hdvd : 16 ∣ payload.length)
    (hp : Cbc.decrypt (P.aes key) iv payload = Cbc.pad 16 plain) : 16 ≤ payload.length := by
  have h1 := Cbc.length_decrypt (c := P.aes key) hiv hdvd
  have h2 := Cbc.padLength_pos (n := 16) (by decide) plain.length
  rw [hp, Cbc.length_pad] at h1
  exact Nat.le_of_dvd (by omega) hdvd

/-- Before the last piece the vector is passed: what is left of the input is the end of the same message. -/
theorem Fed.doFinalDecrypt_eq {iv seen w plain : Bytes} {s : AesStream} {input : ByteBuffer} (h : Fed P iv seen w s)
    (output : ByteBuffer) (hdvd : 16 ∣ (seen ++ input.rest).length)
    (hp : Cbc.decrypt (P.aes s.key.aesBytes) iv (seen ++ input.rest) = Cbc.pad 16 plain) :
    ∃ seen' s' b, Past P iv seen' w s' ∧ s'.key = s.key ∧ seen' ++ b.rest = seen ++ input.rest ∧
      s.doFinalDecrypt P input output = s'.decryptingFinal P b output := by
  unfold AesStream.doFinalDecrypt
  rcases h with ⟨h, rfl, rfl⟩ | h
  · rw [List.nil_append] at hdvd hp
    have hlen := block_le_of_decrypt_eq h.length_iv hdvd hp
    rw [ByteBuffer.length_rest] at hlen
    obtain ⟨b, hget, hc, hpos, hl, _⟩ := ByteBuffer.get_ok (n := BLOCK_SIZE) hlen
    have htemp : (input.rest.take BLOCK_SIZE).length = 16 := by
      rw [List.length_take, ByteBuffer.length_rest]
      exact Nat.min_eq_left hlen
    refine ⟨input.rest.take BLOCK_SIZE, _, b, h.discard htemp, rfl, ?_, ?_⟩
    · rw [ByteBuffer.rest_drop hc hpos hl, List.take_append_drop, List.nil_append]
    · rw [if_pos h.ivRead_eq, if_neg (by omega), hget]
  · refine ⟨seen, s, input, h, rfl, rfl, ?_⟩
    rw [if_neg (by rw [h.ivRead_eq]; nofun)]

/-- The last piece: all that was put is the plaintext. -/
theorem Fed.doFinalDecrypt {iv seen w plain : Bytes} {s : AesStream} {input output output' : ByteBuffer} (h : Fed P iv seen w s)
    (hdvd : 16 ∣ (seen ++ input.rest).length)
    (hp : Cbc.decrypt (P.aes s.key.aesBytes) iv (seen ++ input.rest) = Cbc.pad 16 plain)
    (hup : s.doFinalDecrypt P input output = .ok output') : ∃ out, output.Wrote out output' ∧ plain = w ++ out := by
  obtain ⟨seen', s', b, hpast, hkey, hrest, heq⟩ := h.doFinalDecrypt_eq output hdvd hp
  rw [← hrest] at hdvd hp
  rw [← hkey] at hp
  rw [heq] at hup
  exact hpast.decryptingFinal hdvd hp hup

theorem Fed.doFinalDecrypt_ok {iv seen w plain : Bytes} {s : AesStream} {input output : ByteBuffer} (h : Fed P iv seen w s)
    (hdvd : 16 ∣ (seen ++ input.rest).length)
    (hp : Cbc.decrypt (P.aes s.key.aesBytes) iv (seen ++ input.rest) = Cbc.pad 16 plain)
    (hroom : seen.length + input.remaining ≤ output.remaining + w.length) :
    ∃ output', s.doFinalDecrypt P input output = .ok output' := by
  obtain ⟨seen', s', b, hpast, hkey, hrest, heq⟩ := h.doFinalDecrypt_eq output hdvd hp
  have hlength := congrArg List.length hrest
  simp only [List.length_append, ByteBuffer.length_rest] at hlength
  rw [← hrest] at hdvd hp
  rw [← hkey] at hp
  rw [heq]
  exact hpast.decryptingFinal_ok hdvd hp (by omega)

/-! ## The start of a message -/

/-- What a cipher is made: a chaining one starts with a vector of zeros, and a counting one at zero. -/
theorem init_cases {mode : CipherMode} {key : Bytes} {c : Cipher} (h : Cipher.init mode key = .ok c) :
    (mode = .cbc ∨ mode = .detCbc) ∧ c = .cbc (.init zeroIv) ∨ mode = .ctr ∧ c = .ctr 0 := by
  unfold Cipher.init at h
  split at h
  · cases h
  · cases mode with
    | cbc =>
      cases h
      exact Or.inl ⟨Or.inl rfl, rfl⟩
    | detCbc =>
      cases h
      exact Or.inl ⟨Or.inr rfl, rfl⟩
    | ctr =>
      cases h
      exact Or.inr ⟨rfl, rfl⟩
    | ecb => cases h

/-- A new stream has two ciphers that are alike. -/
theorem cipher_of_new {k : AesKey} {s : AesStream} (hnew : AesStream.new k = .ok s) :
    ∃ c, Cipher.init k.mode k.aesBytes = .ok c ∧
      s = { key := k, encryptingCipher := c, decryptingCipher := c, signStream := { hmacKey := k.hmacKey } } := by
  unfold AesStream.new at hnew
  split at hnew
  · cases hnew
  · rename_i c hinit
    cases hnew
    exact ⟨c, hinit, rfl⟩

theorem key_of_new {k : AesKey} {s : AesStream} (hnew : AesStream.new k = .ok s) :
    s.key = k ∧ s.signStream.hmacKey = k.hmacKey := by
  obtain ⟨c, -, rfl⟩ := cipher_of_new hnew
  exact ⟨rfl, rfl⟩

/-- A new stream of a chaining key, once it has read its vector. -/
theorem fed_of_initDecrypt {k : AesKey} {s : AesStream} {iv : Bytes} (hchain : Chains k) (hnew : AesStream.new k = .ok s)
    (hiv : iv.length = 16) : Fed P iv [] [] { s.discard P iv with ivRead := true } := by
  have hcipher : s.decryptingCipher = .cbc (.init zeroIv) := by
    obtain ⟨c, hinit, rfl⟩ := cipher_of_new hnew
    rcases init_cases hinit with ⟨-, hc⟩ | ⟨hmode, -⟩
    · exact hc
    · rcases hchain with hm | hm <;> rw [hm] at hmode <;> cases hmode
  have hup := (decrypting_init (c := P.aes s.key.aesBytes) length_zeroIv).update iv
  have hnil : ((CipherStream.decryptUpdate (P.aes s.key.aesBytes) (.init zeroIv) iv).1) = [] := by
    have hlen := hup.length_out
    rw [List.nil_append, List.nil_append, hiv] at hlen
    exact List.eq_nil_of_length_eq_zero hlen
  rw [hnil] at hup
  refine Or.inl ⟨⟨rfl, hiv, (CipherStream.decryptUpdate (P.aes s.key.aesBytes) (.init zeroIv) iv).2, ?_, hup⟩, rfl, rfl⟩
  simp only [AesStream.discard, Cipher.decryptUpdate, hcipher]

/-! ## The first chunk -/

/-- A counting stream passes every byte on. -/
theorem decryptingUpdate_of_ctr {s : AesStream} {done : Nat} {input output : ByteBuffer} (hs : s.decryptingCipher = .ctr done)
    (hroom : input.remaining ≤ output.remaining) :
    ∃ s' output' w, s.decryptingUpdate P input output = .ok (s', output') ∧ output.Wrote w output' ∧
      w.length = input.remaining := by
  by_cases hnil : input.remaining = 0
  · exact ⟨s, output, [], if_pos hnil, ByteBuffer.wrote_refl _, hnil.symm⟩
  · have hlen : (xor input.rest (Cipher.keyStream P s.key.aesBytes done input.rest.length)).length = input.remaining := by
      simp [Cipher.keyStream]
    obtain ⟨output', hput⟩ := transfer_ok hroom (Nat.le_of_eq hlen)
    refine ⟨{ s with decryptingCipher := .ctr (done + input.rest.length) }, output', _, ?_, wrote_of_transfer hput, hlen⟩
    unfold AesStream.decryptingUpdate
    rw [if_neg hnil]
    simp only [hs, Cipher.decryptUpdate, Cipher.decryptSize, hput]

/-- A stream that does not chain counts. -/
theorem ctr_of_new {k : AesKey} {s : AesStream} (hchain : ¬ Chains k) (hnew : AesStream.new k = .ok s) :
    s.decryptingCipher = .ctr 0 := by
  obtain ⟨c, hinit, rfl⟩ := cipher_of_new hnew
  rcases init_cases hinit with ⟨hmode, -⟩ | ⟨-, hc⟩
  · exact absurd hmode hchain
  · exact hc

/-- Whatever the mode, the first chunk of a message comes out, short of the block after the vector. -/
theorem first_chunk {k : AesKey} {s : AesStream} {iv : Bytes} {chunk output : ByteBuffer} (hnew : AesStream.new k = .ok s)
    (hiv : iv.length = 16) (hchunk : chunk.remaining = 1024) (hroom : 1024 ≤ output.remaining) :
    ∃ s' output' w, updateDecrypt P { s.discard P iv with ivRead := true } chunk output = .ok (s', output') ∧
      output.Wrote w output' ∧ w.length = 1008 := by
  have hb : BLOCK_SIZE ≤ chunk.remaining := by
    rw [hchunk]
    decide
  by_cases hchain : Chains k
  · have hfed := fed_of_initDecrypt (P := P) hchain hnew hiv
    have hfits : ([] : Bytes).length + chunk.remaining ≤ output.remaining + ([] : Bytes).length := by
      rw [hchunk]
      simpa using hroom
    obtain ⟨⟨s', output'⟩, hup⟩ := hfed.updateDecrypt_ok hb hfits
    obtain ⟨w, hw, hpast, _⟩ := hfed.updateDecrypt hb hup
    refine ⟨s', output', w, hup, hw, ?_⟩
    obtain ⟨c, pre, _, hpre, hd⟩ := hpast.cipher
    have hlen := hd.length_out
    rw [List.nil_append, List.nil_append, List.length_append, List.length_append, hpre, hiv, ByteBuffer.length_rest, hchunk] at hlen
    have hheld : held 16 (16 + 1024) = 1024 := by decide
    omega
  · obtain ⟨b, hget, _, hp, hl, _⟩ := ByteBuffer.get_ok hb
    have hbrem : b.remaining = 1008 := by
      have hbs : BLOCK_SIZE = 16 := rfl
      rw [ByteBuffer.remaining_eq] at hchunk ⊢
      omega
    have hctr := ctr_of_new hchain hnew
    have hfits : b.remaining ≤ output.remaining := by omega
    obtain ⟨s', output', w, hup, hw, hlen⟩ := decryptingUpdate_of_ctr (P := P)
      (s := { AesStream.discard P { s.discard P iv with ivRead := true } (chunk.rest.take BLOCK_SIZE) with ivRead := false })
      (by simp only [AesStream.discard, hctr, Cipher.decryptUpdate]; rfl) hfits
    refine ⟨s', output', w, ?_, hw, hlen.trans hbrem⟩
    unfold AesStream.updateDecrypt
    rw [if_pos ⟨rfl, hb⟩, hget]
    simp only [hup]

end AesStream

end Java
