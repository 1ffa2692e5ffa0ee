import Keyczar.Lib.Cbc

/-!
# Cipher objects that take their input in pieces

A cipher object of a cryptographic library: chaining mode, padded. `update` takes a piece of the input and returns what can
be processed so far; when decrypting, the last whole block is held back, because it may be the padding. `final` ends the
message. `Decrypting` and `Encrypting` say what an object has seen and returned, and the lemmas about them say that the
pieces put together are the one-shot result, however the input was cut.
-/

namespace Cbc

open Bytes

/-- A cipher object: the block the next one is chained to, and the input not yet processed. -/
structure CipherStream where
  chain : Bytes
  buffer : Bytes
  deriving DecidableEq, Repr

/-- Why a final call fails. -/
inductive CipherError where
  | illegalBlockSize | badPadding
  deriving DecidableEq, Repr

namespace CipherStream

variable {n : Nat} (c : BlockCipher n)

/-- A fresh object for an initial vector. -/
def init (iv : Bytes) : CipherStream := { chain := iv, buffer := [] }

/-- How much of `len` bytes is processed when whole blocks are, short of the last one. -/
def held (n len : Nat) : Nat := (len - n) / n * n

/-- How much of `len` bytes is processed when whole blocks are. -/
def whole (n len : Nat) : Nat := len / n * n

/-- Decrypt a piece. -/
def decryptUpdate (s : CipherStream) (data : Bytes) : Bytes × CipherStream :=
  let total := s.buffer ++ data
  let now := total.take (held n total.length)
  (Cbc.decrypt c s.chain now, { chain := lastBlock s.chain now, buffer := total.drop (held n total.length) })

/-- Decrypt the last piece and remove the padding. With nothing to decrypt there is nothing to unpad. -/
def decryptFinal (s : CipherStream) (data : Bytes) : Except CipherError Bytes :=
  let total := s.buffer ++ data
  if total.length % n ≠ 0 then .error .illegalBlockSize
  else if total = [] then .ok []
  else match unpad? n (Cbc.decrypt c s.chain total) with
    | none => .error .badPadding
    | some plain => .ok plain

/-- Encrypt a piece. -/
def encryptUpdate (s : CipherStream) (data : Bytes) : Bytes × CipherStream :=
  let total := s.buffer ++ data
  let out := Cbc.encrypt c s.chain (total.take (whole n total.length))
  (out, { chain := lastBlock s.chain out, buffer := total.drop (whole n total.length) })

/-- Pad and encrypt the last piece. -/
def encryptFinal (s : CipherStream) (data : Bytes) : Bytes := Cbc.encrypt c s.chain (pad n (s.buffer ++ data))

/-! ## What a decrypting object has seen -/

theorem held_le (n len : Nat) : held n len ≤ len :=
  Nat.le_trans (Nat.div_mul_le_self _ _) (Nat.sub_le _ _)

theorem dvd_held (n len : Nat) : n ∣ held n len := Nat.dvd_mul_left _ _

theorem whole_le (n len : Nat) : whole n len ≤ len := Nat.div_mul_le_self _ _

theorem dvd_whole (n len : Nat) : n ∣ whole n len := Nat.dvd_mul_left _ _

/-- Holding back depends only on how much was seen, not on how it was cut. -/
theorem held_add (n len len' : Nat) : held n len + held n (len - held n len + len') = held n (len + len') := by
  obtain rfl | hn := Nat.eq_zero_or_pos n
  · simp [held]
  · unfold held
    by_cases h : len < n
    · have h0 : (len - n) / n = 0 := by rw [Nat.sub_eq_zero_of_le (by omega), Nat.zero_div]
      simp [h0]
    · have hd := Nat.div_add_mod (len - n) n
      rw [Nat.mul_comm] at hd
      generalize hq : (len - n) / n * n = q at hd
      have h1 : len - q + len' - n = (len + len' - n) - q := by omega
      have h2 : q = n * ((len - n) / n) := by rw [← hq, Nat.mul_comm]
      rw [h1]
      conv_lhs => rw [h2]
      rw [Nat.sub_mul_div, Nat.sub_mul, Nat.mul_comm n]
      have h3 : (len - n) / n ≤ (len + len' - n) / n := Nat.div_le_div_right (by omega)
      have h4 := Nat.mul_le_mul_right n h3
      omega

theorem whole_add (n len len' : Nat) : whole n len + whole n (len - whole n len + len') = whole n (len + len') := by
  obtain rfl | hn := Nat.eq_zero_or_pos n
  · simp [whole]
  · unfold whole
    have hd := Nat.div_add_mod len n
    rw [Nat.mul_comm] at hd
    have h1 : len - len / n * n + len' = len + len' - n * (len / n) := by rw [Nat.mul_comm n]; omega
    rw [h1, Nat.sub_mul_div, Nat.sub_mul]
    have h3 : len / n ≤ (len + len') / n := Nat.div_le_div_right (by omega)
    have h4 := Nat.mul_le_mul_right n h3
    omega

/-- A decrypting object started from `iv` has seen `seen` and returned `out`. -/
structure Decrypting (iv seen out : Bytes) (s : CipherStream) : Prop where
  iv_length : iv.length = n
  out_eq : out = Cbc.decrypt c iv (seen.take (held n seen.length))
  chain_eq : s.chain = lastBlock iv (seen.take (held n seen.length))
  buffer_eq : s.buffer = seen.drop (held n seen.length)

variable {c}

theorem decrypting_init {iv : Bytes} (h : iv.length = n) : Decrypting c iv [] [] (init iv) :=
  ⟨h, by simp, by simp [init], by simp [init]⟩

/-- One more piece: the object has seen it and has returned what the update returned. -/
theorem Decrypting.update {iv seen out : Bytes} {s : CipherStream} (h : Decrypting c iv seen out s) (data : Bytes) :
    Decrypting c iv (seen ++ data) (out ++ (decryptUpdate c s data).1) (decryptUpdate c s data).2 := by
  have hle := held_le n seen.length
  have hl : (s.buffer ++ data).length = seen.length - held n seen.length + data.length := by
    rw [List.length_append, h.buffer_eq, List.length_drop]
  have hadd := held_add n seen.length data.length
  rw [← hl] at hadd
  have hd : n ∣ (seen.take (held n seen.length)).length := by
    rw [List.length_take, Nat.min_eq_left hle]
    exact dvd_held n _
  have htake : (seen ++ data).take (held n (seen ++ data).length) =
      seen.take (held n seen.length) ++ (s.buffer ++ data).take (held n (s.buffer ++ data).length) := by
    rw [List.length_append, ← hadd, List.take_add, List.take_append_of_le_length hle,
      List.drop_append_of_le_length hle, h.buffer_eq]
  have hdrop : (seen ++ data).drop (held n (seen ++ data).length) =
      (s.buffer ++ data).drop (held n (s.buffer ++ data).length) := by
    rw [List.length_append, ← hadd, ← List.drop_drop, List.drop_append_of_le_length hle, h.buffer_eq]
  refine ⟨h.iv_length, ?_, ?_, ?_⟩
  · rw [htake, Cbc.decrypt_append h.iv_length hd, h.out_eq, decryptUpdate, h.chain_eq]
  · rw [htake, lastBlock_append, decryptUpdate, h.chain_eq]
  · rw [hdrop, decryptUpdate]

/-- What was returned is the decryption of part of what was seen, all but the last block and what does not fill a block. -/
theorem Decrypting.length_out {iv seen out : Bytes} {s : CipherStream} (h : Decrypting c iv seen out s) :
    out.length = held n seen.length := by
  have hle := held_le n seen.length
  have hl : (seen.take (held n seen.length)).length = held n seen.length := by simp [hle]
  rw [h.out_eq, Cbc.length_decrypt h.iv_length (by rw [hl]; exact dvd_held n _), hl]

/-- The message decrypts to what was returned, followed by the decryption of what the object still holds and of the last
piece. -/
theorem Decrypting.decrypt_eq {iv seen out : Bytes} {s : CipherStream} (h : Decrypting c iv seen out s) (data : Bytes) :
    Cbc.decrypt c iv (seen ++ data) = out ++ Cbc.decrypt c s.chain (s.buffer ++ data) := by
  have hle := held_le n seen.length
  have hd : n ∣ (seen.take (held n seen.length)).length := by
    rw [List.length_take, Nat.min_eq_left hle]
    exact dvd_held n _
  calc Cbc.decrypt c iv (seen ++ data)
      = Cbc.decrypt c iv (seen.take (held n seen.length) ++ (seen.drop (held n seen.length) ++ data)) := by
        rw [← List.append_assoc, List.take_append_drop]
    _ = out ++ Cbc.decrypt c s.chain (s.buffer ++ data) := by
        rw [Cbc.decrypt_append h.iv_length hd, ← h.out_eq, ← h.chain_eq, ← h.buffer_eq]

/-- When the message decrypts to a padded plaintext, the final call returns what of the plaintext was not returned before. -/
theorem Decrypting.final {iv seen out data plain : Bytes} {s : CipherStream} (h : Decrypting c iv seen out s)
    (hn : 0 < n) (hn' : n < 256) (hd : n ∣ (seen ++ data).length)
    (hp : Cbc.decrypt c iv (seen ++ data) = pad n plain) :
    ∃ rest, decryptFinal c s data = .ok rest ∧ plain = out ++ rest := by
  have hout := h.length_out
  have hle := held_le n seen.length
  have hbuf : (s.buffer ++ data).length = (seen ++ data).length - held n seen.length := by
    rw [List.length_append, h.buffer_eq, List.length_drop, List.length_append]
    omega
  have hdvd : n ∣ (s.buffer ++ data).length := by
    rw [hbuf]
    exact Nat.dvd_sub hd (dvd_held n _)
  have hlen : (seen ++ data).length = plain.length + padLength n plain.length := by
    rw [← Cbc.length_decrypt (c := c) h.iv_length hd, hp, length_pad]
  have hpos := padLength_pos hn plain.length
  have hpl := padLength_le n plain.length
  -- the object always holds a block back, so what it returned lies in the plaintext and not in the padding
  have hge : n ≤ (s.buffer ++ data).length := by
    have : 0 < (s.buffer ++ data).length := by
      rw [hbuf, List.length_append]
      have : held n seen.length ≤ seen.length - n := Nat.div_mul_le_self _ _
      by_cases hs : seen.length < n
      · have : held n seen.length = 0 := by
          unfold held
          rw [Nat.sub_eq_zero_of_le (by omega), Nat.zero_div, Nat.zero_mul]
        rw [List.length_append] at hlen
        omega
      · omega
    exact Nat.le_of_dvd this hdvd
  have heq := h.decrypt_eq data
  rw [hp] at heq
  have hprefix : out.length ≤ plain.length := by
    rw [hbuf] at hge
    omega
  obtain ⟨rest, hrest⟩ : out <+: plain := by
    have h1 : out <+: pad n plain := ⟨_, heq.symm⟩
    have h2 : plain <+: pad n plain := ⟨_, rfl⟩
    exact List.prefix_of_prefix_length_le h1 h2 hprefix
  have hpad : pad n plain = out ++ pad n rest := by
    rw [← hrest, pad_append]
    rw [hout]
    exact dvd_held n _
  have hdec : Cbc.decrypt c s.chain (s.buffer ++ data) = pad n rest := by
    rw [hpad] at heq
    exact (List.append_cancel_left heq).symm
  refine ⟨rest, ?_, hrest.symm⟩
  have hmod : ¬((s.buffer ++ data).length % n ≠ 0) := by
    rw [Nat.eq_zero_of_dvd_of_lt (Nat.dvd_mod_iff (Nat.dvd_refl n) |>.mpr hdvd) (Nat.mod_lt _ hn)]
    simp
  have hne : s.buffer ++ data ≠ [] := by
    intro h0
    rw [h0] at hge
    simp at hge
    omega
  simp only [decryptFinal, hdec, unpad?_pad hn hn', if_neg hmod, if_neg hne]

/-! ## Whole blocks -/

theorem held_block (n : Nat) : held n n = 0 := by
  rw [held, Nat.sub_self, Nat.zero_div, Nat.zero_mul]

theorem held_two_blocks (hn : 0 < n) : held n (n + n) = n := by
  rw [held, Nat.add_sub_cancel, Nat.div_self hn, Nat.one_mul]

/-- An object that holds nothing keeps a block back. -/
theorem decryptUpdate_of_nil {s : CipherStream} (hbuffer : s.buffer = []) {block : Bytes} (hblock : block.length = n) :
    (decryptUpdate c s block).2 = { chain := s.chain, buffer := block } := by
  have htotal : s.buffer ++ block = block := by rw [hbuffer, List.nil_append]
  simp only [decryptUpdate, htotal, hblock, held_block, List.take_zero, List.drop_zero, lastBlock_nil]

/-- An object that holds a block lets it go for the next one, and what it was chained to before is forgotten. -/
theorem decryptUpdate_of_block (hn : 0 < n) {s : CipherStream} (hchain : s.chain.length = n) (hbuffer : s.buffer.length = n)
    {block : Bytes} (hblock : block.length = n) : (decryptUpdate c s block).2 = { chain := s.buffer, buffer := block } := by
  have hlength : (s.buffer ++ block).length = n + n := by rw [List.length_append, hbuffer, hblock]
  simp only [decryptUpdate, hlength, held_two_blocks hn, List.take_left' hbuffer, List.drop_left' hbuffer,
    lastBlock_block (hbuffer.trans hchain.symm)]

/-! ## What an encrypting object has seen -/

variable (c)

/-- An encrypting object started from `iv` has seen `seen` and returned `out`. -/
structure Encrypting (iv seen out : Bytes) (s : CipherStream) : Prop where
  iv_length : iv.length = n
  out_eq : out = Cbc.encrypt c iv (seen.take (whole n seen.length))
  chain_eq : s.chain = lastBlock iv out
  buffer_eq : s.buffer = seen.drop (whole n seen.length)

variable {c}

theorem encrypting_init {iv : Bytes} (h : iv.length = n) : Encrypting c iv [] [] (init iv) :=
  ⟨h, by simp, by simp [init], by simp [init]⟩

theorem Encrypting.dvd_seen {iv seen out : Bytes} {s : CipherStream} (_ : Encrypting c iv seen out s) :
    n ∣ (seen.take (whole n seen.length)).length := by
  rw [List.length_take, Nat.min_eq_left (whole_le n _)]
  exact dvd_whole n _

theorem Encrypting.length_out {iv seen out : Bytes} {s : CipherStream} (h : Encrypting c iv seen out s) :
    out.length = whole n seen.length := by
  rw [h.out_eq, Cbc.length_encrypt h.iv_length h.dvd_seen, List.length_take, Nat.min_eq_left (whole_le n _)]

/-- One more piece. -/
theorem Encrypting.update {iv seen out : Bytes} {s : CipherStream} (h : Encrypting c iv seen out s) (data : Bytes) :
    Encrypting c iv (seen ++ data) (out ++ (encryptUpdate c s data).1) (encryptUpdate c s data).2 := by
  have hle := whole_le n seen.length
  have hl : (s.buffer ++ data).length = seen.length - whole n seen.length + data.length := by
    rw [List.length_append, h.buffer_eq, List.length_drop]
  have hadd := whole_add n seen.length data.length
  rw [← hl] at hadd
  have htake : (seen ++ data).take (whole n (seen ++ data).length) =
      seen.take (whole n seen.length) ++ (s.buffer ++ data).take (whole n (s.buffer ++ data).length) := by
    rw [List.length_append, ← hadd, List.take_add, List.take_append_of_le_length hle,
      List.drop_append_of_le_length hle, h.buffer_eq]
  have hdrop : (seen ++ data).drop (whole n (seen ++ data).length) =
      (s.buffer ++ data).drop (whole n (s.buffer ++ data).length) := by
    rw [List.length_append, ← hadd, ← List.drop_drop, List.drop_append_of_le_length hle, h.buffer_eq]
  refine ⟨h.iv_length, ?_, ?_, ?_⟩
  · rw [htake, Cbc.encrypt_append h.iv_length h.dvd_seen, ← h.out_eq, encryptUpdate, h.chain_eq]
  · rw [lastBlock_append, encryptUpdate, h.chain_eq]
  · rw [hdrop, encryptUpdate]

/-- All that was returned, with the final call, is the encryption of the padded message. -/
theorem Encrypting.final {iv seen out : Bytes} {s : CipherStream} (h : Encrypting c iv seen out s) (data : Bytes) :
    out ++ encryptFinal c s data = Cbc.encrypt c iv (pad n (seen ++ data)) := by
  have hsplit : seen ++ data = seen.take (whole n seen.length) ++ (s.buffer ++ data) := by
    rw [h.buffer_eq, ← List.append_assoc, List.take_append_drop]
  rw [hsplit, pad_append h.dvd_seen, Cbc.encrypt_append h.iv_length h.dvd_seen, ← h.out_eq, ← h.chain_eq, encryptFinal]

end CipherStream

end Cbc
