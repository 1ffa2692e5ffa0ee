import Keyczar.Lib.Bytes

/-!
# Cipher block chaining over an abstract block cipher

A block cipher is a permutation of the strings of one length. Chaining is defined on byte strings, block by block; what is
proved is that chaining splits over concatenations at block boundaries, that decryption undoes encryption, and that padding
is undone by unpadding. `Chain` is the cipher object of a library: it takes its input in pieces, keeps what it cannot process
yet, and its outputs put together are the one-shot result (`Chain.Fed`).
-/

namespace Cbc

open Bytes

/-- A permutation of the strings of length `n`, given with its inverse. -/
structure BlockCipher (n : Nat) where
  encrypt : Bytes → Bytes
  decrypt : Bytes → Bytes
  length_encrypt : ∀ b, b.length = n → (encrypt b).length = n
  length_decrypt : ∀ b, b.length = n → (decrypt b).length = n
  decrypt_encrypt : ∀ b, b.length = n → decrypt (encrypt b) = b

variable {n : Nat} (c : BlockCipher n)

/-! ## Chaining -/

/-- Encrypt `k` blocks: each is combined with the block of ciphertext before it, the first with `iv`. -/
def encryptBlocks : Nat → Bytes → Bytes → Bytes
  | 0, _, _ => []
  | k + 1, iv, data =>
    let block := c.encrypt (xor (data.take n) iv)
    block ++ encryptBlocks k block (data.drop n)

/-- Decrypt `k` blocks. -/
def decryptBlocks : Nat → Bytes → Bytes → Bytes
  | 0, _, _ => []
  | k + 1, iv, data => xor (c.decrypt (data.take n)) iv ++ decryptBlocks k (data.take n) (data.drop n)

/-- Encrypt the whole blocks of a string. -/
def encrypt (iv data : Bytes) : Bytes := encryptBlocks c (data.length / n) iv data

/-- Decrypt the whole blocks of a string. -/
def decrypt (iv data : Bytes) : Bytes := decryptBlocks c (data.length / n) iv data

/-- The last block of ciphertext once `data` has been processed from `iv`: what the next block is chained to. -/
def lastBlock (iv data : Bytes) : Bytes := (iv ++ data).drop data.length

@[simp] theorem lastBlock_nil (iv : Bytes) : lastBlock iv [] = iv := by
  simp [lastBlock]

@[simp] theorem length_lastBlock (iv data : Bytes) : (lastBlock iv data).length = iv.length := by
  simp [lastBlock]

theorem lastBlock_append (iv x y : Bytes) : lastBlock iv (x ++ y) = lastBlock (lastBlock iv x) y := by
  simp only [lastBlock, List.length_append]
  rw [← List.append_assoc, ← List.drop_drop, List.drop_append_of_le_length (by simp)]

/-- After exactly one block the next is chained to that block. -/
theorem lastBlock_block {iv x : Bytes} (h : x.length = iv.length) : lastBlock iv x = x := by
  simp [lastBlock, h]

variable {c}

theorem length_encryptBlocks {k : Nat} {iv data : Bytes} (hiv : iv.length = n) (hd : data.length = k * n) :
    (encryptBlocks c k iv data).length = k * n := by
  induction k generalizing iv data with
  | zero => simp [encryptBlocks]
  | succ k ih =>
    rw [Nat.succ_mul] at hd
    have ht : (data.take n).length = n := by simp; omega
    have hb : (c.encrypt (xor (data.take n) iv)).length = n :=
      c.length_encrypt _ (by rw [length_xor, ht, hiv, Nat.min_self])
    simp only [encryptBlocks, List.length_append, hb]
    rw [ih hb (by simp; omega), Nat.succ_mul]
    omega

theorem length_decryptBlocks {k : Nat} {iv data : Bytes} (hiv : iv.length = n) (hd : data.length = k * n) :
    (decryptBlocks c k iv data).length = k * n := by
  induction k generalizing iv data with
  | zero => simp [decryptBlocks]
  | succ k ih =>
    rw [Nat.succ_mul] at hd
    have ht : (data.take n).length = n := by simp; omega
    have hb := c.length_decrypt _ ht
    simp only [decryptBlocks, List.length_append, length_xor, hb, hiv, Nat.min_self]
    rw [ih ht (by simp; omega), Nat.succ_mul]
    omega

/-- Decryption undoes encryption, block by block. -/
theorem decryptBlocks_encryptBlocks {k : Nat} {iv data : Bytes} (hiv : iv.length = n) (hd : data.length = k * n) :
    decryptBlocks c k iv (encryptBlocks c k iv data) = data := by
  induction k generalizing iv data with
  | zero => exact (List.eq_nil_of_length_eq_zero (by omega : data.length = 0)).symm
  | succ k ih =>
    rw [Nat.succ_mul] at hd
    have ht : (data.take n).length = n := by simp; omega
    have hx : (xor (data.take n) iv).length = n := by rw [length_xor, ht, hiv, Nat.min_self]
    have hb := c.length_encrypt _ hx
    simp only [decryptBlocks, encryptBlocks]
    rw [List.take_left' hb, List.drop_left' hb, c.decrypt_encrypt _ hx, xor_xor_cancel (ht.trans hiv.symm),
      ih hb (by simp; omega), List.take_append_drop]

/-- The first `n * k` bytes are all that the first `k` blocks depend on; the rest is chained to the last of them. -/
theorem decryptBlocks_add {k m : Nat} {iv x y : Bytes} (hiv : iv.length = n) (hx : x.length = k * n) :
    decryptBlocks c (k + m) iv (x ++ y) = decryptBlocks c k iv x ++ decryptBlocks c m (lastBlock iv x) y := by
  induction k generalizing iv x with
  | zero =>
    have : x = [] := List.eq_nil_of_length_eq_zero (by omega)
    subst this
    simp [decryptBlocks]
  | succ k ih =>
    rw [Nat.succ_mul] at hx
    have hn : n ≤ x.length := by omega
    have ht : (x.take n).length = n := by simp; omega
    have hl : lastBlock iv x = lastBlock (x.take n) (x.drop n) := by
      conv_lhs => rw [← List.take_append_drop n x]
      rw [lastBlock_append, lastBlock_block (ht.trans hiv.symm)]
    rw [Nat.succ_add]
    simp only [decryptBlocks, List.append_assoc]
    rw [List.take_append_of_le_length hn, List.drop_append_of_le_length hn, ih ht (by simp; omega), hl]

theorem encryptBlocks_add {k m : Nat} {iv x y : Bytes} (hiv : iv.length = n) (hx : x.length = k * n) :
    encryptBlocks c (k + m) iv (x ++ y) =
      encryptBlocks c k iv x ++ encryptBlocks c m (lastBlock iv (encryptBlocks c k iv x)) y := by
  induction k generalizing iv x with
  | zero =>
    have : x = [] := List.eq_nil_of_length_eq_zero (by omega)
    subst this
    simp [encryptBlocks]
  | succ k ih =>
    rw [Nat.succ_mul] at hx
    have hn : n ≤ x.length := by omega
    have ht : (x.take n).length = n := by simp; omega
    have hb : (c.encrypt (xor (x.take n) iv)).length = n :=
      c.length_encrypt _ (by rw [length_xor, ht, hiv, Nat.min_self])
    rw [Nat.succ_add]
    simp only [encryptBlocks, List.append_assoc]
    rw [List.take_append_of_le_length hn, List.drop_append_of_le_length hn, ih hb (by simp; omega), lastBlock_append,
      lastBlock_block (hb.trans hiv.symm)]

/-! ## Whole strings -/

theorem length_encrypt {iv data : Bytes} (hiv : iv.length = n) (hd : n ∣ data.length) :
    (encrypt c iv data).length = data.length := by
  rw [encrypt, length_encryptBlocks hiv (Nat.div_mul_cancel hd).symm, Nat.div_mul_cancel hd]

theorem length_decrypt {iv data : Bytes} (hiv : iv.length = n) (hd : n ∣ data.length) :
    (decrypt c iv data).length = data.length := by
  rw [decrypt, length_decryptBlocks hiv (Nat.div_mul_cancel hd).symm, Nat.div_mul_cancel hd]

/-- Decryption undoes encryption. -/
theorem decrypt_encrypt {iv data : Bytes} (hiv : iv.length = n) (hd : n ∣ data.length) :
    decrypt c iv (encrypt c iv data) = data := by
  rw [decrypt, length_encrypt hiv hd, encrypt, decryptBlocks_encryptBlocks hiv (Nat.div_mul_cancel hd).symm]

@[simp] theorem decrypt_nil (iv : Bytes) : decrypt c iv [] = [] := by
  simp [decrypt, decryptBlocks]

@[simp] theorem encrypt_nil (iv : Bytes) : encrypt c iv [] = [] := by
  simp [encrypt, encryptBlocks]

/-- Chained decryption of two pieces is decryption of their concatenation. -/
theorem decrypt_append {iv x y : Bytes} (hiv : iv.length = n) (hx : n ∣ x.length) :
    decrypt c iv (x ++ y) = decrypt c iv x ++ decrypt c (lastBlock iv x) y := by
  obtain rfl | hn := Nat.eq_zero_or_pos n
  · have : x = [] := List.eq_nil_of_length_eq_zero (Nat.eq_zero_of_zero_dvd hx)
    subst this
    simp
  · have hl : (x ++ y).length / n = x.length / n + y.length / n := by
      obtain ⟨k, hk⟩ := hx
      rw [List.length_append, hk, Nat.mul_add_div hn, Nat.mul_div_cancel_left _ hn]
    simp only [decrypt]
    rw [hl, decryptBlocks_add hiv (Nat.div_mul_cancel hx).symm]

/-- Chained encryption of two pieces is encryption of their concatenation. -/
theorem encrypt_append {iv x y : Bytes} (hiv : iv.length = n) (hx : n ∣ x.length) :
    encrypt c iv (x ++ y) = encrypt c iv x ++ encrypt c (lastBlock iv (encrypt c iv x)) y := by
  obtain rfl | hn := Nat.eq_zero_or_pos n
  · have : x = [] := List.eq_nil_of_length_eq_zero (Nat.eq_zero_of_zero_dvd hx)
    subst this
    simp
  · have hl : (x ++ y).length / n = x.length / n + y.length / n := by
      obtain ⟨k, hk⟩ := hx
      rw [List.length_append, hk, Nat.mul_add_div hn, Nat.mul_div_cancel_left _ hn]
    simp only [encrypt]
    rw [hl, encryptBlocks_add hiv (Nat.div_mul_cancel hx).symm]

/-! ## Padding to whole blocks -/

/-- How many bytes are added to a string of length `len`: between one and `n`. -/
def padLength (n len : Nat) : Nat := n - len % n

/-- Add `p` bytes of value `p`, where `p` fills the last block, or is a block of its own. -/
def pad (n : Nat) (data : Bytes) : Bytes :=
  data ++ List.replicate (padLength n data.length) (UInt8.ofNat (padLength n data.length))

/-- Remove the padding, after checking all of it; `none` when it is not well formed. -/
def unpad? (n : Nat) (data : Bytes) : Option Bytes :=
  match data.getLast? with
  | none => none
  | some b =>
    if 1 ≤ b.toNat ∧ b.toNat ≤ n ∧ b.toNat ≤ data.length ∧
        data.drop (data.length - b.toNat) = List.replicate b.toNat b then
      some (data.take (data.length - b.toNat))
    else none

theorem padLength_pos {n : Nat} (hn : 0 < n) (len : Nat) : 0 < padLength n len := by
  have := Nat.mod_lt len hn
  unfold padLength
  omega

theorem padLength_le (n len : Nat) : padLength n len ≤ n := Nat.sub_le _ _

/-- Whole blocks in front do not change the padding. -/
theorem padLength_sub {n a b : Nat} (hdvd : n ∣ a) (hle : a ≤ b) : padLength n (b - a) = padLength n b := by
  obtain ⟨k, rfl⟩ := hdvd
  obtain ⟨j, rfl⟩ := Nat.exists_eq_add_of_le hle
  rw [padLength, padLength, Nat.add_sub_cancel_left, Nat.mul_add_mod]

@[simp] theorem length_pad (n : Nat) (data : Bytes) : (pad n data).length = data.length + padLength n data.length := by
  simp [pad]

/-- A padded string is made of whole blocks: one more than the whole blocks of the data. -/
theorem length_pad_eq {n : Nat} (hn : 0 < n) (data : Bytes) : (pad n data).length = (data.length / n + 1) * n := by
  have h1 := Nat.div_add_mod data.length n
  have h2 := Nat.mod_lt data.length hn
  rw [length_pad, padLength, Nat.succ_mul, Nat.mul_comm]
  omega

theorem dvd_length_pad {n : Nat} (hn : 0 < n) (data : Bytes) : n ∣ (pad n data).length :=
  ⟨data.length / n + 1, by rw [length_pad_eq hn, Nat.mul_comm]⟩

theorem pad_ne_nil {n : Nat} (hn : 0 < n) (data : Bytes) : pad n data ≠ [] := by
  intro h
  have h1 := congrArg List.length h
  have h2 := padLength_pos hn data.length
  simp only [length_pad, List.length_nil] at h1
  omega

/-- The last byte of a padded string is the length of its padding. -/
theorem getLast?_pad {n : Nat} (hn : 0 < n) (data : Bytes) :
    (pad n data).getLast? = some (UInt8.ofNat (padLength n data.length)) := by
  have h := padLength_pos hn data.length
  unfold pad
  rw [List.getLast?_append, List.getLast?_replicate, if_neg (by omega)]
  rfl

/-- Padding does not reach across a block boundary in front of it. -/
theorem pad_append {n : Nat} {x : Bytes} (hx : n ∣ x.length) (y : Bytes) : pad n (x ++ y) = x ++ pad n y := by
  have : padLength n (x ++ y).length = padLength n y.length := by
    obtain ⟨k, hk⟩ := hx
    rw [padLength, padLength, List.length_append, hk, Nat.mul_add_mod]
  unfold pad
  rw [this, List.append_assoc]

/-- Unpadding makes nothing longer. -/
theorem length_of_unpad? {n : Nat} {data rest : Bytes} (h : unpad? n data = some rest) : rest.length ≤ data.length := by
  unfold unpad? at h
  split at h
  · cases h
  · split at h
    · cases h
      rw [List.length_take]
      exact Nat.min_le_right _ _
    · cases h

/-- Unpadding a padded string gives the string back, for blocks of fewer than 256 bytes. -/
theorem unpad?_pad {n : Nat} (hn : 0 < n) (hn' : n < 256) (data : Bytes) : unpad? n (pad n data) = some data := by
  have h1 := padLength_pos hn data.length
  have h2 := padLength_le n data.length
  have h3 : (UInt8.ofNat (padLength n data.length)).toNat = padLength n data.length := by
    rw [UInt8.toNat_ofNat']
    omega
  have hsub : (pad n data).length - padLength n data.length = data.length := by rw [length_pad]; omega
  unfold unpad?
  rw [getLast?_pad hn]
  simp only [h3, hsub]
  rw [if_pos]
  · simp [pad]
  · refine ⟨h1, h2, by rw [length_pad]; omega, ?_⟩
    simp [pad]

end Cbc
