import Keyczar.Python.StreamWriter

/-!
# Flushing a writer again

A flush pads and encrypts what was kept back and leaves it where it is. So every further flush encrypts it again, chained to what was put
out before, and signs all that was put out but the signatures: what is delivered then is not a ciphertext of what was written.
-/

namespace Python

open Bytes Cbc

namespace EncryptingStreamWriter

variable (P : Primitives)

/-- So many flushes in a row. -/
def flushes : Nat → EncryptingStreamWriter → Except PyError EncryptingStreamWriter
  | 0, w => .ok w
  | n + 1, w => w.flush P >>= flushes n

/-- The bytes that reach a fresh output stream when a string is written in pieces and then flushed so many times. -/
def deliveredBy (key : AesKey) (ivBytes : Bytes) (pieces : List Bytes) (n : Nat) : Except PyError Bytes := do
  let w ← init P key [] ivBytes
  let w ← pieces.foldlM (EncryptingStreamWriter.write P) w
  let w ← flushes P n w
  return w.outputStream

/-! ## What further flushes put out -/

section Again

variable (key : AesKey) (ivBytes seen : Bytes)

/-- The block that the first flush, and then so many others, end with. -/
def lastBlockAt : Nat → Bytes
  | 0 => lastBlock ivBytes (Cbc.encrypt (P.aes key.keyBytes) ivBytes (Cbc.pad 16 seen))
  | k + 1 => Cbc.encrypt (P.aes key.keyBytes) (lastBlockAt k) (Cbc.pad 16 (seen.drop (CipherStream.whole 16 seen.length)))

/-- What is under the last signature after the first flush and so many others. -/
def underSignature : Nat → Bytes
  | 0 => header (key.hash P) ++ ivBytes ++ Cbc.encrypt (P.aes key.keyBytes) ivBytes (Cbc.pad 16 seen)
  | k + 1 => underSignature k ++ lastBlockAt P key ivBytes seen (k + 1)

/-- What lies between the initial vector and the last signature. -/
def payloadAt : Nat → Bytes
  | 0 => Cbc.encrypt (P.aes key.keyBytes) ivBytes (Cbc.pad 16 seen)
  | k + 1 => payloadAt k ++ key.hmacKey.sign P (underSignature P key ivBytes seen k) ++ lastBlockAt P key ivBytes seen (k + 1)

/-- What is delivered by the first flush and so many others. -/
def deliveredAt (k : Nat) : Bytes :=
  header (key.hash P) ++ ivBytes ++ payloadAt P key ivBytes seen k ++ key.hmacKey.sign P (underSignature P key ivBytes seen k)

/-- The bytes that were kept back fill one block with their padding. -/
theorem length_pad_rest (seen : Bytes) : (Cbc.pad 16 (seen.drop (CipherStream.whole 16 seen.length))).length = 16 := by
  have hlt := Nat.mod_lt seen.length (show 0 < 16 by decide)
  have hmod := Nat.div_add_mod seen.length 16
  rw [length_pad_eq (by decide), List.length_drop, CipherStream.whole, Nat.div_eq_of_lt (by omega)]

variable {P key ivBytes seen}

theorem length_lastBlockAt (hiv : ivBytes.length = 16) (k : Nat) : (lastBlockAt P key ivBytes seen k).length = 16 := by
  induction k with
  | zero => exact (length_lastBlock _ _).trans hiv
  | succ k ih => rw [lastBlockAt, Cbc.length_encrypt ih (dvd_length_pad (by decide) _), length_pad_rest]

theorem length_payloadAt (hiv : ivBytes.length = 16) (k : Nat) :
    (payloadAt P key ivBytes seen k).length = (Cbc.pad 16 seen).length + 36 * k := by
  induction k with
  | zero => exact Cbc.length_encrypt hiv (dvd_length_pad (by decide) _)
  | succ k ih =>
    rw [payloadAt, List.length_append, List.length_append, ih, length_lastBlockAt hiv, HmacKey.sign, P.length_hmacSha1]
    omega

/-- The ciphertext of what was written comes first. -/
theorem payloadAt_eq (k : Nat) :
    ∃ rest, payloadAt P key ivBytes seen k = Cbc.encrypt (P.aes key.keyBytes) ivBytes (Cbc.pad 16 seen) ++ rest := by
  induction k with
  | zero => exact ⟨[], (List.append_nil _).symm⟩
  | succ k ih =>
    obtain ⟨rest, hrest⟩ := ih
    exact ⟨_, by rw [payloadAt, hrest, List.append_assoc, List.append_assoc]⟩

end Again

/-! ## Flushing -/

/-- A writer that was given `seen` was flushed, and then `k` times again: its buffer is still there. -/
structure Flushed (key : AesKey) (ivBytes seen : Bytes) (k : Nat) (w : EncryptingStreamWriter) : Prop where
  closed_eq : w.closed = false
  key_eq : w.cipher.key = key.keyBytes
  hmacKey_eq : w.hmacStream.hmacKey = key.hmacKey
  chain_eq : w.cipher.chain = lastBlockAt P key ivBytes seen k
  data_eq : w.data = seen.drop (CipherStream.whole 16 seen.length)
  signed_eq : w.hmacStream.data = underSignature P key ivBytes seen k
  outputStream_eq : w.outputStream = deliveredAt P key ivBytes seen k

variable {P} {key : AesKey} {ivBytes seen : Bytes} {w : EncryptingStreamWriter}

/-- The first flush. -/
theorem Written.flushed (h : Written P key [] ivBytes seen w) : ∃ w', w.flush P = .ok w' ∧ Flushed P key ivBytes seen 0 w' := by
  obtain ⟨out, hencrypting, hdata⟩ := h.encrypting
  have hfinal : out ++ CipherStream.encryptFinal (P.aes w.cipher.key) w.stream [] =
      Cbc.encrypt (P.aes key.keyBytes) ivBytes (Cbc.pad 16 seen) := by
    rw [h.key_eq, hencrypting.final [], List.append_nil]
  have hsigned : w.hmacStream.data ++ CipherStream.encryptFinal (P.aes w.cipher.key) w.stream [] = underSignature P key ivBytes seen 0 := by
    rw [hdata, List.append_assoc, hfinal]
    rfl
  have hchain : lastBlock w.cipher.chain (CipherStream.encryptFinal (P.aes w.cipher.key) w.stream []) = lastBlockAt P key ivBytes seen 0 := by
    rw [lastBlockAt, ← hfinal, lastBlock_append]
    exact congrArg (lastBlock · _) hencrypting.chain_eq
  refine ⟨_, flush_eq P h.closed_eq, h.closed_eq, h.key_eq, h.hmacKey_eq, hchain, hencrypting.buffer_eq, hsigned, ?_⟩
  simp only [deliver, HmacKeyStream.update, HmacKeyStream.sign, h.hmacKey_eq, h.outputStream_eq, List.nil_append, hsigned]
  rfl

/-- A flush after a flush. -/
theorem Flushed.flush (hiv : ivBytes.length = 16) {k : Nat} (h : Flushed P key ivBytes seen k w) :
    ∃ w', w.flush P = .ok w' ∧ Flushed P key ivBytes seen (k + 1) w' := by
  have hfinal : CipherStream.encryptFinal (P.aes w.cipher.key) w.stream [] = lastBlockAt P key ivBytes seen (k + 1) := by
    have hchain : w.stream.chain = lastBlockAt P key ivBytes seen k := h.chain_eq
    have hbuffer : w.stream.buffer = seen.drop (CipherStream.whole 16 seen.length) := h.data_eq
    rw [CipherStream.encryptFinal, h.key_eq, hchain, hbuffer, List.append_nil, lastBlockAt]
  have hsigned : w.hmacStream.data ++ CipherStream.encryptFinal (P.aes w.cipher.key) w.stream [] =
      underSignature P key ivBytes seen (k + 1) := by
    rw [hfinal, h.signed_eq, underSignature]
  have hchain : lastBlock w.cipher.chain (CipherStream.encryptFinal (P.aes w.cipher.key) w.stream []) =
      lastBlockAt P key ivBytes seen (k + 1) := by
    rw [hfinal, lastBlock_block]
    rw [h.chain_eq, length_lastBlockAt hiv, length_lastBlockAt hiv]
  refine ⟨_, flush_eq P h.closed_eq, h.closed_eq, h.key_eq, h.hmacKey_eq, hchain, h.data_eq, hsigned, ?_⟩
  simp only [deliver, HmacKeyStream.update, HmacKeyStream.sign, h.hmacKey_eq, hsigned]
  rw [hfinal, h.outputStream_eq, deliveredAt, deliveredAt, payloadAt]
  simp only [List.append_assoc]

theorem Flushed.flushes (hiv : ivBytes.length = 16) {k : Nat} (h : Flushed P key ivBytes seen k w) (n : Nat) :
    ∃ w', flushes P n w = .ok w' ∧ Flushed P key ivBytes seen (k + n) w' := by
  induction n generalizing k w with
  | zero => exact ⟨w, rfl, h⟩
  | succ n ih =>
    obtain ⟨w', hw', h'⟩ := h.flush hiv
    obtain ⟨w'', hw'', h''⟩ := ih h'
    refine ⟨w'', ?_, by rwa [Nat.add_right_comm, Nat.add_assoc] at h''⟩
    rw [EncryptingStreamWriter.flushes, hw']
    exact hw''

/-- What one flush and so many others deliver. -/
theorem deliveredBy_succ (hkey : validKeyLength key.keyBytes.length = true) (hiv : ivBytes.length = 16) (pieces : List Bytes) (k : Nat) :
    deliveredBy P key ivBytes pieces (k + 1) = .ok (deliveredAt P key ivBytes pieces.flatten k) := by
  obtain ⟨w, hw, hwritten⟩ : ∃ w, init P key [] ivBytes = .ok w ∧ Written P key [] ivBytes [] w := written_init hkey hiv
  obtain ⟨w₁, hw₁, hwritten₁⟩ := hwritten.writes pieces
  obtain ⟨w₂, hw₂, hflushed⟩ := hwritten₁.flushed
  obtain ⟨w₃, hw₃, hflushed'⟩ := hflushed.flushes hiv k
  rw [List.nil_append, Nat.zero_add] at hflushed'
  have hflushes : flushes P (k + 1) w₁ = .ok w₃ := by
    rw [flushes, hw₂]
    exact hw₃
  simp only [deliveredBy, hw, hw₁, hflushes, bind, Except.bind, pure, Except.pure, hflushed'.outputStream_eq]

/-! ## Decrypting it -/

/-- How much `_UnPad` leaves of what ends in a byte. -/
def kept (len : Nat) (pad : UInt8) : Nat := if pad = 0 then 0 else len - pad.toNat

theorem unPad_eq_ok_iff {padded data rest : Bytes} (hsplit : padded = data ++ rest) :
    AesKey.unPad padded = .ok data ↔ ∃ pad, padded.getLast? = some pad ∧ kept padded.length pad = data.length := by
  unfold AesKey.unPad
  cases hlast : padded.getLast? with
  | none =>
    constructor
    · intro h
      cases h
    · rintro ⟨pad, h, -⟩
      cases h
  | some pad =>
    have hkept : sliceTo padded (-(pad.toNat : Int)) = padded.take (kept padded.length pad) := by
      rw [AesKey.sliceTo_neg_toNat, kept]
      split
      · rfl
      · rfl
    simp only [hkept, Except.ok.injEq, Option.some.injEq, exists_eq_left']
    constructor
    · intro h
      have hlength := congrArg List.length h
      rw [List.length_take, Nat.min_eq_left] at hlength
      · exact hlength
      · unfold kept
        split <;> omega
    · intro h
      rw [h, hsplit, List.take_left' rfl]

variable (P key ivBytes seen) in
/-- The signature and the padding of what was flushed `n` times happen to be those of a ciphertext: the number of bytes is right, the HMAC
does not tell what was delivered from what was signed, and the last byte cuts off all but what was written. -/
def FlushesCoincide (n : Nat) : Prop :=
  4 ∣ n - 1 ∧
  key.hmacKey.sign P (header (key.hash P) ++ ivBytes ++ payloadAt P key ivBytes seen (n - 1)) =
    key.hmacKey.sign P (underSignature P key ivBytes seen (n - 1)) ∧
  ∃ pad, (Cbc.decrypt (P.aes key.keyBytes) ivBytes (payloadAt P key ivBytes seen (n - 1))).getLast? = some pad ∧
    kept (payloadAt P key ivBytes seen (n - 1)).length pad = seen.length

/-- When what is delivered by `k` flushes behind the first is decrypted to what was written. -/
theorem decrypt_deliveredAt_iff (hkey : validKeyLength key.keyBytes.length = true) (hiv : ivBytes.length = 16) (k : Nat) :
    key.decrypt P (deliveredAt P key ivBytes seen k) = .ok seen ↔ FlushesCoincide P key ivBytes seen (k + 1) := by
  have hlength : (payloadAt P key ivBytes seen k).length = (Cbc.pad 16 seen).length + 36 * k := length_payloadAt hiv k
  have hdvd := dvd_length_pad (n := 16) (by decide) seen
  have hparts := AesKey.decrypt_parts P key (header (key.hash P)) ivBytes (payloadAt P key ivBytes seen k)
    (key.hmacKey.sign P (underSignature P key ivBytes seen k)) (AesKey.length_header P key) hiv (P.length_hmacSha1 _ _)
  rw [deliveredAt, hparts, FlushesCoincide, Nat.add_sub_cancel]
  by_cases hsign : key.hmacKey.sign P (header (key.hash P) ++ ivBytes ++ payloadAt P key ivBytes seen k) =
      key.hmacKey.sign P (underSignature P key ivBytes seen k)
  · rw [if_neg (not_not_intro hsign), if_neg (not_not_intro hkey)]
    by_cases hk : 4 ∣ k
    · have hblocks : 16 ∣ (payloadAt P key ivBytes seen k).length := by omega
      obtain ⟨rest, hrest⟩ : ∃ rest, payloadAt P key ivBytes seen k =
          Cbc.encrypt (P.aes key.keyBytes) ivBytes (Cbc.pad 16 seen) ++ rest := payloadAt_eq k
      have hplain : Cbc.decrypt (P.aes key.keyBytes) ivBytes (payloadAt P key ivBytes seen k) =
          seen ++ (List.replicate (padLength 16 seen.length) (UInt8.ofNat (padLength 16 seen.length)) ++
            Cbc.decrypt (P.aes key.keyBytes) (lastBlock ivBytes (Cbc.encrypt (P.aes key.keyBytes) ivBytes (Cbc.pad 16 seen))) rest) := by
        rw [hrest, Cbc.decrypt_append hiv (by rwa [Cbc.length_encrypt hiv hdvd]), Cbc.decrypt_encrypt hiv hdvd, Cbc.pad,
          List.append_assoc]
      rw [if_neg (not_not_intro (Nat.mod_eq_zero_of_dvd hblocks)), unPad_eq_ok_iff hplain, Cbc.length_decrypt hiv hblocks]
      exact ⟨fun h => ⟨hk, hsign, h⟩, fun h => h.2.2⟩
    · rw [if_pos (by omega)]
      exact iff_of_false (fun h => by cases h) fun h => hk h.1
  · rw [if_pos hsign]
    exact iff_of_false (fun h => by cases h) fun h => hsign h.2.1

/-- What is written in any pieces and flushed is decrypted to what was written exactly when it was flushed once, or the signature and the
padding of the last flush happen to be right. -/
theorem flushes_decrypt_iff (P : Primitives) {key : AesKey} (hkey : validKeyLength key.keyBytes.length = true) (iv : IvBytes)
    (pieces : List Bytes) {n : Nat} (hn : 1 ≤ n) {s : Keyczar AesKey} (hs : s.getKey (.hash (key.hashId P)) = .ok key) :
    ∃ c, deliveredBy P key iv.val pieces n = .ok c ∧
      (Crypter.decrypt (aesKeys P) s c none = .ok pieces.flatten ↔ n = 1 ∨ FlushesCoincide P key iv.val pieces.flatten n) := by
  obtain ⟨k, rfl⟩ := Nat.exists_eq_succ_of_ne_zero (Nat.ne_zero_of_lt hn)
  refine ⟨_, deliveredBy_succ hkey iv.property pieces k, ?_⟩
  have hheader : (deliveredAt P key iv.val pieces.flatten k).take HEADER_SIZE = (aesKeys P).header key := by
    rw [deliveredAt, List.append_assoc, List.append_assoc]
    exact List.take_left' (AesKey.length_header P key)
  have hdecrypt : Crypter.decrypt (aesKeys P) s (deliveredAt P key iv.val pieces.flatten k) none =
      key.decrypt P (deliveredAt P key iv.val pieces.flatten k) := by
    have hget : s.getKey (.hash ((aesKeys P).hashId key)) = .ok key := hs
    rw [Crypter.decrypt_of_header s hheader, hget]
    rfl
  rw [hdecrypt, decrypt_deliveredAt_iff hkey iv.property k]
  constructor
  · exact Or.inr
  · rintro (hone | hcoincide)
    · obtain rfl : k = 0 := Nat.succ.inj hone
      exact (decrypt_deliveredAt_iff hkey iv.property 0).mp (AesKey.decrypt_ciphertext P key iv.property _ hkey)
    · exact hcoincide

/-- Three bytes in two pieces, flushed once. -/
theorem flushes_decrypt_iff_once :
    ∃ c, deliveredBy Primitives.plain secondAesKey (List.replicate 16 0) [[1], [2, 3]] 1 = .ok c ∧
      Crypter.decrypt (aesKeys Primitives.plain) collidingSet c none = .ok [1, 2, 3] := by
  have hkey : validKeyLength secondAesKey.keyBytes.length = true := rfl
  obtain ⟨c, hc, hiff⟩ := flushes_decrypt_iff Primitives.plain hkey ⟨List.replicate 16 0, rfl⟩ [[1], [2, 3]] (Nat.le_refl 1)
    (s := collidingSet) rfl
  exact ⟨c, hc, hiff.mpr (Or.inl rfl)⟩

/-- Three bytes, flushed twice. -/
theorem second_flush_is_not_decrypted :
    ∃ c, deliveredBy Primitives.plain secondAesKey (List.replicate 16 0) [[1, 2, 3]] 2 = .ok c ∧
      Crypter.decrypt (aesKeys Primitives.plain) collidingSet c none ≠ .ok [1, 2, 3] :=
  ⟨_, rfl, by decide⟩

end EncryptingStreamWriter

end Python
