import Keyczar.Lib.CipherStream
import Keyczar.Python.Crypter

/-!
# The encrypting stream writer

`EncryptingStreamWriter` encrypts what is written to it as soon as it fills whole blocks and keeps the rest for the next write; the
padding and the signature follow at the flush. However a string is cut into writes, the bytes delivered are those of
`AesKey.Encrypt`.
-/

namespace Python

open Bytes Cbc

/-- The attributes of a writer; of its output stream, the bytes that were delivered to it. -/
structure EncryptingStreamWriter where
  key : AesKey
  outputStream : Bytes
  data : Bytes := []
  closed : Bool := false
  hmacStream : HmacKeyStream
  cipher : AesCipher
  deriving DecidableEq, Repr

namespace EncryptingStreamWriter

variable (P : Primitives)

/-- The constructor, with the random bytes it draws for the initial vector. -/
def init (key : AesKey) (outputStream ivBytes : Bytes) : Except PyError EncryptingStreamWriter := do
  let hmacStream : HmacKeyStream := { hmacKey := key.hmacKey }
  let cipher ← AesCipher.new key.keyBytes ivBytes
  let hdr := header (key.hash P)
  return { key, cipher, hmacStream := hmacStream.update (hdr ++ ivBytes), outputStream := outputStream ++ (hdr ++ ivBytes) }

/-- `__CheckOpen`. -/
def checkOpen (w : EncryptingStreamWriter) : Except PyError Unit := if w.closed then .error .valueError else .ok ()

/-- `__WriteEncrypted`. -/
def writeEncrypted (w : EncryptingStreamWriter) (data : Bytes) (pad : Bool) : Except PyError EncryptingStreamWriter := do
  let data := if pad then AesKey.pad data else data
  let (encryptedBytes, cipher) ← w.cipher.encrypt P data
  return { w with
    cipher, outputStream := w.outputStream ++ encryptedBytes, hmacStream := w.hmacStream.update encryptedBytes }

/-- `write`. -/
def write (w : EncryptingStreamWriter) (data : Bytes) : Except PyError EncryptingStreamWriter := do
  w.checkOpen
  let w := { w with data := w.data ++ data }
  let encryptBufferSize := AesKey.noPadBufferSize w.data.length
  if encryptBufferSize ≤ w.data.length then do
    let w ← w.writeEncrypted P (sliceTo w.data encryptBufferSize) false
    return { w with data := sliceFrom w.data encryptBufferSize }
  else return { w with data := sliceFrom w.data 0 }

/-- `flush`. -/
def flush (w : EncryptingStreamWriter) : Except PyError EncryptingStreamWriter := do
  w.checkOpen
  let w ← w.writeEncrypted P w.data true
  return { w with outputStream := w.outputStream ++ w.hmacStream.sign P }

/-- `close`. -/
def close (w : EncryptingStreamWriter) : Except PyError EncryptingStreamWriter := do
  w.checkOpen
  return { w with closed := true }

end EncryptingStreamWriter

/-- `Encrypter.CreateEncryptingStreamWriter` without an encoder. -/
def Encrypter.createEncryptingStreamWriter (P : Primitives) (s : Keyczar AesKey) (outputStream : Bytes) (ivBytes : Bytes) :
    Except PyError EncryptingStreamWriter := do
  let encryptingKey ← s.primaryKey
  EncryptingStreamWriter.init P encryptingKey outputStream ivBytes

namespace EncryptingStreamWriter

variable (P : Primitives)

/-! ## The writer as a cipher object -/

/-- The chaining state and the bytes kept back make up a cipher object of the library. -/
def stream (w : EncryptingStreamWriter) : CipherStream := { chain := w.cipher.chain, buffer := w.data }

/-- What a writer puts out: the bytes go to the output stream and under the signature, and the cipher object is in a new state. -/
def deliver (w : EncryptingStreamWriter) (out : Bytes) (s : CipherStream) : EncryptingStreamWriter :=
  { w with
    outputStream := w.outputStream ++ out, hmacStream := w.hmacStream.update out, data := s.buffer
    cipher := { w.cipher with chain := s.chain } }

@[simp] theorem deliver_key (w : EncryptingStreamWriter) (out : Bytes) (s : CipherStream) : (w.deliver out s).key = w.key := rfl

@[simp] theorem deliver_closed (w : EncryptingStreamWriter) (out : Bytes) (s : CipherStream) :
    (w.deliver out s).closed = w.closed := rfl

@[simp] theorem deliver_cipher_key (w : EncryptingStreamWriter) (out : Bytes) (s : CipherStream) :
    (w.deliver out s).cipher.key = w.cipher.key := rfl

@[simp] theorem deliver_stream (w : EncryptingStreamWriter) (out : Bytes) (s : CipherStream) : (w.deliver out s).stream = s := rfl

/-- The buffer size of a string of at least a block is that of its whole blocks. -/
theorem noPadBufferSize_of_le {len : Nat} (h : 16 ≤ len) : AesKey.noPadBufferSize len = (CipherStream.whole 16 len : Nat) := by
  simp only [AesKey.noPadBufferSize, AesKey.blockSize, CipherStream.whole]
  omega

theorem noPadBufferSize_of_lt {len : Nat} (h : len < 16) : AesKey.noPadBufferSize len = 16 := by
  simp only [AesKey.noPadBufferSize, AesKey.blockSize]
  omega

/-- A string that does not fill a block stays in the buffer. -/
theorem encryptUpdate_of_lt {c : BlockCipher 16} {s : CipherStream} {data : Bytes} (h : (s.buffer ++ data).length < 16) :
    CipherStream.encryptUpdate c s data = ([], { s with buffer := s.buffer ++ data }) := by
  have hw : CipherStream.whole 16 (s.buffer ++ data).length = 0 := by
    rw [CipherStream.whole, Nat.div_eq_of_lt h, Nat.zero_mul]
  simp only [CipherStream.encryptUpdate, hw, List.take_zero, List.drop_zero, encrypt_nil, lastBlock_nil]

/-- A write is an update of the cipher object. -/
theorem write_eq {w : EncryptingStreamWriter} (hopen : w.closed = false) (data : Bytes) :
    w.write P data = .ok (w.deliver (CipherStream.encryptUpdate (P.aes w.cipher.key) w.stream data).1
      (CipherStream.encryptUpdate (P.aes w.cipher.key) w.stream data).2) := by
  by_cases hlen : (w.data ++ data).length < 16
  · have hsize : ¬ AesKey.noPadBufferSize (w.data ++ data).length ≤ ((w.data ++ data).length : Int) := by
      rw [noPadBufferSize_of_lt hlen]
      omega
    have hupdate : CipherStream.encryptUpdate (P.aes w.cipher.key) w.stream data =
        ([], { w.stream with buffer := w.stream.buffer ++ data }) := encryptUpdate_of_lt hlen
    have hfrom : sliceFrom (w.data ++ data) 0 = w.data ++ data := sliceFrom_nat _ 0
    simp only [write, checkOpen, hopen, Bool.false_eq_true, if_false, if_neg hsize, hupdate, hfrom, bind, Except.bind, pure,
      Except.pure]
    simp [deliver, stream, HmacKeyStream.update, hopen]
  · have hsize := noPadBufferSize_of_le (Nat.le_of_not_lt hlen)
    have hle := CipherStream.whole_le 16 (w.data ++ data).length
    have hdvd : 16 ∣ ((w.data ++ data).take (CipherStream.whole 16 (w.data ++ data).length)).length := by
      rw [List.length_take, Nat.min_eq_left hle]
      exact CipherStream.dvd_whole 16 _
    have henc := AesCipher.encrypt_of_dvd P (c := w.cipher) hdvd
    simp only [write, writeEncrypted, checkOpen, hopen, Bool.false_eq_true, if_false, hsize, Int.ofNat_le, if_pos hle,
      sliceTo_nat, sliceFrom_nat, henc, bind, Except.bind, pure, Except.pure]
    simp only [deliver, hopen]
    rfl

/-- A flush pads what was kept back, encrypts it and signs all that was put out. -/
theorem flush_eq {w : EncryptingStreamWriter} (hopen : w.closed = false) :
    w.flush P = .ok (let out := CipherStream.encryptFinal (P.aes w.cipher.key) w.stream []
      let w' := w.deliver out { chain := lastBlock w.cipher.chain out, buffer := w.data }
      { w' with outputStream := w'.outputStream ++ w'.hmacStream.sign P }) := by
  have henc := AesCipher.encrypt_of_dvd P (c := w.cipher) (dvd_length_pad (n := 16) (by decide) w.data)
  have hfinal : CipherStream.encryptFinal (P.aes w.cipher.key) w.stream [] =
      Cbc.encrypt (P.aes w.cipher.key) w.cipher.chain (Cbc.pad 16 w.data) := by
    simp [CipherStream.encryptFinal, stream]
  simp only [flush, writeEncrypted, checkOpen, hopen, Bool.false_eq_true, if_false, if_true, AesKey.pad, AesKey.blockSize, henc,
    hfinal, bind, Except.bind, pure, Except.pure]
  simp only [deliver, hopen]

/-! ## What a writer has put out -/

/-- A writer for a key, started on an output stream with the bytes `start`, was given `seen`: it has put out the header, the initial
vector and the encryption of the whole blocks, and all of it is under the signature. -/
structure Written (key : AesKey) (start ivBytes seen : Bytes) (w : EncryptingStreamWriter) : Prop where
  closed_eq : w.closed = false
  key_eq : w.cipher.key = key.keyBytes
  hmacKey_eq : w.hmacStream.hmacKey = key.hmacKey
  outputStream_eq : w.outputStream = start ++ w.hmacStream.data
  encrypting : ∃ out, CipherStream.Encrypting (P.aes key.keyBytes) ivBytes seen out w.stream ∧
    w.hmacStream.data = header (key.hash P) ++ ivBytes ++ out

variable {P} {key : AesKey} {start ivBytes seen : Bytes} {w : EncryptingStreamWriter}

/-- A new writer has put out the header and the initial vector. -/
theorem written_init (hkey : validKeyLength key.keyBytes.length = true) (hiv : ivBytes.length = 16) :
    ∃ w, init P key start ivBytes = .ok w ∧ Written P key start ivBytes [] w := by
  simp only [init, AesCipher.new, hkey, if_true]
  exact ⟨_, rfl, rfl, rfl, rfl, rfl, [], CipherStream.encrypting_init hiv, by simp [HmacKeyStream.update]⟩

/-- Putting out the next bytes of the encryption. -/
theorem Written.write (h : Written P key start ivBytes seen w) (data : Bytes) :
    ∃ w', w.write P data = .ok w' ∧ Written P key start ivBytes (seen ++ data) w' := by
  obtain ⟨out, hencrypting, hdata⟩ := h.encrypting
  refine ⟨_, write_eq P h.closed_eq data, h.closed_eq, h.key_eq, h.hmacKey_eq, ?_,
    out ++ (CipherStream.encryptUpdate (P.aes w.cipher.key) w.stream data).1, ?_, ?_⟩
  · simp [deliver, HmacKeyStream.update, h.outputStream_eq]
  · simpa only [deliver_stream, h.key_eq] using hencrypting.update data
  · simp [deliver, HmacKeyStream.update, hdata]

/-- Writing the pieces of a string one after another. -/
theorem Written.writes (h : Written P key start ivBytes seen w) (pieces : List Bytes) :
    ∃ w', pieces.foldlM (EncryptingStreamWriter.write P) w = .ok w' ∧
      Written P key start ivBytes (seen ++ pieces.flatten) w' := by
  induction pieces generalizing seen w with
  | nil => exact ⟨w, rfl, by simpa using h⟩
  | cons piece pieces ih =>
    obtain ⟨w', hw', h'⟩ := h.write piece
    obtain ⟨w'', hw'', h''⟩ := ih h'
    refine ⟨w'', ?_, by simpa using h''⟩
    simp only [List.foldlM_cons, hw', bind, Except.bind]
    exact hw''

/-- A flush completes the ciphertext of what was written. -/
theorem Written.flush (h : Written P key start ivBytes seen w) :
    ∃ w', w.flush P = .ok w' ∧ w'.outputStream = start ++ key.ciphertext P ivBytes seen := by
  obtain ⟨out, hencrypting, hdata⟩ := h.encrypting
  have hfinal : out ++ CipherStream.encryptFinal (P.aes w.cipher.key) w.stream [] =
      Cbc.encrypt (P.aes key.keyBytes) ivBytes (Cbc.pad 16 seen) := by
    rw [h.key_eq, hencrypting.final [], List.append_nil]
  have hmsg : w.hmacStream.data ++ CipherStream.encryptFinal (P.aes w.cipher.key) w.stream [] =
      header (key.hash P) ++ ivBytes ++ Cbc.encrypt (P.aes key.keyBytes) ivBytes (Cbc.pad 16 seen) := by
    rw [hdata, List.append_assoc, hfinal]
  refine ⟨_, flush_eq P h.closed_eq, ?_⟩
  simp only [deliver, HmacKeyStream.update, HmacKeyStream.sign, HmacKey.sign, h.outputStream_eq, h.hmacKey_eq, AesKey.ciphertext]
  rw [List.append_assoc start, hmsg, List.append_assoc start]

/-- The bytes that reach a fresh output stream when a string is written in pieces and flushed. -/
def delivered (P : Primitives) (key : AesKey) (ivBytes : Bytes) (pieces : List Bytes) : Except PyError Bytes := do
  let w ← init P key [] ivBytes
  let w ← pieces.foldlM (EncryptingStreamWriter.write P) w
  let w ← w.flush P
  return w.outputStream

/-- What is delivered for a key that the cipher takes. -/
theorem delivered_eq (hkey : validKeyLength key.keyBytes.length = true) (hiv : ivBytes.length = 16) (pieces : List Bytes) :
    delivered P key ivBytes pieces = .ok (key.ciphertext P ivBytes pieces.flatten) := by
  obtain ⟨w, hw, hwritten⟩ : ∃ w, init P key [] ivBytes = .ok w ∧ Written P key [] ivBytes [] w := written_init hkey hiv
  obtain ⟨w', hw', hwritten'⟩ := hwritten.writes pieces
  obtain ⟨w'', hw'', hout⟩ := hwritten'.flush
  simp only [delivered, hw, hw', hw'', hout, bind, Except.bind, pure, Except.pure, List.nil_append]

/-- A writer delivers what the key encrypts the whole string to; a key that the cipher does not take is refused by both. -/
theorem delivered_eq_keyEncrypt (iv : IvBytes) (pieces : List Bytes) :
    delivered P key iv.val pieces = key.encrypt P iv.val pieces.flatten := by
  by_cases hkey : validKeyLength key.keyBytes.length = true
  · rw [delivered_eq hkey iv.property, AesKey.encrypt_eq P key iv.val _ hkey]
  · have hnew : AesCipher.new key.keyBytes iv.val = .error .valueError := if_neg hkey
    simp only [delivered, init, AesKey.encrypt, hnew, bind, Except.bind]

/-- A string written in any pieces and flushed once is delivered as what the key encrypts it to in one call, with the same initial
vector: the header, the initial vector, the encryption of the padded string and the signature of all that, which a key set that
finds the key under its identifier decrypts to the string. Something is delivered for every key that the cipher takes. -/
theorem delivered_eq_encrypt (P : Primitives) (key : AesKey) (iv : IvBytes) (pieces : List Bytes) :
    delivered P key iv.val pieces = key.encrypt P iv.val pieces.flatten ∧
    (∀ c, delivered P key iv.val pieces = .ok c →
      (let msg := header (key.hash P) ++ iv.val ++ Cbc.encrypt (P.aes key.keyBytes) iv.val (AesKey.pad pieces.flatten)
       c = msg ++ key.hmacKey.sign P msg) ∧
      ∀ s : Keyczar AesKey, s.getKey (.hash (key.hashId P)) = .ok key →
        Crypter.decrypt (aesKeys P) s c none = .ok pieces.flatten) ∧
    (validKeyLength key.keyBytes.length = true → ∃ c, delivered P key iv.val pieces = .ok c) := by
  have hencrypt : delivered P key iv.val pieces = key.encrypt P iv.val pieces.flatten := delivered_eq_keyEncrypt iv pieces
  refine ⟨hencrypt, ?_, fun hkey => ⟨_, delivered_eq hkey iv.property pieces⟩⟩
  intro c hc
  have hkey : validKeyLength key.keyBytes.length = true := by
    by_contra hkey
    have hnew : AesCipher.new key.keyBytes iv.val = .error .valueError := if_neg hkey
    simp only [delivered, init, hnew, bind, Except.bind] at hc
    cases hc
  have hciphertext : c = key.ciphertext P iv.val pieces.flatten := Except.ok.inj (hc.symm.trans (delivered_eq hkey iv.property pieces))
  refine ⟨hciphertext, ?_⟩
  intro s hs
  have hheader := (aesKeys_lawful P).encrypt_header (r := iv) (hencrypt.symm.trans hc)
  have hget : s.getKey (.hash ((aesKeys P).hashId key)) = .ok key := hs
  rw [Crypter.decrypt_of_header s hheader, hget, hciphertext]
  exact AesKey.decrypt_ciphertext P key iv.property _ hkey

/-- Writes of 3, 0 and 20 bytes with the second of the two keys of a set, decrypted with the set. -/
theorem delivered_eq_encrypt_second :
    ∃ c, delivered Primitives.plain secondAesKey (List.replicate 16 0) [[1, 2, 3], [], List.replicate 20 7] = .ok c ∧
      Crypter.decrypt (aesKeys Primitives.plain) collidingSet c none = .ok ([1, 2, 3] ++ List.replicate 20 7) := by
  obtain ⟨-, hparts, hvalid⟩ := delivered_eq_encrypt Primitives.plain secondAesKey ⟨List.replicate 16 0, rfl⟩
    [[1, 2, 3], [], List.replicate 20 7]
  obtain ⟨c, hc⟩ := hvalid rfl
  exact ⟨c, hc, (hparts c hc).2 collidingSet rfl⟩

end EncryptingStreamWriter

/-- A key set's writer delivers what its `Encrypt` returns. -/
theorem Encrypter.createEncryptingStreamWriter_delivers (P : Primitives) (s : Keyczar AesKey) (iv : IvBytes)
    (pieces : List Bytes) :
    (do
      let w ← Encrypter.createEncryptingStreamWriter P s [] iv.val
      let w ← pieces.foldlM (EncryptingStreamWriter.write P) w
      let w ← w.flush P
      return w.outputStream) = Encrypter.encrypt (aesKeys P) s iv pieces.flatten none := by
  cases hkey : s.primaryKey with
  | error e => simp only [createEncryptingStreamWriter, encrypt, hkey, bind, Except.bind]
  | ok key =>
    have hwriter : Encrypter.createEncryptingStreamWriter P s [] iv.val = EncryptingStreamWriter.init P key [] iv.val := by
      simp only [createEncryptingStreamWriter, hkey, bind, Except.bind]
    have hencrypt : Encrypter.encrypt (aesKeys P) s iv pieces.flatten none = key.encrypt P iv.val pieces.flatten := by
      simp only [encrypt, encodeWith, aesKeys, hkey, bind, Except.bind]
      cases key.encrypt P iv.val pieces.flatten <;> rfl
    rw [hwriter, hencrypt]
    exact EncryptingStreamWriter.delivered_eq_keyEncrypt iv pieces

end Python
