import Keyczar.Java.ByteBuffer
import Keyczar.Lib.CipherStream
import Keyczar.Primitives

/-!
# The keys of the Java library, and their streams

A key gives out streams that encrypt, decrypt and sign. The stream of an AES key starts both of its ciphers from a zero vector and
passes the initial vector through them as a block of the message; what comes out for it is discarded. The cipher objects are those
of the platform's provider: a buffer call first asks for room for the output size that the provider announces, and a final call
that fails writes nothing.
-/

namespace Java

open Bytes

/-- The `int` that an arithmetic result wraps to. -/
def toInt32 (x : Int) : Int := x.bmod (2 ^ 32)

theorem toInt32_of_lt {n : Nat} (h : n < 2 ^ 31) : toInt32 n = n := by
  unfold toInt32
  rw [Int.bmod_eq_of_le] <;> omega

/-- From `2 ^ 31` on a size is negative. -/
theorem toInt32_neg {n : Nat} (h : 2 ^ 31 ≤ n) (h' : n < 2 ^ 32) : toInt32 n < 0 := by
  have hmod : toInt32 n % ((2 ^ 32 : Nat) : Int) = n % ((2 ^ 32 : Nat) : Int) := Int.bmod_emod
  have hlt : toInt32 n < ((2 ^ 32 : Nat) + 1) / 2 := Int.bmod_lt (by decide)
  omega

/-! ## Ciphers -/

inductive CipherMode where
  | cbc | ctr | ecb | detCbc
  deriving DecidableEq, Repr

/-- `getOutputSize`. -/
def CipherMode.getOutputSize (mode : CipherMode) (blockSize inputLength : Nat) : Nat :=
  match mode with
  | .cbc => (inputLength / blockSize + 2) * blockSize
  | .ecb => blockSize
  | .ctr => inputLength + blockSize / 2
  | .detCbc => (inputLength / blockSize + 1) * blockSize

/-- The exceptions of the cipher objects. -/
inductive GeneralSecurityException where
  | shortBuffer | illegalBlockSize | badPadding | invalidKey | invalidParameter
  deriving DecidableEq, Repr

def BLOCK_SIZE : Nat := 16

/-- The lengths of an AES key. -/
def validKeyLength (n : Nat) : Bool := n = 16 || n = 24 || n = 32

/-- A cipher object: chaining with padding, or counting without, where it is known how many bytes were processed. -/
inductive Cipher where
  | cbc (stream : Cbc.CipherStream)
  | ctr (done : Nat)
  deriving DecidableEq, Repr

namespace Cipher

/-- `getInstance` and `init` with a zero vector. A mode without a vector refuses one. -/
def init (mode : CipherMode) (key : Bytes) : Except GeneralSecurityException Cipher :=
  if !validKeyLength key.length then .error .invalidKey
  else match mode with
    | .cbc | .detCbc => .ok (.cbc (.init (List.replicate BLOCK_SIZE 0)))
    | .ctr => .ok (.ctr 0)
    | .ecb => .error .invalidParameter

variable (P : Primitives) (key : Bytes)

/-- The counter as a block. -/
def counter (i : Nat) : Bytes := (List.range BLOCK_SIZE).map fun j => UInt8.ofNat (i / 256 ^ (BLOCK_SIZE - 1 - j))

/-- `n` bytes of the key stream of the counting mode. -/
def keyStream (done n : Nat) : Bytes :=
  (List.range n).map fun j => ((P.aes key).encrypt (counter ((done + j) / BLOCK_SIZE))).getD ((done + j) % BLOCK_SIZE) 0

/-- `update` of a decrypting object. -/
def decryptUpdate (c : Cipher) (data : Bytes) : Bytes × Cipher :=
  match c with
  | .cbc s => let (out, s) := s.decryptUpdate (P.aes key) data; (out, .cbc s)
  | .ctr done => (xor data (keyStream P key done data.length), .ctr (done + data.length))

/-- `doFinal` of a decrypting object. -/
def decryptFinal (c : Cipher) (data : Bytes) : Except GeneralSecurityException Bytes :=
  match c with
  | .cbc s =>
    match s.decryptFinal (P.aes key) data with
    | .ok out => .ok out
    | .error .illegalBlockSize => .error .illegalBlockSize
    | .error .badPadding => .error .badPadding
  | .ctr done => .ok (xor data (keyStream P key done data.length))

/-- `getOutputSize` of a decrypting object. -/
def decryptSize (c : Cipher) (inputLen : Nat) : Nat :=
  match c with
  | .cbc s => s.buffer.length + inputLen
  | .ctr _ => inputLen

/-- `update` of an encrypting object. -/
def encryptUpdate (c : Cipher) (data : Bytes) : Bytes × Cipher :=
  match c with
  | .cbc s => let (out, s) := s.encryptUpdate (P.aes key) data; (out, .cbc s)
  | .ctr done => (xor data (keyStream P key done data.length), .ctr (done + data.length))

/-- `doFinal` of an encrypting object. -/
def encryptFinal (c : Cipher) (data : Bytes) : Bytes :=
  match c with
  | .cbc s => s.encryptFinal (P.aes key) data
  | .ctr done => xor data (keyStream P key done data.length)

/-- `getOutputSize` of an encrypting object: the padding is counted. -/
def encryptSize (c : Cipher) (inputLen : Nat) : Nat :=
  match c with
  | .cbc s => s.buffer.length + inputLen + Cbc.padLength BLOCK_SIZE (s.buffer.length + inputLen)
  | .ctr _ => inputLen

end Cipher

/-- The part of a buffer call that is the same for every cipher: room for `size` bytes is asked for, then `out` is put. -/
def transfer (size : Nat) (out : Bytes) (output : ByteBuffer) : Except GeneralSecurityException ByteBuffer :=
  if output.remaining < size then .error .shortBuffer
  else match output.put out with
    | .ok output => .ok output
    | .error _ => .error .shortBuffer

theorem wrote_of_transfer {size : Nat} {out : Bytes} {output output' : ByteBuffer} (h : transfer size out output = .ok output') :
    output.Wrote out output' := by
  unfold transfer at h
  split at h
  · cases h
  · split at h
    · cases h
      exact ByteBuffer.wrote_of_put ‹_›
    · cases h

theorem mark_of_transfer {size : Nat} {out : Bytes} {output output' : ByteBuffer} (h : transfer size out output = .ok output') :
    output'.mark = output.mark := by
  unfold transfer at h
  split at h
  · cases h
  · split at h
    · cases h
      exact ByteBuffer.mark_of_put ‹_›
    · cases h

theorem transfer_ok {n : Nat} {o : Bytes} {output : ByteBuffer} (h : n ≤ output.remaining) (ho : o.length ≤ n) :
    ∃ output', transfer n o output = .ok output' := by
  obtain ⟨output', hput, _⟩ := ByteBuffer.put_ok (b := output) (w := o) (by omega)
  refine ⟨output', ?_⟩
  simp only [transfer, if_neg (Nat.not_lt.mpr h), hput]

/-- Without the room that is asked for nothing is put. -/
theorem transfer_error {n : Nat} {o : Bytes} {output : ByteBuffer} (h : output.remaining < n) :
    transfer n o output = .error .shortBuffer :=
  if_pos h

def KEY_HASH_SIZE : Nat := 4

/-! ## HMAC keys -/

/-- An HMAC key; the platform refuses an empty one. -/
structure HmacKey where
  keyBytes : Bytes
  ne_nil : keyBytes ≠ []
  deriving DecidableEq, Repr

def HmacKey.hash (P : Primitives) (k : HmacKey) : Bytes := (P.sha1 k.keyBytes).take KEY_HASH_SIZE

def HMAC_DIGEST_SIZE : Nat := 20

/-- `HmacStream`: what was signed since `initSign`. -/
structure HmacStream where
  hmacKey : HmacKey
  data : Bytes := []
  deriving DecidableEq, Repr

namespace HmacStream

def initSign (s : HmacStream) : HmacStream := { s with data := [] }

/-- `updateSign` with the bytes left in the input. That the call moves the input to its end is left to the callers, who drop the
buffer or set its position. -/
def updateSign (s : HmacStream) (input : ByteBuffer) : HmacStream := { s with data := s.data ++ input.rest }

/-- The signature that `sign` puts. -/
def sign (P : Primitives) (s : HmacStream) : Bytes := P.hmacSha1 s.hmacKey.keyBytes s.data

/-- `verify`, by `Util.safeArrayEquals`. -/
def verify (P : Primitives) (s : HmacStream) (signature : ByteBuffer) : Bool :=
  constantTimeEq (P.hmacSha1 s.hmacKey.keyBytes s.data) signature.rest

end HmacStream

/-! ## AES keys -/

/-- An AES key; the platform refuses an empty one, and any other length when a cipher is made. -/
structure AesKey where
  aesBytes : Bytes
  hmacKey : HmacKey
  mode : CipherMode := .cbc
  ne_nil : aesBytes ≠ []
  deriving DecidableEq, Repr

namespace AesKey

variable (P : Primitives)

/-- The first bytes of `Util.hash(fromInt(length), key, hmacKey)`. -/
def shortHash (length : Nat) (key hmacKey : Bytes) : Bytes := (P.sha1 (be32 length ++ key ++ hmacKey)).take KEY_HASH_SIZE

def hash (k : AesKey) : Bytes := shortHash P k.aesBytes.length k.aesBytes k.hmacKey.keyBytes

/-- `Util.stripLeadingZeros`. -/
def stripLeadingZeros (input : Bytes) : Bytes := input.dropWhile (· = 0)

/-- The hashes that `initJceKey` adds for keys made by other versions: one with the block size for the length, and one with
leading zeros stripped. -/
def fallbackHash (k : AesKey) : List Bytes :=
  (if k.aesBytes.length ≠ BLOCK_SIZE then [shortHash P BLOCK_SIZE k.aesBytes k.hmacKey.keyBytes] else []) ++
  (if k.aesBytes.head? = some 0 then
    [shortHash P (stripLeadingZeros k.aesBytes).length (stripLeadingZeros k.aesBytes) k.hmacKey.keyBytes] else [])

@[simp] theorem length_hash (k : AesKey) : (k.hash P).length = 4 := by
  simp [hash, shortHash, KEY_HASH_SIZE]

end AesKey

/-- `AesStream`, with both of its ciphers. -/
structure AesStream where
  key : AesKey
  encryptingCipher : Cipher
  decryptingCipher : Cipher
  signStream : HmacStream
  ivRead : Bool := false
  deriving DecidableEq, Repr

namespace AesStream

/-- The constructor: a failure to make a cipher is wrapped. -/
def new (k : AesKey) : Except KeyczarException AesStream :=
  match Cipher.init k.mode k.aesBytes with
  | .error _ => .error .generalSecurity
  | .ok cipher =>
    .ok { key := k, encryptingCipher := cipher, decryptingCipher := cipher, signStream := { hmacKey := k.hmacKey } }

variable (P : Primitives) (s : AesStream)

/-- Pass a block through the decrypting cipher and discard what comes out. -/
def discard (block : Bytes) : AesStream :=
  { s with decryptingCipher := (s.decryptingCipher.decryptUpdate P s.key.aesBytes block).2 }

/-- `initDecrypt`: the vector is the first block of the message. -/
def initDecrypt (input : ByteBuffer) : Except Exception (AesStream × ByteBuffer) :=
  match input.get BLOCK_SIZE with
  | .error e => .error (.runtime e)
  | .ok (iv, input) => .ok ({ s.discard P iv with ivRead := true }, input)

/-- The call `decryptingCipher.update(input, output)`. -/
def decryptingUpdate (input output : ByteBuffer) : Except GeneralSecurityException (AesStream × ByteBuffer) :=
  if input.remaining = 0 then .ok (s, output)
  else
    let (out, cipher) := s.decryptingCipher.decryptUpdate P s.key.aesBytes input.rest
    match transfer (s.decryptingCipher.decryptSize input.remaining) out output with
    | .error e => .error e
    | .ok output => .ok ({ s with decryptingCipher := cipher }, output)

/-- `updateDecrypt`: the block that comes out for the vector is discarded. -/
def updateDecrypt (input output : ByteBuffer) : Except Exception (AesStream × ByteBuffer) :=
  if s.ivRead ∧ BLOCK_SIZE ≤ input.remaining then
    match input.get BLOCK_SIZE with
    | .error e => .error (.runtime e)
    | .ok (temp, input) =>
      match decryptingUpdate P { s.discard P temp with ivRead := false } input output with
      | .error _ => .error (.keyczar .shortBuffer)
      | .ok r => .ok r
  else match decryptingUpdate P s input output with
    | .error _ => .error (.keyczar .shortBuffer)
    | .ok r => .ok r

/-- The end of `doFinalDecrypt`: with nothing left to read the array form of `doFinal` is called. -/
def decryptingFinal (input output : ByteBuffer) : Except Exception ByteBuffer :=
  match s.decryptingCipher.decryptFinal P s.key.aesBytes input.rest with
  | .error _ => .error (.keyczar .generalSecurity)
  | .ok out =>
    if input.remaining = 0 then
      match output.put out with
      | .error e => .error (.runtime e)
      | .ok output => .ok output
    else match transfer (s.decryptingCipher.decryptSize input.remaining) out output with
      | .error _ => .error (.keyczar .generalSecurity)
      | .ok output => .ok output

/-- `doFinalDecrypt`. With an empty payload nothing comes out, and nothing is checked. -/
def doFinalDecrypt (input output : ByteBuffer) : Except Exception ByteBuffer :=
  if s.ivRead then
    if input.remaining = 0 then .ok output
    else match input.get BLOCK_SIZE with
      | .error e => .error (.runtime e)
      | .ok (temp, input) => decryptingFinal P { s.discard P temp with ivRead := false } input output
  else decryptingFinal P s input output

/-- The call `encryptingCipher.update(input, output)`. -/
def encryptingUpdate (input output : ByteBuffer) : Except GeneralSecurityException (AesStream × ByteBuffer) :=
  if input.remaining = 0 then .ok (s, output)
  else
    let (out, cipher) := s.encryptingCipher.encryptUpdate P s.key.aesBytes input.rest
    match transfer (s.encryptingCipher.encryptSize input.remaining) out output with
    | .error e => .error e
    | .ok output => .ok ({ s with encryptingCipher := cipher }, output)

/-- `updateEncrypt`. -/
def updateEncrypt (input output : ByteBuffer) : Except Exception (AesStream × ByteBuffer) :=
  match encryptingUpdate P s input output with
  | .error _ => .error (.keyczar .shortBuffer)
  | .ok r => .ok r

/-- `initEncrypt`, with the random block it draws: the vector is what this block is encrypted to. -/
def initEncrypt (ivPreImage : Bytes) (output : ByteBuffer) : Except Exception (AesStream × ByteBuffer) :=
  updateEncrypt P s (ByteBuffer.wrap ivPreImage) output

/-- `doFinalEncrypt`. -/
def doFinalEncrypt (input output : ByteBuffer) : Except Exception ByteBuffer :=
  match transfer (s.encryptingCipher.encryptSize input.remaining) (s.encryptingCipher.encryptFinal P s.key.aesBytes input.rest)
      output with
  | .error _ => .error (.keyczar .generalSecurity)
  | .ok output => .ok output

/-- `maxOutputSize`. -/
def maxOutputSize (inputLen : Nat) : Nat := s.key.mode.getOutputSize BLOCK_SIZE inputLen

end AesStream

/-! ## RSA keys -/

/-- A private RSA key, as far as decryption goes: its identifier, the size of its modulus in bytes, and what a message decrypts to. -/
structure RsaPrivateKey where
  hash : Bytes
  fallbackHash : List Bytes
  keySize : Nat
  decrypt : Bytes → Option Bytes
  length_hash : hash.length = KEY_HASH_SIZE

/-- `RsaPrivateStream`: the cipher keeps its input until the final call. -/
structure RsaPrivateStream where
  key : RsaPrivateKey
  buffer : Bytes := []

namespace RsaPrivateStream

variable (s : RsaPrivateStream)

def initDecrypt : RsaPrivateStream := { s with buffer := [] }

/-- `updateDecrypt`: room is asked for, but nothing comes out. -/
def updateDecrypt (input output : ByteBuffer) : Except Exception (RsaPrivateStream × ByteBuffer) :=
  if input.remaining = 0 then .ok (s, output)
  else match transfer s.key.keySize [] output with
    | .error _ => .error (.keyczar .generalSecurity)
    | .ok output => .ok ({ s with buffer := s.buffer ++ input.rest }, output)

def doFinalDecrypt (input output : ByteBuffer) : Except Exception ByteBuffer :=
  match s.key.decrypt (s.buffer ++ input.rest) with
  | none => .error (.keyczar .generalSecurity)
  | some out =>
    match transfer s.key.keySize out output with
    | .error _ => .error (.keyczar .generalSecurity)
    | .ok output => .ok output

end RsaPrivateStream

/-! ## Any key -/

/-- A key of a key set. A key of another type has no stream that decrypts. -/
inductive KeyczarKey where
  | aes (k : AesKey)
  | rsaPrivate (k : RsaPrivateKey)
  | other (hash : Bytes) (fallbackHash : List Bytes)

namespace KeyczarKey

def hash (P : Primitives) : KeyczarKey → Bytes
  | .aes k => k.hash P
  | .rsaPrivate k => k.hash
  | .other hash _ => hash

def fallbackHash (P : Primitives) : KeyczarKey → List Bytes
  | .aes k => k.fallbackHash P
  | .rsaPrivate k => k.fallbackHash
  | .other _ hashes => hashes

end KeyczarKey

/-- A stream that decrypts. -/
inductive DecryptingStream where
  | aes (s : AesStream)
  | rsaPrivate (s : RsaPrivateStream)

/-- A stream that verifies; the one that comes with RSA decryption accepts anything. -/
inductive VerifyingStream where
  | hmac (s : HmacStream)
  | none

/-- `(DecryptingStream) key.getStream()`, of a new stream. -/
def KeyczarKey.getStream : KeyczarKey → Except Exception DecryptingStream
  | .aes k => match AesStream.new k with
    | .ok s => .ok (.aes s)
    | .error e => .error (.keyczar e)
  | .rsaPrivate k => .ok (.rsaPrivate { key := k })
  | .other _ _ => .error (.runtime .classCast)

namespace VerifyingStream

def digestSize : VerifyingStream → Nat
  | .hmac _ => HMAC_DIGEST_SIZE
  | .none => 0

def initVerify : VerifyingStream → VerifyingStream
  | .hmac s => .hmac s.initSign
  | .none => .none

def updateVerify (v : VerifyingStream) (input : ByteBuffer) : VerifyingStream :=
  match v with
  | .hmac s => .hmac (s.updateSign input)
  | .none => .none

def verify (P : Primitives) (v : VerifyingStream) (signature : ByteBuffer) : Bool :=
  match v with
  | .hmac s => s.verify P signature
  | .none => true

end VerifyingStream

namespace DecryptingStream

def getVerifyingStream : DecryptingStream → VerifyingStream
  | .aes s => .hmac s.signStream
  | .rsaPrivate _ => .none

variable (P : Primitives)

def initDecrypt (d : DecryptingStream) (input : ByteBuffer) : Except Exception (DecryptingStream × ByteBuffer) :=
  match d with
  | .aes s => match s.initDecrypt P input with
    | .error e => .error e
    | .ok (s, input) => .ok (.aes s, input)
  | .rsaPrivate s => .ok (.rsaPrivate s.initDecrypt, input)

def updateDecrypt (d : DecryptingStream) (input output : ByteBuffer) : Except Exception (DecryptingStream × ByteBuffer) :=
  match d with
  | .aes s => match s.updateDecrypt P input output with
    | .error e => .error e
    | .ok (s, output) => .ok (.aes s, output)
  | .rsaPrivate s => match s.updateDecrypt input output with
    | .error e => .error e
    | .ok (s, output) => .ok (.rsaPrivate s, output)

def doFinalDecrypt (d : DecryptingStream) (input output : ByteBuffer) : Except Exception ByteBuffer :=
  match d with
  | .aes s => s.doFinalDecrypt P input output
  | .rsaPrivate s => s.doFinalDecrypt input output

end DecryptingStream

/-! ## Decryption only puts -/

namespace AesStream

variable {P : Primitives} {s s' : AesStream} {input output output' : ByteBuffer}

theorem wrote_of_decryptingUpdate (h : s.decryptingUpdate P input output = .ok (s', output')) :
    ∃ w, output.Wrote w output' := by
  unfold decryptingUpdate at h
  split at h
  · cases h
    exact ⟨[], ByteBuffer.wrote_refl output⟩
  · simp only at h
    split at h
    · cases h
    · rename_i hput
      cases h
      exact ⟨_, wrote_of_transfer hput⟩

theorem wrote_of_updateDecrypt (h : s.updateDecrypt P input output = .ok (s', output')) : ∃ w, output.Wrote w output' := by
  unfold updateDecrypt at h
  split at h
  · split at h
    · cases h
    · split at h
      · cases h
      · rename_i hup
        cases h
        exact wrote_of_decryptingUpdate hup
  · split at h
    · cases h
    · rename_i hup
      cases h
      exact wrote_of_decryptingUpdate hup

end AesStream

namespace DecryptingStream

variable {P : Primitives} {d d' : DecryptingStream} {input output output' : ByteBuffer}

theorem wrote_of_updateDecrypt (h : d.updateDecrypt P input output = .ok (d', output')) : ∃ w, output.Wrote w output' := by
  cases d with
  | aes s =>
    simp only [updateDecrypt] at h
    split at h
    · cases h
    · rename_i hup
      cases h
      exact AesStream.wrote_of_updateDecrypt hup
  | rsaPrivate s =>
    simp only [updateDecrypt, RsaPrivateStream.updateDecrypt] at h
    split at h
    · cases h
    · rename_i hup
      cases h
      split at hup
      · cases hup
        exact ⟨[], ByteBuffer.wrote_refl output⟩
      · split at hup
        · cases hup
        · rename_i hput
          cases hup
          exact ⟨[], wrote_of_transfer hput⟩

end DecryptingStream

end Java
