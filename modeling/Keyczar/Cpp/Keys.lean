import Keyczar.Cpp.StdString
import Keyczar.Lib.CipherStream
import Keyczar.Primitives

/-!
# The keys of the C++ library

A call that has a string to write to returns what it answers and what the string holds afterwards. Hash identifiers are kept
encoded, as the library keeps them. A key of a set is an object with the operations of its class; those of the asymmetric keys
belong to the cryptographic library.
-/

namespace Cpp

open Bytes

def kVersionByte : UInt8 := 0

def kKeyHashSize : Nat := 4

/-- `GetHeaderSize`. -/
def headerSize : Nat := 1 + kKeyHashSize

/-! ## HMAC keys -/

/-- An HMAC key. In the current format the size of a key names the hash function; keys of the format of version 0.6b all use SHA-1,
which is what their `digest_size` says too. -/
structure HMACKey where
  keyBytes : Bytes
  digest : Digest
  deriving DecidableEq, Repr

namespace HMACKey

variable (P : Primitives)

/-- `digest_size`, in bits. -/
def digestSize (k : HMACKey) : Nat := 8 * k.digest.size

/-- `Sign`. -/
def sign (k : HMACKey) (data : Bytes) : Bytes := P.hmac k.digest k.keyBytes data

/-- `Verify`. -/
def verify (k : HMACKey) (data signature : Bytes) : Bool := safeStringEquals (P.hmac k.digest k.keyBytes data) signature

/-- `Hash`. -/
def hash (k : HMACKey) : Option Bytes := base64WEncode ((P.sha1 k.keyBytes).take kKeyHashSize)

end HMACKey

/-! ## AES keys -/

/-- The lengths of an AES key. -/
def validKeyLength (n : Nat) : Bool := n = 16 || n = 24 || n = 32

/-- `AESOpenSSL`, an object that was created for a key. -/
structure AESOpenSSL where
  key : Bytes
  valid : validKeyLength key.length
  deriving DecidableEq, Repr

namespace AESOpenSSL

def blockSize : Nat := 16

variable (P : Primitives) (a : AESOpenSSL)

/-- What `EVP_CipherUpdate` reads of a string: it takes the length as an `int`, and refuses a negative one. -/
def updateInput (inData : Bytes) : Option Bytes :=
  if int32 inData.length < 0 then none else some (inData.take (int32 inData.length).toNat)

/-- The size of a string that is written behind, which is taken as an `int`. With a negative one the string would become longer than any,
or be written in front of; neither is told apart from the exception. -/
def currentSize (outData : Bytes) : Except Exception Nat :=
  if toInt outData.length < 0 then .error .lengthError else .ok (toInt outData.length).toNat

/-- The size with room for the last block, an `int` again. -/
def finalSize (outData : Bytes) : Except Exception Nat := do
  let size ← currentSize outData
  if toInt (size + blockSize) < 0 then throw .lengthError
  return size

/-- `Encrypt` into an empty string, with the random vector: update and final. A length that throws is not told apart from a refusal. -/
def encrypt (iv plaintext : Bytes) : Option Bytes := do
  let data ← updateInput plaintext
  if toInt (data.length / blockSize * blockSize + blockSize) < 0 then none
  return Cbc.encrypt (P.aes a.key) iv (Cbc.pad blockSize data)

/-- How much of `n` bytes an update decrypts: of whole blocks, all but the last. -/
def updateLength (n : Nat) : Nat := if n % blockSize = 0 then n - blockSize else n / blockSize * blockSize

/-- `DecryptFinal` behind what the string holds, after an update with `data`. A call that fails has made room for a block. -/
def decryptFinal (iv data plaintext : Bytes) : Except Exception (Bool × Bytes) := do
  let size ← finalSize plaintext
  let now := data.take (updateLength data.length)
  if data.length % blockSize ≠ 0 ∨ data = [] then return (false, resize plaintext (size + blockSize))
  match Cbc.unpad? blockSize (Cbc.decrypt (P.aes a.key) (Cbc.lastBlock iv now) (data.drop (updateLength data.length))) with
  | none => return (false, resize plaintext (size + blockSize))
  | some last => return (true, plaintext.take size ++ last)

/-- `Decrypt` behind what the string holds: update and final. An update that fails has made room for the input and a block. -/
def decrypt (iv ciphertext plaintext : Bytes) : Except Exception (Bool × Bytes) := do
  let size ← currentSize plaintext
  match updateInput ciphertext with
  | none => return (false, resize plaintext (size + ciphertext.length + blockSize))
  | some data =>
    let now := data.take (updateLength data.length)
    a.decryptFinal P iv data (plaintext.take size ++ Cbc.decrypt (P.aes a.key) iv now)

end AESOpenSSL

/-- An AES key with its HMAC key. -/
structure AESKey where
  aesImpl : AESOpenSSL
  hmacKey : HMACKey
  deriving DecidableEq, Repr

namespace AESKey

variable (P : Primitives) (k : AESKey)

/-- What `AddToHash` adds for a field. -/
def addToHash (field : Bytes) : Bytes := int32ToByteString field.length ++ field

/-- The bytes of the hash. -/
def hashBytes : Bytes := (P.sha1 (addToHash k.aesImpl.key ++ k.hmacKey.keyBytes)).take kKeyHashSize

/-- `Hash`. -/
def hash : Option Bytes := base64WEncode (k.hashBytes P)

/-- `Header`. -/
def header : Option Bytes := do
  let hash ← k.hash P
  let decoded ← base64WDecode hash
  return kVersionByte :: decoded

/-- `Encrypt` into a string, with the random vector. -/
def encrypt (iv plaintext : Bytes) : Option Bytes := do
  let encryptedPlaintext ← k.aesImpl.encrypt P iv plaintext
  let header ← k.header P
  let allBytes := header ++ iv ++ encryptedPlaintext
  let signature := k.hmacKey.sign P allBytes
  return allBytes ++ signature

/-- `Decrypt` into a string. The lengths are `int`s; none is checked. -/
def decrypt (ciphertext plaintext : Bytes) : Except Exception (Bool × Bytes) := do
  let digestSize : Int := k.hmacKey.digestSize / 8
  let dataBytes ← substr ciphertext (.of headerSize)
  let dataBytesLen := toInt dataBytes.length
  let ivBytes ← substr dataBytes (.of 0) (.of AESOpenSSL.blockSize)
  let aesBytes ← substr dataBytes (.of AESOpenSSL.blockSize)
    (.ofInt (toInt (toInt (dataBytesLen - digestSize) - AESOpenSSL.blockSize)))
  let signatureBytes ← substr dataBytes (.ofInt (toInt (dataBytesLen - digestSize)))
  let signed ← substr ciphertext (.of 0) (.ofInt (ciphertext.length - digestSize))
  if !k.hmacKey.verify P signed signatureBytes then return (false, plaintext)
  k.aesImpl.decrypt P ivBytes aesBytes plaintext

end AESKey

/-! ## Any key -/

/-- A private RSA key, as far as decryption and verification go. -/
structure RSAPrivateKey where
  hash : Bytes
  verify : Bytes → Bytes → Bool
  decrypt : Bytes → Option Bytes

/-- `Decrypt`: what the key makes of all behind the header. -/
def RSAPrivateKey.decryptWithHeader (k : RSAPrivateKey) (ciphertext plaintext : Bytes) : Except Exception (Bool × Bytes) := do
  let encrypted ← substr ciphertext (.of headerSize)
  match k.decrypt encrypted with
  | none => return (false, plaintext)
  | some data => return (true, data)

/-- A key of a key set; of the others, only what verifies signatures. -/
inductive Key where
  | aes (k : AESKey)
  | hmac (k : HMACKey)
  | rsaPrivate (k : RSAPrivateKey)
  | other (hash : Bytes) (verify : Bytes → Bytes → Bool)

namespace Key

variable (P : Primitives)

/-- `Verify`: a key that does not implement it refuses. -/
def verify : Key → Bytes → Bytes → Bool
  | .aes _, _, _ => false
  | .hmac k, data, signature => k.verify P data signature
  | .rsaPrivate k, data, signature => k.verify data signature
  | .other _ verify, data, signature => verify data signature

/-- `Decrypt`: a key that does not implement it refuses. -/
def decrypt : Key → Bytes → Bytes → Except Exception (Bool × Bytes)
  | .aes k, ciphertext, plaintext => k.decrypt P ciphertext plaintext
  | .rsaPrivate k, ciphertext, plaintext => k.decryptWithHeader ciphertext plaintext
  | .hmac _, _, plaintext => .ok (false, plaintext)
  | .other _ _, _, plaintext => .ok (false, plaintext)

end Key

end Cpp
