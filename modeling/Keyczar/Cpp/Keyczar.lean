import Keyczar.Cpp.Keys

/-!
# Decryption and verification in the C++ library

The objects of `keyczar.cc` over a key set, without an encoding of what they read. The key is looked up by the hash in a header,
which need not be a whole header: what is not there is a key that is not found.
-/

namespace Cpp

open Bytes

/-- `Keyset`: the keys by version number, in order, and the keys by hash identifier. -/
structure Keyset where
  versionNumberMap : List (Int × Key) := []
  hashMap : Bytes → Option Key := fun _ => none

/-- `GetKeyFromHash`. -/
def Keyset.getKeyFromHash (keyset : Keyset) (hash : Bytes) : Option Key := keyset.hashMap hash

/-- `Keyczar`: an object may have no key set. `Decompress` gets the string to write to; without a compression it assigns. -/
structure Keyczar where
  keyset : Option Keyset := none
  decompress : Bytes → Bytes → Bool × Bytes := fun input _ => (true, input)

namespace Keyczar

variable (P : Primitives) (z : Keyczar)

/-- `GetHash`. -/
def getHash (bytes : Bytes) : Except Exception (Option Bytes) := do
  if toInt bytes.length < headerSize then return none
  let hash ← substr bytes (.of 1) (.of kKeyHashSize)
  return base64WEncode hash

/-- `LookupKey`. -/
def lookupKey (keyHeader : Bytes) : Except Exception (Option Key) :=
  match z.keyset with
  | none => return none
  | some keyset => do
    match ← getHash keyHeader with
    | none => return none
    | some hash => return keyset.getKeyFromHash hash

end Keyczar

/-- `Crypter::Decrypt` into a string. -/
def Crypter.decrypt (P : Primitives) (z : Keyczar) (ciphertext plaintext : Bytes) : Except Exception (Bool × Bytes) :=
  match z.keyset with
  | none => return (false, plaintext)
  | some _ => do
    match ← z.lookupKey ciphertext with
    | none => return (false, plaintext)
    | some key =>
      let (decrypted, compressedPlaintext) ← key.decrypt P ciphertext []
      if !decrypted then return (false, plaintext)
      return z.decompress compressedPlaintext plaintext

namespace Verifier

variable (P : Primitives) (z : Keyczar)

/-- `BuildMessageToSign`. -/
def buildMessageToSign (data : Bytes) (hidden : Option Bytes) : Bytes :=
  match hidden with
  | none => data ++ [kVersionByte]
  | some hidden => data ++ int32ToByteString hidden.length ++ hidden ++ [kVersionByte]

/-- `InternalVerify`. -/
def internalVerify (verificationData keyHeader signature : Bytes) : Except Exception Bool := do
  match ← z.lookupKey keyHeader with
  | none => return false
  | some key => return key.verify P verificationData signature

/-- `Verify`: what is behind the header is cut out before the header is looked at. -/
def verify (data signature : Bytes) : Except Exception Bool := do
  let rawSignature ← substr signature (.of headerSize)
  internalVerify P z (buildMessageToSign data none) signature rawSignature

/-- `ParseAttachedSignature`: header, data and signature. -/
def parseAttachedSignature (signedData : Bytes) : Except Exception (Option (Bytes × Bytes × Bytes)) := do
  let header ← substr signedData (.of 0) (.of headerSize)
  let curOffset : Int := headerSize
  match byteStringToInt32 signedData headerSize with
  | none => return none
  | some dataLen =>
    let curOffset := curOffset + 4
    if (Size.ofInt (toInt (curOffset + dataLen))).exceeds signedData.length then return none
    let data ← substr signedData (.ofInt curOffset) (.ofInt dataLen)
    let curOffset := toInt (curOffset + dataLen)
    let signature ← substr signedData (.ofInt curOffset)
    return some (header, data, signature)

/-- `AttachedVerify` into the string `data`, which is written before the signature is checked. -/
def attachedVerify (signedData hidden data : Bytes) : Except Exception (Bool × Bytes) := do
  match ← parseAttachedSignature signedData with
  | none => return (false, data)
  | some (header, data, signature) =>
    let verified ← internalVerify P z (buildMessageToSign data (some hidden)) header signature
    return (verified, data)

end Verifier

/-- The loop of `UnversionedVerifier::Verify` over the keys. -/
def UnversionedVerifier.verifyKeys (P : Primitives) (data signature : Bytes) : List (Int × Key) → Except Exception Bool
  | [] => return false
  | (_, key) :: keys => if key.verify P data signature then return true else verifyKeys P data signature keys

/-- `UnversionedVerifier::Verify`. -/
def UnversionedVerifier.verify (P : Primitives) (z : Keyczar) (data signature : Bytes) : Except Exception Bool :=
  match z.keyset with
  | none => return false
  | some keyset => verifyKeys P data signature keyset.versionNumberMap

end Cpp
