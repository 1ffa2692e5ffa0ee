import Keyczar.Java.Keyczar

/-!
# Signing and verifying in the Java library

The classes `Signer`, `TimeoutSigner`, `Verifier` and `TimeoutVerifier` over a key set of keys that sign. A plain signature is over the
data and the format byte; an expiration time goes in front of the data, and the hidden bytes of an attached signature behind it, with
their length. Nothing else tells the three apart.
-/

namespace Java

open Bytes

/-! ## `Util` -/

namespace Util

/-- `fromInt`, of a length. -/
def fromInt (input : Nat) : Bytes := be32 input

/-- `fromLong`. -/
def fromLong (input : Int64) : Bytes := be64 input.toBitVec.toNat

/-- `toLong`: the first eight bytes, which must be there. -/
def toLong (src : Bytes) : Except RuntimeException Int64 :=
  match readBe64 (src.take 8) with
  | none => .error .indexOutOfBounds
  | some n => .ok (Int64.ofNat n)

/-- `ByteBuffer.allocate` of a size that was added up as an `int`. -/
def allocate (size : Nat) : Except RuntimeException ByteBuffer :=
  if toInt32 size < 0 then .error .illegalArgument else .ok (ByteBuffer.allocate (toInt32 size).toNat)

/-- `lenPrefix`. -/
def lenPrefix (data : Bytes) : Except RuntimeException Bytes :=
  if data.length = 0 then .ok (fromInt 0)
  else do
    let buffer ← allocate (4 + data.length)
    let buffer ← buffer.put (fromInt data.length)
    let buffer ← buffer.put data
    return buffer.content

/-- `cat`: the lengths are added up as `int`s. -/
def cat (arrays : List Bytes) : Except RuntimeException Bytes :=
  let length := arrays.foldl (fun length array => toInt32 (length + array.length)) 0
  if length < 0 then .error .negativeArraySize
  else if length < arrays.flatten.length then .error .indexOutOfBounds
  else .ok arrays.flatten

end Util

/-! ## Keys that sign -/

/-- A key that signs, by what its streams compute: how long a signature may be, a signature with the randomness it draws, and whether a
signature is right for a message. -/
structure SigningKey (ρ : Type) where
  hash : Bytes
  digestSize : Nat
  sign : ρ → Bytes → Except KeyczarException Bytes
  verify : Bytes → Bytes → Except Exception Bool
  length_hash : hash.length = KEY_HASH_SIZE

/-- A `SigningStream` and `VerifyingStream` of a key: what it was updated with since it was initialised. -/
structure SignatureStream (ρ : Type) where
  key : SigningKey ρ
  data : Bytes := []

variable {ρ : Type}

namespace SigningKey

/-- `getStream`, of a new stream. -/
def getStream (k : SigningKey ρ) : SignatureStream ρ := { key := k }

end SigningKey

namespace SignatureStream

def initSign (s : SignatureStream ρ) : SignatureStream ρ := { s with data := [] }

def initVerify (s : SignatureStream ρ) : SignatureStream ρ := { s with data := [] }

/-- `updateSign` with the bytes left in the input, whose position is left to the callers. -/
def updateSign (s : SignatureStream ρ) (input : ByteBuffer) : SignatureStream ρ := { s with data := s.data ++ input.rest }

/-- `updateVerify`. -/
def updateVerify (s : SignatureStream ρ) (input : ByteBuffer) : SignatureStream ρ := { s with data := s.data ++ input.rest }

/-- `sign`: the signature is put into the output. -/
def sign (s : SignatureStream ρ) (random : ρ) : EStateM Exception ByteBuffer Unit := fun output =>
  match s.key.sign random s.data with
  | .error e => .error (.keyczar e) output
  | .ok sig => match output.put sig with
    | .error e => .error (.runtime e) output
    | .ok output => .ok () output

/-- `verify`. -/
def verify (s : SignatureStream ρ) (signature : ByteBuffer) : Except Exception Bool := s.key.verify s.data signature.rest

end SignatureStream

/-- A `Keyczar` object whose keys sign. A hash without keys has none in its list. -/
structure SigningKeyczar (ρ : Type) where
  primaryVersion : Option KeyVersion := none
  versionMap : Int → Option (SigningKey ρ) := fun _ => none
  hashMap : Bytes → List (SigningKey ρ) := fun _ => []

namespace SigningKeyczar

/-- `getPrimaryKey`. -/
def getPrimaryKey (z : SigningKeyczar ρ) : Option (SigningKey ρ) := z.primaryVersion.bind fun v => z.versionMap v.versionNumber

/-- `getKey`. -/
def getKey (z : SigningKeyczar ρ) (hash : Bytes) : List (SigningKey ρ) := z.hashMap hash

end SigningKeyczar

/-! ## `Signer` and `TimeoutSigner` -/

namespace Signer

def FORMAT_BYTES : Bytes := [0]

def HEADER_SIZE : Nat := 1 + KEY_HASH_SIZE

def TIMESTAMP_SIZE : Nat := 8

variable (z : SigningKeyczar ρ) (random : ρ)

/-- `digestSize`. -/
def digestSize : Except Exception Nat :=
  match z.getPrimaryKey with
  | none => .error (.keyczar .noPrimaryKey)
  | some signingKey => .ok (HEADER_SIZE + signingKey.digestSize)

/-- `output.put(bytes)`. -/
def put (bytes : Bytes) : EStateM Exception ByteBuffer Unit := fun output =>
  match output.put bytes with
  | .error e => .error (.runtime e) output
  | .ok output => .ok () output

/-- An expiration time is written behind the header and signed; there is none that is not positive. -/
def putExpiration (stream : SignatureStream ρ) (expirationTime : Int64) : EStateM Exception ByteBuffer (SignatureStream ρ) :=
  if 0 < expirationTime then do
    put (Util.fromLong expirationTime)
    return stream.updateSign (ByteBuffer.wrap (Util.fromLong expirationTime))
  else return stream

/-- What follows the check of the space in `sign(ByteBuffer, ByteBuffer, long, ByteBuffer)`. -/
def signWith (signingKey : SigningKey ρ) (input : ByteBuffer) (hidden : Option ByteBuffer) (expirationTime : Int64) :
    EStateM Exception ByteBuffer Unit := do
  let stream := signingKey.getStream.initSign
  modify ByteBuffer.setMark
  put (FORMAT_BYTES ++ signingKey.hash)
  let stream ← putExpiration stream expirationTime
  let stream := match hidden with
    | none => stream
    | some hidden => stream.updateSign hidden
  let stream := stream.updateSign input
  let stream := stream.updateSign (ByteBuffer.wrap FORMAT_BYTES)
  stream.sign random
  modify ByteBuffer.limitHere

/-- `sign(ByteBuffer, ByteBuffer, long, ByteBuffer)`: the state is the output. -/
def signBuffer (input : ByteBuffer) (hidden : Option ByteBuffer) (expirationTime : Int64) : EStateM Exception ByteBuffer Unit :=
  fun output =>
    match z.getPrimaryKey with
    | none => .error (.keyczar .noPrimaryKey) output
    | some signingKey =>
      let spaceNeeded := HEADER_SIZE + signingKey.digestSize + if 0 < expirationTime then TIMESTAMP_SIZE else 0
      if output.capacity < spaceNeeded then .error (.keyczar .shortBuffer) output
      else signWith random signingKey input hidden expirationTime output

/-- What was put into an output since its mark. -/
def sinceMark (r : EStateM.Result Exception ByteBuffer Unit) : Except Exception Bytes :=
  match r with
  | .error e _ => .error e
  | .ok _ output => match output.reset with
    | .error e => .error (.runtime e)
    | .ok output => match output.get output.remaining with
      | .error e => .error (.runtime e)
      | .ok (outputBytes, _) => .ok outputBytes

/-- `sign(byte[])`. -/
def sign (input : Bytes) : Except Exception Bytes := do
  let size ← digestSize z
  sinceMark (signBuffer z random (ByteBuffer.wrap input) none 0 (ByteBuffer.allocate size))

/-- `attachedSign`. -/
def attachedSign (blob hidden : Bytes) : Except Exception Bytes :=
  match z.getPrimaryKey with
  | none => .error (.keyczar .noPrimaryKey)
  | some signingKey => do
    let stream := signingKey.getStream.initSign
    let hiddenPlusLength ← (if 0 < hidden.length then Util.lenPrefix hidden else .ok (Util.fromInt 0)).mapError .runtime
    let stream := stream.updateSign (ByteBuffer.wrap blob)
    let stream := stream.updateSign (ByteBuffer.wrap hiddenPlusLength)
    let stream := stream.updateSign (ByteBuffer.wrap FORMAT_BYTES)
    match stream.sign random (ByteBuffer.allocate signingKey.digestSize).setMark with
    | .error e _ => .error e
    | .ok _ output => do
      let prefixed ← (Util.lenPrefix blob).mapError .runtime
      (Util.cat [FORMAT_BYTES, signingKey.hash, prefixed, output.content.take output.position]).mapError .runtime

end Signer

namespace TimeoutSigner

/-- `timeoutSign(byte[], long)`. -/
def timeoutSign (z : SigningKeyczar ρ) (random : ρ) (input : Bytes) (expirationTime : Int64) : Except Exception Bytes := do
  let size ← Signer.digestSize z
  Signer.sinceMark (Signer.signBuffer z random (ByteBuffer.wrap input) none expirationTime
    (ByteBuffer.allocate (size + Signer.TIMESTAMP_SIZE)))

end TimeoutSigner

/-! ## `Verifier` and `TimeoutVerifier` -/

namespace Verifier

open Signer

/-- `checkFormatAndGetHash`. -/
def checkFormatAndGetHash (signature : ByteBuffer) : Except Exception (Bytes × ByteBuffer) := do
  let (version, signature) ← (signature.get 1).mapError .runtime
  if version ≠ FORMAT_BYTES then .error (.keyczar (.badVersion (version.headD 0)))
  else (signature.get KEY_HASH_SIZE).mapError .runtime

variable (z : SigningKeyczar ρ)

/-- `getVerifyingKey`. -/
def getVerifyingKey (hash : Bytes) : Except Exception (List (SigningKey ρ)) :=
  match z.getKey hash with
  | [] => .error (.keyczar (.keyNotFound hash))
  | keys => .ok keys

/-- `rawVerify`. -/
def rawVerify (key : SigningKey ρ) (data : ByteBuffer) (hidden : Option ByteBuffer) (signature : ByteBuffer) :
    Except Exception Bool :=
  let stream := key.getStream.initVerify
  let stream := stream.updateVerify data
  let stream := match hidden with
    | none => stream
    | some hidden => stream.updateVerify hidden
  let stream := stream.updateVerify (ByteBuffer.wrap FORMAT_BYTES)
  stream.verify signature

/-- The loop over the keys: an exception means that the next key is tried, with the buffers as they were. -/
def verifyKeys (data : ByteBuffer) (hidden : Option ByteBuffer) (signature : ByteBuffer) : List (SigningKey ρ) → Bool
  | [] => false
  | key :: keys =>
    match rawVerify key data hidden signature with
    | .ok true => true
    | _ => verifyKeys data hidden signature keys

/-- `verify(ByteBuffer, ByteBuffer, ByteBuffer)`. -/
def verifyBuffer (data : ByteBuffer) (hidden : Option ByteBuffer) (signature : ByteBuffer) : Except Exception Bool :=
  if signature.remaining < HEADER_SIZE then .error (.keyczar (.shortSignature signature.remaining))
  else do
    let (hash, signature) ← checkFormatAndGetHash signature
    let keys ← getVerifyingKey z hash
    return verifyKeys data hidden signature keys

/-- `verify(byte[], byte[])`. -/
def verify (data signature : Bytes) : Except Exception Bool :=
  verifyBuffer z (ByteBuffer.wrap data) none (ByteBuffer.wrap signature)

/-- `getInt`. -/
def getInt (b : ByteBuffer) : Except Exception (Int × ByteBuffer) :=
  match b.get 4 with
  | .error e => .error (.runtime e)
  | .ok (bytes, b) => .ok (int32 ((readBe32 bytes).getD 0), b)

/-- The blob of an attached signature, behind the hash. -/
def getBlob (sigBuffer : ByteBuffer) : Except Exception (Bytes × ByteBuffer) := do
  let (blobSize, sigBuffer) ← getInt sigBuffer
  if blobSize < 0 then .error (.runtime .negativeArraySize)
  else (sigBuffer.get blobSize.toNat).mapError .runtime

/-- `attachedVerify`. -/
def attachedVerify (signedBlob hidden : Bytes) : Except Exception Bool := do
  let (hash, sigBuffer) ← checkFormatAndGetHash (ByteBuffer.wrap signedBlob)
  let (blob, sigBuffer) ← getBlob sigBuffer
  let (signature, _) ← (sigBuffer.get sigBuffer.remaining).mapError .runtime
  let hiddenPlusLength ← (if 0 < hidden.length then Util.lenPrefix hidden else .ok (Util.fromInt 0)).mapError .runtime
  let keys ← getVerifyingKey z hash
  return verifyKeys (ByteBuffer.wrap blob) (some (ByteBuffer.wrap hiddenPlusLength)) (ByteBuffer.wrap signature) keys

/-- `getAttachedDataWithoutVerifying`. -/
def getAttachedDataWithoutVerifying (signedBlob : Bytes) : Except Exception Bytes := do
  let (hash, sigBuffer) ← checkFormatAndGetHash (ByteBuffer.wrap signedBlob)
  let _ ← getVerifyingKey z hash
  let (blob, _) ← getBlob sigBuffer
  return blob

/-- `getAttachedData`. -/
def getAttachedData (signedBlob hidden : Bytes) : Except Exception Bytes := do
  let verified ← attachedVerify z signedBlob hidden
  if verified then getAttachedDataWithoutVerifying z signedBlob else .error (.keyczar .attachedSignature)

end Verifier

namespace TimeoutVerifier

open Signer

/-- `verify(ByteBuffer, ByteBuffer)` at a reading of the clock. -/
def verifyBuffer (z : SigningKeyczar ρ) (now : Int64) (data timeoutSignature : ByteBuffer) : Except Exception Bool :=
  if timeoutSignature.remaining < HEADER_SIZE + TIMESTAMP_SIZE then
    .error (.keyczar (.shortSignature timeoutSignature.remaining))
  else do
    let (header, timeoutSignature) ← (timeoutSignature.get HEADER_SIZE).mapError .runtime
    let (timestamp, timeoutSignature) ← (timeoutSignature.get TIMESTAMP_SIZE).mapError .runtime
    let expirationTime ← (Util.toLong timestamp).mapError .runtime
    if expirationTime < now then .ok false
    else do
      let slicedSignature ← (Util.allocate (HEADER_SIZE + timeoutSignature.remaining)).mapError .runtime
      let slicedSignature ← (slicedSignature.put header).mapError .runtime
      let slicedSignature ← (slicedSignature.put timeoutSignature.rest).mapError .runtime
      let prependedData ← (Util.allocate (TIMESTAMP_SIZE + data.remaining)).mapError .runtime
      let prependedData ← (prependedData.put timestamp).mapError .runtime
      let prependedData ← (prependedData.put data.rest).mapError .runtime
      Verifier.verifyBuffer z prependedData.rewind none slicedSignature.rewind

/-- `verify(byte[], byte[])`. -/
def verify (z : SigningKeyczar ρ) (now : Int64) (data signature : Bytes) : Except Exception Bool :=
  verifyBuffer z now (ByteBuffer.wrap data) (ByteBuffer.wrap signature)

end TimeoutVerifier

end Java
