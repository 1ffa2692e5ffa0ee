import Keyczar.Java.PublicKeys
import Keyczar.Java.StreamCache

/-!
# Verification on the buffers of the caller

The streams of HMAC, RSA and DSA keys that verify, and `Verifier` and `UnversionedVerifier` over them. Here a buffer is a view of an
array, which may begin behind the start of the array or give no access to it. The streams move the buffers of the caller: all keys
under a hash are tried on the same three, which are marked before the first try and reset behind each one that fails.
-/

namespace Java

open Bytes

/-! ## Views -/

/-- Where the bytes of a buffer are: in an array, with `front` before them and `back` behind them; in an array that is not given out; or
outside of any array. -/
inductive Backing where
  | heap (front back : Bytes)
  | readOnly
  | direct
  deriving DecidableEq, Repr

/-- A buffer with where its bytes are. -/
structure View where
  buffer : ByteBuffer
  backing : Backing
  deriving DecidableEq, Repr

namespace View

/-- `wrap`. -/
def wrap (array : Bytes) : View := ⟨ByteBuffer.wrap array, .heap [] []⟩

/-- The bytes between the position and the limit. -/
def rest (v : View) : Bytes := v.buffer.rest

/-- `array`. -/
def array (v : View) : Except RuntimeException Bytes :=
  match v.backing with
  | .heap front back => .ok (front ++ v.buffer.content ++ back)
  | .readOnly => .error .readOnlyBuffer
  | .direct => .error .unsupportedOperation

/-- `duplicate`: the same bytes, with a position, limit and mark of its own. -/
def duplicate (v : View) : View := v

/-- `slice`: it begins at the position. -/
def slice (v : View) : View where
  buffer := v.buffer.slice
  backing := match v.backing with
    | .heap front back => .heap (front ++ v.buffer.content.take v.buffer.position) (v.buffer.content.drop v.buffer.limit ++ back)
    | .readOnly => .readOnly
    | .direct => .direct

/-- `asReadOnlyBuffer`. -/
def asReadOnlyBuffer (v : View) : View where
  buffer := v.buffer.asReadOnlyBuffer
  backing := match v.backing with
    | .heap _ _ => .readOnly
    | .readOnly => .readOnly
    | .direct => .direct

/-- The view with everything read. -/
def atEnd (v : View) : View := { v with buffer := v.buffer.atEnd }

end View

/-- `len` bytes of an array from an index on. -/
def subArray (array : Bytes) (offset len : Nat) : Bytes := (array.drop offset).take len

/-! ## The platform -/

/-- What a signature object throws: the exceptions that the streams wrap, and those that they do not. -/
inductive JceException where
  | generalSecurity
  | runtime (e : RuntimeException)
  deriving DecidableEq, Repr

/-- An exception as a stream passes it on. -/
def JceException.rethrow : JceException → Exception
  | .generalSecurity => .keyczar .generalSecurity
  | .runtime e => .runtime e

/-- The signature objects of an algorithm, as functions of the key: whether it is accepted, and whether a signature is right for the
bytes that the object was updated with. -/
structure SignatureAlgorithm (κ : Type) where
  initVerify : κ → Except JceException Unit
  verify : κ → Bytes → Bytes → Except JceException Bool

/-- The platform, with the flag of `DsaPublicKey`. -/
structure Platform where
  primitives : Primitives
  rsa : SignatureAlgorithm RsaPublicKey
  dsa : SignatureAlgorithm DsaPublicKey
  strictVerification : Bool := false

/-! ## Streams -/

/-- A key of a verifier. RSA and DSA keys are their public parts, whose streams the private keys pass everything on to; any other key
throws when it is asked for a stream, or its stream is one that does not verify. -/
inductive VerifyingKey where
  | hmac (k : HmacKey)
  | rsa (k : RsaPublicKey)
  | dsa (k : DsaPublicKey)
  | other (thrown : Exception)
  deriving DecidableEq, Repr

/-- A stream of a key that verifies: what it was updated with since it was initialised. -/
structure VerificationStream where
  key : VerifyingKey
  data : Bytes := []
  deriving DecidableEq, Repr

namespace DsaVerifyingStream

/-- The search for the end of a DER sequence, behind its tag and its length. -/
def truncateBehind (coefficientLength : Nat) (signatureToVerify : ByteBuffer) : Except RuntimeException ByteBuffer :=
  if 0x80 ≤ coefficientLength then return signatureToVerify
  else if signatureToVerify.limit < signatureToVerify.position + coefficientLength then return signatureToVerify
  else do
    let signatureToVerify ← signatureToVerify.setPosition (signatureToVerify.position + coefficientLength)
    let bytesToTruncate := signatureToVerify.limit - signatureToVerify.position
    if 0 < bytesToTruncate then signatureToVerify.setLimit signatureToVerify.position else return signatureToVerify

/-- The part of `verify` without strict verification: the copy is cut behind the length of a DER sequence, where it has one. -/
def truncate (signatureToVerify : ByteBuffer) : Except RuntimeException ByteBuffer := do
  let signatureToVerify ← signatureToVerify.setPosition 0
  let (tag, signatureToVerify) ← signatureToVerify.get 1
  if tag ≠ [0x30] then return signatureToVerify
  else
    let (length, signatureToVerify) ← signatureToVerify.get 1
    truncateBehind (length.headD 0).toNat signatureToVerify

/-- The copy of a signature that is verified. -/
def signatureToVerify (strictVerification : Bool) (sig : View) : Except RuntimeException ByteBuffer := do
  let signatureToVerify := ByteBuffer.allocate (sig.buffer.limit - sig.buffer.position)
  let array ← sig.array
  let signatureToVerify ← signatureToVerify.put (subArray array sig.buffer.position (sig.buffer.limit - sig.buffer.position))
  let signatureToVerify ← if strictVerification then .ok signatureToVerify else truncate signatureToVerify
  signatureToVerify.setPosition 0

/-- `verify`. -/
def verify (J : Platform) (k : DsaPublicKey) (data : Bytes) (sig : View) : Except Exception Bool := do
  let signatureToVerify ← (signatureToVerify J.strictVerification sig).mapError .runtime
  (J.dsa.verify k data (subArray signatureToVerify.content signatureToVerify.position
    (signatureToVerify.limit - signatureToVerify.position))).mapError JceException.rethrow

end DsaVerifyingStream

/-- `verify`, of the stream of an RSA key. -/
def RsaStream.verify (J : Platform) (k : RsaPublicKey) (data : Bytes) (sig : View) : Except Exception Bool := do
  let array ← sig.array.mapError .runtime
  (J.rsa.verify k data (subArray array sig.buffer.position (sig.buffer.limit - sig.buffer.position))).mapError JceException.rethrow

/-- `verify`, of the stream of an HMAC key: the signature is read from the buffer. -/
def HmacStream.verifyView (P : Primitives) (k : HmacKey) (data : Bytes) : EStateM Exception View Bool := fun signature =>
  match signature.buffer.get signature.buffer.remaining with
  | .error e => .error (.runtime e) signature
  | .ok (sigBytes, buffer) => .ok (constantTimeEq (P.hmacSha1 k.keyBytes data) sigBytes) { signature with buffer }

namespace VerificationStream

variable (J : Platform)

/-- A new stream of a key. -/
def new (key : VerifyingKey) : Except Exception VerificationStream :=
  match key with
  | .other e => .error e
  | _ => .ok { key }

/-- `initVerify`. -/
def initVerify (s : VerificationStream) : Except Exception VerificationStream :=
  match s.key with
  | .hmac _ => .ok { s with data := [] }
  | .rsa k => do
    (J.rsa.initVerify k).mapError JceException.rethrow
    return { s with data := [] }
  | .dsa k => do
    (J.dsa.initVerify k).mapError JceException.rethrow
    return { s with data := [] }
  | .other e => .error e

/-- `updateVerify`: the input is read to its end. -/
def updateVerify (s : VerificationStream) (input : View) : VerificationStream × View :=
  ({ s with data := s.data ++ input.rest }, input.atEnd)

/-- `verify`. -/
def verify (s : VerificationStream) : EStateM Exception View Bool := fun signature =>
  match s.key with
  | .hmac k => HmacStream.verifyView J.primitives k s.data signature
  | .rsa k => Throwing.lift (RsaStream.verify J k s.data signature) signature
  | .dsa k => Throwing.lift (DsaVerifyingStream.verify J k s.data signature) signature
  | .other e => .error e signature

/-- What a verification leaves of the stream. -/
def reset (s : VerificationStream) : VerificationStream := { s with data := [] }

end VerificationStream

namespace Viewed

/-- The queues of the keys. -/
abbrev Streams : Type := KeyRef → List VerificationStream

variable (J : Platform) (keys : KeyRef → VerifyingKey)

/-- `getStream`, and the cast of the stream. -/
def getStream (ref : KeyRef) : StateM Streams (Except Exception VerificationStream) :=
  Pool.take ref (VerificationStream.new (keys ref))

/-! ## `Verifier` -/

/-- The buffers of a call of `verify`. -/
structure Inputs where
  data : View
  hidden : Option View
  signature : View
  deriving DecidableEq, Repr

/-- `get` of `n` bytes of the signature. -/
def getSignature (n : Nat) : EStateM Exception Inputs Bytes := fun s =>
  match s.signature.buffer.get n with
  | .error e => .error (.runtime e) s
  | .ok (bytes, buffer) => .ok bytes { s with signature := { s.signature with buffer } }

/-- `checkFormatAndGetHash`. -/
def checkFormatAndGetHash : EStateM Exception Inputs Bytes := do
  let version ← getSignature 1
  if version ≠ Signer.FORMAT_BYTES then throw (.keyczar (.badVersion (version.headD 0)))
  getSignature KEY_HASH_SIZE

/-- `mark` of the three buffers. -/
def mark (s : Inputs) : Inputs where
  data := { s.data with buffer := s.data.buffer.setMark }
  hidden := s.hidden.map fun hidden => { hidden with buffer := hidden.buffer.setMark }
  signature := { s.signature with buffer := s.signature.buffer.setMark }

/-- `reset`. -/
def resetView (v : View) : Except RuntimeException View := do
  let buffer ← v.buffer.reset
  return { v with buffer }

/-- `reset` of the three buffers. -/
def reset (s : Inputs) : Except RuntimeException Inputs := do
  let data ← resetView s.data
  let hidden ← match s.hidden with
    | none => .ok none
    | some hidden => some <$> resetView hidden
  let signature ← resetView s.signature
  return { data, hidden, signature }

/-- What follows `getStream` in `rawVerify`, and the stream as it leaves it. -/
def rawVerifyWith (stream : VerificationStream) : EStateM Exception Inputs (Bool × VerificationStream) := fun s =>
  match stream.initVerify J with
  | .error e => .error e s
  | .ok stream =>
    let (stream, data) := stream.updateVerify s.data
    let (stream, hidden) := match s.hidden with
      | none => (stream, none)
      | some hidden =>
        let (stream, hidden) := stream.updateVerify hidden
        (stream, some hidden)
    let (stream, _) := stream.updateVerify (View.wrap Signer.FORMAT_BYTES)
    match stream.verify J s.signature with
    | .error e signature => .error e { data, hidden, signature }
    | .ok result signature => .ok (result, stream.reset) { data, hidden, signature }

/-- `rawVerify`: a stream that threw is not put back. -/
def rawVerify (ref : KeyRef) (s : Inputs) : StateM Streams (EStateM.Result Exception Inputs Bool) := do
  match ← getStream keys ref with
  | .error e => return .error e s
  | .ok stream =>
    match rawVerifyWith J stream s with
    | .error e s => return .error e s
    | .ok (result, stream) s => do
      Pool.add ref stream
      return .ok result s

/-- The `for` loop over the keys: an exception of a key is dropped, one of `reset` is not. -/
def verifyKeys : List KeyRef → Inputs → StateM Streams (EStateM.Result Exception Inputs Bool)
  | [], s => return .ok false s
  | ref :: refs, s => do
    let next (s : Inputs) := match reset s with
      | .error e => return .error (.runtime e) s
      | .ok s => verifyKeys refs s
    match ← rawVerify J keys ref s with
    | .ok true s => return .ok true s
    | .ok false s => next s
    | .error _ s => next s

/-- `verify(ByteBuffer, ByteBuffer, ByteBuffer)`. -/
def verify (z : KeySet) (s : Inputs) : StateM Streams (EStateM.Result Exception Inputs Bool) :=
  if s.signature.buffer.remaining < Signer.HEADER_SIZE then
    return .error (.keyczar (.shortSignature s.signature.buffer.remaining)) s
  else match checkFormatAndGetHash s with
    | .error e s => return .error e s
    | .ok hash s =>
      match z.hashMap hash with
      | [] => return .error (.keyczar (.keyNotFound hash)) s
      | refs => verifyKeys J keys refs (mark s)

/-! ## `UnversionedVerifier` -/

namespace Unversioned

/-- What follows `getStream` in the `try` block of `verify`, and the stream as it leaves it. -/
def verifyWith (stream : VerificationStream) (data signature : View) : Except Exception (Bool × VerificationStream) := do
  let stream ← stream.initVerify J
  let (stream, _) := stream.updateVerify data.duplicate
  match stream.verify J signature.duplicate with
  | .error e _ => .error e
  | .ok result _ => .ok (result, stream.reset)

/-- `verify(ByteBuffer, ByteBuffer, KeyczarKey)`: an exception means that the signature is wrong. -/
def verifyKey (data signature : View) (ref : KeyRef) : StateM Streams Bool := do
  match ← getStream keys ref with
  | .error _ => return false
  | .ok stream =>
    match verifyWith J stream data signature with
    | .error _ => return false
    | .ok (result, stream) => do
      Pool.add ref stream
      return result

/-- `verify(ByteBuffer, ByteBuffer)`, with the keys of the versions in the order of the map. -/
def verify (data signature : View) : List KeyRef → StateM Streams Bool
  | [] => return false
  | ref :: refs => do
    if ← verifyKey J keys data signature ref then return true
    else verify data signature refs

end Unversioned

end Viewed

end Java
