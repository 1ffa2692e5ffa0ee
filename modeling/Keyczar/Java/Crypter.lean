import Keyczar.Java.Keyczar
import Keyczar.Lib.Throwing

/-!
# Decryption in the Java library

`Crypter.decrypt` tries the keys registered under the hash in the header one after the other, all over one view of the input. A
try decrypts the payload in chunks while it updates the verification, checks the signature, and decrypts the rest. With more
than one key the last part is decrypted into a buffer of its own and copied to the output at the end; the chunks before it go to
the output itself.
-/

namespace Java

open Throwing

/-- The buffers that a try works on; without a buffer of its own it decrypts into the output. -/
structure Buffers where
  inputCopy : ByteBuffer
  output : ByteBuffer
  tempBuffer : Option ByteBuffer := none
  deriving DecidableEq, Repr

/-- A call that may throw and leaves the buffers as it got them to. -/
abbrev OnBuffers : Type → Type := EStateM Exception Buffers

namespace Crypter

def FORMAT_VERSION : UInt8 := 0

def HEADER_SIZE : Nat := 1 + KEY_HASH_SIZE

def DECRYPT_CHUNK_SIZE : Nat := 1024

/-- A call on the view of the input. -/
def onInput (f : ByteBuffer → Except RuntimeException ByteBuffer) : OnBuffers Unit := fun s =>
  match f s.inputCopy with
  | .error e => .error (.runtime e) s
  | .ok inputCopy => .ok () { s with inputCopy }

/-- A value that may be an exception. -/
def orThrow {α : Type} (x : Except Exception α) : OnBuffers α := fun s =>
  match x with
  | .error e => .error e s
  | .ok a => .ok a s

variable (P : Primitives)

/-- `cryptStream.initDecrypt(inputCopy)`. -/
def initDecrypt (cryptStream : DecryptingStream) : OnBuffers DecryptingStream := fun s =>
  match cryptStream.initDecrypt P s.inputCopy with
  | .error e => .error e s
  | .ok (cryptStream, inputCopy) => .ok cryptStream { s with inputCopy }

/-- The start of the `try` block: the signature is cut off the input, and the header and the vector are put into the verification. -/
def begin (input : ByteBuffer) (cryptStream : DecryptingStream) : OnBuffers (DecryptingStream × VerifyingStream × ByteBuffer) := do
  let verifyStream := cryptStream.getVerifyingStream
  let { inputCopy, .. } ← get
  if inputCopy.remaining < verifyStream.digestSize then throw (.keyczar (.shortCiphertext inputCopy.remaining))
  onInput (·.setPosition (inputCopy.limit - verifyStream.digestSize))
  let { inputCopy, .. } ← get
  let signature := inputCopy.slice
  onInput (·.reset)
  onInput fun b => b.setLimit (b.limit - verifyStream.digestSize)
  let cryptStream ← initDecrypt P cryptStream
  let { inputCopy, .. } ← get
  let headerAndIvToVerify ← orThrow ((input.asReadOnlyBuffer.setLimit inputCopy.position).mapError .runtime)
  let verifyStream := verifyStream.initVerify.updateVerify headerAndIvToVerify
  modify fun s => match s.tempBuffer with
    | none => { s with output := s.output.setMark }
    | some temp => { s with tempBuffer := some temp.setMark }
  return (cryptStream, verifyStream, signature)

/-- The body of the `while` loop. The chunk is decrypted into the output, also when the try has a buffer of its own. -/
def decryptChunk (cryptStream : DecryptingStream) (verifyStream : VerifyingStream) :
    OnBuffers (DecryptingStream × VerifyingStream) := do
  let { inputCopy, output, .. } ← get
  let ciphertextChunk ← orThrow ((inputCopy.slice.setLimit DECRYPT_CHUNK_SIZE).mapError .runtime)
  let (cryptStream, output) ← orThrow (cryptStream.updateDecrypt P ciphertextChunk output)
  modify fun s => { s with output }
  let verifyStream := verifyStream.updateVerify ciphertextChunk.rewind
  onInput fun b => b.setPosition (b.position + DECRYPT_CHUNK_SIZE)
  return (cryptStream, verifyStream)

/-- The `while` loop, with at most as many turns as the first argument says. -/
def decryptChunks : Nat → DecryptingStream → VerifyingStream → OnBuffers (DecryptingStream × VerifyingStream)
  | 0, cryptStream, verifyStream => pure (cryptStream, verifyStream)
  | fuel + 1, cryptStream, verifyStream => do
    let { inputCopy, .. } ← get
    if inputCopy.remaining ≤ DECRYPT_CHUNK_SIZE then return (cryptStream, verifyStream)
    let (cryptStream, verifyStream) ← decryptChunk P cryptStream verifyStream
    decryptChunks fuel cryptStream verifyStream

/-- The end of the `try` block: the signature is checked and the rest is decrypted. -/
def finish (cryptStream : DecryptingStream) (verifyStream : VerifyingStream) (signature : ByteBuffer) : OnBuffers Unit := do
  let { inputCopy, output, tempBuffer } ← get
  let lastBlock := inputCopy.position
  let verifyStream := verifyStream.updateVerify inputCopy
  if !verifyStream.verify P signature then throw (.keyczar .invalidSignature)
  onInput (·.setPosition lastBlock)
  match tempBuffer with
  | none =>
    let output ← orThrow (cryptStream.doFinalDecrypt P inputCopy output)
    modify fun s => { s with output := output.limitHere }
  | some temp =>
    let temp ← orThrow (cryptStream.doFinalDecrypt P inputCopy temp)
    let temp := temp.limitHere.rewind
    let output ← orThrow ((output.put temp.rest).mapError .runtime)
    modify fun s => { s with output := output.limitHere, tempBuffer := some temp }

/-- The `try` block. The loop makes no more turns than there are bytes. -/
def tryKey (input : ByteBuffer) (cryptStream : DecryptingStream) : OnBuffers Unit := do
  let (cryptStream, verifyStream, signature) ← begin P input cryptStream
  let { inputCopy, .. } ← get
  let (cryptStream, verifyStream) ← decryptChunks P inputCopy.remaining cryptStream verifyStream
  finish P cryptStream verifyStream signature

/-- The `finally` block. -/
def putBack (inputLimit : Nat) : OnBuffers Unit := do
  onInput (·.reset)
  onInput (·.setLimit inputLimit)

/-- What a try starts from: with a collision, an empty buffer of its own. -/
def withTempBuffer (collision : Bool) (s : Buffers) : Buffers :=
  { s with tempBuffer := if collision then some (ByteBuffer.allocate s.output.remaining) else none }

/-- The `for` loop over the keys, with the error of the key before; a cast that fails, and a stream that cannot be made, are
outside of the `try` block. -/
def tryKeys (input : ByteBuffer) (inputLimit : Nat) (collision : Bool) : List KeyczarKey → Option KeyczarException → OnBuffers Unit
  | [], none => pure ()
  | [], some error => throw (.keyczar error)
  | key :: keys, _ => do
    modify (withTempBuffer collision)
    let cryptStream ← orThrow key.getStream
    fun s => match tryKey P input cryptStream s with
      | .ok _ s => putBack inputLimit s
      | .error (.keyczar e) s => (putBack inputLimit >>= fun _ => tryKeys input inputLimit collision keys (some e)) s
      | .error (.runtime _) s =>
        (putBack inputLimit >>= fun _ => tryKeys input inputLimit collision keys (some .invalidSignature)) s

variable (z : Keyczar)

/-- `decrypt(ByteBuffer, ByteBuffer)`: the state is the output. -/
def decryptBuffer (input : ByteBuffer) : EStateM Exception ByteBuffer Unit := fun output =>
  let inputCopy := input.asReadOnlyBuffer
  if inputCopy.remaining < HEADER_SIZE then .error (.keyczar (.shortCiphertext inputCopy.remaining)) output
  else match inputCopy.get 1 with
    | .error e => .error (.runtime e) output
    | .ok (version, inputCopy) =>
      if version ≠ [FORMAT_VERSION] then .error (.keyczar (.badVersion (version.headD 0))) output
      else match inputCopy.get KEY_HASH_SIZE with
        | .error e => .error (.runtime e) output
        | .ok (hash, inputCopy) =>
          match z.getKey hash with
          | [] => .error (.keyczar (.keyNotFound hash)) output
          | keys =>
            let inputCopy := inputCopy.setMark
            match tryKeys P input inputCopy.limit (keys.length > 1) keys none { inputCopy, output } with
            | .ok _ s => .ok () s.output
            | .error e s => .error e s.output

/-- `decrypt(byte[])`. -/
def decrypt (input : Bytes) : Except Exception Bytes :=
  match decryptBuffer P z (ByteBuffer.wrap input) (ByteBuffer.allocate input.length) with
  | .error e _ => .error e
  | .ok _ output =>
    match output.rewind.get output.rewind.remaining with
    | .error e => .error (.runtime e)
    | .ok (outputBytes, _) => .ok outputBytes

/-- `isAcceptablePurpose`. -/
def isAcceptablePurpose (purpose : KeyPurpose) : Bool := purpose = .decryptAndEncrypt

end Crypter

end Java
