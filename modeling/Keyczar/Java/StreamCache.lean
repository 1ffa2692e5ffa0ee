import Keyczar.Java.CrypterRuns
import Keyczar.Java.Encrypter
import Keyczar.Java.Signer
import Keyczar.Lib.Pool

/-!
# Streams that are used again

A key object keeps the streams that calls have put back, in a queue, and gives them out before it makes new ones. Here the calls run
on these queues: a call that ends well puts its stream back as its last final calls have left it, and a call that throws drops it. A
final call of a cipher or of an HMAC object resets it to what it was when it was initialised.
-/

namespace Java

open Bytes

/-- Where a key object lives. -/
abbrev KeyRef : Type := Nat

/-- The key set of an `Encrypter`, `Crypter`, `Signer` or `Verifier` object. Other objects may share its keys. -/
structure KeySet where
  primaryKey : Option KeyRef := none
  hashMap : Bytes → List KeyRef := fun _ => []

namespace KeySet

variable {ρ : Type} (z : KeySet)

/-- The key set with AES keys in the place of the objects. -/
def keyczar (keys : KeyRef → AesKey) : Keyczar where
  primaryVersion := z.primaryKey.map fun _ => { versionNumber := 1, status := .primary }
  versionMap _ := z.primaryKey.map fun ref => .aes (keys ref)
  hashMap hash := (z.hashMap hash).map fun ref => .aes (keys ref)

/-- The key set with keys that sign in the place of the objects. -/
def signingKeyczar (keys : KeyRef → SigningKey ρ) : SigningKeyczar ρ where
  primaryVersion := z.primaryKey.map fun _ => { versionNumber := 1, status := .primary }
  versionMap _ := z.primaryKey.map keys
  hashMap hash := (z.hashMap hash).map keys

end KeySet

/-- An HMAC key as a key that signs. -/
def HmacKey.signingKey (P : Primitives) (k : HmacKey) : SigningKey Unit where
  hash := (P.sha1 k.keyBytes).take KEY_HASH_SIZE
  digestSize := HMAC_DIGEST_SIZE
  sign _ data := .ok (P.hmacSha1 k.keyBytes data)
  verify data signature := .ok (constantTimeEq (P.hmacSha1 k.keyBytes data) signature)
  length_hash := by simp [KEY_HASH_SIZE]

/-! ## What calls leave of a stream -/

/-- What `doFinal` leaves. -/
def Cipher.reset : Cipher → Cipher
  | .cbc _ => .cbc (.init (List.replicate BLOCK_SIZE 0))
  | .ctr _ => .ctr 0

/-- What `doFinal` leaves. -/
def HmacStream.reset (s : HmacStream) : HmacStream := { s with data := [] }

/-- What `doFinal` leaves. -/
def SignatureStream.reset {ρ : Type} (s : SignatureStream ρ) : SignatureStream ρ := { s with data := [] }

namespace AesStream

/-- What the end of an encryption leaves. -/
def encrypted (s : AesStream) : AesStream :=
  { s with encryptingCipher := s.encryptingCipher.reset, signStream := s.signStream.reset }

/-- What a verification and `doFinalDecrypt` of the input leave. With an empty payload the cipher is not finished, and the flag stays. -/
def decrypted (s : AesStream) (input : ByteBuffer) : AesStream :=
  if s.ivRead ∧ input.remaining = 0 then { s with signStream := s.signStream.reset }
  else { s with decryptingCipher := s.decryptingCipher.reset, signStream := s.signStream.reset, ivRead := false }

end AesStream

/-- What the end of a decryption leaves. -/
def DecryptingStream.decrypted (d : DecryptingStream) (input : ByteBuffer) : DecryptingStream :=
  match d with
  | .aes s => .aes (s.decrypted input)
  | .rsaPrivate s => .rsaPrivate { s with buffer := [] }

namespace Cached

variable (P : Primitives) (keys : KeyRef → AesKey)

/-- The queues of the AES keys. -/
abbrev AesStreams : Type := KeyRef → List AesStream

/-- `getStream`. -/
def getStream (ref : KeyRef) : StateM AesStreams (Except KeyczarException AesStream) := Pool.take ref (AesStream.new (keys ref))

/-- `addStreamToCacheForReuse`; an AES key only gets back streams of its own class. -/
def addStreamToCacheForReuse (ref : KeyRef) (cryptStream : DecryptingStream) : StateM AesStreams Unit :=
  match cryptStream with
  | .aes s => Pool.add ref s
  | .rsaPrivate _ => pure ()

/-! ## Decryption -/

/-- The `try` block, and the stream as it leaves it. -/
def tryKey (input : ByteBuffer) (cryptStream : DecryptingStream) : OnBuffers DecryptingStream := do
  let (cryptStream, verifyStream, signature) ← Crypter.begin P input cryptStream
  let { inputCopy, .. } ← get
  let (cryptStream, verifyStream) ← Crypter.decryptChunks P inputCopy.remaining cryptStream verifyStream
  let { inputCopy, .. } ← get
  Crypter.finish P cryptStream verifyStream signature
  return cryptStream.decrypted inputCopy

/-- The `for` loop over the keys. -/
def tryKeys (input : ByteBuffer) (inputLimit : Nat) (collision : Bool) :
    List KeyRef → Option KeyczarException → Buffers → StateM AesStreams (EStateM.Result Exception Buffers Unit)
  | [], none, s => return .ok () s
  | [], some error, s => return .error (.keyczar error) s
  | ref :: refs, _, s => do
    match ← getStream keys ref with
    | .error e => return .error (.keyczar e) (Crypter.withTempBuffer collision s)
    | .ok cryptStream =>
      match tryKey P input (.aes cryptStream) (Crypter.withTempBuffer collision s) with
      | .ok cryptStream s => do
        addStreamToCacheForReuse ref cryptStream
        return Crypter.putBack inputLimit s
      | .error e s =>
        match Crypter.putBack inputLimit s with
        | .error e s => return .error e s
        | .ok _ s => tryKeys input inputLimit collision refs (some (Crypter.caught e)) s

/-- `decrypt(ByteBuffer, ByteBuffer)`. -/
def decryptBuffer (z : KeySet) (input output : ByteBuffer) : StateM AesStreams (EStateM.Result Exception ByteBuffer Unit) :=
  let inputCopy := input.asReadOnlyBuffer
  if inputCopy.remaining < Crypter.HEADER_SIZE then return .error (.keyczar (.shortCiphertext inputCopy.remaining)) output
  else match inputCopy.get 1 with
    | .error e => return .error (.runtime e) output
    | .ok (version, inputCopy) =>
      if version ≠ [Crypter.FORMAT_VERSION] then return .error (.keyczar (.badVersion (version.headD 0))) output
      else match inputCopy.get KEY_HASH_SIZE with
        | .error e => return .error (.runtime e) output
        | .ok (hash, inputCopy) =>
          match z.hashMap hash with
          | [] => return .error (.keyczar (.keyNotFound hash)) output
          | refs => do
            let inputCopy := inputCopy.setMark
            match ← tryKeys P keys input inputCopy.limit (refs.length > 1) refs none { inputCopy, output } with
            | .ok _ s => return .ok () s.output
            | .error e s => return .error e s.output

/-- `decrypt(byte[])`. -/
def decrypt (z : KeySet) (input : Bytes) : StateM AesStreams (Except Exception Bytes) := do
  match ← decryptBuffer P keys z (ByteBuffer.wrap input) (ByteBuffer.allocate input.length) with
  | .error e _ => return .error e
  | .ok _ output =>
    match output.rewind.get output.rewind.remaining with
    | .error e => return .error (.runtime e)
    | .ok (outputBytes, _) => return .ok outputBytes

/-! ## Encryption -/

/-- What follows `getStream` in `encrypt(ByteBuffer, ByteBuffer)`, and the stream as it leaves it. -/
def encryptWith (encryptingKey : AesKey) (cryptStream : AesStream) (ivPreImage : Bytes) (input : ByteBuffer) :
    EStateM Exception ByteBuffer AesStream := fun output =>
  let cryptStream := { cryptStream with signStream := cryptStream.signStream.initSign }
  let signed := output.position
  match Encrypter.copyHeader P encryptingKey output.setMark with
  | .error e output => .error e output
  | .ok _ output =>
    match cryptStream.initEncrypt P ivPreImage output with
    | .error e => .error e output
    | .ok (cryptStream, output) =>
      match Encrypter.encryptChunks P input.remaining cryptStream input.asReadOnlyBuffer signed output with
      | .error e output => .error e output
      | .ok (cryptStream, inputCopy, signed) output =>
        match Encrypter.finish P cryptStream inputCopy signed output with
        | .error e output => .error e output
        | .ok _ output => .ok cryptStream.encrypted output

/-- `encrypt(ByteBuffer, ByteBuffer)`, with the random block it draws. -/
def encryptBuffer (z : KeySet) (ivPreImage : Bytes) (input output : ByteBuffer) :
    StateM AesStreams (EStateM.Result Exception ByteBuffer Unit) :=
  match z.primaryKey with
  | none => return .error (.keyczar .noPrimaryKey) output
  | some ref => do
    match ← getStream keys ref with
    | .error e => return .error (.keyczar e) output
    | .ok cryptStream =>
      match encryptWith P (keys ref) cryptStream ivPreImage input output with
      | .error e output => return .error e output
      | .ok cryptStream output => do
        addStreamToCacheForReuse ref (.aes cryptStream)
        return .ok () output

/-- `ciphertextSize`. -/
def ciphertextSize (z : KeySet) (inputLength : Nat) : StateM AesStreams (Except Exception Int) :=
  match z.primaryKey with
  | none => return .error (.keyczar .noPrimaryKey)
  | some ref => do
    match ← getStream keys ref with
    | .error e => return .error (.keyczar e)
    | .ok cryptStream => do
      addStreamToCacheForReuse ref (.aes cryptStream)
      return .ok (toInt32 (Encrypter.HEADER_SIZE + cryptStream.maxOutputSize inputLength + HMAC_DIGEST_SIZE))

/-- `encrypt(byte[])`. -/
def encrypt (z : KeySet) (ivPreImage input : Bytes) : StateM AesStreams (Except Exception Bytes) := do
  match ← ciphertextSize keys z input.length with
  | .error e => return .error e
  | .ok size =>
    if size < 0 then return .error (.runtime .illegalArgument)
    else return Signer.sinceMark (← encryptBuffer P keys z ivPreImage (ByteBuffer.wrap input) (ByteBuffer.allocate size.toNat))

/-! ## Signatures -/

section Signatures

variable {ρ : Type} (signingKeys : KeyRef → SigningKey ρ) (random : ρ)

/-- The queues of the keys that sign. -/
abbrev SignatureStreams (ρ : Type) : Type := KeyRef → List (SignatureStream ρ)

/-- `getStream`. -/
def getSignatureStream (ref : KeyRef) : StateM (SignatureStreams ρ) (SignatureStream ρ) := do
  match ← Pool.poll ref with
  | some stream => return stream
  | none => return (signingKeys ref).getStream

/-- `digestSize`. -/
def digestSize (z : KeySet) : StateM (SignatureStreams ρ) (Except Exception Nat) :=
  match z.primaryKey with
  | none => return .error (.keyczar .noPrimaryKey)
  | some ref => do
    let stream ← getSignatureStream signingKeys ref
    Pool.add ref stream
    return .ok (Signer.HEADER_SIZE + stream.key.digestSize)

/-- What follows the check of the space in `sign(ByteBuffer, ByteBuffer, long, ByteBuffer)`, and the stream as it leaves it. -/
def signWith (stream : SignatureStream ρ) (input : ByteBuffer) (hidden : Option ByteBuffer) (expirationTime : Int64) :
    EStateM Exception ByteBuffer (SignatureStream ρ) := do
  let stream := stream.initSign
  modify ByteBuffer.setMark
  Signer.put (Signer.FORMAT_BYTES ++ stream.key.hash)
  let stream ← Signer.putExpiration stream expirationTime
  let stream := match hidden with
    | none => stream
    | some hidden => stream.updateSign hidden
  let stream := stream.updateSign input
  let stream := stream.updateSign (ByteBuffer.wrap Signer.FORMAT_BYTES)
  stream.sign random
  modify ByteBuffer.limitHere
  return stream.reset

/-- `sign(ByteBuffer, ByteBuffer, long, ByteBuffer)`. The size is asked for when the stream is out already. -/
def signBuffer (z : KeySet) (input : ByteBuffer) (hidden : Option ByteBuffer) (expirationTime : Int64) (output : ByteBuffer) :
    StateM (SignatureStreams ρ) (EStateM.Result Exception ByteBuffer Unit) :=
  match z.primaryKey with
  | none => return .error (.keyczar .noPrimaryKey) output
  | some ref => do
    let stream ← getSignatureStream signingKeys ref
    match ← digestSize signingKeys z with
    | .error e => return .error e output
    | .ok size =>
      if output.capacity < size + if 0 < expirationTime then Signer.TIMESTAMP_SIZE else 0 then
        return .error (.keyczar .shortBuffer) output
      else match signWith random stream input hidden expirationTime output with
        | .error e output => return .error e output
        | .ok stream output => do
          Pool.add ref stream
          return .ok () output

/-- `sign(byte[])`. -/
def sign (z : KeySet) (input : Bytes) : StateM (SignatureStreams ρ) (Except Exception Bytes) := do
  match ← digestSize signingKeys z with
  | .error e => return .error e
  | .ok size =>
    return Signer.sinceMark (← signBuffer signingKeys random z (ByteBuffer.wrap input) none 0 (ByteBuffer.allocate size))

/-- What follows `getStream` in `attachedSign`, and the stream as it leaves it. -/
def attachedSignWith (stream : SignatureStream ρ) (blob hidden : Bytes) : Except Exception (Bytes × SignatureStream ρ) := do
  let stream := stream.initSign
  let hiddenPlusLength ← (if 0 < hidden.length then Util.lenPrefix hidden else .ok (Util.fromInt 0)).mapError .runtime
  let stream := stream.updateSign (ByteBuffer.wrap blob)
  let stream := stream.updateSign (ByteBuffer.wrap hiddenPlusLength)
  let stream := stream.updateSign (ByteBuffer.wrap Signer.FORMAT_BYTES)
  match stream.sign random (ByteBuffer.allocate stream.key.digestSize).setMark with
  | .error e _ => .error e
  | .ok _ output => do
    let prefixed ← (Util.lenPrefix blob).mapError .runtime
    let signature ← (Util.cat [Signer.FORMAT_BYTES, stream.key.hash, prefixed, output.content.take output.position]).mapError .runtime
    return (signature, stream.reset)

/-- `attachedSign`. -/
def attachedSign (z : KeySet) (blob hidden : Bytes) : StateM (SignatureStreams ρ) (Except Exception Bytes) :=
  match z.primaryKey with
  | none => return .error (.keyczar .noPrimaryKey)
  | some ref => do
    let stream ← getSignatureStream signingKeys ref
    match attachedSignWith random stream blob hidden with
    | .error e => return .error e
    | .ok (signature, stream) => do
      Pool.add ref stream
      return .ok signature

/-- `rawVerify` with a stream, and the stream as it leaves it. -/
def rawVerify (stream : SignatureStream ρ) (data : ByteBuffer) (hidden : Option ByteBuffer) (signature : ByteBuffer) :
    Except Exception (Bool × SignatureStream ρ) := do
  let stream := stream.initVerify
  let stream := stream.updateVerify data
  let stream := match hidden with
    | none => stream
    | some hidden => stream.updateVerify hidden
  let stream := stream.updateVerify (ByteBuffer.wrap Signer.FORMAT_BYTES)
  let result ← stream.verify signature
  return (result, stream.reset)

/-- The loop over the keys. The stream is put back also when the signature is wrong. -/
def verifyKeys (data : ByteBuffer) (hidden : Option ByteBuffer) (signature : ByteBuffer) :
    List KeyRef → StateM (SignatureStreams ρ) Bool
  | [] => return false
  | ref :: refs => do
    let stream ← getSignatureStream signingKeys ref
    match rawVerify stream data hidden signature with
    | .error _ => verifyKeys data hidden signature refs
    | .ok (result, stream) => do
      Pool.add ref stream
      if result then return true else verifyKeys data hidden signature refs

/-- `getVerifyingKey`, and the loop over its keys. -/
def verifyHash (z : KeySet) (hash : Bytes) (data : ByteBuffer) (hidden : Option ByteBuffer) (signature : ByteBuffer) :
    StateM (SignatureStreams ρ) (Except Exception Bool) :=
  match z.hashMap hash with
  | [] => return .error (.keyczar (.keyNotFound hash))
  | refs => return .ok (← verifyKeys signingKeys data hidden signature refs)

/-- `verify(ByteBuffer, ByteBuffer, ByteBuffer)`. -/
def verifyBuffer (z : KeySet) (data : ByteBuffer) (hidden : Option ByteBuffer) (signature : ByteBuffer) :
    StateM (SignatureStreams ρ) (Except Exception Bool) :=
  if signature.remaining < Signer.HEADER_SIZE then return .error (.keyczar (.shortSignature signature.remaining))
  else match Verifier.checkFormatAndGetHash signature with
    | .error e => return .error e
    | .ok (hash, signature) => verifyHash signingKeys z hash data hidden signature

/-- The blob, its signature and what was signed behind the blob, with the hash. -/
def parseAttached (signedBlob hidden : Bytes) : Except Exception (Bytes × Bytes × Bytes × Bytes) := do
  let (hash, sigBuffer) ← Verifier.checkFormatAndGetHash (ByteBuffer.wrap signedBlob)
  let (blob, sigBuffer) ← Verifier.getBlob sigBuffer
  let (signature, _) ← (sigBuffer.get sigBuffer.remaining).mapError .runtime
  let hiddenPlusLength ← (if 0 < hidden.length then Util.lenPrefix hidden else .ok (Util.fromInt 0)).mapError .runtime
  return (hash, blob, signature, hiddenPlusLength)

/-- `attachedVerify`. -/
def attachedVerify (z : KeySet) (signedBlob hidden : Bytes) : StateM (SignatureStreams ρ) (Except Exception Bool) :=
  match parseAttached signedBlob hidden with
  | .error e => return .error e
  | .ok (hash, blob, signature, hiddenPlusLength) =>
    verifyHash signingKeys z hash (ByteBuffer.wrap blob) (some (ByteBuffer.wrap hiddenPlusLength)) (ByteBuffer.wrap signature)

end Signatures

end Cached

/-! ## Sequences of calls -/

/-- The key objects of a process. -/
structure KeyObjects where
  aes : KeyRef → AesKey
  hmac : KeyRef → HmacKey

/-- The queues of all key objects. -/
abbrev Caches : Type := Cached.AesStreams × Cached.SignatureStreams Unit

/-- No stream was put back yet. -/
def Caches.empty : Caches := (fun _ => [], fun _ => [])

/-- A call of an `Encrypter`, `Crypter`, `Signer` or `Verifier` object, with its key set and the random block it draws. -/
inductive Call where
  | ciphertextSize (z : KeySet) (inputLength : Nat)
  | encryptBuffer (z : KeySet) (ivPreImage : Bytes) (input output : ByteBuffer)
  | encrypt (z : KeySet) (ivPreImage input : Bytes)
  | decryptBuffer (z : KeySet) (input output : ByteBuffer)
  | decrypt (z : KeySet) (input : Bytes)
  | digestSize (z : KeySet)
  | signBuffer (z : KeySet) (input : ByteBuffer) (hidden : Option ByteBuffer) (expirationTime : Int64) (output : ByteBuffer)
  | sign (z : KeySet) (input : Bytes)
  | attachedSign (z : KeySet) (blob hidden : Bytes)
  | verifyBuffer (z : KeySet) (data : ByteBuffer) (hidden : Option ByteBuffer) (signature : ByteBuffer)
  | attachedVerify (z : KeySet) (signedBlob hidden : Bytes)

/-- How a call ends: with the output as it is then, or with what it returns. -/
inductive Outcome where
  | buffer (result : EStateM.Result Exception ByteBuffer Unit)
  | bytes (result : Except Exception Bytes)
  | size (result : Except Exception Int)
  | verified (result : Except Exception Bool)

namespace Call

open Pool

variable (P : Primitives) (objects : KeyObjects)

/-- The HMAC keys as keys that sign. -/
def signingKeys (ref : KeyRef) : SigningKey Unit := (objects.hmac ref).signingKey P

/-- The call on the queues. -/
def run : Call → StateM Caches Outcome
  | .ciphertextSize z inputLength => .size <$> onFst (Cached.ciphertextSize objects.aes z inputLength)
  | .encryptBuffer z ivPreImage input output => .buffer <$> onFst (Cached.encryptBuffer P objects.aes z ivPreImage input output)
  | .encrypt z ivPreImage input => .bytes <$> onFst (Cached.encrypt P objects.aes z ivPreImage input)
  | .decryptBuffer z input output => .buffer <$> onFst (Cached.decryptBuffer P objects.aes z input output)
  | .decrypt z input => .bytes <$> onFst (Cached.decrypt P objects.aes z input)
  | .digestSize z => (fun r => .size (r.map Int.ofNat)) <$> onSnd (Cached.digestSize (signingKeys P objects) z)
  | .signBuffer z input hidden expirationTime output =>
    .buffer <$> onSnd (Cached.signBuffer (signingKeys P objects) () z input hidden expirationTime output)
  | .sign z input => .bytes <$> onSnd (Cached.sign (signingKeys P objects) () z input)
  | .attachedSign z blob hidden => .bytes <$> onSnd (Cached.attachedSign (signingKeys P objects) () z blob hidden)
  | .verifyBuffer z data hidden signature =>
    .verified <$> onSnd (Cached.verifyBuffer (signingKeys P objects) z data hidden signature)
  | .attachedVerify z signedBlob hidden => .verified <$> onSnd (Cached.attachedVerify (signingKeys P objects) z signedBlob hidden)

/-- The call with new streams. -/
def fresh : Call → Outcome
  | .ciphertextSize z inputLength => .size (match z.primaryKey with
    | none => .error (.keyczar .noPrimaryKey)
    | some ref => Encrypter.ciphertextSize (objects.aes ref) inputLength)
  | .encryptBuffer z ivPreImage input output => .buffer (match z.primaryKey with
    | none => .error (.keyczar .noPrimaryKey) output
    | some ref => Encrypter.encryptBuffer P (objects.aes ref) ivPreImage input output)
  | .encrypt z ivPreImage input => .bytes (match z.primaryKey with
    | none => .error (.keyczar .noPrimaryKey)
    | some ref => Encrypter.encryptWith P (objects.aes ref) ivPreImage input)
  | .decryptBuffer z input output => .buffer (Crypter.decryptBuffer P (z.keyczar objects.aes) input output)
  | .decrypt z input => .bytes (Crypter.decrypt P (z.keyczar objects.aes) input)
  | .digestSize z => .size ((Signer.digestSize (z.signingKeyczar (signingKeys P objects))).map Int.ofNat)
  | .signBuffer z input hidden expirationTime output =>
    .buffer (Signer.signBuffer (z.signingKeyczar (signingKeys P objects)) () input hidden expirationTime output)
  | .sign z input => .bytes (Signer.sign (z.signingKeyczar (signingKeys P objects)) () input)
  | .attachedSign z blob hidden => .bytes (Signer.attachedSign (z.signingKeyczar (signingKeys P objects)) () blob hidden)
  | .verifyBuffer z data hidden signature =>
    .verified (Verifier.verifyBuffer (z.signingKeyczar (signingKeys P objects)) data hidden signature)
  | .attachedVerify z signedBlob hidden =>
    .verified (Verifier.attachedVerify (z.signingKeyczar (signingKeys P objects)) signedBlob hidden)

end Call

/-- What the calls of a process give, one after another. -/
def outcomes (P : Primitives) (objects : KeyObjects) (calls : List Call) : List Outcome :=
  (calls.mapM (Call.run P objects) Caches.empty).1

end Java
