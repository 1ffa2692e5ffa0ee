import Keyczar.Java.Keyczar

/-!
# Encryption in the Java library

`Encrypter.encrypt` writes the header, the block that the random pre-image is encrypted to, and the encrypted plaintext, chunk by
chunk, and signs what it wrote as it goes. The size of the output is computed beforehand, in `int` arithmetic.
-/

namespace Java

namespace Encrypter

def FORMAT_VERSION : UInt8 := 0

def HEADER_SIZE : Nat := 1 + KEY_HASH_SIZE

def ENCRYPT_CHUNK_SIZE : Nat := 1024

variable (P : Primitives)

/-- `outputToSign` from the position `signed` to the output's position is put into the signature. -/
def signUpTo (s : AesStream) (output : ByteBuffer) (signed : Nat) : AesStream :=
  { s with signStream := s.signStream.updateSign (ByteBuffer.wrap ((output.content.take output.position).drop signed)) }

/-- The `while` loop, with at most as many turns as the first argument says: the stream, what is left of the input, and where
`outputToSign` stands. -/
def encryptChunks : Nat → AesStream → ByteBuffer → Nat → EStateM Exception ByteBuffer (AesStream × ByteBuffer × Nat)
  | 0, s, inputCopy, signed => pure (s, inputCopy, signed)
  | fuel + 1, s, inputCopy, signed => fun output =>
    if inputCopy.remaining ≤ ENCRYPT_CHUNK_SIZE then .ok (s, inputCopy, signed) output
    else match inputCopy.slice.setLimit ENCRYPT_CHUNK_SIZE with
      | .error e => .error (.runtime e) output
      | .ok inputChunk =>
        match s.updateEncrypt P inputChunk output with
        | .error e => .error e output
        | .ok (s, output) =>
          match inputCopy.setPosition (inputCopy.position + ENCRYPT_CHUNK_SIZE) with
          | .error e => .error (.runtime e) output
          | .ok inputCopy => encryptChunks fuel (signUpTo s output signed) inputCopy output.position output

/-- What follows the loop: the rest of the plaintext, and the signature. -/
def finish (s : AesStream) (inputCopy : ByteBuffer) (signed : Nat) : EStateM Exception ByteBuffer Unit := fun output =>
  match s.doFinalEncrypt P inputCopy output with
  | .error e => .error e output
  | .ok output =>
    match output.setLimit (output.position + HMAC_DIGEST_SIZE) with
    | .error e => .error (.runtime e) output
    | .ok output =>
      let s := signUpTo s output signed
      match output.put (s.signStream.sign P) with
      | .error e => .error (.runtime e) output
      | .ok output => .ok () output

/-- `copyHeader`. -/
def copyHeader (encryptingKey : AesKey) : EStateM Exception ByteBuffer Unit := fun output =>
  match output.put [FORMAT_VERSION] with
  | .error e => .error (.runtime e) output
  | .ok output =>
    match output.put (encryptingKey.hash P) with
    | .error e => .error (.runtime e) output
    | .ok output => .ok () output

/-- `encrypt(ByteBuffer, ByteBuffer)` under an AES key, with the random block it draws: the state is the output, which is marked. -/
def encryptBuffer (encryptingKey : AesKey) (ivPreImage : Bytes) (input : ByteBuffer) : EStateM Exception ByteBuffer Unit :=
  fun output =>
    match AesStream.new encryptingKey with
    | .error e => .error (.keyczar e) output
    | .ok cryptStream =>
      let cryptStream := { cryptStream with signStream := cryptStream.signStream.initSign }
      let signed := output.position
      match copyHeader P encryptingKey output.setMark with
      | .error e output => .error e output
      | .ok _ output =>
        match cryptStream.initEncrypt P ivPreImage output with
        | .error e => .error e output
        | .ok (cryptStream, output) =>
          match encryptChunks P input.remaining cryptStream input.asReadOnlyBuffer signed output with
          | .error e output => .error e output
          | .ok (cryptStream, inputCopy, signed) output => finish P cryptStream inputCopy signed output

/-- `ciphertextSize`. -/
def ciphertextSize (encryptingKey : AesKey) (inputLength : Nat) : Except Exception Int :=
  match AesStream.new encryptingKey with
  | .error e => .error (.keyczar e)
  | .ok cryptStream => .ok (toInt32 (HEADER_SIZE + cryptStream.maxOutputSize inputLength + HMAC_DIGEST_SIZE))

/-- `encrypt(byte[])` under an AES key. A negative size cannot be allocated. -/
def encryptWith (encryptingKey : AesKey) (ivPreImage input : Bytes) : Except Exception Bytes := do
  let size ← ciphertextSize encryptingKey input.length
  if size < 0 then throw (.runtime .illegalArgument)
  match encryptBuffer P encryptingKey ivPreImage (ByteBuffer.wrap input) (ByteBuffer.allocate size.toNat) with
  | .error e _ => .error e
  | .ok _ output =>
    match output.reset with
    | .error e => .error (.runtime e)
    | .ok output => match output.get output.remaining with
      | .error e => .error (.runtime e)
      | .ok (outputBytes, _) => .ok outputBytes

/-- `encrypt(byte[])` for a key set whose primary key is an AES key; other keys are not covered. -/
def encrypt (z : Keyczar) (ivPreImage input : Bytes) : Option (Except Exception Bytes) :=
  match z.getPrimaryKey with
  | none => some (.error (.keyczar .noPrimaryKey))
  | some (.aes k) => some (encryptWith P k ivPreImage input)
  | some _ => none

/-- `isAcceptablePurpose`. -/
def isAcceptablePurpose (purpose : KeyPurpose) : Bool := purpose = .encrypt || purpose = .decryptAndEncrypt

end Encrypter

end Java
