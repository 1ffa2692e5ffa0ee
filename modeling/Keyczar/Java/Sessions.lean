import Keyczar.Java.Base64Strings
import Keyczar.Java.Crypter
import Keyczar.Java.Encrypter
import Keyczar.Java.LengthPrefixes
import Keyczar.Java.Signer

/-!
# Sessions of the Java library

A session makes up an AES key, which travels packed or, with a nonce, as JSON. Either side writes its key out as JSON and reads it again
into a `Crypter` of one version. A signed session puts its key and its nonce aside before it encrypts them for the other side, and takes
what was put aside last for everything that it encrypts from then on.
-/

namespace Java

open Bytes Throwing

/-- What a session throws: what the objects that it uses throw, and exceptions of its own. -/
inductive SessionThrown where
  | thrown (e : Exception)
  | coder (e : Base64Strings.Thrown)
  | json
  | invalidPackedKey
  | unsupportedKeySize
  | notInitialized
  deriving DecidableEq, Repr

/-! ## Keys as JSON objects -/

/-- What `HmacKey.toJson` puts, and `fromJson` gets. -/
structure HmacKeyJson where
  size : Int
  hmacKeyString : Text
  deriving DecidableEq, Repr

/-- What `AesKey.toJson` puts, and `fromJson` gets. -/
structure AesKeyJson where
  size : Int
  aesKeyString : Text
  hmacKey : HmacKeyJson
  mode : CipherMode
  deriving DecidableEq, Repr

/-- `SessionMaterial`. Its key is only ever written out. -/
structure SessionMaterial where
  key : AesKeyJson
  nonce : Text
  deriving DecidableEq, Repr

/-- The package `org.json`, as far as sessions use it, on the bytes of the texts. -/
structure JSONObjects where
  writeKey : AesKeyJson → Bytes
  readKey : Bytes → Option AesKeyJson
  writeSession : SessionMaterial → Bytes
  readSession : Bytes → Option SessionMaterial
  readKey_writeKey : ∀ k, readKey (writeKey k) = some k
  readSession_writeSession : ∀ s, readSession (writeSession s) = some s

/-- `SecretKeySpec` refuses an empty key. -/
def secretKey (keyBytes : Bytes) : Except SessionThrown {key : Bytes // key ≠ []} :=
  if h : keyBytes = [] then .error (.thrown (.runtime .illegalArgument)) else .ok ⟨keyBytes, h⟩

/-- `HmacKey(byte[])`. -/
def HmacKeyJson.new (keyBytes : Bytes) : Except SessionThrown HmacKeyJson := do
  let hmacKeyString ← (Base64Strings.encodeWebSafe keyBytes).mapError .coder
  let _ ← secretKey keyBytes
  return { size := toInt32 (keyBytes.length * 8), hmacKeyString }

namespace AesKeyJson

/-- `AesKey(byte[], HmacKey)`. -/
def new (aesKeyBytes : Bytes) (hmacKey : HmacKeyJson) : Except SessionThrown AesKeyJson := do
  let aesKeyString ← (Base64Strings.encodeWebSafe aesKeyBytes).mapError .coder
  let _ ← secretKey aesKeyBytes
  return { size := toInt32 (aesKeyBytes.length * 8), aesKeyString, hmacKey, mode := .cbc }

/-- `AesKey.fromPackedKey`. Bytes behind the two keys are not looked at. -/
def fromPackedKey (packedKeys : Bytes) : Except SessionThrown AesKeyJson := do
  let unpackedKeys ← (Util.lenPrefixUnpack packedKeys 2).mapError fun e => .thrown (.runtime e)
  match unpackedKeys with
  | some [aesKeyBytes, hmacKeyBytes] => do
    let hmacKey ← HmacKeyJson.new hmacKeyBytes
    new aesKeyBytes hmacKey
  | _ => .error .invalidPackedKey

/-- `AesKey.read`, of the object that the text is. -/
def init (json : AesKeyJson) : Except SessionThrown AesKey := do
  let hmacKeyBytes ← (Base64Strings.decodeWebSafe json.hmacKey.hmacKeyString).mapError .coder
  let hmacKey ← secretKey hmacKeyBytes
  let aesBytes ← (Base64Strings.decodeWebSafe json.aesKeyString).mapError .coder
  let aesKey ← secretKey aesBytes
  return { aesBytes := aesKey.val, hmacKey := ⟨hmacKey.val, hmacKey.property⟩, mode := json.mode, ne_nil := aesKey.property }

end AesKeyJson

/-! ## Crypters of one key -/

variable (P : Primitives) (J : JSONObjects)

/-- `ImportedKeyReader`, of an AES key: what its only text is read as. -/
def importedKeyReader (key : AesKey) : KeyczarReader where
  metadata := { purpose := .decryptAndEncrypt, versions := [⟨0, .primary⟩] }
  getKey version := if version = 0 then .ok (.aes key) else .error (.runtime .indexOutOfBounds)

/-- `new Crypter(new ImportedKeyReader(aesKey))`. -/
def importedCrypter (aesKey : AesKeyJson) : Except SessionThrown Keyczar :=
  match J.readKey (J.writeKey aesKey) with
  | none => .error .json
  | some json => do
    let key ← json.init
    (Keyczar.new P Crypter.isAcceptablePurpose (importedKeyReader key)).mapError .thrown

/-- `encrypt` of such a crypter, whose key is an AES key. -/
def encryptImported (z : Keyczar) (ivPreImage plaintext : Bytes) : Except SessionThrown Bytes :=
  match Encrypter.encrypt P z ivPreImage plaintext with
  | none => .error (.thrown (.runtime .classCast))
  | some ciphertext => ciphertext.mapError .thrown

/-- The random bytes of a session. An AES key takes as many as it needs, and the HMAC key that goes with it by default takes all. -/
structure SessionDraws where
  random : Bytes
  hmacRandom : Bytes
  nonce : Bytes
  length_random : random.length = 32
  length_hmacRandom : hmacRandom.length = 32
  length_nonce : nonce.length = 16
  deriving Repr

/-- `AesKeyParameters`, with the array that `getHmacKey` makes a key of. -/
structure AesKeyParameters where
  keySize : Int
  hmacKeyBytes : Bytes
  length_hmacKeyBytes : hmacKeyBytes.length < 2 ^ 31
  deriving DecidableEq, Repr

/-- `DefaultKeyType.AES.applyDefaultParameters(null)`. -/
def SessionDraws.defaultParameters (d : SessionDraws) : AesKeyParameters where
  keySize := 128
  hmacKeyBytes := d.hmacRandom
  length_hmacKeyBytes := by
    rw [d.length_hmacRandom]
    decide

namespace AesKeyParameters

variable (params : AesKeyParameters) (d : SessionDraws)

/-- `Util.rand(params.getKeySize() / 8)`. -/
def aesKeyBytes : Bytes := d.random.take (params.keySize / 8).toNat

/-- `AesKey.generate`. -/
def generate : Except SessionThrown AesKeyJson := do
  let hmacKey ← HmacKeyJson.new params.hmacKeyBytes
  AesKeyJson.new (params.aesKeyBytes d) hmacKey

end AesKeyParameters

/-! ## Sessions with a packed key -/

/-- `SessionCrypter`, and a `SessionEncrypter` or `SessionDecrypter`, which has one half of it. -/
structure SessionCrypter where
  symmetricCrypter : Keyczar
  sessionMaterial : Bytes

namespace SessionCrypter

/-- The constructor with an `Encrypter`, whose `encrypt` is given. -/
def new (encrypt : Bytes → Except Exception Bytes) (d : SessionDraws) : Except SessionThrown SessionCrypter := do
  let aesKey ← d.defaultParameters.generate d
  let symmetricCrypter ← importedCrypter P J aesKey
  let encoded ← (Util.lenPrefixPack [d.defaultParameters.aesKeyBytes d, d.hmacRandom]).mapError fun e => .thrown (.runtime e)
  let sessionMaterial ← (encrypt encoded).mapError .thrown
  return { symmetricCrypter, sessionMaterial }

/-- The constructor with a `Crypter`, whose `decrypt` is given. -/
def ofMaterial (decrypt : Bytes → Except Exception Bytes) (sessionMaterial : Bytes) : Except SessionThrown SessionCrypter := do
  let packedKeys ← (decrypt sessionMaterial).mapError .thrown
  let aesKey ← AesKeyJson.fromPackedKey packedKeys
  let symmetricCrypter ← importedCrypter P J aesKey
  return { symmetricCrypter, sessionMaterial }

/-- `encrypt`. -/
def encrypt (c : SessionCrypter) (ivPreImage plaintext : Bytes) : Except SessionThrown Bytes :=
  encryptImported P c.symmetricCrypter ivPreImage plaintext

/-- `decrypt`. -/
def decrypt (c : SessionCrypter) (ciphertext : Bytes) : Except SessionThrown Bytes :=
  (Crypter.decrypt P c.symmetricCrypter ciphertext).mapError .thrown

end SessionCrypter

/-! ## Signed sessions -/

/-- The sizes that `DefaultKeyType.AES` accepts. -/
def acceptableSizes : List Int := [128, 192, 256]

/-- `SignedSessionEncrypter`, with the session that was put aside; `encrypt` draws. -/
structure SignedSessionEncrypter (σ ρ : Type) where
  encrypt : σ → Bytes → Except Exception Bytes
  signer : SigningKeyczar ρ
  session : Option SessionMaterial := none

namespace SignedSessionEncrypter

variable {σ ρ : Type} (e : SignedSessionEncrypter σ ρ)

/-- `buildSessionKey`. -/
def buildSessionKey (params : AesKeyParameters) (d : SessionDraws) : Except SessionThrown AesKeyJson :=
  if params.keySize ∉ acceptableSizes then .error .unsupportedKeySize else params.generate d

/-- `buildNonce`. -/
def buildNonce (d : SessionDraws) : Except SessionThrown Text := (Base64Strings.encodeWebSafe d.nonce).mapError .coder

/-- `new SessionMaterial(buildSessionKey(params), buildNonce())`. -/
def buildMaterial (params : AesKeyParameters) (d : SessionDraws) : Except SessionThrown SessionMaterial := do
  let key ← buildSessionKey params d
  let nonce ← buildNonce d
  return { key, nonce }

/-- `encrypter.encrypt(sessionMaterial.toString())`. -/
def encryptMaterial (random : σ) (material : SessionMaterial) : Except SessionThrown Text := do
  let ciphertext ← (e.encrypt random (J.writeSession material)).mapError .thrown
  (Base64Strings.encodeWebSafe ciphertext).mapError .coder

/-- `newSession`: the session is put aside before it is encrypted. -/
def newSession (params : AesKeyParameters) (d : SessionDraws) (random : σ) :
    Except SessionThrown Text × SignedSessionEncrypter σ ρ :=
  match buildMaterial params d with
  | .error thrown => (.error thrown, e)
  | .ok material => (e.encryptMaterial J random material, { e with session := some material })

/-- `encrypt`. -/
def encryptSigned (ivPreImage : Bytes) (random : ρ) (plainText : Bytes) : Except SessionThrown Bytes :=
  match e.session with
  | none => .error .notInitialized
  | some material => do
    let symmetricCrypter ← importedCrypter P J material.key
    let ciphertext ← encryptImported P symmetricCrypter ivPreImage plainText
    let nonce ← (Base64Strings.decodeWebSafe material.nonce).mapError .coder
    (Signer.attachedSign e.signer random ciphertext nonce).mapError .thrown

end SignedSessionEncrypter

/-- `SignedSessionDecrypter`. -/
structure SignedSessionDecrypter (ρ : Type) where
  verifier : SigningKeyczar ρ
  session : SessionMaterial

namespace SignedSessionDecrypter

variable {ρ : Type}

/-- The constructor, with a `Crypter` whose `decrypt` is given. -/
def new (decrypt : Bytes → Except Exception Bytes) (verifier : SigningKeyczar ρ) (session : Text) :
    Except SessionThrown (SignedSessionDecrypter ρ) := do
  let decoded ← (Base64Strings.decodeWebSafe session).mapError .coder
  let sessionString ← (decrypt decoded).mapError .thrown
  match J.readSession sessionString with
  | none => .error .json
  | some session => .ok { verifier, session }

/-- `decrypt`. -/
def decrypt (d : SignedSessionDecrypter ρ) (signedBlob : Bytes) : Except SessionThrown Bytes := do
  let symmetricCrypter ← importedCrypter P J d.session.key
  let nonce ← (Base64Strings.decodeWebSafe d.session.nonce).mapError .coder
  let ciphertext ← (Verifier.getAttachedData d.verifier signedBlob nonce).mapError .thrown
  (Crypter.decrypt P symmetricCrypter ciphertext).mapError .thrown

end SignedSessionDecrypter

end Java
