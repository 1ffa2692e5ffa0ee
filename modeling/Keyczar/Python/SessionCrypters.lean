import Keyczar.Python.Session
import Keyczar.Python.SignedBytes
import Keyczar.Python.StreamReader
import Keyczar.Lib.Throwing

/-!
# Sessions

A session encrypter makes up a key, sends it through the encrypter of its user, and encrypts with it. The key travels packed, or as JSON
together with a nonce that the signatures of a signed session are made over. In either case the receiver builds the key anew, and every
crypter of a session writes its key out as JSON and reads it again.
-/

namespace Python

open Bytes Throwing

/-! ## JSON -/

/-- `dumps` and `loads` on one kind of dictionary. -/
structure JsonCodec (α : Type) where
  dumps : α → Bytes
  loads : Bytes → Except PyError α
  loads_dumps : ∀ v, loads (dumps v) = .ok v

/-- The JSON text of an HMAC key, parsed. -/
structure JsonHmacKey where
  hmacKeyString : Bytes
  size : Int
  deriving DecidableEq, Repr

/-- The JSON text of an AES key, parsed. -/
structure JsonAesKey where
  mode : String
  size : Int
  aesKeyString : Bytes
  hmacKey : JsonHmacKey
  deriving DecidableEq, Repr

/-- The JSON text of a session, parsed. -/
structure JsonSession where
  key : JsonAesKey
  nonce : Bytes
  deriving DecidableEq, Repr

/-- The module `json`. -/
structure JsonModule where
  hmacKey : JsonCodec JsonHmacKey
  aesKey : JsonCodec JsonAesKey
  session : JsonCodec JsonSession

/-! ## Keys as texts -/

/-- The modes of a cipher. -/
inductive CipherMode where
  | cbc | ctr | ecb | detCbc
  deriving DecidableEq, Repr

def CipherMode.name : CipherMode → String
  | .cbc => "CBC"
  | .ctr => "CTR"
  | .ecb => "ECB"
  | .detCbc => "DET_CBC"

/-- `GetMode`. -/
def getMode (name : String) : Except PyError CipherMode :=
  match name with
  | "CBC" => .ok .cbc
  | "CTR" => .ok .ctr
  | "ECB" => .ok .ecb
  | "DET_CBC" => .ok .detCbc
  | _ => .error (.keyczarError "Invalid Cipher Mode")

/-- The name of a mode looks the mode up. -/
theorem getMode_name (m : CipherMode) : getMode m.name = .ok m := by
  cases m <;> rfl

variable (P : Primitives) (J : JsonModule)

/-- `HmacKey.__str__`. -/
def HmacKey.toText (k : HmacKey) : Bytes := J.hmacKey.dumps { hmacKeyString := base64WSEncode k.keyBytes, size := k.size }

namespace AesKey

/-- `__str__`. -/
def toText (k : AesKey) : Except PyError Bytes := do
  let hmacKey ← J.hmacKey.loads (k.hmacKey.toText J)
  return J.aesKey.dumps { mode := CipherMode.cbc.name, size := k.size, aesKeyString := base64WSEncode k.keyBytes, hmacKey }

/-- `Read`. The key strings, which the code decodes when it needs the bytes, are decoded at once. -/
def read (key : Bytes) : Except PyError AesKey := do
  let aes ← J.aesKey.loads key
  let mode ← getMode aes.mode
  if mode ≠ .cbc then throw .assertionError
  let hmacKeyBytes ← base64WSDecode aes.hmacKey.hmacKeyString
  let keyBytes ← base64WSDecode aes.aesKeyString
  return { keyBytes, hmacKey := { keyBytes := hmacKeyBytes, size := setSize .hmacSha1 aes.hmacKey.size },
           size := setSize .aes aes.size }

/-- The sizes are ones that a key object can have. -/
structure Sized (k : AesKey) : Prop where
  size : KeyType.aes.isValidSize k.size = true
  hmacSize : KeyType.hmacSha1.isValidSize k.hmacKey.size = true

end AesKey

theorem setSize_of_valid {t : KeyType} {size : Int} (h : t.isValidSize size = true) : setSize t size = size := if_pos h

/-- A size that was set is valid, whatever it was set to. -/
theorem isValidSize_setSize (t : KeyType) (size : Int) : t.isValidSize (setSize t size) = true := by
  unfold setSize
  split
  · assumption
  · exact t.isValidSize_defaultSize

namespace AesKey

/-- What the text of a key says. -/
def parsed (k : AesKey) : JsonAesKey where
  mode := CipherMode.cbc.name
  size := k.size
  aesKeyString := base64WSEncode k.keyBytes
  hmacKey := { hmacKeyString := base64WSEncode k.hmacKey.keyBytes, size := k.hmacKey.size }

theorem toText_eq (k : AesKey) : k.toText J = .ok (J.aesKey.dumps k.parsed) := by
  rw [toText, HmacKey.toText, J.hmacKey.loads_dumps]
  rfl

/-- A key is read from its text as it is. -/
theorem read_dumps {k : AesKey} (h : k.Sized) : read J (J.aesKey.dumps k.parsed) = .ok k := by
  rw [read, J.aesKey.loads_dumps, ok_bind]
  dsimp only [parsed]
  rw [getMode_name, ok_bind]
  simp only [ne_eq, not_true_eq_false, if_false]
  rw [base64WSDecode_encode, ok_bind, base64WSDecode_encode, ok_bind, setSize_of_valid h.size, setSize_of_valid h.hmacSize]
  rfl

end AesKey

/-! ## The class `_Session` -/

/-- The random bytes that a new session draws: an AES key of a valid length, an HMAC key of the default one, and the nonce. -/
structure SessionDraws where
  aesKeyBytes : Bytes
  hmacKeyBytes : Bytes
  nonce : Bytes
  valid : validKeyLength aesKeyBytes.length = true
  length_hmacKeyBytes : hmacKeyBytes.length = 32
  length_nonce : nonce.length = 16
  deriving DecidableEq, Repr

/-- `_Session` with a nonce. A session that was loaded from a packed key has none, and is its key. -/
structure Session where
  sessionKey : AesKey
  nonce : Bytes
  deriving DecidableEq, Repr

/-- `StaticKeyReader`, of an AES key. -/
def staticKeyReader (key : AesKey) (purpose : KeyPurpose) : Reader AesKey where
  metadata := { name := "Imported", purpose := purpose.name, type := KeyType.aes.name, encrypted := false,
                versions := [⟨1, KeyStatus.primary.name, false⟩] }
  isEncryptedReader := false
  getKey _ _ := key.toText J >>= AesKey.read J

/-- The property `crypter`, of a session with a key. -/
def sessionCrypter (order : DictOrder) (key : AesKey) : Except PyError (Keyczar AesKey) :=
  Keyczar.init (aesKeys P) (· = .decryptAndEncrypt) order (staticKeyReader J key .decryptAndEncrypt)

namespace Session

/-- `New`. -/
def new (d : SessionDraws) : Session where
  sessionKey := { keyBytes := d.aesKeyBytes, hmacKey := { keyBytes := d.hmacKeyBytes, size := setSize .hmacSha1 256 },
                  size := setSize .aes (d.aesKeyBytes.length * 8) }
  nonce := d.nonce

/-- The property `packed_key`. -/
def packedKey (s : Session) : Except PyError Bytes :=
  packMultipleByteArrays [some s.sessionKey.keyBytes, some s.sessionKey.hmacKey.keyBytes]

/-- The property `json`. -/
def json (s : Session) : Except PyError Bytes := do
  let text ← s.sessionKey.toText J
  let aesKeyString ← J.aesKey.loads text
  return J.session.dumps { key := aesKeyString, nonce := base64WSEncode s.nonce }

/-- `LoadJsonSession`. -/
def loadJsonSession (jsonSessionData : Bytes) : Except PyError Session := do
  let jsonDict ← J.session.loads jsonSessionData
  let aesKeyString := J.aesKey.dumps jsonDict.key
  let sessionKey ← AesKey.read J aesKeyString
  let nonce ← base64WSDecode jsonDict.nonce
  return { sessionKey, nonce }

end Session

/-! ## The four classes -/

/-- `SessionEncrypter`. -/
structure SessionEncrypter where
  session : Session
  sessionMaterial : Bytes

/-- `__init__`, for an encrypter whose `Encrypt` is given. -/
def SessionEncrypter.init (encrypt : Bytes → Except PyError Bytes) (d : SessionDraws) : Except PyError SessionEncrypter := do
  let packedKey ← (Session.new d).packedKey
  let sessionMaterial ← encrypt packedKey
  return { session := Session.new d, sessionMaterial }

/-- `Encrypt`. -/
def SessionEncrypter.encrypt (order : DictOrder) (e : SessionEncrypter) (iv : IvBytes) (plaintext : Bytes)
    (encoder : Option (Bytes → Bytes)) : Except PyError Bytes := do
  let crypter ← sessionCrypter P J order e.session.sessionKey
  Encrypter.encrypt (aesKeys P) crypter iv plaintext encoder

/-- `SessionDecrypter`: its session has the key that `sessionDecrypter` ends with. -/
structure SessionDecrypter where
  sessionKey : AesKey

/-- `Decrypt`. -/
def SessionDecrypter.decrypt (order : DictOrder) (d : SessionDecrypter) (ciphertext : Bytes)
    (decoder : Option (Bytes → Except PyError Bytes)) : Except PyError Bytes := do
  let crypter ← sessionCrypter P J order d.sessionKey
  Crypter.decrypt (aesKeys P) crypter ciphertext decoder

section Signed

variable {κ ρ κ' ρ' : Type} (C : KeyClass κ ρ) (C' : KeyClass κ' ρ')

/-- `SignedSessionEncrypter`. -/
structure SignedSessionEncrypter (κ : Type) where
  session : Session
  sessionMaterial : Bytes
  signer : Keyczar κ

/-- `__init__`. -/
def SignedSessionEncrypter.init (encrypt : Bytes → Except PyError Bytes) (signer : Keyczar κ) (d : SessionDraws) :
    Except PyError (SignedSessionEncrypter κ) := do
  let json ← (Session.new d).json J
  let sessionMaterial ← encrypt json
  return { session := Session.new d, sessionMaterial, signer }

/-- `Encrypt`. -/
def SignedSessionEncrypter.encrypt (order : DictOrder) (e : SignedSessionEncrypter κ) (iv : IvBytes) (random : ρ)
    (plaintext : Bytes) : Except PyError Bytes := do
  let crypter ← sessionCrypter P J order e.session.sessionKey
  let ciphertext ← Encrypter.encrypt (aesKeys P) crypter iv plaintext none
  Signer.attachedSign C e.signer random ciphertext e.session.nonce (some base64WSEncode)

/-- `SignedSessionDecrypter`. -/
structure SignedSessionDecrypter (κ' : Type) where
  session : Session
  verifier : Keyczar κ'

/-- `__init__`, for a crypter whose `Decrypt` is given. -/
def SignedSessionDecrypter.init (decrypt : Bytes → Except PyError Bytes) (verifier : Keyczar κ') (sessionMaterial : Bytes) :
    Except PyError (SignedSessionDecrypter κ') := do
  let json ← decrypt sessionMaterial
  let session ← Session.loadJsonSession J json
  return { session, verifier }

/-- `Decrypt`. -/
def SignedSessionDecrypter.decrypt (order : DictOrder) (d : SignedSessionDecrypter κ') (signedCiphertext : Bytes) :
    Except PyError (Option Bytes) := do
  let ciphertext ← Verifier.attachedVerify C' d.verifier signedCiphertext d.session.nonce (some base64WSDecode)
  match ciphertext with
  | none => return none
  | some ciphertext =>
    if ciphertext = [] then return none
    let crypter ← sessionCrypter P J order d.session.sessionKey
    let plaintext ← Crypter.decrypt (aesKeys P) crypter ciphertext none
    return some plaintext

end Signed

end Python
