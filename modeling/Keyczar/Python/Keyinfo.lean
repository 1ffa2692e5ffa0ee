import Keyczar.Lib.Bytes

/-!
# Errors and enumerations of the Python package

The exceptions of `errors.py` with those of the language that the modelled functions raise, and the enumerations of `keyinfo.py`
with the look-ups by name.
-/

namespace Python

/-! ## Exceptions -/

/-- What a key is looked up by: nothing, a `KeyVersion` object (named by where it lives), or a hash identifier. -/
inductive KeyId where
  | none
  | version (ref : Nat)
  | hash (hashId : Bytes)
  deriving DecidableEq, Repr

/-- The exceptions: first those of `errors.py`, then those of the language and its library. -/
inductive PyError where
  | keyczarError (message : String)
  | badVersionError (version : UInt8)
  | invalidSignatureError
  | keyNotFoundError (hashVal : KeyId)
  | shortCiphertextError (length : Nat)
  | shortSignatureError (length : Nat)
  | noPrimaryKeyError
  | indexError
  | structError
  | valueError
  | attributeError
  | assertionError
  | base64DecodingError
  deriving DecidableEq, Repr

/-! ## `keyinfo.py` -/

/-- The types of keys. -/
inductive KeyType where
  | aes | hmacSha1 | dsaPriv | dsaPub | rsaPriv | rsaPub
  deriving DecidableEq, Repr

namespace KeyType

/-- The valid key sizes in bits; the first is the default. -/
def sizes : KeyType → List Int
  | .aes => [128, 192, 256]
  | .hmacSha1 => [256]
  | .dsaPriv | .dsaPub => [1024]
  | .rsaPriv | .rsaPub => [2048, 4096, 1024, 768, 512]

def defaultSize : KeyType → Int
  | .aes => 128
  | .hmacSha1 => 256
  | .dsaPriv | .dsaPub => 1024
  | .rsaPriv | .rsaPub => 2048

def name : KeyType → String
  | .aes => "AES"
  | .hmacSha1 => "HMAC_SHA1"
  | .dsaPriv => "DSA_PRIV"
  | .dsaPub => "DSA_PUB"
  | .rsaPriv => "RSA_PRIV"
  | .rsaPub => "RSA_PUB"

def isValidSize (t : KeyType) (size : Int) : Bool := t.sizes.contains size

/-- The default size passes its own check. -/
theorem isValidSize_defaultSize (t : KeyType) : t.isValidSize t.defaultSize = true := by
  cases t <;> decide

end KeyType

/-- The statuses of a key version. -/
inductive KeyStatus where
  | primary | active | inactive
  deriving DecidableEq, Repr

def KeyStatus.name : KeyStatus → String
  | .primary => "PRIMARY"
  | .active => "ACTIVE"
  | .inactive => "INACTIVE"

/-- The purposes of a key set. -/
inductive KeyPurpose where
  | decryptAndEncrypt | encrypt | signAndVerify | verify
  deriving DecidableEq, Repr

def KeyPurpose.name : KeyPurpose → String
  | .decryptAndEncrypt => "DECRYPT_AND_ENCRYPT"
  | .encrypt => "ENCRYPT"
  | .signAndVerify => "SIGN_AND_VERIFY"
  | .verify => "VERIFY"

/-- `GetType`. -/
def getType (name : String) : Except PyError KeyType :=
  match name with
  | "AES" => .ok .aes
  | "HMAC_SHA1" => .ok .hmacSha1
  | "DSA_PRIV" => .ok .dsaPriv
  | "DSA_PUB" => .ok .dsaPub
  | "RSA_PRIV" => .ok .rsaPriv
  | "RSA_PUB" => .ok .rsaPub
  | _ => .error (.keyczarError "Invalid Key Type")

/-- `GetStatus`. -/
def getStatus (value : String) : Except PyError KeyStatus :=
  match value with
  | "PRIMARY" => .ok .primary
  | "ACTIVE" => .ok .active
  | "INACTIVE" => .ok .inactive
  | _ => .error (.keyczarError "Invalid Key Status")

/-- `GetPurpose`. -/
def getPurpose (name : String) : Except PyError KeyPurpose :=
  match name with
  | "DECRYPT_AND_ENCRYPT" => .ok .decryptAndEncrypt
  | "ENCRYPT" => .ok .encrypt
  | "SIGN_AND_VERIFY" => .ok .signAndVerify
  | "VERIFY" => .ok .verify
  | _ => .error (.keyczarError "Invalid Key Purpose")

/-- The name of a type looks the type up. -/
theorem getType_name (t : KeyType) : getType t.name = .ok t := by
  cases t <;> rfl

/-- The name of a status looks the status up. -/
theorem getStatus_name (s : KeyStatus) : getStatus s.name = .ok s := by
  cases s <;> rfl

/-- The name of a purpose looks the purpose up. -/
theorem getPurpose_name (p : KeyPurpose) : getPurpose p.name = .ok p := by
  cases p <;> rfl

end Python
