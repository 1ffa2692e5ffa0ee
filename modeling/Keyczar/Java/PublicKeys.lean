import Keyczar.Java.Base64Coder
import Keyczar.Java.Keys
import Keyczar.Lib.TwosComplement

/-!
# The public keys of the Java library

The parameters of a public key are read as integers in two's complement. Its identifier is a hash of the bytes of these integers,
for the usual padding without the zeros in front.
-/

namespace Java

open Bytes

/-- What may go wrong when the parameters are read. -/
inductive KeyReadException where
  | base64 (e : Base64Coder.Base64DecodingException)
  | numberFormat
  deriving DecidableEq, Repr

/-- `decodeBigInteger`; there is no integer without bytes. -/
def decodeBigInteger (value : Bytes) : Except KeyReadException Int :=
  match Base64Coder.decodeWebSafe value with
  | .error e => .error (.base64 e)
  | .ok bytes => if bytes = [] then .error .numberFormat else .ok (TwosComplement.ofBytes bytes)

/-- `encodeBigInteger`. -/
def encodeBigInteger (value : Int) : Bytes := Base64.encode Base64.webSafe (TwosComplement.toBytes value)

variable (P : Primitives)

/-- `prefixHash`. -/
def prefixHash (inputs : List Bytes) : Bytes := P.sha1 (inputs.flatMap fun array => be32 array.length ++ array)

/-- The bytes of an integer without the zeros in front. -/
def strippedBytes (x : Int) : Bytes := AesKey.stripLeadingZeros (TwosComplement.toBytes x)

/-! ## RSA -/

inductive RsaPadding where
  | OAEP | PKCS
  deriving DecidableEq, Repr

/-- `computeFullHash`. -/
def RsaPadding.computeFullHash (padding : RsaPadding) (modulus publicExponent : Int) : Bytes :=
  match padding with
  | .OAEP => prefixHash P [strippedBytes modulus, strippedBytes publicExponent]
  | .PKCS => prefixHash P [TwosComplement.toBytes modulus, TwosComplement.toBytes publicExponent]

/-- `RsaPublicKey`, with the integers of its platform key. No padding stands for OAEP. -/
structure RsaPublicKey where
  size : Int
  modulus : Int
  publicExponent : Int
  padding : Option RsaPadding := none
  deriving DecidableEq, Repr

namespace RsaPublicKey

def getPadding (k : RsaPublicKey) : RsaPadding := if k.padding = none ∨ k.padding = some .OAEP then .OAEP else .PKCS

def hash (k : RsaPublicKey) : Bytes := (k.getPadding.computeFullHash P k.modulus k.publicExponent).take KEY_HASH_SIZE

end RsaPublicKey

/-! ## DSA -/

/-- `DsaPublicKey`, with the integers of its platform key. -/
structure DsaPublicKey where
  size : Int
  y : Int
  p : Int
  q : Int
  g : Int
  deriving DecidableEq, Repr

namespace DsaPublicKey

def hash (k : DsaPublicKey) : Bytes :=
  (prefixHash P [strippedBytes k.p, strippedBytes k.q, strippedBytes k.g, strippedBytes k.y]).take KEY_HASH_SIZE

end DsaPublicKey

/-! ## Integers that are not negative -/

/-- What encodes bytes without a sign is read as the number that they stand for. -/
theorem decodeBigInteger_encode {s : Bytes} (hne : s ≠ []) (h : TwosComplement.Nonneg s) :
    decodeBigInteger (Base64.encode Base64.webSafe s) = .ok (BigEndian.ofBytes s) := by
  rw [decodeBigInteger, Base64Coder.decodeWebSafe_encode hne]
  dsimp only
  rw [if_neg hne, TwosComplement.ofBytes_of_nonneg h]

end Java
