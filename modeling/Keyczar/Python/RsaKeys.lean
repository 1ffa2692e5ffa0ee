import Keyczar.Python.Keyczar

/-!
# The RSA keys of `keys.py`

Encryption with OAEP and signatures with the EMSA encoding, as the code writes them out over the bare RSA operations of the library. The
library works on strings of any length; the encodings check what they are given.
-/

namespace Python

open Bytes

/-! ## Keys -/

/-- An RSA public key; its parameters are kept as the decoded strings of the key. -/
structure RsaPublicKey where
  modulus : Bytes
  publicExponent : Bytes
  size : Int := KeyType.rsaPub.defaultSize
  deriving DecidableEq, Repr

/-- An RSA private key. -/
structure RsaPrivateKey where
  publicKey : RsaPublicKey
  privateExponent : Bytes
  primeP : Bytes
  primeQ : Bytes
  primeExponentP : Bytes
  primeExponentQ : Bytes
  crtCoefficient : Bytes
  size : Int := KeyType.rsaPriv.defaultSize
  deriving DecidableEq, Repr

/-- What the code uses of the RSA keys of the library, and the rounded logarithm of the modulus, `int(math.floor(math.log(n, 256)))`. -/
structure RsaLibrary where
  encrypt : RsaPublicKey → Bytes → Bytes
  decrypt : RsaPrivateKey → Bytes → Bytes
  sign : RsaPrivateKey → Bytes → Nat
  verify : RsaPublicKey → Bytes → Nat → Bool
  log256 : Nat → Nat

variable (P : Primitives) (L : RsaLibrary)

/-! ## Hashes and masks -/

/-- `PrefixHash`: every input with its length in front. -/
def prefixHash (inputs : List Bytes) : Bytes := P.sha1 (inputs.flatMap fun i => be32 i.length ++ i)

/-- `MGF`. -/
def mgf (seed : Bytes) (mlen : Nat) : Except PyError Bytes :=
  if mlen > 2 ^ 32 * HLEN then .error (.keyczarError "MGF1 mask length too long.")
  else .ok (((List.range ((mlen + HLEN - 1) / HLEN)).flatMap fun i => P.sha1 (seed ++ be32 i)).take mlen)

/-- `MakeEmsaMessage`. -/
def makeEmsaMessage (msg : Bytes) (modulusSize : Int) : Bytes :=
  let magicSha1Header : Bytes := [0x30, 0x21, 0x30, 0x9, 0x6, 0x5, 0x2b, 0xe, 0x3, 0x2, 0x1a, 0x5, 0x0, 0x4, 0x14]
  let encoded := magicSha1Header ++ P.sha1 msg
  let padString := List.replicate (modulusSize / 8 - encoded.length - 3).toNat 0xFF
  1 :: padString ++ 0 :: encoded

/-! ## Public keys -/

namespace RsaPublicKey

/-- The bytes of the hash identifier. -/
def hash (k : RsaPublicKey) : Bytes := (prefixHash P [trimBytes k.modulus, trimBytes k.publicExponent]).take KEY_HASH_SIZE

/-- The number of bytes in the modulus. -/
def modulusBytes (k : RsaPublicKey) : Nat := L.log256 (bytesToLong k.modulus) + 1

/-- `__Encode` with the seed it draws; the label is empty. -/
def encode (k : RsaPublicKey) (seed msg : Bytes) : Except PyError Bytes := do
  let n : Int := k.modulusBytes L
  if (msg.length : Int) > n - 2 * HLEN - 2 then throw (.keyczarError "Message too long to OAEP encode.")
  let labelHash := P.sha1 []
  let padOctets := n - msg.length - 2 * HLEN - 2
  if padOctets < 0 then throw (.keyczarError ("Message is too long: " ++ toString msg.length))
  let datablock := labelHash ++ List.replicate padOctets.toNat 0 ++ 1 :: msg
  let datablockMask ← mgf P seed (n - HLEN - 1).toNat
  let maskedDatablock := xor datablock datablockMask
  let seedMask ← mgf P maskedDatablock HLEN
  let maskedSeed := xor seed seedMask
  return 0 :: maskedSeed ++ maskedDatablock

/-- `Encrypt`. -/
def encrypt (k : RsaPublicKey) (seed data : Bytes) : Except PyError Bytes := do
  let data ← k.encode P L seed data
  return header (k.hash P) ++ L.encrypt k data

/-- `Verify`. A number is always read from the signature, so the `ValueError` that the source catches is never raised. -/
def verify (k : RsaPublicKey) (msg sig : Bytes) : Bool := L.verify k (makeEmsaMessage P msg k.size) (bytesToLong sig)

@[simp] theorem length_hash (k : RsaPublicKey) : (k.hash P).length = KEY_HASH_SIZE := by
  simp [hash, prefixHash, KEY_HASH_SIZE]

end RsaPublicKey

/-! ## Private keys -/

namespace RsaPrivateKey

/-- The first steps of `__Decode`: the data block under its mask. The zeros that the library has stripped are put back on, but for the
first. -/
def unmask (k : RsaPrivateKey) (encodedMessage : Bytes) : Except PyError Bytes := do
  let diffLen : Int := k.publicKey.modulusBytes L - encodedMessage.length
  let encodedMessage := if diffLen > 1 then List.replicate (diffLen - 1).toNat 0 ++ encodedMessage else encodedMessage
  let maskedSeed := encodedMessage.take HLEN
  let maskedDatablock := encodedMessage.drop HLEN
  let seedMask ← mgf P maskedDatablock HLEN
  let seed := xor maskedSeed seedMask
  let datablockMask ← mgf P seed maskedDatablock.length
  return xor maskedDatablock datablockMask

/-- `__Decode`; the label is empty. -/
def decode (k : RsaPrivateKey) (encodedMessage : Bytes) : Except PyError Bytes := do
  if encodedMessage.length < 2 * HLEN + 2 then
    throw (.keyczarError ("OAEP Decoding Error - encoded_message is too small: " ++ toString encodedMessage.length))
  let datablock ← k.unmask P L encodedMessage
  if datablock.take HLEN ≠ P.sha1 [] then throw (.keyczarError "OAEP Decoding Error - hash_id is invalid")
  match BigEndian.strip (datablock.drop HLEN) with
  | [] => throw .indexError
  | delimiter :: message =>
    if delimiter ≠ 1 then throw (.keyczarError "OAEP Decoding Error - expected a 1 value")
    return message

/-- `Decrypt`. -/
def decrypt (k : RsaPrivateKey) (inputBytes : Bytes) : Except PyError Bytes :=
  k.decode P L (L.decrypt k (sliceFrom inputBytes HEADER_SIZE))

/-- `Sign`. -/
def sign (k : RsaPrivateKey) (msg : Bytes) : Bytes :=
  let emsaEncoded := makeEmsaMessage P msg k.size
  let byteString := bigIntToBytes (L.sign k emsaEncoded)
  padBytes byteString (k.size / 8 - byteString.length)

end RsaPrivateKey

/-! ## The two kinds of keys -/

/-- The random seed of one encryption. -/
abbrev Seed : Type := { seed : Bytes // seed.length = HLEN }

/-- RSA public keys. -/
def rsaPublicKeys : KeyClass RsaPublicKey Seed where
  hash := RsaPublicKey.hash P
  length_hash := RsaPublicKey.length_hash P
  encrypt k seed d := k.encrypt P L seed.val d
  decrypt _ _ := .error .attributeError
  sign _ _ _ := .error .attributeError
  verify k m s := .ok (k.verify P L m s)

/-- RSA private keys: what needs only the public key is done by it, the hash identifier too. -/
def rsaPrivateKeys : KeyClass RsaPrivateKey Seed where
  hash k := k.publicKey.hash P
  length_hash k := RsaPublicKey.length_hash P k.publicKey
  encrypt k seed d := k.publicKey.encrypt P L seed.val d
  decrypt k c := k.decrypt P L c
  sign k _ m := .ok (k.sign P L m)
  verify k m s := .ok (k.publicKey.verify P L m s)

end Python
