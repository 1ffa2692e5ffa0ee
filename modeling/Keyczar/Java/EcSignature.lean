import Keyczar.Java.EcAffine
import Keyczar.Java.EcEncoding

/-!
# `EcSignatureImpl`

The signatures over curves. The object keeps a digest that is given data, the keys that it was last initialized with and the parameters
of the last of them. What the digest computes and how a sequence of two elements is written in ASN.1 are parameters; what the random
generator draws is given to the call that signs.
-/

namespace Java

namespace EcSignatureImpl

open EcCore

/-- An `ECParameterSpec` with its generator and its order, which is checked to be positive. -/
structure DomainParameters extends ECParameterSpec where
  generator : AffinePoint
  order : Nat
  order_pos : 0 < order

structure ECPrivateKey where
  S : Int
  params : DomainParameters

structure ECPublicKey where
  W : AffinePoint
  params : DomainParameters

/-- What a signature object can be initialized with. -/
inductive SecurityKey where
  | ecPrivate (key : ECPrivateKey)
  | ecPublic (key : ECPublicKey)
  | other

/-- What the calls throw. -/
inductive SignatureThrown where
  | invalidKey
  | signature
  | unchecked (t : Thrown)
  deriving DecidableEq, Repr

/-- Sequences of two elements: they are encoded from the encodings of the elements, unless one of these is refused, and decoded to the
contents of the elements, unless that throws. -/
structure Asn1 where
  encode : Bytes → Bytes → Option Bytes
  decode : Bytes → Option (Bytes × Bytes)

end EcSignatureImpl

open EcCore EcSignatureImpl in
/-- The object, with the data that its digest has been given. -/
structure EcSignatureImpl where
  hash : Bytes := []
  privateKey : Option ECPrivateKey := none
  publicKey : Option ECPublicKey := none
  params : Option DomainParameters := none

namespace EcSignatureImpl

open EcCore

/-- `trimHash`. -/
def trimHash (hash : Bytes) (order : Nat) : Nat :=
  let e := BigEndian.ofBytes hash
  let orderLength := bitLength order
  let hashLength := 8 * hash.length
  if orderLength < hashLength then e >>> (hashLength - orderLength) else e

/-- What is not `null`. -/
def nonNull {α : Type} (x : Option α) : Except Thrown α :=
  match x with
  | none => .error (.runtime .nullPointer)
  | some x => .ok x

section

variable (params : DomainParameters)

/-! ## Keys -/

/-- `EcKeyPairGeneratorImpl.generateKeyPair`, whose loop draws numbers, until the draws are used up. -/
def generateKeyPair : List Nat → Option (Except Thrown (ECPublicKey × ECPrivateKey))
  | [] => none
  | draw :: draws =>
    let S := draw % params.order
    if S = 0 then generateKeyPair draws
    else some do
      let Q ← multiplyPoint params.toECParameterSpec params.generator S
      let Q ← toAffine params.toECParameterSpec Q
      return ({ W := { x := Q.x, y := Q.y }, params }, { S, params })

/-! ## Signing -/

/-- One turn of the loops of `engineSign`, with the number that was drawn: nothing, where one of the loops goes on. -/
def tryNonce (privateKey : Option ECPrivateKey) (e k : Nat) : Except Thrown (Option (Int × Int)) :=
  if k = 0 then .ok none
  else do
    let R ← multiplyPoint params.toECParameterSpec params.generator k
    let R ← toAffineX params.toECParameterSpec R
    let x ← get R.x
    let r : Int := x % params.order
    if r = 0 then return none
    else
      let inverse ← modInverse k params.order
      let key ← nonNull privateKey
      let s : Int := inverse * (e + key.S * r) % params.order
      if s = 0 then return none else return some (r, s)

/-- The loops of `engineSign`, each turn of which draws a number, until the draws are used up. -/
def signLoop (privateKey : Option ECPrivateKey) (e : Nat) : List Nat → Option (Except Thrown (Int × Int))
  | [] => none
  | draw :: draws =>
    match tryNonce params privateKey e (draw % params.order) with
    | .error t => some (.error t)
    | .ok none => signLoop privateKey e draws
    | .ok (some rs) => some (.ok rs)

/-- The encoding of a number of a signature, as `engineSign` writes it. -/
def element (a : Int) : Except Thrown Bytes := do
  let tmp ← newBytes (2 + fieldLength params.toECParameterSpec)
  let tmp := tmp.set 0 0x02
  let (tmp, len) ← fieldElemToBytesAt params.toECParameterSpec a tmp 2
  return tmp.set 1 (UInt8.ofNat len.toNat)

/-- The encoding of a signature, where every exception is one of the signature. -/
def encodeSignature (asn1 : Asn1) (r s : Int) : Except SignatureThrown Bytes := do
  let r ← (element params r).mapError fun _ => .signature
  let s ← (element params s).mapError fun _ => .signature
  match asn1.encode r s with
  | some sig => .ok sig
  | none => .error .signature

/-! ## Verifying -/

/-- What `engineVerify` does with the numbers of a signature. -/
def verifyNumbers (publicKey : Option ECPublicKey) (e : Nat) (r s : Int) : Except Thrown Bool :=
  let n := params.order
  if r < 1 ∨ (n : Int) ≤ r then .ok false
  else if s < 1 ∨ (n : Int) ≤ s then .ok false
  else do
    let c ← modInverse s n
    let u1 : Int := e * c % n
    let u2 : Int := r * c % n
    let key ← nonNull publicKey
    let R1 ← multiplyPoints params.toECParameterSpec params.generator u1.toNat key.W u2.toNat
    let R1 ← toAffineX params.toECParameterSpec R1
    let x ← get R1.x
    return decide (x % (n : Int) = r)

end

/-! ## The calls -/

/-- `engineInitSign`. -/
def engineInitSign (key : SecurityKey) (o : EcSignatureImpl) : Except SignatureThrown Unit × EcSignatureImpl :=
  match key with
  | .ecPrivate key => (.ok (), { o with privateKey := some key, params := some key.params })
  | _ => (.error .invalidKey, o)

/-- `engineInitVerify`. -/
def engineInitVerify (key : SecurityKey) (o : EcSignatureImpl) : Except SignatureThrown Unit × EcSignatureImpl :=
  match key with
  | .ecPublic key => (.ok (), { o with publicKey := some key, params := some key.params })
  | _ => (.error .invalidKey, o)

/-- `engineUpdate`, of the bytes that it is given. -/
def engineUpdate (b : Bytes) (o : EcSignatureImpl) : EcSignatureImpl := { o with hash := o.hash ++ b }

variable (H : Bytes → Bytes) (asn1 : Asn1)

/-- `engineSign`: nothing, when the draws are used up. The digest is finished before anything else. -/
def engineSign (draws : List Nat) (o : EcSignatureImpl) : Option (Except SignatureThrown Bytes × EcSignatureImpl) :=
  let digest := H o.hash
  let o := { o with hash := [] }
  match o.params with
  | none => some (.error (.unchecked (.runtime .nullPointer)), o)
  | some params =>
    (signLoop params o.privateKey (trimHash digest params.order) draws).map fun result =>
      (result.mapError .unchecked >>= fun rs => encodeSignature params asn1 rs.1 rs.2, o)

/-- `engineVerify`, where every exception is one of the signature: the digest is finished after the signature has been decoded. -/
def engineVerify (sigBytes : Bytes) (o : EcSignatureImpl) : Except SignatureThrown Bool × EcSignatureImpl :=
  match asn1.decode sigBytes with
  | none => (.error .signature, o)
  | some (r, s) =>
    let digest := H o.hash
    let o := { o with hash := [] }
    match o.params with
    | none => (.error .signature, o)
    | some params =>
      match verifyNumbers params o.publicKey (trimHash digest params.order) (BigEndian.ofBytes r) (BigEndian.ofBytes s) with
      | .error _ => (.error .signature, o)
      | .ok b => (.ok b, o)

/-! ## Whole sessions -/

/-- A session on an object: it is initialized, given data, and asked for a signature or about one. -/
inductive Session where
  | sign (key : SecurityKey) (chunks : List Bytes) (draws : List Nat)
  | verify (key : SecurityKey) (chunks : List Bytes) (sigBytes : Bytes)

/-- What a session gives: a key may be refused, and then nothing else is called. -/
inductive Outcome where
  | refused (t : SignatureThrown)
  | signed (result : Except SignatureThrown Bytes)
  | verified (result : Except SignatureThrown Bool)
  deriving DecidableEq, Repr

/-- The data of a session are given to the object. -/
def updateAll (chunks : List Bytes) (o : EcSignatureImpl) : EcSignatureImpl := chunks.foldl (fun o b => engineUpdate b o) o

def runSession : Session → EcSignatureImpl → Option (Outcome × EcSignatureImpl)
  | .sign key chunks draws, o =>
    match engineInitSign key o with
    | (.error t, o) => some (.refused t, o)
    | (.ok (), o) => (engineSign H asn1 draws (updateAll chunks o)).map fun r => (.signed r.1, r.2)
  | .verify key chunks sigBytes, o =>
    match engineInitVerify key o with
    | (.error t, o) => some (.refused t, o)
    | (.ok (), o) =>
      let r := engineVerify H asn1 sigBytes (updateAll chunks o)
      some (.verified r.1, r.2)

/-- Session after session on one object. -/
def runSessions : List Session → EcSignatureImpl → Option (List Outcome × EcSignatureImpl)
  | [], o => some ([], o)
  | session :: sessions, o => do
    let (outcome, o) ← runSession H asn1 session o
    let (outcomes, o) ← runSessions sessions o
    return (outcome :: outcomes, o)

end EcSignatureImpl

end Java
