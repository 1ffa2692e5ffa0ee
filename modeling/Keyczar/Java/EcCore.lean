import Keyczar.Java.Keys
import Keyczar.Lib.TwosComplement
import Mathlib.Data.Int.GCD
import Mathlib.Data.Nat.Size

/-!
# Elliptic curves in the Java library

The points of `EcCore`, in affine coordinates and in Jacobian ones, and the two ways in which it multiplies them; and points as bytes. A
`BigInteger` is an integer, the field of a curve is that of a positive number, and scalars are natural numbers.
-/

namespace Java

namespace EcCore

open Bytes

/-- An `ECParameterSpec`, by the field and the coefficients of its curve. -/
structure ECParameterSpec where
  p : Nat
  a : Int
  b : Int
  deriving DecidableEq, Repr

/-- What the functions throw: `ArithmeticException`, or one of the others. -/
inductive Thrown where
  | arithmetic
  | runtime (e : RuntimeException)
  deriving DecidableEq, Repr

/-- A point in affine coordinates, which are `null` at infinity. -/
structure AffinePoint where
  x : Option Int
  y : Option Int
  deriving DecidableEq, Repr

/-- A point in Jacobian coordinates: at infinity the first two may be `null`. -/
structure JacobianPoint where
  x : Option Int
  y : Option Int
  z : Int
  deriving DecidableEq, Repr

/-! ## Numbers -/

/-- A coordinate that is used. -/
def get (c : Option Int) : Except Thrown Int :=
  match c with
  | none => .error (.runtime .nullPointer)
  | some c => .ok c

/-- `modInverse`. -/
def modInverse (x : Int) (m : Nat) : Except Thrown Int :=
  if Int.gcd x m = 1 then .ok (Int.gcdA x m % m) else .error .arithmetic

/-- `bitLength`, of a number that is not negative. -/
def bitLength (n : Nat) : Nat := Nat.size n

/-! ## Points -/

section

variable (params : ECParameterSpec)

/-- `addPointsA`. -/
def addPointsA (P1 P2 : AffinePoint) : Except Thrown AffinePoint :=
  match P2.x, P2.y with
  | some x2, some y2 =>
    match P1.x, P1.y with
    | some x1, some y1 => do
      let inverse ← modInverse (x2 - x1) params.p
      let d := (y2 - y1) * inverse
      let x : Int := (d ^ 2 - x1 - x2) % params.p
      return { x := some x, y := some ((d * (x1 - x) - y1) % params.p) }
    | _, _ => .ok P2
  | _, _ => .ok P1

/-- `doublePointJ`: the curve is one with `a = -3`. -/
def doublePointJ (P : JacobianPoint) : Except Thrown JacobianPoint :=
  if P.z = 0 then .ok P
  else do
    let X ← get P.x
    let Y ← get P.y
    let A : Int := 4 * X * Y ^ 2 % params.p
    let B : Int := 8 * Y ^ 4 % params.p
    let C : Int := 3 * (X - P.z ^ 2) * (X + P.z ^ 2) % params.p
    let D : Int := (C ^ 2 - (A + A)) % params.p
    return { x := some D, y := some ((C * (A - D) - B) % params.p), z := 2 * Y * P.z % params.p }

/-- `addPointsJA`. -/
def addPointsJA (P1 : JacobianPoint) (P2 : AffinePoint) : Except Thrown JacobianPoint :=
  if P1.z = 0 then .ok { x := P2.x, y := P2.y, z := 1 }
  else do
    let x2 ← get P2.x
    let A : Int := x2 * P1.z ^ 2 % params.p
    let y2 ← get P2.y
    let B : Int := y2 * P1.z ^ 3 % params.p
    let X1 ← get P1.x
    let C : Int := (A - X1) % params.p
    let Y1 ← get P1.y
    let D : Int := (B - Y1) % params.p
    let X3 : Int := (D ^ 2 - (C ^ 3 + 2 * X1 * C ^ 2)) % params.p
    return { x := some X3, y := some ((D * (X1 * C ^ 2 - X3) - Y1 * C ^ 3) % params.p), z := P1.z * C % params.p }

/-- `if (b) R = addPointsJA(R, P)`. -/
def addPointIf (b : Bool) (R : JacobianPoint) (P : AffinePoint) : Except Thrown JacobianPoint :=
  if b then addPointsJA params R P else .ok R

/-- The loop of `multiplyPoint`, with the bits up to `i` to go, the last of which is not looked at. -/
def multiplyPointLoop (P Pneg : AffinePoint) (h k : Nat) : Nat → JacobianPoint → Except Thrown JacobianPoint
  | 0, R => .ok R
  | i + 1, R => do
    let R ← doublePointJ params R
    let R ← addPointIf params (h.testBit (i + 1)) R P
    let R ← addPointIf params (k.testBit (i + 1)) R Pneg
    multiplyPointLoop P Pneg h k i R

/-- `multiplyPoint`: the digits of `k` are those of `3 * k` less those of `k`. -/
def multiplyPoint (P : AffinePoint) (k : Nat) : Except Thrown JacobianPoint := do
  let h := 3 * k
  let y ← get P.y
  let Pneg : AffinePoint := { x := P.x, y := some (-y) }
  multiplyPointLoop params P Pneg h k (bitLength h - 2) { x := P.x, y := P.y, z := 1 }

/-- What `multiplyPoints` adds at bit `i`. -/
def addPointsAt (P Q PQ : AffinePoint) (k l i : Nat) (R : JacobianPoint) : Except Thrown JacobianPoint :=
  if k.testBit i then
    if l.testBit i then addPointsJA params R PQ else addPointsJA params R P
  else addPointIf params (l.testBit i) R Q

/-- The loop of `multiplyPoints`, with `i` bits to go. -/
def multiplyPointsLoop (P Q PQ : AffinePoint) (k l : Nat) : Nat → JacobianPoint → Except Thrown JacobianPoint
  | 0, R => .ok R
  | i + 1, R => do
    let R ← doublePointJ params R
    let R ← addPointsAt params P Q PQ k l i R
    multiplyPointsLoop P Q PQ k l i R

/-- `multiplyPoints`: the sum of the points is added where both scalars have a bit. -/
def multiplyPoints (P : AffinePoint) (k : Nat) (Q : AffinePoint) (l : Nat) : Except Thrown JacobianPoint := do
  let PQ ← addPointsA params P Q
  multiplyPointsLoop params P Q PQ k l (max (bitLength k) (bitLength l)) { x := none, y := none, z := 0 }

/-- `toAffineX`. -/
def toAffineX (P : JacobianPoint) : Except Thrown JacobianPoint := do
  let inverse ← modInverse (P.z ^ 2) params.p
  let X ← get P.x
  return { P with x := some (X * inverse % params.p) }

/-- `toAffine`. -/
def toAffine (P : JacobianPoint) : Except Thrown JacobianPoint := do
  let P ← toAffineX params P
  let inverse ← modInverse (P.z ^ 3) params.p
  let Y ← get P.y
  return { P with y := some (Y * inverse % params.p) }

end

/-! ## Bytes -/

/-- `new byte[n]`. -/
def newBytes (n : Int) : Except Thrown Bytes :=
  if n < 0 then .error (.runtime .negativeArraySize) else .ok (List.replicate n.toNat 0)

/-- `System.arraycopy`. -/
def arraycopy (src : Bytes) (srcPos : Int) (dest : Bytes) (destPos length : Int) : Except Thrown Bytes :=
  if srcPos < 0 ∨ destPos < 0 ∨ length < 0 ∨ src.length < srcPos + length ∨ dest.length < destPos + length then
    .error (.runtime .indexOutOfBounds)
  else .ok (overwrite dest destPos.toNat ((src.drop srcPos.toNat).take length.toNat))

section

variable (params : ECParameterSpec)

/-- `(p.bitLength() + 7) / 8`, of `int`s. -/
def fieldLength : Int := (toInt32 ((bitLength params.p : Int) + 7)).tdiv 8

/-- `fieldElemToBytes(BigInteger, ECParameterSpec)`. -/
def fieldElemToBytes (a : Int) : Except Thrown Bytes :=
  let len : Int := fieldLength params
  let bytes := TwosComplement.toBytes a
  if len < bytes.length then do
    let tmp ← newBytes len
    arraycopy bytes (bytes.length - tmp.length) tmp 0 tmp.length
  else if bytes.length < len then do
    let tmp ← newBytes len
    arraycopy bytes 0 tmp (tmp.length - bytes.length) bytes.length
  else .ok bytes

/-- `fieldElemToBytes(BigInteger, ECParameterSpec, byte[], int)`: the array that was written to, and what is returned. -/
def fieldElemToBytesAt (a : Int) (data : Bytes) (off : Int) : Except Thrown (Bytes × Int) :=
  let len : Int := fieldLength params
  let bytes := TwosComplement.toBytes a
  if len < bytes.length then do
    let data ← arraycopy bytes (bytes.length - len) data off len
    return (data, len)
  else if bytes.length < len then do
    let data ← arraycopy bytes 0 data (len - bytes.length + off) bytes.length
    return (data, len)
  else do
    let data ← arraycopy bytes 0 data off bytes.length
    return (data, (bytes.length : Int))

/-- `ecPointToBytes`, of the point with these coordinates. -/
def ecPointToBytes (x y : Int) : Except Thrown Bytes := do
  let fe1 ← fieldElemToBytes params x
  let fe2 ← fieldElemToBytes params y
  let bytes ← newBytes (toInt32 (1 + fe1.length + fe2.length))
  let bytes := bytes.set 0 0x04
  let bytes ← arraycopy fe1 0 bytes 1 fe1.length
  arraycopy fe2 0 bytes (1 + fe1.length) fe2.length

/-- `bytesToECPoint`: the coordinates of the point. -/
def bytesToECPoint (bytes : Bytes) : Except Thrown (Int × Int) :=
  match bytes with
  | [] => .error (.runtime .indexOutOfBounds)
  | first :: _ =>
    if first = 0x00 then .error (.runtime .illegalArgument)
    else if first = 0x02 ∨ first = 0x03 then .error (.runtime .unsupportedOperation)
    else if first = 0x04 then do
      let fe ← newBytes (fieldLength params)
      let fe ← arraycopy bytes 1 fe 0 fe.length
      let x := BigEndian.ofBytes fe
      let fe ← arraycopy bytes (1 + fe.length) fe 0 fe.length
      return ((x : Int), (BigEndian.ofBytes fe : Int))
    else .error (.runtime .illegalArgument)

end

end EcCore

end Java
