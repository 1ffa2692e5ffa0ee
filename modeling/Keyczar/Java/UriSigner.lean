import Keyczar.Java.Signer
import Keyczar.Java.Base64Strings
import Keyczar.Lib.Segments
import Keyczar.Lib.SortedSets

/-!
# Signed URIs in the Java library

`UriSigner` signs a URI whose query has its parameters in lexicographic order, and puts the signature into one more parameter. To
verify, the parameters that begin with the name of that parameter are left out and the rest is put in order again.

A URI is what its getters return, and its constructor takes any components.
-/

namespace Java

open Bytes

/-- A `java.net.URI`, by its decoded components. -/
structure URI where
  scheme : Option Text := none
  authority : Option Text := none
  path : Option Text := none
  query : Option Text := none
  fragment : Option Text := none
  deriving DecidableEq, Repr

/-- `toASCIIString`: different URIs are written differently, in ASCII characters. -/
structure Rendering where
  toASCIIString : URI → Text
  ascii : ∀ uri, ∀ c ∈ toASCIIString uri, c < 128
  injective : toASCIIString.Injective

/-- What calls on strings throw: what the signer throws on bytes, and what the coder throws. -/
inductive StringFailure where
  | signer (e : Exception)
  | coder (e : Base64Strings.Thrown)
  deriving DecidableEq, Repr

/-! ## Strings -/

namespace Text

/-- The character of the first half of a pair, which stands for a character beyond the first 2 ^ 16. -/
def isHighSurrogate (c : UInt16) : Bool := 0xD800 ≤ c && c < 0xDC00

def isLowSurrogate (c : UInt16) : Bool := 0xDC00 ≤ c && c < 0xE000

/-- `n` in so many bytes of UTF-8 behind the first. -/
def continuation : Nat → Nat → Bytes
  | 0, _ => []
  | k + 1, n => continuation k (n / 64) ++ [UInt8.ofNat (0x80 + n % 64)]

/-- The bytes of a code point. -/
def utf8 (n : Nat) : Bytes :=
  if n < 0x80 then [UInt8.ofNat n]
  else if n < 0x800 then UInt8.ofNat (0xC0 + n / 64) :: continuation 1 n
  else if n < 0x10000 then UInt8.ofNat (0xE0 + n / 64 ^ 2) :: continuation 2 n
  else UInt8.ofNat (0xF0 + n / 64 ^ 3) :: continuation 3 n

/-- `getBytes("UTF-8")`: half a pair is written as a question mark. -/
def getBytes : Text → Bytes
  | [] => []
  | [c] => if isHighSurrogate c || isLowSurrogate c then [63] else utf8 c.toNat
  | c :: d :: s =>
    if isHighSurrogate c && isLowSurrogate d then
      utf8 (0x10000 + (c.toNat - 0xD800) * 0x400 + (d.toNat - 0xDC00)) ++ getBytes s
    else if isHighSurrogate c || isLowSurrogate c then 63 :: getBytes (d :: s)
    else utf8 c.toNat ++ getBytes (d :: s)

/-- `split`, of a string by one character. -/
def split (s : Text) (c : UInt16) : List Text := Segments.split c s

/-- `startsWith`. -/
def startsWith (s start : Text) : Bool := start.isPrefixOf s

/-- `deleteCharAt(length() - 1)`. -/
def deleteLast (buffer : Text) : Except RuntimeException Text :=
  if buffer = [] then .error .indexOutOfBounds else .ok buffer.dropLast

end Text

variable {ρ : Type}

/-- `sign(String)`. -/
def Signer.signText (z : SigningKeyczar ρ) (random : ρ) (input : Text) : Except StringFailure Text := do
  let signature ← (Signer.sign z random input.getBytes).mapError .signer
  (Base64Strings.encodeWebSafe signature).mapError .coder

/-- `verify(String, String)`. -/
def Verifier.verifyText (z : SigningKeyczar ρ) (data signature : Text) : Except StringFailure Bool := do
  let signature ← (Base64Strings.decodeWebSafe signature).mapError .coder
  (Verifier.verify z data.getBytes signature).mapError .signer

/-! ## `UriSigner` -/

namespace UriSigner

/-- `DEFAULT_SIG_PARAM`: `sig`. -/
def DEFAULT_SIG_PARAM : Text := [115, 105, 103]

/-- `canonicalQuery`: the parameters are put into a `TreeSet`, and out again. -/
def canonicalQuery (query : Option Text) : Except RuntimeException Text :=
  match query with
  | none => .ok []
  | some query => Text.deleteLast ((SortedSet.ofList (query.split 38)).elements.flatMap fun nameValue => nameValue ++ [38])

/-- The parameters of a query in order; there is an empty one where there is no query. -/
def sortedParams (query : Option Text) : List Text :=
  match query with
  | none => [[]]
  | some query => (SortedSet.ofList (query.split 38)).elements

/-- `canonicalUri`. -/
def canonicalUri (uri : Option URI) : Except RuntimeException (Option URI) :=
  match uri with
  | none => .ok none
  | some uri => do
    let query ← canonicalQuery uri.query
    return some { uri with query := some query }

variable (toASCIIString : URI → Text) (z : SigningKeyczar ρ) (random : ρ)

/-- `sign(URI, String)`. -/
def sign (uri : Option URI) (sigParam : Text) : Except StringFailure URI := do
  let uri ← (canonicalUri uri).mapError (.signer ∘ .runtime)
  match uri with
  | none => .error (.signer (.runtime .nullPointer))
  | some uri => do
    let sig ← Signer.signText z random (toASCIIString uri)
    let signedQuery := sigParam ++ [61] ++ sig
    let signedQuery := match uri.query with
      | none => signedQuery
      | some query => query ++ [38] ++ signedQuery
    return { uri with query := some signedQuery }

/-- `sign(URI)`. -/
def signDefault (uri : Option URI) : Except StringFailure URI := sign toASCIIString z random uri DEFAULT_SIG_PARAM

/-- The variables of the loop over the parameters. -/
structure Parameters where
  sig : Option Text := none
  unsignedQuery : Text := []
  deriving DecidableEq

/-- The body of the loop: a parameter is taken for the signature by how it begins. -/
def Parameters.read (sigParam : Text) (s : Parameters) (param : Text) : Parameters :=
  if param.startsWith sigParam then
    match param.split 61 with
    | [_, value] => { s with sig := some value }
    | _ => s
  else { s with unsignedQuery := s.unsignedQuery ++ param ++ [38] }

/-- The loop over the parameters. -/
def readParameters (sigParam : Text) (params : List Text) : Parameters := params.foldl (Parameters.read sigParam) {}

/-- The query without the signature: none, or without the last separator. -/
def Parameters.unsigned (s : Parameters) : Except RuntimeException (Option Text) :=
  if 0 < s.unsignedQuery.length then do
    let unsignedQuery ← Text.deleteLast s.unsignedQuery
    return some unsignedQuery
  else return none

/-- `verify(URI, String)`. -/
def verify (signedUri : Option URI) (sigParam : Text) : Except StringFailure Bool :=
  match signedUri with
  | none => .ok false
  | some signedUri =>
    match signedUri.query with
    | none => .ok false
    | some query =>
      let s := readParameters sigParam (query.split 38)
      match s.sig with
      | none => .ok false
      | some sig => do
        let unsignedQuery ← s.unsigned.mapError (.signer ∘ .runtime)
        let unsignedUri ← (canonicalUri (some { signedUri with query := unsignedQuery })).mapError (.signer ∘ .runtime)
        match unsignedUri with
        | none => .error (.signer (.runtime .nullPointer))
        | some unsignedUri => Verifier.verifyText z (toASCIIString unsignedUri) sig

/-- `verify(URI)`. -/
def verifyDefault (signedUri : Option URI) : Except StringFailure Bool := verify toASCIIString z signedUri DEFAULT_SIG_PARAM

end UriSigner

end Java
