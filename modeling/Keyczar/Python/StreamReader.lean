import Keyczar.Python.Stream
import Keyczar.Lib.Base64Scan

/-!
# The incremental base 64 reader

`IncrementalBase64WSStreamReader` decodes what its stream gives it, in groups of four characters. `Base64WSDecode`, which it calls for
each stretch of groups, removes blanks and line ends only then, so a group of four characters of the stream need not be a group of
four characters of base 64.
-/

namespace Python

open Bytes Base64Scan

/-! ## `Base64WSDecode` -/

/-- The values of `binascii.a2b_base64`, with `-` and `_` for what `urlsafe_b64decode` translates them to. -/
def base64Value (c : UInt8) : Option Nat :=
  if 65 ≤ c ∧ c ≤ 90 then some (c.toNat - 65)
  else if 97 ≤ c ∧ c ≤ 122 then some (c.toNat - 71)
  else if 48 ≤ c ∧ c ≤ 57 then some (c.toNat + 4)
  else if c = 43 ∨ c = 45 then some 62
  else if c = 47 ∨ c = 95 then some 63
  else none

/-- The table of `binascii`, whose padding character is `=`. -/
def base64Table : Table where
  value := base64Value
  pad := 61
  value_pad := rfl

/-- `base64.urlsafe_b64decode`; `none` when it raises a `TypeError`. -/
def urlsafeB64decode (s : Bytes) : Option Bytes := Base64Scan.decode base64Table s

/-- What is removed: spaces, and what `splitlines` splits at. -/
def isBlank (c : UInt8) : Bool := c = 10 || c = 13 || c = 32

/-- A string without spaces and line ends. -/
def killWhitespace (s : Bytes) : Bytes := s.filter (!isBlank ·)

/-- `Base64WSDecode`. -/
def base64WSDecode (s : Bytes) : Except PyError Bytes :=
  let s := killWhitespace s
  let d := s.length % 4
  if d = 1 then .error .base64DecodingError
  else
    let s := if d = 2 then s ++ [61, 61] else if d = 3 then s ++ [61] else s
    match urlsafeB64decode s with
    | none => .error .base64DecodingError
    | some bytes => .ok bytes

theorem reads_base64Table : base64Table.Reads Base64.webSafe := by
  unfold Table.Reads
  decide

/-- There is nothing to remove in what was encoded. -/
theorem killWhitespace_encode (s : Bytes) : killWhitespace (base64WSEncode s) = base64WSEncode s := by
  have hblank : ∀ i < 64, isBlank (Base64.webSafe.toChar i) = false := by decide
  refine List.filter_eq_self.mpr fun c hc => ?_
  obtain ⟨i, hi, rfl⟩ := Base64.exists_of_mem_encode Base64.webSafe hc
  rw [hblank i hi]
  rfl

/-- Decoding undoes encoding. -/
theorem base64WSDecode_encode (s : Bytes) : base64WSDecode (base64WSEncode s) = .ok s := by
  have hlength : (base64WSEncode s).length % 4 ≠ 1 := Base64.length_encode_mod Base64.webSafe s
  have hdecode := decode_encode_padding reads_base64Table s
  have hpadded : (if (base64WSEncode s).length % 4 = 2 then base64WSEncode s ++ [61, 61]
      else if (base64WSEncode s).length % 4 = 3 then base64WSEncode s ++ [61] else base64WSEncode s) =
      base64WSEncode s ++ padding base64Table (base64WSEncode s).length := by
    unfold padding
    split
    · rfl
    · split
      · rfl
      · rw [List.append_nil]
  unfold base64WSDecode
  rw [killWhitespace_encode]
  dsimp only
  rw [if_neg hlength, hpadded, urlsafeB64decode, base64WSEncode, hdecode]

/-! ## The decoder -/

/-- `BufferedIncrementalBase64WSDecoder`. -/
structure BufferedIncrementalBase64WSDecoder where
  buffer : Bytes := []

namespace BufferedIncrementalBase64WSDecoder

/-- `_buffer_decode`: what was decoded, and how much of the input that was. -/
def bufferDecode (input : Bytes) (final : Bool) : Except PyError (Bytes × Nat) := do
  let lenToRead := if final then input.length else 4 * (input.length / 4)
  let result ← base64WSDecode (input.take lenToRead)
  return (result, lenToRead)

/-- `decode(input)`: the base class keeps what was not consumed. -/
def decode (d : BufferedIncrementalBase64WSDecoder) (input : Bytes) :
    Except PyError ((Bytes × Nat) × BufferedIncrementalBase64WSDecoder) := do
  let data := d.buffer ++ input
  let (result, consumed) ← bufferDecode data false
  return ((result, input.length), { buffer := data.drop consumed })

/-- `flush`. -/
def flush (d : BufferedIncrementalBase64WSDecoder) : Except PyError (Bytes × BufferedIncrementalBase64WSDecoder) :=
  if d.buffer = [] then .ok ([], d)
  else do
    let (result, _) ← bufferDecode d.buffer true
    return (result, { buffer := [] })

end BufferedIncrementalBase64WSDecoder

/-! ## The reader -/

/-- `read(size)`, or `read()` without a size: the stream gives what it likes, at most its next piece. -/
def InputStream.readSome (s : InputStream) (size : Option Nat) : Option Bytes × InputStream :=
  match size with
  | some size => s.read size
  | none => match s.pieces with
    | [] => (some [], s)
    | piece :: _ => (piece, s.tail)

/-- The attributes of a reader, without the lines that only `readline` caches. -/
structure IncrementalBase64WSStreamReader where
  stream : InputStream
  decoder : BufferedIncrementalBase64WSDecoder := {}
  bytebuffer : Bytes := []
  charbuffer : Bytes := []

namespace IncrementalBase64WSStreamReader

/-- Whether the request can be satisfied from the characters that are there; `none` is a negative number. -/
def satisfied (size chars : Option Nat) (charbuffer : Bytes) : Bool :=
  match chars, size with
  | none, none => charbuffer ≠ []
  | none, some size => size ≤ charbuffer.length
  | some chars, _ => chars ≤ charbuffer.length

/-- The body of the loop of `read`: new data, if there is any, is decoded. -/
def pull (size : Option Nat) (r : IncrementalBase64WSStreamReader) :
    Except PyError (Option Bytes × IncrementalBase64WSStreamReader) :=
  match r.stream.readSome size with
  | (none, stream) => .ok (none, { r with stream })
  | (some newdata, stream) => do
    let data := r.bytebuffer ++ newdata
    let ((newchars, decodedbytes), decoder) ← r.decoder.decode data
    return (some newdata, { r with
      stream, decoder, bytebuffer := data.drop decodedbytes, charbuffer := r.charbuffer ++ newchars })

/-- The loop of `read`, with at most as many turns as the first number says: the last new data. -/
def readLoop (size chars : Option Nat) : Nat → Option Bytes → IncrementalBase64WSStreamReader →
    Except PyError (Option Bytes × IncrementalBase64WSStreamReader)
  | 0, newdata, r => .ok (newdata, r)
  | fuel + 1, newdata, r =>
    if satisfied size chars r.charbuffer then .ok (newdata, r)
    else do
      let (newdata, r) ← pull size r
      if newdata = some [] then return (newdata, r) else readLoop size chars fuel newdata r

/-- The characters that are returned, and those that are kept. -/
def splitChars (chars : Option Nat) (charbuffer : Bytes) : Bytes × Bytes :=
  match chars with
  | none => (charbuffer, [])
  | some chars => (charbuffer.take chars, charbuffer.drop chars)

/-- `read(size, chars)`; `none` is a negative number, or `None` as a result. There is a turn of the loop for each piece of the stream at
most, and one for its end. -/
def read (size chars : Option Nat) (r : IncrementalBase64WSStreamReader) :
    Except PyError (Option Bytes × IncrementalBase64WSStreamReader) := do
  let (newdata, r) ← readLoop size chars (r.stream.remaining + 1) (some []) r
  let (result, charbuffer) := splitChars chars r.charbuffer
  let r := { r with charbuffer }
  if result = [] ∧ newdata = none then return (none, r)
  else if result = [] ∧ newdata = some [] ∧ chars ≠ some 0 then do
    let (result, decoder) ← r.decoder.flush
    return (some result, { r with decoder })
  else return (some result, r)

/-- Read on with these sizes until the end is reported: all results, one behind the other, or what was raised; `none` when that takes
more reads than the first number says. -/
def readToEnd : Nat → (Nat → Option Nat × Option Nat) → IncrementalBase64WSStreamReader → Option (Except PyError Bytes)
  | 0, _, _ => none
  | fuel + 1, sizes, r =>
    match r.read (sizes 0).1 (sizes 0).2 with
    | .error e => some (.error e)
    | .ok (some [], _) => some (.ok [])
    | .ok (result, r) => (readToEnd fuel (fun i => sizes (i + 1)) r).map fun rest => rest.map (result.getD [] ++ ·)

end IncrementalBase64WSStreamReader

end Python
