import Keyczar.Python.Keyinfo
import Keyczar.Lib.Base64
import Keyczar.Lib.BigEndian
import Keyczar.Lib.Walk
import Mathlib.Order.Interval.Finset.Basic
import Mathlib.Data.Int.Interval
import Mathlib.Data.Int.ConditionallyCompleteOrder

/-!
# The byte-array helpers of `util.py`

Length-prefixed packing and its inverse, with the exceptions of `struct`. A length is a signed number: when unpacking it moves
the position by that much, in either direction.
-/

namespace Python

open Bytes

/-- `Base64WSEncode`. -/
def base64WSEncode (s : Bytes) : Bytes := Base64.encode Base64.webSafe s

theorem base64WSEncode_injective : Function.Injective base64WSEncode := Base64.encode_injective Base64.webSafe

/-- The 20 bytes of a SHA-1 hash. -/
def HLEN : Nat := 20

/-! ## Numbers as bytes -/

/-- `BigIntToBytes`: the loop takes the digits to the base 256, the last first. -/
def bigIntToBytes (n : Nat) : Bytes := BigEndian.toBytes n

/-- `BytesToLong`. -/
def bytesToLong (byteString : Bytes) : Nat := BigEndian.ofBytes byteString

/-- `PadBytes`; a negative count adds nothing. -/
def padBytes (byteString : Bytes) (n : Int) : Bytes := List.replicate n.toNat 0 ++ byteString

/-- `TrimBytes`: of a string of zeros one is kept. -/
def trimBytes (byteString : Bytes) : Bytes :=
  let trimmed := BigEndian.strip byteString
  if trimmed = [] then [0] else trimmed

/-- `Xor`: the shorter string is filled with zeros in front. -/
def xor (a b : Bytes) : Bytes :=
  let m := max a.length b.length
  Bytes.xor (padBytes a (m - a.length)) (padBytes b (m - b.length))

/-! ## Packing -/

/-- `struct.pack(">i", n)` for a length: it must fit in a signed 32-bit number. -/
def packInt (n : Nat) : Except PyError Bytes :=
  if n < 2 ^ 31 then .ok (be32 n) else .error .structError

/-- `PackByteArray`; `none` is Python's `None`. -/
def packByteArray (array : Option Bytes) : Except PyError Bytes :=
  match array with
  | none => .ok []
  | some array => do
    let arrayLengthHeader ← packInt array.length
    return arrayLengthHeader ++ array

theorem packByteArray_none : packByteArray none = .ok [] := rfl

/-- Packing succeeds exactly on the strings whose length fits. -/
theorem packByteArray_some_eq_ok_iff {array packed : Bytes} :
    packByteArray (some array) = .ok packed ↔ array.length < 2 ^ 31 ∧ packed = be32 array.length ++ array := by
  unfold packByteArray packInt
  by_cases h : array.length < 2 ^ 31
  · simp only [h, if_true, true_and]
    constructor
    · intro h'; exact (Except.ok.inj h').symm
    · rintro rfl; rfl
  · simp only [h, if_false, false_and, iff_false]
    exact nofun

theorem packByteArray_some_of_lt {array : Bytes} (h : array.length < 2 ^ 31) :
    packByteArray (some array) = .ok (be32 array.length ++ array) :=
  packByteArray_some_eq_ok_iff.mpr ⟨h, rfl⟩

/-- `PackMultipleByteArrays`. -/
def packMultipleByteArrays (arrays : List (Option Bytes)) : Except PyError Bytes := do
  let arrayCountHeader ← packInt arrays.length
  let arrayContents ← arrays.mapM packByteArray
  return arrayCountHeader ++ arrayContents.flatten

theorem mapM_packByteArray {arrays : List Bytes} (h : ∀ array ∈ arrays, array.length < 2 ^ 31) :
    (arrays.map some).mapM packByteArray = .ok (arrays.map fun array => be32 array.length ++ array) := by
  induction arrays with
  | nil => rfl
  | cons array arrays ih =>
    rw [List.map_cons, List.mapM_cons, packByteArray_some_of_lt (h array List.mem_cons_self),
      ih fun array' h' => h array' (List.mem_cons_of_mem array h')]
    rfl

/-- What is packed: the count, and every array behind its length. -/
theorem packMultipleByteArrays_eq {arrays : List Bytes} (hcount : arrays.length < 2 ^ 31)
    (h : ∀ array ∈ arrays, array.length < 2 ^ 31) :
    packMultipleByteArrays (arrays.map some) =
      .ok (be32 arrays.length ++ arrays.flatMap fun array => be32 array.length ++ array) := by
  rw [packMultipleByteArrays, packInt, List.length_map, if_pos hcount, mapM_packByteArray h, List.flatMap_def]
  rfl

/-! ## Unpacking -/

/-- `struct.unpack(">i", data[offset:offset + 4])[0]`. -/
def unpackInt (data : Bytes) (offset : Int) : Except PyError Int :=
  match readBe32 (slice data offset (offset + 4)) with
  | none => .error .structError
  | some n => .ok (int32 n)

/-- `UnpackByteArray`: the array and the offset after it. -/
def unpackByteArray (data : Bytes) (offset : Int) : Except PyError (Bytes × Int) := do
  let arrayLen ← unpackInt data offset
  let offset := offset + 4
  return (slice data offset (offset + arrayLen), offset + arrayLen)

/-- The loop of `UnpackMultipleByteArrays`, for at most `fuel` turns; `none` when it is still running then. -/
def unpackLoop (data : Bytes) : Nat → Int → List Bytes → Option (Except PyError (List Bytes))
  | 0, _, _ => none
  | fuel + 1, position, result =>
    if position < data.length then
      match unpackByteArray data position with
      | .error e => some (.error e)
      | .ok (array, position) => unpackLoop data fuel position (result ++ [array])
    else if position = data.length then some (.ok result)
    else some (.error .assertionError)

/-- `UnpackMultipleByteArrays`. The count in the first four bytes is skipped. -/
def unpackMultipleByteArrays (data : Bytes) (fuel : Nat) : Option (Except PyError (List Bytes)) :=
  unpackLoop data fuel 4 []

/-! ## Where the unpacking loop goes -/

/-- The offset that the length field at an offset leads to; `none` at or after the end of the data, and where fewer than four
bytes are left for the field. -/
def nextOffset (data : Bytes) (offset : Int) : Option Int :=
  if offset < data.length then
    (readBe32 (slice data offset (offset + 4))).map fun n => offset + 4 + int32 n
  else none

/-- The offsets one gets to from offset 4 by following the length fields, in order, until there is no next one or the data is
exhausted twice over. -/
def fieldOffsets (data : Bytes) : List Int := Walk.places (nextOffset data) (2 * data.length + 1) 4

/-- The slice of a length field is empty or short in front of the data. -/
theorem readBe32_slice_neg {data : Bytes} {offset : Int} (h : offset < -data.length) :
    readBe32 (slice data offset (offset + 4)) = none := by
  rw [← Option.not_isSome_iff_eq_none, readBe32_isSome_iff]
  have : (slice data offset (offset + 4)).length < 4 := by
    simp only [slice, List.length_take, List.length_drop, index]
    split <;> split <;> omega
  omega

/-- A place with a next one lies in the data, counted from its start or from its end. -/
theorem mem_Ico_of_nextOffset {data : Bytes} {offset next : Int} (h : nextOffset data offset = some next) :
    offset ∈ Finset.Ico (-(data.length : Int)) data.length := by
  unfold nextOffset at h
  split at h
  · rename_i hlt
    rw [Finset.mem_Ico]
    refine ⟨?_, hlt⟩
    by_contra hneg
    rw [readBe32_slice_neg (by omega)] at h
    cases h
  · cases h

theorem card_offsets (data : Bytes) : (Finset.Ico (-(data.length : Int)) data.length).card = 2 * data.length := by
  rw [Int.card_Ico]
  omega

/-- One turn of the loop goes to the next offset, or ends the loop where there is none. -/
theorem unpackLoop_succ_eq_none_iff (data : Bytes) (fuel : Nat) (position : Int) (result : List Bytes) :
    unpackLoop data (fuel + 1) position result = none ↔
      ∃ next, nextOffset data position = some next ∧
        unpackLoop data fuel next (result ++ [slice data (position + 4) next]) = none := by
  simp only [unpackLoop, nextOffset, unpackByteArray, unpackInt]
  by_cases h : position < data.length
  · simp only [h, if_true]
    cases hr : readBe32 (slice data position (position + 4)) with
    | none => simp [bind, Except.bind]
    | some n => simp [bind, Except.bind, pure, Except.pure]
  · simp only [h, if_false]
    by_cases h' : position = data.length
    · simp [h']
    · simp [h']

/-- The loop is still running after some turns exactly when the walk along the length fields is. -/
theorem unpackLoop_eq_none_iff (data : Bytes) (fuel : Nat) (position : Int) (result : List Bytes) :
    unpackLoop data fuel position result = none ↔ Walk.after (nextOffset data) fuel position ≠ none := by
  induction fuel generalizing position result with
  | zero => simp [unpackLoop, Walk.after]
  | succ fuel ih =>
    rw [unpackLoop_succ_eq_none_iff]
    simp only [Walk.after]
    cases h : nextOffset data position with
    | none => simp
    | some next => simp [ih]

/-- The loop ends exactly when following the length fields comes to no offset twice. -/
theorem unpackMultipleByteArrays_returns_iff (data : Bytes) :
    (∃ fuel, (unpackMultipleByteArrays data fuel).isSome) ↔ (fieldOffsets data).Nodup := by
  rw [fieldOffsets, ← Walk.halts_iff_nodup (Finset.Ico (-(data.length : Int)) data.length)
    (fun _ _ h => mem_Ico_of_nextOffset h) (by rw [card_offsets]; exact Nat.lt_succ_self _)]
  constructor
  · rintro ⟨fuel, h⟩
    refine ⟨fuel, ?_⟩
    by_contra hne
    rw [unpackMultipleByteArrays, (unpackLoop_eq_none_iff data fuel 4 []).mpr hne] at h
    cases h
  · rintro ⟨fuel, h⟩
    refine ⟨fuel, ?_⟩
    rw [← Option.ne_none_iff_isSome]
    intro hnone
    exact (unpackLoop_eq_none_iff data fuel 4 []).mp hnone h

end Python
