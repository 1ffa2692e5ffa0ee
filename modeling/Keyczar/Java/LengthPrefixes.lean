import Keyczar.Java.SignerRuns
import Keyczar.Lib.Frames

/-!
# Arrays behind their lengths in the Java library

`Util.lenPrefixPack` and `Util.lenPrefixUnpack`. Unpacking looks at every length before it reads, but not at whether there is a count at
all, and it does not look at what is left behind the last array.
-/

namespace Java

open Bytes Frames

namespace ByteBuffer

/-- `putInt`, of a length. -/
def putInt (b : ByteBuffer) (n : Nat) : Except RuntimeException ByteBuffer := b.put (be32 n)

/-- `getInt`. -/
def getInt (b : ByteBuffer) : Except RuntimeException (Int × ByteBuffer) := do
  let (bytes, b) ← b.get 4
  return (int32 ((readBe32 bytes).getD 0), b)

end ByteBuffer

namespace Util

/-- The loop that puts the arrays. -/
def putArrays : List Bytes → ByteBuffer → Except RuntimeException ByteBuffer
  | [], outputBuffer => .ok outputBuffer
  | array :: inputArrays, outputBuffer => do
    let outputBuffer ← outputBuffer.putInt array.length
    let outputBuffer ← outputBuffer.put array
    putArrays inputArrays outputBuffer

/-- `lenPrefixPack`: the size is added up as an `int`. -/
def lenPrefixPack (inputArrays : List Bytes) : Except RuntimeException Bytes :=
  let outputSize := inputArrays.foldl (fun outputSize array => toInt32 (outputSize + array.length))
    (toInt32 ((1 + inputArrays.length) * 4 : Nat))
  if outputSize < 0 then .error .negativeArraySize
  else do
    let outputBuffer := ByteBuffer.allocate outputSize.toNat
    let outputBuffer ← outputBuffer.putInt inputArrays.length
    let outputBuffer ← putArrays inputArrays outputBuffer
    return outputBuffer.content

/-- The loop that gets `numArrays` arrays; the null reference where a length does not fit. -/
def getArrays : Nat → ByteBuffer → Except RuntimeException (Option (List Bytes))
  | 0, _ => .ok (some [])
  | numArrays + 1, input =>
    if input.remaining < 4 then .ok none
    else do
      let (len, input) ← input.getInt
      if len < 0 ∨ input.remaining < len then return none
      else
        let (array, input) ← input.get len.toNat
        let output ← getArrays numArrays input
        return output.map (array :: ·)

/-- `lenPrefixUnpack`. -/
def lenPrefixUnpack (packedInput : Bytes) (maxArrays : Int) : Except RuntimeException (Option (List Bytes)) := do
  let (numArrays, input) ← (ByteBuffer.wrap packedInput).getInt
  if numArrays < 0 ∨ maxArrays < numArrays then return none
  else getArrays numArrays.toNat input

/-! ## Packing -/

/-- The count, and the arrays behind their lengths. -/
def packed (arrays : List Bytes) : Bytes := be32 arrays.length ++ frames arrays

theorem length_packed (arrays : List Bytes) : (packed arrays).length = (1 + arrays.length) * 4 + arrays.flatten.length := by
  rw [packed, List.length_append, length_be32, length_frames]
  omega

theorem wrote_of_putArrays {arrays : List Bytes} {o o' : ByteBuffer} (h : putArrays arrays o = .ok o') : o.Wrote (frames arrays) o' := by
  induction arrays generalizing o with
  | nil =>
    cases h
    exact ByteBuffer.wrote_refl _
  | cons array arrays ih =>
    obtain ⟨o₁, hlength, h⟩ := Throwing.ok_of_bind h
    obtain ⟨o₂, harray, h⟩ := Throwing.ok_of_bind h
    rw [frames_cons]
    exact (ByteBuffer.wrote_of_put hlength).trans ((ByteBuffer.wrote_of_put harray).trans (ih h))

theorem putArrays_of_room {arrays : List Bytes} {o : ByteBuffer} (h : (frames arrays).length ≤ o.remaining) :
    ∃ o', putArrays arrays o = .ok o' := by
  induction arrays generalizing o with
  | nil => exact ⟨o, rfl⟩
  | cons array arrays ih =>
    simp only [frames_cons, List.length_append, length_be32] at h
    obtain ⟨o₁, hlength, hwrote₁⟩ := ByteBuffer.put_ok (b := o) (w := be32 array.length) (by rw [length_be32]; omega)
    have hremaining₁ := hwrote₁.remaining_eq
    rw [length_be32] at hremaining₁
    obtain ⟨o₂, harray, hwrote₂⟩ := ByteBuffer.put_ok (b := o₁) (w := array) (by omega)
    have hremaining₂ := hwrote₂.remaining_eq
    obtain ⟨o', hrest⟩ := ih (o := o₂) (by omega)
    refine ⟨o', ?_⟩
    rw [putArrays, ByteBuffer.putInt, hlength, Throwing.ok_bind, harray, Throwing.ok_bind, hrest]

/-- What is summed up is an `int`. -/
theorem outputSize_lt (arrays : List Bytes) (x : Int) :
    arrays.foldl (fun outputSize array => toInt32 (outputSize + array.length)) (toInt32 x) < 2 ^ 31 := by
  induction arrays generalizing x with
  | nil => exact Int.bmod_lt (by decide)
  | cons array arrays ih => exact ih _

/-- Arrays are packed when the size of the packed array is an `int`. -/
theorem lenPrefixPack_of_lt {arrays : List Bytes} (h : (packed arrays).length < 2 ^ 31) : lenPrefixPack arrays = .ok (packed arrays) := by
  have hlength := length_packed arrays
  have hsize : arrays.foldl (fun outputSize array => toInt32 (outputSize + array.length))
      (toInt32 ((1 + arrays.length) * 4 : Nat)) = (packed arrays).length := by
    rw [toInt32_of_lt (by omega), toInt32_foldl arrays _ (by omega), hlength]
  have hroom : (ByteBuffer.allocate (packed arrays).length).remaining = (packed arrays).length := by simp [ByteBuffer.allocate]
  obtain ⟨o₁, hcount, hwrote₁⟩ := ByteBuffer.put_ok (b := ByteBuffer.allocate (packed arrays).length) (w := be32 arrays.length)
    (by rw [hroom, length_be32]; omega)
  have hremaining₁ := hwrote₁.remaining_eq
  rw [hroom, packed, List.length_append, Nat.add_sub_cancel_left] at hremaining₁
  have hfits : (frames arrays).length ≤ o₁.remaining := by omega
  obtain ⟨o₂, harrays⟩ := putArrays_of_room hfits
  have hcontent := content_of_wrote (hwrote₁.trans (wrote_of_putArrays harrays)) (Nat.le_refl _)
  simp only [lenPrefixPack, hsize]
  rw [if_neg (by omega), Int.toNat_natCast, ByteBuffer.putInt, hcount, Throwing.ok_bind, harrays, Throwing.ok_bind, hcontent]
  rfl

/-- No other arrays are packed. -/
theorem lenPrefixPack_eq_ok_iff {arrays : List Bytes} {b : Bytes} :
    lenPrefixPack arrays = .ok b ↔ (packed arrays).length < 2 ^ 31 ∧ b = packed arrays := by
  constructor
  · intro h
    have hlt := outputSize_lt arrays ((1 + arrays.length) * 4 : Nat)
    have hfits : (packed arrays).length < 2 ^ 31 := by
      have hrun := h
      simp only [lenPrefixPack] at hrun
      split at hrun
      · cases hrun
      · obtain ⟨o₁, hcount, hrun⟩ := Throwing.ok_of_bind hrun
        obtain ⟨o₂, harrays, -⟩ := Throwing.ok_of_bind hrun
        have hle := ((ByteBuffer.wrote_of_put hcount).trans (wrote_of_putArrays harrays)).length_le
        have hroom : ∀ n, (ByteBuffer.allocate n).remaining = n := fun n => by simp [ByteBuffer.allocate]
        rw [hroom] at hle
        show (be32 arrays.length ++ frames arrays).length < 2 ^ 31
        omega
    rw [lenPrefixPack_of_lt hfits] at h
    exact ⟨hfits, (Except.ok.inj h).symm⟩
  · rintro ⟨hlt, rfl⟩
    exact lenPrefixPack_of_lt hlt

/-! ## Unpacking -/

theorem rest_of_four {b : ByteBuffer} (h : 4 ≤ b.remaining) : ∃ n < 2 ^ 32, ∃ s, b.rest = be32 n ++ s := by
  have hfour : (b.rest.take 4).length = 4 := by rw [List.length_take, ByteBuffer.length_rest, Nat.min_eq_left h]
  obtain ⟨n, hn⟩ := Option.isSome_iff_exists.mp ((readBe32_isSome_iff _).mpr hfour)
  obtain ⟨heq, hlt⟩ := be32_of_readBe32 hn
  exact ⟨n, hlt, b.rest.drop 4, by rw [← heq, List.take_append_drop]⟩

theorem getInt_of_rest {b : ByteBuffer} {n : Nat} {s : Bytes} (hn : n < 2 ^ 32) (h : b.rest = be32 n ++ s) :
    ∃ b', b.getInt = .ok (int32 n, b') ∧ b'.rest = s := by
  obtain ⟨b', hget, hrest⟩ := ByteBuffer.get_append h (length_be32 n)
  refine ⟨b', ?_, hrest⟩
  rw [ByteBuffer.getInt, hget, Throwing.ok_bind]
  dsimp only
  rw [readBe32_be32, Option.getD_some, Nat.mod_eq_of_lt hn]
  rfl

/-- A step of the loop: a length that fits, and the array behind it; nothing else is read. -/
theorem getArrays_succ (numArrays : Nat) (input : ByteBuffer) :
    (∃ x : Bytes, ∃ input' : ByteBuffer, x.length < 2 ^ 31 ∧ input.rest = be32 x.length ++ (x ++ input'.rest) ∧
      getArrays (numArrays + 1) input = (getArrays numArrays input' >>= fun output => .ok (output.map (x :: ·)))) ∨
    (getArrays (numArrays + 1) input = .ok none ∧
      ∀ x s : Bytes, x.length < 2 ^ 31 → input.rest ≠ be32 x.length ++ (x ++ s)) := by
  rcases Nat.lt_or_ge input.remaining 4 with hshort | hfour
  · right
    refine ⟨by rw [getArrays, if_pos hshort], fun x s _ h => ?_⟩
    have hlength := congrArg List.length h
    rw [ByteBuffer.length_rest, List.length_append, length_be32] at hlength
    omega
  · obtain ⟨n, hn, s, hrest⟩ := rest_of_four hfour
    obtain ⟨input₁, hint, hrest₁⟩ := getInt_of_rest hn hrest
    have hremaining : input₁.remaining = s.length := by rw [← ByteBuffer.length_rest, hrest₁]
    by_cases hbad : int32 n < 0 ∨ (input₁.remaining : Int) < int32 n
    · right
      have hnone : getArrays (numArrays + 1) input = .ok none := by
        rw [getArrays, if_neg (Nat.not_lt.mpr hfour), hint, Throwing.ok_bind]
        exact if_pos hbad
      refine ⟨hnone, fun x t hx h => ?_⟩
      rw [hrest] at h
      obtain ⟨hcount, htail⟩ := List.append_inj h (by rw [length_be32, length_be32])
      obtain rfl := be32_inj hn (by omega) hcount
      rw [int32_of_lt hx, hremaining, htail, List.length_append] at hbad
      omega
    · left
      have hn' : n < 2 ^ 31 := lt_of_int32_nonneg hn (Int.not_lt.mp fun hneg => hbad (Or.inl hneg))
      rw [int32_of_lt hn'] at hbad
      have hle : n ≤ s.length := by omega
      obtain ⟨input', hget, hrest'⟩ := ByteBuffer.get_append (b := input₁) (hrest₁.trans (List.take_append_drop n s).symm)
        (List.length_take_of_le hle)
      refine ⟨s.take n, input', ?_, ?_, ?_⟩
      · rw [List.length_take_of_le hle]
        exact hn'
      · rw [List.length_take_of_le hle, hrest', List.take_append_drop, hrest]
      · rw [getArrays, if_neg (Nat.not_lt.mpr hfour), hint, Throwing.ok_bind]
        dsimp only
        rw [int32_of_lt hn', if_neg hbad, Int.toNat_natCast, hget, Throwing.ok_bind]
        rfl

/-- The loop throws nothing; it gets the arrays that are in the input, whatever follows them. -/
theorem getArrays_spec (numArrays : Nat) (input : ByteBuffer) :
    (∃ r t, getArrays numArrays input = .ok (some r) ∧ r.length = numArrays ∧ input.rest = frames r ++ t) ∨
    (getArrays numArrays input = .ok none ∧
      ∀ (r : List Bytes) (t : Bytes), r.length = numArrays → (∀ x ∈ r, x.length < 2 ^ 31) → input.rest ≠ frames r ++ t) := by
  induction numArrays generalizing input with
  | zero => exact Or.inl ⟨[], input.rest, rfl, rfl, rfl⟩
  | succ numArrays ih =>
    rcases getArrays_succ numArrays input with ⟨x, input', hx, hrest, hloop⟩ | ⟨hloop, hnone⟩
    · rcases ih input' with ⟨r, t, hrun, hlength, hr⟩ | ⟨hrun, hnone⟩
      · left
        refine ⟨x :: r, t, ?_, by rw [List.length_cons, hlength], ?_⟩
        · rw [hloop, hrun]
          rfl
        · rw [hrest, hr, frames_cons]
          simp only [List.append_assoc]
      · right
        refine ⟨by rw [hloop, hrun]; rfl, fun r t hlength hr h => ?_⟩
        cases r with
        | nil => cases hlength
        | cons y r =>
          rw [hrest, frames_cons, List.append_assoc, List.append_assoc] at h
          obtain ⟨rfl, htail⟩ := cons_inj (by omega) (by have := hr y List.mem_cons_self; omega) h
          exact hnone r t (Nat.succ.inj hlength) (fun z hz => hr z (List.mem_cons_of_mem _ hz)) htail
    · right
      refine ⟨hloop, fun r t hlength hr h => ?_⟩
      cases r with
      | nil => cases hlength
      | cons y r =>
        rw [frames_cons, List.append_assoc, List.append_assoc] at h
        exact hnone y (frames r ++ t) (hr y List.mem_cons_self) h

/-! ## What is promised -/

/-- Arrays are got back from what they are packed to. -/
def RoundTrips (arrays : List Bytes) (maxArrays : Int) : Prop :=
  ∃ b, lenPrefixPack arrays = .ok b ∧ lenPrefixUnpack b maxArrays = .ok (some arrays)

/-- Unpacking throws nothing, and what it accepts is what the arrays that it returns are packed to. -/
structure UnpacksExactly (b : Bytes) (maxArrays : Int) : Prop where
  returns : ∃ output, lenPrefixUnpack b maxArrays = .ok output
  exact : ∀ r, lenPrefixUnpack b maxArrays = .ok (some r) → lenPrefixPack r = .ok b ∧ r.length ≤ maxArrays

/-- There are bytes behind arrays that are packed and not too many. -/
def Trailing (b : Bytes) (maxArrays : Int) : Prop := ∃ (r : List Bytes) (t : Bytes), t ≠ [] ∧ r.length ≤ maxArrays ∧ b = packed r ++ t

/-- Without a count unpacking throws. -/
theorem lenPrefixUnpack_of_short {b : Bytes} (h : b.length < 4) (maxArrays : Int) :
    lenPrefixUnpack b maxArrays = .error .bufferUnderflow := by
  have hget := ByteBuffer.get_error (b := ByteBuffer.wrap b) (n := 4) (by rw [ByteBuffer.remaining_wrap]; exact h)
  rw [lenPrefixUnpack, ByteBuffer.getInt, hget]
  rfl

/-- What an array holds of packed arrays is smaller than the array. -/
theorem lengths_of_packed {b t : Bytes} {r : List Bytes} (hb : b.length < 2 ^ 31) (h : b = packed r ++ t) :
    r.length < 2 ^ 31 ∧ ∀ x ∈ r, x.length < 2 ^ 31 := by
  have hlength := congrArg List.length h
  rw [List.length_append, packed, List.length_append, length_be32] at hlength
  have hframes := length_frames r
  refine ⟨by omega, fun x hx => ?_⟩
  have hle := length_le_of_mem hx
  omega

/-- With a count, the arrays are returned that the input begins with, if there are as many and they are not too many. -/
theorem lenPrefixUnpack_spec {b : Bytes} (hfour : 4 ≤ b.length) (hb : b.length < 2 ^ 31) (maxArrays : Int) :
    (∃ (r : List Bytes) (t : Bytes), lenPrefixUnpack b maxArrays = .ok (some r) ∧ r.length ≤ maxArrays ∧ b = packed r ++ t) ∨
    (lenPrefixUnpack b maxArrays = .ok none ∧ ∀ (r : List Bytes) (t : Bytes), r.length ≤ maxArrays → b ≠ packed r ++ t) := by
  obtain ⟨n, hn, s, hrest⟩ := rest_of_four (b := ByteBuffer.wrap b) (by rw [ByteBuffer.remaining_wrap]; exact hfour)
  obtain ⟨input, hint, hinput⟩ := getInt_of_rest hn hrest
  rw [ByteBuffer.rest_wrap] at hrest
  have hcut : ∀ (r : List Bytes) (t : Bytes), b = packed r ++ t → n = r.length ∧ s = frames r ++ t := by
    intro r t h
    obtain ⟨hcount, -⟩ := lengths_of_packed hb h
    rw [hrest, packed, List.append_assoc] at h
    obtain ⟨hn', hs⟩ := List.append_inj h (by rw [length_be32, length_be32])
    exact ⟨be32_inj hn (by omega) hn', hs⟩
  by_cases hbad : int32 n < 0 ∨ maxArrays < int32 n
  · right
    have hnone : lenPrefixUnpack b maxArrays = .ok none := by
      rw [lenPrefixUnpack, hint, Throwing.ok_bind]
      exact if_pos hbad
    refine ⟨hnone, fun r t hmax h => ?_⟩
    obtain ⟨rfl, -⟩ := hcut r t h
    rw [int32_of_lt (lengths_of_packed hb h).1] at hbad
    omega
  · have hn' : n < 2 ^ 31 := lt_of_int32_nonneg hn (Int.not_lt.mp fun hneg => hbad (Or.inl hneg))
    have hrun : lenPrefixUnpack b maxArrays = getArrays n input := by
      rw [lenPrefixUnpack, hint, Throwing.ok_bind]
      refine (if_neg hbad).trans ?_
      rw [int32_of_lt hn', Int.toNat_natCast]
    rw [int32_of_lt hn'] at hbad
    rw [hrun]
    rcases getArrays_spec n input with ⟨r, t, hsome, hlength, hr⟩ | ⟨hnone, hr⟩
    · left
      refine ⟨r, t, hsome, by omega, ?_⟩
      rw [hrest, ← hinput, hr, packed, hlength, List.append_assoc]
    · right
      refine ⟨hnone, fun r t hmax h => ?_⟩
      obtain ⟨hlength, hs⟩ := hcut r t h
      exact hr r t hlength.symm (lengths_of_packed hb h).2 (hinput.trans hs)

/-- Packed arrays are told from others, and from what follows them. -/
theorem packed_append_inj {b s t : Bytes} {r r' : List Bytes} (hb : b.length < 2 ^ 31) (h : b = packed r ++ s) (h' : b = packed r' ++ t) :
    r = r' ∧ s = t := by
  obtain ⟨hcount, hlengths⟩ := lengths_of_packed hb h
  obtain ⟨hcount', hlengths'⟩ := lengths_of_packed hb h'
  rw [h, packed, packed, List.append_assoc, List.append_assoc] at h'
  obtain ⟨hlength, hframes⟩ := List.append_inj h' (by rw [length_be32, length_be32])
  refine frames_append_inj (be32_inj (by omega) (by omega) hlength) (fun x hx => ?_) (fun x hx => ?_) hframes
  · have := hlengths x hx
    omega
  · have := hlengths' x hx
    omega

theorem packs_iff {arrays : List Bytes} {maxArrays : Int} (hmax : arrays.length ≤ maxArrays) :
    RoundTrips arrays maxArrays ↔ (packed arrays).length < 2 ^ 31 := by
  constructor
  · rintro ⟨b, hpack, -⟩
    exact (lenPrefixPack_eq_ok_iff.mp hpack).1
  · intro hlt
    have hself : packed arrays = packed arrays ++ [] := (List.append_nil _).symm
    have hfour : 4 ≤ (packed arrays).length := by
      rw [length_packed]
      omega
    refine ⟨packed arrays, lenPrefixPack_of_lt hlt, ?_⟩
    rcases lenPrefixUnpack_spec hfour hlt maxArrays with ⟨r, t, hsome, -, hr⟩ | ⟨-, hnone⟩
    · obtain ⟨rfl, -⟩ := packed_append_inj hlt hself hr
      exact hsome
    · exact absurd hself (hnone arrays [] hmax)

theorem unpacksExactly_iff {b : Bytes} (hb : b.length < 2 ^ 31) (maxArrays : Int) :
    UnpacksExactly b maxArrays ↔ 4 ≤ b.length ∧ ¬Trailing b maxArrays := by
  constructor
  · intro h
    have hfour : 4 ≤ b.length := by
      by_contra hshort
      obtain ⟨output, hrun⟩ := h.returns
      rw [lenPrefixUnpack_of_short (Nat.lt_of_not_le hshort)] at hrun
      cases hrun
    refine ⟨hfour, ?_⟩
    rintro ⟨r, t, ht, hmax, hr⟩
    rcases lenPrefixUnpack_spec hfour hb maxArrays with ⟨r', t', hsome, -, hr'⟩ | ⟨-, hnone⟩
    · obtain ⟨hpack, -⟩ := h.exact r' hsome
      have hself := (lenPrefixPack_eq_ok_iff.mp hpack).2.trans (List.append_nil _).symm
      exact ht (packed_append_inj hb hr hself).2
    · exact hnone r t hmax hr
  · rintro ⟨hfour, htrailing⟩
    rcases lenPrefixUnpack_spec hfour hb maxArrays with ⟨r, t, hsome, hmax, hr⟩ | ⟨hnone, -⟩
    · refine ⟨⟨_, hsome⟩, fun r' hr' => ?_⟩
      obtain rfl : r = r' := Option.some.inj (Except.ok.inj (hsome.symm.trans hr'))
      have ht : t = [] := by
        by_contra ht
        exact htrailing ⟨r, t, ht, hmax, hr⟩
      rw [ht, List.append_nil] at hr
      exact ⟨lenPrefixPack_eq_ok_iff.mpr ⟨hr ▸ hb, hr⟩, hmax⟩
    · refine ⟨⟨_, hnone⟩, fun r hr => ?_⟩
      rw [hnone] at hr
      cases hr

/-- Packing and unpacking are inverse as long as the size of the packed array is an `int`, there is a count, and nothing is behind the
arrays. -/
theorem lenPrefixes_iff {arrays : List Bytes} {maxArrays : Int} (hmax : arrays.length ≤ maxArrays) {b : Bytes} (hb : b.length < 2 ^ 31)
    (maxArrays' : Int) :
    (RoundTrips arrays maxArrays ↔ (1 + arrays.length) * 4 + arrays.flatten.length < 2 ^ 31) ∧
    (UnpacksExactly b maxArrays' ↔ 4 ≤ b.length ∧ ¬Trailing b maxArrays') := by
  rw [packs_iff hmax, length_packed]
  exact ⟨Iff.rfl, unpacksExactly_iff hb maxArrays'⟩

/-- Two arrays, and a count with nothing behind it. -/
theorem lenPrefixes_iff_two : RoundTrips [[1, 2], []] 2 ∧ UnpacksExactly [0, 0, 0, 1] 0 := by
  have hlength : ([0, 0, 0, 1] : Bytes).length < 2 ^ 31 := by decide
  obtain ⟨hround, hexact⟩ := lenPrefixes_iff (show (([[1, 2], []] : List Bytes).length : Int) ≤ 2 by decide) hlength 0
  refine ⟨hround.mpr (by decide), hexact.mpr ⟨by decide, ?_⟩⟩
  rintro ⟨r, t, ht, hmax, hr⟩
  have hnil : r = [] := List.eq_nil_of_length_eq_zero (by omega)
  rw [hnil] at hr
  have hcount := congrArg (List.take 4) hr
  rw [List.take_left' (show (packed []).length = 4 from rfl)] at hcount
  exact absurd hcount (by decide)

/-- Two bytes, and two bytes behind one array. -/
theorem malformed_arrays_are_unpacked :
    lenPrefixUnpack [0, 0] 2 = .error .bufferUnderflow ∧ ¬UnpacksExactly [0, 0] 2 ∧
    lenPrefixUnpack [0, 0, 0, 1, 0, 0, 0, 1, 9, 8, 7] 2 = .ok (some [[9]]) ∧
    lenPrefixPack [[9]] = .ok [0, 0, 0, 1, 0, 0, 0, 1, 9] ∧ ¬UnpacksExactly [0, 0, 0, 1, 0, 0, 0, 1, 9, 8, 7] 2 := by
  have hshort : lenPrefixUnpack [0, 0] 2 = .error .bufferUnderflow := by decide
  have hsome : lenPrefixUnpack [0, 0, 0, 1, 0, 0, 0, 1, 9, 8, 7] 2 = .ok (some [[9]]) := by decide
  have hpack : lenPrefixPack [[9]] = .ok [0, 0, 0, 1, 0, 0, 0, 1, 9] := by decide
  refine ⟨hshort, fun h => ?_, hsome, hpack, fun h => ?_⟩
  · obtain ⟨output, hrun⟩ := h.returns
    rw [hshort] at hrun
    cases hrun
  · obtain ⟨hexact, -⟩ := h.exact _ hsome
    rw [hpack] at hexact
    cases hexact

end Util

end Java
