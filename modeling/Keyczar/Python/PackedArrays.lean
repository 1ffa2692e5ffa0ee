import Keyczar.Python.SessionRuns
import Keyczar.Lib.Frames

/-!
# Packing and unpacking as inverses

What is packed is unpacked again. The other way round only the last position is asserted: where every length field on the way moves
forward, that is enough for the data to be the packed arrays; a length that is negative can come to the end with arrays that overlap.
-/

namespace Python

open Bytes Frames

/-! ## Packing -/

/-- An array is packed as a frame, where all lengths fit. -/
theorem mapM_packByteArray_eq_ok_iff {arrays : List Bytes} {contents : List Bytes} :
    (arrays.map some).mapM packByteArray = .ok contents ↔
      (∀ array ∈ arrays, array.length < 2 ^ 31) ∧ contents = arrays.map fun array => be32 array.length ++ array := by
  constructor
  · intro h
    suffices hall : ∀ array ∈ arrays, array.length < 2 ^ 31 by
      rw [mapM_packByteArray hall] at h
      exact ⟨hall, (Except.ok.inj h).symm⟩
    induction arrays generalizing contents with
    | nil => exact fun array harray => absurd harray List.not_mem_nil
    | cons array arrays ih =>
      rw [List.map_cons, List.mapM_cons] at h
      obtain ⟨packed, hpacked, hrest⟩ := Throwing.ok_of_bind h
      obtain ⟨rest, hrest, -⟩ := Throwing.ok_of_bind hrest
      exact List.forall_mem_cons.mpr ⟨(packByteArray_some_eq_ok_iff.mp hpacked).1, ih hrest⟩
  · rintro ⟨hall, rfl⟩
    exact mapM_packByteArray hall

theorem packMultipleByteArrays_eq_ok_iff {arrays : List Bytes} {packed : Bytes} :
    packMultipleByteArrays (arrays.map some) = .ok packed ↔
      arrays.length < 2 ^ 31 ∧ (∀ array ∈ arrays, array.length < 2 ^ 31) ∧ packed = be32 arrays.length ++ frames arrays := by
  constructor
  · intro h
    obtain ⟨header, hheader, hrest⟩ := Throwing.ok_of_bind h
    obtain ⟨contents, hcontents, -⟩ := Throwing.ok_of_bind hrest
    rw [List.length_map, packInt] at hheader
    split at hheader
    · rename_i hcount
      obtain ⟨hall, -⟩ := mapM_packByteArray_eq_ok_iff.mp hcontents
      rw [packMultipleByteArrays_eq hcount hall, List.flatMap_def] at h
      exact ⟨hcount, hall, (Except.ok.inj h).symm⟩
    · cases hheader
  · rintro ⟨hcount, hall, rfl⟩
    rw [packMultipleByteArrays_eq hcount hall, List.flatMap_def]
    rfl

/-! ## A turn of a loop that returns -/

theorem unpackLoop_succ_eq_ok {data : Bytes} {fuel : Nat} {position : Int} {result arrays : List Bytes}
    (h : unpackLoop data (fuel + 1) position result = some (.ok arrays)) :
    (position = data.length ∧ nextOffset data position = none ∧ arrays = result) ∨
    ∃ next, nextOffset data position = some next ∧
      unpackLoop data fuel next (result ++ [slice data (position + 4) next]) = some (.ok arrays) := by
  simp only [unpackLoop] at h
  split at h
  · rename_i hlt
    right
    simp only [nextOffset, hlt, if_true]
    simp only [unpackByteArray, unpackInt] at h
    cases hr : readBe32 (slice data position (position + 4)) with
    | none =>
      rw [hr] at h
      cases h
    | some n =>
      rw [hr] at h
      exact ⟨_, rfl, h⟩
  · split at h
    · rename_i hnot hend
      cases h
      exact Or.inl ⟨hend, if_neg hnot, rfl⟩
    · cases h

/-- A loop that returns is not behind the end. -/
theorem le_length_of_unpackLoop {data : Bytes} {fuel : Nat} {position : Int} {result arrays : List Bytes}
    (h : unpackLoop data fuel position result = some (.ok arrays)) : position ≤ data.length := by
  cases fuel with
  | zero => cases h
  | succ fuel =>
    rcases unpackLoop_succ_eq_ok h with ⟨rfl, -, -⟩ | ⟨next, hnext, -⟩
    · exact Int.le_refl _
    · exact Int.le_of_lt (Finset.mem_Ico.mp (mem_Ico_of_nextOffset hnext)).2

/-- The loop is at one offset more than it unpacks arrays. -/
theorem length_places_of_unpackLoop {data : Bytes} {fuel : Nat} {position : Int} {result arrays : List Bytes}
    (h : unpackLoop data fuel position result = some (.ok arrays)) :
    result.length + (Walk.places (nextOffset data) fuel position).length = arrays.length + 1 := by
  induction fuel generalizing position result with
  | zero => cases h
  | succ fuel ih =>
    rcases unpackLoop_succ_eq_ok h with ⟨-, hnone, rfl⟩ | ⟨next, hnext, hrest⟩
    · simp only [Walk.places, hnone, List.length_cons, List.length_nil]
    · have hlength := ih hrest
      rw [List.length_append, List.length_cons, List.length_nil] at hlength
      simp only [Walk.places, hnext, List.length_cons]
      omega

/-- The offsets that a loop that returns has been at. -/
theorem places_eq_fieldOffsets {data : Bytes} {fuel : Nat} {arrays : List Bytes}
    (h : unpackMultipleByteArrays data fuel = some (.ok arrays)) : Walk.places (nextOffset data) fuel 4 = fieldOffsets data := by
  have hhalted : Walk.after (nextOffset data) fuel 4 = none := by
    by_contra hne
    rw [unpackMultipleByteArrays, (unpackLoop_eq_none_iff data fuel 4 []).mpr hne] at h
    cases h
  refine Walk.places_eq_of_halted hhalted ?_
  exact Walk.after_eq_none_of_nodup (Finset.Ico (-(data.length : Int)) data.length) (fun _ _ hnext => mem_Ico_of_nextOffset hnext)
    (by rw [card_offsets]; exact Nat.lt_succ_self _) (Walk.nodup_places_of_halts ⟨fuel, hhalted⟩ _)

/-! ## Length fields that move forward -/

/-- No length field that is followed from offset 4 is negative. -/
def FieldsForward (data : Bytes) : Prop := ∀ offset ∈ fieldOffsets data, ∀ next, nextOffset data offset = some next → offset + 4 ≤ next

instance (data : Bytes) : Decidable (FieldsForward data) :=
  inferInstanceAs (Decidable (∀ offset ∈ fieldOffsets data, ∀ next ∈ nextOffset data offset, offset + 4 ≤ next))

/-- The length field of a frame leads to its end. -/
theorem nextOffset_append {front array : Bytes} (rest : Bytes) (h : array.length < 2 ^ 31) :
    nextOffset (front ++ (be32 array.length ++ (array ++ rest))) front.length = some (front.length + 4 + array.length : Nat) := by
  have hlt : (front.length : Int) < (front ++ (be32 array.length ++ (array ++ rest))).length := by
    simp only [List.length_append, length_be32]
    omega
  have hstart : (front.length : Int) + 4 = (front.length + 4 : Nat) := by push_cast; rfl
  rw [nextOffset, if_pos hlt, hstart, slice_nat, List.drop_left' rfl, Nat.add_sub_cancel_left, List.take_left' (length_be32 _),
    readBe32_be32, Nat.mod_eq_of_lt (by omega), Option.map_some, int32_of_lt h]
  push_cast
  rfl

/-- A field that moves forward, and not behind the end, is the length of what follows it. -/
theorem frame_of_nextOffset {front rest : Bytes} {next : Int} (hnext : nextOffset (front ++ rest) front.length = some next)
    (hforward : (front.length : Int) + 4 ≤ next) (hend : next ≤ (front ++ rest).length) :
    ∃ array rest', rest = be32 array.length ++ (array ++ rest') ∧ array.length < 2 ^ 31 ∧
      next = ((front ++ (be32 array.length ++ array)).length : Nat) ∧ slice (front ++ rest) (front.length + 4) next = array := by
  have hstart : (front.length : Int) + 4 = (front.length + 4 : Nat) := by push_cast; rfl
  unfold nextOffset at hnext
  split at hnext
  · rw [hstart, slice_nat, List.drop_left' rfl, Nat.add_sub_cancel_left] at hnext
    obtain ⟨n, hn, rfl⟩ := Option.map_eq_some_iff.mp hnext
    obtain ⟨hfield, hlt⟩ := be32_of_readBe32 hn
    have hsmall : n < 2 ^ 31 := lt_of_int32_nonneg hlt (by omega)
    rw [int32_of_lt hsmall] at hend ⊢
    have hlength : 4 + n ≤ rest.length := by
      rw [List.length_append] at hend
      omega
    have harray : ((rest.drop 4).take n).length = n := by
      rw [List.length_take, List.length_drop]
      omega
    have hstep : ((front.length + 4 : Nat) : Int) + n = (front.length + 4 + n : Nat) := (Nat.cast_add _ _).symm
    refine ⟨(rest.drop 4).take n, (rest.drop 4).drop n, ?_, ?_, ?_, ?_⟩
    · rw [harray, ← hfield, List.take_append_drop, List.take_append_drop]
    · rw [harray]
      exact hsmall
    · rw [harray, List.length_append, List.length_append, length_be32, harray, hstep, Nat.add_assoc]
    · rw [hstart, hstep, slice_nat, List.drop_length_add_append, Nat.add_sub_cancel_left]
  · cases hnext

/-- The frames in front of which a walk is, whose every step is forward and which comes to the end. -/
theorem frames_of_unpackLoop {data : Bytes} {fuel : Nat} {position : Int} {result arrays : List Bytes}
    (h : unpackLoop data fuel position result = some (.ok arrays))
    (hforward : ∀ offset ∈ Walk.places (nextOffset data) fuel position, ∀ next, nextOffset data offset = some next → offset + 4 ≤ next)
    {front rest : Bytes} (hdata : data = front ++ rest) (hposition : position = front.length) :
    ∃ unpacked, arrays = result ++ unpacked ∧ (∀ array ∈ unpacked, array.length < 2 ^ 31) ∧ rest = frames unpacked := by
  induction fuel generalizing position result front rest with
  | zero => cases h
  | succ fuel ih =>
    subst hdata hposition
    rcases unpackLoop_succ_eq_ok h with ⟨hend, -, rfl⟩ | ⟨next, hnext, hloop⟩
    · refine ⟨[], (List.append_nil _).symm, fun array harray => absurd harray List.not_mem_nil, ?_⟩
      rw [List.length_append] at hend
      exact List.eq_nil_of_length_eq_zero (by omega)
    · simp only [Walk.places, hnext, List.mem_cons, forall_eq_or_imp] at hforward
      obtain ⟨array, rest', rfl, hlt, hstep, hslice⟩ :=
        frame_of_nextOffset hnext (hforward.1 next rfl) (le_length_of_unpackLoop hloop)
      have hsplit : front ++ (be32 array.length ++ (array ++ rest')) = (front ++ (be32 array.length ++ array)) ++ rest' := by
        simp only [List.append_assoc]
      obtain ⟨unpacked, rfl, hall, rfl⟩ := ih hloop hforward.2 hsplit hstep
      refine ⟨array :: unpacked, ?_, List.forall_mem_cons.mpr ⟨hlt, hall⟩, (frames_cons array unpacked).symm⟩
      rw [hslice, List.append_assoc]
      rfl

/-- Along frames every step is forward. -/
theorem forward_of_frames {arrays : List Bytes} (harrays : ∀ array ∈ arrays, array.length < 2 ^ 31) {data front : Bytes}
    (hdata : data = front ++ frames arrays) (n : Nat) :
    ∀ offset ∈ Walk.places (nextOffset data) n front.length, ∀ next, nextOffset data offset = some next → offset + 4 ≤ next := by
  induction n generalizing arrays front with
  | zero => exact fun offset hoffset => absurd hoffset List.not_mem_nil
  | succ n ih =>
    cases arrays with
    | nil =>
      have hnone : nextOffset data front.length = none := by
        rw [hdata, frames_nil, List.append_nil]
        exact if_neg (Int.lt_irrefl _)
      intro offset hoffset next hnext
      simp only [Walk.places, hnone, List.mem_singleton] at hoffset
      rw [hoffset, hnone] at hnext
      cases hnext
    | cons array arrays =>
      obtain ⟨hlt, hall⟩ := List.forall_mem_cons.mp harrays
      have hnext : nextOffset data front.length = some ((front ++ (be32 array.length ++ array)).length : Nat) := by
        rw [hdata, frames_cons, nextOffset_append _ hlt, List.length_append, List.length_append, length_be32, Nat.add_assoc]
      simp only [Walk.places, hnext, List.mem_cons, forall_eq_or_imp]
      have hsplit : data = (front ++ (be32 array.length ++ array)) ++ frames arrays := by
        rw [hdata, frames_cons]
        simp only [List.append_assoc]
      refine ⟨fun next h => ?_, ih hall hsplit⟩
      cases h
      simp only [List.length_append, length_be32]
      omega

/-! ## The two directions -/

/-- Apart from its first four bytes, the data is what packing the arrays gives. -/
def PacksTo (arrays : List Bytes) (data : Bytes) : Prop :=
  ∃ packed, packMultipleByteArrays (arrays.map some) = .ok packed ∧ packed.length = data.length ∧ packed.drop 4 = data.drop 4

theorem packsTo_iff {arrays : List Bytes} {data : Bytes} :
    PacksTo arrays data ↔ arrays.length < 2 ^ 31 ∧ (∀ array ∈ arrays, array.length < 2 ^ 31) ∧ 4 ≤ data.length ∧
      data.drop 4 = frames arrays := by
  constructor
  · rintro ⟨packed, hpack, hlength, hdrop⟩
    obtain ⟨hcount, hall, rfl⟩ := packMultipleByteArrays_eq_ok_iff.mp hpack
    rw [List.drop_left' (length_be32 _)] at hdrop
    rw [List.length_append, length_be32] at hlength
    exact ⟨hcount, hall, by omega, hdrop.symm⟩
  · rintro ⟨hcount, hall, hlength, hdrop⟩
    refine ⟨_, packMultipleByteArrays_eq_ok_iff.mpr ⟨hcount, hall, rfl⟩, ?_, ?_⟩
    · have hrest := congrArg List.length hdrop
      rw [List.length_drop] at hrest
      rw [List.length_append, length_be32]
      omega
    · rw [List.drop_left' (length_be32 _), hdrop]

/-- What unpacking returns packs to the data, exactly when no length field on the way is negative (and the count fits). -/
theorem packsTo_iff_forward {data : Bytes} {fuel : Nat} {arrays : List Bytes}
    (h : unpackMultipleByteArrays data fuel = some (.ok arrays)) :
    PacksTo arrays data ↔ FieldsForward data ∧ (fieldOffsets data).length ≤ 2 ^ 31 := by
  have hplaces := places_eq_fieldOffsets h
  have hcount := length_places_of_unpackLoop h
  rw [hplaces, List.length_nil] at hcount
  have hlength : 4 ≤ data.length := by
    have hle := le_length_of_unpackLoop h
    omega
  have htake : (data.take 4).length = 4 := List.length_take_of_le hlength
  have hsplit : data = data.take 4 ++ data.drop 4 := (List.take_append_drop 4 data).symm
  rw [packsTo_iff, FieldsForward, ← hplaces]
  constructor
  · rintro ⟨hfits, hall, -, hdrop⟩
    rw [hdrop] at hsplit
    have hforward := forward_of_frames hall hsplit fuel
    rw [htake] at hforward
    exact ⟨hforward, by rw [hplaces]; omega⟩
  · rintro ⟨hforward, hfits⟩
    rw [hplaces] at hfits
    obtain ⟨unpacked, hunpacked, hall, hdrop⟩ := frames_of_unpackLoop h hforward hsplit (by rw [htake]; rfl)
    rw [List.nil_append] at hunpacked
    subst hunpacked
    exact ⟨by omega, hall, hlength, hdrop⟩

/-- Packing and unpacking. Arrays are packed and unpacked again exactly when their lengths and their number fit, and what is unpacked packs
to the data exactly when no length field on the way is negative and the number fits. -/
theorem packed_arrays_iff (arrays : List Bytes) {data : Bytes} {fuel : Nat} {unpacked : List Bytes}
    (h : unpackMultipleByteArrays data fuel = some (.ok unpacked)) :
    ((∃ packed, packMultipleByteArrays (arrays.map some) = .ok packed ∧
        ∃ fuel, unpackMultipleByteArrays packed fuel = some (.ok arrays)) ↔
      arrays.length < 2 ^ 31 ∧ ∀ array ∈ arrays, array.length < 2 ^ 31) ∧
    (PacksTo unpacked data ↔ FieldsForward data ∧ (fieldOffsets data).length ≤ 2 ^ 31) := by
  refine ⟨⟨?_, ?_⟩, packsTo_iff_forward h⟩
  · rintro ⟨packed, hpack, -⟩
    obtain ⟨hcount, hall, -⟩ := packMultipleByteArrays_eq_ok_iff.mp hpack
    exact ⟨hcount, hall⟩
  · rintro ⟨hcount, hall⟩
    refine ⟨_, packMultipleByteArrays_eq hcount hall, arrays.length + 1, ?_⟩
    exact unpackMultipleByteArrays_pack hall (Nat.lt_succ_self _)

/-- An array and an empty one, with another count in front. -/
theorem packed_arrays_iff_two :
    (∃ packed, packMultipleByteArrays [some [7]] = .ok packed ∧ ∃ fuel, unpackMultipleByteArrays packed fuel = some (.ok [[7]])) ∧
    PacksTo [[7], []] (be32 9 ++ be32 1 ++ [7] ++ be32 0) := by
  have h : unpackMultipleByteArrays (be32 9 ++ be32 1 ++ [7] ++ be32 0) 3 = some (.ok [[7], []]) := by decide
  obtain ⟨hpack, hunpack⟩ := packed_arrays_iff [[7]] h
  exact ⟨hpack.mpr (by decide), hunpack.mpr (by decide)⟩

/-- The length minus eight at offset 4 leads to offset 0, where the count is taken for a length that leads to the end: what is unpacked,
an empty array and the field itself, is packed in twice the bytes. -/
theorem overlapping_arrays_are_unpacked :
    unpackMultipleByteArrays (be32 4 ++ be32 0xfffffff8) 3 = some (.ok [[], be32 0xfffffff8]) ∧
    ¬ PacksTo [[], be32 0xfffffff8] (be32 4 ++ be32 0xfffffff8) := by
  refine ⟨by decide, ?_⟩
  intro h
  have hlength := congrArg List.length (packsTo_iff.mp h).2.2.2
  simp at hlength

end Python
