import Keyczar.Lib.Bytes

/-!
# Base 64 without padding

Three bytes are four characters; one or two bytes at the end are two or three. The alphabet is a parameter.
-/

namespace Base64

open Bytes

/-- Sixty-four characters, with the way back from a character to its value. -/
structure Alphabet where
  toChar : Nat → UInt8
  ofChar : UInt8 → Option Nat
  ofChar_toChar : ∀ i < 64, ofChar (toChar i) = some i

/-- The characters of the values below 62: capitals, small letters, digits. -/
def alphanumeric (i : Nat) : UInt8 :=
  if i < 26 then UInt8.ofNat (65 + i) else if i < 52 then UInt8.ofNat (71 + i) else UInt8.ofNat (i - 4)

/-- The web-safe alphabet: `-` and `_` are the last two characters. -/
def webSafe : Alphabet where
  toChar i := if i < 62 then alphanumeric i else if i = 62 then 45 else 95
  ofChar c :=
    if 65 ≤ c ∧ c ≤ 90 then some (c.toNat - 65)
    else if 97 ≤ c ∧ c ≤ 122 then some (c.toNat - 71)
    else if 48 ≤ c ∧ c ≤ 57 then some (c.toNat + 4)
    else if c = 45 then some 62
    else if c = 95 then some 63
    else none
  ofChar_toChar := by decide

variable (α : Alphabet)

/-- The characters of a byte string. -/
def encode : Bytes → Bytes
  | a :: b :: c :: rest =>
    α.toChar (a.toNat / 4) :: α.toChar (a.toNat % 4 * 16 + b.toNat / 16) :: α.toChar (b.toNat % 16 * 4 + c.toNat / 64) ::
      α.toChar (c.toNat % 64) :: encode rest
  | [a, b] => [α.toChar (a.toNat / 4), α.toChar (a.toNat % 4 * 16 + b.toNat / 16), α.toChar (b.toNat % 16 * 4)]
  | [a] => [α.toChar (a.toNat / 4), α.toChar (a.toNat % 4 * 16)]
  | [] => []

/-- The bytes that a list of six-bit values stands for; left-over bits are dropped, and a single value is refused. -/
def ofSextets : List Nat → Option Bytes
  | i :: j :: k :: l :: rest =>
    (ofSextets rest).map fun tail =>
      UInt8.ofNat (i * 4 + j / 16) :: UInt8.ofNat (j % 16 * 16 + k / 4) :: UInt8.ofNat (k % 4 * 64 + l) :: tail
  | [i, j, k] => some [UInt8.ofNat (i * 4 + j / 16), UInt8.ofNat (j % 16 * 16 + k / 4)]
  | [i, j] => some [UInt8.ofNat (i * 4 + j / 16)]
  | [_] => none
  | [] => some []

/-- The byte string that characters stand for; `none` when one is not in the alphabet, or when their number is one more than
a multiple of four. -/
def decode (s : Bytes) : Option Bytes := (s.mapM α.ofChar).bind ofSextets

/-- The six-bit values of a byte string. -/
def sextets : Bytes → List Nat
  | a :: b :: c :: rest =>
    (a.toNat / 4) :: (a.toNat % 4 * 16 + b.toNat / 16) :: (b.toNat % 16 * 4 + c.toNat / 64) :: (c.toNat % 64) ::
      sextets rest
  | [a, b] => [a.toNat / 4, a.toNat % 4 * 16 + b.toNat / 16, b.toNat % 16 * 4]
  | [a] => [a.toNat / 4, a.toNat % 4 * 16]
  | [] => []

theorem encode_eq_map (s : Bytes) : encode α s = (sextets s).map α.toChar := by
  induction s using encode.induct with
  | case1 a b c rest ih => simp [encode, sextets, ih]
  | case2 a b => simp [encode, sextets]
  | case3 a => simp [encode, sextets]
  | case4 => simp [encode, sextets]

theorem sextets_lt (s : Bytes) : ∀ i ∈ sextets s, i < 64 := by
  induction s using encode.induct with
  | case1 a b c rest ih =>
    have ha := a.toNat_lt
    have hb := b.toNat_lt
    have hc := c.toNat_lt
    intro i hi
    simp only [sextets, List.mem_cons] at hi
    rcases hi with rfl | rfl | rfl | rfl | hi
    · omega
    · omega
    · omega
    · omega
    · exact ih i hi
  | case2 a b =>
    have ha := a.toNat_lt
    have hb := b.toNat_lt
    intro i hi
    simp only [sextets, List.mem_cons, List.not_mem_nil, or_false] at hi
    omega
  | case3 a =>
    have ha := a.toNat_lt
    intro i hi
    simp only [sextets, List.mem_cons, List.not_mem_nil, or_false] at hi
    omega
  | case4 => simp [sextets]

/-- A byte from the number of its bits and of those above. -/
theorem ofNat_eq {b : UInt8} {m : Nat} (h : m % 256 = b.toNat) : UInt8.ofNat m = b := by
  apply UInt8.toNat_inj.mp
  rw [UInt8.toNat_ofNat']
  exact h

theorem ofSextets_sextets (s : Bytes) : ofSextets (sextets s) = some s := by
  induction s using encode.induct with
  | case1 a b c rest ih =>
    have ha := a.toNat_lt
    have hb := b.toNat_lt
    have hc := c.toNat_lt
    simp only [sextets, ofSextets, ih, Option.map_some, Option.some.injEq, List.cons.injEq, and_true]
    refine ⟨ofNat_eq ?_, ofNat_eq ?_, ofNat_eq ?_⟩ <;> omega
  | case2 a b =>
    have ha := a.toNat_lt
    have hb := b.toNat_lt
    simp only [sextets, ofSextets, Option.some.injEq, List.cons.injEq, and_true]
    refine ⟨ofNat_eq ?_, ofNat_eq ?_⟩ <;> omega
  | case3 a =>
    have ha := a.toNat_lt
    simp only [sextets, ofSextets, Option.some.injEq, List.cons.injEq, and_true]
    exact ofNat_eq (by omega)
  | case4 => simp [sextets, ofSextets]

theorem mapM_ofChar_map {l : List Nat} (h : ∀ i ∈ l, i < 64) : (l.map α.toChar).mapM α.ofChar = some l := by
  induction l with
  | nil => rfl
  | cons i l ih =>
    rw [List.map_cons, List.mapM_cons, α.ofChar_toChar i (h i (by simp)), ih fun j hj => h j (List.mem_cons_of_mem i hj)]
    rfl

/-- Decoding undoes encoding. -/
theorem decode_encode (s : Bytes) : decode α (encode α s) = some s := by
  rw [decode, encode_eq_map, mapM_ofChar_map α (sextets_lt s)]
  exact ofSextets_sextets s

/-- What is encoded consists of characters of the alphabet. -/
theorem exists_of_mem_encode {s : Bytes} {c : UInt8} (h : c ∈ encode α s) : ∃ i < 64, α.toChar i = c := by
  rw [encode_eq_map] at h
  obtain ⟨i, hi, rfl⟩ := List.mem_map.mp h
  exact ⟨i, sextets_lt s i hi, rfl⟩

/-- The number of characters. -/
theorem length_encode (s : Bytes) : (encode α s).length = (s.length * 4 + 2) / 3 := by
  induction s using encode.induct with
  | case1 a b c rest ih =>
    simp only [encode, List.length_cons, ih]
    omega
  | case2 a b => simp [encode]
  | case3 a => simp [encode]
  | case4 => simp [encode]

/-- The number of characters is never one more than a multiple of four. -/
theorem length_encode_mod (s : Bytes) : (encode α s).length % 4 ≠ 1 := by
  induction s using encode.induct with
  | case1 a b c rest ih =>
    simp only [encode, List.length_cons]
    omega
  | case2 a b => simp [encode]
  | case3 a => simp [encode]
  | case4 => simp [encode]

/-- Behind whole groups of three bytes encoding starts again. -/
theorem encode_append {s : Bytes} (h : s.length % 3 = 0) (t : Bytes) : encode α (s ++ t) = encode α s ++ encode α t := by
  induction s using encode.induct with
  | case1 a b c rest ih =>
    simp only [List.length_cons] at h
    simp only [List.cons_append, encode, ih (by omega)]
  | case2 a b => simp at h
  | case3 a => simp at h
  | case4 => rfl

/-- Different strings are encoded differently. -/
theorem encode_injective : Function.Injective (encode α) := by
  intro s t h
  have h' := congrArg (decode α) h
  rw [decode_encode, decode_encode] at h'
  exact Option.some.inj h'

end Base64
