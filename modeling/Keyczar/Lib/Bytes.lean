import Mathlib.Data.List.Basic
import Mathlib.Tactic.Linarith

/-!
# Byte strings

Byte strings as lists of bytes, with what every wire format here is made of: exclusive or, 32-bit big-endian numbers (signed
and unsigned), slices whose ends may be negative, and the comparison that looks at every byte. Nothing in this file is about
one format or one program.
-/

/-- A byte string. -/
abbrev Bytes : Type := List UInt8

namespace Bytes

/-! ## Exclusive or -/

/-- Bytewise exclusive or, cut to the shorter operand. -/
def xor (a b : Bytes) : Bytes := List.zipWith (· ^^^ ·) a b

@[simp] theorem length_xor (a b : Bytes) : (xor a b).length = min a.length b.length := by
  simp [xor]

/-- Exclusive or with the same string twice gives the first string back. -/
theorem xor_xor_cancel {a b : Bytes} (h : a.length = b.length) : xor (xor a b) b = a := by
  induction a generalizing b with
  | nil => simp [xor]
  | cons x a ih =>
    cases b with
    | nil => simp at h
    | cons y b =>
      have h' : a.length = b.length := by simpa using h
      have ih' := ih h'
      simp only [xor, List.zipWith_cons_cons] at ih' ⊢
      rw [ih', UInt8.xor_assoc, UInt8.xor_self, UInt8.xor_zero]

/-! ## Big-endian numbers of four bytes -/

/-- The low 32 bits of a number as four bytes, the most significant first. -/
def be32 (n : Nat) : Bytes :=
  [UInt8.ofNat (n / 2 ^ 24), UInt8.ofNat (n / 2 ^ 16), UInt8.ofNat (n / 2 ^ 8), UInt8.ofNat n]

/-- The number that exactly four bytes stand for, the most significant first. -/
def readBe32 : Bytes → Option Nat
  | [a, b, c, d] => some (a.toNat * 2 ^ 24 + b.toNat * 2 ^ 16 + c.toNat * 2 ^ 8 + d.toNat)
  | _ => none

/-- The two's complement reading of the low 32 bits of a number. -/
def int32 (n : Nat) : Int :=
  if n % 2 ^ 32 < 2 ^ 31 then (n % 2 ^ 32 : Nat) else ((n % 2 ^ 32 : Nat) : Int) - 2 ^ 32

@[simp] theorem length_be32 (n : Nat) : (be32 n).length = 4 := rfl

/-- Reading what was written gives the low 32 bits. -/
theorem readBe32_be32 (n : Nat) : readBe32 (be32 n) = some (n % 2 ^ 32) := by
  simp only [be32, readBe32, UInt8.toNat_ofNat', Option.some.injEq]
  omega

/-- Four bytes are what one number is written as. -/
theorem be32_of_readBe32 {s : Bytes} {n : Nat} (h : readBe32 s = some n) : s = be32 n ∧ n < 2 ^ 32 := by
  match s, h with
  | [a, b, c, d], h =>
    simp only [readBe32, Option.some.injEq] at h
    have ha := a.toNat_lt
    have hb := b.toNat_lt
    have hc := c.toNat_lt
    have hd := d.toNat_lt
    refine ⟨?_, by omega⟩
    simp only [be32, List.cons.injEq, and_true]
    refine ⟨?_, ?_, ?_, ?_⟩ <;> apply UInt8.toNat_inj.mp <;> rw [UInt8.toNat_ofNat'] <;> omega

/-- A string reads as a number exactly when it has four bytes. -/
theorem readBe32_isSome_iff (s : Bytes) : (readBe32 s).isSome ↔ s.length = 4 := by
  match s with
  | [] => simp [readBe32]
  | [_] => simp [readBe32]
  | [_, _] => simp [readBe32]
  | [_, _, _] => simp [readBe32]
  | [_, _, _, _] => simp [readBe32]
  | _ :: _ :: _ :: _ :: _ :: _ => simp [readBe32]

/-- Below `2 ^ 31` the signed reading is the number itself. -/
theorem int32_of_lt {n : Nat} (h : n < 2 ^ 31) : int32 n = n := by
  have : n % 2 ^ 32 = n := Nat.mod_eq_of_lt (by omega)
  simp only [int32, this, if_pos h]

theorem int32_lt (n : Nat) : int32 n < 2 ^ 31 := by
  unfold int32
  split <;> omega

/-- Only below `2 ^ 31` is the signed reading not negative. -/
theorem lt_of_int32_nonneg {n : Nat} (hn : n < 2 ^ 32) (h : 0 ≤ int32 n) : n < 2 ^ 31 := by
  unfold int32 at h
  rw [Nat.mod_eq_of_lt hn] at h
  split at h
  · assumption
  · omega

/-! ## Big-endian numbers of eight bytes -/

/-- The low 64 bits of a number as eight bytes, the most significant first. -/
def be64 (n : Nat) : Bytes := be32 (n / 2 ^ 32) ++ be32 n

/-- The number that exactly eight bytes stand for, the most significant first. -/
def readBe64 (s : Bytes) : Option Nat := do
  let high ← readBe32 (s.take 4)
  let low ← readBe32 (s.drop 4)
  return high * 2 ^ 32 + low

/-- Reading what was written gives the low 64 bits. -/
theorem readBe64_be64 (n : Nat) : readBe64 (be64 n) = some (n % 2 ^ 64) := by
  have hread : readBe64 (be64 n) = some (n / 2 ^ 32 % 2 ^ 32 * 2 ^ 32 + n % 2 ^ 32) := by
    simp only [readBe64, be64, List.take_left' (length_be32 _), List.drop_left' (length_be32 _), readBe32_be32]
    rfl
  rw [hread, Option.some.injEq]
  omega

/-! ## Slices with signed ends -/

/-- Where a signed index points in a string of length `n`: a negative one counts from the end, and both are clipped. -/
def index (n : Nat) (i : Int) : Nat :=
  if i < 0 then ((n : Int) + i).toNat else min i.toNat n

/-- The slice `s[lo:hi]`. -/
def slice (s : Bytes) (lo hi : Int) : Bytes :=
  (s.drop (index s.length lo)).take (index s.length hi - index s.length lo)

/-- The slice `s[lo:]`. -/
def sliceFrom (s : Bytes) (lo : Int) : Bytes := s.drop (index s.length lo)

/-- The slice `s[:hi]`. -/
def sliceTo (s : Bytes) (hi : Int) : Bytes := s.take (index s.length hi)

theorem index_of_nonneg (n i : Nat) : index n i = min i n := by
  unfold index
  split <;> omega

theorem index_neg (n i : Nat) (h : 0 < i) : index n (-i) = n - i := by
  unfold index
  split <;> omega

@[simp] theorem sliceTo_nat (s : Bytes) (k : Nat) : sliceTo s k = s.take k := by
  simp only [sliceTo, index_of_nonneg]
  rcases Nat.le_total k s.length with h | h
  · rw [Nat.min_eq_left h]
  · rw [Nat.min_eq_right h, List.take_length, List.take_of_length_le h]

@[simp] theorem sliceFrom_nat (s : Bytes) (k : Nat) : sliceFrom s k = s.drop k := by
  simp only [sliceFrom, index_of_nonneg]
  rcases Nat.le_total k s.length with h | h
  · rw [Nat.min_eq_left h]
  · rw [Nat.min_eq_right h, List.drop_length, List.drop_of_length_le h]

/-- The slice up to a positive distance from the end. -/
theorem sliceTo_neg (s : Bytes) {k : Nat} (h : 0 < k) : sliceTo s (-k) = s.take (s.length - k) := by
  rw [sliceTo, index_neg _ _ h]

/-- The slice from a positive distance from the end. -/
theorem sliceFrom_neg (s : Bytes) {k : Nat} (h : 0 < k) : sliceFrom s (-k) = s.drop (s.length - k) := by
  rw [sliceFrom, index_neg _ _ h]

/-- The slice up to minus zero is empty: the end does not count from the end of the string. -/
theorem sliceTo_zero (s : Bytes) : sliceTo s 0 = [] := by
  simp [sliceTo, index]

/-- A slice between two places in the string, in order. -/
theorem slice_nat (s : Bytes) (i j : Nat) : slice s i j = (s.drop i).take (j - i) := by
  simp only [slice, index_of_nonneg]
  rcases Nat.le_total i s.length with h | h
  · rw [Nat.min_eq_left h]
    rcases Nat.le_total j s.length with h' | h'
    · rw [Nat.min_eq_left h']
    · rw [Nat.min_eq_right h', List.take_of_length_le (by simp), List.take_of_length_le (by simp; omega)]
  · rw [Nat.min_eq_right h, List.drop_of_length_le (Nat.le_refl _), List.drop_of_length_le h]
    simp

/-! ## The comparison that looks at every byte -/

/-- Equality of two strings computed without an early exit: the lengths are compared, then the bytewise differences are
gathered in one byte. -/
def constantTimeEq (a b : Bytes) : Bool :=
  if a.length ≠ b.length then false
  else (List.zip a b).foldl (fun result p => result ||| (p.1 ^^^ p.2)) 0 == 0

theorem UInt8_or_eq_zero (a b : UInt8) : a ||| b = 0 ↔ a = 0 ∧ b = 0 := by
  constructor
  · intro h
    have h' : a.toNat ||| b.toNat = 0 := by rw [← UInt8.toNat_or, h]; rfl
    rw [Nat.or_eq_zero_iff] at h'
    exact ⟨UInt8.toNat_inj.mp h'.1, UInt8.toNat_inj.mp h'.2⟩
  · rintro ⟨rfl, rfl⟩
    rfl

/-- The gathered differences are zero exactly when they were zero before and the strings agree. -/
theorem foldl_diff_eq_zero_iff (a b : Bytes) (h : a.length = b.length) (acc : UInt8) :
    (List.zip a b).foldl (fun result p => result ||| (p.1 ^^^ p.2)) acc = 0 ↔ acc = 0 ∧ a = b := by
  induction a generalizing b acc with
  | nil =>
    cases b with
    | nil => simp
    | cons y b => simp at h
  | cons x a ih =>
    cases b with
    | nil => simp at h
    | cons y b =>
      have h' : a.length = b.length := by simpa using h
      rw [List.zip_cons_cons, List.foldl_cons, ih b h', UInt8_or_eq_zero, UInt8.xor_eq_zero_iff, List.cons.injEq, and_assoc]

/-- The comparison decides equality. -/
@[simp] theorem constantTimeEq_iff (a b : Bytes) : constantTimeEq a b = true ↔ a = b := by
  unfold constantTimeEq
  split
  · rename_i h
    constructor
    · intro h'; cases h'
    · rintro rfl; exact absurd rfl h
  · rename_i h
    have h' : a.length = b.length := by simpa using h
    rw [beq_iff_eq, foldl_diff_eq_zero_iff a b h']
    simp

/-! ## Splitting a concatenation -/

/-! ## Overwriting a part -/

/-- The string with the bytes from a place on replaced. -/
def overwrite (s : Bytes) (at' : Nat) (w : Bytes) : Bytes := s.take at' ++ w ++ s.drop (at' + w.length)

@[simp] theorem overwrite_nil (s : Bytes) (n : Nat) : overwrite s n [] = s := by
  simp [overwrite]

theorem length_overwrite {s w : Bytes} {n : Nat} (h : n + w.length ≤ s.length) : (overwrite s n w).length = s.length := by
  simp only [overwrite, List.length_append, List.length_take, List.length_drop]
  omega

theorem take_overwrite {s w : Bytes} {n m : Nat} (h : n + w.length ≤ s.length) (hm : m ≤ n) :
    (overwrite s n w).take m = s.take m := by
  have hl : (s.take n).length = n := by rw [List.length_take]; omega
  rw [overwrite, List.append_assoc, List.take_append_of_le_length (by omega), List.take_take, Nat.min_eq_left hm]

theorem drop_overwrite {s w : Bytes} {n : Nat} (h : n + w.length ≤ s.length) :
    (overwrite s n w).drop (n + w.length) = s.drop (n + w.length) := by
  rw [overwrite, List.drop_left' (by rw [List.length_append, List.length_take]; omega)]

/-- Everything up to the end of what was written. -/
theorem take_overwrite_end {s w : Bytes} {n : Nat} (h : n + w.length ≤ s.length) :
    (overwrite s n w).take (n + w.length) = s.take n ++ w := by
  rw [overwrite, List.take_left' (by rw [List.length_append, List.length_take]; omega)]

/-- Everything is overwritten from a position on. -/
theorem overwrite_to_end {s w : Bytes} {n : Nat} (h : n + w.length = s.length) : overwrite s n w = s.take n ++ w := by
  rw [overwrite, h, List.drop_length, List.append_nil]

/-- Zeros are overwritten by zeros. -/
theorem overwrite_same {s w : Bytes} {n : Nat} (h : (s.drop n).take w.length = w) : overwrite s n w = s := by
  have hrest : w ++ s.drop (n + w.length) = s.drop n := by
    calc w ++ s.drop (n + w.length) = (s.drop n).take w.length ++ (s.drop n).drop w.length := by rw [h, List.drop_drop]
      _ = s.drop n := List.take_append_drop _ _
  rw [overwrite, List.append_assoc, hrest, List.take_append_drop]

/-- What was written can be told from the result. -/
theorem overwrite_inj {s v w : Bytes} {n : Nat} (hlen : v.length = w.length) (h : overwrite s n v = overwrite s n w) : v = w := by
  rw [overwrite, overwrite, hlen] at h
  exact List.append_cancel_left (List.append_cancel_right h)

/-- Writing twice in a row is writing the concatenation. -/
theorem overwrite_overwrite {s v w : Bytes} {n : Nat} (h : n + v.length ≤ s.length) :
    overwrite (overwrite s n v) (n + v.length) w = overwrite s n (v ++ w) := by
  have hd : (overwrite s n v).drop (n + v.length + w.length) = s.drop (n + v.length + w.length) := by
    rw [← List.drop_drop, drop_overwrite h, List.drop_drop]
  rw [overwrite, take_overwrite_end h, hd, overwrite, List.length_append, ← Nat.add_assoc]
  simp only [List.append_assoc]

end Bytes
