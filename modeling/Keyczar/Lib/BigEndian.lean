import Keyczar.Lib.Bytes
import Mathlib.Data.Nat.Digits.Lemmas

/-!
# Numbers as big-endian byte strings

The bytes of a number, the number that bytes stand for, and what zeros in front of the bytes change: nothing for the number. Bytes
without zeros in front and numbers correspond to each other.
-/

namespace BigEndian

/-- The number that a byte string stands for, the most significant byte first. -/
def ofBytes : Bytes → Nat
  | [] => 0
  | b :: s => b.toNat * 256 ^ s.length + ofBytes s

/-- The bytes of a number, the most significant first and not zero; there are none for zero. -/
def toBytes (n : Nat) : Bytes := ((Nat.digits 256 n).map UInt8.ofNat).reverse

/-- A byte string without the zeros in front. -/
def strip (s : Bytes) : Bytes := s.dropWhile (· = 0)

theorem ofBytes_eq_ofDigits (s : Bytes) : ofBytes s = Nat.ofDigits 256 (s.reverse.map UInt8.toNat) := by
  induction s with
  | nil => rfl
  | cons b s ih =>
    rw [ofBytes, ih, List.reverse_cons, List.map_append, Nat.ofDigits_append, List.length_map, List.length_reverse,
      List.map_singleton, Nat.ofDigits_singleton, Nat.add_comm, Nat.mul_comm]

theorem map_toNat_ofNat {l : List Nat} (h : ∀ d ∈ l, d < 256) : (l.map UInt8.ofNat).map UInt8.toNat = l := by
  rw [List.map_map]
  conv_rhs => rw [← List.map_id l]
  refine List.map_congr_left fun d hd => ?_
  show (UInt8.ofNat d).toNat = d
  rw [UInt8.toNat_ofNat', Nat.mod_eq_of_lt (h d hd)]

/-- The bytes of a number stand for it. -/
@[simp] theorem ofBytes_toBytes (n : Nat) : ofBytes (toBytes n) = n := by
  rw [ofBytes_eq_ofDigits, toBytes, List.reverse_reverse,
    map_toNat_ofNat fun d hd => Nat.digits_lt_base (by decide) hd, Nat.ofDigits_digits]

theorem length_toBytes_le {n k : Nat} (h : n < 256 ^ k) : (toBytes n).length ≤ k := by
  rw [toBytes, List.length_reverse, List.length_map]
  exact (Nat.digits_length_le_iff (by decide) n).mpr h

@[simp] theorem strip_zero_cons (s : Bytes) : strip (0 :: s) = strip s := by
  simp [strip]

theorem strip_of_head_ne {b : UInt8} {s : Bytes} (h : b ≠ 0) : strip (b :: s) = b :: s := by
  simp [strip, h]

/-- Zeros in front do not count. -/
@[simp] theorem strip_zeros_append (k : Nat) (s : Bytes) : strip (List.replicate k 0 ++ s) = strip s := by
  induction k with
  | zero => rfl
  | succ k ih => rw [List.replicate_succ, List.cons_append, strip_zero_cons, ih]

/-- What is cut off in front is zeros. -/
theorem eq_zeros_append_strip (s : Bytes) : ∃ k, s = List.replicate k 0 ++ strip s := by
  induction s with
  | nil => exact ⟨0, rfl⟩
  | cons b s ih =>
    by_cases hb : b = 0
    · obtain ⟨k, hk⟩ := ih
      refine ⟨k + 1, ?_⟩
      rw [hb, strip_zero_cons, List.replicate_succ, List.cons_append, ← hk]
    · exact ⟨0, (strip_of_head_ne hb).symm⟩

theorem strip_eq_nil_iff (s : Bytes) : strip s = [] ↔ ∀ b ∈ s, b = 0 := by
  induction s with
  | nil => simp [strip]
  | cons b s ih =>
    by_cases hb : b = 0
    · simp [hb, ih]
    · simp [strip_of_head_ne hb, hb]

@[simp] theorem strip_strip (s : Bytes) : strip (strip s) = strip s := by
  obtain ⟨k, hk⟩ := eq_zeros_append_strip s
  conv_rhs => rw [hk, strip_zeros_append]

@[simp] theorem ofBytes_zero_cons (s : Bytes) : ofBytes (0 :: s) = ofBytes s := by
  simp [ofBytes]

@[simp] theorem ofBytes_zeros_append (k : Nat) (s : Bytes) : ofBytes (List.replicate k 0 ++ s) = ofBytes s := by
  induction k with
  | zero => rfl
  | succ k ih => rw [List.replicate_succ, List.cons_append, ofBytes_zero_cons, ih]

@[simp] theorem ofBytes_strip (s : Bytes) : ofBytes (strip s) = ofBytes s := by
  obtain ⟨k, hk⟩ := eq_zeros_append_strip s
  conv_rhs => rw [hk, ofBytes_zeros_append]

/-- The first byte of a string without zeros in front is not zero. -/
theorem ne_zero_of_strip_cons {s t : Bytes} {b : UInt8} (h : strip s = b :: t) : b ≠ 0 := by
  have hself := strip_strip s
  rw [h] at hself
  rintro rfl
  rw [strip_zero_cons] at hself
  obtain ⟨k, hk⟩ := eq_zeros_append_strip t
  have hlength := congrArg List.length hk
  rw [hself, List.length_append, List.length_cons] at hlength
  omega

/-- The bytes of the number that a string stands for are the string without the zeros in front. -/
@[simp] theorem toBytes_ofBytes (s : Bytes) : toBytes (ofBytes s) = strip s := by
  rw [← ofBytes_strip, ofBytes_eq_ofDigits, toBytes, Nat.digits_ofDigits 256 (by decide)]
  · rw [List.map_map]
    have hid : UInt8.ofNat ∘ UInt8.toNat = id := by
      funext b
      simp
    rw [hid, List.map_id, List.reverse_reverse]
  · intro d hd
    obtain ⟨b, -, rfl⟩ := List.mem_map.mp hd
    exact b.toNat_lt
  · rcases hs : strip s with - | ⟨b, t⟩
    · exact fun hne => absurd rfl hne
    · have hb := ne_zero_of_strip_cons hs
      simp only [List.reverse_cons, List.map_append, List.map_singleton, List.getLast_append_singleton]
      exact fun _ h => hb (UInt8.toNat_inj.mp h)

end BigEndian
