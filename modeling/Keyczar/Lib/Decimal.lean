import Keyczar.Lib.Bytes
import Mathlib.Data.Nat.Digits.Lemmas

/-!
# Decimal numbers

A number as its digits in ASCII, the most significant first and without zeros in front, and the number that digits stand for. An integer
has a minus sign in front when it is negative.
-/

namespace Decimal

/-- The digit of a number below ten. -/
def digit (d : Nat) : UInt8 := UInt8.ofNat (48 + d)

/-- Is it one of the ten digits? -/
def isDigit (c : UInt8) : Bool := 48 ≤ c && c ≤ 57

/-- The number of a digit. -/
def ofDigit (c : UInt8) : Nat := c.toNat - 48

/-- The digits of a number. -/
def encode (n : Nat) : Bytes := if n = 0 then [digit 0] else ((Nat.digits 10 n).map digit).reverse

/-- The number that digits stand for. -/
def decode (s : Bytes) : Nat := s.foldl (fun n c => 10 * n + ofDigit c) 0

/-- An integer, with its sign if it is negative. -/
def encodeInt (n : Int) : Bytes := if n < 0 then 45 :: encode n.natAbs else encode n.natAbs

/-! ## Digits -/

theorem toNat_digit {d : Nat} (h : d < 10) : (digit d).toNat = 48 + d := by
  rw [digit, UInt8.toNat_ofNat', Nat.mod_eq_of_lt (by omega)]

@[simp] theorem ofDigit_digit {d : Nat} (h : d < 10) : ofDigit (digit d) = d := by
  rw [ofDigit, toNat_digit h, Nat.add_sub_cancel_left]

theorem isDigit_iff (c : UInt8) : isDigit c = true ↔ 48 ≤ c.toNat ∧ c.toNat ≤ 57 := by
  rw [isDigit, Bool.and_eq_true, decide_eq_true_eq, decide_eq_true_eq]
  exact Iff.rfl

@[simp] theorem isDigit_digit {d : Nat} (h : d < 10) : isDigit (digit d) = true := by
  rw [isDigit_iff, toNat_digit h]
  omega

/-! ## Numbers -/

theorem decode_append_singleton (s : Bytes) (c : UInt8) : decode (s ++ [c]) = 10 * decode s + ofDigit c := by
  rw [decode, List.foldl_append]
  rfl

/-- The digits of a list, the least significant first, stand for what the list stands for. -/
theorem decode_reverse_map {l : List Nat} (h : ∀ d ∈ l, d < 10) : decode (l.map digit).reverse = Nat.ofDigits 10 l := by
  induction l with
  | nil => rfl
  | cons d l ih =>
    have hd : d < 10 := h d List.mem_cons_self
    rw [List.map_cons, List.reverse_cons, decode_append_singleton, ofDigit_digit hd,
      ih fun d' hd' => h d' (List.mem_cons_of_mem d hd'), Nat.ofDigits_cons, Nat.add_comm]

/-- The digits of a number stand for it. -/
@[simp] theorem decode_encode (n : Nat) : decode (encode n) = n := by
  unfold encode
  by_cases hn : n = 0
  · rw [if_pos hn, hn]
    rfl
  · rw [if_neg hn, decode_reverse_map fun d hd => Nat.digits_lt_base (by decide) hd, Nat.ofDigits_digits]

/-- A number is written with digits only. -/
theorem isDigit_of_mem_encode {n : Nat} {c : UInt8} (h : c ∈ encode n) : isDigit c = true := by
  unfold encode at h
  by_cases hn : n = 0
  · rw [if_pos hn, List.mem_singleton] at h
    rw [h]
    exact isDigit_digit (by decide)
  · rw [if_neg hn, List.mem_reverse, List.mem_map] at h
    obtain ⟨d, hd, rfl⟩ := h
    exact isDigit_digit (Nat.digits_lt_base (by decide) hd)

theorem encode_ne_nil (n : Nat) : encode n ≠ [] := by
  unfold encode
  by_cases hn : n = 0
  · rw [if_pos hn]
    exact List.cons_ne_nil _ _
  · rw [if_neg hn, Ne, List.reverse_eq_nil_iff, List.map_eq_nil_iff]
    exact Nat.digits_ne_nil_iff_ne_zero.mpr hn

/-- Only the number zero has a zero in front. -/
theorem length_encode_of_head_eq {n : Nat} (h : (encode n).head? = some (digit 0)) : (encode n).length = 1 := by
  unfold encode at h ⊢
  by_cases hn : n = 0
  · rw [if_pos hn]
    rfl
  · rw [if_neg hn, List.head?_reverse] at h
    have hlast := Nat.getLast_digit_ne_zero 10 hn
    rw [List.getLast?_map, List.getLast?_eq_some_getLast (Nat.digits_ne_nil_iff_ne_zero.mpr hn), Option.map_some, Option.some_inj] at h
    have hlt : (Nat.digits 10 n).getLast (Nat.digits_ne_nil_iff_ne_zero.mpr hn) < 10 :=
      Nat.digits_lt_base (by decide) (List.getLast_mem _)
    have hzero := congrArg ofDigit h
    rw [ofDigit_digit hlt, ofDigit_digit (by decide)] at hzero
    exact absurd hzero hlast

/-! ## Digits in front of something else -/

/-- What can stand behind a number: no digit. -/
def Stops (rest : Bytes) : Prop := ∀ c, rest.head? = some c → isDigit c = false

/-- The digits of a number are all the digits in front of what stops it. -/
theorem takeWhile_encode_append {n : Nat} {rest : Bytes} (h : Stops rest) : (encode n ++ rest).takeWhile isDigit = encode n := by
  rw [List.takeWhile_append_of_pos fun c hc => isDigit_of_mem_encode hc]
  cases rest with
  | nil => rw [List.takeWhile_nil, List.append_nil]
  | cons c rest => rw [List.takeWhile_cons_of_neg (by rw [h c rfl]; decide), List.append_nil]

/-- A number starts with a digit. -/
theorem exists_encode_eq_cons (n : Nat) : ∃ c s, encode n = c :: s ∧ isDigit c = true := by
  rcases hs : encode n with - | ⟨c, s⟩
  · exact absurd hs (encode_ne_nil n)
  · exact ⟨c, s, rfl, isDigit_of_mem_encode (n := n) (by rw [hs]; exact List.mem_cons_self)⟩

end Decimal
