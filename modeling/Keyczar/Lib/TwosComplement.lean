import Keyczar.Lib.BigEndian

/-!
# Integers as byte strings in two's complement

The first bit of a byte string is its sign. The bytes of an integer are as few as there can be, and at least one.
-/

namespace TwosComplement

/-- The sign bit is not set. -/
def Nonneg (s : Bytes) : Prop := ∀ b ∈ s.head?, b < 128

instance (s : Bytes) : Decidable (Nonneg s) := inferInstanceAs (Decidable (∀ b ∈ s.head?, b < 128))

/-- The integer that a byte string stands for. -/
def ofBytes (s : Bytes) : Int := if Nonneg s then BigEndian.ofBytes s else BigEndian.ofBytes s - 256 ^ s.length

/-- The bytes of a natural number: its big-endian bytes, with a zero in front when there would be no byte or the first would be
taken for a sign. -/
def natBytes (n : Nat) : Bytes :=
  if BigEndian.toBytes n ≠ [] ∧ Nonneg (BigEndian.toBytes n) then BigEndian.toBytes n else 0 :: BigEndian.toBytes n

/-- The bytes of an integer. -/
def toBytes : Int → Bytes
  | .ofNat n => natBytes n
  | .negSucc n => (natBytes n).map (~~~ ·)

example : (toBytes (-129)).map UInt8.toNat = [255, 127] := by decide +kernel

theorem ofBytes_of_nonneg {s : Bytes} (h : Nonneg s) : ofBytes s = BigEndian.ofBytes s := if_pos h

theorem nonneg_zero_cons (s : Bytes) : Nonneg (0 :: s) := by
  intro b hb
  cases hb
  decide

/-- The bytes of a natural number differ from its big-endian bytes by zeros in front only. -/
theorem exists_natBytes_eq (n : Nat) : ∃ k, natBytes n = List.replicate k 0 ++ BigEndian.toBytes n := by
  unfold natBytes
  split
  · exact ⟨0, rfl⟩
  · exact ⟨1, rfl⟩

theorem nonneg_natBytes (n : Nat) : Nonneg (natBytes n) := by
  unfold natBytes
  split
  · rename_i h
    exact h.2
  · exact nonneg_zero_cons _

theorem length_natBytes_le {n k : Nat} (h : n < 256 ^ k) : (natBytes n).length ≤ k + 1 := by
  have hle := BigEndian.length_toBytes_le h
  unfold natBytes
  split
  · omega
  · rw [List.length_cons]
    omega

end TwosComplement
