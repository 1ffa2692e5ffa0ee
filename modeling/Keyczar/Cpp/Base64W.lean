import Keyczar.Cpp.StdString
import Mathlib.Data.List.DropRight

/-!
# The encodings of the C++ library

Strings of any length in base 64. The coder takes lengths as `int`s: of a string whose length is a negative one it encodes two bytes, and
where the length of the code is negative the code cannot be cut off there. A string that is decoded loses its padding and its blanks at
the end first.
-/

namespace Cpp

open Bytes

namespace Modp

/-- `b64w_encode`. The length that the code is cut off at counts the padding. -/
def b64wEncode (s : Bytes) : Except Exception Bytes :=
  let len := toInt s.length
  if len < 0 then .ok (Base64.encode Base64.webSafe (s.take 2))
  else if toInt ((len + 2) / 3 * 4) < 0 then .error .outOfRange
  else .ok (Base64.encode Base64.webSafe (s.take len.toNat))

/-- `b64w_decode`: a character that is left alone at the end is looked up, and gives nothing. -/
def b64wDecode (src : Bytes) : Option Bytes :=
  (src.mapM Base64.webSafe.ofChar).bind fun values =>
    Base64.ofSextets (if values.length % 4 = 1 then values.dropLast else values)

end Modp

namespace Base64W

/-- `Base64WEncode`: an empty code is a failure. -/
def encode (input : Bytes) : Except Exception (Option Bytes) := do
  let output ← Modp.b64wEncode input
  return if output.isEmpty then none else some output

/-- `Base64WDecode`. A length that is negative as an `int` makes the size of the output one that no string has. -/
def decode (input : Bytes) : Except Exception (Option Bytes) :=
  let substr := input.rdropWhile fun c => c = 61 ∨ c = 32
  let len := toInt substr.length
  if len < 0 then .error .lengthError
  else .ok ((Modp.b64wDecode (substr.take len.toNat)).filter (!·.isEmpty))

/-- The length of the code of `n` bytes, with its padding, is an `int`. -/
def Fits (n : Nat) : Prop := (n + 2) / 3 * 4 < 2 ^ 31

instance (n : Nat) : Decidable (Fits n) := Nat.decLt _ _

/-- A string whose code fits is encoded whole. -/
theorem encode_of_fits {s : Bytes} (h : Fits s.length) : encode s = .ok (base64WEncode s) := by
  unfold Fits at h
  have hcast : ((s.length : Int) + 2) / 3 * 4 = ((s.length + 2) / 3 * 4 : Nat) := by
    push_cast
    rfl
  have hlen : ¬toInt s.length < 0 := by
    rw [toInt_of_lt (by omega)]
    exact Int.not_lt.mpr (Int.natCast_nonneg _)
  have hcode : ¬toInt (((s.length : Int) + 2) / 3 * 4) < 0 := by
    rw [hcast, toInt_of_lt h]
    exact Int.not_lt.mpr (Int.natCast_nonneg _)
  have hrun : Modp.b64wEncode s = .ok (Base64.encode Base64.webSafe s) := by
    unfold Modp.b64wEncode
    dsimp only
    rw [if_neg hlen, toInt_of_lt (by omega), if_neg hcode, Int.toNat_natCast, List.take_length]
  rw [encode, hrun]
  cases s with
  | nil => rfl
  | cons b s =>
    rw [@base64WEncode_eq (b :: s) (Nat.zero_lt_succ _)]
    have hne : Base64.encode Base64.webSafe (b :: s) ≠ [] := by
      intro hnil
      have hinj : b :: s = [] := Base64.encode_injective Base64.webSafe hnil
      cases hinj
    have hempty : (Base64.encode Base64.webSafe (b :: s)).isEmpty = false := by
      rw [List.isEmpty_eq_false_iff]
      exact hne
    show Except.ok (if (Base64.encode Base64.webSafe (b :: s)).isEmpty then none else some _) = _
    rw [hempty]
    rfl

/-- What was encoded has nothing at its end to cut off. -/
theorem rdropWhile_encode (s : Bytes) :
    ((Base64.encode Base64.webSafe s).rdropWhile fun c => c = 61 ∨ c = 32) = Base64.encode Base64.webSafe s := by
  have hchar : ∀ i < 64, ¬(Base64.webSafe.toChar i = 61 ∨ Base64.webSafe.toChar i = 32) := by decide
  rw [List.rdropWhile_eq_self_iff]
  intro hne
  obtain ⟨i, hi, hlast⟩ := Base64.exists_of_mem_encode Base64.webSafe (List.getLast_mem hne)
  rw [← hlast, decide_eq_true_eq]
  exact hchar i hi

/-- Decoding undoes encoding. -/
theorem decode_encode {s : Bytes} (hne : s ≠ []) (h : Fits s.length) :
    decode (Base64.encode Base64.webSafe s) = .ok (some s) := by
  unfold Fits at h
  have hlength := Base64.length_encode Base64.webSafe s
  have hlt : (Base64.encode Base64.webSafe s).length < 2 ^ 31 := by omega
  have hmapM : (Base64.encode Base64.webSafe s).mapM Base64.webSafe.ofChar = some (Base64.sextets s) := by
    rw [Base64.encode_eq_map]
    exact Base64.mapM_ofChar_map Base64.webSafe (Base64.sextets_lt s)
  have hmod : (Base64.sextets s).length % 4 ≠ 1 := by
    have hchars := Base64.length_encode_mod Base64.webSafe s
    rwa [Base64.encode_eq_map, List.length_map] at hchars
  have hmodp : Modp.b64wDecode (Base64.encode Base64.webSafe s) = some s := by
    rw [Modp.b64wDecode, hmapM, Option.bind_some, if_neg hmod]
    exact Base64.ofSextets_sextets s
  unfold decode
  dsimp only
  rw [rdropWhile_encode, toInt_of_lt hlt, if_neg (Int.not_lt.mpr (Int.natCast_nonneg _)), Int.toNat_natCast, List.take_length, hmodp]
  cases s with
  | nil => exact absurd rfl hne
  | cons b s => rfl

/-- Of a string whose code does not fit, either nothing is encoded or two bytes. -/
theorem encode_of_not_fits {s : Bytes} (h : ¬Fits s.length) (hlt : s.length < 2 ^ 32) :
    encode s = .error .outOfRange ∨ ∃ t, encode s = .ok (some t) ∧ decode t = .ok (some (s.take 2)) := by
  unfold Fits at h
  rcases Nat.lt_or_ge s.length (2 ^ 31) with hshort | hlong
  · left
    have hcast : ((s.length : Int) + 2) / 3 * 4 = ((s.length + 2) / 3 * 4 : Nat) := by
      push_cast
      rfl
    have hcode : toInt (((s.length : Int) + 2) / 3 * 4) < 0 := by
      rw [hcast]
      exact toInt_neg (by omega) (by omega)
    unfold encode Modp.b64wEncode
    dsimp only
    rw [toInt_of_lt hshort, if_neg (Int.not_lt.mpr (Int.natCast_nonneg _)), if_pos hcode]
    rfl
  · right
    have hneg : toInt s.length < 0 := toInt_neg (by omega) (by omega)
    have htwo : (s.take 2).length = 2 := List.length_take_of_le (by omega)
    have hne : s.take 2 ≠ [] := by
      rw [← List.length_pos_iff, htwo]
      decide
    have hsmall : Fits (s.take 2).length := by
      rw [htwo]
      decide
    have hencode : encode s = .ok (base64WEncode (s.take 2)) := by
      rw [← encode_of_fits hsmall]
      unfold encode Modp.b64wEncode
      dsimp only
      rw [if_pos hneg, htwo, if_neg (by decide), if_neg (by decide), List.take_take]
      rfl
    rw [base64WEncode_eq (List.length_pos_iff.mpr hne)] at hencode
    exact ⟨_, hencode, decode_encode hne hsmall⟩

end Base64W

/-- `Encoding` of a `Keyczar` object. -/
inductive Encoding where
  | noEncoding
  | base64W
  deriving DecidableEq, Repr

namespace Encoding

/-- `Encode`. -/
def encode : Encoding → Bytes → Except Exception (Option Bytes)
  | .noEncoding, inputValue => .ok (some inputValue)
  | .base64W, inputValue => Base64W.encode inputValue

/-- `Decode`. -/
def decode : Encoding → Bytes → Except Exception (Option Bytes)
  | .noEncoding, encodedValue => .ok (some encodedValue)
  | .base64W, encodedValue => Base64W.decode encodedValue

/-- A string of `n` bytes can be encoded. -/
def Fits : Encoding → Nat → Prop
  | .noEncoding, _ => True
  | .base64W, n => Base64W.Fits n

/-- A string that can be encoded is decoded again. -/
theorem decode_encode {e : Encoding} {s : Bytes} (hne : s ≠ []) (h : e.Fits s.length) :
    ∃ t, e.encode s = .ok (some t) ∧ e.decode t = .ok (some s) := by
  cases e with
  | noEncoding => exact ⟨s, rfl, rfl⟩
  | base64W =>
    have hfits : Base64W.Fits s.length := h
    have hencode := Base64W.encode_of_fits hfits
    rw [base64WEncode_eq (List.length_pos_iff.mpr hne)] at hencode
    refine ⟨Base64.encode Base64.webSafe s, hencode, ?_⟩
    rw [decode]
    exact Base64W.decode_encode hne hfits

/-- Of one that cannot be encoded, nothing is encoded or two bytes. -/
theorem encode_of_not_fits {e : Encoding} {s : Bytes} (h : ¬e.Fits s.length) (hlt : s.length < 2 ^ 32) :
    e.encode s = .error .outOfRange ∨ ∃ t, e.encode s = .ok (some t) ∧ e.decode t = .ok (some (s.take 2)) := by
  cases e with
  | noEncoding => exact absurd trivial h
  | base64W => exact Base64W.encode_of_not_fits h hlt

end Encoding

end Cpp
