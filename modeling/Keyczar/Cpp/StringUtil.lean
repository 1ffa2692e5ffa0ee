import Keyczar.Cpp.StdString
import Keyczar.Lib.Decimal

/-!
# `string_util.cc`

Whether a string is UTF-8, and integers as text. The check for UTF-8 runs over the bytes with the flags that its loops share; behind a
whole character all of them are down again.
-/

namespace Cpp

namespace Characters

/-- What holds of every character of a text is decided along the text, not over all characters. -/
scoped instance (priority := 2000) decidableForallMem {α : Type} (p : α → Prop) [DecidablePred p] (l : List α) :
    Decidable (∀ c ∈ l, p c) :=
  List.decidableBAll p l

end Characters

/-- The code of an ASCII character. -/
abbrev ascii (c : Char) : UInt8 := UInt8.ofNat c.toNat

/-- The bytes of a string of ASCII characters. -/
abbrev asciiString (s : String) : Bytes := s.toList.map ascii

/-- What holds of the bytes of the numbers below 256 holds of every byte. -/
theorem forall_byte {p : UInt8 → Prop} (h : ∀ n < 256, p (UInt8.ofNat n)) (c : UInt8) : p c := by
  have hc := h c.toNat c.toNat_lt
  rwa [UInt8.ofNat_toNat] at hc

/-! ## `IsStringUTF8` -/

/-- What the loops of `IsStringUTF8T` keep: how many bytes of the character are left, the flags `overlong` and `surrogate` with their
bounds, and `nonchar`. -/
structure Utf8State where
  positionsLeft : Nat := 0
  overlong : Option UInt8 := none
  surrogate : Option UInt8 := none
  nonchar : Bool := false
  deriving DecidableEq, Repr

namespace Utf8State

/-- The first byte of a character. -/
def first (st : Utf8State) (c : UInt8) : Option Utf8State :=
  if c < 0x80 then some st
  -- [80-BF] where not expected, [C0-C1] for overlong
  else if c ≤ 0xC1 then none
  else if c &&& 0xE0 = 0xC0 then some { st with positionsLeft := 1 }
  else if c &&& 0xF0 = 0xE0 then
    let st := { st with positionsLeft := 2 }
    if c = 0xE0 then some { st with overlong := some 0x9F }
    else if c = 0xED then some { st with surrogate := some 0xA0 }
    else if c = 0xEF then some { st with nonchar := true }
    else some st
  else if c ≤ 0xF4 then
    let st := { st with positionsLeft := 3, nonchar := true }
    if c = 0xF0 then some { st with overlong := some 0x8F }
    else if c = 0xF4 then some { st with surrogate := some 0x90 }
    else some st
  else none

/-- A further byte of a character: what the loop that eats its rest does with it. A zero is one that is not in a sequence. -/
def next (st : Utf8State) (c : UInt8) : Option Utf8State :=
  let positionsLeft := st.positionsLeft - 1
  -- non-character: EF BF [BE-BF] or F[0-7] [89AB]F BF [BE-BF]
  let nonchar := st.nonchar &&
    !(positionsLeft = 0 && c < 0xBE || positionsLeft = 1 && c ≠ 0xBF || positionsLeft = 2 && c &&& 0x0F ≠ 0x0F)
  if c &&& 0xC0 ≠ 0x80 ∨ (∃ olupper ∈ st.overlong, c ≤ olupper) ∨ (∃ slower ∈ st.surrogate, slower ≤ c) ∨
      nonchar ∧ positionsLeft = 0 then none
  else some { positionsLeft, nonchar }

/-- One byte. -/
def step (st : Utf8State) (c : UInt8) : Option Utf8State := if st.positionsLeft = 0 then st.first c else st.next c

/-- The bytes one after the other. -/
def run : Utf8State → Bytes → Option Utf8State
  | st, [] => some st
  | st, c :: s => (st.step c).bind fun st => run st s

end Utf8State

/-- `IsStringUTF8`: at the end of the string no character may miss a byte. -/
def isStringUTF8 (str : Bytes) : Bool := ((Utf8State.run {} str).any fun st => st.positionsLeft = 0)

namespace Utf8State

theorem run_append (st : Utf8State) (s t : Bytes) : st.run (s ++ t) = (st.run s).bind fun st => st.run t := by
  induction s generalizing st with
  | nil => rfl
  | cons c s ih =>
    show (st.step c).bind (fun st => st.run (s ++ t)) = ((st.step c).bind fun st => st.run s).bind fun st => st.run t
    cases st.step c with
    | none => rfl
    | some st => exact ih st

/-- Between two characters an ASCII character changes nothing; within one it is refused. -/
theorem step_of_ascii (st : Utf8State) {c : UInt8} (h : c < 0x80) : st.step c = if st.positionsLeft = 0 then some st else none := by
  unfold step
  by_cases hleft : st.positionsLeft = 0
  · rw [if_pos hleft, if_pos hleft, first, if_pos h]
  · rw [if_neg hleft, if_neg hleft]
    have hin : c &&& 0xC0 ≠ 0x80 := forall_byte (p := fun c => c < 0x80 → c &&& 0xC0 ≠ 0x80) (by decide +kernel) c h
    unfold next
    dsimp only
    rw [if_pos (Or.inl hin)]

/-- A string of ASCII characters does what its first character does. -/
theorem run_of_ascii (st : Utf8State) {s : Bytes} (hne : s ≠ []) (h : ∀ c ∈ s, c < 0x80) :
    st.run s = if st.positionsLeft = 0 then some st else none := by
  induction s generalizing st with
  | nil => exact absurd rfl hne
  | cons c s ih =>
    show (st.step c).bind (fun st => st.run s) = _
    rw [step_of_ascii st (h c List.mem_cons_self)]
    by_cases hleft : st.positionsLeft = 0
    · rw [if_pos hleft, Option.bind_some]
      cases s with
      | nil => rfl
      | cons d s => rw [ih st (List.cons_ne_nil d s) fun c' hc' => h c' (List.mem_cons_of_mem c hc'), if_pos hleft]
    · rw [if_neg hleft]
      rfl

/-- A character that is not ASCII has further bytes. -/
theorem positionsLeft_first {st st' : Utf8State} {c : UInt8} (hc : ¬c < 0x80) (h : st.first c = some st') : st'.positionsLeft ≠ 0 := by
  unfold first at h
  rw [if_neg hc] at h
  repeat' split at h
  all_goals cases h
  all_goals simp

/-- The flags are down between two characters. -/
def Between (st : Utf8State) : Prop := st.positionsLeft = 0 → st = {}

theorem Between.step {st st' : Utf8State} (h : Between st) {c : UInt8} (hstep : st.step c = some st') : Between st' := by
  unfold Utf8State.step at hstep
  intro hzero
  split at hstep
  · rename_i hleft
    have hst := h hleft
    subst hst
    by_cases hc : c < 0x80
    · rw [first, if_pos hc] at hstep
      exact (Option.some.inj hstep).symm
    · exact absurd hzero (positionsLeft_first hc hstep)
  · unfold next at hstep
    dsimp only at hstep
    split at hstep
    · cases hstep
    · rename_i hno
      obtain rfl := Option.some.inj hstep
      have hdown : ¬((st.nonchar && !(decide (st.positionsLeft - 1 = 0) && decide (c < 0xBE) ||
          decide (st.positionsLeft - 1 = 1) && decide (c ≠ 0xBF) ||
          decide (st.positionsLeft - 1 = 2) && decide (c &&& 0x0F ≠ 0x0F))) = true) := by
        intro hup
        exact hno (Or.inr (Or.inr (Or.inr ⟨hup, hzero⟩)))
      rw [Bool.not_eq_true] at hdown
      dsimp only at hzero
      rw [hdown, hzero]

theorem Between.run {st st' : Utf8State} (h : Between st) {s : Bytes} (hrun : st.run s = some st') : Between st' := by
  induction s generalizing st with
  | nil =>
    cases hrun
    exact h
  | cons c s ih =>
    obtain ⟨st₁, hstep, hrun⟩ := Option.bind_eq_some_iff.mp hrun
    exact ih (h.step hstep) hrun

end Utf8State

/-- A string is UTF-8 when the machine is as at the start behind it. -/
theorem isStringUTF8_iff (str : Bytes) : isStringUTF8 str = true ↔ Utf8State.run {} str = some {} := by
  unfold isStringUTF8
  constructor
  · intro h
    cases hst : Utf8State.run {} str with
    | none =>
      rw [hst] at h
      cases h
    | some st =>
      rw [hst] at h
      have hbetween : Utf8State.Between st := Utf8State.Between.run (fun _ => rfl) hst
      rw [hbetween (of_decide_eq_true h)]
  · intro h
    rw [h]
    rfl

/-- Behind a string that is UTF-8 the check goes on as at the start. -/
theorem isStringUTF8_append {s : Bytes} (h : isStringUTF8 s = true) (t : Bytes) : isStringUTF8 (s ++ t) = isStringUTF8 t := by
  unfold isStringUTF8
  rw [Utf8State.run_append, (isStringUTF8_iff s).mp h, Option.bind_some]

/-- ASCII characters are UTF-8. -/
theorem isStringUTF8_of_ascii {s : Bytes} (h : ∀ c ∈ s, c < 0x80) : isStringUTF8 s = true := by
  rw [isStringUTF8_iff]
  cases s with
  | nil => rfl
  | cons c s => rw [Utf8State.run_of_ascii _ (List.cons_ne_nil c s) h, if_pos rfl]

/-! ## Integers as text -/

/-- `IntToString`. -/
def intToString (value : Int) : Bytes := Decimal.encodeInt value

/-- The sign in front of a number: is it a minus, and what is behind it. -/
def strtolSign : Bytes → Bool × Bytes
  | 45 :: s => (true, s)
  | 43 :: s => (false, s)
  | s => (false, s)

/-- The `int32` that is closest to a number. -/
def saturate (value : Int) : Int := max (-2 ^ 31) (min (2 ^ 31 - 1) value)

/-- `strto32` to the base 10: the digits behind blanks and a sign, in the range of an `int32`. -/
def strto32 (nptr : Bytes) : Int :=
  let (negative, s) := strtolSign (nptr.dropWhile fun c => c = 32 || 9 ≤ c && c ≤ 13)
  let value : Int := Decimal.decode (s.takeWhile Decimal.isDigit)
  saturate (if negative then -value else value)

/-- The values of an `int`. -/
def InIntRange (n : Int) : Prop := -2 ^ 31 ≤ n ∧ n < 2 ^ 31

instance (n : Int) : Decidable (InIntRange n) := inferInstanceAs (Decidable (_ ∧ _))

theorem inIntRange_saturate (n : Int) : InIntRange (saturate n) := by
  unfold InIntRange saturate
  omega

theorem saturate_of_inIntRange {n : Int} (h : InIntRange n) : saturate n = n := by
  unfold InIntRange at h
  unfold saturate
  omega

theorem inIntRange_strto32 (s : Bytes) : InIntRange (strto32 s) := inIntRange_saturate _

/-- A digit is neither a blank nor a sign. -/
theorem ne_of_isDigit {c : UInt8} (h : Decimal.isDigit c = true) :
    (c = 32 || 9 ≤ c && c ≤ 13) = false ∧ c ≠ 45 ∧ c ≠ 43 :=
  forall_byte (p := fun c => Decimal.isDigit c = true → (c = 32 || 9 ≤ c && c ≤ 13) = false ∧ c ≠ 45 ∧ c ≠ 43) (by decide +kernel) c h

theorem strtolSign_of_isDigit {c : UInt8} (h : Decimal.isDigit c = true) (s : Bytes) : strtolSign (c :: s) = (false, c :: s) := by
  obtain ⟨-, h45, h43⟩ := ne_of_isDigit h
  unfold strtolSign
  split
  · rename_i heq
    exact absurd (List.cons.inj heq).1 h45
  · rename_i heq
    exact absurd (List.cons.inj heq).1 h43
  · rfl

theorem takeWhile_encode (n : Nat) : (Decimal.encode n).takeWhile Decimal.isDigit = Decimal.encode n := by
  have hstops : Decimal.Stops [] := by
    intro c hc
    cases hc
  have htake := Decimal.takeWhile_encode_append (n := n) hstops
  rwa [List.append_nil] at htake

/-- The number is read back from its text. -/
theorem strto32_intToString {n : Int} (h : InIntRange n) : strto32 (intToString n) = n := by
  obtain ⟨c, s, hs, hc⟩ := Decimal.exists_encode_eq_cons n.natAbs
  have hvalue : Decimal.decode ((c :: s).takeWhile Decimal.isDigit) = n.natAbs := by
    rw [← hs, takeWhile_encode, Decimal.decode_encode]
  unfold intToString Decimal.encodeInt strto32
  by_cases hneg : n < 0
  · rw [if_pos hneg, hs, List.dropWhile_cons_of_neg (by decide)]
    show saturate (-((Decimal.decode ((c :: s).takeWhile Decimal.isDigit) : Nat) : Int)) = n
    rw [hvalue, show -(n.natAbs : Int) = n by omega, saturate_of_inIntRange h]
  · rw [if_neg hneg, hs, List.dropWhile_cons_of_neg (by rw [(ne_of_isDigit hc).1]; decide), strtolSign_of_isDigit hc]
    show saturate ((Decimal.decode ((c :: s).takeWhile Decimal.isDigit) : Nat) : Int) = n
    rw [hvalue, show (n.natAbs : Int) = n by omega, saturate_of_inIntRange h]

end Cpp
