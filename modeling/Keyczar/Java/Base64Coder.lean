import Keyczar.Lib.Base64
import Keyczar.Lib.Throwing

/-!
# The base 64 decoder of the Java library

`decodeWebSafe` cuts up to two padding characters off the end and skips whitespace. The characters are given as bytes; what the
decoder writes is as long as the array that it makes room for.
-/

namespace Java

namespace Base64Coder

/-- What the decoder throws, the exceptions of the array accesses included. -/
inductive Base64DecodingException where
  | illegalLength (inLen : Nat)
  | illegalCharacter (c : UInt8)
  | arrayIndexOutOfBounds
  deriving DecidableEq, Repr

/-- The entries of the table `DECODE`: `-1` and `-2` are those of illegal characters and of whitespace. -/
inductive Entry where
  | illegal
  | whiteSpace
  | value (v : Nat)
  deriving DecidableEq, Repr

/-- The tabulator, the line ends, the blank and the form feed. -/
def WHITESPACE : Bytes := [9, 10, 13, 32, 12]

def DECODE (c : UInt8) : Entry :=
  match Base64.webSafe.ofChar c with
  | some v => .value v
  | none => if c ∈ WHITESPACE then .whiteSpace else .illegal

/-- `isWhiteSpace`: the table ends at 127. -/
def isWhiteSpace (c : UInt8) : Except Base64DecodingException Bool :=
  if 127 < c then .error .arrayIndexOutOfBounds else .ok (DECODE c = .whiteSpace)

/-- `getByte`, of a character that is not whitespace. -/
def getByte (c : UInt8) : Except Base64DecodingException Nat :=
  match DECODE c with
  | .value v => .ok v
  | _ => .error (.illegalCharacter c)

/-- The count of whitespace characters. -/
def countWhiteSpace : Bytes → Except Base64DecodingException Nat
  | [] => .ok 0
  | c :: s => do
    let blank ← isWhiteSpace c
    let rest ← countWhiteSpace s
    return if blank then rest + 1 else rest

/-- The decoding loop from where it has `buffCount` values in the buffer, with what is written behind it. -/
def decodeLoop : Nat → Nat → Bytes → Except Base64DecodingException Bytes
  | buffer, buffCount, [] =>
    if buffCount = 2 then .ok [UInt8.ofNat (buffer / 2 ^ 4)]
    else if buffCount = 3 then .ok [UInt8.ofNat (buffer / 2 ^ 10), UInt8.ofNat (buffer / 2 ^ 2)]
    else .ok []
  | buffer, buffCount, c :: s => do
    let blank ← isWhiteSpace c
    if blank then decodeLoop buffer buffCount s
    else
      let v ← getByte c
      let buffer := buffer * 64 + v
      if buffCount + 1 = 4 then
        let out ← decodeLoop 0 0 s
        return UInt8.ofNat (buffer / 2 ^ 16) :: UInt8.ofNat (buffer / 2 ^ 8) :: UInt8.ofNat buffer :: out
      else decodeLoop buffer (buffCount + 1) s

/-- Cut a padding character off the end. There must be a character. -/
def trimPadding (s : Bytes) : Except Base64DecodingException Bytes :=
  match s.getLast? with
  | none => .error .arrayIndexOutOfBounds
  | some c => .ok (if c = 61 then s.dropLast else s)

/-- `decodeWebSafe`. -/
def decodeWebSafe (source : Bytes) : Except Base64DecodingException Bytes := do
  let input ← trimPadding source
  let input ← trimPadding input
  let whiteSpaceChars ← countWhiteSpace source
  let inLen := input.length - whiteSpaceChars
  if inLen % 4 = 1 then throw (.illegalLength inLen)
  decodeLoop 0 0 input

/-! ## Decoding what was encoded -/

theorem isWhiteSpace_toChar {i : Nat} (h : i < 64) : isWhiteSpace (Base64.webSafe.toChar i) = .ok false := by
  have hsmall : ∀ i < 64, ¬127 < Base64.webSafe.toChar i := by decide
  rw [isWhiteSpace, if_neg (hsmall i h), DECODE, Base64.webSafe.ofChar_toChar i h]
  rfl

theorem getByte_toChar {i : Nat} (h : i < 64) : getByte (Base64.webSafe.toChar i) = .ok i := by
  rw [getByte, DECODE, Base64.webSafe.ofChar_toChar i h]

theorem countWhiteSpace_encode (s : Bytes) : countWhiteSpace (Base64.encode Base64.webSafe s) = .ok 0 := by
  have hall : ∀ c ∈ Base64.encode Base64.webSafe s, isWhiteSpace c = .ok false := by
    intro c hc
    obtain ⟨i, hi, rfl⟩ := Base64.exists_of_mem_encode Base64.webSafe hc
    exact isWhiteSpace_toChar hi
  generalize Base64.encode Base64.webSafe s = t at hall
  induction t with
  | nil => rfl
  | cons c t ih =>
    rw [countWhiteSpace, hall c List.mem_cons_self, ih fun d hd => hall d (List.mem_cons_of_mem c hd)]
    rfl

theorem trimPadding_encode {s : Bytes} (h : s ≠ []) :
    trimPadding (Base64.encode Base64.webSafe s) = .ok (Base64.encode Base64.webSafe s) := by
  have hne : Base64.encode Base64.webSafe s ≠ [] := by
    intro hnil
    exact h (Base64.encode_injective Base64.webSafe hnil)
  have hpad : ∀ i < 64, Base64.webSafe.toChar i ≠ 61 := by decide
  obtain ⟨i, hi, hlast⟩ := Base64.exists_of_mem_encode Base64.webSafe (List.getLast_mem hne)
  rw [trimPadding, List.getLast?_eq_some_getLast hne, ← hlast]
  dsimp only
  rw [if_neg (hpad i hi)]

theorem decodeLoop_toChar (buffer buffCount : Nat) {i : Nat} (h : i < 64) (s : Bytes) :
    decodeLoop buffer buffCount (Base64.webSafe.toChar i :: s) =
      if buffCount + 1 = 4 then
        (decodeLoop 0 0 s).map fun out => UInt8.ofNat ((buffer * 64 + i) / 2 ^ 16) :: UInt8.ofNat ((buffer * 64 + i) / 2 ^ 8) ::
          UInt8.ofNat (buffer * 64 + i) :: out
      else decodeLoop (buffer * 64 + i) (buffCount + 1) s := by
  rw [decodeLoop, isWhiteSpace_toChar h, getByte_toChar h]
  rfl

/-- The loop undoes encoding. -/
theorem decodeLoop_encode (s : Bytes) : decodeLoop 0 0 (Base64.encode Base64.webSafe s) = .ok s := by
  induction s using Base64.encode.induct with
  | case1 a b c rest ih =>
    have ha := a.toNat_lt
    have hb := b.toNat_lt
    have hc := c.toNat_lt
    rw [Base64.encode, decodeLoop_toChar _ _ (by omega), if_neg (by omega), decodeLoop_toChar _ _ (by omega), if_neg (by omega),
      decodeLoop_toChar _ _ (by omega), if_neg (by omega), decodeLoop_toChar _ _ (by omega), if_pos rfl, ih]
    simp only [Except.map, Except.ok.injEq, List.cons.injEq, and_true]
    refine ⟨Base64.ofNat_eq ?_, Base64.ofNat_eq ?_, Base64.ofNat_eq ?_⟩ <;> omega
  | case2 a b =>
    have ha := a.toNat_lt
    have hb := b.toNat_lt
    rw [Base64.encode, decodeLoop_toChar _ _ (by omega), if_neg (by omega), decodeLoop_toChar _ _ (by omega), if_neg (by omega),
      decodeLoop_toChar _ _ (by omega), if_neg (by omega), decodeLoop, if_neg (by omega), if_pos rfl]
    simp only [Except.ok.injEq, List.cons.injEq, and_true]
    refine ⟨Base64.ofNat_eq ?_, Base64.ofNat_eq ?_⟩ <;> omega
  | case3 a =>
    have ha := a.toNat_lt
    rw [Base64.encode, decodeLoop_toChar _ _ (by omega), if_neg (by omega), decodeLoop_toChar _ _ (by omega), if_neg (by omega),
      decodeLoop, if_pos rfl]
    simp only [Except.ok.injEq, List.cons.injEq, and_true]
    exact Base64.ofNat_eq (by omega)
  | case4 => rfl

/-- Decoding undoes encoding; of the empty string there is nothing to decode. -/
theorem decodeWebSafe_encode {s : Bytes} (h : s ≠ []) : decodeWebSafe (Base64.encode Base64.webSafe s) = .ok s := by
  have hlength := Base64.length_encode_mod Base64.webSafe s
  rw [decodeWebSafe, trimPadding_encode h, Throwing.ok_bind, trimPadding_encode h, Throwing.ok_bind, countWhiteSpace_encode,
    Throwing.ok_bind]
  dsimp only [Nat.sub_zero]
  rw [if_neg hlength]
  exact decodeLoop_encode s

end Base64Coder

end Java
