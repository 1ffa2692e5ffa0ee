import Keyczar.Java.Base64Coder
import Keyczar.Java.Keys
import Keyczar.Lib.Slots

/-!
# Strings in base 64 in the Java library

`Base64Coder` on strings of any characters, with the arrays that it indexes: the table of 128 entries, the characters of the string,
and an output that is made as long as the bytes are expected to be. Every access can be out of bounds here.
-/

namespace Java

/-- A `String`, or the `char[]` of one. -/
abbrev Text := List UInt16

namespace Base64Strings

open Bytes

/-- `Base64DecodingException`. -/
inductive Base64DecodingException where
  | illegalLength (inLen : Int)
  | illegalCharacter (i : UInt16)
  deriving DecidableEq, Repr

/-- What the coder throws: only the first is declared. `bugInEncoder` is the `RuntimeException` of its own. -/
inductive Thrown where
  | base64 (e : Base64DecodingException)
  | runtime (e : RuntimeException)
  | outOfMemory
  | bugInEncoder
  deriving DecidableEq, Repr

/-! ## Arrays -/

/-- `new byte[n]` and `new char[n]`. -/
def newArray {α : Type} (blank : α) (n : Int) : Except Thrown (Slots α) :=
  if n < 0 then .error (.runtime .negativeArraySize) else .ok (Slots.new blank n.toNat)

/-- `out[outPos++] = x`. -/
def put {α : Type} (x : α) (out : Slots α) : Except Thrown (Slots α) :=
  match out.put x with
  | none => .error (.runtime .indexOutOfBounds)
  | some out => .ok out

/-- `array[i]`. -/
def get {α : Type} (array : List α) (i : Int) : Except Thrown α :=
  if i < 0 then .error (.runtime .indexOutOfBounds)
  else match array[i.toNat]? with
    | none => .error (.runtime .indexOutOfBounds)
    | some x => .ok x

/-! ## The table -/

/-- The character of a byte. -/
def ofByte (c : UInt8) : UInt16 := c.toUInt16

/-- `DECODE[i]`: the table ends at 127. -/
def DECODE (i : UInt16) : Except Thrown Base64Coder.Entry :=
  if i ≤ 127 then .ok (Base64Coder.DECODE i.toUInt8) else .error (.runtime .indexOutOfBounds)

/-- `isWhiteSpace`. -/
def isWhiteSpace (i : UInt16) : Except Thrown Bool := do
  let entry ← DECODE i
  return decide (entry = .whiteSpace)

/-- `getByte`, of a character that is not whitespace. -/
def getByte (i : UInt16) : Except Thrown Nat :=
  if 127 < i then .error (.base64 (.illegalCharacter i))
  else match Base64Coder.DECODE i.toUInt8 with
    | .value v => .ok v
    | _ => .error (.base64 (.illegalCharacter i))

/-! ## Decoding -/

/-- Trim a padding character at the end of the first `inLen` characters. -/
def trim (input : Text) (inLen : Int) : Except Thrown Int := do
  let c ← get input (inLen - 1)
  return if c = 61 then inLen - 1 else inLen

/-- The loop that counts whitespace. -/
def countWhiteSpace (input : Text) : Except Thrown Int :=
  input.foldlM (fun whiteSpaceChars c => do
    let blank ← isWhiteSpace c
    return if blank then whiteSpaceChars + 1 else whiteSpaceChars) 0

/-- The length of the output. -/
def outputLength (inLen : Int) : Except Thrown Int :=
  let inputBlocks := inLen.tdiv 4
  let remainder := inLen.tmod 4
  if remainder = 1 then .error (.base64 (.illegalLength inLen))
  else if remainder = 2 then .ok (inputBlocks * 3 + 1)
  else if remainder = 3 then .ok (inputBlocks * 3 + 2)
  else .ok (inputBlocks * 3)

/-- The variables of the decoding loop. -/
structure Decoding where
  out : Slots UInt8
  buffer : Nat := 0
  buffCount : Nat := 0

/-- A value is shifted into the buffer. -/
def Decoding.shift (s : Decoding) (v : Nat) : Decoding := { s with buffer := s.buffer <<< 6 ||| v, buffCount := s.buffCount + 1 }

/-- Four values are written as three bytes. -/
def Decoding.write (s : Decoding) : Except Thrown Decoding :=
  if s.buffCount = 4 then do
    let out ← put (UInt8.ofNat (s.buffer >>> 16)) s.out
    let out ← put (UInt8.ofNat (s.buffer >>> 8)) out
    let out ← put (UInt8.ofNat s.buffer) out
    return { out }
  else return s

/-- The body of the loop, for one character. -/
def Decoding.step (s : Decoding) (c : UInt16) : Except Thrown Decoding := do
  let blank ← isWhiteSpace c
  if blank then s.write
  else
    let v ← getByte c
    (s.shift v).write

/-- The loop, with `left` passes to go. -/
def decodeLoop (input : Text) : Nat → Nat → Decoding → Except Thrown Decoding
  | 0, _, s => .ok s
  | left + 1, i, s => do
    let c ← get input i
    let s ← s.step c
    decodeLoop input left (i + 1) s

/-- What is written of fewer than four values, behind the loop. -/
def Decoding.flush (s : Decoding) : Except Thrown (Slots UInt8) :=
  if s.buffCount = 2 then put (UInt8.ofNat (s.buffer >>> 4)) s.out
  else if s.buffCount = 3 then do
    let out ← put (UInt8.ofNat (s.buffer >>> 10)) s.out
    put (UInt8.ofNat (s.buffer >>> 2)) out
  else .ok s.out

/-- `decodeWebSafe`. -/
def decodeWebSafe (source : Text) : Except Thrown Bytes := do
  let inLen ← trim source source.length
  let inLen ← trim source inLen
  let whiteSpaceChars ← countWhiteSpace source
  let inLen := inLen - whiteSpaceChars
  let outputLen ← outputLength inLen
  let out ← newArray 0 outputLen
  let s ← decodeLoop source (inLen + whiteSpaceChars).toNat 0 { out }
  let out ← s.flush
  return out.cells

/-- `replace`, of one character by another. -/
def replace (s : Text) (oldChar newChar : UInt16) : Text := s.map fun c => if c = oldChar then newChar else c

/-- `decodeMime`: `+` and `/` stand for `-` and `_`. -/
def decodeMime (source : Text) : Except Thrown Bytes :=
  let source := replace source 43 45
  let source := replace source 47 95
  decodeWebSafe source

/-! ## Encoding -/

/-- `ALPHABET[v & 0x3F]`. -/
def ALPHABET (v : Nat) : UInt16 := ofByte (Base64.webSafe.toChar (v &&& 0x3F))

/-- The loop over the blocks of three bytes, with `blocks` of them to go. -/
def encodeLoop (input : Bytes) : Nat → Nat → Slots UInt16 → Except Thrown (Nat × Slots UInt16)
  | 0, inPos, out => .ok (inPos, out)
  | blocks + 1, inPos, out => do
    let a ← get input inPos
    let b ← get input (inPos + 1)
    let c ← get input (inPos + 2)
    let buffer := a.toNat <<< 16 ||| b.toNat <<< 8 ||| c.toNat
    let out ← put (ALPHABET (buffer >>> 18)) out
    let out ← put (ALPHABET (buffer >>> 12)) out
    let out ← put (ALPHABET (buffer >>> 6)) out
    let out ← put (ALPHABET buffer) out
    encodeLoop input blocks (inPos + 3) out

/-- The one or two bytes behind the blocks. -/
def encodeRest (input : Bytes) (remainder inPos : Nat) (out : Slots UInt16) : Except Thrown (Slots UInt16) :=
  if 0 < remainder then do
    let a ← get input inPos
    let buffer := a.toNat <<< 16
    let buffer ← if remainder = 2 then do
        let b ← get input (inPos + 1)
        pure (buffer ||| b.toNat <<< 8)
      else pure buffer
    let out ← put (ALPHABET (buffer >>> 18)) out
    let out ← put (ALPHABET (buffer >>> 12)) out
    if remainder = 2 then put (ALPHABET (buffer >>> 6)) out else return out
  else return out

/-- `encodeWebSafe`: the length of the output is an `int`. -/
def encodeWebSafe (input : Bytes) : Except Thrown Text := do
  let inputBlocks := input.length / 3
  let remainder := input.length % 3
  let outputLen := toInt32 ((inputBlocks * 4 + if remainder = 1 then 2 else if remainder = 2 then 3 else 0 : Nat) : Int)
  let out ← newArray 0 outputLen
  let (inPos, out) ← encodeLoop input inputBlocks 0 out
  let out ← encodeRest input remainder inPos out
  return out.cells

/-- `+` on strings, whose length is an `int`. -/
def concat (s t : Text) : Except Thrown Text := if s.length + t.length < 2 ^ 31 then .ok (s ++ t) else .error .outOfMemory

/-- `encodeMime`, which pads whatever it is asked for. -/
def encodeMime (input : Bytes) (_pad : Bool) : Except Thrown Text := do
  let result ← encodeWebSafe input
  let result := replace result 45 43
  let result := replace result 95 47
  if result.length % 4 = 0 then return result
  else if result.length % 4 = 2 then concat result [61, 61]
  else if result.length % 4 = 3 then concat result [61]
  else .error .bugInEncoder

/-! ## The accesses -/

theorem newArray_natCast {α : Type} (blank : α) (n : Nat) : newArray blank (n : Int) = .ok (Slots.new blank n) := by
  rw [newArray, if_neg (by omega), Int.toNat_natCast]

theorem put_holds {α : Type} {out : Slots α} {n : Nat} {w : List α} (h : out.Holds n w) (hroom : w.length < n) (x : α) :
    ∃ out', put x out = .ok out' ∧ out'.Holds n (w ++ [x]) := by
  obtain ⟨out', hput, hholds⟩ := h.put hroom x
  exact ⟨out', by rw [put, hput], hholds⟩

theorem get_natCast {α : Type} {array : List α} {i : Nat} {x : α} (h : array[i]? = some x) : get array (i : Int) = .ok x := by
  rw [get, if_neg (by omega), Int.toNat_natCast, h]

theorem get_neg {α : Type} (array : List α) {i : Int} (h : i < 0) : get array i = .error (.runtime .indexOutOfBounds) := if_pos h

/-- The whitespace characters. -/
def isBlank (c : UInt16) : Bool := c = 9 || c = 10 || c = 13 || c = 32 || c = 12

/-- The value of a character of the alphabet. -/
def valueOf (c : UInt16) : Option Nat := if c ≤ 127 then Base64.webSafe.ofChar c.toUInt8 else none

/-- The characters of the table. -/
theorem forall_of_le {P : UInt16 → Prop} (h : ∀ n < 128, P (UInt16.ofNat n)) {c : UInt16} (hc : c ≤ 127) : P c := by
  have hlt : c.toNat < 128 := by
    have := UInt16.le_iff_toNat_le.mp hc
    simp at this
    omega
  simpa using h c.toNat hlt

theorem isWhiteSpace_of_le {c : UInt16} (h : c ≤ 127) : isWhiteSpace c = .ok (isBlank c) := by
  refine forall_of_le (P := fun c => isWhiteSpace c = .ok (isBlank c)) ?_ h
  decide

theorem isWhiteSpace_of_gt {c : UInt16} (h : ¬c ≤ 127) : isWhiteSpace c = .error (.runtime .indexOutOfBounds) := by
  rw [isWhiteSpace, DECODE, if_neg h]
  rfl

theorem getByte_eq (c : UInt16) :
    getByte c = match valueOf c with
      | some v => .ok v
      | none => .error (.base64 (.illegalCharacter c)) := by
  unfold getByte valueOf
  by_cases hle : c ≤ 127
  · rw [if_neg (UInt16.not_lt.mpr hle), if_pos hle, Base64Coder.DECODE]
    cases hvalue : Base64.webSafe.ofChar c.toUInt8 with
    | some v => rfl
    | none =>
      dsimp only
      split
      · rename_i hentry
        split at hentry <;> cases hentry
      · rfl
  · rw [if_pos (UInt16.not_le.mp hle), if_neg hle]

theorem valueOf_lt {c : UInt16} {v : Nat} (h : valueOf c = some v) : v < 64 := by
  by_cases hle : c ≤ 127
  · have hall : ∀ w ∈ valueOf c, w < 64 := by
      refine forall_of_le (P := fun c => ∀ w ∈ valueOf c, w < 64) ?_ hle
      decide
    exact hall v h
  · rw [valueOf, if_neg hle] at h
    cases h

theorem lt_of_getByte {c : UInt16} {v : Nat} (h : getByte c = .ok v) : v < 64 := by
  rw [getByte_eq] at h
  cases hvalue : valueOf c with
  | none =>
    rw [hvalue] at h
    cases h
  | some w =>
    rw [hvalue] at h
    cases h
    exact valueOf_lt hvalue

/-! ## The decoding loop -/

/-- What is not whitespace. -/
def data (s : Text) : Text := s.filter fun c => !isBlank c

theorem data_cons_of_blank {c : UInt16} (h : isBlank c = true) (s : Text) : data (c :: s) = data s := by simp [data, h]

theorem data_cons_of_not_blank {c : UInt16} (h : isBlank c = false) (s : Text) : data (c :: s) = c :: data s := by simp [data, h]

/-- A value goes through the body of the loop. -/
def Decoding.push (s : Decoding) (v : Nat) : Except Thrown Decoding := (s.shift v).write

/-- There is room in the `n` bytes of the output for what `m` more values are written as. -/
structure Decoding.Ready (s : Decoding) (n m : Nat) : Prop where
  buffCount_lt : s.buffCount < 4
  room : ∃ w, s.out.Holds n w ∧ w.length + 3 * ((s.buffCount + m) / 4) ≤ n

theorem Decoding.write_of_lt {s : Decoding} (h : s.buffCount < 4) : s.write = .ok s := by
  rw [Decoding.write, if_neg (Nat.ne_of_lt h)]
  rfl

/-- Three bytes are written where there is room for them. -/
theorem Decoding.write_of_full {s : Decoding} {n : Nat} {w : Bytes} (h : s.out.Holds n w) (hcount : s.buffCount = 4)
    (hroom : w.length + 3 ≤ n) :
    ∃ out, s.write = .ok { out } ∧
      out.Holds n (w ++ [UInt8.ofNat (s.buffer >>> 16), UInt8.ofNat (s.buffer >>> 8), UInt8.ofNat s.buffer]) := by
  obtain ⟨out₁, hput₁, h₁⟩ := put_holds h (by omega) (UInt8.ofNat (s.buffer >>> 16))
  obtain ⟨out₂, hput₂, h₂⟩ := put_holds h₁ (by simp; omega) (UInt8.ofNat (s.buffer >>> 8))
  obtain ⟨out₃, hput₃, h₃⟩ := put_holds h₂ (by simp; omega) (UInt8.ofNat s.buffer)
  refine ⟨out₃, ?_, by simpa using h₃⟩
  rw [Decoding.write, if_pos hcount, hput₁, Throwing.ok_bind, hput₂, Throwing.ok_bind, hput₃, Throwing.ok_bind]
  rfl

theorem Decoding.Ready.push {s : Decoding} {n m : Nat} (h : s.Ready n (m + 1)) (v : Nat) :
    ∃ s', s.push v = .ok s' ∧ s'.Ready n m := by
  obtain ⟨hlt, w, hw, hroom⟩ := h
  rcases Nat.lt_or_ge (s.buffCount + 1) 4 with hsmall | hfull
  · refine ⟨s.shift v, Decoding.write_of_lt hsmall, hsmall, w, hw, ?_⟩
    show w.length + 3 * ((s.buffCount + 1 + m) / 4) ≤ n
    rw [Nat.add_assoc, Nat.add_comm 1 m]
    exact hroom
  · have hcount : (s.shift v).buffCount = 4 := by
      show s.buffCount + 1 = 4
      omega
    obtain ⟨out, hwrite, hout⟩ := Decoding.write_of_full (s := s.shift v) hw hcount (by omega)
    refine ⟨_, hwrite, by simp, _, hout, ?_⟩
    simp
    omega

/-- The loop runs over the characters one after another. -/
theorem decodeLoop_eq_foldlM {input : Text} {left i : Nat} (h : i + left ≤ input.length) (s : Decoding) :
    decodeLoop input left i s = ((input.drop i).take left).foldlM Decoding.step s := by
  induction left generalizing i s with
  | zero => rfl
  | succ left ih =>
    have hlt : i < input.length := by omega
    rw [decodeLoop, get_natCast (List.getElem?_eq_getElem hlt), Throwing.ok_bind, List.drop_eq_getElem_cons hlt, List.take_succ_cons,
      List.foldlM_cons]
    refine congrArg _ (funext fun s' => ?_)
    exact ih (by omega) s'

/-- The loop takes the values of the characters that are not whitespace, and pushes them. -/
theorem foldlM_step {l : Text} (hl : ∀ c ∈ l, c ≤ 127) {s : Decoding} {n : Nat} (h : s.Ready n (data l).length) :
    l.foldlM Decoding.step s = (data l).mapM getByte >>= fun vs => vs.foldlM Decoding.push s := by
  induction l generalizing s with
  | nil => rfl
  | cons c l ih =>
    have hl' : ∀ d ∈ l, d ≤ 127 := fun d hd => hl d (List.mem_cons_of_mem c hd)
    rw [List.foldlM_cons, Decoding.step, isWhiteSpace_of_le (hl c List.mem_cons_self), Throwing.ok_bind]
    cases hblank : isBlank c with
    | true =>
      rw [data_cons_of_blank hblank] at h ⊢
      rw [if_pos rfl, Decoding.write_of_lt h.buffCount_lt, Throwing.ok_bind]
      exact ih hl' h
    | false =>
      rw [data_cons_of_not_blank hblank] at h ⊢
      rw [if_neg Bool.false_ne_true, List.mapM_cons]
      cases hbyte : getByte c with
      | error e => rfl
      | ok v =>
        obtain ⟨s', hpush, hready⟩ := h.push v
        have hrest := ih hl' hready
        rw [Throwing.ok_bind, Throwing.ok_bind]
        show s.push v >>= _ = _
        rw [hpush, Throwing.ok_bind, hrest]
        cases hvalues : (data l).mapM getByte with
        | error e => rfl
        | ok vs =>
          show vs.foldlM Decoding.push s' = (v :: vs).foldlM Decoding.push s
          rw [List.foldlM_cons, hpush, Throwing.ok_bind]

theorem Decoding.shift_eq (s : Decoding) {v : Nat} (h : v < 64) :
    s.shift v = { s with buffer := s.buffer * 64 + v, buffCount := s.buffCount + 1 } := by
  rw [Decoding.shift, ← Nat.shiftLeft_add_eq_or_of_lt (show v < 2 ^ 6 from h), Nat.shiftLeft_eq]

/-- Up to three values are kept in the buffer. -/
theorem Decoding.push_of_lt {s : Decoding} {v : Nat} (h : v < 64) (hcount : s.buffCount < 3) :
    s.push v = .ok { s with buffer := s.buffer * 64 + v, buffCount := s.buffCount + 1 } := by
  rw [Decoding.push, Decoding.shift_eq s h, Decoding.write_of_lt (by dsimp only; omega)]

theorem foldlM_few {vs : List Nat} (hvs : ∀ v ∈ vs, v < 64) {s : Decoding} (hcount : s.buffCount + vs.length ≤ 3) :
    vs.foldlM Decoding.push s =
      .ok { s with buffer := vs.foldl (fun buffer v => buffer * 64 + v) s.buffer, buffCount := s.buffCount + vs.length } := by
  induction vs generalizing s with
  | nil => rfl
  | cons v vs ih =>
    rw [List.length_cons] at hcount
    rw [List.foldlM_cons, Decoding.push_of_lt (hvs v List.mem_cons_self) (by omega), Throwing.ok_bind,
      ih (fun u hu => hvs u (List.mem_cons_of_mem v hu)) (by dsimp only; omega)]
    simp only [List.foldl_cons, List.length_cons, Nat.add_assoc, Nat.add_comm 1]

/-- The fourth value is written with them. -/
theorem Decoding.push_fourth {s : Decoding} {v : Nat} (h : v < 64) {n : Nat} {w : Bytes} (hw : s.out.Holds n w)
    (hcount : s.buffCount = 3) (hroom : w.length + 3 ≤ n) :
    ∃ out, s.push v = .ok { out } ∧
      out.Holds n (w ++ [UInt8.ofNat ((s.buffer * 64 + v) / 2 ^ 16), UInt8.ofNat ((s.buffer * 64 + v) / 2 ^ 8),
        UInt8.ofNat (s.buffer * 64 + v)]) := by
  have hfull : s.buffCount + 1 = 4 := by omega
  obtain ⟨out, hwrite, hout⟩ := Decoding.write_of_full
    (s := { s with buffer := s.buffer * 64 + v, buffCount := s.buffCount + 1 }) hw hfull hroom
  refine ⟨out, by rw [Decoding.push, Decoding.shift_eq s h, hwrite], ?_⟩
  simpa only [Nat.shiftRight_eq_div_pow] using hout

/-- What values stand for; a single one behind the groups of four stands for nothing. -/
def bytesOf (vs : List Nat) : Bytes := (Base64.ofSextets vs).getD []

theorem bytesOf_four (i j k l : Nat) {rest : List Nat} (h : rest.length % 4 ≠ 1) :
    bytesOf (i :: j :: k :: l :: rest) =
      UInt8.ofNat (i * 4 + j / 16) :: UInt8.ofNat (j % 16 * 16 + k / 4) :: UInt8.ofNat (k % 4 * 64 + l) :: bytesOf rest := by
  obtain ⟨bytes, hbytes⟩ : ∃ bytes, Base64.ofSextets rest = some bytes := by
    induction rest using Base64.ofSextets.induct with
    | case1 i j k l rest ih =>
      obtain ⟨bytes, hbytes⟩ := ih (by simp at h; omega)
      exact ⟨_, by rw [Base64.ofSextets, hbytes]; rfl⟩
    | case2 i j k => exact ⟨_, rfl⟩
    | case3 i j => exact ⟨_, rfl⟩
    | case4 i => simp at h
    | case5 => exact ⟨_, rfl⟩
  simp [bytesOf, Base64.ofSextets, hbytes]

theorem length_bytesOf {vs : List Nat} (h : vs.length % 4 ≠ 1) : (bytesOf vs).length = vs.length * 3 / 4 := by
  induction vs using Base64.ofSextets.induct with
  | case1 i j k l rest ih =>
    simp only [List.length_cons] at h
    have ih := ih (by omega)
    rw [bytesOf_four i j k l (by omega)]
    simp only [List.length_cons, ih]
    omega
  | case2 i j k => simp [bytesOf, Base64.ofSextets]
  | case3 i j => simp [bytesOf, Base64.ofSextets]
  | case4 i => simp at h
  | case5 => rfl

/-- Bytes are equal when their numbers agree up to the ninth bit. -/
theorem ofNat_congr {m n : Nat} (h : m % 256 = n % 256) : UInt8.ofNat m = UInt8.ofNat n := by
  apply UInt8.toNat_inj.mp
  rw [UInt8.toNat_ofNat', UInt8.toNat_ofNat']
  exact h

/-- Values that are pushed into an empty buffer are written as the bytes that they stand for. -/
theorem foldlM_push {vs : List Nat} (hvs : ∀ v ∈ vs, v < 64) (hlength : vs.length % 4 ≠ 1) {out : Slots UInt8} {n : Nat} {w : Bytes}
    (h : out.Holds n w) (hroom : w.length + vs.length * 3 / 4 ≤ n) :
    ∃ s' out', vs.foldlM Decoding.push { out } = .ok s' ∧ s'.flush = .ok out' ∧ out'.Holds n (w ++ bytesOf vs) := by
  induction vs using Base64.ofSextets.induct generalizing out w with
  | case1 i j k l rest ih =>
    have hl : l < 64 := hvs l (by simp)
    have hrest : ∀ v ∈ rest, v < 64 := fun v hv => hvs v (by simp [hv])
    have hthree : ∀ v ∈ [i, j, k], v < 64 := fun v hv => hvs v (by simp at hv ⊢; tauto)
    have hj := hthree j (by simp)
    have hk := hthree k (by simp)
    simp only [List.length_cons] at hlength hroom
    have hfew := foldlM_few hthree (s := { out }) (by simp)
    obtain ⟨out₁, hfourth, h₁⟩ := Decoding.push_fourth
      (s := { out, buffer := [i, j, k].foldl (fun buffer v => buffer * 64 + v) 0, buffCount := 0 + [i, j, k].length }) hl h rfl
      (by omega)
    obtain ⟨s', out', hfold, hflush, hout⟩ := ih hrest (by omega) h₁ (by simp; omega)
    refine ⟨s', out', ?_, hflush, ?_⟩
    · show ([i, j, k] ++ l :: rest).foldlM Decoding.push { out } = .ok s'
      rw [List.foldlM_append, hfew, Throwing.ok_bind, List.foldlM_cons, hfourth, Throwing.ok_bind, hfold]
    · rw [bytesOf_four i j k l (by omega)]
      simp only [List.append_assoc, List.cons_append, List.nil_append, List.foldl_cons, List.foldl_nil] at hout
      have hfirst : UInt8.ofNat (((((0 * 64 + i) * 64 + j) * 64 + k) * 64 + l) / 2 ^ 16) = UInt8.ofNat (i * 4 + j / 16) :=
        ofNat_congr (by omega)
      have hsecond : UInt8.ofNat (((((0 * 64 + i) * 64 + j) * 64 + k) * 64 + l) / 2 ^ 8) = UInt8.ofNat (j % 16 * 16 + k / 4) :=
        ofNat_congr (by omega)
      have hthird : UInt8.ofNat ((((0 * 64 + i) * 64 + j) * 64 + k) * 64 + l) = UInt8.ofNat (k % 4 * 64 + l) := ofNat_congr (by omega)
      rw [hfirst, hsecond, hthird] at hout
      exact hout
  | case2 i j k =>
    have hk := hvs k (by simp)
    simp only [List.length_cons, List.length_nil] at hroom
    obtain ⟨out₁, hput₁, h₁⟩ := put_holds h (by omega) (UInt8.ofNat ((((0 * 64 + i) * 64 + j) * 64 + k) >>> 10))
    obtain ⟨out₂, hput₂, h₂⟩ := put_holds h₁ (by simp; omega) (UInt8.ofNat ((((0 * 64 + i) * 64 + j) * 64 + k) >>> 2))
    refine ⟨_, out₂, foldlM_few hvs (s := { out }) (by simp), ?_, ?_⟩
    · show put (UInt8.ofNat ((((0 * 64 + i) * 64 + j) * 64 + k) >>> 10)) out >>= _ = .ok out₂
      rw [hput₁, Throwing.ok_bind]
      exact hput₂
    · have hfirst : UInt8.ofNat ((((0 * 64 + i) * 64 + j) * 64 + k) / 2 ^ 10) = UInt8.ofNat (i * 4 + j / 16) := ofNat_congr (by omega)
      have hsecond : UInt8.ofNat ((((0 * 64 + i) * 64 + j) * 64 + k) / 2 ^ 2) = UInt8.ofNat (j % 16 * 16 + k / 4) :=
        ofNat_congr (by omega)
      rw [Nat.shiftRight_eq_div_pow, Nat.shiftRight_eq_div_pow, hfirst, hsecond, List.append_assoc] at h₂
      exact h₂
  | case3 i j =>
    have hj := hvs j (by simp)
    simp only [List.length_cons, List.length_nil] at hroom
    obtain ⟨out₁, hput₁, h₁⟩ := put_holds h (by omega) (UInt8.ofNat (((0 * 64 + i) * 64 + j) >>> 4))
    refine ⟨_, out₁, foldlM_few hvs (s := { out }) (by simp), hput₁, ?_⟩
    have hfirst : UInt8.ofNat (((0 * 64 + i) * 64 + j) / 2 ^ 4) = UInt8.ofNat (i * 4 + j / 16) := ofNat_congr (by omega)
    rw [Nat.shiftRight_eq_div_pow, hfirst] at h₁
    exact h₁
  | case4 i => simp at hlength
  | case5 =>
    refine ⟨{ out }, out, rfl, rfl, ?_⟩
    simpa [bytesOf, Base64.ofSextets] using h

/-! ## The lengths -/

/-- A string without a padding character at its end. -/
def trimmed (s : Text) : Text := if s.getLast? = some 61 then s.dropLast else s

theorem trim_zero (input : Text) : trim input 0 = .error (.runtime .indexOutOfBounds) := by
  rw [trim, get_neg input (by decide)]
  rfl

/-- Trimming takes the padding character off the characters that are left. -/
theorem trim_natCast {input : Text} {k : Nat} (hpos : 0 < k) (hle : k ≤ input.length) :
    ∃ j ≤ k, trim input k = .ok (j : Int) ∧ trimmed (input.take k) = input.take j := by
  have hlt : k - 1 < input.length := by omega
  have hindex : ((k : Int) - 1) = ((k - 1 : Nat) : Int) := by omega
  have hlast : (input.take k).getLast? = some input[k - 1] := by
    rw [List.getLast?_eq_getElem?, List.length_take_of_le hle, List.getElem?_take_of_lt (by omega), List.getElem?_eq_getElem hlt]
  unfold trim trimmed
  rw [hindex, get_natCast (List.getElem?_eq_getElem hlt), hlast, Throwing.ok_bind]
  by_cases hpad : input[k - 1] = 61
  · refine ⟨k - 1, Nat.sub_le k 1, by rw [if_pos hpad]; rfl, ?_⟩
    rw [if_pos (congrArg some hpad), List.dropLast_eq_take, List.length_take_of_le hle, List.take_take, Nat.min_eq_left (by omega)]
  · refine ⟨k, Nat.le_refl k, ?_, ?_⟩
    · rw [if_neg hpad]
      rfl
    · rw [if_neg fun h => hpad (Option.some.inj h)]

/-- Trimming cuts off nothing but a padding character. -/
theorem trimmed_cases (s : Text) : s = trimmed s ∨ s = trimmed s ++ [61] := by
  unfold trimmed
  split
  · rename_i hlast
    right
    exact (List.dropLast_append_getLast? 61 hlast).symm
  · left
    rfl

theorem countWhiteSpace_of_le {s : Text} (hs : ∀ c ∈ s, c ≤ 127) : countWhiteSpace s = .ok ((s.countP isBlank : Nat) : Int) := by
  have hgeneral : ∀ n : Nat, s.foldlM (fun whiteSpaceChars c => do
      let blank ← isWhiteSpace c
      return if blank then whiteSpaceChars + 1 else whiteSpaceChars) (n : Int) = (.ok ((n + s.countP isBlank : Nat) : Int) :
        Except Thrown Int) := by
    induction s with
    | nil => intro n; rfl
    | cons c s ih =>
      intro n
      have ih := ih fun d hd => hs d (List.mem_cons_of_mem c hd)
      rw [List.foldlM_cons, isWhiteSpace_of_le (hs c List.mem_cons_self), Throwing.ok_bind]
      cases hblank : isBlank c with
      | true =>
        rw [List.countP_cons_of_pos hblank, Nat.add_comm _ 1, ← Nat.add_assoc]
        exact ih (n + 1)
      | false =>
        rw [List.countP_cons_of_neg (by simp [hblank])]
        exact ih n
  have hzero := hgeneral 0
  rw [Nat.zero_add] at hzero
  exact hzero

/-- A character behind the table stops the count. -/
theorem countWhiteSpace_of_gt {s : Text} (hs : ¬∀ c ∈ s, c ≤ 127) : countWhiteSpace s = .error (.runtime .indexOutOfBounds) := by
  unfold countWhiteSpace
  generalize (0 : Int) = n
  induction s generalizing n with
  | nil => exact absurd (fun c hc => absurd hc List.not_mem_nil) hs
  | cons c s ih =>
    rw [List.foldlM_cons]
    by_cases hc : c ≤ 127
    · have hs' : ¬∀ d ∈ s, d ≤ 127 := fun h => hs (List.forall_mem_cons.mpr ⟨hc, h⟩)
      rw [isWhiteSpace_of_le hc, Throwing.ok_bind]
      exact ih hs' _
    · rw [isWhiteSpace_of_gt hc]
      rfl

/-- The output is as long as the bytes that the values stand for. -/
theorem outputLength_natCast {m : Nat} (h : m % 4 ≠ 1) : outputLength (m : Int) = .ok ((m * 3 / 4 : Nat) : Int) := by
  have hdiv : (m : Int).tdiv 4 = ((m / 4 : Nat) : Int) := rfl
  have hmod : (m : Int).tmod 4 = ((m % 4 : Nat) : Int) := rfl
  have hlt : m % 4 < 4 := Nat.mod_lt m (by decide)
  simp only [outputLength, hdiv, hmod]
  rw [if_neg (by omega)]
  split
  · congr 1
    omega
  · split <;> congr 1 <;> omega

theorem outputLength_of_one {m : Nat} (h : m % 4 = 1) : outputLength (m : Int) = .error (.base64 (.illegalLength m)) := by
  have hmod : (m : Int).tmod 4 = ((m % 4 : Nat) : Int) := rfl
  simp only [outputLength, hmod]
  rw [if_pos (by omega)]

theorem trimmed_ne_nil {s : Text} (hne : s ≠ []) (hpad : s ≠ [61]) : trimmed s ≠ [] := by
  intro hnil
  rcases trimmed_cases s with hs | hs
  · exact hne (hs.trans hnil)
  · rw [hnil] at hs
    exact hpad hs

theorem mem_of_mem_trimmed {s : Text} {c : UInt16} (h : c ∈ trimmed s) : c ∈ s := by
  rcases trimmed_cases s with hs | hs
  · rw [hs]
    exact h
  · rw [hs]
    exact List.mem_append_left _ h

theorem countP_trimmed (s : Text) : (trimmed s).countP isBlank = s.countP isBlank := by
  have hpad : [(61 : UInt16)].countP isBlank = 0 := by decide
  rcases trimmed_cases s with hs | hs
  · rw [← hs]
  · calc (trimmed s).countP isBlank = (trimmed s).countP isBlank + [(61 : UInt16)].countP isBlank := by rw [hpad, Nat.add_zero]
      _ = s.countP isBlank := by rw [← List.countP_append, ← hs]

theorem length_data (s : Text) : (data s).length + s.countP isBlank = s.length := by
  have hsplit := List.length_eq_countP_add_countP isBlank (l := s)
  simp only [Bool.not_eq_true, Bool.decide_eq_false] at hsplit
  rw [data, ← List.countP_eq_length_filter]
  omega

/-! ## What is decoded -/

/-- What is left of a string: the padding is trimmed, then the whitespace is ignored. -/
def payload (s : Text) : Text := data (trimmed (trimmed s))

theorem length_payload (s : Text) : (payload s).length + s.countP isBlank = (trimmed (trimmed s)).length := by
  rw [← countP_trimmed s, ← countP_trimmed (trimmed s)]
  exact length_data _

/-- The values of characters that all have one. -/
theorem mapM_getByte_eq_ok {l : Text} {vs : List Nat} : l.mapM getByte = .ok vs ↔ l.map valueOf = vs.map some := by
  induction l generalizing vs with
  | nil =>
    cases vs with
    | nil => simp [pure, Except.pure]
    | cons v vs => simp [pure, Except.pure]
  | cons c l ih =>
    rw [List.mapM_cons, getByte_eq]
    cases hvalue : valueOf c with
    | none =>
      constructor
      · intro h
        cases h
      · intro h
        cases vs <;> simp [hvalue] at h
    | some v =>
      constructor
      · intro h
        change (l.mapM getByte >>= fun ws => pure (v :: ws)) = .ok vs at h
        obtain ⟨ws, hws, hvs⟩ := Throwing.ok_of_bind h
        cases hvs
        simp [hvalue, ih.mp hws]
      · intro h
        cases vs with
        | nil => cases h
        | cons w ws =>
          simp only [List.map_cons, hvalue, List.cons.injEq, Option.some.injEq] at h
          obtain ⟨rfl, hws⟩ := h
          show (l.mapM getByte >>= fun ws => pure (v :: ws)) = .ok (v :: ws)
          rw [ih.mpr hws]
          rfl

/-- The first character without a value is what is thrown. -/
theorem mapM_getByte_cases (l : Text) :
    (∃ vs, l.mapM getByte = .ok vs) ∨ ∃ c ∈ l, valueOf c = none ∧ l.mapM getByte = .error (.base64 (.illegalCharacter c)) := by
  induction l with
  | nil => exact Or.inl ⟨[], rfl⟩
  | cons c l ih =>
    rw [List.mapM_cons, getByte_eq]
    cases hvalue : valueOf c with
    | none =>
      right
      exact ⟨c, List.mem_cons_self, hvalue, rfl⟩
    | some v =>
      rcases ih with ⟨vs, hvs⟩ | ⟨d, hd, hnone, herror⟩
      · left
        exact ⟨v :: vs, by rw [hvs]; rfl⟩
      · right
        exact ⟨d, List.mem_cons_of_mem c hd, hnone, by rw [herror]; rfl⟩

theorem length_of_mapM {l : Text} {vs : List Nat} (h : l.mapM getByte = .ok vs) : vs.length = l.length := by
  have hlength := congrArg List.length (mapM_getByte_eq_ok.mp h)
  rw [List.length_map, List.length_map] at hlength
  exact hlength.symm

theorem lt_of_mapM {l : Text} {vs : List Nat} (h : l.mapM getByte = .ok vs) : ∀ v ∈ vs, v < 64 := by
  intro v hv
  have hmem : some v ∈ l.map valueOf := by
    rw [mapM_getByte_eq_ok.mp h]
    exact List.mem_map_of_mem hv
  obtain ⟨c, -, hc⟩ := List.mem_map.mp hmem
  exact valueOf_lt hc

/-- The loop and what is behind it, over the first characters of a string. -/
theorem decodeLoop_flush {s : Text} (hs : ∀ c ∈ s, c ≤ 127) {j : Nat} (hj : j ≤ s.length) (hone : (data (s.take j)).length % 4 ≠ 1) :
    (do
      let st ← decodeLoop s j 0 { out := Slots.new 0 ((data (s.take j)).length * 3 / 4) }
      let out ← st.flush
      return out.cells) = (data (s.take j)).mapM getByte >>= fun vs => .ok (bytesOf vs) := by
  have hholds := Slots.holds_new (0 : UInt8) ((data (s.take j)).length * 3 / 4)
  have hready : Decoding.Ready { out := Slots.new 0 ((data (s.take j)).length * 3 / 4) } ((data (s.take j)).length * 3 / 4)
      (data (s.take j)).length := ⟨Nat.zero_lt_succ 3, [], hholds, by simp; omega⟩
  rw [decodeLoop_eq_foldlM (by omega), List.drop_zero, foldlM_step (fun c hc => hs c (List.mem_of_mem_take hc)) hready]
  cases hvs : (data (s.take j)).mapM getByte with
  | error e => rfl
  | ok vs =>
    have hlength := length_of_mapM hvs
    obtain ⟨st, out, hfold, hflush, hout⟩ := foldlM_push (lt_of_mapM hvs) (by rw [hlength]; exact hone) hholds
      (by rw [hlength]; simp)
    have hcells := hout.cells_eq (by rw [List.nil_append, length_bytesOf (by rw [hlength]; exact hone), hlength])
    rw [Throwing.ok_bind, hfold, Throwing.ok_bind, hflush, Throwing.ok_bind, Throwing.ok_bind, hcells]
    rfl

/-- The decoder on a string that has something to look at for padding, of characters that the table has. -/
theorem decodeWebSafe_eq {s : Text} (hne : s ≠ []) (hpad : s ≠ [61]) (hs : ∀ c ∈ s, c ≤ 127) :
    decodeWebSafe s =
      if (payload s).length % 4 = 1 then .error (.base64 (.illegalLength (payload s).length))
      else (payload s).mapM getByte >>= fun vs => .ok (bytesOf vs) := by
  obtain ⟨i, hi, htrim, htrimmed⟩ := trim_natCast (List.length_pos_iff.mpr hne) (Nat.le_refl _)
  rw [List.take_length] at htrimmed
  have hi0 : 0 < i := by
    have hpos := List.length_pos_iff.mpr (trimmed_ne_nil hne hpad)
    rw [htrimmed, List.length_take] at hpos
    omega
  obtain ⟨j, hj, htrim', htrimmed'⟩ := trim_natCast hi0 hi
  rw [← htrimmed] at htrimmed'
  have hsum := length_payload s
  rw [htrimmed', List.length_take_of_le (hj.trans hi)] at hsum
  have hleft : (j : Int) - (s.countP isBlank : Nat) = ((payload s).length : Nat) := by omega
  have hend : (((payload s).length : Int) + (s.countP isBlank : Nat)).toNat = j := by omega
  have hpayload : payload s = data (s.take j) := by rw [payload, htrimmed']
  simp only [decodeWebSafe, htrim, htrim', countWhiteSpace_of_le hs, Throwing.ok_bind, hleft, hend]
  by_cases hone : (payload s).length % 4 = 1
  · rw [if_pos hone, outputLength_of_one hone]
    rfl
  · rw [if_neg hone, outputLength_natCast hone, Throwing.ok_bind, newArray_natCast, Throwing.ok_bind, hpayload]
    rw [hpayload] at hone
    exact decodeLoop_flush hs (hj.trans hi) hone

/-- A character that the table does not have is found when whitespace is counted. -/
theorem decodeWebSafe_of_gt {s : Text} (hs : ¬∀ c ∈ s, c ≤ 127) : decodeWebSafe s = .error (.runtime .indexOutOfBounds) := by
  have hne : s ≠ [] := by
    rintro rfl
    simp at hs
  obtain ⟨i, hi, htrim, -⟩ := trim_natCast (List.length_pos_iff.mpr hne) (Nat.le_refl _)
  rw [decodeWebSafe, htrim, Throwing.ok_bind]
  rcases Nat.eq_zero_or_pos i with rfl | hi0
  · rw [Nat.cast_zero, trim_zero]
    rfl
  · obtain ⟨j, -, htrim', -⟩ := trim_natCast hi0 hi
    rw [htrim', Throwing.ok_bind, countWhiteSpace_of_gt hs]
    rfl

end Base64Strings

end Java
