import Keyczar.Lib.Base64

/-!
# Reading base 64 with other characters between

A scan over characters that shifts in the values of those that have one, skips those that have none, and ends at a padding character
that completes a group of four. What it has read when it stands between two groups does not matter for what follows.
-/

namespace Base64Scan

open Bytes

/-- Where a scan stands: how many values it has had since the last group of four, and the bits of them that are no byte yet. -/
structure State where
  quadPos : Nat := 0
  leftchar : Nat := 0
  leftbits : Nat := 0
  deriving DecidableEq, Repr

/-- The values of the characters, and a padding character, which has none. -/
structure Table where
  value : UInt8 → Option Nat
  pad : UInt8
  value_pad : value pad = none

variable (T : Table)

/-- A character that counts when the scan looks ahead. -/
def Table.valid (c : UInt8) : Bool := (T.value c).isSome || c = T.pad

/-- The character that counts behind `num` that do. -/
def findValid (s : Bytes) (num : Nat) : Option UInt8 := (s.filter T.valid)[num]?

/-- Shift a value in on the low end: a byte when there are bits enough. -/
def shift (st : State) (v : Nat) : Bytes × State :=
  let quadPos := (st.quadPos + 1) % 4
  let leftchar := st.leftchar * 64 + v
  let leftbits := st.leftbits + 6
  if 8 ≤ leftbits then
    ([UInt8.ofNat (leftchar / 2 ^ (leftbits - 8))], { quadPos, leftchar := leftchar % 2 ^ (leftbits - 8), leftbits := leftbits - 8 })
  else ([], { quadPos, leftchar, leftbits })

/-- The bytes of a string, and where the scan stands at its end; `none` when it has ended at a padding character. -/
def scan : State → Bytes → Bytes × Option State
  | st, [] => ([], some st)
  | st, c :: s =>
    if c = T.pad then
      if st.quadPos < 2 ∨ st.quadPos = 2 ∧ findValid T (c :: s) 1 ≠ some T.pad then scan st s else ([], none)
    else match T.value c with
      | none => scan st s
      | some v => ((shift st v).1 ++ (scan (shift st v).2 s).1, (scan (shift st v).2 s).2)

/-- The bytes of a string; `none` when bits are left over at its end. -/
def decode (s : Bytes) : Option Bytes :=
  match scan T {} s with
  | (bytes, none) => some bytes
  | (bytes, some st) => if st.leftbits = 0 then some bytes else none

variable {T}

/-- Behind a padding character the next character that counts is the first of the rest. -/
theorem findValid_pad (s : Bytes) : findValid T (T.pad :: s) 1 = (s.filter T.valid)[0]? := by
  simp [findValid, Table.valid]

/-- Without a character that counts the scan stays where it is. -/
theorem scan_of_filter_nil {s : Bytes} (h : s.filter T.valid = []) (st : State) : scan T st s = ([], some st) := by
  induction s with
  | nil => rfl
  | cons c s ih =>
    have hc : T.valid c = false := by
      by_contra hc
      rw [Bool.not_eq_false] at hc
      rw [List.filter_cons_of_pos hc] at h
      cases h
    rw [List.filter_cons_of_neg (by rw [hc]; exact Bool.false_ne_true)] at h
    simp only [Table.valid, Bool.or_eq_false_iff, decide_eq_false_iff_not, Option.isSome_eq_false_iff, Option.isNone_iff_eq_none] at hc
    rw [scan, if_neg hc.2, hc.1]
    exact ih h

/-- A scan that stands between two groups reads on as if nothing had been. -/
theorem scan_append {p : Bytes} {st : State} {bytes : Bytes} (h : scan T st p = (bytes, some {})) (s : Bytes) :
    scan T st (p ++ s) = (bytes ++ (scan T {} s).1, (scan T {} s).2) := by
  induction p generalizing st bytes with
  | nil =>
    cases h
    rfl
  | cons c p ih =>
    rw [List.cons_append, scan]
    rw [scan] at h
    by_cases hpad : c = T.pad
    · subst hpad
      rw [if_pos rfl] at h ⊢
      by_cases hskip : st.quadPos < 2 ∨ st.quadPos = 2 ∧ findValid T (T.pad :: p) 1 ≠ some T.pad
      · rw [if_pos hskip] at h
        -- a padding character that was skipped in the middle of a group has a value behind it
        have hskip' : st.quadPos < 2 ∨ st.quadPos = 2 ∧ findValid T (T.pad :: (p ++ s)) 1 ≠ some T.pad := by
          rcases hskip with hlt | ⟨heq, hnext⟩
          · exact Or.inl hlt
          · refine Or.inr ⟨heq, ?_⟩
            rw [findValid_pad] at hnext ⊢
            rw [List.filter_append]
            cases hp : p.filter T.valid with
            | nil =>
              rw [scan_of_filter_nil hp] at h
              cases h
              cases heq
            | cons d ds =>
              rw [hp] at hnext
              exact hnext
        rw [if_pos hskip']
        exact ih h
      · rw [if_neg hskip] at h
        cases h
    · rw [if_neg hpad] at h ⊢
      cases hvalue : T.value c with
      | none =>
        simp only [hvalue] at h ⊢
        exact ih h
      | some v =>
        simp only [hvalue] at h ⊢
        obtain ⟨hbytes, hfinal⟩ := Prod.mk.inj h
        have hstep := ih (Prod.ext rfl hfinal)
        rw [hstep, ← hbytes, List.append_assoc]

/-- There are no more bytes than values. -/
theorem length_scan_le (st : State) (s : Bytes) : (scan T st s).1.length ≤ (s.filter fun c => (T.value c).isSome).length := by
  induction s generalizing st with
  | nil => exact Nat.le_refl 0
  | cons c s ih =>
    rw [scan]
    by_cases hpad : c = T.pad
    · rw [if_pos hpad, List.filter_cons_of_neg (by rw [hpad, T.value_pad]; exact Bool.false_ne_true)]
      split
      · exact ih st
      · exact Nat.zero_le _
    · rw [if_neg hpad]
      cases hvalue : T.value c with
      | none =>
        rw [List.filter_cons_of_neg (by rw [hvalue]; exact Bool.false_ne_true)]
        exact ih st
      | some v =>
        have hshift : (shift st v).1.length ≤ 1 := by
          unfold shift
          by_cases hbits : 8 ≤ st.leftbits + 6
          · simp only [if_pos hbits]
            exact Nat.le_refl 1
          · simp only [if_neg hbits]
            exact Nat.zero_le 1
        rw [List.filter_cons_of_pos (by rw [hvalue]; rfl), List.length_append, List.length_cons]
        have hrest := ih (shift st v).2
        omega

theorem length_le_of_decode {s bytes : Bytes} (h : decode T s = some bytes) :
    bytes.length ≤ (s.filter fun c => (T.value c).isSome).length := by
  have hscan := length_scan_le (T := T) {} s
  unfold decode at h
  cases hs : scan T {} s with
  | mk out final =>
    rw [hs] at h hscan
    cases final with
    | none =>
      cases h
      exact hscan
    | some st =>
      dsimp only at h
      split at h
      · cases h
        exact hscan
      · cases h

/-- What was read up to a place between two groups is read by itself. -/
theorem decode_append {p : Bytes} {bytes : Bytes} (h : scan T {} p = (bytes, some {})) (s : Bytes) :
    decode T p = some bytes ∧ decode T (p ++ s) = (decode T s).map (bytes ++ ·) := by
  refine ⟨?_, ?_⟩
  · rw [decode, h]
    rfl
  · rw [decode, decode, scan_append h]
    cases hs : scan T {} s with
    | mk out final =>
      cases final with
      | none => rfl
      | some st =>
        dsimp only
        split
        · rfl
        · rfl

/-! ## Bits that are left over -/

/-- A scan that has had `n` values: whole groups of four leave no bits. -/
def State.Had (st : State) (n : Nat) : Prop := st.quadPos = n % 4 ∧ st.leftbits = 6 * n % 8

theorem State.had_shift {st : State} {n : Nat} (h : st.Had n) (v : Nat) : (shift st v).2.Had (n + 1) := by
  obtain ⟨hquad, hbits⟩ := h
  unfold shift
  by_cases hle : 8 ≤ st.leftbits + 6
  · simp only [if_pos hle]
    constructor
    · show (st.quadPos + 1) % 4 = _
      omega
    · show st.leftbits + 6 - 8 = _
      omega
  · simp only [if_neg hle]
    constructor
    · show (st.quadPos + 1) % 4 = _
      omega
    · show st.leftbits + 6 = _
      omega

/-- Without a padding character a scan goes to the end, having had the values of all characters, and reads on from there. -/
theorem scan_of_not_mem {s : Bytes} (hpad : T.pad ∉ s) {st : State} {n : Nat} (h : st.Had n) :
    ∃ (bytes : Bytes) (st' : State), st'.Had (n + (s.filter fun c => (T.value c).isSome).length) ∧
      ∀ t, scan T st (s ++ t) = (bytes ++ (scan T st' t).1, (scan T st' t).2) := by
  induction s generalizing st n with
  | nil => exact ⟨[], st, h, fun t => rfl⟩
  | cons c s ih =>
    obtain ⟨hc, hs⟩ := not_or.mp (List.mem_cons.not.mp hpad)
    cases hvalue : T.value c with
    | none =>
      obtain ⟨bytes, st', hhad, hscan⟩ := ih hs h
      refine ⟨bytes, st', ?_, ?_⟩
      · rw [List.filter_cons_of_neg (by rw [hvalue]; exact Bool.false_ne_true)]
        exact hhad
      · intro t
        rw [List.cons_append, scan, if_neg (Ne.symm hc), hvalue]
        exact hscan t
    | some v =>
      obtain ⟨bytes, st', hhad, hscan⟩ := ih hs (State.had_shift h v)
      refine ⟨(shift st v).1 ++ bytes, st', ?_, ?_⟩
      · rw [List.filter_cons_of_pos (by rw [hvalue]; rfl), List.length_cons, Nat.add_comm _ 1, ← Nat.add_assoc]
        exact hhad
      · intro t
        rw [List.cons_append, scan, if_neg (Ne.symm hc), hvalue]
        dsimp only
        rw [hscan t, List.append_assoc]

/-- Padding characters behind the first value of a group are skipped. -/
theorem scan_pads {st : State} (h : st.quadPos < 2) {t : Bytes} (ht : ∀ c ∈ t, c = T.pad) : scan T st t = ([], some st) := by
  induction t with
  | nil => rfl
  | cons c t ih =>
    obtain ⟨rfl, hrest⟩ := List.forall_mem_cons.mp ht
    rw [scan, if_pos rfl, if_pos (Or.inl h)]
    exact ih hrest

/-- A string with one value more than a multiple of four has bits left over, however it is padded. -/
theorem decode_eq_none {s t : Bytes} (hpad : T.pad ∉ s) (hcount : (s.filter fun c => (T.value c).isSome).length % 4 = 1)
    (ht : ∀ c ∈ t, c = T.pad) : decode T (s ++ t) = none := by
  have hstart : State.Had {} 0 := ⟨rfl, rfl⟩
  obtain ⟨bytes, st', ⟨hquad, hbits⟩, hscan⟩ := scan_of_not_mem hpad hstart
  rw [Nat.zero_add] at hquad hbits
  have hleft : st'.leftbits ≠ 0 := by omega
  rw [decode, hscan, scan_pads (by omega) ht]
  dsimp only
  rw [if_neg hleft]

/-! ## Reading what was encoded -/

/-- The table has the values of an alphabet. -/
def Table.Reads (T : Table) (α : Base64.Alphabet) : Prop := ∀ i < 64, T.value (α.toChar i) = some i

/-- The padding that fills up the last group of `n` characters. -/
def padding (T : Table) (n : Nat) : Bytes := if n % 4 = 2 then [T.pad, T.pad] else if n % 4 = 3 then [T.pad] else []

theorem scan_toChar {α : Base64.Alphabet} (h : T.Reads α) {i : Nat} (hi : i < 64) (st : State) (s : Bytes) :
    scan T st (α.toChar i :: s) = ((shift st i).1 ++ (scan T (shift st i).2 s).1, (scan T (shift st i).2 s).2) := by
  have hpad : α.toChar i ≠ T.pad := by
    intro hpad
    have hvalue := h i hi
    rw [hpad, T.value_pad] at hvalue
    cases hvalue
  rw [scan, if_neg hpad, h i hi]

/-- A padding character behind three values, or the first of two behind two, ends the scan. -/
theorem scan_pad {st : State} {s : Bytes} (h : ¬(st.quadPos < 2 ∨ st.quadPos = 2 ∧ findValid T (T.pad :: s) 1 ≠ some T.pad)) :
    scan T st (T.pad :: s) = ([], none) := by
  rw [scan, if_pos rfl, if_neg h]

theorem shift_first (i : Nat) : shift {} i = ([], ⟨1, i, 6⟩) := by
  simp [shift]

theorem shift_second (i j : Nat) : shift ⟨1, i, 6⟩ j = ([UInt8.ofNat ((i * 64 + j) / 16)], ⟨2, (i * 64 + j) % 16, 4⟩) := by
  simp [shift]

theorem shift_third (x k : Nat) : shift ⟨2, x, 4⟩ k = ([UInt8.ofNat ((x * 64 + k) / 4)], ⟨3, (x * 64 + k) % 4, 2⟩) := by
  simp [shift]

theorem shift_fourth (x l : Nat) : shift ⟨3, x, 2⟩ l = ([UInt8.ofNat (x * 64 + l)], {}) := by
  simp [shift, Nat.mod_one]

/-- A group of four characters gives its three bytes. -/
theorem scan_group {α : Base64.Alphabet} (h : T.Reads α) (a b c : UInt8) :
    scan T {} (Base64.encode α [a, b, c]) = ([a, b, c], some {}) := by
  have ha := a.toNat_lt
  have hb := b.toNat_lt
  have hc := c.toNat_lt
  simp only [Base64.encode]
  rw [scan_toChar h (by omega), shift_first, scan_toChar h (by omega), shift_second, scan_toChar h (by omega), shift_third,
    scan_toChar h (by omega), shift_fourth, scan]
  simp only [List.nil_append, List.append_nil, List.cons_append]
  rw [Base64.ofNat_eq (b := a), Base64.ofNat_eq (b := b), Base64.ofNat_eq (b := c)] <;> omega

/-- Decoding what was encoded and filled up gives what was encoded. -/
theorem decode_encode_padding {α : Base64.Alphabet} (h : T.Reads α) (s : Bytes) :
    decode T (Base64.encode α s ++ padding T (Base64.encode α s).length) = some s := by
  induction s using Base64.encode.induct with
  | case1 a b c rest ih =>
    have hlength : padding T (Base64.encode α (a :: b :: c :: rest)).length = padding T (Base64.encode α rest).length := by
      have hmod : (Base64.encode α (a :: b :: c :: rest)).length % 4 = (Base64.encode α rest).length % 4 := by
        simp only [Base64.encode, List.length_cons]
        omega
      rw [padding, hmod, padding]
    have hcons : Base64.encode α (a :: b :: c :: rest) = Base64.encode α [a, b, c] ++ Base64.encode α rest := by
      simp only [Base64.encode, List.cons_append, List.nil_append]
    rw [hlength, hcons, List.append_assoc, (decode_append (scan_group h a b c) _).2, ih]
    rfl
  | case2 a b =>
    have ha := a.toNat_lt
    have hb := b.toNat_lt
    have hpad : padding T (Base64.encode α [a, b]).length = [T.pad] := rfl
    rw [hpad, decode]
    simp only [Base64.encode, List.cons_append, List.nil_append]
    rw [scan_toChar h (by omega), shift_first, scan_toChar h (by omega), shift_second, scan_toChar h (by omega), shift_third,
      scan_pad (by simp)]
    simp only [List.nil_append, List.append_nil, List.cons_append]
    rw [Base64.ofNat_eq (b := a), Base64.ofNat_eq (b := b)] <;> omega
  | case3 a =>
    have ha := a.toNat_lt
    have hpad : padding T (Base64.encode α [a]).length = [T.pad, T.pad] := rfl
    rw [hpad, decode]
    simp only [Base64.encode, List.cons_append, List.nil_append]
    rw [scan_toChar h (by omega), shift_first, scan_toChar h (by omega), shift_second, scan_pad]
    · simp only [List.nil_append, List.append_nil]
      rw [Base64.ofNat_eq (b := a)]
      omega
    · rw [findValid_pad]
      simp [Table.valid]
  | case4 => rfl

end Base64Scan
