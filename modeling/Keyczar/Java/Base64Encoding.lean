import Keyczar.Java.Base64Decoding
import Mathlib.Data.List.DropRight

/-!
# Decoding what the base 64 encoder of the Java library encodes

A text with whitespace in it is decoded to the bytes it is the text of, as long as there is no whitespace behind its first padding
character: padding is trimmed at the very end of a string, before whitespace is ignored.
-/

namespace Java

namespace Base64Strings

open Bytes

/-! ## What is encoded -/

theorem ALPHABET_eq {v i : Nat} (h : v % 64 = i) : ALPHABET v = ofByte (Base64.webSafe.toChar i) := by
  have hand : v &&& 0x3F = v % 2 ^ 6 := Nat.and_two_pow_sub_one_eq_mod v 6
  rw [ALPHABET, hand, show (2 : Nat) ^ 6 = 64 from rfl, h]

theorem shift_or (a : UInt8) (b : UInt8) : a.toNat <<< 16 ||| b.toNat <<< 8 = (a.toNat * 256 + b.toNat) * 256 := by
  have hb := b.toNat_lt
  have hlt : b.toNat <<< 8 < 2 ^ 16 := by
    rw [Nat.shiftLeft_eq]
    omega
  rw [← Nat.shiftLeft_add_eq_or_of_lt hlt, Nat.shiftLeft_eq, Nat.shiftLeft_eq]
  omega

theorem shift_or_or (a b c : UInt8) :
    a.toNat <<< 16 ||| b.toNat <<< 8 ||| c.toNat = (a.toNat * 256 + b.toNat) * 256 + c.toNat := by
  have hc : c.toNat < 2 ^ 8 := c.toNat_lt
  have hshift : (a.toNat * 256 + b.toNat) * 256 = (a.toNat * 256 + b.toNat) <<< 8 := by rw [Nat.shiftLeft_eq]
  rw [shift_or, hshift, ← Nat.shiftLeft_add_eq_or_of_lt hc]

/-- The text of bytes. -/
def text (input : Bytes) : Text := (Base64.encode Base64.webSafe input).map ofByte

theorem length_text (input : Bytes) : (text input).length = (input.length * 4 + 2) / 3 := by
  rw [text, List.length_map, Base64.length_encode]

theorem get_of_drop {input l : Bytes} {inPos k : Nat} {x : UInt8} (hl : input.drop inPos = l) (hx : l[k]? = some x) {i : Int}
    (hi : i = ((inPos + k : Nat) : Int)) : get input i = .ok x := by
  rw [hi]
  refine get_natCast ?_
  rw [← List.getElem?_drop, hl, hx]

/-- Four characters are written for a block of three bytes. -/
theorem encodeLoop_block {input rest : Bytes} {a b c : UInt8} {inPos n : Nat} {out : Slots UInt16} {w : Text}
    (hl : input.drop inPos = a :: b :: c :: rest) (h : out.Holds n w) (hroom : w.length + 4 ≤ n) (blocks : Nat) :
    ∃ out', encodeLoop input (blocks + 1) inPos out = encodeLoop input blocks (inPos + 3) out' ∧
      out'.Holds n (w ++ [ofByte (Base64.webSafe.toChar (a.toNat / 4)),
        ofByte (Base64.webSafe.toChar (a.toNat % 4 * 16 + b.toNat / 16)),
        ofByte (Base64.webSafe.toChar (b.toNat % 16 * 4 + c.toNat / 64)), ofByte (Base64.webSafe.toChar (c.toNat % 64))]) := by
  have ha := a.toNat_lt
  have hb := b.toNat_lt
  have hc := c.toNat_lt
  obtain ⟨out₁, hput₁, h₁⟩ := put_holds h (by omega) (ofByte (Base64.webSafe.toChar (a.toNat / 4)))
  obtain ⟨out₂, hput₂, h₂⟩ := put_holds h₁ (by simp; omega) (ofByte (Base64.webSafe.toChar (a.toNat % 4 * 16 + b.toNat / 16)))
  obtain ⟨out₃, hput₃, h₃⟩ := put_holds h₂ (by simp; omega) (ofByte (Base64.webSafe.toChar (b.toNat % 16 * 4 + c.toNat / 64)))
  obtain ⟨out₄, hput₄, h₄⟩ := put_holds h₃ (by simp; omega) (ofByte (Base64.webSafe.toChar (c.toNat % 64)))
  refine ⟨out₄, ?_, by simpa using h₄⟩
  rw [encodeLoop, get_of_drop hl (k := 0) rfl (by simp), Throwing.ok_bind, get_of_drop hl (k := 1) rfl (by simp), Throwing.ok_bind,
    get_of_drop hl (k := 2) rfl (by simp), Throwing.ok_bind]
  dsimp only
  simp only [Nat.shiftRight_eq_div_pow, shift_or_or]
  rw [ALPHABET_eq (i := a.toNat / 4) (by omega), ALPHABET_eq (i := a.toNat % 4 * 16 + b.toNat / 16) (by omega),
    ALPHABET_eq (i := b.toNat % 16 * 4 + c.toNat / 64) (by omega), ALPHABET_eq (i := c.toNat % 64) (by omega), hput₁, Throwing.ok_bind,
    hput₂, Throwing.ok_bind, hput₃, Throwing.ok_bind, hput₄, Throwing.ok_bind]

/-- The blocks and the bytes behind them are written as their text. -/
theorem encodeLoop_rest {l input : Bytes} {inPos n : Nat} {out : Slots UInt16} {w : Text} (hl : input.drop inPos = l)
    (h : out.Holds n w) (hroom : w.length + (l.length * 4 + 2) / 3 ≤ n) :
    ∃ out', (do
      let (inPos, out) ← encodeLoop input (l.length / 3) inPos out
      encodeRest input (l.length % 3) inPos out) = .ok out' ∧ out'.Holds n (w ++ text l) := by
  induction l using Base64.encode.induct generalizing inPos out w with
  | case1 a b c rest ih =>
    have hblocks : (a :: b :: c :: rest).length / 3 = rest.length / 3 + 1 := by
      simp only [List.length_cons]
      omega
    have hremainder : (a :: b :: c :: rest).length % 3 = rest.length % 3 := by
      simp only [List.length_cons]
      omega
    have hrest : input.drop (inPos + 3) = rest := by
      rw [← List.drop_drop, hl]
      rfl
    simp only [List.length_cons] at hroom
    obtain ⟨out', hblock, hout'⟩ := encodeLoop_block hl h (by omega) (rest.length / 3)
    obtain ⟨out'', hloop, hout''⟩ := ih hrest hout' (by simp; omega)
    refine ⟨out'', ?_, ?_⟩
    · rw [hblocks, hremainder, hblock]
      exact hloop
    · simpa [text, Base64.encode] using hout''
  | case2 a b =>
    have ha := a.toNat_lt
    have hb := b.toNat_lt
    simp only [List.length_cons, List.length_nil] at hroom
    obtain ⟨out₁, hput₁, h₁⟩ := put_holds h (by omega) (ofByte (Base64.webSafe.toChar (a.toNat / 4)))
    obtain ⟨out₂, hput₂, h₂⟩ := put_holds h₁ (by simp; omega) (ofByte (Base64.webSafe.toChar (a.toNat % 4 * 16 + b.toNat / 16)))
    obtain ⟨out₃, hput₃, h₃⟩ := put_holds h₂ (by simp; omega) (ofByte (Base64.webSafe.toChar (b.toNat % 16 * 4)))
    refine ⟨out₃, ?_, by simpa [text, Base64.encode] using h₃⟩
    have hblocks : [a, b].length / 3 = 0 := by simp
    have hremainder : [a, b].length % 3 = 2 := by simp
    rw [hblocks, hremainder, encodeLoop, Throwing.ok_bind]
    dsimp only
    rw [encodeRest, if_pos (by decide), get_of_drop hl (k := 0) rfl (by simp), Throwing.ok_bind, if_pos rfl,
      get_of_drop hl (k := 1) rfl (by simp), Throwing.ok_bind]
    simp only [Nat.shiftRight_eq_div_pow, shift_or, pure_bind]
    rw [ALPHABET_eq (i := a.toNat / 4) (by omega), ALPHABET_eq (i := a.toNat % 4 * 16 + b.toNat / 16) (by omega),
      ALPHABET_eq (i := b.toNat % 16 * 4) (by omega), hput₁, Throwing.ok_bind, hput₂, Throwing.ok_bind, if_pos trivial, hput₃]
  | case3 a =>
    have ha := a.toNat_lt
    simp only [List.length_cons, List.length_nil] at hroom
    obtain ⟨out₁, hput₁, h₁⟩ := put_holds h (by omega) (ofByte (Base64.webSafe.toChar (a.toNat / 4)))
    obtain ⟨out₂, hput₂, h₂⟩ := put_holds h₁ (by simp; omega) (ofByte (Base64.webSafe.toChar (a.toNat % 4 * 16)))
    refine ⟨out₂, ?_, by simpa [text, Base64.encode] using h₂⟩
    have hblocks : [a].length / 3 = 0 := by simp
    have hremainder : [a].length % 3 = 1 := by simp
    rw [hblocks, hremainder, encodeLoop, Throwing.ok_bind]
    dsimp only
    rw [encodeRest, if_pos (by decide), get_of_drop hl (k := 0) rfl (by simp), Throwing.ok_bind, if_neg (by decide), pure_bind]
    simp only [Nat.shiftRight_eq_div_pow, Nat.shiftLeft_eq]
    rw [ALPHABET_eq (i := a.toNat / 4) (by omega), ALPHABET_eq (i := a.toNat % 4 * 16) (by omega), hput₁, Throwing.ok_bind, hput₂,
      Throwing.ok_bind, if_neg (by decide)]
    rfl
  | case4 => exact ⟨out, rfl, by simpa [text, Base64.encode] using h⟩

/-- The length of the output, before it is an `int`. -/
theorem outputLen_eq (n : Nat) : n / 3 * 4 + (if n % 3 = 1 then 2 else if n % 3 = 2 then 3 else 0) = (n * 4 + 2) / 3 := by
  split
  · omega
  · split <;> omega

/-- Up to `3 * 2 ^ 29 - 1` bytes are encoded. -/
theorem encodeWebSafe_of_lt {input : Bytes} (h : input.length < 3 * 2 ^ 29) : encodeWebSafe input = .ok (text input) := by
  obtain ⟨out, hloop, hout⟩ := encodeLoop_rest (l := input) List.drop_zero (Slots.holds_new 0 ((input.length * 4 + 2) / 3)) (by simp)
  have hcells := hout.cells_eq (by rw [List.nil_append, length_text])
  simp only [encodeWebSafe, outputLen_eq]
  rw [toInt32_of_lt (by omega), newArray_natCast, Throwing.ok_bind]
  obtain ⟨r, hblocks, hrest⟩ := Throwing.ok_of_bind hloop
  have hrest' : encodeRest input (input.length % 3) r.1 r.2 = .ok out := hrest
  rw [hblocks, Throwing.ok_bind, hrest', Throwing.ok_bind, hcells]
  rfl

/-- From `3 * 2 ^ 29` bytes on the length of the output is negative. -/
theorem encodeWebSafe_of_ge {input : Bytes} (h : 3 * 2 ^ 29 ≤ input.length) (h' : input.length < 2 ^ 31) :
    encodeWebSafe input = .error (.runtime .negativeArraySize) := by
  simp only [encodeWebSafe, outputLen_eq]
  rw [newArray, if_pos (toInt32_neg (by omega) (by omega))]
  rfl

/-- The padding behind so many characters. -/
def padding (n : Nat) : Text := if n % 4 = 2 then [61, 61] else if n % 4 = 3 then [61] else []

/-- The text of bytes with the last two characters of the other alphabet. -/
def mimeText (input : Bytes) : Text := replace (replace (text input) 45 43) 95 47

theorem length_replace (s : Text) (oldChar newChar : UInt16) : (replace s oldChar newChar).length = s.length := by simp [replace]

theorem length_mimeText (input : Bytes) : (mimeText input).length = (input.length * 4 + 2) / 3 := by
  rw [mimeText, length_replace, length_replace, length_text]

/-- The MIME encoder pads its text, as far as the length of a string goes. -/
theorem encodeMime_of_lt {input : Bytes} (h : input.length < 3 * 2 ^ 29) (pad : Bool) :
    encodeMime input pad = concat (mimeText input) (padding (mimeText input).length) := by
  have hone : (mimeText input).length % 4 ≠ 1 := by
    rw [length_mimeText]
    omega
  have hlt : (mimeText input).length < 2 ^ 31 := by
    rw [length_mimeText]
    omega
  rw [encodeMime, encodeWebSafe_of_lt h, Throwing.ok_bind]
  show (if (mimeText input).length % 4 = 0 then pure (mimeText input)
    else if (mimeText input).length % 4 = 2 then concat (mimeText input) [61, 61]
    else if (mimeText input).length % 4 = 3 then concat (mimeText input) [61] else .error .bugInEncoder) = _
  rcases (by omega : (mimeText input).length % 4 = 0 ∨ (mimeText input).length % 4 = 2 ∨ (mimeText input).length % 4 = 3) with
    hzero | htwo | hthree
  · rw [if_pos hzero, padding, hzero, if_neg (by decide), if_neg (by decide), concat, List.length_nil, Nat.add_zero, if_pos hlt,
      List.append_nil]
    rfl
  · rw [htwo, if_neg (by decide), if_pos rfl, padding, htwo, if_pos rfl]
  · rw [hthree, if_neg (by decide), if_neg (by decide), if_pos rfl, padding, hthree, if_neg (by decide), if_pos rfl]

theorem encodeMime_of_ge {input : Bytes} (h : 3 * 2 ^ 29 ≤ input.length) (h' : input.length < 2 ^ 31) (pad : Bool) :
    encodeMime input pad = .error (.runtime .negativeArraySize) := by
  rw [encodeMime, encodeWebSafe_of_ge h h']
  rfl

/-! ## Texts with whitespace -/

namespace Coder

/-- The encoder, for MIME with the argument that asks for padding. -/
def encode : Coder → Bool → Bytes → Except Thrown Text
  | .webSafe, _, b => encodeWebSafe b
  | .mime, pad, b => encodeMime b pad

end Coder

/-- A text without its padding. -/
def unpadded (e : Text) : Text := e.filter (· ≠ 61)

/-- `s` is the text `e`, with or without its padding, and with whitespace anywhere. -/
def Spaced (e s : Text) : Prop := data s = unpadded e ∨ data s = unpadded e ++ padding (unpadded e).length

/-- There is whitespace behind the first padding character. -/
def BlankInPadding (s : Text) : Prop := ∃ c ∈ s.dropWhile (· ≠ 61), isBlank c = true

theorem ofByte_toChar_le {i : Nat} (h : i < 64) : ofByte (Base64.webSafe.toChar i) ≤ 127 := by
  have hle : ∀ i < 64, ofByte (Base64.webSafe.toChar i) ≤ 127 := by decide
  exact hle i h

theorem valueOf_ofByte_toChar {i : Nat} (h : i < 64) : valueOf (ofByte (Base64.webSafe.toChar i)) = some i := by
  rw [valueOf, if_pos (ofByte_toChar_le h), toUInt8_ofByte, Base64.webSafe.ofChar_toChar i h]

theorem le_of_isBlank {c : UInt16} (h : isBlank c = true) : c ≤ 127 := by
  simp only [isBlank, Bool.or_eq_true, decide_eq_true_eq] at h
  rcases h with (((rfl | rfl) | rfl) | rfl) | rfl <;> decide

theorem map_valueOf_text (b : Bytes) : (text b).map valueOf = (Base64.sextets b).map some := by
  rw [text, Base64.encode_eq_map, List.map_map, List.map_map]
  refine List.map_congr_left fun i hi => ?_
  exact valueOf_ofByte_toChar (Base64.sextets_lt b i hi)

theorem mem_text {b : Bytes} {c : UInt16} (h : c ∈ text b) : ∃ i < 64, c = ofByte (Base64.webSafe.toChar i) := by
  obtain ⟨d, hd, rfl⟩ := List.mem_map.mp h
  obtain ⟨i, hi, rfl⟩ := Base64.exists_of_mem_encode Base64.webSafe hd
  exact ⟨i, hi, rfl⟩

/-- The character of the other alphabet. -/
def otherChar (c : UInt16) : UInt16 :=
  let c := if c = 45 then 43 else c
  if c = 95 then 47 else c

theorem mimeText_eq_map (b : Bytes) : mimeText b = (text b).map otherChar := by
  rw [mimeText, replace, replace, List.map_map]
  rfl

theorem mem_mimeText {b : Bytes} {c : UInt16} (h : c ∈ mimeText b) : ∃ i < 64, c = otherChar (ofByte (Base64.webSafe.toChar i)) := by
  rw [mimeText_eq_map] at h
  obtain ⟨d, hd, rfl⟩ := List.mem_map.mp h
  obtain ⟨i, hi, rfl⟩ := mem_text hd
  exact ⟨i, hi, rfl⟩

/-- No text has a padding character in it. -/
theorem pad_not_mem_text (b : Bytes) : 61 ∉ text b := by
  intro h
  obtain ⟨i, hi, hc⟩ := mem_text h
  have hne : ∀ i < 64, 61 ≠ ofByte (Base64.webSafe.toChar i) := by decide
  exact hne i hi hc

theorem bytesOf_sextets (b : Bytes) : bytesOf (Base64.sextets b) = b := by rw [bytesOf, Base64.ofSextets_sextets, Option.getD_some]

theorem mem_data {s : Text} {c : UInt16} : c ∈ data s ↔ c ∈ s ∧ isBlank c = false := by simp [data]

/-- The padding characters are where the text ends. -/
theorem dropWhile_append {t q : Text} (ht : 61 ∉ t) (hq : q.dropWhile (· ≠ 61) = q) : (t ++ q).dropWhile (· ≠ 61) = q := by
  rw [List.dropWhile_append_of_pos, hq]
  intro c hc
  exact decide_eq_true fun h => ht (h ▸ hc)

theorem dropWhile_pads (k : Nat) : (List.replicate k (61 : UInt16)).dropWhile (· ≠ 61) = List.replicate k 61 := by
  cases k with
  | zero => rfl
  | succ k => simp [List.replicate_succ]

theorem padding_cases (n : Nat) : ∃ k ≤ 2, padding n = List.replicate k 61 := by
  unfold padding
  split
  · exact ⟨2, by decide, rfl⟩
  · split
    · exact ⟨1, by decide, rfl⟩
    · exact ⟨0, by decide, rfl⟩

theorem trimmed_of_not_mem {t : Text} (h : 61 ∉ t) : trimmed t = t := by
  refine if_neg fun hlast => ?_
  exact h (List.mem_of_getLast? hlast)

theorem trimmed_append_pad (t : Text) : trimmed (t ++ [61]) = t := by simp [trimmed]

/-- One or two padding characters at the end are trimmed. -/
theorem trimmed_pads {t : Text} (h : 61 ∉ t) {k : Nat} (hk : k ≤ 2) : trimmed (trimmed (t ++ List.replicate k 61)) = t := by
  rcases (by omega : k = 0 ∨ k = 1 ∨ k = 2) with rfl | rfl | rfl
  · rw [List.replicate_zero, List.append_nil, trimmed_of_not_mem h, trimmed_of_not_mem h]
  · rw [List.replicate_one, trimmed_append_pad, trimmed_of_not_mem h]
  · rw [show List.replicate 2 (61 : UInt16) = [61] ++ [61] from rfl, ← List.append_assoc, trimmed_append_pad, trimmed_append_pad]

/-- Of a text with up to two padding characters, some are left over when there is whitespace behind the first one. -/
theorem pad_mem_payload_iff {s d : Text} {k : Nat} (hd : 61 ∉ d) (hk : k ≤ 2) (hdata : data s = d ++ List.replicate k 61) :
    61 ∈ payload s ↔ BlankInPadding s := by
  rw [← not_iff_not]
  constructor
  · intro hpad
    have hnot : 61 ∉ trimmed (trimmed s) := fun h => hpad (mem_data.mpr ⟨h, rfl⟩)
    obtain ⟨j, -, hs⟩ := eq_trimmed s
    rintro ⟨c, hc, hblank⟩
    rw [hs, dropWhile_append hnot (dropWhile_pads j)] at hc
    rw [List.eq_of_mem_replicate hc] at hblank
    cases hblank
  · intro hblank
    have hfirst : 61 ∉ s.takeWhile (· ≠ 61) := by
      intro h
      simpa using List.mem_takeWhile_imp h
    have hlast : data (s.dropWhile (· ≠ 61)) = s.dropWhile (· ≠ 61) := by
      refine List.filter_eq_self.mpr fun c hc => ?_
      have hc' : isBlank c = false := by
        rw [Bool.eq_false_iff]
        exact fun h => hblank ⟨c, hc, h⟩
      rw [hc']
      rfl
    have hsplit : data (s.takeWhile (· ≠ 61)) ++ s.dropWhile (· ≠ 61) = d ++ List.replicate k 61 := by
      rw [← hdata, ← hlast, ← data_append, List.takeWhile_append_dropWhile]
    have hpads : s.dropWhile (· ≠ 61) = List.replicate k 61 := by
      have h := congrArg (List.dropWhile (· ≠ 61)) hsplit
      rw [dropWhile_append hd (dropWhile_pads k), dropWhile_append] at h
      · exact h
      · exact fun hmem => hfirst (mem_data.mp hmem).1
      · exact List.dropWhile_idempotent _ s
    have hs : s = s.takeWhile (· ≠ 61) ++ List.replicate k 61 := by
      rw [← hpads, List.takeWhile_append_dropWhile]
    intro hmem
    rw [payload, hs, trimmed_pads hfirst hk] at hmem
    exact hfirst (mem_data.mp hmem).1

theorem length_text_mod (b : Bytes) : (text b).length % 4 ≠ 1 := by
  rw [length_text]
  omega

/-- A padding character alone is no text. -/
theorem data_ne_pad {s : Text} {b : Bytes} (hdata : data s = text b ∨ data s = text b ++ padding (text b).length) : s ≠ [61] := by
  have hone := length_text_mod b
  rintro rfl
  have hlength : ((text b).length = 1) ∨ (text b).length + (padding (text b).length).length = 1 := by
    rcases hdata with h | h
    · exact Or.inl (congrArg List.length h).symm
    · exact Or.inr ((congrArg List.length h).trans List.length_append).symm
  rcases hlength with h | h
  · omega
  · unfold padding at h
    split at h
    · simp only [List.length_cons, List.length_nil] at h
      omega
    · split at h <;> simp only [List.length_cons, List.length_nil] at h <;> omega

theorem unpadded_append {t : Text} (h : 61 ∉ t) (k : Nat) : unpadded (t ++ List.replicate k 61) = t := by
  have hself : t.filter (· ≠ 61) = t := List.filter_eq_self.mpr fun c hc => decide_eq_true fun heq => h (heq ▸ hc)
  rw [unpadded, List.filter_append, hself, List.filter_replicate_of_neg (by simp), List.append_nil]

/-- A string that is the text of bytes but for whitespace and padding is decoded to them when no padding is left over. -/
theorem decodeWebSafe_spaced {s : Text} {b : Bytes} (hdata : data s = text b ∨ data s = text b ++ padding (text b).length) :
    decodeWebSafe s = .ok b ↔ s ≠ [] ∧ ¬BlankInPadding s := by
  have hpad := data_ne_pad hdata
  obtain ⟨k, hk, hdata⟩ : ∃ k ≤ 2, data s = text b ++ List.replicate k 61 := by
    rcases hdata with hdata | hdata
    · exact ⟨0, by decide, by rw [hdata]; simp⟩
    · obtain ⟨k, hk, hpadding⟩ := padding_cases (text b).length
      exact ⟨k, hk, by rw [hdata, hpadding]⟩
  rw [← pad_mem_payload_iff (pad_not_mem_text b) hk hdata, decodeWebSafe_eq_ok_iff]
  constructor
  · rintro ⟨⟨hne, -, -⟩, -, vs, hvs, -⟩
    refine ⟨hne, fun hmem => ?_⟩
    have hnone : none ∈ vs.map some := by
      rw [← hvs]
      exact List.mem_map.mpr ⟨61, hmem, rfl⟩
    simp at hnone
  · rintro ⟨hne, hnot⟩
    obtain ⟨j, -, hj⟩ := data_eq_payload s
    have hpayload : payload s = text b := by
      have h := congrArg unpadded (hj.symm.trans hdata)
      rw [unpadded_append hnot, unpadded_append (pad_not_mem_text b)] at h
      exact h
    rw [hpayload]
    refine ⟨⟨hne, hpad, ?_⟩, length_text_mod b, Base64.sextets b, map_valueOf_text b, (bytesOf_sextets b).symm⟩
    intro c hc
    by_cases hblank : isBlank c = true
    · exact le_of_isBlank hblank
    · have hmem : c ∈ data s := mem_data.mpr ⟨hc, Bool.eq_false_iff.mpr hblank⟩
      rw [hdata] at hmem
      rcases List.mem_append.mp hmem with htext | hpads
      · obtain ⟨i, hi, rfl⟩ := mem_text htext
        exact ofByte_toChar_le hi
      · rw [List.eq_of_mem_replicate hpads]
        decide

namespace Coder

variable (coder : Coder)

theorem map_char_pads (k : Nat) : (List.replicate k 61).map coder.char = List.replicate k 61 := by
  rw [List.map_replicate, (coder.char_eq_pad_iff 61).mpr rfl]

/-- The other alphabet has other characters for `-` and `_`, which the decoder takes back. -/
theorem mimeText_spec (b : Bytes) : 61 ∉ mimeText b ∧ (mimeText b).map mime.char = text b := by
  have hpad : ∀ i < 64, otherChar (ofByte (Base64.webSafe.toChar i)) ≠ 61 := by decide
  have hback : ∀ i < 64, mime.char (otherChar (ofByte (Base64.webSafe.toChar i))) = ofByte (Base64.webSafe.toChar i) := by decide
  constructor
  · intro hmem
    obtain ⟨i, hi, h⟩ := mem_mimeText hmem
    exact hpad i hi h.symm
  · rw [mimeText_eq_map, List.map_map]
    refine (List.map_congr_left fun c hc => ?_).trans (List.map_id _)
    obtain ⟨i, hi, rfl⟩ := mem_text hc
    exact hback i hi

/-- What an encoder returns is, without its padding and in the characters of the web-safe alphabet, the text. -/
theorem unpadded_encode {pad : Bool} {b : Bytes} {e : Text} (hb : b.length < 2 ^ 31) (h : coder.encode pad b = .ok e) :
    (unpadded e).map coder.char = text b := by
  rcases Nat.lt_or_ge b.length (3 * 2 ^ 29) with hlt | hge
  · cases coder with
    | webSafe =>
      rw [encode, encodeWebSafe_of_lt hlt] at h
      cases h
      have hself := unpadded_append (pad_not_mem_text b) 0
      rw [List.replicate_zero, List.append_nil] at hself
      rw [hself]
      exact List.map_id _
    | mime =>
      rw [encode, encodeMime_of_lt hlt, concat] at h
      split at h
      · cases h
        obtain ⟨k, -, hpadding⟩ := padding_cases (mimeText b).length
        rw [hpadding, unpadded_append (mimeText_spec b).1, (mimeText_spec b).2]
      · cases h
  · cases coder with
    | webSafe =>
      rw [encode, encodeWebSafe_of_ge hge hb] at h
      cases h
    | mime =>
      rw [encode, encodeMime_of_ge hge hb] at h
      cases h

theorem blankInPadding_map (s : Text) : BlankInPadding (s.map coder.char) ↔ BlankInPadding s := by
  have hpad : (fun c => decide (coder.char c ≠ 61)) = fun c => decide (c ≠ 61) := by
    funext c
    simp [coder.char_eq_pad_iff]
  have hdrop : (s.map coder.char).dropWhile (· ≠ 61) = (s.dropWhile (· ≠ 61)).map coder.char := by
    rw [List.dropWhile_map, Function.comp_def, hpad]
  unfold BlankInPadding
  rw [hdrop]
  constructor
  · rintro ⟨c, hc, hblank⟩
    obtain ⟨d, hd, rfl⟩ := List.mem_map.mp hc
    exact ⟨d, hd, by rw [← coder.isBlank_char]; exact hblank⟩
  · rintro ⟨d, hd, hblank⟩
    exact ⟨coder.char d, List.mem_map_of_mem hd, by rw [coder.isBlank_char]; exact hblank⟩

/-- The text of bytes, with or without its padding and with whitespace anywhere, is decoded when it is not empty and nothing is left of
its padding. -/
theorem decode_spaced {e s : Text} {b : Bytes} (htext : (unpadded e).map coder.char = text b) (hs : Spaced e s) :
    coder.decode s = .ok b ↔ s ≠ [] ∧ ¬BlankInPadding s := by
  have hlength : (unpadded e).length = (text b).length := by rw [← htext, List.length_map]
  have hdata : data (s.map coder.char) = text b ∨ data (s.map coder.char) = text b ++ padding (text b).length := by
    rw [coder.data_map_char]
    rcases hs with hs | hs
    · left
      rw [hs, htext]
    · right
      obtain ⟨k, -, hpadding⟩ := padding_cases (text b).length
      rw [hs, hlength, hpadding, List.map_append, htext, coder.map_char_pads]
  rw [coder.decode_eq, decodeWebSafe_spaced hdata, coder.blankInPadding_map, ne_eq, List.map_eq_nil_iff]

end Coder

/-- The text of bytes has four characters for three bytes, rounded up, all of the web-safe alphabet. -/
def Encodes (b : Bytes) : Prop :=
  ∃ e, encodeWebSafe b = .ok e ∧ e.length = (4 * b.length + 2) / 3 ∧ ∀ c ∈ e, Coder.webSafe.inAlphabet c = true

theorem encodes_iff {b : Bytes} (hb : b.length < 2 ^ 31) : Encodes b ↔ b.length < 3 * 2 ^ 29 := by
  constructor
  · rintro ⟨e, he, -, -⟩
    by_contra hge
    rw [encodeWebSafe_of_ge (Nat.le_of_not_lt hge) hb] at he
    cases he
  · intro hlt
    refine ⟨text b, encodeWebSafe_of_lt hlt, by rw [length_text, Nat.mul_comm], fun c hc => ?_⟩
    obtain ⟨i, hi, rfl⟩ := mem_text hc
    rw [Coder.inAlphabet, valueOf_ofByte_toChar hi]
    rfl

/-- Bytes are encoded exactly when the length of the text is an `int`, and decoded again exactly from the strings that are not empty and
have no whitespace behind their first padding character. -/
theorem roundTrips_iff (coder : Coder) (pad : Bool) {b : Bytes} (hb : b.length < 2 ^ 31) :
    (Encodes b ↔ b.length < 3 * 2 ^ 29) ∧
    ∀ e, coder.encode pad b = .ok e → ∀ s, Spaced e s → (coder.decode s = .ok b ↔ s ≠ [] ∧ ¬BlankInPadding s) := by
  refine ⟨encodes_iff hb, fun e he s hs => ?_⟩
  exact coder.decode_spaced (coder.unpadded_encode hb he) hs

/-- A padded MIME text with a blank and a line feed in it. -/
theorem roundTrips_iff_mime_lines :
    Encodes [251, 240] ∧ Coder.mime.decode [43, 32, 47, 10, 65, 61] = .ok [251, 240] := by
  have hlength : ([251, 240] : Bytes).length < 2 ^ 31 := by decide
  have hencode : Coder.mime.encode false [251, 240] = .ok [43, 47, 65, 61] := by decide
  have hblank : ¬BlankInPadding [43, 32, 47, 10, 65, 61] := by
    rintro ⟨c, hc, h⟩
    have hpad : List.dropWhile (· ≠ (61 : UInt16)) [43, 32, 47, 10, 65, 61] = [61] := by decide
    rw [hpad, List.mem_singleton] at hc
    rw [hc] at h
    cases h
  exact ⟨(roundTrips_iff .mime false hlength).1.mpr (by decide),
    ((roundTrips_iff .mime false hlength).2 _ hencode _ (Or.inr (by decide))).mpr ⟨by decide, hblank⟩⟩

/-- The empty text is not decoded, and neither is a padded text that ends in a line feed. -/
theorem text_is_not_decoded :
    (encodeWebSafe [] = .ok [] ∧ Spaced [] [] ∧ decodeWebSafe [] = .error (.runtime .indexOutOfBounds)) ∧
    encodeMime [1] true = .ok [65, 81, 61, 61] ∧ Spaced [65, 81, 61, 61] [65, 81, 61, 61, 10] ∧
    decodeMime [65, 81, 61, 61, 10] = .error (.base64 (.illegalCharacter 61)) :=
  ⟨⟨by decide, Or.inl rfl, rfl⟩, by decide, Or.inr (by decide), by decide⟩

end Base64Strings

end Java
