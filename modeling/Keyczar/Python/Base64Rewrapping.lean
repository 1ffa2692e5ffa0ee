import Keyczar.Python.StreamReader

/-!
# Base 64 texts that were wrapped

`Base64WSDecode` removes spaces and line ends before it looks at the length, so a text may be broken into lines anywhere, with its padding
or without. A text that is one character too long for its groups is refused, wherever its whitespace stands.
-/

namespace Python

open Bytes Base64Scan

/-- The characters of the encoding. -/
def IsWebSafe (c : UInt8) : Prop := (65 ≤ c ∧ c ≤ 90) ∨ (97 ≤ c ∧ c ≤ 122) ∨ (48 ≤ c ∧ c ≤ 57) ∨ c = 45 ∨ c = 95

instance : DecidablePred IsWebSafe := fun c =>
  inferInstanceAs (Decidable ((65 ≤ c ∧ c ≤ 90) ∨ (97 ≤ c ∧ c ≤ 122) ∨ (48 ≤ c ∧ c ≤ 57) ∨ c = 45 ∨ c = 95))

/-- The whitespace characters of the language, also those that are not removed. -/
def isSpace (c : UInt8) : Bool := c = 9 || c = 10 || c = 11 || c = 12 || c = 13 || c = 32

/-- `s` is the text `e` with spaces, carriage returns, line feeds and pairs of these two inserted. -/
inductive Rewrapped : Bytes → Bytes → Prop where
  | nil : Rewrapped [] []
  | keep (c : UInt8) {e s : Bytes} (rest : Rewrapped e s) : Rewrapped (c :: e) (c :: s)
  | space {e s : Bytes} (rest : Rewrapped e s) : Rewrapped e (32 :: s)
  | carriageReturn {e s : Bytes} (rest : Rewrapped e s) : Rewrapped e (13 :: s)
  | lineFeed {e s : Bytes} (rest : Rewrapped e s) : Rewrapped e (10 :: s)
  | lineEnd {e s : Bytes} (rest : Rewrapped e s) : Rewrapped e (13 :: 10 :: s)

/-- The padding that fills up a text of some length. -/
def fullPadding (n : Nat) : Bytes := padding base64Table n

/-! ## Decoding what was wrapped -/

theorem killWhitespace_of_rewrapped {e s : Bytes} (h : Rewrapped e s) : killWhitespace s = killWhitespace e := by
  unfold killWhitespace
  induction h with
  | nil => rfl
  | keep c _ ih => rw [List.filter_cons, List.filter_cons, ih]
  | space _ ih => exact ih
  | carriageReturn _ ih => exact ih
  | lineFeed _ ih => exact ih
  | lineEnd _ ih => exact ih

/-- Only what is left without whitespace is decoded. -/
theorem base64WSDecode_congr {s t : Bytes} (h : killWhitespace s = killWhitespace t) : base64WSDecode s = base64WSDecode t := by
  unfold base64WSDecode
  rw [h]

theorem killWhitespace_padded (b : Bytes) :
    killWhitespace (base64WSEncode b ++ fullPadding (base64WSEncode b).length) =
      base64WSEncode b ++ fullPadding (base64WSEncode b).length := by
  have hpadding : ∀ n, killWhitespace (fullPadding n) = fullPadding n := by
    intro n
    unfold fullPadding padding
    split
    · rfl
    · split
      · rfl
      · rfl
  have hencoded := killWhitespace_encode b
  have hpad := hpadding (base64WSEncode b).length
  unfold killWhitespace at hencoded hpad ⊢
  rw [List.filter_append, hencoded, hpad]

/-- A text with its padding has whole groups of four. -/
theorem length_padded_mod (b : Bytes) : (base64WSEncode b ++ fullPadding (base64WSEncode b).length).length % 4 = 0 := by
  have hlength : (base64WSEncode b).length % 4 ≠ 1 := Base64.length_encode_mod Base64.webSafe b
  rw [List.length_append, fullPadding, padding]
  split
  · show ((base64WSEncode b).length + 2) % 4 = 0
    omega
  · split
    · show ((base64WSEncode b).length + 1) % 4 = 0
      omega
    · show ((base64WSEncode b).length + 0) % 4 = 0
      omega

theorem base64WSDecode_padded (b : Bytes) :
    base64WSDecode (base64WSEncode b ++ fullPadding (base64WSEncode b).length) = .ok b := by
  have hmod := length_padded_mod b
  have hdecode : urlsafeB64decode (base64WSEncode b ++ fullPadding (base64WSEncode b).length) = some b :=
    decode_encode_padding reads_base64Table b
  unfold base64WSDecode
  rw [killWhitespace_padded]
  dsimp only
  rw [hmod, if_neg (by decide), if_neg (by decide), if_neg (by decide), hdecode]

theorem base64WSDecode_of_rewrapped {b s : Bytes}
    (h : Rewrapped (base64WSEncode b) s ∨ Rewrapped (base64WSEncode b ++ fullPadding (base64WSEncode b).length) s) :
    base64WSDecode s = .ok b := by
  rcases h with h | h
  · rw [base64WSDecode_congr (killWhitespace_of_rewrapped h), base64WSDecode_encode]
  · rw [base64WSDecode_congr (killWhitespace_of_rewrapped h), base64WSDecode_padded]

theorem isWebSafe_of_mem_encode {b : Bytes} {c : UInt8} (h : c ∈ base64WSEncode b) : IsWebSafe c := by
  have hall : ∀ i < 64, IsWebSafe (Base64.webSafe.toChar i) := by decide
  obtain ⟨i, hi, rfl⟩ := Base64.exists_of_mem_encode Base64.webSafe h
  exact hall i hi

/-! ## Texts that are too long by one -/

/-- The characters of the encoding have values, whitespace has none, and neither is padding. -/
theorem base64Value_cases {c : UInt8} (h : IsWebSafe c ∨ isSpace c = true) :
    c ≠ 61 ∧ ((base64Value c).isSome = !isSpace c) ∧ (isBlank c = true → isSpace c = true) := by
  have hall : ∀ n < 256, IsWebSafe (UInt8.ofNat n) ∨ isSpace (UInt8.ofNat n) = true → UInt8.ofNat n ≠ 61 ∧
      ((base64Value (UInt8.ofNat n)).isSome = !isSpace (UInt8.ofNat n)) ∧
      (isBlank (UInt8.ofNat n) = true → isSpace (UInt8.ofNat n) = true) := by decide +kernel
  have hc := hall c.toNat c.toNat_lt
  rw [UInt8.ofNat_toNat] at hc
  exact hc h

theorem base64WSDecode_of_one_too_long {s : Bytes} (h : ∀ c ∈ s, IsWebSafe c ∨ isSpace c = true)
    (hcount : (s.filter (!isSpace ·)).length % 4 = 1) : base64WSDecode s = .error .base64DecodingError := by
  have hmem : ∀ c ∈ killWhitespace s, c ∈ s := fun c hc => (List.mem_filter.mp hc).1
  have hpad : base64Table.pad ∉ killWhitespace s := fun hc => (base64Value_cases (h _ (hmem _ hc))).1 rfl
  have hvalues : ((killWhitespace s).filter fun c => (base64Table.value c).isSome) = s.filter (!isSpace ·) := by
    unfold killWhitespace
    rw [List.filter_filter]
    refine List.filter_congr fun c hc => ?_
    obtain ⟨-, hvalue, hblank⟩ := base64Value_cases (h c hc)
    have hsome : (base64Table.value c).isSome = !isSpace c := hvalue
    rw [hsome]
    cases hb : isBlank c with
    | false => simp
    | true => simp [hblank hb]
  have hleft : ∀ t : Bytes, (∀ c ∈ t, c = 61) → urlsafeB64decode (killWhitespace s ++ t) = none := by
    intro t ht
    exact decode_eq_none hpad (by rw [hvalues, hcount]) ht
  have hpadded : urlsafeB64decode (if (killWhitespace s).length % 4 = 2 then killWhitespace s ++ [61, 61]
      else if (killWhitespace s).length % 4 = 3 then killWhitespace s ++ [61] else killWhitespace s) = none := by
    split
    · exact hleft [61, 61] (by simp)
    · split
      · exact hleft [61] (by simp)
      · have hnone := hleft [] (by simp)
        rwa [List.append_nil] at hnone
  unfold base64WSDecode
  dsimp only
  rw [hpadded]
  exact ite_self _

/-- Decoding undoes encoding for a text that was wrapped, with or without its padding; the text has only characters of the web-safe
alphabet; and a text of such characters and whitespace that has one character more than a multiple of four is refused. -/
theorem base64WSDecode_rewrapped :
    (∀ b s, Rewrapped (base64WSEncode b) s ∨ Rewrapped (base64WSEncode b ++ fullPadding (base64WSEncode b).length) s →
      base64WSDecode s = .ok b) ∧
    (∀ b, ∀ c ∈ base64WSEncode b, IsWebSafe c) ∧
    ∀ s, (∀ c ∈ s, IsWebSafe c ∨ isSpace c = true) → (s.filter (!isSpace ·)).length % 4 = 1 →
      base64WSDecode s = .error .base64DecodingError :=
  ⟨fun _ _ h => base64WSDecode_of_rewrapped h, fun _ _ h => isWebSafe_of_mem_encode h, fun _ h => base64WSDecode_of_one_too_long h⟩

/-- `A`, a line end, `Q`, a space, `==` is decoded to one byte, and `A` with a tab is refused. -/
theorem base64WSDecode_rewrapped_lines :
    base64WSDecode [65, 13, 10, 81, 32, 61, 61] = .ok [1] ∧ base64WSDecode [65, 9] = .error .base64DecodingError := by
  refine ⟨base64WSDecode_rewrapped.1 [1] _ (Or.inr ?_), base64WSDecode_rewrapped.2.2 _ ?_ rfl⟩
  · exact .keep 65 (.lineEnd (.keep 81 (.space (.keep 61 (.keep 61 .nil)))))
  · have hfirst : IsWebSafe 65 := Or.inl ⟨by decide, by decide⟩
    exact List.forall_mem_cons.mpr ⟨Or.inl hfirst, List.forall_mem_singleton.mpr (Or.inr rfl)⟩

end Python
