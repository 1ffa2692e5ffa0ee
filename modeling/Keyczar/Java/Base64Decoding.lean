import Keyczar.Java.Base64Strings

/-!
# Which strings the base 64 decoder of the Java library decodes

The characters next to the end of a string are looked at for padding whether they are there or not, and a table of 128 entries is asked
about every character. All other strings are decoded, or refused with the declared exception.
-/

namespace Java

namespace Base64Strings

open Bytes

/-! ## Strings of bytes -/

/-- The exceptions of the decoder on bytes. -/
def ofException : Base64Coder.Base64DecodingException → Thrown
  | .illegalLength inLen => .base64 (.illegalLength inLen)
  | .illegalCharacter c => .base64 (.illegalCharacter (ofByte c))
  | .arrayIndexOutOfBounds => .runtime .indexOutOfBounds

theorem ofByte_le_iff (c : UInt8) : ofByte c ≤ 127 ↔ c ≤ 127 := by
  rw [UInt16.le_iff_toNat_le, UInt8.le_iff_toNat_le]
  simp [ofByte]

theorem toUInt8_ofByte (c : UInt8) : (ofByte c).toUInt8 = c := UInt8.toUInt8_toUInt16 c

theorem ofByte_injective : Function.Injective ofByte := Function.LeftInverse.injective toUInt8_ofByte

theorem isWhiteSpace_ofByte (c : UInt8) : isWhiteSpace (ofByte c) = (Base64Coder.isWhiteSpace c).mapError ofException := by
  rw [isWhiteSpace, DECODE, Base64Coder.isWhiteSpace, toUInt8_ofByte]
  by_cases hle : c ≤ 127
  · rw [if_pos ((ofByte_le_iff c).mpr hle), if_neg (UInt8.not_lt.mpr hle)]
    rfl
  · rw [if_neg (mt (ofByte_le_iff c).mp hle), if_pos (UInt8.not_le.mp hle)]
    rfl

theorem getByte_ofByte {c : UInt8} (hc : c ≤ 127) : getByte (ofByte c) = (Base64Coder.getByte c).mapError ofException := by
  rw [getByte, if_neg (UInt16.not_lt.mpr ((ofByte_le_iff c).mpr hc)), Base64Coder.getByte, toUInt8_ofByte]
  cases Base64Coder.DECODE c <;> rfl

theorem map_trimPadding {s : Bytes} (hne : s ≠ []) :
    ∃ t, Base64Coder.trimPadding s = .ok t ∧ trimmed (s.map ofByte) = t.map ofByte := by
  have hlast := List.getLast?_eq_some_getLast hne
  unfold Base64Coder.trimPadding trimmed
  rw [hlast, List.getLast?_map, hlast]
  by_cases hpad : s.getLast hne = 61
  · refine ⟨s.dropLast, by simp [hpad], ?_⟩
    rw [hpad, Option.map_some, if_pos (show some (ofByte 61) = some 61 from rfl), List.map_dropLast]
  · refine ⟨s, by simp [hpad], ?_⟩
    rw [if_neg]
    intro h
    exact hpad (ofByte_injective (Option.some.inj h))

theorem ofByte_isBlank {c : UInt8} (hc : c ≤ 127) : Base64Coder.isWhiteSpace c = .ok (isBlank (ofByte c)) := by
  have hblank := isWhiteSpace_ofByte c
  rw [isWhiteSpace_of_le ((ofByte_le_iff c).mpr hc)] at hblank
  cases h : Base64Coder.isWhiteSpace c with
  | ok b =>
    rw [h] at hblank
    rw [Except.ok.inj hblank]
  | error e =>
    rw [h] at hblank
    cases hblank

/-- Whitespace is counted alike. -/
theorem countWhiteSpace_ofByte (s : Bytes) :
    ((∀ c ∈ s, c ≤ 127) ∧ Base64Coder.countWhiteSpace s = .ok ((s.map ofByte).countP isBlank)) ∨
    (¬(∀ c ∈ s, c ≤ 127) ∧ Base64Coder.countWhiteSpace s = .error .arrayIndexOutOfBounds) := by
  induction s with
  | nil => exact Or.inl ⟨by simp, rfl⟩
  | cons c s ih =>
    rw [List.forall_mem_cons]
    by_cases hc : c ≤ 127
    · rw [Base64Coder.countWhiteSpace, ofByte_isBlank hc, Throwing.ok_bind]
      rcases ih with ⟨hs, hcount⟩ | ⟨hs, hcount⟩
      · left
        refine ⟨⟨hc, hs⟩, ?_⟩
        rw [hcount, Throwing.ok_bind, List.map_cons, List.countP_cons]
        cases isBlank (ofByte c) <;> rfl
      · right
        refine ⟨fun h => hs h.2, ?_⟩
        rw [hcount]
        rfl
    · right
      refine ⟨fun h => hc h.1, ?_⟩
      rw [Base64Coder.countWhiteSpace, Base64Coder.isWhiteSpace, if_pos (UInt8.not_le.mp hc)]
      rfl

/-- The loop on bytes takes the values of the characters that are not whitespace, too. -/
theorem decodeLoop_ofByte {s : Bytes} (hs : ∀ c ∈ s, c ≤ 127) (buffer buffCount : Nat) :
    (Base64Coder.decodeLoop buffer buffCount s).mapError ofException =
      (data (s.map ofByte)).mapM getByte >>= fun vs =>
        (Base64Coder.decodeLoop buffer buffCount (vs.map Base64.webSafe.toChar)).mapError ofException := by
  induction s generalizing buffer buffCount with
  | nil => rfl
  | cons c s ih =>
    have ih := ih fun d hd => hs d (List.mem_cons_of_mem c hd)
    have hc := hs c List.mem_cons_self
    rw [Base64Coder.decodeLoop, ofByte_isBlank hc, Throwing.ok_bind, List.map_cons]
    cases hb : isBlank (ofByte c) with
    | true =>
      rw [data_cons_of_blank hb, if_pos rfl]
      exact ih buffer buffCount
    | false =>
      have hbyte := getByte_ofByte hc
      rw [data_cons_of_not_blank hb, if_neg Bool.false_ne_true, List.mapM_cons, hbyte]
      cases hv : Base64Coder.getByte c with
      | error e => rfl
      | ok v =>
        rw [hv] at hbyte
        have hv64 := lt_of_getByte hbyte
        rw [Throwing.ok_bind, Throwing.mapError_ok, Throwing.ok_bind]
        split
        · rename_i hfour
          rw [Throwing.bind_pure_map, Throwing.map_mapError, ih 0 0]
          cases hvs : (data (s.map ofByte)).mapM getByte with
          | error e => rfl
          | ok vs =>
            rw [Throwing.ok_bind, ← Throwing.map_mapError]
            show _ = (Base64Coder.decodeLoop buffer buffCount (Base64.webSafe.toChar v :: vs.map Base64.webSafe.toChar)).mapError
              ofException
            rw [Base64Coder.decodeLoop_toChar buffer buffCount hv64, if_pos hfour]
        · rename_i hfour
          rw [ih]
          cases hvs : (data (s.map ofByte)).mapM getByte with
          | error e => rfl
          | ok vs =>
            show _ = (Base64Coder.decodeLoop buffer buffCount (Base64.webSafe.toChar v :: vs.map Base64.webSafe.toChar)).mapError
              ofException
            rw [Base64Coder.decodeLoop_toChar buffer buffCount hv64, if_neg hfour]
            rfl

theorem decodeLoop_toChars {vs : List Nat} (hvs : ∀ v ∈ vs, v < 64) (h : vs.length % 4 ≠ 1) :
    Base64Coder.decodeLoop 0 0 (vs.map Base64.webSafe.toChar) = .ok (bytesOf vs) := by
  induction vs using Base64.ofSextets.induct with
  | case1 i j k l rest ih =>
    simp only [List.mem_cons, forall_eq_or_imp] at hvs
    obtain ⟨hi, hj, hk, hl, hrest⟩ := hvs
    simp only [List.length_cons] at h
    have ih := ih hrest (by omega)
    simp only [List.map_cons]
    rw [bytesOf_four i j k l (by omega), Base64Coder.decodeLoop_toChar _ _ hi, if_neg (by omega), Base64Coder.decodeLoop_toChar _ _ hj,
      if_neg (by omega), Base64Coder.decodeLoop_toChar _ _ hk, if_neg (by omega), Base64Coder.decodeLoop_toChar _ _ hl, if_pos rfl, ih]
    simp only [Except.map, Except.ok.injEq, List.cons.injEq, and_true]
    refine ⟨ofNat_congr ?_, ofNat_congr ?_, ofNat_congr ?_⟩ <;> omega
  | case2 i j k =>
    simp only [List.mem_cons, forall_eq_or_imp] at hvs
    obtain ⟨hi, hj, hk, -⟩ := hvs
    simp only [List.map_cons, List.map_nil]
    rw [Base64Coder.decodeLoop_toChar _ _ hi, if_neg (by omega), Base64Coder.decodeLoop_toChar _ _ hj,
      if_neg (by omega), Base64Coder.decodeLoop_toChar _ _ hk, if_neg (by omega), Base64Coder.decodeLoop, if_neg (by omega), if_pos rfl]
    simp only [bytesOf, Base64.ofSextets, Option.getD_some, Except.ok.injEq, List.cons.injEq, and_true]
    refine ⟨ofNat_congr ?_, ofNat_congr ?_⟩ <;> omega
  | case3 i j =>
    simp only [List.mem_cons, forall_eq_or_imp] at hvs
    obtain ⟨hi, hj, -⟩ := hvs
    simp only [List.map_cons, List.map_nil]
    rw [Base64Coder.decodeLoop_toChar _ _ hi, if_neg (by omega), Base64Coder.decodeLoop_toChar _ _ hj,
      if_neg (by omega), Base64Coder.decodeLoop, if_pos rfl]
    simp only [bytesOf, Base64.ofSextets, Option.getD_some, Except.ok.injEq, List.cons.injEq, and_true]
    exact ofNat_congr (by omega)
  | case4 i => simp at h
  | case5 => rfl

/-- On a string of bytes, the decoder is the one on bytes. -/
theorem decodeWebSafe_ofByte (source : Bytes) :
    decodeWebSafe (source.map ofByte) = (Base64Coder.decodeWebSafe source).mapError ofException := by
  by_cases hne : source = []
  · rw [hne]
    rfl
  by_cases hpad : source = [61]
  · rw [hpad]
    rfl
  have hne' : source.map ofByte ≠ [] := fun h => hne (List.map_eq_nil_iff.mp h)
  have hpad' : source.map ofByte ≠ [61] := by
    intro h
    exact hpad ((List.map_injective_iff.mpr ofByte_injective) (h.trans (show [61] = [ofByte 61] from rfl)))
  obtain ⟨t, htrim, ht⟩ := map_trimPadding hne
  have hnil : t ≠ [] := by
    intro h
    rw [h] at ht
    exact trimmed_ne_nil hne' hpad' ht
  obtain ⟨u, htrim', hu⟩ := map_trimPadding hnil
  rw [← ht] at hu
  have hlength := length_payload (source.map ofByte)
  rw [hu, List.length_map] at hlength
  have hpayload : payload (source.map ofByte) = data (u.map ofByte) := by rw [payload, hu]
  rw [Base64Coder.decodeWebSafe, htrim, Throwing.ok_bind, htrim', Throwing.ok_bind]
  rcases countWhiteSpace_ofByte source with ⟨hs, hcount⟩ | ⟨hs, hcount⟩
  · have hascii : ∀ c ∈ source.map ofByte, c ≤ 127 := by
      intro c hc
      obtain ⟨d, hd, rfl⟩ := List.mem_map.mp hc
      exact (ofByte_le_iff d).mpr (hs d hd)
    have hus : ∀ c ∈ u, c ≤ 127 := by
      intro c hc
      have hmem : ofByte c ∈ trimmed (trimmed (source.map ofByte)) := by
        rw [hu]
        exact List.mem_map_of_mem hc
      exact (ofByte_le_iff c).mp (hascii _ (mem_of_mem_trimmed (mem_of_mem_trimmed hmem)))
    have hleft : u.length - (source.map ofByte).countP isBlank = (payload (source.map ofByte)).length := by omega
    rw [decodeWebSafe_eq hne' hpad' hascii, hcount, Throwing.ok_bind]
    simp only [hleft]
    by_cases hone : (payload (source.map ofByte)).length % 4 = 1
    · rw [if_pos hone, if_pos hone]
      rfl
    · rw [if_neg hone, if_neg hone]
      show _ = (Base64Coder.decodeLoop 0 0 u).mapError ofException
      rw [decodeLoop_ofByte hus, ← hpayload]
      cases hvs : (payload (source.map ofByte)).mapM getByte with
      | error e => rfl
      | ok vs =>
        rw [Throwing.ok_bind, Throwing.ok_bind, decodeLoop_toChars (lt_of_mapM hvs) (by rw [length_of_mapM hvs]; exact hone)]
        rfl
  · rw [hcount, decodeWebSafe_of_gt]
    · rfl
    · intro h
      refine hs fun c hc => ?_
      exact (ofByte_le_iff c).mp (h _ (List.mem_map_of_mem hc))

/-! ## Which strings are decoded -/

/-- The two encodings. -/
inductive Coder where
  | webSafe
  | mime
  deriving DecidableEq

namespace Coder

/-- The decoder. -/
def decode : Coder → Text → Except Thrown Bytes
  | .webSafe, s => decodeWebSafe s
  | .mime, s => decodeMime s

/-- The character of the web-safe alphabet for a character. -/
def char : Coder → UInt16 → UInt16
  | .webSafe, c => c
  | .mime, c => if c = 43 then 45 else if c = 47 then 95 else c

/-- A character of the alphabet; the MIME decoder takes the last two of the other one, too. -/
def inAlphabet : Coder → UInt16 → Bool
  | .webSafe, c => (valueOf c).isSome
  | .mime, c => c = 43 || c = 47 || (valueOf c).isSome

variable (coder : Coder)

theorem char_cases (c : UInt16) : coder.char c = c ∨ coder = .mime ∧ (c = 43 ∧ coder.char c = 45 ∨ c = 47 ∧ coder.char c = 95) := by
  cases coder with
  | webSafe => exact Or.inl rfl
  | mime =>
    by_cases hplus : c = 43
    · exact Or.inr ⟨rfl, Or.inl ⟨hplus, by simp [char, hplus]⟩⟩
    · by_cases hslash : c = 47
      · exact Or.inr ⟨rfl, Or.inr ⟨hslash, by simp [char, hslash]⟩⟩
      · exact Or.inl (by simp [char, hplus, hslash])

theorem decode_eq (s : Text) : coder.decode s = decodeWebSafe (s.map coder.char) := by
  cases coder with
  | webSafe =>
    have hid : Coder.webSafe.char = id := rfl
    rw [hid, List.map_id]
    rfl
  | mime =>
    have hreplace : replace (replace s 43 45) 47 95 = s.map Coder.mime.char := by
      rw [replace, replace, List.map_map]
      refine List.map_congr_left fun c _ => ?_
      simp only [Function.comp_apply, char]
      by_cases hplus : c = 43
      · simp [hplus]
      · simp [hplus]
    show decodeWebSafe (replace (replace s 43 45) 47 95) = _
    rw [hreplace]

theorem isBlank_char (c : UInt16) : isBlank (coder.char c) = isBlank c := by
  rcases coder.char_cases c with h | ⟨-, ⟨rfl, h⟩ | ⟨rfl, h⟩⟩ <;> rw [h] <;> rfl

theorem char_eq_pad_iff (c : UInt16) : coder.char c = 61 ↔ c = 61 := by
  rcases coder.char_cases c with h | ⟨-, ⟨rfl, h⟩ | ⟨rfl, h⟩⟩ <;> rw [h] <;> decide

theorem char_le_iff (c : UInt16) : coder.char c ≤ 127 ↔ c ≤ 127 := by
  rcases coder.char_cases c with h | ⟨-, ⟨rfl, h⟩ | ⟨rfl, h⟩⟩ <;> rw [h] <;> decide

theorem inAlphabet_iff (c : UInt16) : coder.inAlphabet c = true ↔ (valueOf (coder.char c)).isSome := by
  cases coder with
  | webSafe => rfl
  | mime =>
    by_cases hplus : c = 43
    · subst hplus
      decide
    · by_cases hslash : c = 47
      · subst hslash
        decide
      · simp [inAlphabet, char, hplus, hslash]

theorem data_map_char (s : Text) : data (s.map coder.char) = (data s).map coder.char := by
  simp [data, List.filter_map, Function.comp_def, isBlank_char]

end Coder

/-- What is trimmed are not more than two padding characters. -/
theorem eq_trimmed (s : Text) : ∃ k ≤ 2, s = trimmed (trimmed s) ++ List.replicate k 61 := by
  rcases trimmed_cases s with hs | hs <;> rcases trimmed_cases (trimmed s) with ht | ht
  · exact ⟨0, by decide, by rw [← ht, ← hs]; simp⟩
  · exact ⟨1, by decide, hs.trans ht⟩
  · exact ⟨1, by decide, by rw [← ht]; exact hs⟩
  · refine ⟨2, by decide, ?_⟩
    rw [ht, List.append_assoc] at hs
    exact hs

theorem data_append (s t : Text) : data (s ++ t) = data s ++ data t := List.filter_append s t

theorem data_pads (k : Nat) : data (List.replicate k 61) = List.replicate k 61 := List.filter_replicate_of_pos rfl

theorem data_eq_payload (s : Text) : ∃ k ≤ 2, data s = payload s ++ List.replicate k 61 := by
  obtain ⟨k, hk, hs⟩ := eq_trimmed s
  refine ⟨k, hk, ?_⟩
  calc data s = data (trimmed (trimmed s) ++ List.replicate k 61) := by rw [← hs]
    _ = payload s ++ List.replicate k 61 := by rw [data_append, data_pads, payload]

/-- What is promised of a decoder: it throws nothing but the declared exception, and what it decodes are, without whitespace and at most
two padding characters, characters of the alphabet, not one more than groups of four. -/
structure DecodesTotally (coder : Coder) (s : Text) : Prop where
  checked : (∃ b, coder.decode s = .ok b) ∨ ∃ e, coder.decode s = .error (.base64 e)
  wellFormed : ∀ b, coder.decode s = .ok b → ∃ d k, k ≤ 2 ∧ data s = d ++ List.replicate k 61 ∧
    (∀ c ∈ d, coder.inAlphabet c = true) ∧ d.length % 4 ≠ 1

theorem decodeWebSafe_nil : decodeWebSafe [] = .error (.runtime .indexOutOfBounds) := rfl

theorem decodeWebSafe_pad : decodeWebSafe [61] = .error (.runtime .indexOutOfBounds) := rfl

/-- What a string is decoded to. -/
theorem decodeWebSafe_eq_ok_iff {s : Text} {b : Bytes} :
    decodeWebSafe s = .ok b ↔ (s ≠ [] ∧ s ≠ [61] ∧ ∀ c ∈ s, c ≤ 127) ∧ (payload s).length % 4 ≠ 1 ∧
      ∃ vs, (payload s).map valueOf = vs.map some ∧ b = bytesOf vs := by
  by_cases hcond : s ≠ [] ∧ s ≠ [61] ∧ ∀ c ∈ s, c ≤ 127
  · obtain ⟨hne, hpad, hs⟩ := hcond
    rw [decodeWebSafe_eq hne hpad hs]
    by_cases hone : (payload s).length % 4 = 1
    · simp [hone]
    · rw [if_neg hone]
      constructor
      · intro h
        obtain ⟨vs, hvs, hb⟩ := Throwing.ok_of_bind h
        exact ⟨⟨hne, hpad, hs⟩, hone, vs, mapM_getByte_eq_ok.mp hvs, (Except.ok.inj hb).symm⟩
      · rintro ⟨-, -, vs, hvs, rfl⟩
        rw [mapM_getByte_eq_ok.mpr hvs]
        rfl
  · have herror : decodeWebSafe s = .error (.runtime .indexOutOfBounds) := by
      by_cases hne : s = []
      · rw [hne, decodeWebSafe_nil]
      · by_cases hpad : s = [61]
        · rw [hpad, decodeWebSafe_pad]
        · exact decodeWebSafe_of_gt fun hs => hcond ⟨hne, hpad, hs⟩
    rw [herror]
    constructor
    · intro h
      cases h
    · intro h
      exact absurd h.1 hcond

/-- Nothing unchecked is thrown exactly when there is a character to look at for padding, twice, and the table has all of them. -/
theorem decodeWebSafe_checked_iff (s : Text) :
    ((∃ b, decodeWebSafe s = .ok b) ∨ ∃ e, decodeWebSafe s = .error (.base64 e)) ↔ s ≠ [] ∧ s ≠ [61] ∧ ∀ c ∈ s, c ≤ 127 := by
  constructor
  · intro h
    refine ⟨?_, ?_, ?_⟩
    · rintro rfl
      rw [decodeWebSafe_nil] at h
      simp at h
    · rintro rfl
      rw [decodeWebSafe_pad] at h
      simp at h
    · by_contra hs
      rw [decodeWebSafe_of_gt hs] at h
      simp at h
  · rintro ⟨hne, hpad, hs⟩
    rw [decodeWebSafe_eq hne hpad hs]
    by_cases hone : (payload s).length % 4 = 1
    · right
      exact ⟨_, if_pos hone⟩
    · rw [if_neg hone]
      rcases mapM_getByte_cases (payload s) with ⟨vs, hvs⟩ | ⟨c, -, -, herror⟩
      · left
        exact ⟨bytesOf vs, by rw [hvs]; rfl⟩
      · right
        exact ⟨.illegalCharacter c, by rw [herror]; rfl⟩

/-- The same strings are the exceptions for both encodings. -/
theorem Coder.char_exceptions (coder : Coder) (s : Text) :
    (s.map coder.char ≠ [] ∧ s.map coder.char ≠ [61] ∧ ∀ c ∈ s.map coder.char, c ≤ 127) ↔ s ≠ [] ∧ s ≠ [61] ∧ ∀ c ∈ s, c ≤ 127 := by
  have hpad : s.map coder.char = [61] ↔ s = [61] := by
    cases s with
    | nil => simp
    | cons c s => simp [coder.char_eq_pad_iff]
  simp only [ne_eq, List.map_eq_nil_iff, hpad, List.forall_mem_map, coder.char_le_iff]

/-- Decoding is total except for the empty string, a single padding character and characters behind the table. -/
theorem decodesTotally_iff (coder : Coder) (s : Text) :
    DecodesTotally coder s ↔ s ≠ [] ∧ s ≠ [61] ∧ ∀ c ∈ s, c ≤ 127 := by
  rw [← coder.char_exceptions s, ← decodeWebSafe_checked_iff]
  constructor
  · intro h
    rw [← coder.decode_eq]
    exact h.checked
  · intro h
    refine ⟨by rw [coder.decode_eq]; exact h, ?_⟩
    intro b hb
    rw [coder.decode_eq, decodeWebSafe_eq_ok_iff] at hb
    obtain ⟨-, hone, vs, hvs, -⟩ := hb
    obtain ⟨k, hk, hdata⟩ := data_eq_payload (s.map coder.char)
    rw [coder.data_map_char] at hdata
    obtain ⟨d, p, hsplit, hd, hp⟩ := List.map_eq_append_iff.mp hdata
    refine ⟨d, k, hk, ?_, ?_, ?_⟩
    · have hpads : p = List.replicate k 61 := by
        rw [List.eq_replicate_iff]
        refine ⟨by rw [← List.length_map coder.char, hp, List.length_replicate], fun c hc => ?_⟩
        have hmem : coder.char c ∈ List.replicate k 61 := by
          rw [← hp]
          exact List.mem_map_of_mem hc
        exact (coder.char_eq_pad_iff c).mp (List.eq_of_mem_replicate hmem)
      rw [hsplit, hpads]
    · intro c hc
      have hmem : valueOf (coder.char c) ∈ vs.map some := by
        rw [← hvs, ← hd, List.map_map]
        exact List.mem_map_of_mem hc
      obtain ⟨v, -, hv⟩ := List.mem_map.mp hmem
      rw [coder.inAlphabet_iff, ← hv]
      rfl
    · rw [← List.length_map coder.char, hd]
      exact hone

/-- The empty string, a padding character and an accented letter are where an array is indexed out of its bounds. -/
theorem accesses_are_unchecked :
    decodeWebSafe [] = .error (.runtime .indexOutOfBounds) ∧ decodeMime [61] = .error (.runtime .indexOutOfBounds) ∧
    decodeWebSafe [65, 65, 65, 233] = .error (.runtime .indexOutOfBounds) ∧ ¬DecodesTotally .webSafe [65, 65, 65, 233] := by
  refine ⟨rfl, rfl, rfl, fun h => ?_⟩
  rcases h.checked with ⟨b, hb⟩ | ⟨e, he⟩
  · cases hb
  · cases he

end Base64Strings

end Java
