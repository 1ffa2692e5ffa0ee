import Keyczar.Cpp.Base64W
import Keyczar.Cpp.Signer
import Keyczar.Cpp.Versions

/-!
# What is cut out of an attached signature

The parser adds a length, which it read as an `int`, to an offset, and compares the sum with the length of the string. So a length that is
little below zero is not refused, and one whose sum is no `int` is. What it cuts out as the data goes to the caller before the signature is
verified.
-/

namespace Cpp

open Bytes Throwing

/-- A length field that was read is that of a number. -/
theorem byteStringToInt32_eq_some {s : Bytes} {n : Int} (h : byteStringToInt32 s headerSize = some n) :
    9 ≤ s.length ∧ ∃ m < 2 ^ 32, (s.drop headerSize).take 4 = be32 m ∧ n = toInt m := by
  unfold byteStringToInt32 at h
  split at h
  · cases h
  · rename_i hshort
    obtain ⟨m, hm, rfl⟩ := Option.map_eq_some_iff.mp h
    obtain ⟨heq, hlt⟩ := be32_of_readBe32 hm
    exact ⟨Nat.not_lt.mp hshort, m, hlt, heq, int32_eq_toInt m⟩

namespace Verifier

/-- The layout of an attached signature. -/
structure Layout (signedData header data signature : Bytes) : Prop where
  eq : signedData = header ++ be32 data.length ++ data ++ signature
  header : header.length = headerSize
  data : data.length < 2 ^ 31

/-- What the parser cuts out at a length: the header, the data, and what is behind the data. A length below zero is none that `substr`
stops at. -/
structure Cut (signedData : Bytes) (dataLen : Int) (header data signature : Bytes) : Prop where
  start : 0 ≤ 9 + dataLen
  int : 9 + dataLen < 2 ^ 31
  within : 9 + dataLen ≤ signedData.length
  header : header = signedData.take headerSize
  data : data = (Size.ofInt dataLen).take (signedData.drop 9)
  signature : signature = signedData.drop (9 + dataLen).toNat

/-- The parser cuts at the length it reads, or it refuses. -/
theorem parseAttachedSignature_iff {signedData header data signature : Bytes} :
    parseAttachedSignature signedData = .ok (some (header, data, signature)) ↔
      ∃ dataLen, byteStringToInt32 signedData headerSize = some dataLen ∧ Cut signedData dataLen header data signature := by
  have hstart : ((headerSize : Nat) : Int) + 4 = (9 : Nat) := rfl
  have hzero : (Size.of headerSize).take (signedData.drop 0) = signedData.take headerSize := by rw [List.drop_zero]; rfl
  unfold parseAttachedSignature
  rw [substr_of_le (Nat.zero_le _), ok_bind, hzero]
  cases hnum : byteStringToInt32 signedData headerSize with
  | none =>
    dsimp only
    constructor
    · intro h
      cases h
    · rintro ⟨_, h, _⟩
      cases h
  | some dataLen =>
    obtain ⟨hlength, m, -, -, hm⟩ := byteStringToInt32_eq_some hnum
    have hlt : dataLen < 2 ^ 31 := by
      rw [hm]
      exact toInt_lt m
    have hle : -(2 ^ 31) ≤ dataLen := by
      rw [hm]
      exact neg_le_toInt m
    simp only [Option.some.injEq, exists_eq_left', hstart, Size.ofInt_natCast]
    -- the sum as an `int` is the sum, or it is below zero
    by_cases hin : 0 ≤ 9 + dataLen ∧ 9 + dataLen < 2 ^ 31 ∧ 9 + dataLen ≤ signedData.length
    · obtain ⟨hnonneg, hint, hwithin⟩ := hin
      obtain ⟨p, hp⟩ := Int.eq_ofNat_of_zero_le hnonneg
      have hsum : toInt (((9 : Nat) : Int) + dataLen) = (p : Nat) := by
        rw [show ((9 : Nat) : Int) + dataLen = (p : Nat) from hp]
        exact toInt_of_lt (by omega)
      have hple : p ≤ signedData.length := by omega
      have hexceeds : ¬ (Size.of p).exceeds signedData.length = true := by
        rw [Size.exceeds, decide_eq_true_eq]
        exact Nat.not_lt.mpr hple
      have hcut : (9 + dataLen).toNat = p := by
        rw [hp]
        exact Int.toNat_natCast p
      rw [hsum, Size.ofInt_natCast, if_neg hexceeds, substr_of_le hlength, ok_bind, substr_of_le hple, ok_bind]
      constructor
      · intro h
        cases h
        exact ⟨hnonneg, hint, hwithin, rfl, rfl, by rw [hcut]; rfl⟩
      · rintro ⟨-, -, -, rfl, rfl, rfl⟩
        rw [hcut]
        rfl
    · refine iff_of_false ?_ fun hcut => hin ⟨hcut.start, hcut.int, hcut.within⟩
      have hexceeds : (Size.ofInt (toInt (((9 : Nat) : Int) + dataLen))).exceeds signedData.length = true := by
        have hmod := toInt_emod (((9 : Nat) : Int) + dataLen)
        have hlt' := toInt_lt (((9 : Nat) : Int) + dataLen)
        have hle' := neg_le_toInt (((9 : Nat) : Int) + dataLen)
        unfold Size.ofInt
        split
        · rfl
        · rw [Size.exceeds, decide_eq_true_eq]
          omega
      rw [if_pos hexceeds]
      intro h
      cases h

/-- A blob has the layout when its length field counts bytes that are there. -/
theorem layout_iff {signedData header data signature : Bytes} :
    Layout signedData header data signature ↔
      ∃ n : Nat, byteStringToInt32 signedData headerSize = some (n : Int) ∧ 9 + n ≤ signedData.length ∧
        header = signedData.take headerSize ∧ data = (signedData.drop 9).take n ∧ signature = signedData.drop (9 + n) := by
  constructor
  · rintro ⟨rfl, hheader, hdata⟩
    have hfront : (header ++ be32 data.length).length = 9 := by rw [List.length_append, hheader]; rfl
    have hbody : (header ++ be32 data.length ++ data).length = 9 + data.length := by rw [List.length_append, hfront]
    refine ⟨data.length, ?_, ?_, ?_, ?_, ?_⟩
    · rw [List.append_assoc, byteStringToInt32_append hheader, toInt_of_lt hdata]
    · rw [List.length_append, hbody]
      exact Nat.le_add_right _ _
    · rw [List.append_assoc, List.append_assoc, List.take_left' hheader]
    · rw [List.append_assoc, List.drop_left' hfront, List.take_left' rfl]
    · rw [List.drop_left' hbody]
  · rintro ⟨n, hnum, hle, rfl, rfl, rfl⟩
    obtain ⟨-, m, hm, hfield, heq⟩ := byteStringToInt32_eq_some hnum
    have hlength : ((signedData.drop 9).take n).length = n := by
      rw [List.length_take_of_le]
      rw [List.length_drop]
      omega
    have hint := toInt_lt m
    have hmod := toInt_emod m
    have hnm : n = m := by omega
    refine ⟨?_, ?_, ?_⟩
    · rw [hlength, hnm, ← hfield, ← hnm]
      have hfront : signedData.take headerSize ++ (signedData.drop headerSize).take 4 = signedData.take 9 :=
        List.take_add.symm
      have hbody : signedData.take 9 ++ (signedData.drop 9).take n = signedData.take (9 + n) := List.take_add.symm
      rw [hfront, hbody, List.take_append_drop]
    · rw [List.length_take_of_le]
      exact Nat.le_trans (by decide) (Nat.le_trans (Nat.le_add_right 9 n) hle)
    · rw [hlength]
      omega

/-- The parser finds in a blob the parts of its layout, and nothing else. -/
def ParsesExactly (signedData : Bytes) : Prop :=
  ∀ header data signature, parseAttachedSignature signedData = .ok (some (header, data, signature)) ↔
    Layout signedData header data signature

/-- The length field of a blob is not one of the nine numbers below zero, and the data that it counts ends at an `int`, if it ends in
the blob. -/
def FieldFits (signedData : Bytes) : Prop :=
  ∀ dataLen, byteStringToInt32 signedData headerSize = some dataLen →
    ¬ (-9 ≤ dataLen ∧ dataLen < 0) ∧ ¬ (2 ^ 31 ≤ 9 + dataLen ∧ 9 + dataLen ≤ signedData.length)

theorem parsesExactly_iff_fieldFits (signedData : Bytes) : ParsesExactly signedData ↔ FieldFits signedData := by
  unfold ParsesExactly FieldFits
  simp only [parseAttachedSignature_iff, layout_iff]
  cases hnum : byteStringToInt32 signedData headerSize with
  | none =>
    refine iff_of_true ?_ nofun
    intro header data signature
    exact iff_of_false (fun ⟨_, h, _⟩ => nomatch h) fun ⟨_, h, _⟩ => nomatch h
  | some dataLen =>
    obtain ⟨hlength, -⟩ := byteStringToInt32_eq_some hnum
    simp only [Option.some.injEq, exists_eq_left', forall_eq']
    by_cases hneg : dataLen < 0
    · -- nothing has the layout, and the nine lengths are cut at
      have hno : ∀ n : Nat, dataLen ≠ n := fun n => by omega
      simp only [hno, false_and, exists_false, iff_false]
      constructor
      · intro hrefused
        refine ⟨fun hnine => ?_, fun hlarge => by omega⟩
        exact hrefused _ _ _ ⟨by omega, by omega, by omega, rfl, rfl, rfl⟩
      · rintro ⟨hnine, -⟩ header data signature hcut
        have hstart := hcut.start
        omega
    · obtain ⟨n, rfl⟩ := Int.eq_ofNat_of_zero_le (Int.not_lt.mp hneg)
      have hcut : (9 + (n : Int)).toNat = 9 + n := by omega
      simp only [Int.natCast_inj, exists_eq_left']
      constructor
      · intro hexact
        refine ⟨fun hnine => hneg hnine.2, fun ⟨hlarge, hin⟩ => ?_⟩
        have hsome := (hexact _ _ _).mpr ⟨by omega, rfl, rfl, rfl⟩
        have hint := hsome.int
        omega
      · rintro ⟨-, hlarge⟩ header data signature
        constructor
        · rintro ⟨-, -, hin, rfl, rfl, rfl⟩
          refine ⟨by omega, rfl, ?_, ?_⟩
          · rw [Size.ofInt_natCast]
            rfl
          · rw [hcut]
        · rintro ⟨hin, rfl, rfl, rfl⟩
          refine ⟨by omega, by omega, by omega, rfl, ?_, ?_⟩
          · rw [Size.ofInt_natCast]
            rfl
          · rw [hcut]

end Verifier

variable {ρ : Type}

/-- A key whose identifier is the code of a hash has that hash in its header. -/
theorem Signer.header_of_internalSign {z : Signer ρ} {k : SigningKey ρ} (hk : z.primaryKey = some k) {hash : Bytes}
    (hlength : hash.length = kKeyHashSize) (hhash : k.hash = base64WEncode hash) {random : ρ} {data sig header : Bytes}
    {hidden : Option Bytes} (h : z.internalSign random data hidden = some (sig, header)) : header = [0] ++ hash := by
  have hpos : 0 < hash.length := by
    rw [hlength]
    decide
  have hheader := SigningKey.header_eq hpos hhash
  unfold Signer.internalSign at h
  split at h
  · cases h
  · rw [hk, Option.bind_eq_bind, Option.bind_some, hheader, Option.bind_eq_bind, Option.bind_some] at h
    obtain ⟨signature, -, heq⟩ := Option.bind_eq_some_iff.mp h
    cases heq
    rfl

/-- What is signed is parsed again as long as its data ends at an `int`. -/
theorem Signer.attachedSign_parses_iff {z : Signer ρ} {random : ρ} {data hidden sig header : Bytes}
    (hsign : z.internalSign random data (some hidden) = some (sig, header)) (hheader : header.length = headerSize) :
    (∃ blob, z.attachedSign random data hidden = some blob ∧
      Verifier.parseAttachedSignature blob = .ok (some (header, data, sig))) ↔ 9 + data.length < 2 ^ 31 := by
  have hblob : z.attachedSign random data hidden = some (header ++ be32 data.length ++ data ++ sig) := by
    rw [attachedSign, hsign, Option.bind_eq_bind, Option.bind_some]
    rfl
  have hfield : byteStringToInt32 (header ++ be32 data.length ++ data ++ sig) headerSize = some (toInt data.length) := by
    rw [List.append_assoc]
    exact byteStringToInt32_append hheader data.length
  have hfront : (header ++ be32 data.length).length = 9 := by rw [List.length_append, hheader]; rfl
  have hbehind : (header ++ be32 data.length ++ data ++ sig).drop 9 = data ++ sig := by
    rw [List.append_assoc, List.drop_left' hfront]
  have hlength : (header ++ be32 data.length ++ data ++ sig).length = 9 + data.length + sig.length := by
    rw [List.length_append, List.length_append, hfront]
  simp only [hblob, Option.some.injEq, exists_eq_left', Verifier.parseAttachedSignature_iff, hfield]
  constructor
  · intro hcut
    by_cases hneg : toInt data.length < 0
    · -- the data would be all that is behind the field, with no signature, but one is cut
      have hdata := congrArg List.length hcut.data
      have hsig := congrArg List.length hcut.signature
      rw [Size.ofInt_of_neg hneg, hbehind, Size.take, List.length_append] at hdata
      rw [List.length_drop, hlength] at hsig
      omega
    · obtain ⟨n, hn⟩ := Int.eq_ofNat_of_zero_le (Int.not_lt.mp hneg)
      have hdata := congrArg List.length hcut.data
      have hint := hcut.int
      rw [hn, Size.ofInt_natCast, Size.take, List.length_take] at hdata
      omega
  · intro hroom
    have hint : toInt data.length = data.length := toInt_of_lt (by omega)
    rw [hint]
    have hend : (9 + (data.length : Int)).toNat = 9 + data.length := by omega
    have hbody : (header ++ be32 data.length ++ data).length = 9 + data.length := by rw [List.length_append, hfront]
    refine ⟨by omega, by omega, by omega, ?_, ?_, ?_⟩
    · rw [List.append_assoc, List.append_assoc, List.take_left' hheader]
    · rw [Size.ofInt_natCast, hbehind, Size.take, List.take_left' rfl]
    · rw [hend, List.drop_left' hbody]

/-- The parser inverts the layout of a blob exactly when its length field fits; and what a key with a hash of its size signs, attached
to its data, is parsed again exactly when the data ends at an `int`. -/
theorem parsesExactly_iff (signedData : Bytes) :
    (Verifier.ParsesExactly signedData ↔ Verifier.FieldFits signedData) ∧
    ∀ {ρ : Type} {z : Signer ρ} {k : SigningKey ρ} {hash : Bytes}, z.primaryKey = some k → hash.length = kKeyHashSize →
      k.hash = base64WEncode hash → ∀ {random : ρ} {data hidden sig header : Bytes},
      z.internalSign random data (some hidden) = some (sig, header) →
      ((∃ blob, z.attachedSign random data hidden = some blob ∧
        Verifier.parseAttachedSignature blob = .ok (some (header, data, sig))) ↔ 9 + data.length < 2 ^ 31) := by
  refine ⟨Verifier.parsesExactly_iff_fieldFits signedData, ?_⟩
  intro ρ z k hash hk hlength hhash random data hidden sig header hsign
  refine Signer.attachedSign_parses_iff hsign ?_
  rw [Signer.header_of_internalSign hk hlength hhash hsign, List.length_append, hlength]
  rfl

/-- A signer whose key signs everything with one byte. -/
def oneByteSigner : Signer Unit where
  keyset := some {}
  primaryKey := some
    { key := .other [65, 81, 73, 68, 66, 65] fun _ _ => true
      hash := base64WEncode [1, 2, 3, 4]
      sign := fun _ _ => some [7] }

/-- A length of -1 is not refused: the data is what is behind it, and the signature starts in front of that. -/
theorem length_of_minus_one_parses :
    Verifier.parseAttachedSignature [0, 1, 2, 3, 4, 255, 255, 255, 255, 8] = .ok (some ([0, 1, 2, 3, 4], [8], [255, 8])) ∧
      ¬ Verifier.Layout [0, 1, 2, 3, 4, 255, 255, 255, 255, 8] [0, 1, 2, 3, 4] [8] [255, 8] ∧
      ¬ Verifier.ParsesExactly [0, 1, 2, 3, 4, 255, 255, 255, 255, 8] := by
  have hparse : Verifier.parseAttachedSignature [0, 1, 2, 3, 4, 255, 255, 255, 255, 8] =
      .ok (some ([0, 1, 2, 3, 4], [8], [255, 8])) :=
    Verifier.parseAttachedSignature_iff.mpr ⟨-1, by decide, by decide, by decide, by decide, rfl, rfl, rfl⟩
  have hlayout : ¬ Verifier.Layout [0, 1, 2, 3, 4, 255, 255, 255, 255, 8] [0, 1, 2, 3, 4] [8] [255, 8] := by
    intro h
    exact absurd h.eq (by decide)
  exact ⟨hparse, hlayout, fun hexact => hlayout ((hexact _ _ _).mp hparse)⟩

theorem parsesExactly_iff_oneByte :
    (∃ blob, oneByteSigner.attachedSign () [5] [6] = some blob ∧
      Verifier.parseAttachedSignature blob = .ok (some ([0, 1, 2, 3, 4], [5], [7]))) ∧
    ¬ Verifier.ParsesExactly [0, 1, 2, 3, 4, 255, 255, 255, 247] := by
  refine ⟨((parsesExactly_iff []).2 (z := oneByteSigner) rfl (Eq.refl (List.length [1, 2, 3, 4])) rfl rfl).mpr (by decide), ?_⟩
  intro h
  exact ((parsesExactly_iff _).1.mp h (-9) (by decide)).1 (by decide)

/-! ## What the caller gets -/

namespace Verifier

/-- `AttachedVerify`, with the encoding of the verifier. -/
def attachedVerifyEncoded (P : Primitives) (z : Keyczar) (encoding : Encoding) (signedData hidden data : Bytes) :
    Except Exception (Bool × Bytes) := do
  match ← encoding.decode signedData with
  | none => return (false, data)
  | some decodedBytes => attachedVerify P z decodedBytes hidden data

variable {P : Primitives} {z : Keyczar}

theorem attachedVerifyEncoded_noEncoding (signedData hidden data : Bytes) :
    attachedVerifyEncoded P z .noEncoding signedData hidden data = attachedVerify P z signedData hidden data := rfl

/-- The key that the header names verifies the signature of the data, of the hidden string with its length, and of the version byte. -/
def Authentic (P : Primitives) (z : Keyczar) (header data hidden signature : Bytes) : Prop :=
  ∃ key, z.headerKey header = some key ∧
    key.verify P (data ++ be32 hidden.length ++ hidden ++ [kVersionByte]) signature = true

theorem authentic_iff (header data hidden signature : Bytes) : Authentic P z header data hidden signature ↔
    (z.headerKey header).any (fun key => key.verify P (buildMessageToSign data (some hidden)) signature) = true := by
  rw [Option.any_eq_true]
  rfl

/-- The string of the caller is as it was when the answer is `false`, and holds data with a signature that was verified when it is
`true`. -/
def ReleasesAuthentic (P : Primitives) (z : Keyczar) (encoding : Encoding) (signedData hidden old : Bytes) : Prop :=
  ∀ verified out, attachedVerifyEncoded P z encoding signedData hidden old = .ok (verified, out) →
    (verified = false → out = old) ∧
    (verified = true → ∃ decodedBytes header signature, encoding.decode signedData = .ok (some decodedBytes) ∧
      parseAttachedSignature decodedBytes = .ok (some (header, out, signature)) ∧ Authentic P z header out hidden signature)

/-- Data is released that is not authentic, unless whatever is cut out is what the string held or has a signature that is verified. -/
theorem releasesAuthentic_iff (P : Primitives) (z : Keyczar) (encoding : Encoding) (signedData hidden old : Bytes) :
    ReleasesAuthentic P z encoding signedData hidden old ↔
      ∀ decodedBytes dataLen header data signature, encoding.decode signedData = .ok (some decodedBytes) →
        byteStringToInt32 decodedBytes headerSize = some dataLen → Cut decodedBytes dataLen header data signature →
        data = old ∨ Authentic P z header data hidden signature := by
  unfold ReleasesAuthentic attachedVerifyEncoded
  constructor
  · intro hreleases decodedBytes dataLen header data signature hdecode hnum hcut
    have hrun := attachedVerify_of_parse P z (parseAttachedSignature_iff.mpr ⟨dataLen, hnum, hcut⟩) hidden old
    rw [hdecode, ok_bind] at hreleases
    by_cases hauthentic : Authentic P z header data hidden signature
    · exact Or.inr hauthentic
    · rw [authentic_iff, Bool.not_eq_true] at hauthentic
      rw [hauthentic] at hrun
      exact Or.inl ((hreleases _ _ hrun).1 rfl)
  · intro hcuts verified out hreturn
    obtain ⟨decoded, hdecode, hreturn⟩ := ok_of_bind hreturn
    cases decoded with
    | none =>
      cases hreturn
      exact ⟨fun _ => rfl, nofun⟩
    | some decodedBytes =>
      dsimp only at hreturn
      obtain ⟨parts, hparse⟩ := parseAttachedSignature_ok decodedBytes
      cases parts with
      | none =>
        rw [attachedVerify_of_refused P z hparse] at hreturn
        cases hreturn
        exact ⟨fun _ => rfl, nofun⟩
      | some parts =>
        obtain ⟨header, data, signature⟩ := parts
        obtain ⟨dataLen, hnum, hcut⟩ := parseAttachedSignature_iff.mp hparse
        rw [attachedVerify_of_parse _ _ hparse] at hreturn
        have hverified := hcuts _ _ _ _ _ hdecode hnum hcut
        obtain ⟨hanswer, rfl⟩ := Prod.mk.inj (Except.ok.inj hreturn)
        constructor
        · intro hfalse
          rcases hverified with heq | hauthentic
          · exact heq
          · rw [authentic_iff, hanswer, hfalse] at hauthentic
            cases hauthentic
        · intro htrue
          exact ⟨decodedBytes, header, signature, hdecode, hparse, (authentic_iff _ _ _ _).mpr (hanswer.trans htrue)⟩

/-- A key set that knows no key of the header: the answer is `false`, and the string holds what the blob says. -/
theorem unknown_key_releases_data :
    attachedVerifyEncoded .plain { keyset := some {} } .noEncoding [0, 1, 2, 3, 4, 0, 0, 0, 1, 7] [] [] = .ok (false, [7]) ∧
      ¬ ReleasesAuthentic .plain { keyset := some {} } .noEncoding [0, 1, 2, 3, 4, 0, 0, 0, 1, 7] [] [] := by
  have hparse : parseAttachedSignature [0, 1, 2, 3, 4, 0, 0, 0, 1, 7] = .ok (some ([0, 1, 2, 3, 4], [7], [])) :=
    parseAttachedSignature_iff.mpr ⟨1, by decide, by decide, by decide, by decide, rfl, rfl, rfl⟩
  have hkey : Keyczar.headerKey { keyset := some {} } [0, 1, 2, 3, 4] = none := by
    unfold Keyczar.headerKey
    split <;> rfl
  have hrun : attachedVerifyEncoded .plain { keyset := some {} } .noEncoding [0, 1, 2, 3, 4, 0, 0, 0, 1, 7] [] [] =
      .ok (false, [7]) := by
    rw [attachedVerifyEncoded_noEncoding, attachedVerify_of_parse _ _ hparse, hkey]
    rfl
  refine ⟨hrun, ?_⟩
  intro h
  exact absurd ((h _ _ hrun).1 rfl) (by decide)

end Verifier

end Cpp
