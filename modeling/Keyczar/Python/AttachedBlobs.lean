import Keyczar.Python.SignedBytes
import Keyczar.Python.GenericKeyczar
import Keyczar.Lib.Throwing

/-!
# Which blobs are accepted

`AttachedVerify` cuts the data and the signature out of a blob by a length that it reads as a signed number and does not check. A length
that counts bytes that are there leads to the blob that `AttachedSign` makes; any other leads somewhere else.
-/

namespace Python

open Bytes Throwing

variable {κ ρ : Type} {C : KeyClass κ ρ}

/-- A signature verifies exactly when it is the one that signing gives. -/
def IdealMac (C : KeyClass κ ρ) : Prop := ∀ k r m t, C.verify k m t = .ok true ↔ C.sign k r m = .ok t

theorem idealMac_hmacKeys (P : Primitives) : IdealMac (hmacKeys P) := by
  intro k r m t
  have hverify := HmacKey.verify_iff P k m t
  constructor
  · intro h
    exact congrArg Except.ok (hverify.mp (Except.ok.inj h))
  · intro h
    exact congrArg Except.ok (hverify.mpr (Except.ok.inj h))

/-- The blob is the header of a key of the set, the packed data, and the signature of the key. -/
def CanonicalBlob (C : KeyClass κ ρ) (s : Keyczar κ) (random : ρ) (nonce blob data : Bytes) : Prop :=
  ∃ key packed msg sig, s.getKey (.hash (C.hashId key)) = .ok key ∧ packByteArray (some data) = .ok packed ∧
    signedBytes data (some nonce) = .ok msg ∧ C.sign key random msg = .ok sig ∧ blob = C.header key ++ packed ++ sig

/-- What stands in a blob where its length says, before or behind: a message and its signature. -/
def SignedAt (C : KeyClass κ ρ) (s : Keyczar κ) (random : ρ) (nonce blob : Bytes) (offset : Int) : Prop :=
  ∃ key msg, s.parseHeader (sliceTo blob HEADER_SIZE) = .ok key ∧
    signedBytes (slice blob (HEADER_SIZE + 4) offset) (some nonce) = .ok msg ∧ C.sign key random msg = .ok (sliceFrom blob offset)

/-! ## Keys by their headers -/

/-- In a loaded set, what is found under an identifier has it. -/
theorem Keyczar.hashId_of_getKey {accept : KeyPurpose → Bool} {order : DictOrder} {reader : Reader κ} {s : Keyczar κ}
    (h : Keyczar.init C accept order reader = .ok s) {i : Bytes} {key : κ} (hget : s.getKey (.hash i) = .ok key) :
    C.hashId key = i := by
  obtain ⟨l, -, hl⟩ := loaded_of_init h
  rw [getKey_eq_ok_iff, hl.keys_eq, lookup_hash_foldl, AList.lookup_empty, Option.or_none, Option.map_eq_some_iff] at hget
  obtain ⟨p, hp, rfl⟩ := hget
  simpa using List.find?_some hp

/-- In a loaded set, a header that leads to a key is the header of the key. -/
theorem Keyczar.header_of_parseHeader {accept : KeyPurpose → Bool} {order : DictOrder} {reader : Reader κ} {s : Keyczar κ}
    (h : Keyczar.init C accept order reader = .ok s) {hdr : Bytes} {key : κ} (hparse : s.parseHeader hdr = .ok key) :
    C.header key = hdr ∧ s.getKey (.hash (C.hashId key)) = .ok key := by
  cases hdr with
  | nil => cases hparse
  | cons version hash =>
    simp only [parseHeader] at hparse
    by_cases hversion : version ≠ VERSION
    · rw [if_pos hversion] at hparse
      cases hparse
    · rw [if_neg hversion] at hparse
      have hid := hashId_of_getKey h hparse
      have hhash : C.hash key = hash := base64WSEncode_injective hid
      refine ⟨?_, hid.symm ▸ hparse⟩
      rw [KeyClass.header, Python.header, hhash, not_not.mp hversion]

/-! ## Lengths -/

/-- A number that was read stands in the data. -/
theorem unpackInt_eq_ok {data : Bytes} {k : Nat} {n : Int} (h : unpackInt data k = .ok n) :
    ∃ m : Nat, (data.drop k).take 4 = be32 m ∧ m < 2 ^ 32 ∧ n = int32 m ∧ k + 4 ≤ data.length := by
  have hstart : (k : Int) + 4 = (k + 4 : Nat) := by push_cast; rfl
  unfold unpackInt at h
  rw [hstart, slice_nat, Nat.add_sub_cancel_left] at h
  cases hread : readBe32 ((data.drop k).take 4) with
  | none =>
    rw [hread] at h
    cases h
  | some m =>
    rw [hread] at h
    obtain ⟨heq, hlt⟩ := be32_of_readBe32 hread
    refine ⟨m, heq, hlt, (Except.ok.inj h).symm, ?_⟩
    have hlength := congrArg List.length heq
    rw [List.length_take, List.length_drop, length_be32] at hlength
    omega

/-- A length that counts bytes that are there splits the rest of a blob in two. -/
theorem split_of_unpackInt {blob : Bytes} {n : Int} (h : unpackInt blob HEADER_SIZE = .ok n) (hpos : 0 ≤ n)
    (hle : HEADER_SIZE + 4 + n ≤ blob.length) :
    packByteArray (some (slice blob (HEADER_SIZE + 4) (HEADER_SIZE + 4 + n))) =
        .ok (be32 n.toNat ++ slice blob (HEADER_SIZE + 4) (HEADER_SIZE + 4 + n)) ∧
      blob = sliceTo blob HEADER_SIZE ++ (be32 n.toNat ++ slice blob (HEADER_SIZE + 4) (HEADER_SIZE + 4 + n)) ++
        sliceFrom blob (HEADER_SIZE + 4 + n) := by
  obtain ⟨m, hfield, hm, rfl, -⟩ := unpackInt_eq_ok h
  have hsmall := lt_of_int32_nonneg hm hpos
  have hnat : int32 m = (m : Int) ∧ m < 2 ^ 31 := ⟨int32_of_lt hsmall, hsmall⟩
  have hheader : (HEADER_SIZE : Int) + 4 = (9 : Nat) := rfl
  have hend : (HEADER_SIZE : Int) + 4 + (m : Int) = (9 + m : Nat) := by
    rw [hheader]
    push_cast
    rfl
  have hsize : HEADER_SIZE = 5 := rfl
  rw [hnat.1] at hle ⊢
  rw [hend] at hle ⊢
  rw [hheader, slice_nat, sliceTo_nat, sliceFrom_nat, Nat.add_sub_cancel_left, Int.toNat_natCast]
  have hlength : ((blob.drop 9).take m).length = m := by
    rw [List.length_take, List.length_drop]
    omega
  refine ⟨?_, ?_⟩
  · rw [packByteArray_some_of_lt (by rw [hlength]; exact hnat.2), hlength]
  · have hrest : blob.drop 5 = be32 m ++ blob.drop 9 := by
      conv_lhs => rw [← List.take_append_drop 4 (blob.drop 5)]
      rw [hsize] at hfield
      rw [hfield, List.drop_drop]
    have htail : blob.drop 9 = (blob.drop 9).take m ++ blob.drop (9 + m) := by
      conv_lhs => rw [← List.take_append_drop m (blob.drop 9)]
      rw [List.drop_drop]
    rw [List.append_assoc, List.append_assoc, ← htail, ← hrest, hsize, List.take_append_drop]

/-- A canonical blob has a length that counts bytes that are there. -/
theorem CanonicalBlob.length_field {s : Keyczar κ} {random : ρ} {nonce blob data : Bytes}
    (h : CanonicalBlob C s random nonce blob data) :
    unpackInt blob HEADER_SIZE = .ok (data.length : Int) ∧ HEADER_SIZE + 4 + (data.length : Int) ≤ blob.length := by
  obtain ⟨key, packed, msg, sig, -, hpack, -, -, rfl⟩ := h
  obtain ⟨hlt, rfl⟩ := packByteArray_some_eq_ok_iff.mp hpack
  have hfield := @unpackInt_append (C.header key) data sig hlt
  rw [C.length_header] at hfield
  refine ⟨hfield, ?_⟩
  simp only [List.length_append, length_be32, C.length_header]
  push_cast
  omega

/-! ## What is accepted -/

/-- Once the length is read, the parts of the blob are verified with the key of its header. -/
theorem Verifier.attachedVerify_of_length (s : Keyczar κ) {blob : Bytes} {n : Int} (h : unpackInt blob HEADER_SIZE = .ok n)
    (nonce : Bytes) :
    Verifier.attachedVerify C s blob nonce none = do
      let key ← s.parseHeader (sliceTo blob HEADER_SIZE)
      let msg ← signedBytes (slice blob (HEADER_SIZE + 4) (HEADER_SIZE + 4 + n)) (some nonce)
      let verified ← C.verify key msg (sliceFrom blob (HEADER_SIZE + 4 + n))
      return if verified then some (slice blob (HEADER_SIZE + 4) (HEADER_SIZE + 4 + n)) else none := by
  unfold Verifier.attachedVerify Verifier.internalVerify decodeWith unpackByteArray
  simp only [ok_bind, h, pure_bind]
  cases s.parseHeader (sliceTo blob HEADER_SIZE) with
  | error e => rfl
  | ok key =>
    simp only [ok_bind]
    cases signedBytes (slice blob (HEADER_SIZE + 4) (HEADER_SIZE + 4 + n)) (some nonce) with
    | error e => rfl
    | ok msg =>
      simp only [ok_bind]
      cases C.verify key msg (sliceFrom blob (HEADER_SIZE + 4 + n)) with
      | error e => rfl
      | ok verified => cases verified <;> rfl

/-- With ideal signatures a blob is accepted when a message and its signature stand where its length says. -/
theorem Verifier.attachedVerify_eq_some_iff (hideal : IdealMac C) (s : Keyczar κ) (random : ρ) {blob nonce data : Bytes} :
    Verifier.attachedVerify C s blob nonce none = .ok (some data) ↔
      ∃ n, unpackInt blob HEADER_SIZE = .ok n ∧ data = slice blob (HEADER_SIZE + 4) (HEADER_SIZE + 4 + n) ∧
        SignedAt C s random nonce blob (HEADER_SIZE + 4 + n) := by
  cases hn : unpackInt blob HEADER_SIZE with
  | error e =>
    have hraise : Verifier.attachedVerify C s blob nonce none = .error e := by
      unfold Verifier.attachedVerify decodeWith unpackByteArray
      simp only [ok_bind, hn]
      rfl
    rw [hraise]
    constructor
    · exact nofun
    · rintro ⟨n, hcontra, -⟩
      cases hcontra
  | ok n =>
    rw [Verifier.attachedVerify_of_length s hn nonce]
    constructor
    · intro h
      obtain ⟨key, hkey, h⟩ := ok_of_bind h
      obtain ⟨msg, hmsg, h⟩ := ok_of_bind h
      obtain ⟨verified, hverify, h⟩ := ok_of_bind h
      cases verified with
      | false => cases h
      | true => exact ⟨n, rfl, (Option.some.inj (Except.ok.inj h)).symm, key, msg, hkey, hmsg, (hideal key random msg _).mp hverify⟩
    · rintro ⟨n', hn', rfl, key, msg, hkey, hmsg, hsign⟩
      cases hn'
      rw [hkey, ok_bind, hmsg, ok_bind, (hideal key random msg _).mpr hsign]
      rfl

/-- With ideal signatures and a loaded key set, what a blob is accepted for is what it was made of if and only if its length counts
bytes that are there, or no message and signature stand where it leads. The blob that is made of some data is accepted for it. -/
theorem attachedVerify_canonical_iff (hideal : IdealMac C) {accept : KeyPurpose → Bool} {order : DictOrder} {reader : Reader κ}
    {s : Keyczar κ} (hload : Keyczar.init C accept order reader = .ok s) (random : ρ) (blob nonce : Bytes) :
    ((∀ data, Verifier.attachedVerify C s blob nonce none = .ok (some data) → CanonicalBlob C s random nonce blob data) ↔
      ∀ n, unpackInt blob HEADER_SIZE = .ok n →
        0 ≤ n ∧ HEADER_SIZE + 4 + n ≤ blob.length ∨ ¬ SignedAt C s random nonce blob (HEADER_SIZE + 4 + n)) ∧
    ∀ data, CanonicalBlob C s random nonce blob data → Verifier.attachedVerify C s blob nonce none = .ok (some data) := by
  refine ⟨⟨?_, ?_⟩, ?_⟩
  · intro h n hn
    by_contra hbad
    rw [not_or, not_not] at hbad
    obtain ⟨hrange, hsigned⟩ := hbad
    obtain ⟨hfield, hle⟩ := (h _ ((Verifier.attachedVerify_eq_some_iff hideal s random).mpr ⟨n, hn, rfl, hsigned⟩)).length_field
    rw [hn] at hfield
    rw [← Except.ok.inj hfield] at hle
    exact hrange ⟨by rw [Except.ok.inj hfield]; exact Int.natCast_nonneg _, hle⟩
  · intro h data haccept
    obtain ⟨n, hn, rfl, hsigned⟩ := (Verifier.attachedVerify_eq_some_iff hideal s random).mp haccept
    obtain ⟨hpos, hle⟩ := (h n hn).resolve_right (not_not_intro hsigned)
    obtain ⟨key, msg, hkey, hmsg, hsign⟩ := hsigned
    obtain ⟨hheader, hget⟩ := Keyczar.header_of_parseHeader hload hkey
    obtain ⟨hpack, hsplit⟩ := split_of_unpackInt hn hpos hle
    refine ⟨key, _, msg, _, hget, hpack, hmsg, hsign, ?_⟩
    rw [hheader]
    exact hsplit
  · rintro data ⟨key, packed, msg, sig, hget, hpack, hmsg, hsign, rfl⟩
    obtain ⟨hlt, rfl⟩ := packByteArray_some_eq_ok_iff.mp hpack
    rw [Verifier.attachedVerify_layout hget hlt, hmsg, ok_bind, (hideal key random msg sig).mpr hsign]
    rfl

/-- A blob of the small key set with the length 1. -/
def smallBlob : Bytes := (hmacKeys Primitives.plain).header smallKey ++ [0, 0, 0, 1, 7] ++ smallKey.sign Primitives.plain [7, 0, 0, 0, 0, 0]

theorem attachedVerify_canonical_iff_smallBlob :
    CanonicalBlob (hmacKeys Primitives.plain) smallSet () [] smallBlob [7] := by
  have h := (attachedVerify_canonical_iff (idealMac_hmacKeys Primitives.plain) GenericKeyczar.init_smallReader () smallBlob []).1
  refine h.mpr (fun n hn => Or.inl ?_) [7] (by decide)
  have hone : unpackInt smallBlob HEADER_SIZE = .ok 1 := by decide
  cases hone.symm.trans hn
  decide

/-- The same blob with the length -29 is accepted for the same data. -/
theorem negative_length_is_accepted :
    let blob := smallBlob.take 5 ++ [255, 255, 255, 227] ++ smallBlob.drop 9
    Verifier.attachedVerify (hmacKeys Primitives.plain) smallSet blob [] none = .ok (some [7]) ∧
      Verifier.attachedVerify (hmacKeys Primitives.plain) smallSet smallBlob [] none = .ok (some [7]) ∧
      ¬ CanonicalBlob (hmacKeys Primitives.plain) smallSet () [] blob [7] := by
  refine ⟨by decide, by decide, fun h => ?_⟩
  have hfield := h.length_field.1
  revert hfield
  decide

end Python
