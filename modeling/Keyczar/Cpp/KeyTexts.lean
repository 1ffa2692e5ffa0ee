import Keyczar.Cpp.Base64W
import Keyczar.Cpp.MetadataTexts

/-!
# The text of a key

`GetValue` and `CreateFromValue` of the symmetric keys, in the current format. The values of the asymmetric keys hold the numbers of the
cryptographic library; they are a parameter.
-/

namespace Cpp

open Entries (getInteger getString getDictionary)
open scoped Entries Characters

/-! ## `key_util.cc` -/

/-- `SafeSerializeString`. -/
def serializeString (value destinationKey : Bytes) (node : Entries) : Option Entries :=
  (base64WEncode value).map fun temp => node.set destinationKey (.string temp)

/-- `Base64WDecode`, of a string whose length is an `int`. -/
def decodeBase64W (input : Bytes) : Option Bytes :=
  (Modp.b64wDecode (input.rdropWhile fun c => c = 61 ∨ c = 32)).filter (!·.isEmpty)

/-- `SafeDeserializeString`. -/
def deserializeString (node : Entries) (key : Bytes) : Option Bytes := (getString node key).bind decodeBase64W

theorem decode_eq_ok {input : Bytes} (h : input.length < 2 ^ 31) : Base64W.decode input = .ok (decodeBase64W input) := by
  have hle := (List.rdropWhile_prefix (fun c : UInt8 => decide (c = 61 ∨ c = 32)) (l := input)).length_le
  unfold Base64W.decode decodeBase64W
  dsimp only
  rw [toInt_of_lt (by omega), if_neg (Int.not_lt.mpr (Int.natCast_nonneg _)), Int.toNat_natCast, List.take_length]

theorem decodeBase64W_encode {s : Bytes} (hne : 0 < s.length) (hlt : s.length < 2 ^ 28) :
    decodeBase64W (Base64.encode Base64.webSafe s) = some s := by
  have hlength := Base64.length_encode Base64.webSafe s
  have hdecode := Base64W.decode_encode (List.ne_nil_of_length_pos hne) (show Base64W.Fits s.length by unfold Base64W.Fits; omega)
  rw [decode_eq_ok (by omega)] at hdecode
  exact Except.ok.inj hdecode

theorem ascii_of_mem_base64 {s : Bytes} {c : UInt8} (h : c ∈ Base64.encode Base64.webSafe s) : c < 0x80 := by
  have hall : ∀ i < 64, Base64.webSafe.toChar i < 0x80 := by decide
  obtain ⟨i, hi, rfl⟩ := Base64.exists_of_mem_encode Base64.webSafe h
  exact hall i hi

theorem isStringUTF8_base64 (s : Bytes) : isStringUTF8 (Base64.encode Base64.webSafe s) = true :=
  isStringUTF8_of_ascii fun _ hc => ascii_of_mem_base64 hc

/-! ## `hmac_key.cc` -/

/-- `GetDigestNameFromHMACKeySize`. -/
def getDigestNameFromHMACKeySize (size : Int) : Option String :=
  match size with
  | 160 => some "SHA1"
  | 224 => some "SHA224"
  | 256 => some "SHA256"
  | 384 => some "SHA384"
  | 512 => some "SHA512"
  | _ => none

/-- `CreateHMAC`: the length of the key names the hash function. -/
def createHMAC (key : Bytes) : Option HMACKey :=
  match toInt (key.length * 8) with
  | 160 => some ⟨key, .sha1⟩
  | 224 => some ⟨key, .sha224⟩
  | 256 => some ⟨key, .sha256⟩
  | 384 => some ⟨key, .sha384⟩
  | 512 => some ⟨key, .sha512⟩
  | _ => none

/-- `kAESSizes`. -/
def kAESSizes : List Int := [128, 192, 256]

/-- `kHMACSizes`. -/
def kHMACSizes : List Int := [160, 224, 256, 384, 512]

namespace HMACKey

/-- `CreateFromValue`. -/
def ofValue : Value → Option HMACKey
  | .dictionary hmacKey => do
    let key ← deserializeString hmacKey (asciiString "hmacKeyString")
    let size ← getInteger hmacKey (asciiString "size")
    -- Mismatch between key string length and declared size
    guard (size.tdiv 8 = toInt key.length)
    guard (size ∈ kHMACSizes)
    let digestName ← getString hmacKey (asciiString "digest")
    let digestNameCheck ← getDigestNameFromHMACKeySize size
    guard (stdString digestName = digestNameCheck)
    createHMAC key
  | _ => none

/-- `GetValue`. -/
def toJson (k : HMACKey) : Option Value := do
  let hmacKey ← serializeString k.keyBytes (asciiString "hmacKeyString") []
  let digestName ← getDigestNameFromHMACKeySize k.digestSize
  let hmacKey := hmacKey.set (asciiString "digest") (.string (asciiString digestName))
  return .dictionary (hmacKey.set (asciiString "size") (.integer k.digestSize))

/-- The key is as long as the hash it is for. -/
def Matched (k : HMACKey) : Prop := k.keyBytes.length = k.digest.size

instance (k : HMACKey) : Decidable k.Matched := inferInstanceAs (Decidable (_ = _))

end HMACKey

/-! ## `aes_key.cc` -/

/-- `CipherMode::GetTypeFromName` and `AESOpenSSL::Create`, of which only the first mode is supported. -/
def createAES (mode : String) (key : Bytes) : Option AESOpenSSL :=
  if mode ≠ "CBC" then none
  else if h : validKeyLength key.length then some ⟨key, h⟩
  else none

/-- `GetHMACSizeFromAESSize`. -/
def getHMACSizeFromAESSize (size : Int) : Int :=
  match size with
  | 128 => 160
  | 192 => 224
  | 256 => 256
  | _ => 0

namespace AESKey

/-- `size`, in bits. -/
def size (k : AESKey) : Int := k.aesImpl.key.length * 8

/-- `CreateFromValue`. -/
def ofValue : Value → Option AESKey
  | .dictionary aesKey => do
    let mode ← getString aesKey (asciiString "mode")
    let aesKeyString ← deserializeString aesKey (asciiString "aesKeyString")
    let size ← getInteger aesKey (asciiString "size")
    -- Mismatch between key string length and declared size
    guard (size.tdiv 8 = toInt aesKeyString.length)
    guard (size ∈ kAESSizes)
    let hmacKeyValue ← getDictionary aesKey (asciiString "hmacKey")
    let aesKeyImpl ← createAES (stdString mode) aesKeyString
    let hmacKey ← HMACKey.ofValue (.dictionary hmacKeyValue)
    -- Incompatibles key sizes between AES key and HMAC key.
    guard (getHMACSizeFromAESSize size = hmacKey.digestSize)
    return ⟨aesKeyImpl, hmacKey⟩
  | _ => none

/-- `GetValue`. -/
def toJson (k : AESKey) : Option Value := do
  let aesKey : Entries := []
  let aesKey := aesKey.set (asciiString "mode") (.string (asciiString "CBC"))
  let aesKey ← serializeString k.aesImpl.key (asciiString "aesKeyString") aesKey
  let aesKey := aesKey.set (asciiString "size") (.integer k.size)
  let hmacKeyValue ← k.hmacKey.toJson
  return .dictionary (aesKey.set (asciiString "hmacKey") hmacKeyValue)

/-- The HMAC key is as long as its hash, and of the size that goes with the AES key. -/
def Matched (k : AESKey) : Prop := k.hmacKey.Matched ∧ getHMACSizeFromAESSize k.size = k.hmacKey.digestSize

instance (k : AESKey) : Decidable k.Matched := inferInstanceAs (Decidable (_ ∧ _))

end AESKey

/-! ## What is read of what was written -/

/-- The name of a hash function. -/
def digestName : Digest → String
  | .sha1 => "SHA1"
  | .sha224 => "SHA224"
  | .sha256 => "SHA256"
  | .sha384 => "SHA384"
  | .sha512 => "SHA512"

theorem digestName_spec (d : Digest) : getDigestNameFromHMACKeySize (8 * d.size : Nat) = some (digestName d) ∧
    stdString (asciiString (digestName d)) = digestName d ∧ isStringUTF8 (asciiString (digestName d)) = true ∧
    ((8 * d.size : Nat) : Int) ∈ kHMACSizes ∧ ((8 * d.size : Nat) : Int).tdiv 8 = d.size ∧ InIntRange (8 * d.size : Nat) := by
  cases d <;> exact ⟨rfl, stdString_asciiString (by decide), by decide, by decide, by decide, by decide⟩

/-- What is checked and holds is passed. -/
theorem guard_bind {α : Type} {c : Prop} [Decidable c] (h : c) (f : Unit → Option α) : Option.bind (guard c) f = f () := by
  rw [guard, if_pos h]
  rfl

theorem guard_bind_eq_none {α : Type} {c : Prop} [Decidable c] (h : ¬c) (f : Unit → Option α) : Option.bind (guard c) f = none := by
  rw [guard, if_neg h]
  rfl

theorem of_guard_eq_some {c : Prop} [Decidable c] {u : Unit} (h : (guard c : Option Unit) = some u) : c := by
  unfold guard at h
  split at h
  · assumption
  · cases h

/-- Values that the reader reads from their text. -/
structure Storable (v : Value) : Prop where
  proper : v.Proper
  root : v.isRoot = true
  within : ∀ levels, v.Within (levels + 3)
  utf8 : v.Utf8

namespace HMACKey

/-- The dictionary of a key. -/
def dictionary (k : HMACKey) : Entries :=
  ((Entries.set [] (asciiString "hmacKeyString") (.string (Base64.encode Base64.webSafe k.keyBytes))).set (asciiString "digest")
    (.string (asciiString (digestName k.digest)))).set (asciiString "size") (.integer k.digestSize)

theorem toJson_eq {k : HMACKey} (hne : 0 < k.keyBytes.length) : k.toJson = some (.dictionary k.dictionary) := by
  unfold toJson serializeString digestSize
  rw [base64WEncode_eq hne, Option.map_some, Option.bind_eq_bind, Option.bind_some, (digestName_spec k.digest).1]
  rfl

theorem createHMAC_of_matched {k : HMACKey} (h : k.Matched) : createHMAC k.keyBytes = some k := by
  obtain ⟨key, d⟩ := k
  unfold createHMAC
  rw [show key.length = d.size from h]
  cases d <;> rfl

/-- A key is read from its dictionary when its length is that of the hash. -/
theorem ofValue_dictionary {k : HMACKey} (hne : 0 < k.keyBytes.length) (hlt : k.keyBytes.length < 2 ^ 28) :
    ofValue (.dictionary k.dictionary) = if k.Matched then some k else none := by
  obtain ⟨hname, hstd, -, hvalid, hdiv, -⟩ := digestName_spec k.digest
  unfold ofValue dictionary deserializeString getString getInteger
  simp (disch := decide) only [Entries.get_set_self, Entries.get_set_of_ne, Option.bind_eq_bind]
  rw [Option.bind_some, decodeBase64W_encode hne hlt, Option.bind_some, Option.bind_some]
  unfold digestSize
  rw [hdiv, toInt_of_lt (by omega)]
  by_cases hmatched : k.Matched
  · rw [guard_bind (congrArg Nat.cast hmatched.symm), guard_bind hvalid, if_pos hmatched, hname, Option.bind_some,
      Option.bind_some, hstd, guard_bind rfl, createHMAC_of_matched hmatched]
  · rw [guard_bind_eq_none fun h => hmatched (Int.ofNat_inj.mp h).symm, if_neg hmatched]

theorem within_dictionary (k : HMACKey) (levels : Nat) : (Value.dictionary k.dictionary).Within (levels + 2) := by
  refine Entries.forall_mem_set (by decide) (Entries.forall_mem_set (by decide) (Entries.forall_mem_set (by decide) ?_ ?_) ?_) ?_
  · exact List.forall_mem_nil _
  all_goals exact trivial

theorem storable_dictionary (k : HMACKey) : Storable (.dictionary k.dictionary) := by
  obtain ⟨-, -, hutf8, -, -, hint⟩ := digestName_spec k.digest
  refine ⟨((Value.proper_empty.set _ (.string _)).set _ (.string _)).set _ (.integer hint), rfl, fun levels => ?_, ?_⟩
  · exact k.within_dictionary (levels + 1)
  · refine Value.utf8_dictionary.mpr ?_
    refine Entries.forall_mem_set (by decide) (Entries.forall_mem_set (by decide) (Entries.forall_mem_set (by decide) ?_ ?_) ?_) ?_
    · exact List.forall_mem_nil _
    · exact ⟨(by decide : isStringUTF8 (asciiString "hmacKeyString") = true), .string (isStringUTF8_base64 _)⟩
    · exact ⟨(by decide : isStringUTF8 (asciiString "digest") = true), .string hutf8⟩
    · exact ⟨(by decide : isStringUTF8 (asciiString "size") = true), .integer _⟩

end HMACKey

namespace AESKey

/-- The dictionary of a key. -/
def dictionary (k : AESKey) : Entries :=
  (((Entries.set [] (asciiString "mode") (.string (asciiString "CBC"))).set (asciiString "aesKeyString")
    (.string (Base64.encode Base64.webSafe k.aesImpl.key))).set (asciiString "size") (.integer k.size)).set (asciiString "hmacKey")
    (.dictionary k.hmacKey.dictionary)

/-- The length of the key is one of three. -/
theorem size_spec (k : AESKey) : 0 < k.aesImpl.key.length ∧ k.aesImpl.key.length < 2 ^ 28 ∧ k.size ∈ kAESSizes ∧
    k.size.tdiv 8 = k.aesImpl.key.length ∧ InIntRange k.size := by
  have hvalid := k.aesImpl.valid
  simp only [validKeyLength, Bool.or_eq_true, decide_eq_true_eq] at hvalid
  unfold size
  rcases hvalid with (h | h) | h
  all_goals
    rw [h]
    decide

theorem toJson_eq {k : AESKey} (hne : 0 < k.hmacKey.keyBytes.length) : k.toJson = some (.dictionary k.dictionary) := by
  unfold toJson serializeString
  rw [base64WEncode_eq k.size_spec.1, HMACKey.toJson_eq hne]
  rfl

theorem createAES_of_valid (a : AESOpenSSL) : createAES "CBC" a.key = some a := by
  unfold createAES
  rw [if_neg (not_not_intro rfl), dif_pos a.valid]

/-- A key is read from its dictionary when the lengths of its two keys match. -/
theorem ofValue_dictionary {k : AESKey} (hne : 0 < k.hmacKey.keyBytes.length) (hlt : k.hmacKey.keyBytes.length < 2 ^ 28) :
    ofValue (.dictionary k.dictionary) = if k.Matched then some k else none := by
  obtain ⟨hpos, hlt', hvalid, hdiv, -⟩ := k.size_spec
  have hmode : stdString (asciiString "CBC") = "CBC" := stdString_asciiString (by decide)
  unfold ofValue dictionary deserializeString getString getInteger getDictionary
  simp (disch := decide) only [Entries.get_set_self, Entries.get_set_of_ne, Option.bind_eq_bind]
  rw [Option.bind_some, Option.bind_some, decodeBase64W_encode hpos hlt', Option.bind_some,
    Option.bind_some, hdiv, toInt_of_lt (by omega), guard_bind rfl, guard_bind hvalid, hmode, createAES_of_valid, Option.bind_some, Option.bind_some,
    HMACKey.ofValue_dictionary hne hlt]
  by_cases hhmac : k.hmacKey.Matched
  · rw [if_pos hhmac]
    by_cases hsize : getHMACSizeFromAESSize k.size = k.hmacKey.digestSize
    · rw [if_pos ⟨hhmac, hsize⟩, Option.bind_some, guard_bind hsize]
      rfl
    · rw [if_neg fun h : k.Matched => hsize h.2, Option.bind_some, guard_bind_eq_none hsize]
  · rw [if_neg hhmac, if_neg fun h : k.Matched => hhmac h.1]
    rfl

theorem storable_dictionary (k : AESKey) : Storable (.dictionary k.dictionary) := by
  have hhmac := k.hmacKey.storable_dictionary
  obtain ⟨-, -, -, -, hint⟩ := k.size_spec
  refine ⟨(((Value.proper_empty.set _ (.string _)).set _ (.string _)).set _ (.integer hint)).set _ hhmac.proper, rfl, ?_, ?_⟩
  · intro levels
    refine Entries.forall_mem_set (by decide) (Entries.forall_mem_set (by decide) (Entries.forall_mem_set (by decide)
      (Entries.forall_mem_set (by decide) ?_ ?_) ?_) ?_) (k.hmacKey.within_dictionary levels)
    · exact List.forall_mem_nil _
    all_goals exact trivial
  · refine Value.utf8_dictionary.mpr ?_
    refine Entries.forall_mem_set (by decide) (Entries.forall_mem_set (by decide) (Entries.forall_mem_set (by decide)
      (Entries.forall_mem_set (by decide) ?_ ?_) ?_) ?_) ?_
    · exact List.forall_mem_nil _
    · exact ⟨(by decide : isStringUTF8 (asciiString "mode") = true), .string (by decide)⟩
    · exact ⟨(by decide : isStringUTF8 (asciiString "aesKeyString") = true), .string (isStringUTF8_base64 _)⟩
    · exact ⟨(by decide : isStringUTF8 (asciiString "size") = true), .integer _⟩
    · exact ⟨(by decide : isStringUTF8 (asciiString "hmacKey") = true), hhmac.utf8⟩

end AESKey

/-! ## What is accepted -/

theorem createHMAC_eq_some {key : Bytes} {k : HMACKey} (h : createHMAC key = some k) :
    k.keyBytes = key ∧ toInt (key.length * 8) = (8 * k.digest.size : Nat) := by
  unfold createHMAC at h
  split at h
  all_goals first
    | cases h
      done
    | (rename_i hsize
       cases h
       exact ⟨rfl, hsize⟩)

theorem matched_of_createHMAC {key : Bytes} {k : HMACKey} (hlt : k.keyBytes.length < 2 ^ 28) (h : createHMAC key = some k) :
    k.Matched := by
  obtain ⟨rfl, hsize⟩ := createHMAC_eq_some h
  rw [show ((k.keyBytes.length : Int) * 8) = ((k.keyBytes.length * 8 : Nat) : Int) by omega, toInt_of_lt (by omega)] at hsize
  unfold HMACKey.Matched
  omega

/-- A key that is read has the length of its hash. -/
theorem HMACKey.matched_of_ofValue {v : Value} {k : HMACKey} (hlt : k.keyBytes.length < 2 ^ 28) (h : ofValue v = some k) : k.Matched := by
  unfold ofValue at h
  split at h
  · obtain ⟨key, -, h⟩ := Option.bind_eq_some_iff.mp h
    obtain ⟨size, -, h⟩ := Option.bind_eq_some_iff.mp h
    obtain ⟨-, -, h⟩ := Option.bind_eq_some_iff.mp h
    obtain ⟨-, -, h⟩ := Option.bind_eq_some_iff.mp h
    obtain ⟨digestName, -, h⟩ := Option.bind_eq_some_iff.mp h
    obtain ⟨digestNameCheck, -, h⟩ := Option.bind_eq_some_iff.mp h
    obtain ⟨-, -, h⟩ := Option.bind_eq_some_iff.mp h
    exact matched_of_createHMAC hlt h
  · cases h

/-- An AES key that is read has keys of lengths that match. -/
theorem AESKey.matched_of_ofValue {v : Value} {k : AESKey} (hlt : k.hmacKey.keyBytes.length < 2 ^ 28) (h : ofValue v = some k) :
    k.Matched := by
  unfold ofValue at h
  split at h
  · obtain ⟨mode, -, h⟩ := Option.bind_eq_some_iff.mp h
    obtain ⟨key, -, h⟩ := Option.bind_eq_some_iff.mp h
    obtain ⟨size, -, h⟩ := Option.bind_eq_some_iff.mp h
    obtain ⟨_, hdiv, h⟩ := Option.bind_eq_some_iff.mp h
    obtain ⟨_, hvalid, h⟩ := Option.bind_eq_some_iff.mp h
    obtain ⟨hmacKeyValue, -, h⟩ := Option.bind_eq_some_iff.mp h
    obtain ⟨aesKeyImpl, haes, h⟩ := Option.bind_eq_some_iff.mp h
    obtain ⟨hmacKey, hhmac, h⟩ := Option.bind_eq_some_iff.mp h
    obtain ⟨_, hsize, h⟩ := Option.bind_eq_some_iff.mp h
    cases h
    refine ⟨HMACKey.matched_of_ofValue hlt hhmac, ?_⟩
    rw [show (⟨aesKeyImpl, hmacKey⟩ : AESKey).size = size from ?_]
    · exact of_guard_eq_some hsize
    · obtain ⟨-, hlt', -, hdiv', -⟩ := (⟨aesKeyImpl, hmacKey⟩ : AESKey).size_spec
      have hkey : aesKeyImpl.key = key := by
        unfold createAES at haes
        split at haes
        · cases haes
        · split at haes
          · cases haes
            rfl
          · cases haes
      have hdiv := of_guard_eq_some hdiv
      have hvalid := of_guard_eq_some hvalid
      rw [hkey] at hlt'
      rw [toInt_of_lt (by omega)] at hdiv
      simp only [kAESSizes, List.mem_cons, List.not_mem_nil, or_false] at hvalid
      unfold AESKey.size
      dsimp only
      rw [hkey]
      rw [← hdiv]
      rcases hvalid with rfl | rfl | rfl <;> rfl
  · cases h

/-! ## `key.cc` -/

/-- What the classes of the asymmetric keys make of a value, and of a key. -/
structure AsymmetricKeys where
  createFromValue : KeyType → Value → Option Key
  getValue : Key → Option Value
  getPublicKeyValue : Key → Option Value

/-- A program without asymmetric keys. -/
def noAsymmetricKeys : AsymmetricKeys := ⟨fun _ _ => none, fun _ => none, fun _ => none⟩

namespace Key

variable (A : AsymmetricKeys)

/-- `CreateFromValue`. -/
def ofValue (keyType : KeyType) (root : Value) : Option Key :=
  match keyType with
  | .aes => (AESKey.ofValue root).map .aes
  | .hmac => (HMACKey.ofValue root).map .hmac
  | .undefined => none
  | keyType => A.createFromValue keyType root

/-- `GetValue`. -/
def toJson : Key → Option Value
  | .aes k => k.toJson
  | .hmac k => k.toJson
  | k => A.getValue k

/-- What `ReadKey` and `CreateFromValue` make of a text. -/
def ofText (keyType : KeyType) (text : Bytes) : Option Key :=
  match JSONReader.readAndReturnError text false with
  | .error _ => none
  | .ok root => ofValue A keyType root

/-- A key of a type that is read from its text, compact or pretty, as it is. -/
def Rereads (keyType : KeyType) (p : Bool) (k : Key) : Prop :=
  ∃ value, k.toJson A = some value ∧ ofText A keyType (JSONWriter.write value p) = some k

/-- A symmetric key, whose strings are shorter than any that the encoding could not take. -/
inductive Symmetric : KeyType → Key → Prop
  | aes (k : AESKey) : k.hmacKey.keyBytes.length < 2 ^ 28 → Symmetric .aes (.aes k)
  | hmac (k : HMACKey) : k.keyBytes.length < 2 ^ 28 → Symmetric .hmac (.hmac k)

/-- The lengths of a symmetric key match. -/
def Matched : Key → Prop
  | .aes k => k.Matched
  | .hmac k => k.Matched
  | _ => False

/-- The text of a value that the reader reads is read as the value. -/
theorem ofText_write {v : Value} (h : Storable v) (keyType : KeyType) (p : Bool) :
    ofText A keyType (JSONWriter.write v p) = ofValue A keyType v := by
  unfold ofText
  rw [(JSONReader.written_reads h.proper h.root p false).1 ⟨h.within 97, h.utf8⟩]

/-- A symmetric key that is read, from whatever text, has lengths that match. -/
theorem matched_of_ofText {keyType : KeyType} {k : Key} (hk : Symmetric keyType k) {text : Bytes}
    (h : ofText A keyType text = some k) : k.Matched := by
  unfold ofText at h
  split at h
  · cases h
  · cases hk with
    | aes k hlt =>
      obtain ⟨k', hread, heq⟩ := Option.map_eq_some_iff.mp h
      cases heq
      exact AESKey.matched_of_ofValue hlt hread
    | hmac k hlt =>
      obtain ⟨k', hread, heq⟩ := Option.map_eq_some_iff.mp h
      cases heq
      exact HMACKey.matched_of_ofValue hlt hread

/-- A symmetric key whose lengths match has a value that the reader reads, and that the key is made of. -/
theorem storable_of_matched {keyType : KeyType} {k : Key} (hk : Symmetric keyType k) (h : k.Matched) :
    ∃ value, k.toJson A = some value ∧ Storable value ∧ ofValue A keyType value = some k := by
  cases hk with
  | aes k hlt =>
    change k.Matched at h
    have hpos : 0 < k.hmacKey.keyBytes.length := by
      rw [show k.hmacKey.keyBytes.length = k.hmacKey.digest.size from h.1]
      have hle := k.hmacKey.digest.le_size
      omega
    refine ⟨_, AESKey.toJson_eq hpos, k.storable_dictionary, ?_⟩
    show (AESKey.ofValue _).map Key.aes = _
    rw [AESKey.ofValue_dictionary hpos hlt, if_pos h]
    rfl
  | hmac k hlt =>
    change k.Matched at h
    have hpos : 0 < k.keyBytes.length := by
      rw [show k.keyBytes.length = k.digest.size from h]
      have hle := k.digest.le_size
      omega
    refine ⟨_, HMACKey.toJson_eq hpos, k.storable_dictionary, ?_⟩
    show (HMACKey.ofValue _).map Key.hmac = _
    rw [HMACKey.ofValue_dictionary hpos hlt, if_pos h]
    rfl

/-- A symmetric key is read from its text as it is exactly when its lengths match; so every symmetric key that was read, from whatever
text, is read again from its own, compact or pretty. -/
theorem rereads_iff {keyType : KeyType} {k : Key} (hk : Symmetric keyType k) (p : Bool) :
    (Rereads A keyType p k ↔ k.Matched) ∧ ∀ text, ofText A keyType text = some k → Rereads A keyType p k := by
  have hrereads : k.Matched → Rereads A keyType p k := by
    intro h
    obtain ⟨value, hvalue, hstorable, hread⟩ := storable_of_matched A hk h
    exact ⟨value, hvalue, (ofText_write A hstorable keyType p).trans hread⟩
  refine ⟨⟨?_, hrereads⟩, fun text htext => hrereads (matched_of_ofText A hk htext)⟩
  rintro ⟨value, -, hread⟩
  exact matched_of_ofText A hk hread

/-- An AES key of 128 bits with the key of its HMAC. -/
def smallAES : AESKey where
  aesImpl := ⟨List.replicate 16 1, by decide⟩
  hmacKey := ⟨List.replicate 20 2, .sha1⟩

theorem rereads_iff_small : (Rereads noAsymmetricKeys .aes true (.aes smallAES) ↔ Matched (.aes smallAES)) ∧
    ∀ text, ofText noAsymmetricKeys .aes text = some (.aes smallAES) → Rereads noAsymmetricKeys .aes true (.aes smallAES) :=
  rereads_iff noAsymmetricKeys (.aes smallAES (by decide)) true

end Key

end Cpp
