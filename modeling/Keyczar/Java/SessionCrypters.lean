import Keyczar.Java.Base64Encoding
import Keyczar.Java.Collisions
import Keyczar.Java.Sessions
import Keyczar.Java.SignedUris
import Keyczar.Lib.BigEndian
import Mathlib.Logic.Encodable.Basic
import Mathlib.Logic.Equiv.List

/-!
# What a packed session key opens

A session key is taken from whatever its crypter decrypts: two arrays that are not empty, behind a count, and anything after them. A
crypter of one key decrypts what a crypter of the same key encrypts, so all material that begins alike opens the same session.
-/

namespace Java

open Bytes Throwing

namespace Base64Strings

theorem encodeWebSafe_eq_ok_iff {b : Bytes} (hb : b.length < 2 ^ 31) {s : Text} :
    encodeWebSafe b = .ok s ↔ b.length < 3 * 2 ^ 29 ∧ s = text b := by
  rcases Nat.lt_or_ge b.length (3 * 2 ^ 29) with hlt | hge
  · rw [encodeWebSafe_of_lt hlt]
    exact ⟨fun h => ⟨hlt, (Except.ok.inj h).symm⟩, fun h => congrArg Except.ok h.2.symm⟩
  · rw [encodeWebSafe_of_ge hge hb]
    exact ⟨nofun, fun h => absurd h.1 (Nat.not_lt.mpr hge)⟩

end Base64Strings

open Base64Strings

/-! ## Keys -/

theorem secretKey_of_ne_nil {b : Bytes} (h : b ≠ []) : secretKey b = .ok ⟨b, h⟩ := dif_neg h

theorem secretKey_eq_ok {b : Bytes} {key : {key : Bytes // key ≠ []}} (h : secretKey b = .ok key) : b ≠ [] := by
  rintro rfl
  cases h

/-- Bytes that a key object is made of. -/
def KeyBytes (b : Bytes) : Prop := b ≠ [] ∧ b.length < 3 * 2 ^ 29

instance (b : Bytes) : Decidable (KeyBytes b) := inferInstanceAs (Decidable (_ ∧ _))

namespace HmacKeyJson

/-- The key object of some bytes. -/
def ofBytes (b : Bytes) : HmacKeyJson := { size := toInt32 (b.length * 8), hmacKeyString := text b }

theorem new_eq_ok_iff {b : Bytes} (hb : b.length < 2 ^ 31) {k : HmacKeyJson} : new b = .ok k ↔ KeyBytes b ∧ k = ofBytes b := by
  constructor
  · intro h
    obtain ⟨s, hs, h⟩ := ok_of_bind h
    obtain ⟨key, hkey, h⟩ := ok_of_bind h
    obtain ⟨hlt, rfl⟩ := (encodeWebSafe_eq_ok_iff hb).mp (mapError_eq_ok_iff.mp hs)
    exact ⟨⟨secretKey_eq_ok hkey, hlt⟩, (Except.ok.inj h).symm⟩
  · rintro ⟨⟨hne, hlt⟩, rfl⟩
    rw [new, encodeWebSafe_of_lt hlt, mapError_ok, ok_bind, secretKey_of_ne_nil hne, ok_bind]
    rfl

end HmacKeyJson

namespace AesKeyJson

/-- The key object of the bytes of its keys. -/
def ofBytes (a b : Bytes) : AesKeyJson where
  size := toInt32 (a.length * 8)
  aesKeyString := text a
  hmacKey := .ofBytes b
  mode := .cbc

theorem new_eq_ok_iff {a : Bytes} (ha : a.length < 2 ^ 31) {b : Bytes} {k : AesKeyJson} :
    new a (.ofBytes b) = .ok k ↔ KeyBytes a ∧ k = ofBytes a b := by
  constructor
  · intro h
    obtain ⟨s, hs, h⟩ := ok_of_bind h
    obtain ⟨key, hkey, h⟩ := ok_of_bind h
    obtain ⟨hlt, rfl⟩ := (encodeWebSafe_eq_ok_iff ha).mp (mapError_eq_ok_iff.mp hs)
    exact ⟨⟨secretKey_eq_ok hkey, hlt⟩, (Except.ok.inj h).symm⟩
  · rintro ⟨⟨hne, hlt⟩, rfl⟩
    rw [new, encodeWebSafe_of_lt hlt, mapError_ok, ok_bind, secretKey_of_ne_nil hne, ok_bind]
    rfl

/-- Two arrays make a key object when both are bytes of keys. -/
theorem new_of_bytes_eq_ok_iff {a b : Bytes} (ha : a.length < 2 ^ 31) (hb : b.length < 2 ^ 31) {k : AesKeyJson} :
    (HmacKeyJson.new b >>= AesKeyJson.new a) = .ok k ↔ KeyBytes a ∧ KeyBytes b ∧ k = ofBytes a b := by
  constructor
  · intro h
    obtain ⟨hmacKey, hhmac, h⟩ := ok_of_bind h
    obtain ⟨hkey, rfl⟩ := (HmacKeyJson.new_eq_ok_iff hb).mp hhmac
    obtain ⟨haes, rfl⟩ := (new_eq_ok_iff ha).mp h
    exact ⟨haes, hkey, rfl⟩
  · rintro ⟨haes, hkey, rfl⟩
    rw [(HmacKeyJson.new_eq_ok_iff hb).mpr ⟨hkey, rfl⟩, ok_bind]
    exact (new_eq_ok_iff ha).mpr ⟨haes, rfl⟩

/-- Packed keys are accepted, whatever follows them; nothing else is. -/
theorem fromPackedKey_eq_ok_iff {packedKeys : Bytes} (hlength : packedKeys.length < 2 ^ 31) {k : AesKeyJson} :
    fromPackedKey packedKeys = .ok k ↔
      ∃ a b rest, packedKeys = Util.packed [a, b] ++ rest ∧ KeyBytes a ∧ KeyBytes b ∧ k = ofBytes a b := by
  rcases Nat.lt_or_ge packedKeys.length 4 with hshort | hfour
  · rw [fromPackedKey, Util.lenPrefixUnpack_of_short hshort]
    refine ⟨nofun, ?_⟩
    rintro ⟨a, b, rest, h, -⟩
    have hcount := congrArg List.length h
    rw [List.length_append, Util.length_packed] at hcount
    omega
  · rcases Util.lenPrefixUnpack_spec hfour hlength 2 with ⟨r, t, hsome, -, heq⟩ | ⟨hnone, hall⟩
    · rw [fromPackedKey, hsome, mapError_ok, ok_bind]
      constructor
      · intro h
        rcases r with _ | ⟨a, _ | ⟨b, _ | ⟨c, r⟩⟩⟩
        · cases h
        · cases h
        · have hlengths := (Util.lengths_of_packed hlength heq).2
          obtain ⟨ha, hb, rfl⟩ := (new_of_bytes_eq_ok_iff (hlengths a (by simp)) (hlengths b (by simp))).mp h
          exact ⟨a, b, t, heq, ha, hb, rfl⟩
        · cases h
      · rintro ⟨a, b, rest, heq', ha, hb, rfl⟩
        obtain ⟨rfl, -⟩ := Util.packed_append_inj hlength heq heq'
        have hlengths := (Util.lengths_of_packed hlength heq').2
        exact (new_of_bytes_eq_ok_iff (hlengths a (by simp)) (hlengths b (by simp))).mpr ⟨ha, hb, rfl⟩
    · rw [fromPackedKey, hnone, mapError_ok, ok_bind]
      refine ⟨nofun, ?_⟩
      rintro ⟨a, b, rest, heq, -⟩
      exact absurd heq (hall [a, b] rest (by simp))

end AesKeyJson

/-- The key that key bytes are read as. -/
def sessionKey {a b : Bytes} (ha : KeyBytes a) (hb : KeyBytes b) : AesKey where
  aesBytes := a
  hmacKey := ⟨b, hb.1⟩
  ne_nil := ha.1

theorem AesKeyJson.init_ofBytes {a b : Bytes} (ha : KeyBytes a) (hb : KeyBytes b) : (ofBytes a b).init = .ok (sessionKey ha hb) := by
  have hhmac : decodeWebSafe (ofBytes a b).hmacKey.hmacKeyString = .ok b := decodeWebSafe_text hb.1
  have haes : decodeWebSafe (ofBytes a b).aesKeyString = .ok a := decodeWebSafe_text ha.1
  rw [init, hhmac, mapError_ok, ok_bind, secretKey_of_ne_nil hb.1, ok_bind, haes, mapError_ok, ok_bind, secretKey_of_ne_nil ha.1,
    ok_bind]
  rfl

/-! ## Crypters -/

section

variable {P : Primitives} {J : JSONObjects}

/-- A crypter of one key, which finds it under its hash, perhaps more than once. -/
structure CrypterOf (P : Primitives) (key : AesKey) (z : Keyczar) : Prop where
  primary : z.getPrimaryKey = some (.aes key)
  found : ∃ n, z.getKey (key.hash P) = (List.replicate (n + 1) key).map KeyczarKey.aes

theorem primaryVersion_foldl (hs : List Bytes) (key : KeyczarKey) (z : Keyczar) :
    (hs.foldl (fun z h => z.addKeyHashMap h key) z).primaryVersion = z.primaryVersion := by
  induction hs generalizing z with
  | nil => rfl
  | cons h hs ih => exact ih _

/-- The reader's one version is loaded. -/
theorem crypterOf_imported (key : AesKey) :
    ∃ z, Keyczar.new P Crypter.isAcceptablePurpose (importedKeyReader key) = .ok z ∧ CrypterOf P key z := by
  obtain ⟨z, hz⟩ : ∃ z, Keyczar.loadVersion P (importedKeyReader key) {} ⟨0, .primary⟩ = .ok z := ⟨_, rfl⟩
  have hnew : Keyczar.new P Crypter.isAcceptablePurpose (importedKeyReader key) = .ok z := by
    have hversions : [(⟨0, .primary⟩ : KeyVersion)].foldlM (Keyczar.loadVersion P (importedKeyReader key)) {} = .ok z := by
      rw [List.foldlM_cons, hz, ok_bind]
      rfl
    exact hversions
  obtain ⟨key', hkey', hmap, hversionMap⟩ := Keyczar.loadVersion_eq_ok hz
  obtain rfl : .aes key = key' := Except.ok.inj hkey'
  have hprimary : z.primaryVersion = some ⟨0, .primary⟩ := by
    rw [← Except.ok.inj hz]
    exact primaryVersion_foldl _ _ _
  refine ⟨z, hnew, ?_, ?_⟩
  · rw [Keyczar.getPrimaryKey, hprimary, hversionMap]
    rfl
  · have hfilter : (Keyczar.hashes P (.aes key)).filter (· = key.hash P) =
        key.hash P :: (key.fallbackHash P).filter (· = key.hash P) := List.filter_cons_of_pos (decide_eq_true rfl)
    refine ⟨((key.fallbackHash P).filter (· = key.hash P)).length, ?_⟩
    rw [Keyczar.getKey, hmap, hfilter, List.map_const', List.length_cons, List.map_replicate]
    rfl

/-- The crypter of an imported key. -/
theorem exists_importedCrypter (P : Primitives) (J : JSONObjects) {a b : Bytes} (ha : KeyBytes a) (hb : KeyBytes b) :
    ∃ z, importedCrypter P J (.ofBytes a b) = .ok z ∧ CrypterOf P (sessionKey ha hb) z := by
  obtain ⟨z, hnew, hz⟩ := crypterOf_imported (P := P) (sessionKey ha hb)
  refine ⟨z, ?_, hz⟩
  rw [importedCrypter, J.readKey_writeKey]
  dsimp only
  rw [AesKeyJson.init_ofBytes ha hb, ok_bind, hnew, mapError_ok]

/-- Such a crypter encrypts under its key, when it is as long as an AES key. -/
theorem CrypterOf.encrypt_eq_ok {key : AesKey} {z : Keyczar} (hz : CrypterOf P key z) (hmode : key.mode = .cbc) {ivPreImage : Bytes}
    (hpre : ivPreImage.length = 16) {plain ct : Bytes} (h : encryptImported P z ivPreImage plain = .ok ct) :
    validKeyLength key.aesBytes.length ∧ ct = Encrypter.ciphertext P key ivPreImage plain := by
  rw [encryptImported, Encrypter.encrypt, hz.primary] at h
  exact Encrypter.encryptWith_eq_ok hmode hpre (mapError_eq_ok_iff.mp h)

theorem CrypterOf.encrypt_eq {key : AesKey} {z : Keyczar} (hz : CrypterOf P key z) (hmode : key.mode = .cbc)
    (hkey : validKeyLength key.aesBytes.length) {ivPreImage : Bytes} (hpre : ivPreImage.length = 16) {plain : Bytes}
    (hlen : plain.length < 2 ^ 31 - 48) : encryptImported P z ivPreImage plain = .ok (Encrypter.ciphertext P key ivPreImage plain) := by
  rw [encryptImported, Encrypter.encrypt, hz.primary]
  dsimp only
  rw [Encrypter.encryptWith_eq hmode hkey hpre hlen, mapError_ok]

/-- What is encrypted is no longer than an array can hold encrypted. -/
theorem CrypterOf.length_of_encrypt {key : AesKey} {z : Keyczar} (hz : CrypterOf P key z) (hmode : key.mode = .cbc) {ivPreImage : Bytes}
    (hpre : ivPreImage.length = 16) {plain ct : Bytes} (hplain : plain.length < 2 ^ 31)
    (h : encryptImported P z ivPreImage plain = .ok ct) : ct.length < 2 ^ 31 := by
  obtain ⟨hkey, rfl⟩ := hz.encrypt_eq_ok hmode hpre h
  have hlt : plain.length < 2 ^ 31 - 48 := by
    by_contra hlarge
    rw [encryptImported, Encrypter.encrypt, hz.primary] at h
    dsimp only at h
    rw [Encrypter.encryptWith_of_large hmode hkey (Nat.not_lt.mp hlarge) hplain] at h
    cases h
  rw [Encrypter.ciphertext, Format.length_ciphertext P _ (key.length_hash P) (Encrypter.length_ivOf hpre)]
  omega

/-- It decrypts a ciphertext of its key. -/
theorem CrypterOf.decrypt_eq {key : AesKey} {z : Keyczar} (hz : CrypterOf P key z) (hmode : key.mode = .cbc)
    (hkey : validKeyLength key.aesBytes.length) {iv : Bytes} (hiv : iv.length = 16) (plain : Bytes) :
    Crypter.decrypt P z (Format.ciphertext P (key.hash P) key.aesBytes key.hmacKey.keyBytes iv plain) = .ok plain := by
  obtain ⟨n, hkeys⟩ := hz.found
  have hown : Crypter.OnlyOwn P (Crypter.message P key hiv plain) key (List.replicate (n + 1) key) := by
    intro k' hk' _
    exact List.eq_of_mem_replicate hk'
  have hfirst : (List.replicate (n + 1) key).takeWhile (· ≠ key) = [] := by simp [List.replicate_succ]
  exact Crypter.decrypt_ok_of_short hiv hmode hkey hkeys hown (by simp) (Or.inl hfirst)

/-! ## What is generated -/

namespace AesKeyParameters

variable (params : AesKeyParameters) (d : SessionDraws)

theorem length_aesKeyBytes_le : (params.aesKeyBytes d).length ≤ 32 := by
  rw [aesKeyBytes, List.length_take, d.length_random]
  exact Nat.min_le_right _ _

theorem generate_eq_ok_iff {k : AesKeyJson} : params.generate d = .ok k ↔
    KeyBytes (params.aesKeyBytes d) ∧ KeyBytes params.hmacKeyBytes ∧ k = .ofBytes (params.aesKeyBytes d) params.hmacKeyBytes := by
  have hle := params.length_aesKeyBytes_le d
  exact AesKeyJson.new_of_bytes_eq_ok_iff (by omega) params.length_hmacKeyBytes

/-- A size that is accepted is that of an AES key. -/
theorem length_aesKeyBytes (h : params.keySize ∈ acceptableSizes) :
    KeyBytes (params.aesKeyBytes d) ∧ validKeyLength (params.aesKeyBytes d).length := by
  have hsize : params.keySize = 128 ∨ params.keySize = 192 ∨ params.keySize = 256 := by simpa [acceptableSizes] using h
  have hlength : (params.aesKeyBytes d).length = 16 ∨ (params.aesKeyBytes d).length = 24 ∨ (params.aesKeyBytes d).length = 32 := by
    rw [aesKeyBytes, List.length_take, d.length_random]
    omega
  refine ⟨⟨List.ne_nil_of_length_pos (by omega), by omega⟩, ?_⟩
  simpa [validKeyLength, or_assoc] using hlength

end AesKeyParameters

namespace SessionDraws

variable (d : SessionDraws)

/-- The keys of a session with default parameters. -/
def aesKeyBytes : Bytes := d.defaultParameters.aesKeyBytes d

theorem keyBytes_aesKeyBytes : KeyBytes d.aesKeyBytes ∧ validKeyLength d.aesKeyBytes.length :=
  d.defaultParameters.length_aesKeyBytes d List.mem_cons_self

theorem keyBytes_hmacRandom : KeyBytes d.hmacRandom := by
  have hlength := d.length_hmacRandom
  exact ⟨List.ne_nil_of_length_pos (by omega), by omega⟩

/-- The packed keys. -/
def packedKeys : Bytes := Util.packed [d.aesKeyBytes, d.hmacRandom]

theorem lenPrefixPack_keys : Util.lenPrefixPack [d.aesKeyBytes, d.hmacRandom] = .ok d.packedKeys := by
  refine Util.lenPrefixPack_of_lt ?_
  have hle := d.defaultParameters.length_aesKeyBytes_le d
  have hhmac := d.length_hmacRandom
  rw [Util.length_packed]
  simp only [List.flatten_cons, List.flatten_nil, List.length_append, List.length_cons, List.length_nil]
  unfold aesKeyBytes
  omega

end SessionDraws

/-! ## A small session -/

def textCode (s : Text) : List Nat := s.map UInt16.toNat

def textOfCode (l : List Nat) : Text := l.map UInt16.ofNat

theorem textOfCode_textCode (s : Text) : textOfCode (textCode s) = s := by
  simp [textOfCode, textCode, Function.comp_def]

def modeCode : CipherMode → Nat
  | .cbc => 0
  | .ctr => 1
  | .ecb => 2
  | .detCbc => 3

def modeOfCode : Nat → CipherMode
  | 0 => .cbc
  | 1 => .ctr
  | 2 => .ecb
  | _ => .detCbc

theorem modeOfCode_modeCode (m : CipherMode) : modeOfCode (modeCode m) = m := by
  cases m <;> rfl

def keyCode (k : AesKeyJson) : Int × List Nat × Int × List Nat × Nat :=
  (k.size, textCode k.aesKeyString, k.hmacKey.size, textCode k.hmacKey.hmacKeyString, modeCode k.mode)

def keyOfCode (c : Int × List Nat × Int × List Nat × Nat) : AesKeyJson where
  size := c.1
  aesKeyString := textOfCode c.2.1
  hmacKey := ⟨c.2.2.1, textOfCode c.2.2.2.1⟩
  mode := modeOfCode c.2.2.2.2

theorem keyOfCode_keyCode (k : AesKeyJson) : keyOfCode (keyCode k) = k := by
  simp [keyOfCode, keyCode, textOfCode_textCode, modeOfCode_modeCode]

/-- The session of the small draws. -/
def smallMaterial : SessionMaterial where
  key := .ofBytes (List.replicate 16 1) (List.replicate 32 2)
  nonce := text (List.replicate 16 0)

/-- The text of the small session. -/
def smallJson : Bytes :=
  ("\x7b\"key\":\x7b\"size\":128,\"aesKeyString\":\"AQEBAQEBAQEBAQEBAQEBAQ\",\"hmacKey\":\x7b\"size\":256," ++
    "\"hmacKeyString\":\"AgICAgICAgICAgICAgICAgICAgICAgICAgICAgICAgI\"\x7d,\"mode\":\"CBC\"\x7d," ++
    "\"nonce\":\"AAAAAAAAAAAAAAAAAAAAAA\"\x7d").toList.map fun c => UInt8.ofNat c.toNat

theorem smallJson_spec : smallJson.length < 1000 ∧ smallJson.head? = some 123 := by
  decide +kernel

/-- JSON objects: the small session has its text, and all else the bytes of a number. -/
def smallObjects : JSONObjects where
  writeKey k := BigEndian.toBytes (Encodable.encode (keyCode k))
  readKey s := (Encodable.decode (BigEndian.ofBytes s)).map keyOfCode
  writeSession s := if s = smallMaterial then smallJson else 0 :: BigEndian.toBytes (Encodable.encode (keyCode s.key, textCode s.nonce))
  readSession s := if s = smallJson then some smallMaterial else (Encodable.decode (BigEndian.ofBytes s.tail)).map
    fun c : (Int × List Nat × Int × List Nat × Nat) × List Nat => ⟨keyOfCode c.1, textOfCode c.2⟩
  readKey_writeKey k := by rw [BigEndian.ofBytes_toBytes, Encodable.encodek, Option.map_some, keyOfCode_keyCode]
  readSession_writeSession s := by
    by_cases hs : s = smallMaterial
    · rw [if_pos hs, if_pos rfl, hs]
    · have hne : 0 :: BigEndian.toBytes (Encodable.encode (keyCode s.key, textCode s.nonce)) ≠ smallJson := by
        intro h
        have hhead := smallJson_spec.2
        rw [← h] at hhead
        cases hhead
      rw [if_neg hs, if_neg hne, List.tail_cons, BigEndian.ofBytes_toBytes, Encodable.encodek, Option.map_some, keyOfCode_keyCode,
        textOfCode_textCode]

/-- Keys of threes and fours. -/
def smallSessionKey : AesKey := sessionKey (a := List.replicate 16 3) (b := List.replicate 32 4) (by decide) (by decide)

def smallPreImage : Bytes := List.replicate 16 9

theorem length_smallRandom : (List.replicate 32 (1 : UInt8)).length = 32 := List.length_replicate

theorem length_smallHmacRandom : (List.replicate 32 (2 : UInt8)).length = 32 := List.length_replicate

theorem length_smallNonce : (List.replicate 16 (0 : UInt8)).length = 16 := List.length_replicate

def smallSessionDraws : SessionDraws where
  random := List.replicate 32 1
  hmacRandom := List.replicate 32 2
  nonce := List.replicate 16 0
  length_random := length_smallRandom
  length_hmacRandom := length_smallHmacRandom
  length_nonce := length_smallNonce

/-- What the small key encrypts its crypter decrypts. -/
theorem small_crypter : ∃ z, CrypterOf .plain smallSessionKey z ∧ ∀ x y : Bytes, x.length < 2 ^ 31 →
    Encrypter.encryptWith .plain smallSessionKey smallPreImage x = .ok y →
      y ≠ [] ∧ y.length < 2 ^ 31 ∧ Crypter.decrypt .plain z y = .ok x := by
  obtain ⟨z, -, hz⟩ := crypterOf_imported (P := .plain) smallSessionKey
  have hpre : smallPreImage.length = 16 := List.length_replicate
  refine ⟨z, hz, fun x y hx hy => ?_⟩
  have hlength : y.length < 2 ^ 31 := by
    refine hz.length_of_encrypt rfl hpre hx ?_
    rw [encryptImported, Encrypter.encrypt, hz.primary]
    dsimp only
    rw [hy, mapError_ok]
  obtain ⟨-, rfl⟩ := Encrypter.encryptWith_eq_ok (k := smallSessionKey) rfl hpre hy
  refine ⟨List.ne_nil_of_length_pos ?_, hlength, hz.decrypt_eq rfl rfl (Encrypter.length_ivOf hpre) x⟩
  rw [Encrypter.ciphertext, Format.length_ciphertext .plain _ (AesKey.length_hash .plain smallSessionKey) (Encrypter.length_ivOf hpre)]
  omega

/-! ## Sessions with a packed key -/

namespace SessionCrypter

variable {encrypt decrypt : Bytes → Except Exception Bytes}

theorem ofMaterial_eq_ok_iff {material packedKeys : Bytes} (hdecrypt : decrypt material = .ok packedKeys)
    (hlength : packedKeys.length < 2 ^ 31) {c : SessionCrypter} :
    ofMaterial P J decrypt material = .ok c ↔ ∃ a b rest, packedKeys = Util.packed [a, b] ++ rest ∧ KeyBytes a ∧ KeyBytes b ∧
      importedCrypter P J (.ofBytes a b) = .ok c.symmetricCrypter ∧ c.sessionMaterial = material := by
  rw [ofMaterial, hdecrypt, mapError_ok, ok_bind]
  constructor
  · intro h
    obtain ⟨key, hkey, h⟩ := ok_of_bind h
    obtain ⟨z, hz, hreturn⟩ := ok_of_bind h
    obtain ⟨a, b, rest, hpacked, ha, hb, rfl⟩ := (AesKeyJson.fromPackedKey_eq_ok_iff hlength).mp hkey
    obtain rfl := Except.ok.inj hreturn
    exact ⟨a, b, rest, hpacked, ha, hb, hz, rfl⟩
  · rintro ⟨a, b, rest, hpacked, ha, hb, hz, rfl⟩
    rw [(AesKeyJson.fromPackedKey_eq_ok_iff hlength).mpr ⟨a, b, rest, hpacked, ha, hb, rfl⟩, ok_bind, hz, ok_bind]
    rfl

/-- What a new session is made of. -/
theorem new_eq_ok_iff {d : SessionDraws} {e : SessionCrypter} : new P J encrypt d = .ok e ↔
    importedCrypter P J (.ofBytes d.aesKeyBytes d.hmacRandom) = .ok e.symmetricCrypter ∧ encrypt d.packedKeys = .ok e.sessionMaterial := by
  have hkey : d.defaultParameters.generate d = .ok (.ofBytes d.aesKeyBytes d.hmacRandom) :=
    (d.defaultParameters.generate_eq_ok_iff d).mpr ⟨d.keyBytes_aesKeyBytes.1, d.keyBytes_hmacRandom, rfl⟩
  rw [new, hkey, ok_bind]
  constructor
  · intro h
    obtain ⟨z, hz, h⟩ := ok_of_bind h
    obtain ⟨encoded, hencoded, h⟩ := ok_of_bind h
    obtain ⟨material, hmaterial, hreturn⟩ := ok_of_bind h
    obtain rfl : d.packedKeys = encoded := Except.ok.inj (d.lenPrefixPack_keys.symm.trans (mapError_eq_ok_iff.mp hencoded))
    obtain rfl := Except.ok.inj hreturn
    exact ⟨hz, mapError_eq_ok_iff.mp hmaterial⟩
  · rintro ⟨hz, hmaterial⟩
    rw [hz, ok_bind, ← SessionDraws.aesKeyBytes, d.lenPrefixPack_keys, mapError_ok, ok_bind, hmaterial, mapError_ok, ok_bind]
    rfl

/-- A session is taken from material exactly when what its crypter decrypts begins with two packed keys. When these are the keys of a
session, whatever follows them, either side decrypts what the other encrypts; and they encrypt what is no longer than an array can hold
encrypted. -/
theorem session_opened_iff (J : JSONObjects) {material packedKeys : Bytes} (hdecrypt : decrypt material = .ok packedKeys)
    (hlength : packedKeys.length < 2 ^ 31) {d : SessionDraws} {e : SessionCrypter} (he : new P J encrypt d = .ok e) :
    ((∃ c, ofMaterial P J decrypt material = .ok c) ↔
      ∃ a b rest, packedKeys = Util.packed [a, b] ++ rest ∧ KeyBytes a ∧ KeyBytes b) ∧
    ∀ rest, packedKeys = d.packedKeys ++ rest → ∃ c, ofMaterial P J decrypt material = .ok c ∧
      ∀ ivPreImage plain : Bytes, ivPreImage.length = 16 →
        (plain.length < 2 ^ 31 - 48 → ∃ ct, e.encrypt P ivPreImage plain = .ok ct) ∧
        (∀ ct, e.encrypt P ivPreImage plain = .ok ct → c.decrypt P ct = .ok plain) ∧
        ∀ ct, c.encrypt P ivPreImage plain = .ok ct → e.decrypt P ct = .ok plain := by
  refine ⟨?_, ?_⟩
  · constructor
    · rintro ⟨c, hc⟩
      obtain ⟨a, b, rest, hpacked, ha, hb, -⟩ := (ofMaterial_eq_ok_iff hdecrypt hlength).mp hc
      exact ⟨a, b, rest, hpacked, ha, hb⟩
    · rintro ⟨a, b, rest, hpacked, ha, hb⟩
      obtain ⟨z, hz, -⟩ := exists_importedCrypter P J ha hb
      exact ⟨⟨z, material⟩, (ofMaterial_eq_ok_iff hdecrypt hlength).mpr ⟨a, b, rest, hpacked, ha, hb, hz, rfl⟩⟩
  · intro rest hpacked
    obtain ⟨himported, -⟩ := new_eq_ok_iff.mp he
    obtain ⟨ha, hkey⟩ := d.keyBytes_aesKeyBytes
    obtain ⟨z, hz, hcrypter⟩ := exists_importedCrypter P J ha d.keyBytes_hmacRandom
    obtain rfl : e.symmetricCrypter = z := Except.ok.inj (himported.symm.trans hz)
    refine ⟨⟨e.symmetricCrypter, material⟩,
      (ofMaterial_eq_ok_iff hdecrypt hlength).mpr ⟨_, _, rest, hpacked, ha, d.keyBytes_hmacRandom, hz, rfl⟩, ?_⟩
    -- both sides have the same crypter
    have hround : ∀ ivPreImage plain ct : Bytes, ivPreImage.length = 16 →
        encryptImported P e.symmetricCrypter ivPreImage plain = .ok ct →
        (Crypter.decrypt P e.symmetricCrypter ct).mapError SessionThrown.thrown = .ok plain := by
      intro ivPreImage plain ct hpre hct
      obtain ⟨-, rfl⟩ := hcrypter.encrypt_eq_ok rfl hpre hct
      rw [Encrypter.ciphertext, hcrypter.decrypt_eq rfl hkey (Encrypter.length_ivOf hpre), mapError_ok]
    intro ivPreImage plain hpre
    exact ⟨fun hplain => ⟨_, hcrypter.encrypt_eq rfl hkey hpre hplain⟩, fun ct => hround ivPreImage plain ct hpre,
      fun ct => hround ivPreImage plain ct hpre⟩

theorem session_opened_iff_small :
    ∃ z e c ct, CrypterOf .plain smallSessionKey z ∧
      new .plain smallObjects (Encrypter.encryptWith .plain smallSessionKey smallPreImage) smallSessionDraws = .ok e ∧
      ofMaterial .plain smallObjects (Crypter.decrypt .plain z) e.sessionMaterial = .ok c ∧
      e.encrypt .plain smallPreImage [7] = .ok ct ∧ c.decrypt .plain ct = .ok [7] := by
  obtain ⟨z, hz, hround⟩ := small_crypter
  obtain ⟨material, hencrypt⟩ : ∃ material,
      Encrypter.encryptWith .plain smallSessionKey smallPreImage smallSessionDraws.packedKeys = .ok material :=
    ⟨_, Encrypter.encryptWith_eq rfl rfl List.length_replicate (by decide)⟩
  obtain ⟨-, -, hdecrypt⟩ := hround _ _ (by decide) hencrypt
  obtain ⟨crypter, himported, -⟩ :=
    exists_importedCrypter .plain smallObjects smallSessionDraws.keyBytes_aesKeyBytes.1 smallSessionDraws.keyBytes_hmacRandom
  have he : new .plain smallObjects (Encrypter.encryptWith .plain smallSessionKey smallPreImage) smallSessionDraws =
      .ok ⟨crypter, material⟩ := new_eq_ok_iff.mpr ⟨himported, hencrypt⟩
  obtain ⟨-, hopen⟩ := session_opened_iff smallObjects hdecrypt (by decide) he
  obtain ⟨c, hc, hrun⟩ := hopen [] (List.append_nil _).symm
  obtain ⟨hencrypts, hdecrypts, -⟩ := hrun smallPreImage [7] List.length_replicate
  obtain ⟨ct, hct⟩ := hencrypts (by decide)
  exact ⟨z, ⟨crypter, material⟩, c, ct, hz, he, hc, hct, hdecrypts ct hct⟩

end SessionCrypter

end

end Java
