import Keyczar.Cpp.KeyTexts
import Keyczar.Cpp.Session

/-!
# How a signed session begins

The encrypter draws the key and the nonce of a session, and gives them away as an encrypted JSON dictionary. The decrypter reads a session
from whatever its crypter decrypts; the session that was drawn is read as it is, and no text is read that does not name a hash function
for its HMAC key.
-/

namespace Cpp

open Bytes Throwing
open Entries (getString getDictionary)
open scoped Entries Characters

/-! ## Keys that are drawn -/

/-- A call of `RandBytes`, which gives as many bytes as it is asked for. -/
structure RandBytes where
  bytes : Nat → Bytes
  length_bytes : ∀ n, (bytes n).length = n

/-- `HMACOpenSSL::Create`. -/
def HMACKey.create (digestAlgorithm : Digest) (key : Bytes) : Option HMACKey :=
  -- HMAC key size must at least be equal to its output length
  if key.length < digestAlgorithm.size then none else some ⟨key, digestAlgorithm⟩

/-- `HMACOpenSSL::GenerateKey`. -/
def HMACKey.generateIn (digestAlgorithm : Digest) (size : Int) (rand : RandBytes) : Option HMACKey :=
  create digestAlgorithm (rand.bytes (size.tdiv 8).toNat)

/-- `GenerateHMAC`. -/
def generateHMAC (size : Int) (rand : RandBytes) : Option HMACKey :=
  match size with
  | 160 => HMACKey.generateIn .sha1 size rand
  | 224 => HMACKey.generateIn .sha224 size rand
  | 256 => HMACKey.generateIn .sha256 size rand
  | 384 => HMACKey.generateIn .sha384 size rand
  | 512 => HMACKey.generateIn .sha512 size rand
  | _ => none

/-- `HMACKey::GenerateKey`. -/
def HMACKey.generateKey (size : Int) (rand : RandBytes) : Option HMACKey :=
  if size ∉ kHMACSizes then none else generateHMAC size rand

/-- `AESKey::GenerateKey`. -/
def AESKey.generateKey (size : Int) (rand hmacRand : RandBytes) : Option AESKey :=
  if size ∉ kAESSizes then none
  else do
    let aesKeyImpl ← createAES "CBC" (rand.bytes (size.tdiv 8).toNat)
    let hmacSize := getHMACSizeFromAESSize size
    guard (hmacSize ≠ 0)
    let hmacKey ← HMACKey.generateKey hmacSize hmacRand
    return ⟨aesKeyImpl, hmacKey⟩

/-! ## Sessions as texts -/

/-- The random bytes of a session. -/
structure SessionDraws where
  key : RandBytes
  hmacKey : RandBytes
  nonce : RandBytes

namespace Session

def NONCE_SIZE : Nat := 16

/-- `Generate`. -/
def generate (sessionKeyBits : Int) (d : SessionDraws) : Option Session :=
  (AESKey.generateKey sessionKeyBits d.key d.hmacKey).map fun sessionKey => ⟨sessionKey, d.nonce.bytes NONCE_SIZE⟩

/-- `Parse`. -/
def parse (jsonString : Bytes) : Option Session :=
  match JSONReader.readAndReturnError jsonString false with
  | .ok (.dictionary sessionDict) => do
    let encodedNonce ← getString sessionDict (asciiString "nonce")
    let nonce ← decodeBase64W encodedNonce
    let keyJson ← Entries.get sessionDict (asciiString "key")
    let sessionKey ← AESKey.ofValue keyJson
    return ⟨sessionKey, nonce⟩
  | _ => none

variable (s : Session)

/-- `GetValue`. A key without a value is a null pointer in the dictionary, which is followed when the value is written: the outer `none`. -/
def toJson : Option (Option Value) :=
  match base64WEncode s.nonce with
  | none => some none
  | some encodedNonce =>
    s.sessionKey.toJson.map fun key =>
      let dict : Entries := []
      let dict := dict.set (asciiString "key") key
      some (.dictionary (dict.set (asciiString "nonce") (.string encodedNonce)))

/-- The text of a session, if it has one. -/
def text : Option (Option Bytes) := s.toJson.map fun value => value.map fun value => JSONWriter.write value false

/-- The dictionary of a session. -/
def dictionary : Entries :=
  (Entries.set [] (asciiString "key") (.dictionary s.sessionKey.dictionary)).set (asciiString "nonce")
    (.string (Base64.encode Base64.webSafe s.nonce))

end Session

namespace SignedSessionEncrypter

variable {ρ : Type}

/-- `NewSessionEncrypter`, of a signer and an encrypter that are there. -/
def newSessionEncrypter (signer : Signer ρ) (encoding : Encoding) (sessionKeyBits : Int) (d : SessionDraws) :
    Option (SignedSessionEncrypter ρ) :=
  (Session.generate sessionKeyBits d).map fun session => { signer, encoding, session }

/-- `EncryptedSessionBlob`, with an encrypter whose `Encrypt` is given. -/
def encryptedSessionBlob (e : SignedSessionEncrypter ρ) (encrypt : Bytes → Except Exception (Option Bytes)) :
    Option (Except Exception (Option Bytes)) :=
  e.session.text.map fun jsonString =>
    match jsonString with
    | none => .ok none
    | some jsonString => encrypt jsonString

end SignedSessionEncrypter

/-- `NewSessionDecrypter`, of a verifier and a crypter that are there, whose `Decrypt` is given. -/
def SignedSessionDecrypter.newSessionDecrypter (decrypt : Bytes → Except Exception (Option Bytes)) (verifier : Keyczar)
    (encoding : Encoding) (sessionMaterial : Bytes) : Except Exception (Option SignedSessionDecrypter) := do
  match ← decrypt sessionMaterial with
  | none => return none
  | some decryptedSession => return (Session.parse decryptedSession).map fun session => { verifier, encoding, session }

/-! ## Keys that were drawn -/

/-- A key of a valid size is drawn, and its lengths match. -/
theorem HMACKey.exists_generateKey {size : Int} (h : size ∈ kHMACSizes) (rand : RandBytes) :
    ∃ k, generateKey size rand = some k ∧ k.Matched ∧ k.digestSize = size := by
  have hsize : size = 160 ∨ size = 224 ∨ size = 256 ∨ size = 384 ∨ size = 512 := by simpa [kHMACSizes] using h
  unfold generateKey
  rw [if_neg (not_not_intro h)]
  rcases hsize with rfl | rfl | rfl | rfl | rfl
  · exact ⟨_, if_neg (Nat.not_lt.mpr (rand.length_bytes 20).ge), rand.length_bytes 20, rfl⟩
  · exact ⟨_, if_neg (Nat.not_lt.mpr (rand.length_bytes 28).ge), rand.length_bytes 28, rfl⟩
  · exact ⟨_, if_neg (Nat.not_lt.mpr (rand.length_bytes 32).ge), rand.length_bytes 32, rfl⟩
  · exact ⟨_, if_neg (Nat.not_lt.mpr (rand.length_bytes 48).ge), rand.length_bytes 48, rfl⟩
  · exact ⟨_, if_neg (Nat.not_lt.mpr (rand.length_bytes 64).ge), rand.length_bytes 64, rfl⟩

theorem getHMACSizeFromAESSize_mem {size : Int} (h : size ∈ kAESSizes) :
    getHMACSizeFromAESSize size ∈ kHMACSizes ∧ getHMACSizeFromAESSize size ≠ 0 := by
  have hsize : size = 128 ∨ size = 192 ∨ size = 256 := by simpa [kAESSizes] using h
  rcases hsize with rfl | rfl | rfl <;> decide

theorem AESKey.exists_generateKey {size : Int} (h : size ∈ kAESSizes) (rand hmacRand : RandBytes) :
    ∃ k, generateKey size rand hmacRand = some k ∧ k.Matched := by
  obtain ⟨hmem, hne⟩ := getHMACSizeFromAESSize_mem h
  obtain ⟨hmacKey, hhmac, hmatched, hdigest⟩ := HMACKey.exists_generateKey hmem hmacRand
  have hsize : size = 128 ∨ size = 192 ∨ size = 256 := by simpa [kAESSizes] using h
  have hlength : ((rand.bytes (size.tdiv 8).toNat).length : Int) * 8 = size := by
    rw [rand.length_bytes]
    rcases hsize with rfl | rfl | rfl <;> rfl
  have hvalid : validKeyLength (rand.bytes (size.tdiv 8).toNat).length := by
    simp only [validKeyLength, Bool.or_eq_true, decide_eq_true_eq]
    omega
  refine ⟨⟨⟨rand.bytes (size.tdiv 8).toNat, hvalid⟩, hmacKey⟩, ?_, hmatched, ?_⟩
  · unfold generateKey
    rw [if_neg (not_not_intro h)]
    dsimp only
    rw [createAES_of_valid ⟨_, hvalid⟩, Option.bind_eq_bind, Option.bind_some, Option.bind_eq_bind,
      guard_bind hne, hhmac]
    rfl
  · rw [hdigest]
    exact congrArg getHMACSizeFromAESSize hlength

theorem AESKey.generateKey_eq_none {size : Int} (h : size ∉ kAESSizes) (rand hmacRand : RandBytes) :
    generateKey size rand hmacRand = none := if_pos h

/-! ## What is read of a session -/

namespace Session

variable {s : Session}

/-- A session can be written when its nonce and the key of its HMAC are not empty. -/
theorem text_eq (hnonce : 0 < s.nonce.length) (hhmac : 0 < s.sessionKey.hmacKey.keyBytes.length) :
    s.text = some (some (JSONWriter.write (.dictionary s.dictionary) false)) := by
  unfold text toJson
  rw [base64WEncode_eq hnonce]
  dsimp only
  rw [AESKey.toJson_eq hhmac]
  rfl

theorem readAndReturnError_dictionary (s : Session) :
    JSONReader.readAndReturnError (JSONWriter.write (.dictionary s.dictionary) false) false = .ok (.dictionary s.dictionary) := by
  have hkey := s.sessionKey.storable_dictionary
  have hproper : (Value.dictionary s.dictionary).Proper := (Value.proper_empty.set _ hkey.proper).set _ (.string _)
  refine (JSONReader.written_reads hproper rfl false false).1 ⟨?_, ?_⟩
  · refine Entries.forall_mem_set (by decide) (Entries.forall_mem_set (by decide) ?_ (hkey.within 96)) ?_
    · exact List.forall_mem_nil _
    · exact trivial
  · refine Value.utf8_dictionary.mpr ?_
    refine Entries.forall_mem_set (by decide) (Entries.forall_mem_set (by decide) ?_ ?_) ?_
    · exact List.forall_mem_nil _
    · exact ⟨(by decide : isStringUTF8 (asciiString "key") = true), hkey.utf8⟩
    · exact ⟨(by decide : isStringUTF8 (asciiString "nonce") = true), .string (isStringUTF8_base64 _)⟩

/-- A session is read from its text when the lengths of its two keys match. -/
theorem parse_dictionary (hnonce : 0 < s.nonce.length) (hnonce' : s.nonce.length < 2 ^ 28)
    (hhmac : 0 < s.sessionKey.hmacKey.keyBytes.length) (hhmac' : s.sessionKey.hmacKey.keyBytes.length < 2 ^ 28) :
    parse (JSONWriter.write (.dictionary s.dictionary) false) = if s.sessionKey.Matched then some s else none := by
  unfold parse
  rw [s.readAndReturnError_dictionary]
  unfold dictionary getString
  simp (disch := decide) only [Entries.get_set_self, Entries.get_set_of_ne, Option.bind_eq_bind]
  rw [Option.bind_some, decodeBase64W_encode hnonce hnonce', Option.bind_some, Option.bind_some,
    AESKey.ofValue_dictionary hhmac hhmac']
  by_cases hmatched : s.sessionKey.Matched
  · rw [if_pos hmatched, if_pos hmatched]
    rfl
  · rw [if_neg hmatched, if_neg hmatched]
    rfl

theorem pos_of_matched (h : s.sessionKey.Matched) : 0 < s.sessionKey.hmacKey.keyBytes.length := by
  have hlength : s.sessionKey.hmacKey.keyBytes.length = s.sessionKey.hmacKey.digest.size := h.1
  have hle := s.sessionKey.hmacKey.digest.le_size
  omega

/-- What a text that is read as a session holds. -/
theorem parse_eq_some {jsonString : Bytes} (h : parse jsonString = some s) :
    ∃ sessionDict encodedNonce keyJson, JSONReader.readAndReturnError jsonString false = .ok (.dictionary sessionDict) ∧
      getString sessionDict (asciiString "nonce") = some encodedNonce ∧ decodeBase64W encodedNonce = some s.nonce ∧
      Entries.get sessionDict (asciiString "key") = some keyJson ∧ AESKey.ofValue keyJson = some s.sessionKey := by
  unfold parse at h
  split at h
  · rename_i sessionDict hread
    obtain ⟨encodedNonce, hencoded, h⟩ := Option.bind_eq_some_iff.mp h
    obtain ⟨nonce, hnonce, h⟩ := Option.bind_eq_some_iff.mp h
    obtain ⟨keyJson, hkey, h⟩ := Option.bind_eq_some_iff.mp h
    obtain ⟨sessionKey, hvalue, h⟩ := Option.bind_eq_some_iff.mp h
    cases h
    exact ⟨sessionDict, encodedNonce, keyJson, hread, hencoded, hnonce, hkey, hvalue⟩
  · cases h

end Session

/-- An HMAC key is read from a dictionary that names its hash function. -/
theorem HMACKey.digest_of_ofValue {v : Value} {k : HMACKey} (hlt : k.keyBytes.length < 2 ^ 28) (h : ofValue v = some k) :
    ∃ entries digest, v = .dictionary entries ∧ getString entries (asciiString "digest") = some digest ∧
      stdString digest = digestName k.digest := by
  have hmatched := matched_of_ofValue hlt h
  unfold ofValue at h
  split at h
  · rename_i entries
    obtain ⟨key, -, h⟩ := Option.bind_eq_some_iff.mp h
    obtain ⟨size, -, h⟩ := Option.bind_eq_some_iff.mp h
    obtain ⟨_, hdiv, h⟩ := Option.bind_eq_some_iff.mp h
    obtain ⟨_, hvalid, h⟩ := Option.bind_eq_some_iff.mp h
    obtain ⟨digest, hdigest, h⟩ := Option.bind_eq_some_iff.mp h
    obtain ⟨check, hcheck, h⟩ := Option.bind_eq_some_iff.mp h
    obtain ⟨_, hname, h⟩ := Option.bind_eq_some_iff.mp h
    refine ⟨entries, digest, rfl, hdigest, ?_⟩
    rw [of_guard_eq_some hname]
    -- the size is that of the key, and so of its hash
    have hkey : k.keyBytes = key := (createHMAC_eq_some h).1
    have hdiv := of_guard_eq_some hdiv
    have hvalid := of_guard_eq_some hvalid
    have hsize : size = (8 * k.digest.size : Nat) := by
      have hlength : k.keyBytes.length = k.digest.size := hmatched
      rw [← hkey, toInt_of_lt (by omega), hlength] at hdiv
      have hmem : size = 160 ∨ size = 224 ∨ size = 256 ∨ size = 384 ∨ size = 512 := by simpa [kHMACSizes] using hvalid
      rcases hmem with rfl | rfl | rfl | rfl | rfl
      all_goals
        revert hdiv
        cases k.digest <;> decide
    rw [hsize, (digestName_spec k.digest).1] at hcheck
    exact (Option.some.inj hcheck).symm
  · cases h

/-- An AES key is read from a dictionary that has one for the key of its HMAC. -/
theorem AESKey.hmacKey_of_ofValue {v : Value} {k : AESKey} (h : ofValue v = some k) :
    ∃ entries hmacKeyValue, v = .dictionary entries ∧ getDictionary entries (asciiString "hmacKey") = some hmacKeyValue ∧
      HMACKey.ofValue (.dictionary hmacKeyValue) = some k.hmacKey := by
  unfold ofValue at h
  split at h
  · rename_i entries
    obtain ⟨mode, -, h⟩ := Option.bind_eq_some_iff.mp h
    obtain ⟨key, -, h⟩ := Option.bind_eq_some_iff.mp h
    obtain ⟨size, -, h⟩ := Option.bind_eq_some_iff.mp h
    obtain ⟨_, -, h⟩ := Option.bind_eq_some_iff.mp h
    obtain ⟨_, -, h⟩ := Option.bind_eq_some_iff.mp h
    obtain ⟨hmacKeyValue, hvalue, h⟩ := Option.bind_eq_some_iff.mp h
    obtain ⟨aesKeyImpl, -, h⟩ := Option.bind_eq_some_iff.mp h
    obtain ⟨hmacKey, hhmac, h⟩ := Option.bind_eq_some_iff.mp h
    obtain ⟨_, -, h⟩ := Option.bind_eq_some_iff.mp h
    cases h
    exact ⟨entries, hmacKeyValue, rfl, hvalue, hhmac⟩
  · cases h

namespace Session

variable {s : Session}

/-- A session can be read from its own text exactly when its nonce is not empty and its key lengths match. Every session that is read, from
whatever text, can be read from its own; and a text that is read as a session names the hash function of its HMAC key, by its right name. -/
theorem parse_text_iff (hnonce : s.nonce.length < 2 ^ 28) (hhmac : s.sessionKey.hmacKey.keyBytes.length < 2 ^ 28) :
    ((∃ text, s.text = some (some text) ∧ parse text = some s) ↔ s.nonce ≠ [] ∧ s.sessionKey.Matched) ∧
    ∀ jsonString, parse jsonString = some s → (∃ text, s.text = some (some text) ∧ parse text = some s) ∧
      ∃ sessionDict key hmacKey digest, JSONReader.readAndReturnError jsonString false = .ok (.dictionary sessionDict) ∧
        getDictionary sessionDict (asciiString "key") = some key ∧ getDictionary key (asciiString "hmacKey") = some hmacKey ∧
        getString hmacKey (asciiString "digest") = some digest ∧ stdString digest = digestName s.sessionKey.hmacKey.digest := by
  have hparsed : ∀ jsonString, parse jsonString = some s → s.nonce ≠ [] ∧ s.sessionKey.Matched := by
    intro jsonString hparse
    obtain ⟨sessionDict, encodedNonce, keyJson, -, -, hdecode, -, hvalue⟩ := parse_eq_some hparse
    refine ⟨?_, AESKey.matched_of_ofValue hhmac hvalue⟩
    intro hnil
    rw [hnil, decodeBase64W, Option.filter_eq_some_iff] at hdecode
    cases hdecode.2
  have hreread : s.nonce ≠ [] ∧ s.sessionKey.Matched → ∃ text, s.text = some (some text) ∧ parse text = some s := by
    rintro ⟨hne, hmatched⟩
    have hpos := List.length_pos_of_ne_nil hne
    have hpos' := pos_of_matched hmatched
    refine ⟨_, text_eq hpos hpos', ?_⟩
    rw [parse_dictionary hpos hnonce hpos' hhmac, if_pos hmatched]
  refine ⟨⟨?_, hreread⟩, ?_⟩
  · rintro ⟨text, -, hparse⟩
    exact hparsed text hparse
  · intro jsonString hparse
    refine ⟨hreread (hparsed jsonString hparse), ?_⟩
    obtain ⟨sessionDict, encodedNonce, keyJson, hread, -, -, hkey, hvalue⟩ := parse_eq_some hparse
    obtain ⟨key, hmacKey, rfl, hhmacKey, hhmacValue⟩ := AESKey.hmacKey_of_ofValue hvalue
    obtain ⟨entries, digest, heq, hdigest, hname⟩ := HMACKey.digest_of_ofValue hhmac hhmacValue
    cases heq
    refine ⟨sessionDict, key, hmacKey, digest, hread, ?_, hhmacKey, hdigest, hname⟩
    rw [getDictionary, hkey]

/-- The session of a key of ones, which has a nonce of one byte. -/
theorem parse_text_iff_ones : ∃ text, onesSession.text = some (some text) ∧ parse text = some onesSession :=
  (parse_text_iff (by decide) (by decide)).1.mpr (by decide)

end Session

/-! ## Sessions that begin -/

section

variable {P : Primitives} {ρ : Type} {signer : Signer ρ} {verifier : Keyczar} {k : SigningKey ρ} {hashBytes : Bytes} {key : Key}

theorem Session.generate_eq_some {sessionKeyBits : Int} {d : SessionDraws} {s : Session} (h : generate sessionKeyBits d = some s) :
    sessionKeyBits ∈ kAESSizes ∧ s.sessionKey.Matched ∧ s.nonce.length = NONCE_SIZE := by
  obtain ⟨sessionKey, hkey, rfl⟩ := Option.map_eq_some_iff.mp h
  have hvalid : sessionKeyBits ∈ kAESSizes := by
    by_contra hinvalid
    rw [AESKey.generateKey_eq_none hinvalid] at hkey
    cases hkey
  obtain ⟨k, hk, hmatched⟩ := AESKey.exists_generateKey hvalid d.key d.hmacKey
  obtain rfl := Option.some.inj (hk.symm.trans hkey)
  exact ⟨hvalid, hmatched, d.nonce.length_bytes _⟩

theorem Session.exists_generate {sessionKeyBits : Int} (h : sessionKeyBits ∈ kAESSizes) (d : SessionDraws) :
    ∃ s, generate sessionKeyBits d = some s := by
  obtain ⟨k, hk, -⟩ := AESKey.exists_generateKey h d.key d.hmacKey
  exact ⟨_, Option.map_eq_some_iff.mpr ⟨k, hk, rfl⟩⟩

/-- The string of a session that was drawn is read as the session. -/
theorem Session.parse_of_generate {sessionKeyBits : Int} {d : SessionDraws} {s : Session} (h : generate sessionKeyBits d = some s) :
    ∃ text, s.text = some (some text) ∧ parse text = some s := by
  obtain ⟨-, hmatched, hnonce⟩ := generate_eq_some h
  have hlength : s.sessionKey.hmacKey.keyBytes.length = s.sessionKey.hmacKey.digest.size := hmatched.1
  have hle := s.sessionKey.hmacKey.digest.size_le
  have hpos := pos_of_matched hmatched
  have hnonce' : s.nonce.length = 16 := hnonce
  refine ⟨_, text_eq (by omega) hpos, ?_⟩
  rw [parse_dictionary (by omega) (by omega) hpos (by omega), if_pos hmatched]

/-- The nonce of a message can be told from it. -/
theorem Verifier.nonce_of_message {data nonce nonce' : Bytes}
    (h : buildMessageToSign data (some nonce) = buildMessageToSign data (some nonce')) : nonce = nonce' := by
  simp only [buildMessageToSign, List.append_assoc, List.append_cancel_left_eq] at h
  rw [← List.append_assoc, ← List.append_assoc] at h
  exact (List.append_inj (List.append_cancel_right h) rfl).2

variable {encoding : Encoding} {iv plaintext sig : Bytes} {random : ρ}

/-- A blob of one session is refused in a session with another nonce, and the string is left as it is. -/
theorem Verifies.sessionDecrypt_of_other (h : Verifies P signer verifier k hashBytes key)
    (hexact : ∀ {random message sig message'}, k.sign random message = some sig → key.verify P message' sig = true → message' = message)
    {session : Session} (hiv : iv.length = 16) (hlen : 9 + session.ciphertextLength plaintext < 2 ^ 31)
    (hsig : k.sign random (Verifier.buildMessageToSign (session.sessionKey.ciphertext P iv plaintext) (some session.nonce)) = some sig)
    {blob : Bytes} (hdecode : encoding.decode blob = .ok (some ([0] ++ hashBytes ++
      (be32 (session.sessionKey.ciphertext P iv plaintext).length ++ session.sessionKey.ciphertext P iv plaintext) ++ sig)))
    {session' : Session} (hnonce : session'.nonce ≠ session.nonce) (out : Bytes) :
    SignedSessionDecrypter.sessionDecrypt P ⟨verifier, encoding, session'⟩ blob out = .ok (false, out) := by
  obtain ⟨keyset, hkeyset, hkey⟩ := h.found
  have hlength : (session.sessionKey.ciphertext P iv plaintext).length = session.ciphertextLength plaintext :=
    AESKey.length_ciphertext hiv plaintext
  have hrefused : key.verify P (Verifier.buildMessageToSign (session.sessionKey.ciphertext P iv plaintext) (some session'.nonce)) sig =
      false := by
    rw [← Bool.not_eq_true]
    intro hverify
    exact hnonce (Verifier.nonce_of_message (hexact hsig hverify))
  have hverify : SignedSessionDecrypter.attachedVerify P ⟨verifier, encoding, session'⟩ blob session'.nonce [] =
      .ok (false, session.sessionKey.ciphertext P iv plaintext) := by
    simp only [Verifier.buildMessageToSign, int32ToByteString, kVersionByte, List.append_assoc] at hrefused
    rw [SignedSessionDecrypter.attachedVerify_of_decode hdecode,
      Verifier.attachedVerify_layout P verifier h.length_hash (by rw [hlength]; exact hlen) hkeyset hkey]
    simp only [List.append_assoc, hrefused]
  exact SignedSessionDecrypter.sessionDecrypt_of_refused hverify out

/-- A session is drawn for the three sizes of AES keys. Whoever is given its material by a crypter that undoes the encrypter has the same
session: every plaintext whose lengths are `int`s is delivered, and no message of it is taken in a session with another nonce. -/
theorem SignedSessionEncrypter.session_joined (h : Verifies P signer verifier k hashBytes key)
    (hexact : ∀ {random message sig message'}, k.sign random message = some sig → key.verify P message' sig = true → message' = message)
    (encoding : Encoding) {σ : Type} {encrypt : σ → Bytes → Except Exception (Option Bytes)}
    {decrypt : Bytes → Except Exception (Option Bytes)}
    (hcrypt : ∀ seed x y, encrypt seed x = .ok (some y) → decrypt y = .ok (some x)) (sessionKeyBits : Int) (d : SessionDraws) :
    (newSessionEncrypter signer encoding sessionKeyBits d = none ↔ sessionKeyBits ∉ kAESSizes) ∧
    ∀ e, newSessionEncrypter signer encoding sessionKeyBits d = some e →
      (∃ text, ∀ seed, e.encryptedSessionBlob (encrypt seed) = some (encrypt seed text)) ∧
      ∀ seed material, e.encryptedSessionBlob (encrypt seed) = some (.ok (some material)) →
        ∃ dec, SignedSessionDecrypter.newSessionDecrypter decrypt verifier encoding material = .ok (some dec) ∧
          ∀ iv random plaintext sig, iv.length = 16 → e.session.Fits encoding plaintext sig →
            k.sign random (Verifier.buildMessageToSign (e.session.sessionKey.ciphertext P iv plaintext) (some e.session.nonce)) =
              some sig →
            ∃ blob, e.sessionEncrypt P iv random plaintext = .ok (some blob) ∧ dec.sessionDecrypt P blob [] = .ok (true, plaintext) ∧
              ∀ material' dec', SignedSessionDecrypter.newSessionDecrypter decrypt verifier encoding material' = .ok (some dec') →
                dec'.session.nonce ≠ dec.session.nonce → ∀ out, dec'.sessionDecrypt P blob out = .ok (false, out) := by
  refine ⟨?_, ?_⟩
  · rw [newSessionEncrypter, Option.map_eq_none_iff]
    constructor
    · intro hnone hvalid
      obtain ⟨s, hs⟩ := Session.exists_generate hvalid d
      rw [hnone] at hs
      cases hs
    · intro hinvalid
      rw [Session.generate, AESKey.generateKey_eq_none hinvalid]
      rfl
  · intro e he
    obtain ⟨s, hs, rfl⟩ := Option.map_eq_some_iff.mp he
    obtain ⟨text, htext, hparse⟩ := Session.parse_of_generate hs
    have hblob : ∀ seed, encryptedSessionBlob ⟨signer, encoding, s⟩ (encrypt seed) = some (encrypt seed text) := by
      intro seed
      rw [encryptedSessionBlob, htext]
      rfl
    refine ⟨⟨text, hblob⟩, ?_⟩
    intro seed material hmaterial
    have hdecrypt := hcrypt seed text material (Option.some.inj ((hblob seed).symm.trans hmaterial))
    refine ⟨⟨verifier, encoding, s⟩, ?_, ?_⟩
    · rw [SignedSessionDecrypter.newSessionDecrypter, hdecrypt, ok_bind]
      dsimp only
      rw [hparse]
      rfl
    · intro iv random plaintext sig hiv hfits hsig
      have hbound := hfits.1
      unfold Session.ciphertextLength at hbound
      obtain ⟨blob, hencode, hdecode⟩ := h.decode_encode hiv hfits.2
      refine ⟨blob, (h.sessionEncrypt (by omega) hsig).trans hencode, ?_, ?_⟩
      · rw [h.sessionDecrypt hiv hfits.1 hsig hdecode (AESOpenSSL.currentSize_eq_zero_iff.mpr (Nat.dvd_zero _)), if_pos (by omega)]
        rfl
      · intro material' dec' hdec' hnonce out
        -- the decrypter was made with this verifier
        obtain ⟨decrypted, -, hdec'⟩ := ok_of_bind hdec'
        cases decrypted with
        | none => cases hdec'
        | some jsonString =>
          obtain ⟨session', -, rfl⟩ := Option.map_eq_some_iff.mp (Except.ok.inj hdec')
          exact h.sessionDecrypt_of_other hexact hiv hfits.1 hsig hdecode hnonce out

end

/-! ## A small session -/

theorem RandBytes.length_all (b : UInt8) (n : Nat) : (List.replicate n b).length = n := List.length_replicate

/-- Random bytes that are all the same. -/
def RandBytes.all (b : UInt8) : RandBytes where
  bytes n := List.replicate n b
  length_bytes := RandBytes.length_all b

/-- A session of 128 bits. -/
def smallDraws : SessionDraws := ⟨.all 1, .all 2, .all 3⟩

def smallSession : Session := ⟨Key.smallAES, List.replicate 16 3⟩

/-- A key that signs short messages with themselves. -/
def messageKey : SigningKey Unit where
  key := .other [1, 2, 3, 4] fun message signature => message == signature
  hash := base64WEncode [1, 2, 3, 4]
  sign _ message := if message.length < 2 ^ 16 then some message else none

/-- A signer with this key. -/
def messageSigner : Signer Unit where
  keyset := some { hashMap := fun hash => if hash = Base64.encode Base64.webSafe [1, 2, 3, 4] then some messageKey.key else none }
  primaryKey := some messageKey

theorem messageKey_sign_of_lt {message : Bytes} (h : message.length < 2 ^ 16) : messageKey.sign () message = some message := if_pos h

theorem messageKey_sign {message sig : Bytes} (h : messageKey.sign () message = some sig) : message.length < 2 ^ 16 ∧ message = sig := by
  simp only [messageKey] at h
  split at h
  · rename_i hlt
    exact ⟨hlt, Option.some.inj h⟩
  · cases h

theorem verifies_messageSigner (P : Primitives) :
    Verifies P messageSigner messageSigner.toKeyczar messageKey [1, 2, 3, 4] messageKey.key where
  signing := ⟨_, rfl⟩
  primary := rfl
  length_hash := rfl
  hash := rfl
  found := by
    refine ⟨_, rfl, ?_⟩
    rw [Keyset.getKeyFromHash]
    dsimp only
    rw [if_pos (Eq.refl (Base64.encode Base64.webSafe [1, 2, 3, 4]))]
  accepts h := by
    obtain ⟨-, rfl⟩ := messageKey_sign h
    exact beq_self_eq_true _
  length_sign h := by
    obtain ⟨hlt, rfl⟩ := messageKey_sign h
    exact hlt

/-- What a crypter with the key of ones encrypts, of a text that is not too long. -/
def encryptShort (iv x : Bytes) : Except Exception (Option Bytes) :=
  .ok (if x.length < 2 ^ 20 then onesSet.onesKey.encrypt .plain iv x else none)

/-- What it decrypts. -/
def decryptShort (y : Bytes) : Except Exception (Option Bytes) := do
  let (decrypted, x) ← onesSet.onesKey.decrypt .plain y []
  return if decrypted then some x else none

theorem decryptShort_of_encryptShort {iv x y : Bytes} (hiv : iv.length = 16) (h : encryptShort iv x = .ok (some y)) :
    decryptShort y = .ok (some x) := by
  by_cases hlt : x.length < 2 ^ 20
  · rw [encryptShort, if_pos hlt, AESKey.encrypt_eq_ciphertext iv (by omega)] at h
    obtain rfl := Option.some.inj (Except.ok.inj h)
    have hlength := AESKey.length_ciphertext (P := .plain) (k := onesSet.onesKey) hiv x
    have hdigest := onesSet.onesKey.hmacKey.digest.size_le
    rw [decryptShort, AESKey.decrypt_ciphertext hiv (by omega) (show AESOpenSSL.currentSize [] = .ok 0 from rfl), if_pos (by omega)]
    rfl
  · rw [encryptShort, if_neg hlt] at h
    cases h

theorem length_smallSession : (JSONWriter.write (.dictionary smallSession.dictionary) false).length < 2 ^ 20 := by
  decide +kernel

/-- The small session is drawn, given away and joined, and delivers a byte. -/
theorem SignedSessionEncrypter.session_joined_small : ∃ material dec blob,
    newSessionEncrypter messageSigner .base64W 128 smallDraws = some ⟨messageSigner, .base64W, smallSession⟩ ∧
    encryptedSessionBlob ⟨messageSigner, .base64W, smallSession⟩ (encryptShort (List.replicate 16 0)) = some (.ok (some material)) ∧
    SignedSessionDecrypter.newSessionDecrypter decryptShort messageSigner.toKeyczar .base64W material = .ok (some dec) ∧
    sessionEncrypt .plain ⟨messageSigner, .base64W, smallSession⟩ (List.replicate 16 0) () [7] = .ok (some blob) ∧
    dec.sessionDecrypt .plain blob [] = .ok (true, [7]) := by
  have hiv : (List.replicate 16 (0 : UInt8)).length = 16 := List.length_replicate
  have hexact : ∀ {random : Unit} {message sig message' : Bytes}, messageKey.sign random message = some sig →
      messageKey.key.verify .plain message' sig = true → message' = message := by
    intro random message sig message' hsign hverify
    obtain ⟨-, rfl⟩ := messageKey_sign hsign
    exact eq_of_beq hverify
  have hnew : newSessionEncrypter messageSigner .base64W 128 smallDraws = some ⟨messageSigner, .base64W, smallSession⟩ := rfl
  obtain ⟨-, hjoin⟩ := session_joined (verifies_messageSigner .plain) hexact .base64W
    (fun (_ : Unit) _ _ h => decryptShort_of_encryptShort hiv h) 128 smallDraws
  obtain ⟨-, hblob⟩ := hjoin _ hnew
  have htext : encryptedSessionBlob ⟨messageSigner, .base64W, smallSession⟩ (encryptShort (List.replicate 16 0)) =
      some (.ok (some (onesSet.onesKey.ciphertext .plain (List.replicate 16 0)
        (JSONWriter.write (.dictionary smallSession.dictionary) false)))) := by
    have hlt := length_smallSession
    rw [encryptedSessionBlob, Session.text_eq (by decide) (by decide), Option.map_some]
    dsimp only
    rw [encryptShort, if_pos hlt, AESKey.encrypt_eq_ciphertext _ (by omega)]
  obtain ⟨dec, hdec, hdeliver⟩ := hblob () _ htext
  have hfits : smallSession.Fits .base64W [7] (Verifier.buildMessageToSign (smallSession.sessionKey.ciphertext .plain
      (List.replicate 16 0) [7]) (some smallSession.nonce)) := ⟨by decide, show Base64W.Fits _ from by decide⟩
  obtain ⟨blob, hencrypt, hdecrypt, -⟩ := hdeliver (List.replicate 16 0) () [7] _ hiv hfits
    (messageKey_sign_of_lt (by decide))
  exact ⟨_, dec, blob, hnew, htext, hdec, hencrypt, hdecrypt⟩

end Cpp
