import Keyczar.Java.SessionCrypters
import Keyczar.Java.SignerRuns

/-!
# Which signed session opens a blob

Whatever is encrypted belongs to the session that was made last, whether or not the call that made it returned: the session is put aside
before it is encrypted for the other side. The nonce that is signed with a blob keeps every other session from opening it.
-/

namespace Java

open Bytes Throwing

variable {σ ρ : Type}

/-- A call of a `SignedSessionEncrypter`, with what it draws. -/
inductive SessionCall (σ ρ : Type) where
  | newSession (params : AesKeyParameters) (d : SessionDraws) (random : σ)
  | encrypt (ivPreImage : Bytes) (random : ρ) (plainText : Bytes)

/-- The session that a call makes, if it makes one. -/
def SessionCall.material : SessionCall σ ρ → Option SessionMaterial
  | .newSession params d _ => (SignedSessionEncrypter.buildMaterial params d).toOption
  | .encrypt _ _ _ => none

/-- Only a new session is made of parameters and draws. -/
theorem SessionCall.eq_newSession_of_material {c : SessionCall σ ρ} {material : SessionMaterial} (h : c.material = some material) :
    ∃ params d random, c = .newSession params d random ∧ SignedSessionEncrypter.buildMaterial params d = .ok material := by
  cases c with
  | newSession params d random =>
    refine ⟨params, d, random, rfl, ?_⟩
    rw [SessionCall.material] at h
    cases hbuild : SignedSessionEncrypter.buildMaterial params d with
    | error thrown =>
      rw [hbuild] at h
      cases h
    | ok m =>
      rw [hbuild] at h
      exact congrArg Except.ok (Option.some.inj h)
  | encrypt ivPreImage random plainText => cases h

namespace SignedSessionEncrypter

variable (J : JSONObjects)

/-- What a call leaves of the encrypter. -/
def call (e : SignedSessionEncrypter σ ρ) : SessionCall σ ρ → SignedSessionEncrypter σ ρ
  | .newSession params d random => (e.newSession J params d random).2
  | .encrypt _ _ _ => e

/-- What calls leave of it. -/
def after (e : SignedSessionEncrypter σ ρ) (calls : List (SessionCall σ ρ)) : SignedSessionEncrypter σ ρ :=
  calls.foldl (call J) e

/-! ## What is put aside -/

variable {J}

/-- A call puts the session aside that it makes. -/
theorem call_eq (e : SignedSessionEncrypter σ ρ) (c : SessionCall σ ρ) :
    e.call J c = { e with session := c.material.or e.session } := by
  cases c with
  | newSession params d random =>
    simp only [call, newSession, SessionCall.material]
    cases buildMaterial params d with
    | error thrown => rfl
    | ok material => rfl
  | encrypt ivPreImage random plainText => rfl

/-- After any calls, the session is the one made last. -/
theorem after_eq (e : SignedSessionEncrypter σ ρ) (calls : List (SessionCall σ ρ)) :
    e.after J calls = { e with session := (calls.reverse.findSome? SessionCall.material).or e.session } := by
  induction calls using List.reverseRecOn with
  | nil => rfl
  | append_singleton calls c ih =>
    have hlast : e.after J (calls ++ [c]) = (e.after J calls).call J c := by
      rw [after, List.foldl_append]
      rfl
    rw [hlast, ih, call_eq, List.reverse_append, List.reverse_singleton, List.singleton_append, List.findSome?_cons]
    cases c.material with
    | none => rfl
    | some material => rfl

/-- What a new session is made of. -/
theorem buildMaterial_eq_ok_iff {params : AesKeyParameters} {d : SessionDraws} {material : SessionMaterial} :
    buildMaterial params d = .ok material ↔ params.keySize ∈ acceptableSizes ∧ KeyBytes params.hmacKeyBytes ∧
      material = ⟨.ofBytes (params.aesKeyBytes d) params.hmacKeyBytes, Base64Strings.text d.nonce⟩ := by
  have hnonce : buildNonce d = .ok (Base64Strings.text d.nonce) := by
    have hlength := d.length_nonce
    rw [buildNonce, Base64Strings.encodeWebSafe_of_lt (by omega), mapError_ok]
  rw [buildMaterial, buildSessionKey]
  by_cases hsize : params.keySize ∈ acceptableSizes
  · rw [if_neg (not_not_intro hsize)]
    constructor
    · intro h
      obtain ⟨key, hkey, h⟩ := ok_of_bind h
      rw [hnonce, ok_bind] at h
      obtain ⟨-, hhmac, rfl⟩ := (params.generate_eq_ok_iff d).mp hkey
      exact ⟨hsize, hhmac, (Except.ok.inj h).symm⟩
    · rintro ⟨-, hhmac, rfl⟩
      rw [(params.generate_eq_ok_iff d).mpr ⟨(params.length_aesKeyBytes d hsize).1, hhmac, rfl⟩, ok_bind, hnonce]
      rfl
  · rw [if_pos hsize]
    exact ⟨nofun, fun h => absurd h.1 hsize⟩

end SignedSessionEncrypter

/-! ## What is delivered -/

/-- A verifier that accepts, of what a signer signs, its messages and nothing else. -/
structure VerifiesExactly (signer verifier : SigningKeyczar ρ) (k : SigningKey ρ) : Prop where
  primary : signer.getPrimaryKey = some k
  accepts : ∀ random m sig, k.sign random m = .ok sig →
    ∀ m', (∃ key ∈ verifier.getKey k.hash, key.verify m' sig = .ok true) ↔ m' = m

/-- A signed blob gives out its data with the hidden bytes it was signed with, and with no others. -/
theorem VerifiesExactly.getAttachedData {signer verifier : SigningKeyczar ρ} {k : SigningKey ρ} (h : VerifiesExactly signer verifier k)
    {data hidden sig : Bytes} (hdata : data.length < 2 ^ 31) {random : ρ}
    (hsign : k.sign random (data ++ (be32 hidden.length ++ hidden) ++ [0]) = .ok sig) {hidden' : Bytes}
    (hlength : hidden'.length = hidden.length) (hshort : 4 + hidden.length < 2 ^ 31) :
    Verifier.getAttachedData verifier ([0] ++ k.hash ++ (be32 data.length ++ data) ++ sig) hidden' =
      if hidden' = hidden then .ok data else .error (.keyczar .attachedSignature) := by
  have haccepts := h.accepts random _ sig hsign
  obtain ⟨key, hkey, -⟩ := (haccepts _).mpr rfl
  have hkeys := Verifier.getVerifyingKey_of_mem hkey
  have hverify : Verifier.verifyKeys (ByteBuffer.wrap data) (some (ByteBuffer.wrap (be32 hidden'.length ++ hidden')))
      (ByteBuffer.wrap sig) (verifier.getKey k.hash) = decide (hidden' = hidden) := by
    rw [Bool.eq_iff_iff, Verifier.verifyKeys_iff, decide_eq_true_iff]
    simp only [ByteBuffer.rest_wrap, Option.map_some, Option.getD_some]
    rw [haccepts]
    constructor
    · intro heq
      have hhidden := List.append_cancel_left (List.append_cancel_right heq)
      exact (List.append_inj hhidden (by simp)).2
    · rintro rfl
      rfl
  rw [Verifier.getAttachedData, Verifier.attachedVerify_layout k.length_hash hdata hkeys,
    Signer.hiddenPlusLength_of_lt (by omega), mapError_ok, ok_bind, ok_bind, hverify]
  by_cases heq : hidden' = hidden
  · rw [if_pos heq, decide_eq_true heq, if_pos rfl, Verifier.getAttachedDataWithoutVerifying_layout k.length_hash hdata hkeys]
  · rw [if_neg heq, decide_eq_false heq, if_neg Bool.false_ne_true]

namespace SignedSessionDecrypter

/-- The decrypter of a session that was handed out has its material. -/
theorem new_of_newSession {J : JSONObjects} {e : SignedSessionEncrypter σ ρ} {decrypt : Bytes → Except Exception Bytes}
    (hcrypt : ∀ random x y, x.length < 2 ^ 31 → e.encrypt random x = .ok y → y ≠ [] ∧ y.length < 2 ^ 31 ∧ decrypt y = .ok x)
    (verifier : SigningKeyczar ρ) {params : AesKeyParameters} {d : SessionDraws}
    (htext : ∀ material, SignedSessionEncrypter.buildMaterial params d = .ok material → (J.writeSession material).length < 2 ^ 31)
    {random : σ} {text : Text} (h : (e.newSession J params d random).1 = .ok text) :
    ∃ material, SignedSessionEncrypter.buildMaterial params d = .ok material ∧
      new J decrypt verifier text = .ok ⟨verifier, material⟩ := by
  unfold SignedSessionEncrypter.newSession at h
  cases hmaterial : SignedSessionEncrypter.buildMaterial params d with
  | error thrown =>
    rw [hmaterial] at h
    cases h
  | ok material =>
    rw [hmaterial] at h
    obtain ⟨y, hy, hencode⟩ := ok_of_bind h
    obtain ⟨hne, hlength, hdecrypt⟩ := hcrypt _ _ _ (htext material hmaterial) (mapError_eq_ok_iff.mp hy)
    obtain ⟨-, rfl⟩ := (Base64Strings.encodeWebSafe_eq_ok_iff hlength).mp (mapError_eq_ok_iff.mp hencode)
    refine ⟨material, rfl, ?_⟩
    rw [new, Base64Strings.decodeWebSafe_text hne, mapError_ok, ok_bind, hdecrypt, mapError_ok, ok_bind, J.readSession_writeSession]

end SignedSessionDecrypter

namespace SignedSessionEncrypter

variable {P : Primitives} {J : JSONObjects}

/-- A blob that was encrypted under a session, as another session's decrypter takes it: with the same nonce the session's key decrypts it,
with another it is refused. -/
theorem decrypt_of_encryptSigned {e : SignedSessionEncrypter σ ρ} {verifier : SigningKeyczar ρ} {k : SigningKey ρ}
    (hverify : VerifiesExactly e.signer verifier k) {params params' : AesKeyParameters} {d d' : SessionDraws}
    {material material' : SessionMaterial} (hmaterial : buildMaterial params d = .ok material)
    (hmaterial' : buildMaterial params' d' = .ok material') (hsession : e.session = some material) {ivPreImage plain blob : Bytes}
    (hpre : ivPreImage.length = 16) (hplain : plain.length < 2 ^ 31) {random : ρ}
    (hblob : e.encryptSigned P J ivPreImage random plain = .ok blob) :
    (material' = material → SignedSessionDecrypter.decrypt P J ⟨verifier, material'⟩ blob = .ok plain) ∧
    (d'.nonce ≠ d.nonce → SignedSessionDecrypter.decrypt P J ⟨verifier, material'⟩ blob =
      .error (.thrown (.keyczar .attachedSignature))) := by
  obtain ⟨hsize, hhmac, rfl⟩ := buildMaterial_eq_ok_iff.mp hmaterial
  obtain ⟨hsize', hhmac', rfl⟩ := buildMaterial_eq_ok_iff.mp hmaterial'
  obtain ⟨haes, hkey⟩ := params.length_aesKeyBytes d hsize
  obtain ⟨haes', -⟩ := params'.length_aesKeyBytes d' hsize'
  obtain ⟨z, hz, hcrypter⟩ := exists_importedCrypter P J haes hhmac
  obtain ⟨z', hz', -⟩ := exists_importedCrypter P J haes' hhmac'
  have hlength := d.length_nonce
  have hlength' := d'.length_nonce
  have hnonce : Base64Strings.decodeWebSafe (Base64Strings.text d.nonce) = .ok d.nonce :=
    Base64Strings.decodeWebSafe_text (List.ne_nil_of_length_pos (by omega))
  have hnonce' : Base64Strings.decodeWebSafe (Base64Strings.text d'.nonce) = .ok d'.nonce :=
    Base64Strings.decodeWebSafe_text (List.ne_nil_of_length_pos (by omega))
  -- the blob
  unfold encryptSigned at hblob
  rw [hsession] at hblob
  dsimp only at hblob
  rw [hz, ok_bind] at hblob
  obtain ⟨ct, hct, hblob⟩ := ok_of_bind hblob
  rw [hnonce, mapError_ok, ok_bind] at hblob
  obtain ⟨sig, hsign, rfl⟩ := Signer.attachedSign_eq_ok hverify.primary (mapError_eq_ok_iff.mp hblob)
  obtain ⟨-, hciphertext⟩ := hcrypter.encrypt_eq_ok rfl hpre hct
  have hdata := hcrypter.length_of_encrypt rfl hpre hplain hct
  constructor
  · intro hsame
    have hget := hverify.getAttachedData hdata hsign rfl (by omega)
    rw [hsame, SignedSessionDecrypter.decrypt, hz, ok_bind, hnonce, mapError_ok, ok_bind, hget, if_pos rfl, mapError_ok, ok_bind,
      hciphertext, Encrypter.ciphertext, hcrypter.decrypt_eq rfl hkey (Encrypter.length_ivOf hpre), mapError_ok]
  · intro hother
    have hget := hverify.getAttachedData hdata hsign (hlength'.trans hlength.symm) (by omega)
    rw [SignedSessionDecrypter.decrypt, hz', ok_bind, hnonce', mapError_ok, ok_bind, hget, if_neg hother]
    rfl

/-- What is short enough is encrypted and signed. -/
theorem exists_encryptSigned {e : SignedSessionEncrypter σ ρ} {k : SigningKey ρ} (hprimary : e.signer.getPrimaryKey = some k)
    {params : AesKeyParameters} {d : SessionDraws} {material : SessionMaterial} (hmaterial : buildMaterial params d = .ok material)
    (hsession : e.session = some material) {ivPreImage plain : Bytes} (hpre : ivPreImage.length = 16) (hplain : plain.length < 2 ^ 30)
    {random : ρ} (hsign : ∀ m : Bytes, m.length ≤ plain.length + 78 → ∃ sig, k.sign random m = .ok sig ∧ sig.length ≤ k.digestSize ∧
      sig.length < 2 ^ 29) : ∃ blob, e.encryptSigned P J ivPreImage random plain = .ok blob := by
  obtain ⟨hsize, hhmac, rfl⟩ := buildMaterial_eq_ok_iff.mp hmaterial
  obtain ⟨haes, hkey⟩ := params.length_aesKeyBytes d hsize
  obtain ⟨z, hz, hcrypter⟩ := exists_importedCrypter P J haes hhmac
  have hlength := d.length_nonce
  have hct := hcrypter.encrypt_eq rfl hkey hpre (show plain.length < 2 ^ 31 - 48 by omega)
  have hlengthCt : (Encrypter.ciphertext P (sessionKey haes hhmac) ivPreImage plain).length = 41 + (plain.length / 16 + 1) * 16 :=
    Format.length_ciphertext P _ (AesKey.length_hash P _) (Encrypter.length_ivOf hpre) _
  obtain ⟨sig, hsig, hsigSize, hsigLength⟩ := hsign
    (Encrypter.ciphertext P (sessionKey haes hhmac) ivPreImage plain ++ (be32 d.nonce.length ++ d.nonce) ++ [0]) (by
      simp only [List.length_append, length_be32, List.length_singleton]
      omega)
  have hsigned := Signer.attachedSign_of_lt hprimary hsig hsigSize (by omega) (by omega)
  have hrun : e.encryptSigned P J ivPreImage random plain = (Signer.attachedSign e.signer random
      (Encrypter.ciphertext P (sessionKey haes hhmac) ivPreImage plain) d.nonce).mapError .thrown := by
    unfold encryptSigned
    rw [hsession]
    dsimp only
    rw [hz, ok_bind, hct, ok_bind, Base64Strings.decodeWebSafe_text (List.ne_nil_of_length_pos (by omega)), mapError_ok, ok_bind]
  rw [hsigned, mapError_ok] at hrun
  exact ⟨_, hrun⟩

/-- A session that was handed out opens what is encrypted after it as long as no call makes another session; from then on it opens
nothing, and this also when the other session was never handed out. -/
theorem blob_opened_iff (P : Primitives) (J : JSONObjects) {e : SignedSessionEncrypter σ ρ} {decrypt : Bytes → Except Exception Bytes}
    (hcrypt : ∀ random x y, x.length < 2 ^ 31 → e.encrypt random x = .ok y → y ≠ [] ∧ y.length < 2 ^ 31 ∧ decrypt y = .ok x)
    {verifier : SigningKeyczar ρ} {k : SigningKey ρ} (hverify : VerifiesExactly e.signer verifier k)
    {before between : List (SessionCall σ ρ)} {params : AesKeyParameters} {d : SessionDraws}
    (htext : ∀ material, buildMaterial params d = .ok material → (J.writeSession material).length < 2 ^ 31)
    {random : σ} {text : Text} (hopen : ((e.after J before).newSession J params d random).1 = .ok text)
    (hnonces : ∀ params' d' random', SessionCall.newSession params' d' random' ∈ between → d'.nonce ≠ d.nonce)
    {ivPreImage plain blob : Bytes} (hpre : ivPreImage.length = 16) (hplain : plain.length < 2 ^ 31) {random' : ρ}
    (hblob : (e.after J (before ++ .newSession params d random :: between)).encryptSigned P J ivPreImage random' plain = .ok blob) :
    ∃ opened, SignedSessionDecrypter.new J decrypt verifier text = .ok opened ∧
      ((∀ c ∈ between, c.material = none) ↔ opened.decrypt P J blob = .ok plain) ∧
      ((∃ c ∈ between, c.material.isSome) ↔ opened.decrypt P J blob = .error (.thrown (.keyczar .attachedSignature))) := by
  have hencrypt : (e.after J before).encrypt = e.encrypt := by rw [after_eq]
  obtain ⟨material, hmaterial, hnew⟩ := SignedSessionDecrypter.new_of_newSession (by rw [hencrypt]; exact hcrypt) verifier htext hopen
  have hsigner : (e.after J (before ++ .newSession params d random :: between)).signer = e.signer := by rw [after_eq]
  have hcall : (SessionCall.newSession params d random : SessionCall σ ρ).material = some material := by
    rw [SessionCall.material, hmaterial]
    rfl
  have hsession : (e.after J (before ++ .newSession params d random :: between)).session =
      (between.reverse.findSome? SessionCall.material).or (some material) := by
    rw [after_eq, List.reverse_append, List.reverse_cons, List.append_assoc, List.findSome?_append, List.findSome?_append,
      List.findSome?_singleton, hcall]
    cases between.reverse.findSome? SessionCall.material with
    | none => rfl
    | some m => rfl
  have hverify' : VerifiesExactly (e.after J (before ++ .newSession params d random :: between)).signer verifier k := by
    rw [hsigner]
    exact hverify
  refine ⟨⟨verifier, material⟩, hnew, ?_⟩
  cases hlast : between.reverse.findSome? SessionCall.material with
  | none =>
    rw [hlast] at hsession
    have hnone : ∀ c ∈ between, c.material = none :=
      fun c hc => List.findSome?_eq_none_iff.mp hlast c (List.mem_reverse.mpr hc)
    have hdecrypt := (decrypt_of_encryptSigned hverify' hmaterial hmaterial hsession hpre hplain hblob).1 rfl
    refine ⟨iff_of_true hnone hdecrypt, iff_of_false ?_ ?_⟩
    · rintro ⟨c, hc, hsome⟩
      rw [hnone c hc] at hsome
      cases hsome
    · rw [hdecrypt]
      exact nofun
  | some last =>
    rw [hlast] at hsession
    obtain ⟨c, hc, hcmaterial⟩ := List.exists_of_findSome?_eq_some hlast
    have hmem := List.mem_reverse.mp hc
    obtain ⟨params', d', random', rfl, hlastMaterial⟩ := SessionCall.eq_newSession_of_material hcmaterial
    have hdecrypt := (decrypt_of_encryptSigned hverify' hlastMaterial hmaterial hsession hpre hplain hblob).2
      (hnonces params' d' random' hmem).symm
    refine ⟨iff_of_false ?_ ?_, iff_of_true ⟨_, hmem, ?_⟩ hdecrypt⟩
    · intro hnone
      rw [hnone _ hmem] at hcmaterial
      cases hcmaterial
    · rw [hdecrypt]
      exact nofun
    · rw [hcmaterial]
      rfl

/-! ## A small signed session -/

theorem length_messageHash : ([1, 2, 3, 4] : Bytes).length = KEY_HASH_SIZE := rfl

/-- A key whose signatures are the messages themselves. -/
def messageKey : SigningKey Unit where
  hash := [1, 2, 3, 4]
  digestSize := 100
  sign _ m := .ok m
  verify m sig := .ok (m = sig)
  length_hash := length_messageHash

/-- A key set of this key. -/
def messageSet : SigningKeyczar Unit where
  primaryVersion := some ⟨1, .primary⟩
  versionMap n := if n = 1 then some messageKey else none
  hashMap hash := if hash = [1, 2, 3, 4] then [messageKey] else []

theorem verifiesExactly_messageSet : VerifiesExactly messageSet messageSet messageKey where
  primary := rfl
  accepts random m sig h m' := by
    obtain rfl : m = sig := Except.ok.inj h
    have hkeys : messageSet.getKey messageKey.hash = [messageKey] := rfl
    rw [hkeys]
    simp [messageKey]

/-- An encrypter under the small key that throws when it is told to. -/
def smallSigned : SignedSessionEncrypter Bool Unit where
  encrypt random x := if random then .error (.keyczar .noPrimaryKey) else Encrypter.encryptWith .plain smallSessionKey smallPreImage x
  signer := messageSet

theorem length_otherNonce : (List.replicate 16 (5 : UInt8)).length = 16 := List.length_replicate

/-- The draws of another session. -/
def otherDraws : SessionDraws where
  random := List.replicate 32 1
  hmacRandom := List.replicate 32 2
  nonce := List.replicate 16 5
  length_random := length_smallRandom
  length_hmacRandom := length_smallHmacRandom
  length_nonce := length_otherNonce

theorem buildMaterial_small : buildMaterial smallSessionDraws.defaultParameters smallSessionDraws = .ok smallMaterial :=
  buildMaterial_eq_ok_iff.mpr ⟨List.mem_cons_self, smallSessionDraws.keyBytes_hmacRandom, rfl⟩

theorem writeSession_small {material : SessionMaterial}
    (h : buildMaterial smallSessionDraws.defaultParameters smallSessionDraws = .ok material) :
    (smallObjects.writeSession material).length < 1000 := by
  obtain rfl : smallMaterial = material := Except.ok.inj (buildMaterial_small.symm.trans h)
  have hjson : smallObjects.writeSession smallMaterial = smallJson := by
    simp only [smallObjects, if_true]
  rw [hjson]
  exact smallJson_spec.1

/-- A new session that is made and not handed out: the session that was is lost for what follows. -/
theorem blob_opened_iff_lost :
    ∃ z text opened blob,
      ((smallSigned.after smallObjects []).newSession smallObjects smallSessionDraws.defaultParameters smallSessionDraws false).1 =
        .ok text ∧
      SignedSessionDecrypter.new smallObjects (Crypter.decrypt .plain z) messageSet text = .ok opened ∧
      ((smallSigned.after smallObjects [.newSession smallSessionDraws.defaultParameters smallSessionDraws false]).newSession
        smallObjects otherDraws.defaultParameters otherDraws true).1 = .error (.thrown (.keyczar .noPrimaryKey)) ∧
      (smallSigned.after smallObjects ([] ++ .newSession smallSessionDraws.defaultParameters smallSessionDraws false ::
        [.newSession otherDraws.defaultParameters otherDraws true])).encryptSigned .plain smallObjects smallPreImage () [7] =
          .ok blob ∧
      opened.decrypt .plain smallObjects blob = .error (.thrown (.keyczar .attachedSignature)) := by
  obtain ⟨z, -, hround⟩ := small_crypter
  have hother : buildMaterial otherDraws.defaultParameters otherDraws =
      .ok ⟨.ofBytes otherDraws.aesKeyBytes otherDraws.hmacRandom, Base64Strings.text otherDraws.nonce⟩ :=
    buildMaterial_eq_ok_iff.mpr ⟨List.mem_cons_self, otherDraws.keyBytes_hmacRandom, rfl⟩
  have hcrypt : ∀ random x y, x.length < 2 ^ 31 → smallSigned.encrypt random x = .ok y →
      y ≠ [] ∧ y.length < 2 ^ 31 ∧ Crypter.decrypt .plain z y = .ok x := by
    intro random x y hx hy
    cases random with
    | true => cases hy
    | false => exact hround x y hx hy
  have hjson := writeSession_small buildMaterial_small
  obtain ⟨text, hopen⟩ : ∃ text, ((smallSigned.after smallObjects []).newSession smallObjects smallSessionDraws.defaultParameters
      smallSessionDraws false).1 = .ok text := by
    have hencrypt : smallSigned.encrypt false (smallObjects.writeSession smallMaterial) = .ok (Encrypter.ciphertext .plain smallSessionKey
        smallPreImage (smallObjects.writeSession smallMaterial)) :=
      Encrypter.encryptWith_eq rfl rfl List.length_replicate (by omega)
    have hlength : (Encrypter.ciphertext .plain smallSessionKey smallPreImage (smallObjects.writeSession smallMaterial)).length =
        41 + ((smallObjects.writeSession smallMaterial).length / 16 + 1) * 16 :=
      Format.length_ciphertext .plain _ (AesKey.length_hash .plain _) (Encrypter.length_ivOf List.length_replicate) _
    have hrun : ((smallSigned.after smallObjects []).newSession smallObjects smallSessionDraws.defaultParameters
        smallSessionDraws false).1 = .ok (Base64Strings.text (Encrypter.ciphertext .plain smallSessionKey smallPreImage
          (smallObjects.writeSession smallMaterial))) := by
      rw [newSession, buildMaterial_small]
      dsimp only
      rw [encryptMaterial, after_eq, hencrypt, mapError_ok, ok_bind, Base64Strings.encodeWebSafe_of_lt (by omega), mapError_ok]
    exact ⟨_, hrun⟩
  obtain ⟨blob, hblob⟩ : ∃ blob, (smallSigned.after smallObjects ([] ++
      .newSession smallSessionDraws.defaultParameters smallSessionDraws false ::
        [.newSession otherDraws.defaultParameters otherDraws true])).encryptSigned .plain smallObjects smallPreImage () [7] =
          .ok blob := by
    refine exists_encryptSigned (k := messageKey) rfl hother ?_ List.length_replicate (by decide) ?_
    · rw [after_eq, List.nil_append, List.reverse_cons, List.reverse_singleton, List.singleton_append, List.findSome?_cons,
        SessionCall.material, hother]
      rfl
    · intro m hm
      have hle : m.length ≤ 79 := hm
      exact ⟨m, rfl, Nat.le_trans hle (by decide), by omega⟩
  obtain ⟨opened, hnew, -, hlost⟩ := blob_opened_iff .plain smallObjects hcrypt verifiesExactly_messageSet
    (fun material h => Nat.lt_trans (writeSession_small h) (by decide)) hopen (by
      intro params' d' random' hmem
      cases List.mem_singleton.mp hmem
      decide) List.length_replicate (by decide) hblob
  refine ⟨z, text, opened, blob, hopen, hnew, ?_, hblob, hlost.mp ⟨_, List.mem_singleton.mpr rfl, ?_⟩⟩
  · rw [newSession, hother]
    rfl
  · rw [SessionCall.material, hother]
    rfl

end SignedSessionEncrypter

end Java
