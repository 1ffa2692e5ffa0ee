import Keyczar.Cpp.AESRuns
import Keyczar.Cpp.KeysetHashes

/-!
# Which version bytes are read

A header is a version byte and a hash. The library writes version 0; what it reads, it looks up by the hash, and nobody looks at the
version byte. Only a ciphertext of an AES key has its header signed.
-/

namespace Cpp

open Bytes Throwing

variable {P : Primitives}

/-! ## The hashes of a key set -/

/-- An identifier of a key: its hash, or its buggy hash. -/
def Key.HasHash (P : Primitives) (key : Key) (hash : Bytes) : Prop :=
  key.hash P = some hash ∨ key.buggyHash P = .ok (some hash)

/-- `Header`, with the hash that it is made of. -/
def versionHeader (hash : Bytes) : Option Bytes := do
  let decoded ← base64WDecode hash
  return kVersionByte :: decoded

/-- A header of a key: the one that `Header` makes, or the one with the buggy hash. -/
def Key.HasHeader (P : Primitives) (key : Key) (header : Bytes) : Prop :=
  ∃ hash, key.HasHash P hash ∧ versionHeader hash = some header

namespace ManagedKeyset

/-- What a hash finds is a key with that identifier. -/
def Keyed (P : Primitives) (s : ManagedKeyset) : Prop :=
  ∀ hash key, s.hashMap hash = some key → key.HasHash P hash

theorem keyed_empty (metadata : KeysetMetadata) : Keyed P { metadata } := nofun

theorem Keyed.congr {s t : ManagedKeyset} (h : Keyed P s) (heq : t.hashMap = s.hashMap) : Keyed P t := by
  intro hash key hf
  rw [heq] at hf
  exact h hash key hf

theorem Keyed.withKey {s : ManagedKeyset} (h : Keyed P s) {key : Key} {hash : Bytes} (hhash : key.hash P = some hash) (n : Int) :
    Keyed P (s.withKey P key n hash) := by
  intro i found hf
  rw [hashMap_withKey] at hf
  split at hf
  · rename_i hbuggy
    cases hf
    exact Or.inr hbuggy
  · split at hf
    · rename_i hi
      cases hf
      rw [hi]
      exact Or.inl hhash
    · exact h i found hf

theorem Keyed.addKey {s : ManagedKeyset} (h : Keyed P s) (key : Key) (n : Int) : Keyed P (s.addKey P key n).2 := by
  rcases hadd : s.addKey P key n with ⟨result, t⟩
  rcases addKey_cases hadd with ⟨-, rfl⟩ | ⟨hash, -, -, -, hhash, -, rfl, -⟩
  · exact h
  · exact h.withKey hhash n

theorem Keyed.removeKey {s : ManagedKeyset} (h : Keyed P s) (n : Int) : Keyed P (s.removeKey P n).2 := by
  unfold ManagedKeyset.removeKey
  split
  · exact h
  · split
    · exact h
    · split
      · exact h
      · intro i found hf
        dsimp only at hf
        rw [Function.update_apply] at hf
        split at hf
        · cases hf
        · exact h i found hf

theorem Keyed.revokeKey {s : ManagedKeyset} (h : Keyed P s) (n : Int) : Keyed P (s.revokeKey P n).2 := by
  rcases s.revokeKey_cases (P := P) n with heq | ⟨v, -, -, heq⟩
  · rw [heq]
    exact h
  · rw [heq]
    have hversion : Keyed P { s with metadata := (s.metadata.removeVersion n).2 } := h.congr rfl
    exact hversion.removeKey n

theorem Keyed.addNewKey {s : ManagedKeyset} (h : Keyed P s) {status : KeyStatus} {key : Key}
    {r : Except Exception Int × ManagedKeyset} (hadd : s.addNewKey P status key = some r) : Keyed P r.2 := by
  obtain ⟨t, hsame, heq | ⟨n, heq⟩⟩ := addNewKey_maps hadd
  · rw [heq]
    exact h.congr hsame.hashMap_eq
  · rw [heq]
    exact (h.congr hsame.hashMap_eq).addKey key n

/-- Every step keeps the keys under their identifiers, whatever it adds or removes. -/
theorem Keyed.step {s s' : ManagedKeyset} (h : Keyed P s) {c : Step} (hstep : s.step P c = some s') : Keyed P s' := by
  cases c with
  | addKey key n =>
    cases hstep
    exact h.addKey key n
  | call c =>
    cases c with
    | generateKey status generated =>
      obtain ⟨r, hgenerate, rfl⟩ := Option.map_eq_some_iff.mp hstep
      rcases generateKey_cases hgenerate with rfl | ⟨key, hash, -, -, -, hadd⟩
      · exact h
      · exact h.addNewKey hadd
    | importPrivateKey status imported =>
      obtain ⟨r, himport, rfl⟩ := Option.map_eq_some_iff.mp hstep
      rcases importPrivateKey_cases himport with rfl | ⟨key, hash, -, -, -, hadd⟩
      · exact h
      · exact h.addNewKey hadd
    | promoteKey n =>
      cases hstep
      exact h.congr (sameKeys_promoteKey s n).hashMap_eq
    | demoteKey n =>
      cases hstep
      exact h.congr (sameKeys_demoteKey s n).hashMap_eq
    | revokeKey n =>
      cases hstep
      exact h.revokeKey n

theorem Keyed.readVersion {reader : KeysetReader} {loadKeys : Bool} {s t : ManagedKeyset} (h : Keyed P s)
    {version : Int × KeyVersion} (hread : readVersion P reader loadKeys s version = .ok (some t)) : Keyed P t := by
  cases loadKeys with
  | true =>
    obtain ⟨key, hash, -, hhash, -, ⟨-, -, rfl⟩ | ⟨-, rfl⟩⟩ := readVersion_cases hread
    · exact (h.withKey hhash version.1).congr rfl
    · exact h.withKey hhash version.1
  | false =>
    unfold ManagedKeyset.readVersion at hread
    simp only [Bool.false_eq_true, if_false, pure_bind] at hread
    split at hread
    · split at hread
      · cases hread
      · cases hread
        exact h.congr rfl
    · cases hread
      exact h

theorem Keyed.readVersions {reader : KeysetReader} {loadKeys : Bool} {s t : ManagedKeyset} (h : Keyed P s)
    {versions : List (Int × KeyVersion)} (hread : readVersions P reader loadKeys s versions = .ok (some t)) : Keyed P t := by
  induction versions generalizing s with
  | nil =>
    cases hread
    exact h
  | cons version versions ih =>
    unfold ManagedKeyset.readVersions at hread
    obtain ⟨next, hnext, hread⟩ := ok_of_bind hread
    cases next with
    | none => cases hread
    | some u => exact ih (h.readVersion hnext) hread

/-- Where a key set comes from: it is made of metadata, or it was read. -/
inductive Opened (P : Primitives) : ManagedKeyset → Prop where
  | made (metadata : KeysetMetadata) : Opened P { metadata }
  | read {reader : KeysetReader} {loadKeys : Bool} {s : ManagedKeyset} :
      read P reader loadKeys = some (.ok (some s)) → Opened P s

theorem Opened.keyed {s : ManagedKeyset} (h : Opened P s) : Keyed P s := by
  cases h with
  | made metadata => exact keyed_empty metadata
  | read hread =>
    unfold ManagedKeyset.read at hread
    split at hread
    · cases hread
    · split at hread
      · cases hread
      · cases hread
      · rename_i metadata _
        exact (keyed_empty metadata).readVersions (Option.some.inj hread)

/-- In every key set that was opened, whatever was done with it since. -/
theorem Steps.keyed {s₀ s : ManagedKeyset} (hopened : Opened P s₀) (h : Steps P (fun _ _ => True) s₀ s) : Keyed P s := by
  induction h with
  | start => exact hopened.keyed
  | step c _ _ hstep ih => exact ih.step hstep

end ManagedKeyset

/-- What the hash in a header finds has that header, when the version is 0. -/
theorem Keyczar.hasHeader_of_headerKey {s : ManagedKeyset} (hs : s.Keyed P) {z : Keyczar} (hz : z.keyset = some s.keyset)
    {keyHeader : Bytes} {key : Key} (hkey : z.headerKey keyHeader = some key)
    (hversion : ∀ b, keyHeader.head? = some b → b = kVersionByte) : key.HasHeader P (keyHeader.take headerSize) := by
  have hlen := length_of_headerKey hkey
  unfold headerKey at hkey
  rw [hz, Option.bind_some] at hkey
  split at hkey
  · cases hkey
  · cases keyHeader with
    | nil => cases hlen
    | cons b rest =>
      cases hversion b rfl
      have hpos : 0 < (rest.take kKeyHashSize).length := by
        rw [List.length_take]
        simp only [headerSize, kKeyHashSize, List.length_cons] at hlen ⊢
        omega
      refine ⟨_, hs _ _ hkey, ?_⟩
      unfold versionHeader
      rw [List.drop_one, List.tail_cons, base64WDecode_encode hpos]
      rfl

/-! ## Ciphertexts of AES keys -/

namespace AESKey

/-- A ciphertext that was made with the key, by `Encrypt` or by a library that writes the buggy hash. -/
def Made (P : Primitives) (k : AESKey) (ciphertext : Bytes) : Prop :=
  ∃ header iv plaintext encrypted, (Key.aes k).HasHeader P header ∧ k.aesImpl.encrypt P iv plaintext = some encrypted ∧
    ciphertext = header ++ iv ++ encrypted ++ k.hmacKey.sign P (header ++ iv ++ encrypted)

/-- Nobody else can sign: a ciphertext that ends in a signature of the key was made with it. -/
def Unforged (P : Primitives) (k : AESKey) (ciphertext : Bytes) : Prop :=
  ∀ signed signature, ciphertext = signed ++ signature → k.hmacKey.verify P signed signature = true → k.Made P ciphertext

theorem made_encrypt {k : AESKey} {iv plaintext ciphertext : Bytes} (h : k.encrypt P iv plaintext = some ciphertext) :
    k.Made P ciphertext := by
  unfold encrypt at h
  obtain ⟨encrypted, hencrypted, h⟩ := Option.bind_eq_some_iff.mp h
  obtain ⟨header, hheader, h⟩ := Option.bind_eq_some_iff.mp h
  unfold AESKey.header at hheader
  obtain ⟨hash, hhash, hheader⟩ := Option.bind_eq_some_iff.mp hheader
  exact ⟨header, iv, plaintext, encrypted, ⟨hash, Or.inl hhash, hheader⟩, hencrypted, (Option.some.inj h).symm⟩

/-- An identifier of an AES key stands for four bytes. -/
theorem hasHash_encode {k : AESKey} {hash : Bytes} (h : (Key.aes k).HasHash P hash) :
    ∃ bytes : Bytes, bytes.length = kKeyHashSize ∧ hash = Base64.encode Base64.webSafe bytes := by
  have htake : ∀ message, ((P.sha1 message).take kKeyHashSize).length = kKeyHashSize := by
    intro message
    rw [List.length_take, P.length_sha1]
    rfl
  rcases h with h | h
  · have hpos : 0 < (k.hashBytes P).length := by
      rw [length_hashBytes]
      decide
    have hhash : base64WEncode (k.hashBytes P) = some hash := h
    rw [base64WEncode_eq hpos] at hhash
    exact ⟨_, k.length_hashBytes, (Option.some.inj hhash).symm⟩
  · have hbuggy : k.buggyHash P = .ok (some hash) := h
    unfold buggyHash at hbuggy
    split at hbuggy
    · cases hbuggy
    · obtain ⟨trimmed, -, hhash⟩ := ok_of_bind hbuggy
      have hencode := Except.ok.inj hhash
      rw [base64WEncode_eq (by rw [htake]; decide)] at hencode
      exact ⟨_, htake _, (Option.some.inj hencode).symm⟩

/-- A header of an AES key is a whole header of version 0. -/
theorem header_of_hasHeader {k : AESKey} {header : Bytes} (h : (Key.aes k).HasHeader P header) :
    header.length = headerSize ∧ header.head? = some kVersionByte := by
  obtain ⟨hash, hhash, hheader⟩ := h
  obtain ⟨bytes, hlen, rfl⟩ := hasHash_encode hhash
  unfold versionHeader at hheader
  rw [base64WDecode_encode (by rw [hlen]; decide)] at hheader
  cases hheader
  exact ⟨by rw [List.length_cons, hlen]; rfl, rfl⟩

/-- What was made with a key starts with a header of it. -/
theorem Made.hasHeader {k : AESKey} {ciphertext : Bytes} (h : k.Made P ciphertext) :
    (Key.aes k).HasHeader P (ciphertext.take headerSize) ∧ ciphertext.head? = some kVersionByte := by
  obtain ⟨header, iv, plaintext, encrypted, hheader, -, rfl⟩ := h
  obtain ⟨hlen, hhead⟩ := header_of_hasHeader hheader
  simp only [List.append_assoc]
  constructor
  · rw [List.take_left' hlen]
    exact hheader
  · rw [List.head?_append, hhead]
    rfl

/-- A ciphertext that is decrypted ends in a signature of all before it. -/
theorem signed_of_decrypt {k : AESKey} {ciphertext plaintext out : Bytes} (hlen : headerSize ≤ ciphertext.length)
    (h : k.decrypt P ciphertext plaintext = .ok (true, out)) :
    ∃ signed signature, ciphertext = signed ++ signature ∧ k.hmacKey.verify P signed signature = true := by
  have hdigest : ((k.hmacKey.digestSize : Nat) : Int) / 8 = k.hmacKey.digest.size := by
    rw [HMACKey.digestSize]
    omega
  obtain ⟨n, hn⟩ := Nat.exists_eq_add_of_le hlen
  have hdata : (ciphertext.drop headerSize).length = n := by
    rw [List.length_drop, hn, Nat.add_sub_cancel_left]
  unfold decrypt at h
  rw [substr_of_le hlen, ok_bind] at h
  simp only [Size.take, hdigest, hdata, toInt_sub_toInt] at h
  obtain ⟨ivBytes, -, h⟩ := ok_of_bind h
  obtain ⟨aesBytes, -, h⟩ := ok_of_bind h
  obtain ⟨signature, hsignature, h⟩ := ok_of_bind h
  obtain ⟨signed, hsigned, h⟩ := ok_of_bind h
  split at h
  · cases h
  · rename_i hverify
    have hverified : k.hmacKey.verify P signed signature = true := by simpa using hverify
    rcases Int.lt_or_le (toInt ((n : Int) - k.hmacKey.digest.size)) 0 with hneg | hpos
    · rw [Size.ofInt_of_neg hneg] at hsignature
      cases hsignature
    · have hsize := le_of_toInt_sub_nonneg hpos
      obtain ⟨p, hp⟩ := Int.eq_ofNat_of_zero_le hpos
      have hple : p ≤ n := by
        have hle := toInt_sub_le hsize
        omega
      rw [hp, Size.ofInt_natCast, substr_of_le (hdata.symm ▸ hple)] at hsignature
      cases hsignature
      -- the signature is as long as the hash, which says where it starts
      have hlength : (Size.npos.take ((ciphertext.drop headerSize).drop p)).length = k.hmacKey.digest.size := by
        have heq := (constantTimeEq_iff _ _).mp hverified
        rw [← heq, P.length_hmac]
      rw [Size.take, List.length_drop, hdata] at hlength
      have hstart : ((ciphertext.length : Int) - k.hmacKey.digest.size) = (headerSize + p : Nat) := by
        rw [hn]
        push_cast
        omega
      rw [hstart, Size.ofInt_natCast, substr_of_le (Nat.zero_le _)] at hsigned
      cases hsigned
      refine ⟨_, _, ?_, hverified⟩
      rw [Size.take, Size.take, List.drop_zero, List.drop_drop, List.take_append_drop]

end AESKey

/-! ## The entry points -/

/-- The input has no byte, or its version is 0. -/
def VersionZero (input : Bytes) : Prop := ∀ b, input.head? = some b → b = kVersionByte

/-- Which key accepts a signature. -/
def Verifier.VerifiedBy (P : Primitives) (z : Keyczar) (data signature : Bytes) (key : Key) : Prop :=
  z.headerKey signature = some key ∧ key.verify P (buildMessageToSign data none) (signature.drop headerSize) = true

/-- Which key accepts an attached signature. -/
def Verifier.AttachedVerifiedBy (P : Primitives) (z : Keyczar) (signedData hidden : Bytes) (key : Key) : Prop :=
  ∃ header data signature, parseAttachedSignature signedData = .ok (some (header, data, signature)) ∧
    z.headerKey header = some key ∧ key.verify P (buildMessageToSign data (some hidden)) signature = true

/-- Which key decrypts a ciphertext to what can be decompressed. -/
def Crypter.DecryptedBy (P : Primitives) (z : Keyczar) (ciphertext plaintext : Bytes) (key : Key) : Prop :=
  z.headerKey ciphertext = some key ∧
    ∃ compressed, key.decrypt P ciphertext [] = .ok (true, compressed) ∧ (z.decompress compressed plaintext).1 = true

/-- A call that reads version 0 only: it refuses any other version, and what it accepts starts with a header of a key that accepts
it. -/
structure ChecksVersion (P : Primitives) (input : Bytes) (acceptedBy : Key → Prop) (run : Except Exception Bool) : Prop where
  refused : ∀ b, input.head? = some b → b ≠ kVersionByte → run = .ok false
  header : run = .ok true → ∃ key, acceptedBy key ∧ key.HasHeader P (input.take headerSize)

/-- How a call ends. -/
inductive Ends (throws : Prop) (acceptedBy : Key → Prop) : Except Exception Bool → Prop where
  | threw : throws → Ends throws acceptedBy (.error .outOfRange)
  | refused : ¬ throws → (∀ key, ¬ acceptedBy key) → Ends throws acceptedBy (.ok false)
  | accepted (key : Key) : ¬ throws → acceptedBy key → Ends throws acceptedBy (.ok true)

/-- A call that finds its keys by the header checks the version where the version is 0, and where it refuses the rest anyway. -/
theorem Ends.checksVersion_iff {throws : Prop} {acceptedBy : Key → Prop} {run : Except Exception Bool} {input : Bytes}
    (h : Ends throws acceptedBy run)
    (hheader : ∀ key, acceptedBy key → VersionZero input → key.HasHeader P (input.take headerSize)) :
    ChecksVersion P input acceptedBy run ↔ VersionZero input ∨ ¬ throws ∧ ∀ key, ¬ acceptedBy key := by
  constructor
  · intro hchecks
    by_cases hzero : VersionZero input
    · exact Or.inl hzero
    · right
      unfold VersionZero at hzero
      simp only [not_forall] at hzero
      obtain ⟨b, hb, hne⟩ := hzero
      have hfalse := hchecks.refused b hb hne
      cases h with
      | threw => cases hfalse
      | refused hthrows hnone => exact ⟨hthrows, hnone⟩
      | accepted => cases hfalse
  · rintro (hzero | ⟨hthrows, hnone⟩)
    · refine ⟨fun b hb hne => absurd (hzero b hb) hne, ?_⟩
      rintro rfl
      cases h with
      | accepted key _ hkey => exact ⟨key, hkey, hheader key hkey hzero⟩
    · cases h with
      | threw hthrew => exact absurd hthrew hthrows
      | refused => exact ⟨fun _ _ _ => rfl, nofun⟩
      | accepted key _ hkey => exact absurd hkey (hnone key)

theorem Ends.of_ok {throws : Prop} {acceptedBy : Key → Prop} {b : Bool} (hthrows : ¬ throws)
    (hb : b = true ↔ ∃ key, acceptedBy key) : Ends throws acceptedBy (.ok b) := by
  cases b with
  | true =>
    obtain ⟨key, hkey⟩ := hb.mp rfl
    exact .accepted key hthrows hkey
  | false => exact .refused hthrows fun key hkey => nomatch hb.mpr ⟨key, hkey⟩

/-- A verification answers what the key of the header says. -/
theorem Verifier.internalVerify_eq (P : Primitives) (z : Keyczar) (verificationData keyHeader signature : Bytes) :
    internalVerify P z verificationData keyHeader signature =
      .ok ((z.headerKey keyHeader).any fun key => key.verify P verificationData signature) := by
  unfold internalVerify
  rw [z.lookupKey_eq, ok_bind]
  cases z.headerKey keyHeader with
  | none => rfl
  | some key => rfl

theorem Verifier.ends_verify (P : Primitives) (z : Keyczar) (data signature : Bytes) :
    Ends (signature.length < headerSize) (VerifiedBy P z data signature) (verify P z data signature) := by
  unfold verify
  rcases Nat.lt_or_ge signature.length headerSize with hshort | hlen
  · rw [substr_of_lt hshort, error_bind]
    exact .threw hshort
  · rw [substr_of_le hlen, ok_bind, internalVerify_eq]
    refine .of_ok (Nat.not_lt.mpr hlen) ?_
    rw [Option.any_eq_true]
    exact Iff.rfl

theorem Verifier.attachedVerify_of_refused (P : Primitives) (z : Keyczar) {signedData : Bytes}
    (hparse : parseAttachedSignature signedData = .ok none) (hidden old : Bytes) :
    attachedVerify P z signedData hidden old = .ok (false, old) := by
  unfold attachedVerify
  rw [hparse, ok_bind]
  rfl

/-- An attached signature that is cut into its parts is answered for by the key of its header. -/
theorem Verifier.attachedVerify_of_parse (P : Primitives) (z : Keyczar) {signedData header data signature : Bytes}
    (hparse : parseAttachedSignature signedData = .ok (some (header, data, signature))) (hidden old : Bytes) :
    attachedVerify P z signedData hidden old =
      .ok ((z.headerKey header).any fun key => key.verify P (buildMessageToSign data (some hidden)) signature, data) := by
  unfold attachedVerify
  rw [hparse, ok_bind]
  dsimp only
  rw [internalVerify_eq, ok_bind]
  rfl

theorem Verifier.ends_attachedVerify (P : Primitives) (z : Keyczar) (signedData hidden data : Bytes) :
    Ends False (AttachedVerifiedBy P z signedData hidden) ((attachedVerify P z signedData hidden data).map Prod.fst) := by
  obtain ⟨r, hparse⟩ := parseAttachedSignature_ok signedData
  cases r with
  | none =>
    rw [attachedVerify_of_refused P z hparse]
    refine .refused not_false ?_
    rintro key ⟨header, data, signature, hp, -⟩
    rw [hparse] at hp
    cases hp
  | some parts =>
    obtain ⟨header, payload, signature⟩ := parts
    rw [attachedVerify_of_parse P z hparse]
    refine .of_ok not_false ?_
    rw [Option.any_eq_true]
    constructor
    · rintro ⟨key, hkey, hverify⟩
      exact ⟨key, header, payload, signature, hparse, hkey, hverify⟩
    · rintro ⟨key, header', payload', signature', hp, hkey, hverify⟩
      cases Option.some.inj (Except.ok.inj (hparse.symm.trans hp))
      exact ⟨key, hkey, hverify⟩

/-- A decryption with the key of the header. -/
theorem Crypter.decrypt_of_headerKey {P : Primitives} {z : Keyczar} {ciphertext : Bytes} {key : Key}
    (hkey : z.headerKey ciphertext = some key) {decrypted : Bool} {compressed : Bytes}
    (hdecrypt : key.decrypt P ciphertext [] = .ok (decrypted, compressed)) (plaintext : Bytes) :
    decrypt P z ciphertext plaintext =
      .ok (if decrypted then z.decompress compressed plaintext else (false, plaintext)) := by
  cases hset : z.keyset with
  | none => simp [Keyczar.headerKey, hset] at hkey
  | some keyset =>
    unfold decrypt
    rw [hset]
    dsimp only
    rw [z.lookupKey_eq, ok_bind, hkey]
    dsimp only
    rw [hdecrypt, ok_bind]
    cases decrypted <;> rfl

theorem Crypter.decrypt_of_noKey {P : Primitives} {z : Keyczar} {ciphertext : Bytes} (hkey : z.headerKey ciphertext = none)
    (plaintext : Bytes) : decrypt P z ciphertext plaintext = .ok (false, plaintext) := by
  unfold decrypt
  cases z.keyset with
  | none => rfl
  | some keyset =>
    dsimp only
    rw [z.lookupKey_eq, ok_bind, hkey]
    rfl

theorem Crypter.ends_decrypt (P : Primitives) (z : Keyczar) (ciphertext plaintext : Bytes) :
    Ends (z.NoRoom ciphertext) (DecryptedBy P z ciphertext plaintext) ((decrypt P z ciphertext plaintext).map Prod.fst) := by
  rcases decrypt_cases P z ciphertext plaintext with ⟨hroom, hrun⟩ | ⟨hroom, -⟩
  · rw [hrun]
    exact .threw hroom
  · cases hkey : z.headerKey ciphertext with
    | none =>
      rw [decrypt_of_noKey hkey]
      refine .refused hroom ?_
      rintro key ⟨hk, -⟩
      rw [hkey] at hk
      cases hk
    | some key =>
      rcases key.decrypt_cases P (Keyczar.length_of_headerKey hkey) with ⟨⟨k, rfl, hneg⟩, -⟩ | ⟨-, ⟨decrypted, compressed⟩, hdecrypt⟩
      · exact absurd ⟨k, hkey, hneg⟩ hroom
      · rw [decrypt_of_headerKey hkey hdecrypt]
        refine .of_ok (b := (if decrypted then z.decompress compressed plaintext else (false, plaintext)).1) hroom ?_
        constructor
        · intro h
          cases decrypted with
          | false => cases h
          | true => exact ⟨key, hkey, compressed, hdecrypt, h⟩
        · rintro ⟨key', hkey', compressed', hdecrypt', hz⟩
          cases Option.some.inj (hkey.symm.trans hkey')
          cases Except.ok.inj (hdecrypt.symm.trans hdecrypt')
          exact hz

/-- The header of an attached signature is its first bytes. -/
theorem Verifier.header_of_parse {signedData header data signature : Bytes}
    (h : parseAttachedSignature signedData = .ok (some (header, data, signature))) : header = signedData.take headerSize := by
  unfold parseAttachedSignature at h
  rw [substr_of_le (Nat.zero_le _), ok_bind] at h
  split at h
  · cases h
  · dsimp only at h
    split at h
    · cases h
    · obtain ⟨cut, -, h⟩ := ok_of_bind h
      obtain ⟨rest, -, h⟩ := ok_of_bind h
      cases h
      rfl

namespace ManagedKeyset

/-- The calls on a key set that was opened, whatever was done with it since. A signature, attached or not, has its version checked where
the version is 0 and where the key of the header refuses the rest, as long as it is long enough for a header; so has a ciphertext.
The version of a ciphertext of an AES key is checked with its signature, when there is room for one. -/
theorem version_checked_iff {s₀ s : ManagedKeyset} (hopened : Opened P s₀) (hsteps : Steps P (fun _ _ => True) s₀ s) {z : Keyczar}
    (hz : z.keyset = some s.keyset) :
    (∀ data signature,
      ChecksVersion P signature (Verifier.VerifiedBy P z data signature) (Verifier.verify P z data signature) ↔
        VersionZero signature ∨ ¬ signature.length < headerSize ∧ ∀ key, ¬ Verifier.VerifiedBy P z data signature key) ∧
    (∀ signedData hidden data,
      ChecksVersion P signedData (Verifier.AttachedVerifiedBy P z signedData hidden)
          ((Verifier.attachedVerify P z signedData hidden data).map Prod.fst) ↔
        VersionZero signedData ∨ ∀ key, ¬ Verifier.AttachedVerifiedBy P z signedData hidden key) ∧
    (∀ ciphertext plaintext,
      ChecksVersion P ciphertext (Crypter.DecryptedBy P z ciphertext plaintext)
          ((Crypter.decrypt P z ciphertext plaintext).map Prod.fst) ↔
        VersionZero ciphertext ∨ ¬ z.NoRoom ciphertext ∧ ∀ key, ¬ Crypter.DecryptedBy P z ciphertext plaintext key) ∧
    (∀ ciphertext plaintext k, z.headerKey ciphertext = some (.aes k) → k.Unforged P ciphertext →
      (ChecksVersion P ciphertext (Crypter.DecryptedBy P z ciphertext plaintext)
          ((Crypter.decrypt P z ciphertext plaintext).map Prod.fst) ↔
        VersionZero ciphertext ∨ ¬ z.NoRoom ciphertext)) := by
  have hs := hsteps.keyed hopened
  have hciphertext : ∀ ciphertext plaintext,
      ChecksVersion P ciphertext (Crypter.DecryptedBy P z ciphertext plaintext)
          ((Crypter.decrypt P z ciphertext plaintext).map Prod.fst) ↔
        VersionZero ciphertext ∨ ¬ z.NoRoom ciphertext ∧ ∀ key, ¬ Crypter.DecryptedBy P z ciphertext plaintext key := by
    intro ciphertext plaintext
    refine (Crypter.ends_decrypt P z ciphertext plaintext).checksVersion_iff ?_
    rintro key ⟨hkey, -⟩ hzero
    exact Keyczar.hasHeader_of_headerKey hs hz hkey hzero
  refine ⟨?_, ?_, hciphertext, ?_⟩
  · intro data signature
    refine (Verifier.ends_verify P z data signature).checksVersion_iff ?_
    rintro key ⟨hkey, -⟩ hzero
    exact Keyczar.hasHeader_of_headerKey hs hz hkey hzero
  · intro signedData hidden data
    have hends := Verifier.ends_attachedVerify P z signedData hidden data
    rw [hends.checksVersion_iff, not_false_iff, true_and]
    rintro key ⟨header, payload, signature, hparse, hkey, -⟩ hzero
    have hheader := Verifier.header_of_parse hparse
    have hcut : header.take headerSize = signedData.take headerSize := by
      rw [hheader, List.take_take, Nat.min_self]
    rw [← hcut]
    refine Keyczar.hasHeader_of_headerKey hs hz hkey ?_
    intro b hb
    rw [hheader] at hb
    refine hzero b ?_
    cases signedData with
    | nil => cases hb
    | cons c rest => exact hb
  · intro ciphertext plaintext k hkey hunforged
    rw [hciphertext]
    constructor
    · rintro (hzero | ⟨hroom, -⟩)
      · exact Or.inl hzero
      · exact Or.inr hroom
    · rintro (hzero | hroom)
      · exact Or.inl hzero
      · by_cases hzero : VersionZero ciphertext
        · exact Or.inl hzero
        · refine Or.inr ⟨hroom, ?_⟩
          rintro key ⟨hkey', compressed, hdecrypt, -⟩
          cases Option.some.inj (hkey.symm.trans hkey')
          obtain ⟨signed, signature, heq, hverify⟩ :=
            AESKey.signed_of_decrypt (Keyczar.length_of_headerKey hkey) hdecrypt
          have hhead := (hunforged signed signature heq hverify).hasHeader.2
          refine hzero ?_
          intro b hb
          exact Option.some.inj (hb.symm.trans hhead)

/-- The key sets of one inactive version, of a type. -/
def metadataOf (keyType : KeyType) (keyPurpose : KeyPurpose) : KeysetMetadata := { inactiveMetadata [1] with keyType, keyPurpose }

/-- An HMAC key of 20 ones. -/
def onesHmacKey : HMACKey := ⟨List.replicate 20 1, .sha1⟩

/-- A private RSA key without padding, that decrypts to what it is given. -/
def bareRsaKey : RSAPrivateKey := ⟨Base64.encode Base64.webSafe [2, 2, 2, 2], fun _ _ => false, some⟩

/-- With version 1 in the header, a signature and an attached signature of an HMAC key are accepted, and a ciphertext of an RSA key is
decrypted. -/
theorem other_version_accepted :
    (∃ s, Steps Primitives.plain (fun _ _ => True) { metadata := metadataOf .hmac .signAndVerify } s ∧
      Verifier.verify .plain { keyset := some s.keyset } [] ([1] ++ [1, 1, 1, 1] ++ List.replicate 20 1) = .ok true ∧
      Verifier.attachedVerify .plain { keyset := some s.keyset } ([1] ++ [1, 1, 1, 1] ++ be32 0 ++ List.replicate 20 1) [] [] =
        .ok (true, [])) ∧
    ∃ s, Steps Primitives.plain (fun _ _ => True) { metadata := metadataOf .rsaPriv .decryptAndEncrypt } s ∧
      Crypter.decrypt .plain { keyset := some s.keyset } ([1] ++ [2, 2, 2, 2] ++ [7]) [] = .ok (true, [7]) :=
  ⟨⟨_, .step (.addKey (.hmac onesHmacKey) 1) .start trivial rfl, by decide +kernel, by decide +kernel⟩,
    _, .step (.addKey (.rsaPrivate bareRsaKey) 1) .start trivial rfl, by decide +kernel⟩

/-- A ciphertext of version 1, long enough for a signature but not signed. -/
theorem version_checked_small : ∃ s,
    Steps Primitives.plain (fun _ _ => True) { metadata := metadataOf .aes .decryptAndEncrypt } s ∧
    ChecksVersion Primitives.plain ([1] ++ [0, 0, 0, 16] ++ List.replicate 36 1)
      (Crypter.DecryptedBy .plain { keyset := some s.keyset } ([1] ++ [0, 0, 0, 16] ++ List.replicate 36 1) [])
      ((Crypter.decrypt .plain { keyset := some s.keyset } ([1] ++ [0, 0, 0, 16] ++ List.replicate 36 1) []).map Prod.fst) := by
  refine ⟨_, .step (.addKey (.aes (aesKeyOfZeros 0 16 (by decide))) 1) .start trivial rfl, ?_⟩
  have hchecked := version_checked_iff (P := Primitives.plain) (.made (metadataOf .aes .decryptAndEncrypt))
    (.step (.addKey (.aes (aesKeyOfZeros 0 16 (by decide))) 1) .start trivial rfl) (z := { keyset := some _ }) rfl
  have hencode : Base64.encode Base64.webSafe ((([1] ++ [0, 0, 0, 16] ++ List.replicate 36 1 : Bytes).drop 1).take kKeyHashSize) =
      [65, 65, 65, 65, 69, 65] := by decide +kernel
  have hkey : ∀ keyset : Keyset, keyset.hashMap [65, 65, 65, 65, 69, 65] = some (.aes (aesKeyOfZeros 0 16 (by decide))) →
      ({ keyset := some keyset } : Keyczar).headerKey ([1] ++ [0, 0, 0, 16] ++ List.replicate 36 1) =
        some (.aes (aesKeyOfZeros 0 16 (by decide))) := by
    intro keyset hf
    unfold Keyczar.headerKey
    rw [if_neg (by decide +kernel), Option.bind_some, hencode]
    exact hf
  refine (hchecked.2.2.2 _ [] _ (hkey _ rfl) ?_).mpr (Or.inr ?_)
  · intro signed signature heq hverify
    have hsignature : List.replicate 20 0 = signature := (constantTimeEq_iff _ _).mp hverify
    have hlast : (signed ++ List.replicate 20 0).getLast? = some 0 := by
      rw [List.getLast?_append]
      rfl
    rw [hsignature, ← heq] at hlast
    exact absurd hlast (by decide)
  · rintro ⟨k, hk, hneg⟩
    cases Option.some.inj (hk.symm.trans (hkey _ rfl))
    exact absurd hneg (by decide +kernel)

end ManagedKeyset

end Cpp
