import Keyczar.Python.SessionCrypters
import Mathlib.Logic.Equiv.List

/-!
# What a session delivers

The receiver ends with the key of the sender, whichever way it came. So what the one encrypts the other decrypts, and with signatures that
stand for one message only, nothing signed in one session is accepted in another.
-/

namespace Python

open Bytes Throwing

/-! ## Unpacking what was packed -/

/-- The loop behind a front part, over arrays packed one after the other. -/
theorem unpackLoop_packed {arrays : List Bytes} (h : ∀ array ∈ arrays, array.length < 2 ^ 31) (front : Bytes) (result : List Bytes)
    {fuel : Nat} (hfuel : arrays.length < fuel) :
    unpackLoop (front ++ arrays.flatMap fun array => be32 array.length ++ array) fuel front.length result =
      some (.ok (result ++ arrays)) := by
  obtain ⟨fuel, rfl⟩ := Nat.exists_eq_succ_of_ne_zero (Nat.ne_zero_of_lt hfuel)
  induction arrays generalizing front result fuel with
  | nil => simp [unpackLoop]
  | cons array arrays ih =>
    have hlt : (front.length : Int) <
        (front ++ (array :: arrays).flatMap fun array => be32 array.length ++ array).length := by
      simp only [List.flatMap_cons, List.length_append, length_be32]
      push_cast
      omega
    have hunpack : unpackByteArray (front ++ (be32 array.length ++ array) ++ arrays.flatMap fun array => be32 array.length ++ array)
        front.length = .ok (array, ((front.length + 4 + array.length : Nat) : Int)) :=
      unpackByteArray_append (h array List.mem_cons_self)
    have hend : (front ++ (be32 array.length ++ array)).length = front.length + 4 + array.length := by
      rw [List.length_append, List.length_append, length_be32, Nat.add_assoc]
    obtain ⟨fuel, rfl⟩ := Nat.exists_eq_succ_of_ne_zero (n := fuel) (by rw [List.length_cons] at hfuel; omega)
    have hrest := ih (fun array' h' => h array' (List.mem_cons_of_mem array h')) (front ++ (be32 array.length ++ array))
      (result ++ [array]) fuel (by rw [List.length_cons] at hfuel; omega)
    rw [hend] at hrest
    rw [unpackLoop, if_pos hlt, List.flatMap_cons, ← List.append_assoc, hunpack]
    dsimp only
    rw [hrest, List.append_assoc]
    rfl

/-- Unpacking undoes packing. -/
theorem unpackMultipleByteArrays_pack {arrays : List Bytes} (h : ∀ array ∈ arrays, array.length < 2 ^ 31) {fuel : Nat}
    (hfuel : arrays.length < fuel) :
    unpackMultipleByteArrays (be32 arrays.length ++ arrays.flatMap fun array => be32 array.length ++ array) fuel =
      some (.ok arrays) := by
  have hloop := unpackLoop_packed h (be32 arrays.length) [] hfuel
  rw [length_be32] at hloop
  exact hloop

/-! ## The key of a session -/

section Keys

variable (P : Primitives) (J : JsonModule)

theorem Session.sized_new (d : SessionDraws) : (Session.new d).sessionKey.Sized :=
  ⟨isValidSize_setSize .aes _, isValidSize_setSize .hmacSha1 256⟩

theorem SessionDraws.length_aesKeyBytes_lt (d : SessionDraws) : d.aesKeyBytes.length < 2 ^ 31 := by
  have hvalid := d.valid
  simp only [validKeyLength, Bool.or_eq_true, decide_eq_true_eq] at hvalid
  omega

/-- The packed key of a session is loaded as its key. -/
theorem loadPackedKey_packedKey (d : SessionDraws) :
    ∃ packed, (Session.new d).packedKey = .ok packed ∧ ∀ fuel, 3 ≤ fuel →
      loadPackedKey packed fuel = some (.ok (Session.new d).sessionKey) := by
  have hlength : ∀ array ∈ [d.aesKeyBytes, d.hmacKeyBytes], array.length < 2 ^ 31 := by
    intro array h
    rcases List.mem_pair.mp h with rfl | rfl
    · exact d.length_aesKeyBytes_lt
    · rw [d.length_hmacKeyBytes]
      decide
  have hcount : [d.aesKeyBytes, d.hmacKeyBytes].length < 2 ^ 31 := show 2 < 2 ^ 31 by decide
  refine ⟨_, packMultipleByteArrays_eq hcount hlength, ?_⟩
  intro fuel hfuel
  rw [loadPackedKey, unpackMultipleByteArrays_pack hlength hfuel]
  show some (Except.ok _) = _
  rw [d.length_hmacKeyBytes]
  rfl

/-- The JSON text of a session is loaded as the session. -/
theorem loadJsonSession_json (d : SessionDraws) :
    ∃ text, (Session.new d).json J = .ok text ∧ Session.loadJsonSession J text = .ok (Session.new d) := by
  refine ⟨J.session.dumps { key := (Session.new d).sessionKey.parsed, nonce := base64WSEncode d.nonce }, ?_, ?_⟩
  · rw [Session.json, AesKey.toText_eq, ok_bind, J.aesKey.loads_dumps]
    rfl
  · rw [Session.loadJsonSession, J.session.loads_dumps, ok_bind]
    dsimp only
    rw [AesKey.read_dumps J (Session.sized_new d), ok_bind, base64WSDecode_encode]
    rfl

/-- The crypter of a session has one key, that of the session. -/
theorem exists_sessionCrypter (order : DictOrder) {key : AesKey} (h : key.Sized) :
    ∃ s, sessionCrypter P J order key = .ok s ∧ s.primaryKey = .ok key ∧
      s.getKey (.hash ((aesKeys P).hashId key)) = .ok key := by
  have hmeta : readMetadata (staticKeyReader J key .decryptAndEncrypt).metadata =
      .ok ({ name := "Imported", purpose := .decryptAndEncrypt, type := .aes, versions := (∅ : AList _).insert 1 0 },
        Heap.empty.alloc ⟨1, .primary, false⟩) := rfl
  have horder : order.list [0] = [0] := List.perm_singleton.mp (order.perm [0])
  have hread : (staticKeyReader J key .decryptAndEncrypt).getKey .aes 1 = .ok key := by
    show (key.toText J >>= AesKey.read J) = _
    rw [AesKey.toText_eq, ok_bind, AesKey.read_dumps J h]
  refine ⟨{ metadata := { name := "Imported", purpose := .decryptAndEncrypt, type := .aes, versions := (∅ : AList _).insert 1 0 },
            heap := Heap.empty.alloc ⟨1, .primary, false⟩, keys := Keyczar.addEntries (aesKeys P) ∅ 0 key,
            primaryVersion := some 0, defaultSize := 128 }, ?_, ?_, ?_⟩
  · rw [sessionCrypter, Keyczar.init, hmeta, ok_bind]
    show (order.list [0]).foldlM _ _ = _
    rw [horder, List.foldlM_cons, Keyczar.loadVersion]
    show ((staticKeyReader J key .decryptAndEncrypt).getKey .aes 1 >>= _) >>= _ = _
    rw [hread]
    rfl
  · exact Keyczar.getKey_eq_ok_iff.mpr (Keyczar.lookup_addEntries_version_self ∅ 0 key)
  · exact Keyczar.getKey_eq_ok_iff.mpr (Keyczar.lookup_addEntries_hash_self ∅ 0 key)

/-! ## One key, two crypters -/

variable {P}

theorem AesKey.length_ciphertext (k : AesKey) (iv : IvBytes) (data : Bytes) :
    (k.ciphertext P iv.val data).length = 41 + (data.length / 16 + 1) * 16 := by
  have hbody := AesKey.length_body P (k := k) iv.property data
  rw [AesKey.ciphertext]
  simp only [List.length_append, AesKey.length_header, hbody, iv.property, Primitives.length_hmacSha1]
  omega

/-- A key set encrypts with its primary key. -/
theorem Encrypter.encrypt_of_primaryKey {s : Keyczar AesKey} {key : AesKey} (hs : s.primaryKey = .ok key)
    (hvalid : validKeyLength key.keyBytes.length = true) (iv : IvBytes) (data : Bytes) (encoder : Option (Bytes → Bytes)) :
    Encrypter.encrypt (aesKeys P) s iv data encoder = .ok (encodeWith encoder (key.ciphertext P iv.val data)) := by
  have hencrypt : (aesKeys P).encrypt key iv data = .ok (key.ciphertext P iv.val data) := AesKey.encrypt_eq P key iv.val data hvalid
  rw [Encrypter.encrypt, hs, ok_bind, hencrypt]
  rfl

/-- A key set decrypts what one of its keys has encrypted. -/
theorem Crypter.decrypt_of_getKey {s : Keyczar AesKey} {key : AesKey} (hs : s.getKey (.hash ((aesKeys P).hashId key)) = .ok key)
    (hvalid : validKeyLength key.keyBytes.length = true) (iv : IvBytes) (data : Bytes) :
    Crypter.decrypt (aesKeys P) s (key.ciphertext P iv.val data) none = .ok data := by
  have hencrypt : (aesKeys P).encrypt key iv data = .ok (key.ciphertext P iv.val data) := AesKey.encrypt_eq P key iv.val data hvalid
  have hheader := (aesKeys_lawful P).encrypt_header hencrypt
  rw [Crypter.decrypt_of_header s hheader, hs]
  exact (aesKeys_lawful P).decrypt_encrypt hencrypt

/-- What is decoded before it is decrypted. -/
theorem Crypter.decrypt_decoded {κ ρ : Type} {C : KeyClass κ ρ} (s : Keyczar κ) {decoder : Bytes → Except PyError Bytes}
    {ciphertext decoded : Bytes} (h : decoder ciphertext = .ok decoded) :
    Crypter.decrypt C s ciphertext (some decoder) = Crypter.decrypt C s decoded none := by
  have hdecode : decodeWith (some decoder) ciphertext = decodeWith none decoded := h
  rw [Crypter.decrypt, hdecode, Crypter.decrypt]

end Keys

/-! ## Sessions without signatures -/

section

variable (P : Primitives) (J : JsonModule) (order order' : DictOrder)

/-- What is encrypted in a session is decrypted in the session that its material leads to. -/
theorem session_round_trip {encrypt decrypt : Bytes → Except PyError Bytes} (hcrypt : ∀ x, (encrypt x >>= decrypt) = .ok x)
    (d : SessionDraws) (iv : IvBytes) (plaintext : Bytes) :
    ∃ e key ciphertext, SessionEncrypter.init encrypt d = .ok e ∧
      e.encrypt P J order iv plaintext (some base64WSEncode) = .ok ciphertext ∧
      (∀ fuel, 3 ≤ fuel → sessionDecrypter decrypt e.sessionMaterial fuel = some (.ok key)) ∧
      SessionDecrypter.decrypt P J order' ⟨key⟩ ciphertext (some base64WSDecode) = .ok plaintext := by
  have hsized := Session.sized_new d
  obtain ⟨packed, hpacked, hload⟩ := loadPackedKey_packedKey d
  obtain ⟨material, hencrypt, hdecrypt⟩ := ok_of_bind (hcrypt packed)
  obtain ⟨s, hs, hprimary, -⟩ := exists_sessionCrypter P J order hsized
  obtain ⟨s', hs', -, hget⟩ := exists_sessionCrypter P J order' hsized
  refine ⟨⟨Session.new d, material⟩, (Session.new d).sessionKey,
    base64WSEncode ((Session.new d).sessionKey.ciphertext P iv.val plaintext), ?_, ?_, ?_, ?_⟩
  · rw [SessionEncrypter.init, hpacked, ok_bind, hencrypt]
    rfl
  · rw [SessionEncrypter.encrypt, hs, ok_bind]
    exact Encrypter.encrypt_of_primaryKey hprimary d.valid iv plaintext _
  · intro fuel hfuel
    rw [sessionDecrypter, hdecrypt]
    exact hload fuel hfuel
  · rw [SessionDecrypter.decrypt, hs', ok_bind]
    exact (Crypter.decrypt_decoded s' (base64WSDecode_encode _)).trans (Crypter.decrypt_of_getKey hget d.valid iv plaintext)

end

/-! ## Signed sessions -/

section Signed

variable {κ ρ κ' ρ' : Type} {C : KeyClass κ ρ} {C' : KeyClass κ' ρ'}

/-- A verifier has the key that goes with the primary key of a signer. It accepts what this has signed for the message that was signed, and
for no other. -/
structure VerifiesExactly (C : KeyClass κ ρ) (C' : KeyClass κ' ρ') (signer : Keyczar κ) (verifier : Keyczar κ') (k : κ) (k' : κ') :
    Prop where
  primary : signer.primaryKey = .ok k
  found : verifier.getKey (.hash (C'.hashId k')) = .ok k'
  hash : C'.hash k' = C.hash k
  signs : ∀ random message, ∃ sig, C.sign k random message = .ok sig
  accepts : ∀ {random message sig}, C.sign k random message = .ok sig →
    ∀ message', C'.verify k' message' sig = .ok (decide (message' = message))

/-- The message that is signed for some data and a nonce. -/
def attachedMessage (data nonce : Bytes) : Bytes := data ++ (be32 nonce.length ++ nonce) ++ [VERSION]

theorem signedBytes_of_lt {nonce : Bytes} (h : nonce.length < 2 ^ 31) (data : Bytes) :
    signedBytes data (some nonce) = .ok (attachedMessage data nonce) := by
  rw [signedBytes, packByteArray_some_of_lt h]
  rfl

/-- The nonce is part of the message. -/
theorem attachedMessage_inj {data nonce nonce' : Bytes} (h : attachedMessage data nonce = attachedMessage data nonce') :
    nonce = nonce' := by
  have hpacked := List.append_cancel_left (List.append_cancel_right h)
  exact (List.append_inj hpacked rfl).2

theorem SessionDraws.length_nonce_lt (d : SessionDraws) : d.nonce.length < 2 ^ 31 := by
  rw [d.length_nonce]
  decide

/-- A signed blob, encoded. -/
theorem Signer.attachedSign_of_primaryKey {s : Keyczar κ} {k : κ} (hs : s.primaryKey = .ok k) {data nonce sig : Bytes}
    (hnonce : nonce.length < 2 ^ 31) (hdata : data.length < 2 ^ 31) {random : ρ}
    (hsign : C.sign k random (attachedMessage data nonce) = .ok sig) (encoder : Option (Bytes → Bytes)) :
    Signer.attachedSign C s random data nonce encoder =
      .ok (encodeWith encoder (C.header k ++ (be32 data.length ++ data) ++ sig)) := by
  rw [Signer.attachedSign, hs, ok_bind, packByteArray_some_of_lt hdata, ok_bind, Signer.internalSign, hs, ok_bind,
    signedBytes_of_lt hnonce, ok_bind, hsign]
  rfl

/-- Data that is too long for the length field is not signed. -/
theorem Signer.attachedSign_of_long {s : Keyczar κ} {k : κ} (hs : s.primaryKey = .ok k) {data : Bytes} (hdata : ¬data.length < 2 ^ 31)
    (nonce : Bytes) (random : ρ) (encoder : Option (Bytes → Bytes)) :
    Signer.attachedSign C s random data nonce encoder = .error .structError := by
  rw [Signer.attachedSign, hs, ok_bind, packByteArray, packInt, if_neg hdata]
  rfl

/-- What is decoded before it is verified. -/
theorem Verifier.attachedVerify_decoded (s : Keyczar κ) {decoder : Bytes → Except PyError Bytes} {signedData decoded : Bytes}
    (h : decoder signedData = .ok decoded) (nonce : Bytes) :
    Verifier.attachedVerify C s signedData nonce (some decoder) = Verifier.attachedVerify C s decoded nonce none := by
  have hdecode : decodeWith (some decoder) signedData = decodeWith none decoded := h
  rw [Verifier.attachedVerify, hdecode, Verifier.attachedVerify]

/-- The verifier accepts a blob of the signer for the nonce that it was made with, and for no other. -/
theorem VerifiesExactly.attachedVerify {signer : Keyczar κ} {verifier : Keyczar κ'} {k : κ} {k' : κ'}
    (h : VerifiesExactly C C' signer verifier k k') {data nonce sig : Bytes} (hdata : data.length < 2 ^ 31) {random : ρ}
    (hsign : C.sign k random (attachedMessage data nonce) = .ok sig) {nonce' : Bytes} (hnonce' : nonce'.length < 2 ^ 31) :
    Verifier.attachedVerify C' verifier (C.header k ++ (be32 data.length ++ data) ++ sig) nonce' none =
      .ok (if nonce' = nonce then some data else none) := by
  have hheader : C.header k = C'.header k' := by rw [KeyClass.header, KeyClass.header, h.hash]
  rw [hheader, Verifier.attachedVerify_layout h.found hdata, signedBytes_of_lt hnonce', ok_bind, h.accepts hsign, ok_bind]
  by_cases hn : nonce' = nonce
  · rw [hn, if_pos rfl, decide_eq_true rfl]
    rfl
  · rw [if_neg hn, decide_eq_false fun heq => hn (attachedMessage_inj heq)]
    rfl

variable (P : Primitives) (J : JsonModule) (order order' : DictOrder)

theorem SignedSessionEncrypter.init_eq {encrypt decrypt : Bytes → Except PyError Bytes} (hcrypt : ∀ x, (encrypt x >>= decrypt) = .ok x)
    (signer : Keyczar κ) (verifier : Keyczar κ') (d : SessionDraws) :
    ∃ material, SignedSessionEncrypter.init J encrypt signer d = .ok ⟨Session.new d, material, signer⟩ ∧
      SignedSessionDecrypter.init J decrypt verifier material = .ok ⟨Session.new d, verifier⟩ := by
  obtain ⟨text, htext, hload⟩ := loadJsonSession_json J d
  obtain ⟨material, hencrypt, hdecrypt⟩ := ok_of_bind (hcrypt text)
  refine ⟨material, ?_, ?_⟩
  · rw [SignedSessionEncrypter.init, htext, ok_bind, hencrypt]
    rfl
  · rw [SignedSessionDecrypter.init, hdecrypt, ok_bind, hload]
    rfl

/-- What an encrypter of a signed session makes of a plaintext: a blob, unless the ciphertext is too long for its length field. -/
theorem SignedSessionEncrypter.encrypt_cases {signer : Keyczar κ} {verifier : Keyczar κ'} {k : κ} {k' : κ'}
    (h : VerifiesExactly C C' signer verifier k k') (d : SessionDraws) (material : Bytes) (iv : IvBytes) (random : ρ)
    (plaintext : Bytes) :
    (∃ sig, plaintext.length < 2 ^ 31 - 48 ∧
      C.sign k random (attachedMessage ((Session.new d).sessionKey.ciphertext P iv.val plaintext) d.nonce) = .ok sig ∧
      SignedSessionEncrypter.encrypt P J C order ⟨Session.new d, material, signer⟩ iv random plaintext =
        .ok (base64WSEncode (C.header k ++ (be32 ((Session.new d).sessionKey.ciphertext P iv.val plaintext).length ++
          (Session.new d).sessionKey.ciphertext P iv.val plaintext) ++ sig))) ∨
    (¬plaintext.length < 2 ^ 31 - 48 ∧
      SignedSessionEncrypter.encrypt P J C order ⟨Session.new d, material, signer⟩ iv random plaintext = .error .structError) := by
  obtain ⟨s, hs, hprimary, -⟩ := exists_sessionCrypter P J order (Session.sized_new d)
  have hciphertext := Encrypter.encrypt_of_primaryKey (P := P) hprimary d.valid iv plaintext none
  have hlength := AesKey.length_ciphertext (P := P) (Session.new d).sessionKey iv plaintext
  rw [SignedSessionEncrypter.encrypt, hs, ok_bind, hciphertext, ok_bind]
  by_cases hlt : plaintext.length < 2 ^ 31 - 48
  · obtain ⟨sig, hsign⟩ := h.signs random (attachedMessage ((Session.new d).sessionKey.ciphertext P iv.val plaintext) d.nonce)
    have hdata : ((Session.new d).sessionKey.ciphertext P iv.val plaintext).length < 2 ^ 31 := by omega
    exact Or.inl ⟨sig, hlt, hsign, Signer.attachedSign_of_primaryKey h.primary d.length_nonce_lt hdata hsign _⟩
  · have hdata : ¬((Session.new d).sessionKey.ciphertext P iv.val plaintext).length < 2 ^ 31 := by omega
    exact Or.inr ⟨hlt, Signer.attachedSign_of_long h.primary hdata _ random _⟩

/-- The blob of a ciphertext of one session, decrypted in another. -/
theorem SignedSessionDecrypter.decrypt_blob {signer : Keyczar κ} {verifier : Keyczar κ'} {k : κ} {k' : κ'}
    (h : VerifiesExactly C C' signer verifier k k') (d d' : SessionDraws) {random : ρ} {data sig : Bytes} (hne : data ≠ [])
    (hdata : data.length < 2 ^ 31) (hsign : C.sign k random (attachedMessage data d.nonce) = .ok sig) :
    SignedSessionDecrypter.decrypt P J C' order' ⟨Session.new d', verifier⟩
        (base64WSEncode (C.header k ++ (be32 data.length ++ data) ++ sig)) =
      if d'.nonce = d.nonce then do
        let crypter ← sessionCrypter P J order' (Session.new d').sessionKey
        let plaintext ← Crypter.decrypt (aesKeys P) crypter data none
        return some plaintext
      else .ok none := by
  have hverify : Verifier.attachedVerify C' verifier (C.header k ++ (be32 data.length ++ data) ++ sig) (Session.new d').nonce none =
      .ok (if d'.nonce = d.nonce then some data else none) := h.attachedVerify hdata hsign d'.length_nonce_lt
  rw [SignedSessionDecrypter.decrypt, Verifier.attachedVerify_decoded verifier (base64WSDecode_encode _), hverify, ok_bind]
  by_cases hn : d'.nonce = d.nonce
  · rw [if_pos hn, if_pos hn]
    dsimp only
    rw [if_neg hne]
  · rw [if_neg hn, if_neg hn]
    rfl

/-- With a crypter that undoes an encrypter and a verifier that accepts exactly what a signer signs: what is encrypted in a session is
decrypted in it, in a signed session when the ciphertext fits the length field of a blob; and no blob of one signed session is
decrypted in another with another nonce. -/
theorem sessions_round_trip {encrypt decrypt : Bytes → Except PyError Bytes} (hcrypt : ∀ x, (encrypt x >>= decrypt) = .ok x)
    {signer : Keyczar κ} {verifier : Keyczar κ'} {k : κ} {k' : κ'} (hverify : VerifiesExactly C C' signer verifier k k') :
    (∀ (d : SessionDraws) (iv : IvBytes) (plaintext : Bytes),
      ∃ e key ciphertext, SessionEncrypter.init encrypt d = .ok e ∧
        e.encrypt P J order iv plaintext (some base64WSEncode) = .ok ciphertext ∧
        (∀ fuel, 3 ≤ fuel → sessionDecrypter decrypt e.sessionMaterial fuel = some (.ok key)) ∧
        SessionDecrypter.decrypt P J order' ⟨key⟩ ciphertext (some base64WSDecode) = .ok plaintext) ∧
    (∀ (d : SessionDraws) (iv : IvBytes) (random : ρ) (plaintext : Bytes), plaintext.length < 2 ^ 31 - 48 →
      ∃ e dec blob, SignedSessionEncrypter.init J encrypt signer d = .ok e ∧
        SignedSessionDecrypter.init J decrypt verifier e.sessionMaterial = .ok dec ∧
        e.encrypt P J C order iv random plaintext = .ok blob ∧ dec.decrypt P J C' order' blob = .ok (some plaintext)) ∧
    (∀ (d d' : SessionDraws) e e' dec', d.nonce ≠ d'.nonce → SignedSessionEncrypter.init J encrypt signer d = .ok e →
      SignedSessionEncrypter.init J encrypt signer d' = .ok e' →
      SignedSessionDecrypter.init J decrypt verifier e'.sessionMaterial = .ok dec' →
      ∀ iv random plaintext blob, e.encrypt P J C order iv random plaintext = .ok blob → dec'.decrypt P J C' order' blob = .ok none) := by
  refine ⟨session_round_trip P J order order' hcrypt, ?_, ?_⟩
  · intro d iv random plaintext hlt
    obtain ⟨material, hinit, hinit'⟩ := SignedSessionEncrypter.init_eq J hcrypt signer verifier d
    obtain ⟨s, hs, -, hget⟩ := exists_sessionCrypter P J order' (Session.sized_new d)
    rcases SignedSessionEncrypter.encrypt_cases P J order hverify d material iv random plaintext with ⟨sig, -, hsign, hblob⟩ | ⟨hlong, -⟩
    · refine ⟨_, _, _, hinit, hinit', hblob, ?_⟩
      have hlength := AesKey.length_ciphertext (P := P) (Session.new d).sessionKey iv plaintext
      rw [SignedSessionDecrypter.decrypt_blob P J order' hverify d d (List.ne_nil_of_length_pos (by omega)) (by omega) hsign,
        if_pos rfl, hs, ok_bind, Crypter.decrypt_of_getKey hget d.valid]
      rfl
    · exact absurd hlt hlong
  · intro d d' e e' dec' hnonce he he' hdec' iv random plaintext blob hblob
    obtain ⟨material, hinit, -⟩ := SignedSessionEncrypter.init_eq J hcrypt signer verifier d
    obtain ⟨material', hinit', hdec⟩ := SignedSessionEncrypter.init_eq J hcrypt signer verifier d'
    cases Except.ok.inj (hinit.symm.trans he)
    cases Except.ok.inj (hinit'.symm.trans he')
    cases Except.ok.inj (hdec.symm.trans hdec')
    rcases SignedSessionEncrypter.encrypt_cases P J order hverify d material iv random plaintext with
      ⟨sig, hlt, hsign, heq⟩ | ⟨-, heq⟩
    · cases Except.ok.inj (heq.symm.trans hblob)
      have hlength := AesKey.length_ciphertext (P := P) (Session.new d).sessionKey iv plaintext
      rw [SignedSessionDecrypter.decrypt_blob P J order' hverify d d' (List.ne_nil_of_length_pos (by omega)) (by omega) hsign,
        if_neg hnonce.symm]
    · cases heq.symm.trans hblob

end Signed

/-! ## A small session -/

/-- Text for values that can be numbered: the bytes of the number. -/
def numberedJson {α β : Type} [Encodable β] (toCode : α → β) (ofCode : β → α) (h : ∀ a, ofCode (toCode a) = a) : JsonCodec α where
  dumps a := BigEndian.toBytes (Encodable.encode (toCode a))
  loads s := match Encodable.decode (BigEndian.ofBytes s) with
    | some b => .ok (ofCode b)
    | none => .error .valueError
  loads_dumps a := by
    rw [BigEndian.ofBytes_toBytes, Encodable.encodek]
    exact congrArg Except.ok (h a)

def bytesCode (s : Bytes) : List Nat := s.map UInt8.toNat

def bytesOfCode (l : List Nat) : Bytes := l.map UInt8.ofNat

theorem bytesOfCode_bytesCode (s : Bytes) : bytesOfCode (bytesCode s) = s := by
  simp [bytesOfCode, bytesCode, Function.comp_def]

def stringCode (s : String) : List Nat := s.toList.map Char.toNat

def stringOfCode (l : List Nat) : String := String.ofList (l.map Char.ofNat)

theorem stringOfCode_stringCode (s : String) : stringOfCode (stringCode s) = s := by
  simp [stringOfCode, stringCode, Function.comp_def]

/-- A module `json` with such texts. -/
def numberedModule : JsonModule where
  hmacKey := numberedJson (fun v => (bytesCode v.hmacKeyString, v.size)) (fun c => ⟨bytesOfCode c.1, c.2⟩) fun v => by
    rw [bytesOfCode_bytesCode]
  aesKey := numberedJson
    (fun v => (stringCode v.mode, v.size, bytesCode v.aesKeyString, bytesCode v.hmacKey.hmacKeyString, v.hmacKey.size))
    (fun c => ⟨stringOfCode c.1, c.2.1, bytesOfCode c.2.2.1, ⟨bytesOfCode c.2.2.2.1, c.2.2.2.2⟩⟩) fun v => by
    rw [stringOfCode_stringCode, bytesOfCode_bytesCode, bytesOfCode_bytesCode]
  session := numberedJson
    (fun v => (stringCode v.key.mode, v.key.size, bytesCode v.key.aesKeyString, bytesCode v.key.hmacKey.hmacKeyString,
      v.key.hmacKey.size, bytesCode v.nonce))
    (fun c => ⟨⟨stringOfCode c.1, c.2.1, bytesOfCode c.2.2.1, ⟨bytesOfCode c.2.2.2.1, c.2.2.2.2.1⟩⟩, bytesOfCode c.2.2.2.2.2⟩)
    fun v => by rw [stringOfCode_stringCode, bytesOfCode_bytesCode, bytesOfCode_bytesCode, bytesOfCode_bytesCode]

/-- A key set with one AES key. -/
def smallAesKey : AesKey := { keyBytes := List.replicate 16 3, hmacKey := { keyBytes := List.replicate 32 4 } }

def smallAesSet : Keyczar AesKey where
  metadata := { name := "small", purpose := .decryptAndEncrypt, type := .aes, versions := (∅ : AList _).insert 1 0 }
  heap := Heap.empty.alloc ⟨1, .primary, false⟩
  keys := Keyczar.addEntries (aesKeys Primitives.plain) ∅ 0 smallAesKey
  primaryVersion := some 0
  defaultSize := 128

def smallIv : IvBytes := ⟨List.replicate 16 9, List.length_replicate⟩

/-- What its encrypter encrypts its crypter decrypts. -/
theorem smallAesSet_decrypt_encrypt (x : Bytes) :
    (Encrypter.encrypt (aesKeys Primitives.plain) smallAesSet smallIv x none >>= fun c =>
      Crypter.decrypt (aesKeys Primitives.plain) smallAesSet c none) = .ok x := by
  have hprimary : smallAesSet.primaryKey = .ok smallAesKey :=
    Keyczar.getKey_eq_ok_iff.mpr (Keyczar.lookup_addEntries_version_self ∅ 0 smallAesKey)
  have hget : smallAesSet.getKey (.hash ((aesKeys Primitives.plain).hashId smallAesKey)) = .ok smallAesKey :=
    Keyczar.getKey_eq_ok_iff.mpr (Keyczar.lookup_addEntries_hash_self ∅ 0 smallAesKey)
  rw [Encrypter.encrypt_of_primaryKey hprimary (by decide), ok_bind]
  exact Crypter.decrypt_of_getKey hget (by decide) smallIv x

/-- Keys whose signatures are the messages themselves. -/
def messageKeys : KeyClass HmacKey Unit :=
  { hmacKeys Primitives.plain with
    sign := fun _ _ message => .ok message
    verify := fun _ message sig => .ok (decide (message = sig)) }

theorem verifiesExactly_messageKeys : VerifiesExactly messageKeys messageKeys smallSet smallSet smallKey smallKey where
  primary := Keyczar.getKey_eq_ok_iff.mpr (Keyczar.lookup_addEntries_version_self ∅ 0 smallKey)
  found := Keyczar.getKey_eq_ok_iff.mpr (Keyczar.lookup_addEntries_hash_self ∅ 0 smallKey)
  hash := rfl
  signs _ message := ⟨message, rfl⟩
  accepts h message' := by
    cases Except.ok.inj h
    rfl

/-- A session, and one with another nonce. -/
def smallDraws : SessionDraws where
  aesKeyBytes := List.replicate 16 1
  hmacKeyBytes := List.replicate 32 2
  nonce := List.replicate 16 0
  valid := by decide
  length_hmacKeyBytes := List.length_replicate
  length_nonce := List.length_replicate

/-- In the small session a plaintext of five bytes comes through. -/
theorem sessions_round_trip_small :
    ∃ e dec blob,
      SignedSessionEncrypter.init numberedModule
        (fun x => Encrypter.encrypt (aesKeys Primitives.plain) smallAesSet smallIv x none) smallSet smallDraws = .ok e ∧
      SignedSessionDecrypter.init numberedModule
        (fun c => Crypter.decrypt (aesKeys Primitives.plain) smallAesSet c none) smallSet e.sessionMaterial = .ok dec ∧
      e.encrypt Primitives.plain numberedModule messageKeys asListed smallIv () [1, 2, 3, 4, 5] = .ok blob ∧
      dec.decrypt Primitives.plain numberedModule messageKeys asListed blob = .ok (some [1, 2, 3, 4, 5]) :=
  (sessions_round_trip Primitives.plain numberedModule asListed asListed smallAesSet_decrypt_encrypt
    verifiesExactly_messageKeys).2.1 smallDraws smallIv () [1, 2, 3, 4, 5] (by decide)

/-- A plaintext whose ciphertext is one block too long for the length field of a blob: the encrypter raises. -/
theorem long_plaintext_not_encrypted :
    ∃ e,
      SignedSessionEncrypter.init numberedModule
        (fun x => Encrypter.encrypt (aesKeys Primitives.plain) smallAesSet smallIv x none) smallSet smallDraws = .ok e ∧
      e.encrypt Primitives.plain numberedModule messageKeys asListed smallIv () (List.replicate (2 ^ 31 - 48) 0) =
        .error .structError := by
  obtain ⟨material, hinit, -⟩ := SignedSessionEncrypter.init_eq numberedModule smallAesSet_decrypt_encrypt smallSet smallSet smallDraws
  refine ⟨_, hinit, ?_⟩
  rcases SignedSessionEncrypter.encrypt_cases Primitives.plain numberedModule asListed verifiesExactly_messageKeys smallDraws material
    smallIv () (List.replicate (2 ^ 31 - 48) 0) with ⟨sig, hlt, -⟩ | ⟨-, herror⟩
  · rw [List.length_replicate] at hlt
    exact absurd hlt (lt_irrefl _)
  · exact herror

end Python
