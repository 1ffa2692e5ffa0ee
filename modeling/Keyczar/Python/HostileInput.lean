import Keyczar.Python.RsaKeys
import Keyczar.Python.StreamAgreement
import Keyczar.Python.AttachedBlobs

/-!
# What hostile input raises

For each way in, which bytes make it raise something else than a `KeyczarError`: `struct.error` from a length that is cut off,
`ValueError` from the cipher, `IndexError` where the last byte of nothing is looked at.
-/

namespace Python

open Bytes Throwing

/-- The exceptions that are derived from `KeyczarError`. -/
def PyError.isKeyczarError : PyError → Bool
  | .keyczarError _ | .badVersionError _ | .invalidSignatureError | .keyNotFoundError _ | .shortCiphertextError _
  | .shortSignatureError _ | .noPrimaryKeyError | .base64DecodingError => true
  | .indexError | .structError | .valueError | .attributeError | .assertionError => false

/-- A call returns a value or raises an exception that is derived from `KeyczarError`. -/
def Handled {α : Type} (x : Except PyError α) : Prop := ∀ e, x = .error e → e.isKeyczarError = true

theorem handled_ok {α : Type} (a : α) : Handled (.ok a : Except PyError α) := nofun

theorem handled_error_iff {α : Type} (e : PyError) : Handled (.error e : Except PyError α) ↔ e.isKeyczarError = true := by
  constructor
  · intro h
    exact h e rfl
  · rintro h _ ⟨⟩
    exact h

/-- Where the first step raises nothing else, it is the rest that matters. -/
theorem handled_bind_iff {α β : Type} {x : Except PyError α} (hx : Handled x) (f : α → Except PyError β) :
    Handled (x >>= f) ↔ ∀ a, x = .ok a → Handled (f a) := by
  cases x with
  | error e =>
    rw [error_bind, handled_error_iff]
    exact ⟨fun _ => nofun, fun _ => hx e rfl⟩
  | ok a =>
    rw [ok_bind]
    constructor
    · rintro h _ ⟨⟩
      exact h
    · intro h
      exact h a rfl

variable {κ ρ : Type}

/-- A header that is not empty is refused with a `KeyczarError` or leads to a key. -/
theorem handled_parseHeader (s : Keyczar κ) {hdr : Bytes} (h : hdr ≠ []) : Handled (s.parseHeader hdr) := by
  cases hdr with
  | nil => exact absurd rfl h
  | cons version hash =>
    simp only [Keyczar.parseHeader, Keyczar.getKey]
    split
    · exact (handled_error_iff _).mpr rfl
    · split
      · exact handled_ok _
      · exact (handled_error_iff _).mpr rfl

/-! ## The calls on a key set -/

/-- Which bytes the calls on sets of a kind of keys handle: those that do not lead to a key, and those that the key that they lead to
can take. -/
structure HandledExactly (C : KeyClass κ ρ) (canDecrypt : κ → Bytes → Prop) (canVerify : Prop) : Prop where
  decrypt : ∀ (s : Keyczar κ) (x : Bytes), Handled (Crypter.decrypt C s x none) ↔
    ∀ key, HEADER_SIZE ≤ x.length → s.parseHeader (x.take HEADER_SIZE) = .ok key → canDecrypt key x
  verify : ∀ (s : Keyczar κ) (data x : Bytes), Handled (Verifier.verify C s data x none) ↔
    ∀ key, HEADER_SIZE ≤ x.length → s.parseHeader (x.take HEADER_SIZE) = .ok key → canVerify
  attachedVerify : ∀ (s : Keyczar κ) (x nonce : Bytes), Handled (Verifier.attachedVerify C s x nonce none) ↔
    HEADER_SIZE + 4 ≤ x.length ∧
      ∀ key, s.parseHeader (x.take HEADER_SIZE) = .ok key → nonce.length < 2 ^ 31 ∧ canVerify

theorem take_header_ne_nil {x : Bytes} (h : HEADER_SIZE ≤ x.length) : x.take HEADER_SIZE ≠ [] := by
  intro hnil
  have hlength := congrArg List.length hnil
  rw [List.length_take, Nat.min_eq_left h] at hlength
  cases hlength

theorem Crypter.decrypt_handled_iff (C : KeyClass κ ρ) (s : Keyczar κ) (x : Bytes) :
    Handled (Crypter.decrypt C s x none) ↔
      ∀ key, HEADER_SIZE ≤ x.length → s.parseHeader (x.take HEADER_SIZE) = .ok key → Handled (C.decrypt key x) := by
  unfold Crypter.decrypt decodeWith
  simp only [ok_bind]
  by_cases hlen : x.length < HEADER_SIZE
  · rw [if_pos hlen]
    refine ⟨fun _ _ hle => absurd hlen (Nat.not_lt_of_le hle), fun _ => ?_⟩
    exact (handled_error_iff (.shortCiphertextError x.length)).mpr rfl
  · have hle := Nat.le_of_not_lt hlen
    rw [if_neg hlen, sliceTo_nat]
    exact (handled_bind_iff (handled_parseHeader s (take_header_ne_nil hle)) _).trans
      ⟨fun h key _ => h key, fun h key => h key hle⟩

theorem Verifier.verify_handled_iff (C : KeyClass κ ρ) (s : Keyczar κ) (data x : Bytes) :
    Handled (Verifier.verify C s data x none) ↔
      ∀ key, HEADER_SIZE ≤ x.length → s.parseHeader (x.take HEADER_SIZE) = .ok key →
        Handled (C.verify key (data ++ [VERSION]) (x.drop HEADER_SIZE)) := by
  unfold Verifier.verify decodeWith Verifier.internalVerify signedBytes
  simp only [ok_bind, packByteArray_none, pure_bind, List.append_nil]
  by_cases hlen : x.length < HEADER_SIZE
  · rw [if_pos hlen]
    refine ⟨fun _ _ hle => absurd hlen (Nat.not_lt_of_le hle), fun _ => ?_⟩
    exact (handled_error_iff (.shortSignatureError x.length)).mpr rfl
  · have hle := Nat.le_of_not_lt hlen
    rw [if_neg hlen, sliceTo_nat, sliceFrom_nat]
    exact (handled_bind_iff (handled_parseHeader s (take_header_ne_nil hle)) _).trans
      ⟨fun h key _ => h key, fun h key => h key hle⟩

/-- A length field is read, or it is cut off and that raises `struct.error`. -/
theorem unpackInt_cases (x : Bytes) (offset : Nat) :
    (offset + 4 ≤ x.length ∧ ∃ n, unpackInt x offset = .ok n) ∨
      (¬ offset + 4 ≤ x.length ∧ unpackInt x offset = .error .structError) := by
  have hend : (offset : Int) + 4 = (offset + 4 : Nat) := by push_cast; rfl
  have hlength : ((x.drop offset).take 4).length = min 4 (x.length - offset) := by simp
  unfold unpackInt
  rw [hend, slice_nat, Nat.add_sub_cancel_left]
  cases hread : readBe32 ((x.drop offset).take 4) with
  | none =>
    refine Or.inr ⟨fun hle => ?_, rfl⟩
    have hsome := (readBe32_isSome_iff ((x.drop offset).take 4)).mpr (by omega)
    rw [hread] at hsome
    cases hsome
  | some n =>
    refine Or.inl ⟨?_, _, rfl⟩
    have hfour := (readBe32_isSome_iff ((x.drop offset).take 4)).mp (by rw [hread]; rfl)
    omega

/-- The nonce is packed after the key is found, and only a nonce of fewer than 2^31 bytes can be. -/
theorem Verifier.attachedVerify_handled_iff (C : KeyClass κ ρ)
    (hC : ∀ key m t m' t', Handled (C.verify key m t) ↔ Handled (C.verify key m' t')) (s : Keyczar κ) (x nonce : Bytes) :
    Handled (Verifier.attachedVerify C s x nonce none) ↔
      HEADER_SIZE + 4 ≤ x.length ∧ ∀ key, s.parseHeader (x.take HEADER_SIZE) = .ok key →
        nonce.length < 2 ^ 31 ∧ Handled (C.verify key [] []) := by
  rcases unpackInt_cases x HEADER_SIZE with ⟨hle, n, hn⟩ | ⟨hlt, hn⟩
  · have hheader : x.take HEADER_SIZE ≠ [] := take_header_ne_nil (Nat.le_of_add_right_le hle)
    rw [Verifier.attachedVerify_of_length s hn nonce, sliceTo_nat, handled_bind_iff (handled_parseHeader s hheader),
      and_iff_right hle]
    refine forall₂_congr fun key _ => ?_
    by_cases hnonce : nonce.length < 2 ^ 31
    · rw [and_iff_right hnonce]
      simp only [signedBytes, packByteArray_some_of_lt hnonce, ok_bind, pure_bind]
      rw [hC key [] [] _ _]
      cases C.verify key _ _ with
      | error e =>
        simp only [error_bind]
        exact (handled_error_iff e).trans (handled_error_iff e).symm
      | ok verified => exact ⟨fun _ => handled_ok _, fun _ => handled_ok _⟩
    · have hpack : packByteArray (some nonce) = .error .structError := by
        unfold packByteArray packInt
        dsimp only
        rw [if_neg hnonce]
        rfl
      rw [signedBytes, hpack]
      simp only [error_bind]
      rw [handled_error_iff]
      exact ⟨nofun, fun h => absurd h.1 hnonce⟩
  · have hraise : Verifier.attachedVerify C s x nonce none = .error .structError := by
      unfold Verifier.attachedVerify decodeWith unpackByteArray
      simp only [ok_bind, hn]
      rfl
    rw [hraise, handled_error_iff]
    exact ⟨nofun, fun h => absurd h.1 hlt⟩

/-! ## What the keys can take -/

/-- The ciphertexts that an AES key can take: too short ones and wrongly signed ones are refused; of the others the key has to be
one that AES has, and there has to be a payload, in whole blocks. -/
def AesKey.TakesCiphertext (P : Primitives) (k : AesKey) (x : Bytes) : Prop :=
  41 ≤ x.length → k.hmacKey.sign P (x.take (x.length - 20)) = x.drop (x.length - 20) →
    validKeyLength k.keyBytes.length = true ∧ 41 < x.length ∧ (x.length - 41) % 16 = 0

theorem AesKey.decrypt_handled_iff (P : Primitives) (k : AesKey) (x : Bytes) :
    Handled (k.decrypt P x) ↔ k.TakesCiphertext P x := by
  rw [AesKey.decrypt_eq, TakesCiphertext, AesKey.length_payload]
  by_cases hlen : x.length < 41
  · rw [if_pos hlen, handled_error_iff]
    exact ⟨fun _ hle => absurd hlen (Nat.not_lt_of_le hle), fun _ => rfl⟩
  rw [if_neg hlen]
  by_cases hsign : k.hmacKey.sign P (x.take (x.length - 20)) = x.drop (x.length - 20)
  · rw [if_neg (not_not_intro hsign)]
    by_cases hkey : validKeyLength k.keyBytes.length = true
    · rw [if_neg (not_not_intro hkey)]
      by_cases hmod : (x.length - 41) % 16 = 0
      · rw [if_neg (not_not_intro hmod)]
        -- whole blocks: the last byte is there unless there is no block
        have hiv := AesKey.length_iv (Nat.le_of_not_lt hlen)
        have hplain : (Cbc.decrypt (P.aes k.keyBytes) (AesKey.iv x) (AesKey.payload x)).length = x.length - 41 := by
          rw [Cbc.length_decrypt hiv (by rw [AesKey.length_payload]; exact Nat.dvd_of_mod_eq_zero hmod), AesKey.length_payload]
        by_cases hlong : 41 < x.length
        · have hne : Cbc.decrypt (P.aes k.keyBytes) (AesKey.iv x) (AesKey.payload x) ≠ [] := by
            intro hnil
            rw [hnil, List.length_nil] at hplain
            omega
          obtain ⟨t, ht⟩ := DecryptingStreamReader.unPad_of_ne_nil hne
          rw [ht]
          exact ⟨fun _ _ _ => ⟨hkey, hlong, hmod⟩, fun _ => handled_ok t⟩
        · have hnil : Cbc.decrypt (P.aes k.keyBytes) (AesKey.iv x) (AesKey.payload x) = [] :=
            List.eq_nil_of_length_eq_zero (by rw [hplain]; omega)
          rw [hnil, show AesKey.unPad [] = .error .indexError from rfl, handled_error_iff]
          exact ⟨nofun, fun h => absurd (h (Nat.le_of_not_lt hlen) hsign).2.1 hlong⟩
      · rw [if_pos hmod, handled_error_iff]
        exact ⟨nofun, fun h => absurd (h (Nat.le_of_not_lt hlen) hsign).2.2 hmod⟩
    · rw [if_pos hkey, handled_error_iff]
      exact ⟨nofun, fun h => absurd (h (Nat.le_of_not_lt hlen) hsign).1 hkey⟩
  · rw [if_pos hsign, handled_error_iff]
    exact ⟨fun _ _ h => absurd h hsign, fun _ => rfl⟩

/-- The encoded messages that an RSA key can take: not those whose data block is the hash of the label and then zeros to its end. -/
def RsaPrivateKey.TakesMessage (P : Primitives) (L : RsaLibrary) (k : RsaPrivateKey) (encodedMessage : Bytes) : Prop :=
  2 * HLEN + 2 ≤ encodedMessage.length → ∀ datablock, k.unmask P L encodedMessage = .ok datablock →
    datablock.take HLEN = P.sha1 [] → ∃ b ∈ datablock.drop HLEN, b ≠ 0

theorem handled_mgf (P : Primitives) (seed : Bytes) (mlen : Nat) : Handled (mgf P seed mlen) := by
  unfold mgf
  split
  · exact (handled_error_iff (.keyczarError _)).mpr rfl
  · exact handled_ok _

theorem RsaPrivateKey.handled_unmask (P : Primitives) (L : RsaLibrary) (k : RsaPrivateKey) (encodedMessage : Bytes) :
    Handled (k.unmask P L encodedMessage) := by
  unfold unmask
  refine (handled_bind_iff (handled_mgf P _ _) _).mpr fun seedMask _ => ?_
  exact (handled_bind_iff (handled_mgf P _ _) _).mpr fun datablockMask _ => handled_ok _

theorem RsaPrivateKey.decode_handled_iff (P : Primitives) (L : RsaLibrary) (k : RsaPrivateKey) (encodedMessage : Bytes) :
    Handled (k.decode P L encodedMessage) ↔ k.TakesMessage P L encodedMessage := by
  unfold decode TakesMessage
  by_cases hlen : encodedMessage.length < 2 * HLEN + 2
  · rw [if_pos hlen]
    refine ⟨fun _ hle => absurd hlen (Nat.not_lt_of_le hle), fun _ => ?_⟩
    exact (handled_error_iff (.keyczarError _)).mpr rfl
  rw [if_neg hlen, forall_prop_of_true (Nat.le_of_not_lt hlen)]
  refine (handled_bind_iff (k.handled_unmask P L encodedMessage) _).trans (forall₂_congr fun datablock _ => ?_)
  by_cases hlabel : datablock.take HLEN = P.sha1 []
  · rw [if_neg (not_not_intro hlabel), forall_prop_of_true hlabel]
    cases hrest : BigEndian.strip (datablock.drop HLEN) with
    | nil =>
      have hzero := (BigEndian.strip_eq_nil_iff _).mp hrest
      refine ⟨fun h => absurd (h .indexError rfl) (by decide), ?_⟩
      rintro ⟨b, hb, hne⟩
      exact absurd (hzero b hb) hne
    | cons delimiter message =>
      have hsome : ∃ b ∈ datablock.drop HLEN, b ≠ 0 := by
        by_contra hnone
        have hzero : BigEndian.strip (datablock.drop HLEN) = [] := by
          rw [BigEndian.strip_eq_nil_iff]
          intro b hb
          by_contra hne
          exact hnone ⟨b, hb, hne⟩
        rw [hrest] at hzero
        cases hzero
      refine ⟨fun _ => hsome, fun _ => ?_⟩
      dsimp only
      split
      · exact (handled_error_iff (.keyczarError _)).mpr rfl
      · exact handled_ok message
  · rw [if_pos hlabel]
    refine ⟨fun _ h => absurd h hlabel, fun _ => ?_⟩
    exact (handled_error_iff (.keyczarError _)).mpr rfl

/-! ## Readers -/

/-- The streams that an AES key can take: once the initial vector is there the key has to be one that AES has, and once there is a
payload it has to be whole blocks, signed or not. -/
def AesKey.TakesStream (k : AesKey) (x : Bytes) : Prop :=
  (21 ≤ x.length → validKeyLength k.keyBytes.length = true) ∧ (42 ≤ x.length → (x.length - 41) % 16 = 0)

namespace DecryptingStreamReader

/-- What a read raises is a `KeyczarError` when the key of the header can take the stream, and only then. -/
theorem ReadError.handled_iff {P : Primitives} {s : Keyczar AesKey} {x : Bytes} {e : PyError} (h : ReadError P s x e) :
    e.isKeyczarError = true ↔ ∀ key, HEADER_SIZE ≤ x.length → s.parseHeader (x.take HEADER_SIZE) = .ok key → key.TakesStream x := by
  cases h with
  | header hlen hrefused =>
    refine ⟨fun _ key _ hkey => ?_, fun _ => handled_parseHeader s (take_header_ne_nil hlen) e hrefused⟩
    cases hrefused.symm.trans hkey
  | badKey hlen hfound hinvalid hraises =>
    subst hraises
    exact ⟨nofun, fun h => absurd ((h _ (Nat.le_trans (by decide) hlen) hfound).1 hlen) hinvalid⟩
  | partialBlock hlen hfound hvalid hleft hraises =>
    subst hraises
    rw [AesKey.length_payload] at hleft
    exact ⟨nofun, fun h => absurd ((h _ (Nat.le_trans (by decide) hlen) hfound).2 hlen) hleft⟩
  | badSignature hlen hfound hvalid hwhole _ hraises =>
    subst hraises
    rw [AesKey.length_payload] at hwhole
    refine ⟨fun _ key _ hkey => ?_, fun _ => rfl⟩
    cases hfound.symm.trans hkey
    exact ⟨fun _ => hvalid, fun _ => hwhole⟩

/-- A stream that was read to its end is one that the key of its header can take. -/
theorem takesStream_of_exhausted {P : Primitives} {s : Keyczar AesKey} {x out : Bytes} {q : Prop} {r : DecryptingStreamReader}
    (h : Reading P s x q out r) (he : Exhausted r) :
    ∀ key, HEADER_SIZE ≤ x.length → s.parseHeader (x.take HEADER_SIZE) = .ok key → key.TakesStream x := by
  intro key hle hkey
  rcases exhausted_cases h he with hlt | ⟨-, hlt, -⟩ | ⟨-, hshort, key', hkey', hvalid⟩ | ⟨key', _, _, _, _, _, _, hat⟩
  · exact absurd hle (Nat.not_le_of_lt hlt)
  · exact ⟨fun h => absurd h (by omega), fun h => absurd h (by omega)⟩
  · cases hkey'.symm.trans hkey
    exact ⟨fun _ => hvalid, fun h => absurd h (by omega)⟩
  · obtain ⟨hlen, hkey', -, -, hmod, -⟩ := hat.parts
    cases hkey'.symm.trans hkey
    refine ⟨fun _ => hat.valid_key, fun _ => ?_⟩
    rw [hlen, Nat.add_sub_cancel_left]
    exact hmod

/-- No read of a stream raises anything but a `KeyczarError`, however it is cut into pieces and read, exactly when the key of its
header can take it. -/
theorem read_handled_iff (P : Primitives) (s : Keyczar AesKey) (stream : InputStream) (bufferSize : Int) :
    (∀ trace r chars, Reads P (create s stream bufferSize) trace r → Handled (read P r chars)) ↔
      ∀ key, HEADER_SIZE ≤ stream.content.length → s.parseHeader (stream.content.take HEADER_SIZE) = .ok key →
        key.TakesStream stream.content := by
  have h₀ : Reading P s stream.content False [] (create s stream bufferSize) := reading_create rfl False.elim
  constructor
  · intro h
    obtain ⟨trace, r, hreads, hsaw | ⟨e, he⟩⟩ := exists_reads_to_end h₀ Reads.start
    · obtain ⟨hread, hex⟩ := reading_of_reads h₀ hreads
      exact takesStream_of_exhausted hread (hex hsaw)
    · rcases read_spec (reading_of_reads h₀ hreads).1 (-1) with ⟨e', he', herror⟩ | ⟨_, _, hok, _⟩
      · exact herror.handled_iff.mp (h trace r (-1) hreads e' he')
      · rw [hok] at he
        cases he
  · intro h trace r chars hreads e he
    rcases read_spec (reading_of_reads h₀ hreads).1 chars with ⟨e', he', herror⟩ | ⟨_, _, hok, _⟩
    · cases he.symm.trans he'
      exact herror.handled_iff.mpr h
    · rw [hok] at he
      cases he

end DecryptingStreamReader

/-! ### Keys without an HMAC key -/

/-- A reader with a set of keys that have no attribute `hmac_key`. It gets no further than the header. -/
structure HeaderReader (κ : Type) where
  keySet : Keyczar κ
  inputStream : InputStream
  encryptedBuffer : Bytes := []

namespace HeaderReader

/-- `read`, of any size: nothing is ever decrypted. -/
def read (r : HeaderReader κ) : Except PyError (Bytes × HeaderReader κ) :=
  let ((bytes, _), inputStream) := readBytes (HEADER_SIZE - r.encryptedBuffer.length) true r.inputStream
  let buffer := r.encryptedBuffer ++ bytes
  if HEADER_SIZE ≤ buffer.length then do
    let _ ← r.keySet.parseHeader (sliceTo buffer HEADER_SIZE)
    throw .attributeError
  else .ok ([], { r with inputStream, encryptedBuffer := buffer })

/-- The readers after some reads that all return. -/
inductive Reads (r₀ : HeaderReader κ) : HeaderReader κ → Prop where
  | start : Reads r₀ r₀
  | read {r r' : HeaderReader κ} {result : Bytes} (before : Reads r₀ r) (returns : r.read = .ok (result, r')) : Reads r₀ r'

/-- The reader waits for the header of `x`. -/
structure Waits (s : Keyczar κ) (x : Bytes) (r : HeaderReader κ) : Prop where
  keySet_eq : r.keySet = s
  length_lt : r.encryptedBuffer.length < HEADER_SIZE
  seen_eq : x = r.encryptedBuffer ++ r.inputStream.content

/-- A read looks the header up and raises, or there is none and the reader waits on. -/
theorem read_of_waits {s : Keyczar κ} {x : Bytes} {r : HeaderReader κ} (h : Waits s x r) :
    (HEADER_SIZE ≤ x.length ∧ r.read = (s.parseHeader (x.take HEADER_SIZE) >>= fun _ => .error .attributeError)) ∨
      (x.length < HEADER_SIZE ∧ ∃ r', r.read = .ok ([], r') ∧ Waits s x r') := by
  obtain ⟨bytes, more, s', hread, hcontent, -, -, hcases⟩ := readBytes_missing h.length_lt r.inputStream
  have hx : x = r.encryptedBuffer ++ bytes ++ s'.content := by
    rw [h.seen_eq, hcontent, List.append_assoc]
  unfold read
  rw [hread]
  dsimp only
  rcases hcases with ⟨hfull, -, -⟩ | ⟨hshort, -, hnil⟩
  · left
    rw [if_pos hfull, sliceTo_nat, h.keySet_eq, hx, List.take_append_of_le_length hfull]
    refine ⟨?_, rfl⟩
    rw [List.length_append]
    omega
  · right
    rw [if_neg (Nat.not_le.mpr hshort)]
    refine ⟨?_, _, rfl, h.keySet_eq, hshort, hx⟩
    rw [hx, InputStream.content_of_nil hnil, List.append_nil]
    exact hshort

/-- No read raises anything but a `KeyczarError` exactly when the header leads to no key. -/
theorem read_handled_iff (s : Keyczar κ) (stream : InputStream) :
    (∀ r, Reads { keySet := s, inputStream := stream } r → Handled r.read) ↔
      ∀ key, HEADER_SIZE ≤ stream.content.length → s.parseHeader (stream.content.take HEADER_SIZE) ≠ .ok key := by
  have h₀ : Waits s stream.content { keySet := s, inputStream := stream } := ⟨rfl, (by decide : 0 < HEADER_SIZE), rfl⟩
  have hwaits : ∀ r, Reads { keySet := s, inputStream := stream } r → Waits s stream.content r := by
    intro r hreads
    induction hreads with
    | start => exact h₀
    | read before returns ih =>
      rcases read_of_waits ih with ⟨_, heq⟩ | ⟨_, r', heq, hnext⟩
      · rw [heq] at returns
        obtain ⟨_, _, hthrow⟩ := ok_of_bind returns
        cases hthrow
      · rw [heq] at returns
        cases returns
        exact hnext
  constructor
  · intro h key hle hkey
    rcases read_of_waits h₀ with ⟨_, heq⟩ | ⟨hlt, _⟩
    · have hraise := h _ .start
      rw [heq, hkey, ok_bind, handled_error_iff] at hraise
      cases hraise
    · exact absurd hle (Nat.not_le_of_lt hlt)
  · intro h r hreads
    rcases read_of_waits (hwaits r hreads) with ⟨hle, heq⟩ | ⟨_, r', heq, _⟩
    · rw [heq, handled_bind_iff (handled_parseHeader s (take_header_ne_nil hle))]
      intro key hkey
      exact absurd hkey (h key hle)
    · rw [heq]
      exact handled_ok _

end HeaderReader

/-! ## All ways in -/

theorem handledExactly_of {C : KeyClass κ ρ} {canDecrypt : κ → Bytes → Prop} {canVerify : Prop}
    (hdecrypt : ∀ key x, Handled (C.decrypt key x) ↔ canDecrypt key x)
    (hverify : ∀ key m t, Handled (C.verify key m t) ↔ canVerify) : HandledExactly C canDecrypt canVerify where
  decrypt s x := by
    simp only [Crypter.decrypt_handled_iff, hdecrypt]
  verify s data x := by
    simp only [Verifier.verify_handled_iff, hverify]
  attachedVerify s x nonce := by
    have hsame : ∀ key m t m' t', Handled (C.verify key m t) ↔ Handled (C.verify key m' t') :=
      fun key m t m' t' => (hverify key m t).trans (hverify key m' t').symm
    simp only [Verifier.attachedVerify_handled_iff C hsame, hverify]

/-- Which bytes make a call raise something else than a `KeyczarError`, for every kind of keys and every way in: exactly those that lead to
a key that cannot take them; and, for an attached signature, those that are too short for a length, and any with too long a nonce. -/
theorem hostile_input_handled_iff (P : Primitives) (L : RsaLibrary) :
    HandledExactly (aesKeys P) (AesKey.TakesCiphertext P) False ∧
    HandledExactly (hmacKeys P) (fun _ _ => False) True ∧
    HandledExactly (rsaPrivateKeys P L) (fun k x => k.TakesMessage P L (L.decrypt k (x.drop HEADER_SIZE))) True ∧
    HandledExactly (rsaPublicKeys P L) (fun _ _ => False) True ∧
    (∀ (s : Keyczar AesKey) (stream : InputStream) (bufferSize : Int),
      (∀ trace r chars, DecryptingStreamReader.Reads P (.create s stream bufferSize) trace r → Handled (r.read P chars)) ↔
        ∀ key, HEADER_SIZE ≤ stream.content.length → s.parseHeader (stream.content.take HEADER_SIZE) = .ok key →
          key.TakesStream stream.content) ∧
    ∀ {κ : Type} (s : Keyczar κ) (stream : InputStream),
      (∀ r, HeaderReader.Reads { keySet := s, inputStream := stream } r → Handled r.read) ↔
        ∀ key, HEADER_SIZE ≤ stream.content.length → s.parseHeader (stream.content.take HEADER_SIZE) ≠ .ok key := by
  have hnot : ∀ {α : Type}, Handled (.error .attributeError : Except PyError α) ↔ False := by
    intro α
    rw [handled_error_iff]
    decide
  refine ⟨handledExactly_of ?_ ?_, handledExactly_of ?_ ?_, handledExactly_of ?_ ?_, handledExactly_of ?_ ?_, ?_, ?_⟩
  · exact AesKey.decrypt_handled_iff P
  · exact fun _ _ _ => hnot
  · exact fun _ _ => hnot
  · exact fun _ _ _ => iff_true_intro (handled_ok _)
  · intro k x
    show Handled (k.decode P L (L.decrypt k (sliceFrom x HEADER_SIZE))) ↔ _
    rw [sliceFrom_nat]
    exact k.decode_handled_iff P L _
  · exact fun _ _ _ => iff_true_intro (handled_ok _)
  · exact fun _ _ => hnot
  · exact fun _ _ _ => iff_true_intro (handled_ok _)
  · exact DecryptingStreamReader.read_handled_iff P
  · exact HeaderReader.read_handled_iff

/-- A header and an initial vector, signed. -/
def noPayload : Bytes :=
  let msgBytes := (aesKeys Primitives.plain).header secondAesKey ++ List.replicate 16 0
  msgBytes ++ secondAesKey.hmacKey.sign Primitives.plain msgBytes

/-- A stream in one piece of a header, an initial vector, one byte and a signature that is not one. -/
def looseByte : InputStream := ⟨[some ((aesKeys Primitives.plain).header secondAesKey ++ List.replicate 37 0)], by simp⟩

/-- An attached signature of no bytes at all raises `struct.error`; a signed AES ciphertext without a payload raises `IndexError`; and a
stream with a payload of one byte raises `ValueError` before its signature is looked at. -/
theorem hostile_input_raises_others :
    Verifier.attachedVerify (hmacKeys Primitives.plain) smallSet [] [] none = .error .structError ∧
    Crypter.decrypt (aesKeys Primitives.plain) collidingSet noPayload none = .error .indexError ∧
    ¬ ∀ trace r chars, DecryptingStreamReader.Reads Primitives.plain (.create collidingSet looseByte 4096) trace r →
      Handled (r.read Primitives.plain chars) := by
  refine ⟨by decide, by decide, ?_⟩
  rw [DecryptingStreamReader.read_handled_iff]
  intro h
  have htakes := h secondAesKey (by decide) (by decide)
  exact absurd (htakes.2 (by decide)) (by decide)

end Python
