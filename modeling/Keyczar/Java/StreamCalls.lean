import Keyczar.Java.StreamReuse
import Keyczar.Java.SignerRuns

/-!
# Calls on the queues

Each call gives what it gives with new streams and leaves queues of streams that can be given out again. The one call that does not is
a decryption with a counting key of a ciphertext without a payload: its cipher was not reset, and from then on the key decrypts to
other bytes.
-/

namespace Java

open Bytes Relational Pool Throwing

namespace Cached

variable {P : Primitives} {keys : KeyRef → AesKey}

/-- The queues of the AES keys hold streams that can be given out again. -/
abbrev Ready (keys : KeyRef → AesKey) : AesStreams → Prop := AllFit fun ref s => s.Reusable (keys ref)

/-- What follows `getStream` may count on a stream that can be given out, and on a new one beside it. -/
theorem getStream_bind {α : Type} {W : α → Prop} {ref : KeyRef} {f : Except KeyczarException AesStream → StateM AesStreams α}
    (herror : ∀ e, AesStream.new (keys ref) = .error e → Yields (Ready keys) W (f (.error e)))
    (hok : ∀ s s', s.Reusable (keys ref) → AesStream.new (keys ref) = .ok s' → Yields (Ready keys) W (f (.ok s))) :
    Yields (Ready keys) W (getStream keys ref >>= f) := by
  have htake : Yields (Ready keys) (fun r => (∃ e, r = .error e ∧ AesStream.new (keys ref) = .error e) ∨
      ∃ s s', r = .ok s ∧ s.Reusable (keys ref) ∧ AesStream.new (keys ref) = .ok s') (getStream keys ref) :=
    yields_take (fun s hnew => AesStream.reusable_of_new hnew) fun s hs => hs.new_ok
  refine htake.bind fun r hr => ?_
  rcases hr with ⟨e, rfl, hnew⟩ | ⟨s, s', rfl, hs, hnew⟩
  · exact herror e hnew
  · exact hok s s' hs hnew

theorem yields_addStream {ref : KeyRef} {s : AesStream} (h : s.Reusable (keys ref)) :
    Yields (Ready keys) (fun _ => True) (addStreamToCacheForReuse ref (.aes s)) := yields_add h

/-! ## Encryption -/

theorem yields_encryptBuffer (z : KeySet) (ivPreImage : Bytes) (input output : ByteBuffer) :
    Yields (Ready keys) (· = match z.primaryKey with
      | none => .error (.keyczar .noPrimaryKey) output
      | some ref => Encrypter.encryptBuffer P (keys ref) ivPreImage input output)
      (encryptBuffer P keys z ivPreImage input output) := by
  unfold encryptBuffer
  cases z.primaryKey with
  | none => exact yields_pure rfl
  | some ref =>
    refine getStream_bind (fun e hnew => yields_pure ?_) fun s s' hs hnew => ?_
    · simp only [Encrypter.encryptBuffer, hnew]
    · have hmatch := encryptWith_match (P := P) hs hnew ivPreImage input output
      dsimp only
      rcases hmatch.cases with ⟨e, b, hrun, hrun'⟩ | ⟨t, _, b, hrun, hrun', ht⟩
      · rw [hrun]
        exact yields_pure hrun'.symm
      · rw [hrun]
        exact (yields_addStream ht).bind fun _ _ => yields_pure hrun'.symm

theorem yields_ciphertextSize (z : KeySet) (inputLength : Nat) :
    Yields (Ready keys) (· = match z.primaryKey with
      | none => .error (.keyczar .noPrimaryKey)
      | some ref => Encrypter.ciphertextSize (keys ref) inputLength) (ciphertextSize keys z inputLength) := by
  unfold ciphertextSize
  cases z.primaryKey with
  | none => exact yields_pure rfl
  | some ref =>
    refine getStream_bind (fun e hnew => yields_pure ?_) fun s s' hs hnew => ?_
    · simp only [Encrypter.ciphertextSize, hnew]
    · have hsize : s'.maxOutputSize inputLength = s.maxOutputSize inputLength := by
        unfold AesStream.maxOutputSize
        rw [(AesStream.key_of_new hnew).1, hs.key_eq]
      refine (yields_addStream hs).bind fun _ _ => yields_pure ?_
      simp only [Encrypter.ciphertextSize, hnew, hsize]

theorem yields_encrypt (z : KeySet) (ivPreImage input : Bytes) :
    Yields (Ready keys) (· = match z.primaryKey with
      | none => .error (.keyczar .noPrimaryKey)
      | some ref => Encrypter.encryptWith P (keys ref) ivPreImage input) (encrypt P keys z ivPreImage input) := by
  unfold encrypt
  refine (yields_ciphertextSize z input.length).bind fun size hsize => ?_
  cases hprimary : z.primaryKey with
  | none =>
    rw [hprimary] at hsize
    subst hsize
    exact yields_pure rfl
  | some ref =>
    rw [hprimary] at hsize
    dsimp only at hsize ⊢
    unfold Encrypter.encryptWith
    rw [← hsize]
    cases size with
    | error e => exact yields_pure rfl
    | ok n =>
      dsimp only
      by_cases hneg : n < 0
      · rw [if_pos hneg]
        exact yields_pure (by simp only [ok_bind, if_pos hneg]; rfl)
      · rw [if_neg hneg]
        refine (yields_encryptBuffer z ivPreImage (ByteBuffer.wrap input) (ByteBuffer.allocate n.toNat)).bind fun r hr => ?_
        rw [hprimary] at hr
        subst hr
        refine yields_pure ?_
        simp only [ok_bind, if_neg hneg]
        rfl

end Cached

/-! ## Decryption of an empty payload -/

namespace Crypter

variable {P : Primitives}

/-- The size of a ciphertext without a payload: a header, a vector and a signature. -/
def EMPTY_SIZE : Nat := HEADER_SIZE + BLOCK_SIZE + HMAC_DIGEST_SIZE

/-- The end of an input without a payload is the key's signature over its header and its vector. -/
def VerifiesEmpty (P : Primitives) (k : AesKey) (input : ByteBuffer) : Prop :=
  P.hmacSha1 k.hmacKey.keyBytes (input.rest.take (HEADER_SIZE + BLOCK_SIZE)) = input.rest.drop (HEADER_SIZE + BLOCK_SIZE)

instance (k : AesKey) (input : ByteBuffer) : Decidable (VerifiesEmpty P k input) := inferInstanceAs (Decidable (_ = _))

/-- A search is about to try a key: the view of the input is marked behind the header. -/
structure BehindHeader (input : ByteBuffer) (s : Buffers) : Prop where
  content_eq : s.inputCopy.content = input.content
  position_eq : s.inputCopy.position = input.position + HEADER_SIZE
  limit_eq : s.inputCopy.limit = input.limit
  mark_eq : s.inputCopy.mark = some s.inputCopy.position

variable {k : AesKey} {stream : AesStream} {input : ByteBuffer} {s : Buffers}

theorem BehindHeader.remaining_eq (h : BehindHeader input s) : s.inputCopy.remaining = input.remaining - HEADER_SIZE := by
  rw [ByteBuffer.remaining_eq, ByteBuffer.remaining_eq, h.position_eq, h.limit_eq]
  omega

/-- The start of a try with an input without a payload: nothing is left. -/
theorem BehindHeader.begin_empty (h : BehindHeader input s) (hsize : input.remaining = EMPTY_SIZE) (hnew : AesStream.new k = .ok stream) :
    ∃ payload signature : ByteBuffer, begin P input (.aes stream) s =
        .ok (.aes { stream.discard P ((input.rest.drop HEADER_SIZE).take BLOCK_SIZE) with ivRead := true },
          .hmac { hmacKey := k.hmacKey, data := input.rest.take (HEADER_SIZE + BLOCK_SIZE) }, signature)
          (marked { s with inputCopy := payload }) ∧
      signature.rest = input.rest.drop (HEADER_SIZE + BLOCK_SIZE) ∧ payload.remaining = 0 := by
  have hremaining := h.remaining_eq
  have hheaderSize : HEADER_SIZE = 5 := rfl
  have hblock : BLOCK_SIZE = 16 := rfl
  have hempty : EMPTY_SIZE = 41 := rfl
  have hdigest : (DecryptingStream.aes stream).getVerifyingStream.digestSize = 20 := rfl
  have hivSize : (DecryptingStream.aes stream).ivSize = 16 := rfl
  have hrest : s.inputCopy.rest = input.rest.drop HEADER_SIZE := ByteBuffer.rest_drop h.content_eq h.position_eq h.limit_eq
  have hinput := input.remaining_eq
  rcases begin_cases (P := P) input (.aes stream) h.content_eq h.mark_eq with ⟨hshort, -⟩ | ⟨-, body, hbc, hbp, hbl, -, hb⟩
  · omega
  · rw [h.limit_eq] at hbl
    rw [h.position_eq] at hbp
    rcases hb with ⟨hshort, -⟩ | ⟨hlong, d', payload, header, signature, hinit, -, hpp, hpl, -, hheader, hsignature, hb⟩
    · rw [ByteBuffer.remaining_eq] at hshort
      omega
    · have hpos : payload.position = input.position + 21 := by
        rw [hpp, h.position_eq]
        omega
      have hiv : body.rest.take BLOCK_SIZE = (input.rest.drop HEADER_SIZE).take BLOCK_SIZE := by
        have hle : input.position + HEADER_SIZE + BLOCK_SIZE ≤ body.limit := by omega
        simp only [ByteBuffer.rest, hbc, hbp, List.drop_take, List.take_take, List.drop_drop]
        rw [Nat.min_eq_left (by omega), Nat.min_eq_left (by omega)]
      have hd' : d' = .aes { stream.discard P ((input.rest.drop HEADER_SIZE).take BLOCK_SIZE) with ivRead := true } := by
        obtain ⟨b, hget, -⟩ := ByteBuffer.get_ok (b := body) (n := BLOCK_SIZE) hlong
        simp only [DecryptingStream.initDecrypt, AesStream.initDecrypt, hget, hiv, Except.ok.injEq, Prod.mk.injEq] at hinit
        exact hinit.1.symm
      have hsigned : header.rest = input.rest.take (HEADER_SIZE + BLOCK_SIZE) := by
        rw [hheader, hpos, ByteBuffer.rest, List.drop_take, List.drop_take, List.take_take]
        congr 1
        omega
      have hv : (DecryptingStream.aes stream).getVerifyingStream.initVerify.updateVerify header =
          .hmac { hmacKey := k.hmacKey, data := input.rest.take (HEADER_SIZE + BLOCK_SIZE) } := by
        simp only [DecryptingStream.getVerifyingStream, VerifyingStream.initVerify, VerifyingStream.updateVerify,
          HmacStream.initSign, HmacStream.updateSign, hsigned, (AesStream.key_of_new hnew).2, List.nil_append]
      refine ⟨payload, signature, by rw [hb, hd', hv], ?_, ?_⟩
      · rw [hsignature, hrest, List.drop_drop]
        congr 1
        omega
      · rw [ByteBuffer.remaining_eq]
        omega

/-- A try with an input without a payload returns when its signature is right, and fails else. -/
theorem BehindHeader.tryKey_empty (h : BehindHeader input s) (hsize : input.remaining = EMPTY_SIZE)
    (hnew : AesStream.new k = .ok stream) (htemp : ∀ temp ∈ s.tempBuffer, temp.position = 0) :
    (∃ t, tryKey P input (.aes stream) s = .ok () t) ↔ VerifiesEmpty P k input := by
  obtain ⟨payload, signature, hbegin, hsignature, hpayload⟩ := h.begin_empty (P := P) hsize hnew
  have hnil : payload.rest = [] := List.eq_nil_of_length_eq_zero (by rw [ByteBuffer.length_rest, hpayload])
  have hinput : (marked { s with inputCopy := payload }).inputCopy = payload := inputCopy_marked _
  have hloop : decryptChunks P (marked { s with inputCopy := payload }).inputCopy.remaining
      (.aes { stream.discard P ((input.rest.drop HEADER_SIZE).take BLOCK_SIZE) with ivRead := true })
      (.hmac { hmacKey := k.hmacKey, data := input.rest.take (HEADER_SIZE + BLOCK_SIZE) }) (marked { s with inputCopy := payload }) =
      .ok _ _ := decryptChunks_of_le (by rw [hinput, hpayload]; exact Nat.zero_le _)
  rw [tryKey_of_begin hbegin, bind_ok hloop, finish_eq, hinput]
  have hverify : (((VerifyingStream.hmac { hmacKey := k.hmacKey, data := input.rest.take (HEADER_SIZE + BLOCK_SIZE) }).updateVerify
      payload).verify P signature = true) ↔ VerifiesEmpty P k input := by
    simp only [VerifyingStream.updateVerify, VerifyingStream.verify, HmacStream.updateSign, HmacStream.verify, constantTimeEq_iff,
      hsignature, hnil, List.append_nil, VerifiesEmpty]
  by_cases hright : VerifiesEmpty P k input
  · refine ⟨fun _ => hright, fun _ => ?_⟩
    have hfinal : ∀ output : ByteBuffer, DecryptingStream.doFinalDecrypt P
        (.aes { stream.discard P ((input.rest.drop HEADER_SIZE).take BLOCK_SIZE) with ivRead := true }) payload output =
        .ok output := by
      intro output
      simp only [DecryptingStream.doFinalDecrypt, AesStream.doFinalDecrypt, hpayload, if_true]
    rw [hverify.mpr hright, if_neg (by decide)]
    cases htemp' : s.tempBuffer with
    | none =>
      simp only [marked, hfinal]
      exact ⟨_, rfl⟩
    | some temp =>
      have hnothing : temp.setMark.limitHere.rewind.rest = [] := by
        show (temp.content.take temp.position).drop 0 = []
        rw [htemp temp htemp', List.take_zero, List.drop_nil]
      obtain ⟨output, hput, -⟩ := ByteBuffer.put_ok (b := s.output) (w := []) (Nat.zero_le _)
      simp only [marked, hfinal, hnothing, hput]
      exact ⟨_, rfl⟩
  · refine ⟨?_, fun hcontra => absurd hcontra hright⟩
    rw [if_pos (Bool.eq_false_iff.mpr fun hcontra => hright (hverify.mp hcontra))]
    rintro ⟨t, ht⟩
    cases ht

end Crypter

/-! ## Decryption -/

namespace Cached

open Crypter

variable {P : Primitives} {keys : KeyRef → AesKey} {input : ByteBuffer} {s : Buffers}

/-- Where the search over the keys ends with an input without a payload: no stream can be made, or the signature is right. -/
def stops (P : Primitives) (input : ByteBuffer) (k : AesKey) : Bool := !hasStream k || decide (VerifiesEmpty P k input)

/-- The input has no payload, and it is decrypted with a counting key. -/
def LeavesCipher (P : Primitives) (keys : KeyRef → AesKey) (z : KeySet) (input : ByteBuffer) : Prop :=
  input.remaining = EMPTY_SIZE ∧ input.rest.take 1 = [FORMAT_VERSION] ∧
    ∃ k, ((z.hashMap (headerHash input)).map keys).find? (stops P input) = some k ∧ hasStream k ∧ k.mode = .ctr

/-- A key with a stream chains or counts. -/
theorem chains_of_new {k : AesKey} {stream : AesStream} (hnew : AesStream.new k = .ok stream) (hctr : k.mode ≠ .ctr) :
    AesStream.Chains k := by
  have hstream : hasStream k := hasStream_iff.mpr ⟨stream, hnew⟩
  unfold hasStream at hstream
  unfold AesStream.Chains
  cases hmode : k.mode with
  | cbc => exact Or.inl rfl
  | detCbc => exact Or.inr rfl
  | ctr => exact absurd hmode hctr
  | ecb => simp [hmode] at hstream

/-- The search over the keys. -/
theorem yields_tryKeys (refs : List KeyRef) (collision : Bool) (error : Option KeyczarException) (h : BehindHeader input s)
    (hleaves : input.remaining = EMPTY_SIZE → ∀ k, (refs.map keys).find? (stops P input) = some k → hasStream k → k.mode ≠ .ctr) :
    Yields (Ready keys)
      (· = Crypter.tryKeys P input s.inputCopy.limit collision (refs.map fun ref => .aes (keys ref)) error s)
      (tryKeys P keys input s.inputCopy.limit collision refs error s) := by
  induction refs generalizing error s with
  | nil => cases error <;> exact yields_pure rfl
  | cons ref refs ih =>
    unfold tryKeys
    rw [List.map_cons]
    refine getStream_bind (fun e hnew => yields_pure ?_) fun stream stream' hstream hnew => ?_
    · exact (tryKeys_of_getStream_error (getStream_aes_error hnew)).symm
    · have hcontent : (withTempBuffer collision s).inputCopy.content = input.content := h.content_eq
      have hmark : (withTempBuffer collision s).inputCopy.mark = some (withTempBuffer collision s).inputCopy.position := h.mark_eq
      have hbehind : BehindHeader input (withTempBuffer collision s) := ⟨h.content_eq, h.position_eq, h.limit_eq, h.mark_eq⟩
      have htemp : ∀ temp ∈ (withTempBuffer collision s).tempBuffer, temp.position = 0 := by
        cases collision
        · exact nofun
        · rintro temp ⟨⟩
          rfl
      have hempty := fun hsize => hbehind.tryKey_empty (P := P) hsize hnew htemp
      have hmatch := tryKey_match (P := P) hstream hnew hcontent hmark
      dsimp only
      rcases hmatch.cases with ⟨e, t, hrun, hrun'⟩ | ⟨d, _, t, hrun, hrun', u, rfl, hreusable⟩
      · have hback : putBack s.inputCopy.limit t = .ok () { t with inputCopy := s.inputCopy } :=
          putBack_of_tryKey_error (s := withTempBuffer collision s) hcontent hmark hrun'
        rw [hrun, tryKeys_of_tryKey_error (getStream_aes hnew) h.content_eq h.mark_eq hrun']
        dsimp only
        rw [hback]
        refine ih (some (caught e)) (s := { t with inputCopy := s.inputCopy }) ⟨h.content_eq, h.position_eq, h.limit_eq, h.mark_eq⟩ ?_
        -- the key has a stream and did not accept the input, so the search goes on behind it
        intro hsize k hk
        refine hleaves hsize k ?_
        have hwrong : ¬ VerifiesEmpty P (keys ref) input := by
          intro hright
          obtain ⟨t', ht'⟩ := (hempty hsize).mpr hright
          rw [hrun'] at ht'
          cases ht'
        have hgoes : stops P input (keys ref) = false := by
          rw [stops, hasStream_iff.mpr ⟨stream', hnew⟩, decide_eq_false hwrong]
          rfl
        rw [List.map_cons, List.find?_cons_of_neg (by rw [hgoes]; exact Bool.false_ne_true)]
        exact hk
      · obtain ⟨hc, hm⟩ := kept_of_tryKey_ok hcontent hmark hrun'
        have hback : putBack s.inputCopy.limit t = .ok () { t with inputCopy := s.inputCopy } := putBack_eq hc hm h.mark_eq
        rw [hrun, tryKeys_of_tryKey_ok (getStream_aes hnew) h.content_eq h.mark_eq hrun']
        refine (yields_addStream (hreusable fun hremaining => ?_)).bind fun _ _ => yields_pure hback
        have hview := h.remaining_eq
        have hsize : input.remaining = EMPTY_SIZE := by
          have hheader : HEADER_SIZE = 5 := rfl
          have hblock : BLOCK_SIZE + HMAC_DIGEST_SIZE = 36 := rfl
          have hdef : EMPTY_SIZE = 41 := rfl
          have hsame : (withTempBuffer collision s).inputCopy.remaining = s.inputCopy.remaining := rfl
          omega
        have hstops : stops P input (keys ref) = true := by
          rw [stops, decide_eq_true ((hempty hsize).mp ⟨t, hrun'⟩), Bool.or_true]
        refine chains_of_new hnew (hleaves hsize (keys ref) ?_ (hasStream_iff.mpr ⟨stream', hnew⟩))
        rw [List.map_cons, List.find?_cons_of_pos hstops]

variable (P keys) in
/-- A call whose header does not name a key fails at once. Any other is the search, from a view behind the header. -/
theorem decryptBuffer_cases (z : KeySet) (input output : ByteBuffer) :
    (∃ e, Crypter.decryptBuffer P (z.keyczar keys) input output = .error e output ∧
      decryptBuffer P keys z input output = pure (.error e output)) ∨
    (input.rest.take 1 = [FORMAT_VERSION] ∧ ∃ refs inputCopy, z.hashMap (headerHash input) = refs ∧
      BehindHeader input { inputCopy, output } ∧
      Crypter.decryptBuffer P (z.keyczar keys) input output =
        (match Crypter.tryKeys P input inputCopy.limit (refs.length > 1) (refs.map fun ref => .aes (keys ref)) none
            { inputCopy, output } with
        | .ok _ s => .ok () s.output
        | .error e s => .error e s.output) ∧
      decryptBuffer P keys z input output = do
        match ← tryKeys P keys input inputCopy.limit (refs.length > 1) refs none { inputCopy, output } with
        | .ok _ s => return .ok () s.output
        | .error e s => return .error e s.output) := by
  have hkeys : (z.keyczar keys).getKey = fun hash => (z.hashMap hash).map fun ref => .aes (keys ref) := rfl
  unfold decryptBuffer Crypter.decryptBuffer ByteBuffer.asReadOnlyBuffer
  rw [hkeys]
  dsimp only
  by_cases hshort : input.remaining < HEADER_SIZE
  · rw [if_pos hshort, if_pos hshort]
    exact Or.inl ⟨_, rfl, rfl⟩
  · rw [if_neg hshort, if_neg hshort]
    obtain ⟨b, b', hb, hb', hcontent, hposition, hlimit⟩ := Crypter.exists_header_gets hshort
    rw [hb]
    dsimp only
    by_cases hversion : input.rest.take 1 ≠ [FORMAT_VERSION]
    · rw [if_pos hversion, if_pos hversion]
      exact Or.inl ⟨_, rfl, rfl⟩
    · rw [if_neg hversion, if_neg hversion, hb']
      dsimp only
      cases hrefs : z.hashMap (headerHash input) with
      | nil => exact Or.inl ⟨_, rfl, rfl⟩
      | cons ref refs =>
        have hlength : ((ref :: refs).map fun ref => KeyczarKey.aes (keys ref)).length = (ref :: refs).length := List.length_map _
        refine Or.inr ⟨not_not.mp hversion, ref :: refs, b'.setMark, rfl, ⟨hcontent, hposition, hlimit, rfl⟩, ?_, rfl⟩
        rw [← hlength]
        rfl

theorem yields_decryptBuffer (z : KeySet) (input output : ByteBuffer) (h : ¬ LeavesCipher P keys z input) :
    Yields (Ready keys) (· = Crypter.decryptBuffer P (z.keyczar keys) input output) (decryptBuffer P keys z input output) := by
  rcases decryptBuffer_cases P keys z input output with
    ⟨e, hfresh, hcached⟩ | ⟨hversion, refs, inputCopy, hrefs, hbehind, hfresh, hcached⟩
  · rw [hfresh, hcached]
    exact yields_pure rfl
  · rw [hfresh, hcached]
    have hleaves : input.remaining = EMPTY_SIZE → ∀ k, (refs.map keys).find? (stops P input) = some k → hasStream k →
        k.mode ≠ .ctr := by
      intro hsize k hfind hstream hctr
      exact h ⟨hsize, hversion, k, hrefs ▸ hfind, hstream, hctr⟩
    refine (yields_tryKeys refs (refs.length > 1) none hbehind hleaves).bind fun r hr => ?_
    rw [← hr]
    cases r <;> exact yields_pure rfl

theorem yields_decrypt (z : KeySet) (input : Bytes) (h : ¬ LeavesCipher P keys z (ByteBuffer.wrap input)) :
    Yields (Ready keys) (· = Crypter.decrypt P (z.keyczar keys) input) (decrypt P keys z input) := by
  unfold decrypt Crypter.decrypt
  refine (yields_decryptBuffer z _ (ByteBuffer.allocate input.length) h).bind fun r hr => ?_
  rw [← hr]
  cases r with
  | error e output => exact yields_pure rfl
  | ok _ output =>
    dsimp only
    cases output.rewind.get output.rewind.remaining with
    | error e => exact yields_pure rfl
    | ok got => exact yields_pure rfl

/-! ## Signatures -/

section Signatures

variable {ρ : Type} {signingKeys : KeyRef → SigningKey ρ} {random : ρ}

/-- The queues of the keys that sign hold streams of their keys. -/
abbrev SignatureReady (signingKeys : KeyRef → SigningKey ρ) : SignatureStreams ρ → Prop :=
  AllFit fun ref stream => stream.key = signingKeys ref

theorem yields_getSignatureStream (ref : KeyRef) :
    Yields (SignatureReady signingKeys) (fun stream => stream.key = signingKeys ref) (getSignatureStream signingKeys ref) := by
  refine (yields_poll ref).bind fun o ho => ?_
  cases o with
  | none => exact yields_pure rfl
  | some stream => exact yields_pure (ho stream rfl)

theorem yields_addSignatureStream {ref : KeyRef} {stream : SignatureStream ρ} (h : stream.key = signingKeys ref) :
    Yields (SignatureReady signingKeys) (fun _ => True) (Pool.add ref stream) := yields_add h

/-- A stream that was initialised is as a new one. -/
theorem initSign_eq {k : SigningKey ρ} {stream : SignatureStream ρ} (h : stream.key = k) : stream.initSign = k.getStream.initSign := by
  subst h
  rfl

theorem yields_digestSize (z : KeySet) :
    Yields (SignatureReady signingKeys) (· = Signer.digestSize (z.signingKeyczar signingKeys)) (digestSize signingKeys z) := by
  unfold digestSize Signer.digestSize SigningKeyczar.getPrimaryKey KeySet.signingKeyczar
  cases z.primaryKey with
  | none => exact yields_pure rfl
  | some ref =>
    refine (yields_getSignatureStream ref).bind fun stream hstream => ?_
    refine (yields_addSignatureStream hstream).bind fun _ _ => yields_pure ?_
    rw [hstream]
    rfl

/-- Signing writes the same with a stream of the key, which is left. -/
theorem signWith_match {k : SigningKey ρ} {stream : SignatureStream ρ} (h : stream.key = k) (input : ByteBuffer)
    (hidden : Option ByteBuffer) (expirationTime : Int64) (output : ByteBuffer) :
    Match (fun left _ _ => left.key = k) (signWith random stream input hidden expirationTime output)
      (Signer.signWith random k input hidden expirationTime output) := by
  unfold signWith Signer.signWith
  rw [initSign_eq h]
  dsimp only
  refine match_bind fun _ _ _ => ?_
  refine match_bind fun _ _ _ => ?_
  have hkey : ∀ (t : SignatureStream ρ) (b b' : ByteBuffer) (t' : SignatureStream ρ),
      Signer.putExpiration t expirationTime b = .ok t' b' → t'.key = t.key := by
    intro t b b' t' ht
    unfold Signer.putExpiration at ht
    split at ht
    · rw [bind_eq_ok_iff] at ht
      obtain ⟨_, _, _, ht⟩ := ht
      cases ht
      rfl
    · cases ht
      rfl
  refine match_bind fun t b ht => ?_
  refine match_bind fun _ _ _ => ?_
  refine match_bind fun _ _ _ => ?_
  refine ⟨?_, rfl⟩
  have ht' := hkey _ _ _ _ ht
  cases hidden <;> exact ht'

theorem yields_signBuffer (z : KeySet) (input : ByteBuffer) (hidden : Option ByteBuffer) (expirationTime : Int64)
    (output : ByteBuffer) :
    Yields (SignatureReady signingKeys)
      (· = Signer.signBuffer (z.signingKeyczar signingKeys) random input hidden expirationTime output)
      (signBuffer signingKeys random z input hidden expirationTime output) := by
  unfold signBuffer
  cases hprimary : z.primaryKey with
  | none =>
    refine yields_pure ?_
    simp only [Signer.signBuffer, SigningKeyczar.getPrimaryKey, KeySet.signingKeyczar, hprimary]
    rfl
  | some ref =>
    have hkey : (z.signingKeyczar signingKeys).getPrimaryKey = some (signingKeys ref) := by
      simp only [SigningKeyczar.getPrimaryKey, KeySet.signingKeyczar, hprimary]
      rfl
    refine (yields_getSignatureStream ref).bind fun stream hstream => ?_
    refine (yields_digestSize z).bind fun size hsize => ?_
    subst hsize
    simp only [Signer.digestSize, Signer.signBuffer, hkey]
    generalize (if 0 < expirationTime then Signer.TIMESTAMP_SIZE else 0) = stampSize
    by_cases hspace : output.capacity < Signer.HEADER_SIZE + (signingKeys ref).digestSize + stampSize
    · rw [if_pos hspace, if_pos hspace]
      exact yields_pure rfl
    · rw [if_neg hspace, if_neg hspace]
      rcases (signWith_match hstream input hidden expirationTime output).cases with
        ⟨e, b, hrun, hrun'⟩ | ⟨left, _, b, hrun, hrun', hleft⟩
      · rw [hrun, hrun']
        exact yields_pure rfl
      · rw [hrun, hrun']
        exact (yields_addSignatureStream hleft).bind fun _ _ => yields_pure rfl

theorem yields_sign (z : KeySet) (input : Bytes) :
    Yields (SignatureReady signingKeys) (· = Signer.sign (z.signingKeyczar signingKeys) random input)
      (sign signingKeys random z input) := by
  unfold sign Signer.sign
  refine (yields_digestSize z).bind fun size hsize => ?_
  rw [← hsize]
  cases size with
  | error e => exact yields_pure rfl
  | ok n =>
    refine (yields_signBuffer z (ByteBuffer.wrap input) none 0 (ByteBuffer.allocate n)).bind fun r hr => ?_
    rw [ok_bind, ← hr]
    exact yields_pure rfl

variable (random) in
/-- An attached signature is the same with a stream of the key, which is left. -/
theorem attachedSignWith_eq {z : KeySet} {ref : KeyRef} (hprimary : z.primaryKey = some ref) {stream : SignatureStream ρ}
    (h : stream.key = signingKeys ref) (blob hidden : Bytes) :
    (∃ e, attachedSignWith random stream blob hidden = .error e ∧
      Signer.attachedSign (z.signingKeyczar signingKeys) random blob hidden = .error e) ∨
    ∃ signature left, attachedSignWith random stream blob hidden = .ok (signature, left) ∧
      Signer.attachedSign (z.signingKeyczar signingKeys) random blob hidden = .ok signature ∧ left.key = signingKeys ref := by
  have hkey : (z.signingKeyczar signingKeys).getPrimaryKey = some (signingKeys ref) := by
    simp only [SigningKeyczar.getPrimaryKey, KeySet.signingKeyczar, hprimary]
    rfl
  unfold attachedSignWith Signer.attachedSign
  rw [hkey, initSign_eq h]
  dsimp only
  cases (if 0 < hidden.length then Util.lenPrefix hidden else .ok (Util.fromInt 0)).mapError Exception.runtime with
  | error e => exact Or.inl ⟨e, rfl, rfl⟩
  | ok hiddenPlusLength =>
    rw [ok_bind, ok_bind]
    obtain ⟨t, ht, htkey⟩ : ∃ t, t = (((signingKeys ref).getStream.initSign.updateSign (ByteBuffer.wrap blob)).updateSign
        (ByteBuffer.wrap hiddenPlusLength)).updateSign (ByteBuffer.wrap Signer.FORMAT_BYTES) ∧ t.key = signingKeys ref := ⟨_, rfl, rfl⟩
    rw [← ht, htkey]
    cases t.sign random (ByteBuffer.allocate (signingKeys ref).digestSize).setMark with
    | error e output => exact Or.inl ⟨e, rfl, rfl⟩
    | ok _ output =>
      dsimp only
      cases (Util.lenPrefix blob).mapError Exception.runtime with
      | error e => exact Or.inl ⟨e, rfl, rfl⟩
      | ok prefixed =>
        rw [ok_bind, ok_bind]
        cases (Util.cat [Signer.FORMAT_BYTES, (signingKeys ref).hash, prefixed, output.content.take output.position]).mapError
            Exception.runtime with
        | error e => exact Or.inl ⟨e, rfl, rfl⟩
        | ok signature => exact Or.inr ⟨signature, t.reset, rfl, rfl, htkey⟩

theorem yields_attachedSign (z : KeySet) (blob hidden : Bytes) :
    Yields (SignatureReady signingKeys) (· = Signer.attachedSign (z.signingKeyczar signingKeys) random blob hidden)
      (attachedSign signingKeys random z blob hidden) := by
  unfold attachedSign
  cases hprimary : z.primaryKey with
  | none =>
    refine yields_pure ?_
    simp only [Signer.attachedSign, SigningKeyczar.getPrimaryKey, KeySet.signingKeyczar, hprimary]
    rfl
  | some ref =>
    refine (yields_getSignatureStream ref).bind fun stream hstream => ?_
    rcases attachedSignWith_eq random hprimary hstream blob hidden with
      ⟨e, hrun, hrun'⟩ | ⟨signature, left, hrun, hrun', hleft⟩
    · rw [hrun, hrun']
      exact yields_pure rfl
    · rw [hrun, hrun']
      exact (yields_addSignatureStream hleft).bind fun _ _ => yields_pure rfl

/-- A verification says the same with a stream of the key, which is left. -/
theorem rawVerify_eq {k : SigningKey ρ} {stream : SignatureStream ρ} (h : stream.key = k) (data : ByteBuffer)
    (hidden : Option ByteBuffer) (signature : ByteBuffer) :
    (∃ e, rawVerify stream data hidden signature = .error e ∧ Verifier.rawVerify k data hidden signature = .error e) ∨
    ∃ result left, rawVerify stream data hidden signature = .ok (result, left) ∧
      Verifier.rawVerify k data hidden signature = .ok result ∧ left.key = k := by
  have hinit : stream.initVerify = k.getStream.initVerify := initSign_eq h
  unfold rawVerify Verifier.rawVerify
  rw [hinit]
  dsimp only
  cases hidden with
  | none =>
    dsimp only
    cases SignatureStream.verify _ signature with
    | error e => exact Or.inl ⟨e, rfl, rfl⟩
    | ok result => exact Or.inr ⟨result, _, rfl, rfl, rfl⟩
  | some hidden =>
    dsimp only
    cases SignatureStream.verify _ signature with
    | error e => exact Or.inl ⟨e, rfl, rfl⟩
    | ok result => exact Or.inr ⟨result, _, rfl, rfl, rfl⟩

theorem yields_verifyKeys (refs : List KeyRef) (data : ByteBuffer) (hidden : Option ByteBuffer) (signature : ByteBuffer) :
    Yields (SignatureReady signingKeys) (· = Verifier.verifyKeys data hidden signature (refs.map signingKeys))
      (verifyKeys signingKeys data hidden signature refs) := by
  induction refs with
  | nil => exact yields_pure rfl
  | cons ref refs ih =>
    unfold verifyKeys
    rw [List.map_cons]
    refine (yields_getSignatureStream ref).bind fun stream hstream => ?_
    unfold Verifier.verifyKeys
    rcases rawVerify_eq hstream data hidden signature with ⟨e, hrun, hrun'⟩ | ⟨result, left, hrun, hrun', hleft⟩
    · rw [hrun, hrun']
      exact ih
    · rw [hrun, hrun']
      refine (yields_addSignatureStream hleft).bind fun _ _ => ?_
      cases result with
      | true => exact yields_pure rfl
      | false => exact ih

theorem yields_verifyHash (z : KeySet) (hash : Bytes) (data : ByteBuffer) (hidden : Option ByteBuffer) (signature : ByteBuffer) :
    Yields (SignatureReady signingKeys)
      (· = (Verifier.getVerifyingKey (z.signingKeyczar signingKeys) hash).map (Verifier.verifyKeys data hidden signature))
      (verifyHash signingKeys z hash data hidden signature) := by
  have hkeys : (z.signingKeyczar signingKeys).getKey hash = (z.hashMap hash).map signingKeys := rfl
  unfold verifyHash Verifier.getVerifyingKey
  rw [hkeys]
  cases z.hashMap hash with
  | nil => exact yields_pure rfl
  | cons ref refs =>
    refine (yields_verifyKeys (ref :: refs) data hidden signature).bind fun result hresult => yields_pure ?_
    rw [hresult]
    rfl

theorem yields_verifyBuffer (z : KeySet) (data : ByteBuffer) (hidden : Option ByteBuffer) (signature : ByteBuffer) :
    Yields (SignatureReady signingKeys) (· = Verifier.verifyBuffer (z.signingKeyczar signingKeys) data hidden signature)
      (verifyBuffer signingKeys z data hidden signature) := by
  unfold verifyBuffer Verifier.verifyBuffer
  by_cases hshort : signature.remaining < Signer.HEADER_SIZE
  · rw [if_pos hshort, if_pos hshort]
    exact yields_pure rfl
  · rw [if_neg hshort, if_neg hshort]
    cases Verifier.checkFormatAndGetHash signature with
    | error e => exact yields_pure rfl
    | ok got =>
      obtain ⟨hash, rest⟩ := got
      rw [ok_bind]
      refine (yields_verifyHash z hash data hidden rest).mono fun result hresult => ?_
      rw [hresult]
      dsimp only
      cases Verifier.getVerifyingKey (z.signingKeyczar signingKeys) hash <;> rfl

/-- The rest of a verification of an attached signature, behind what is read of it. -/
theorem attachedVerify_eq (z : SigningKeyczar ρ) (signedBlob hidden : Bytes) :
    Verifier.attachedVerify z signedBlob hidden = (parseAttached signedBlob hidden >>= fun r =>
      (Verifier.getVerifyingKey z r.1).map (Verifier.verifyKeys (ByteBuffer.wrap r.2.1) (some (ByteBuffer.wrap r.2.2.2))
        (ByteBuffer.wrap r.2.2.1))) := by
  unfold Verifier.attachedVerify parseAttached
  cases Verifier.checkFormatAndGetHash (ByteBuffer.wrap signedBlob) with
  | error e => rfl
  | ok header =>
    obtain ⟨hash, sigBuffer⟩ := header
    rw [ok_bind, ok_bind]
    dsimp only
    cases Verifier.getBlob sigBuffer with
    | error e => rfl
    | ok body =>
      obtain ⟨blob, sigBuffer⟩ := body
      rw [ok_bind, ok_bind]
      dsimp only
      cases (sigBuffer.get sigBuffer.remaining).mapError Exception.runtime with
      | error e => rfl
      | ok got =>
        obtain ⟨signature, _⟩ := got
        rw [ok_bind, ok_bind]
        dsimp only
        cases (if 0 < hidden.length then Util.lenPrefix hidden else .ok (Util.fromInt 0)).mapError Exception.runtime with
        | error e => rfl
        | ok hiddenPlusLength =>
          rw [ok_bind, ok_bind, pure_bind]
          cases Verifier.getVerifyingKey z hash <;> rfl

theorem yields_attachedVerify (z : KeySet) (signedBlob hidden : Bytes) :
    Yields (SignatureReady signingKeys) (· = Verifier.attachedVerify (z.signingKeyczar signingKeys) signedBlob hidden)
      (attachedVerify signingKeys z signedBlob hidden) := by
  unfold attachedVerify
  rw [attachedVerify_eq]
  cases parseAttached signedBlob hidden with
  | error e => exact yields_pure rfl
  | ok got => exact yields_verifyHash z got.1 _ _ _

end Signatures

end Cached

/-! ## Sequences of calls -/

namespace Call

variable {P : Primitives} {objects : KeyObjects}

/-- The call decrypts a ciphertext without a payload with a counting key. -/
def LeavesCipher (P : Primitives) (objects : KeyObjects) : Call → Prop
  | .decryptBuffer z input _ => Cached.LeavesCipher P objects.aes z input
  | .decrypt z input => Cached.LeavesCipher P objects.aes z (ByteBuffer.wrap input)
  | _ => False

/-- The queues of all keys. -/
abbrev Ready (P : Primitives) (objects : KeyObjects) (caches : Caches) : Prop :=
  Cached.Ready objects.aes caches.1 ∧ Cached.SignatureReady (signingKeys P objects) caches.2

/-- A call gives what it gives with new streams, and leaves the queues ready. -/
theorem yields_run (c : Call) (h : ¬ c.LeavesCipher P objects) :
    Yields (Ready P objects) (· = c.fresh P objects) (c.run P objects) := by
  cases c with
  | ciphertextSize z inputLength => exact ((Cached.yields_ciphertextSize z inputLength).onFst).map fun r hr => congrArg Outcome.size hr
  | encryptBuffer z ivPreImage input output =>
    exact ((Cached.yields_encryptBuffer z ivPreImage input output).onFst).map fun r hr => congrArg Outcome.buffer hr
  | encrypt z ivPreImage input =>
    exact ((Cached.yields_encrypt z ivPreImage input).onFst).map fun r hr => congrArg Outcome.bytes hr
  | decryptBuffer z input output =>
    exact ((Cached.yields_decryptBuffer z input output h).onFst).map fun r hr => congrArg Outcome.buffer hr
  | decrypt z input => exact ((Cached.yields_decrypt z input h).onFst).map fun r hr => congrArg Outcome.bytes hr
  | digestSize z =>
    exact ((Cached.yields_digestSize z).onSnd).map fun r hr => congrArg (fun r => Outcome.size (r.map Int.ofNat)) hr
  | signBuffer z input hidden expirationTime output =>
    exact ((Cached.yields_signBuffer z input hidden expirationTime output).onSnd).map fun r hr => congrArg Outcome.buffer hr
  | sign z input => exact ((Cached.yields_sign z input).onSnd).map fun r hr => congrArg Outcome.bytes hr
  | attachedSign z blob hidden => exact ((Cached.yields_attachedSign z blob hidden).onSnd).map fun r hr => congrArg Outcome.bytes hr
  | verifyBuffer z data hidden signature =>
    exact ((Cached.yields_verifyBuffer z data hidden signature).onSnd).map fun r hr => congrArg Outcome.verified hr
  | attachedVerify z signedBlob hidden =>
    exact ((Cached.yields_attachedVerify z signedBlob hidden).onSnd).map fun r hr => congrArg Outcome.verified hr

end Call

/-- In a run in which no ciphertext without a payload is decrypted with a counting key, each call gives what it gives with new
streams. -/
theorem cached_streams_invisible (P : Primitives) (objects : KeyObjects) (calls : List Call)
    (h : ∀ c ∈ calls, ¬ c.LeavesCipher P objects) : outcomes P objects calls = calls.map (Call.fresh P objects) := by
  have hrun : Yields (Call.Ready P objects) (· = calls.map (Call.fresh P objects)) (calls.mapM (Call.run P objects)) :=
    yields_mapM fun c hc => Call.yields_run c (h c hc)
  exact (hrun Caches.empty ⟨allFit_empty, allFit_empty⟩).1

/-- One AES key and one HMAC key for all references. -/
def oneKey (k : AesKey) : KeyObjects where
  aes _ := k
  hmac _ := k.hmacKey

/-- The key set of the key `Crypter.keyOf 1` with `Primitives.plain`. -/
def oneRef : KeySet where
  primaryKey := some 0
  hashMap hash := if hash = (Crypter.keyOf 1).hash .plain then [0] else []

/-- A ciphertext of that key without a payload. -/
def emptyCiphertext : Bytes :=
  Crypter.FORMAT_VERSION :: (Crypter.keyOf 1).hash .plain ++ List.replicate BLOCK_SIZE 0 ++ List.replicate HMAC_DIGEST_SIZE 1

/-- With a chaining key a ciphertext without a payload may be among the calls. -/
theorem cached_streams_invisible_chaining :
    let calls := [.decrypt oneRef (emptyCiphertext), .encrypt oneRef (List.replicate 16 0) [7], .sign oneRef [7],
      .decrypt oneRef [0], .attachedVerify oneRef [0, 1, 1] []]
    outcomes .plain (oneKey (Crypter.keyOf 1)) calls = calls.map (Call.fresh .plain (oneKey (Crypter.keyOf 1))) := by
  refine cached_streams_invisible .plain (oneKey (Crypter.keyOf 1)) _ ?_
  have hchains : ∀ input, ¬ Cached.LeavesCipher .plain (oneKey (Crypter.keyOf 1)).aes oneRef input := by
    rintro input ⟨-, -, k, hfind, -, hctr⟩
    have hmem := List.mem_of_find?_eq_some hfind
    rw [List.eq_of_mem_map_const hmem] at hctr
    cases hctr
  intro c hc
  simp only [List.mem_cons, List.not_mem_nil, or_false] at hc
  rcases hc with rfl | rfl | rfl | rfl | rfl
  · exact hchains _
  · exact id
  · exact id
  · exact hchains _
  · exact id

/-- A counting key. -/
def countingKey : AesKey := { Crypter.keyOf 1 with mode := .ctr }

/-- The bytes that a call returns. -/
def Outcome.returned : Outcome → Option Bytes
  | .bytes result => result.toOption
  | _ => none

/-- What a key encrypts a plaintext to, with room for it. -/
def encrypted (k : AesKey) (plain : Bytes) : Bytes :=
  match Encrypter.encryptBuffer .plain k (List.replicate 16 0) (ByteBuffer.wrap plain) (ByteBuffer.allocate 100) with
  | .ok _ output => output.content.take output.position
  | .error _ _ => []

/-- A counting key encrypts nothing to a ciphertext without a payload. Once that was decrypted, the next ciphertext of the key is
decrypted to other bytes. -/
theorem counting_stream_counts_on :
    encrypted countingKey [] = emptyCiphertext ∧
    let calls := [.decrypt oneRef emptyCiphertext, .decrypt oneRef (encrypted countingKey (List.replicate 32 7))]
    (calls.map (Call.fresh .plain (oneKey countingKey))).map Outcome.returned = [some [], some (List.replicate 16 7)] ∧
      (outcomes .plain (oneKey countingKey) calls).map Outcome.returned = [some [], some (List.replicate 15 7 ++ [6])] := by
  decide +kernel

end Java
