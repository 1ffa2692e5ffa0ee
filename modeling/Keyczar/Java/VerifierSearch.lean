import Keyczar.Java.GivenSignatures
import Keyczar.Lib.Throwing

/-!
# The search for the key of a signature

`Verifier.verify` tries the keys under the hash of a signature one after another, on buffers that each of them moves. Whatever a key
does, the next one finds the buffers as they were marked: the answer is whether some key verifies the data, the hidden bytes and the
format byte against what it is given of the signature, in any order of the keys.
-/

namespace Java

open Bytes Pool Throwing

/-! ## Streams -/

namespace VerificationStream

variable {J : Platform} {stream s : VerificationStream}

/-- A stream is initialised for its key, whatever it was updated with. -/
theorem eq_of_initVerify (h : stream.initVerify J = .ok s) : s = { key := stream.key } := by
  obtain ⟨key, d⟩ := stream
  cases key with
  | hmac k => exact (Except.ok.inj h).symm
  | rsa k =>
    obtain ⟨-, -, h⟩ := ok_of_bind h
    exact (Except.ok.inj h).symm
  | dsa k =>
    obtain ⟨-, -, h⟩ := ok_of_bind h
    exact (Except.ok.inj h).symm
  | other e => cases h

/-- A key that the platform does not accept verifies nothing. -/
theorem not_verifies_of_initVerify {e : Exception} (h : stream.initVerify J = .error e) (message : Bytes) (v : View) :
    ¬ stream.key.Verifies J message v := by
  obtain ⟨key, d⟩ := stream
  rintro ⟨sig, -, haccepts⟩
  cases key with
  | hmac k => cases h
  | rsa k =>
    have hkey : J.rsa.initVerify k = .ok () := haccepts.1
    unfold initVerify at h
    dsimp only at h
    rw [hkey, mapError_ok, ok_bind] at h
    cases h
  | dsa k =>
    have hkey : J.dsa.initVerify k = .ok () := haccepts.1
    unfold initVerify at h
    dsimp only at h
    rw [hkey, mapError_ok, ok_bind] at h
    cases h
  | other e => exact haccepts

/-- An answer that is right, or an exception where the key does not verify the message. -/
theorem answer_of_iff {x : Except Exception Bool} {p : Prop} (h : x = .ok true ↔ p) :
    (∃ b, x = .ok b ∧ (b = true ↔ p)) ∨ ∃ e, x = .error e ∧ ¬ p := by
  cases x with
  | ok b =>
    refine Or.inl ⟨b, rfl, ?_⟩
    rw [← h]
    exact ⟨fun hb => congrArg Except.ok hb, Except.ok.inj⟩
  | error e =>
    refine Or.inr ⟨e, rfl, fun hp => ?_⟩
    cases h.mpr hp

/-- The same of a call that does not move the buffer. -/
theorem lifted_of_iff {x : Except Exception Bool} {p : Prop} (h : x = .ok true ↔ p) (v : View) :
    ∃ v' : View, v'.frame = v.frame ∧
      ((∃ b, lift x v = .ok b v' ∧ (b = true ↔ p)) ∨ ∃ e, lift x v = .error e v' ∧ ¬ p) := by
  refine ⟨v, rfl, ?_⟩
  rcases answer_of_iff h with ⟨b, hx, hb⟩ | ⟨e, hx, hb⟩
  · exact Or.inl ⟨b, by rw [hx, lift_ok], hb⟩
  · exact Or.inr ⟨e, by rw [hx, lift_error], hb⟩

/-- A stream that was initialised and updated answers what its key does, and moves the buffer at most. -/
theorem verify_spec (hinit : stream.initVerify J = .ok s) (data : Bytes) (v : View) :
    ∃ v' : View, v'.frame = v.frame ∧
      ((∃ b, verify J { stream with data } v = .ok b v' ∧ (b = true ↔ stream.key.Verifies J data v)) ∨
        ∃ e, verify J { stream with data } v = .error e v' ∧ ¬ stream.key.Verifies J data v) := by
  obtain ⟨key, d⟩ := stream
  cases key with
  | hmac k =>
    obtain ⟨b, hget, hc, -, hl, hm⟩ := ByteBuffer.get_ok (Nat.le_refl v.buffer.remaining)
    have hrun : verify J { key := .hmac k, data } v =
        .ok (constantTimeEq (J.primitives.hmacSha1 k.keyBytes data) v.rest) { v with buffer := b } := by
      unfold verify HmacStream.verifyView
      dsimp only
      rw [hget]
      dsimp only
      rw [← ByteBuffer.length_rest, List.take_length]
      rfl
    refine ⟨{ v with buffer := b }, by rw [View.frame, hc, hl, hm]; rfl, Or.inl ⟨_, hrun, ?_⟩⟩
    rw [constantTimeEq_iff]
    constructor
    · intro h
      exact ⟨_, rfl, h⟩
    · rintro ⟨_, hsig, h⟩
      exact h.trans (Option.some.inj hsig).symm
  | rsa k =>
    obtain ⟨_, hkey, _⟩ := ok_of_bind hinit
    refine lifted_of_iff (rsaVerify_eq_ok_iff.trans ?_) v
    exact exists_congr fun sig => and_congr_right fun _ => (and_iff_right (mapError_eq_ok_iff.mp hkey)).symm
  | dsa k =>
    obtain ⟨_, hkey, _⟩ := ok_of_bind hinit
    refine lifted_of_iff (dsaVerify_eq_ok_iff.trans ?_) v
    exact exists_congr fun sig => and_congr_right fun _ => (and_iff_right (mapError_eq_ok_iff.mp hkey)).symm
  | other e => cases hinit

end VerificationStream

namespace Viewed

variable {J : Platform} {keys : KeyRef → VerifyingKey} {s s' : Inputs}

/-! ## One key -/

/-- What is verified: the data, the hidden bytes and the format byte. -/
def Inputs.message (s : Inputs) : Bytes := s.data.rest ++ (s.hidden.map View.rest).getD [] ++ [0]

/-- Only positions have moved. -/
structure Moved (s s' : Inputs) : Prop where
  data : s'.data.frame = s.data.frame
  hidden : s'.hidden.map View.frame = s.hidden.map View.frame
  signature : s'.signature.frame = s.signature.frame

theorem moved_refl (s : Inputs) : Moved s s := ⟨rfl, rfl, rfl⟩

/-- The buffers with the data and the hidden bytes read. -/
def Inputs.updated (s : Inputs) (signature : View) : Inputs where
  data := s.data.atEnd
  hidden := s.hidden.map View.atEnd
  signature := signature

theorem moved_updated {v : View} (h : v.frame = s.signature.frame) : Moved s (s.updated v) where
  data := rfl
  hidden := by
    rw [Inputs.updated, Option.map_map]
    rfl
  signature := h

/-- A stream that was initialised is updated with the message. -/
theorem rawVerifyWith_eq {stream t : VerificationStream} (hinit : stream.initVerify J = .ok t) (s : Inputs) :
    rawVerifyWith J stream s = match VerificationStream.verify J { stream with data := s.message } s.signature with
      | .error e signature => .error e (s.updated signature)
      | .ok result signature => .ok (result, { key := stream.key }) (s.updated signature) := by
  obtain ⟨data, hidden, signature⟩ := s
  unfold rawVerifyWith
  rw [hinit, VerificationStream.eq_of_initVerify hinit]
  cases hidden with
  | none =>
    simp only [VerificationStream.updateVerify, View.rest_wrap, List.nil_append]
    have hmessage : Inputs.message { data, hidden := none, signature } = data.rest ++ Signer.FORMAT_BYTES := by
      simp [Inputs.message, Signer.FORMAT_BYTES]
    rw [hmessage]
    rfl
  | some hidden =>
    simp only [VerificationStream.updateVerify, View.rest_wrap, List.nil_append]
    rfl

/-- A stream answers whether its key verifies the message, unless it throws. -/
theorem rawVerifyWith_spec (stream : VerificationStream) (s : Inputs) :
    ∃ s', Moved s s' ∧
      ((∃ b t, rawVerifyWith J stream s = .ok (b, t) s' ∧ t.key = stream.key ∧
          (b = true ↔ stream.key.Verifies J s.message s.signature)) ∨
        ∃ e, rawVerifyWith J stream s = .error e s' ∧ ¬ stream.key.Verifies J s.message s.signature) := by
  cases hinit : stream.initVerify J with
  | error e =>
    refine ⟨s, moved_refl s, Or.inr ⟨e, ?_, VerificationStream.not_verifies_of_initVerify hinit _ _⟩⟩
    unfold rawVerifyWith
    rw [hinit]
  | ok t =>
    obtain ⟨signature, hframe, hrun⟩ := VerificationStream.verify_spec hinit s.message s.signature
    refine ⟨s.updated signature, moved_updated hframe, ?_⟩
    rw [rawVerifyWith_eq hinit]
    rcases hrun with ⟨b, hrun, hb⟩ | ⟨e, hrun, hb⟩
    · rw [hrun]
      exact Or.inl ⟨b, _, rfl, rfl, hb⟩
    · rw [hrun]
      exact Or.inr ⟨e, rfl, hb⟩

/-- The queues hold streams of their keys, which can be asked for streams. -/
abbrev Ready (keys : KeyRef → VerifyingKey) : Streams → Prop :=
  AllFit fun ref stream => stream.key = keys ref ∧ ∃ s, VerificationStream.new (keys ref) = .ok s

theorem key_of_new {key : VerifyingKey} {stream : VerificationStream} (h : VerificationStream.new key = .ok stream) :
    stream.key = key := by
  cases key with
  | other e => cases h
  | _ =>
    cases h
    rfl

theorem not_verifies_of_new {key : VerifyingKey} {e : Exception} (h : VerificationStream.new key = .error e) (message : Bytes)
    (v : View) : ¬ key.Verifies J message v := by
  cases key with
  | other e => exact fun ⟨_, _, haccepts⟩ => haccepts
  | _ => cases h

/-- A stream of the queue or a new one is a stream of the key. -/
theorem yields_getStream (ref : KeyRef) :
    Yields (Ready keys) (fun r => (∃ e, r = .error e ∧ VerificationStream.new (keys ref) = .error e) ∨
      ∃ stream, r = .ok stream ∧ stream.key = keys ref ∧ ∃ s, VerificationStream.new (keys ref) = .ok s) (getStream keys ref) :=
  (yields_take (fun _ hnew => ⟨key_of_new hnew, _, hnew⟩) fun _ h => h.2).mono fun _ hr =>
    hr.imp_right fun ⟨stream, _, hr, hfit, _⟩ => ⟨stream, hr, hfit⟩

/-- What a try with a key gives. -/
def Answers (p : Prop) (s : Inputs) (r : EStateM.Result Exception Inputs Bool) : Prop :=
  ∃ s', Moved s s' ∧ ((∃ b, r = .ok b s' ∧ (b = true ↔ p)) ∨ ∃ e, r = .error e s' ∧ ¬ p)

/-- A try answers whether the key verifies the message, unless it throws. -/
theorem yields_rawVerify (ref : KeyRef) (s : Inputs) :
    Yields (Ready keys) (Answers ((keys ref).Verifies J s.message s.signature) s) (rawVerify J keys ref s) := by
  refine (yields_getStream ref).bind fun r hr => ?_
  rcases hr with ⟨e, rfl, hnew⟩ | ⟨stream, rfl, hkey, hnew⟩
  · exact yields_pure ⟨s, moved_refl s, Or.inr ⟨e, rfl, not_verifies_of_new hnew _ _⟩⟩
  · obtain ⟨s', hmoved, hrun⟩ := rawVerifyWith_spec (J := J) stream s
    rw [hkey] at hrun
    dsimp only
    rcases hrun with ⟨b, t, hrun, ht, hb⟩ | ⟨e, hrun, hb⟩
    · rw [hrun]
      exact (yields_add ⟨ht, hnew⟩).bind fun _ _ => yields_pure ⟨s', hmoved, Or.inl ⟨b, rfl, hb⟩⟩
    · rw [hrun]
      exact yields_pure ⟨s', hmoved, Or.inr ⟨e, rfl, hb⟩⟩

/-! ## The loop -/

/-- Every buffer is marked where it is. -/
structure Marked (s : Inputs) : Prop where
  data : s.data.buffer.mark = some s.data.buffer.position
  hidden : ∀ hidden ∈ s.hidden, hidden.buffer.mark = some hidden.buffer.position
  signature : s.signature.buffer.mark = some s.signature.buffer.position

theorem marked_mark (s : Inputs) : Marked (mark s) where
  data := rfl
  hidden := by
    intro hidden h
    obtain ⟨_, _, rfl⟩ := Option.mem_map.mp h
    rfl
  signature := rfl

/-- A buffer goes back to its mark. -/
theorem resetView_of_frame {v v' : View} (hmark : v.buffer.mark = some v.buffer.position) (h : v'.frame = v.frame) :
    resetView v' = .ok v := by
  have hmark' : v'.buffer.mark = some v.buffer.position := by
    rw [← hmark]
    exact congrArg (·.2.2.2) h
  obtain ⟨b, hreset, hc, hp, hl, hm⟩ := ByteBuffer.reset_ok hmark'
  have heq : (⟨b, v'.backing⟩ : View) = v := by
    refine View.eq_of_frame ?_ hp
    rw [← h]
    simp only [View.frame, hc, hl, hm]
  unfold resetView
  rw [hreset, ok_bind]
  exact congrArg Except.ok heq

/-- Behind a try the buffers are as they were marked. -/
theorem reset_of_moved (hs : Marked s) (h : Moved s s') : reset s' = .ok s := by
  obtain ⟨data, hidden, signature⟩ := s
  obtain ⟨data', hidden', signature'⟩ := s'
  have hdata := resetView_of_frame hs.data h.data
  have hsignature := resetView_of_frame hs.signature h.signature
  unfold reset
  dsimp only at hdata hsignature ⊢
  rw [hdata, ok_bind, hsignature]
  cases hidden with
  | none =>
    cases hidden' with
    | none => rfl
    | some v' => cases h.hidden
  | some v =>
    cases hidden' with
    | none => cases h.hidden
    | some v' =>
      have hv := resetView_of_frame (hs.hidden v rfl) (Option.some.inj h.hidden)
      dsimp only
      rw [hv]
      rfl

/-- The loop answers whether some key verifies the message, whatever the others do. -/
theorem yields_verifyKeys (hs : Marked s) (refs : List KeyRef) :
    Yields (Ready keys) (fun r => ∃ b s', r = .ok b s' ∧ (b = true ↔ ∃ ref ∈ refs, (keys ref).Verifies J s.message s.signature))
      (verifyKeys J keys refs s) := by
  induction refs with
  | nil => exact yields_pure ⟨false, s, rfl, by simp⟩
  | cons ref refs ih =>
    -- A key that does not verify the message leaves the rest of the loop with the same buffers.
    have hnext (hnot : ¬ (keys ref).Verifies J s.message s.signature) :
        Yields (Ready keys)
          (fun r => ∃ b s', r = .ok b s' ∧ (b = true ↔ ∃ ref' ∈ ref :: refs, (keys ref').Verifies J s.message s.signature))
          (verifyKeys J keys refs s) := by
      refine ih.mono fun r hrun => ?_
      obtain ⟨b, t, hr, hb⟩ := hrun
      refine ⟨b, t, hr, ?_⟩
      rw [hb, List.exists_mem_cons_iff, or_iff_right hnot]
    refine (yields_rawVerify ref s).bind fun r hr => ?_
    obtain ⟨s', hmoved, ⟨b, rfl, hb⟩ | ⟨e, rfl, hnot⟩⟩ := hr
    · cases b with
      | true => exact yields_pure ⟨true, s', rfl, fun _ => ⟨ref, List.mem_cons_self, hb.mp rfl⟩, fun _ => rfl⟩
      | false =>
        dsimp only
        rw [reset_of_moved hs hmoved]
        exact hnext fun h => Bool.noConfusion (hb.mpr h)
    · dsimp only
      rw [reset_of_moved hs hmoved]
      exact hnext hnot

/-! ## The header -/

/-- A signature with a header: the format byte and a hash. -/
def HasHeader (signature : View) (hash sig : Bytes) : Prop := signature.rest = [0] ++ hash ++ sig ∧ hash.length = KEY_HASH_SIZE

theorem remaining_of_hasHeader {v : View} {hash sig : Bytes} (h : HasHeader v hash sig) :
    v.buffer.remaining = Signer.HEADER_SIZE + sig.length := by
  have hlength := congrArg List.length h.1
  rw [View.rest, ByteBuffer.length_rest, List.length_append, List.length_append, h.2] at hlength
  exact hlength

theorem rest_skip_of_hasHeader {v : View} {hash sig : Bytes} (h : HasHeader v hash sig) : (v.skip Signer.HEADER_SIZE).rest = sig := by
  rw [View.rest_skip (by rw [remaining_of_hasHeader h]; omega), h.1]
  refine List.drop_left' ?_
  rw [List.length_append, h.2]
  rfl

/-- The header is read, and the signature stands behind it. -/
theorem checkFormatAndGetHash_of_hasHeader {hash sig : Bytes} (h : HasHeader s.signature hash sig) :
    ∃ b : ByteBuffer, checkFormatAndGetHash s = .ok hash { s with signature := { s.signature with buffer := b } } ∧
      b.content = s.signature.buffer.content ∧ b.position = s.signature.buffer.position + Signer.HEADER_SIZE ∧
      b.limit = s.signature.buffer.limit := by
  have hremaining := remaining_of_hasHeader h
  have hsize : Signer.HEADER_SIZE = 5 := rfl
  have hrest : s.signature.buffer.rest = [0] ++ (hash ++ sig) := by rw [← List.append_assoc]; exact h.1
  obtain ⟨b₁, hget₁, hc₁, hp₁, hl₁, -⟩ := ByteBuffer.get_ok (b := s.signature.buffer) (n := 1) (by omega)
  have hrest₁ : b₁.rest = hash ++ sig := by
    rw [ByteBuffer.rest_drop hc₁ hp₁ hl₁, hrest]
    rfl
  obtain ⟨b₂, hget₂, hc₂, hp₂, hl₂, -⟩ := ByteBuffer.get_ok (b := b₁) (n := KEY_HASH_SIZE) (by
    rw [← ByteBuffer.length_rest, hrest₁, List.length_append, h.2]
    omega)
  have hformat : getSignature 1 s = .ok Signer.FORMAT_BYTES { s with signature := { s.signature with buffer := b₁ } } := by
    rw [getSignature, hget₁, hrest]
    rfl
  have hhash : getSignature KEY_HASH_SIZE { s with signature := { s.signature with buffer := b₁ } } =
      .ok hash { s with signature := { s.signature with buffer := b₂ } } := by
    rw [getSignature]
    dsimp only
    rw [hget₂, hrest₁, ← h.2, List.take_left]
  refine ⟨b₂, ?_, hc₂.trans hc₁, by rw [hp₂, hp₁]; rfl, hl₂.trans hl₁⟩
  unfold checkFormatAndGetHash
  rw [bind_ok hformat, if_neg (not_not_intro rfl)]
  exact hhash

/-- Why a signature without a header is refused. -/
def refusal (signature : Bytes) : Exception :=
  .keyczar (if signature.length < Signer.HEADER_SIZE then .shortSignature signature.length else .badVersion (signature.headD 0))

/-- What is refused without a header. -/
theorem verify_of_no_header (z : KeySet) (h : ∀ hash sig, ¬ HasHeader s.signature hash sig) (queues : Streams) :
    ∃ t, (verify J keys z s queues).1 = .error (refusal s.signature.rest) t := by
  have hlength : s.signature.rest.length = s.signature.buffer.remaining := ByteBuffer.length_rest _
  unfold verify refusal
  by_cases hshort : s.signature.buffer.remaining < Signer.HEADER_SIZE
  · rw [if_pos hshort, hlength, if_pos hshort]
    exact ⟨_, rfl⟩
  · rw [if_neg hshort, hlength, if_neg hshort]
    have hsize : Signer.HEADER_SIZE = 5 := rfl
    obtain ⟨b₁, hget₁, -⟩ := ByteBuffer.get_ok (b := s.signature.buffer) (n := 1) (by omega)
    have hformat : getSignature 1 s = .ok (s.signature.rest.take 1) { s with signature := { s.signature with buffer := b₁ } } := by
      rw [getSignature, hget₁]
      rfl
    have hversion : s.signature.rest.take 1 ≠ Signer.FORMAT_BYTES := by
      intro hversion
      refine h ((s.signature.rest.drop 1).take 4) ((s.signature.rest.drop 1).drop 4) ⟨?_, ?_⟩
      · rw [List.append_assoc, List.take_append_drop]
        exact (List.take_append_drop 1 s.signature.rest).symm.trans (congrArg (· ++ s.signature.rest.drop 1) hversion)
      · rw [List.length_take, List.length_drop, hlength, KEY_HASH_SIZE]
        omega
    have hhead : (s.signature.rest.take 1).headD 0 = s.signature.rest.headD 0 := by
      cases s.signature.rest <;> rfl
    have hcheck : checkFormatAndGetHash s = .error (.keyczar (.badVersion (s.signature.rest.headD 0)))
        { s with signature := { s.signature with buffer := b₁ } } := by
      unfold checkFormatAndGetHash
      rw [bind_ok hformat, if_pos hversion, hhead]
      rfl
    rw [hcheck]
    exact ⟨_, rfl⟩

/-- The answer to a signature with a header. -/
theorem yields_verify {z : KeySet} {hash sig : Bytes} (h : HasHeader s.signature hash sig) :
    Yields (Ready keys) (fun r => (z.hashMap hash = [] → ∃ t, r = .error (.keyczar (.keyNotFound hash)) t) ∧
      (z.hashMap hash ≠ [] → ∃ b t, r = .ok b t ∧
        (b = true ↔ ∃ ref ∈ z.hashMap hash, (keys ref).Verifies J s.message (s.signature.skip Signer.HEADER_SIZE))))
      (verify J keys z s) := by
  have hlong : ¬ s.signature.buffer.remaining < Signer.HEADER_SIZE := by
    rw [remaining_of_hasHeader h]
    omega
  obtain ⟨b, hcheck, hc, hp, hl⟩ := checkFormatAndGetHash_of_hasHeader h
  unfold verify
  rw [if_neg hlong, hcheck]
  dsimp only
  cases hrefs : z.hashMap hash with
  | nil => exact yields_pure ⟨fun _ => ⟨_, rfl⟩, fun hne => (hne rfl).elim⟩
  | cons ref refs =>
    have hskip : (s.signature.skip Signer.HEADER_SIZE).buffer.position = b.position := by
      have hremaining := remaining_of_hasHeader h
      have hle := s.signature.buffer.position_le
      rw [ByteBuffer.remaining_eq] at hremaining
      rw [hp]
      show min _ _ = _
      omega
    -- The marked view behind the header gives every key what the signature gives it there.
    have hgiven (key : VerifyingKey) :
        key.given J.strictVerification (mark { s with signature := { s.signature with buffer := b } }).signature =
          key.given J.strictVerification (s.signature.skip Signer.HEADER_SIZE) := by
      refine VerifyingKey.given_congr ?_ ?_ key
      · show (b.content.take b.limit).drop b.position = _
        rw [hc, hl, ← hskip]
        rfl
      · simp only [View.taken, View.array, mark, ByteBuffer.setMark, hc, hl, ← hskip]
        rfl
    have hmessage : (mark { s with signature := { s.signature with buffer := b } }).message = s.message := by
      unfold Inputs.message mark
      rw [Option.map_map]
      rfl
    refine (yields_verifyKeys (J := J) (marked_mark _) (ref :: refs)).mono fun r hrun => ?_
    obtain ⟨b', t, hr, hb'⟩ := hrun
    refine ⟨fun hnil => absurd hnil (List.cons_ne_nil _ _), fun _ => ⟨b', t, hr, ?_⟩⟩
    rw [hb', hmessage]
    refine exists_congr fun ref' => and_congr_right fun _ => ?_
    unfold VerifyingKey.Verifies
    rw [hgiven]

/-! ## The right key -/

/-- However streams were put back before, `verify` answers whether some key under the hash of the signature verifies the message against
the bytes behind the header, and refuses a hash without keys. Without a header it throws. -/
structure FindsKey (J : Platform) (keys : KeyRef → VerifyingKey) (z : KeySet) (s : Inputs) : Prop where
  answer : ∀ queues, Ready keys queues → ∀ hash sig, HasHeader s.signature hash sig → z.hashMap hash ≠ [] →
    ∃ b t, (verify J keys z s queues).1 = .ok b t ∧
      (b = true ↔ ∃ ref ∈ z.hashMap hash, (keys ref).Verifies J s.message (View.wrap sig))
  keyNotFound : ∀ queues, Ready keys queues → ∀ hash sig, HasHeader s.signature hash sig → z.hashMap hash = [] →
    ∃ t, (verify J keys z s queues).1 = .error (.keyczar (.keyNotFound hash)) t
  noHeader : ∀ queues, (∀ hash sig, ¬ HasHeader s.signature hash sig) → ∃ e t, (verify J keys z s queues).1 = .error e t

/-- Every key under the hash is given of the buffer what it would be given of an array with the bytes behind the header. -/
def GivesRest (strictVerification : Bool) (keys : KeyRef → VerifyingKey) (z : KeySet) (signature : View) : Prop :=
  ∀ hash sig, HasHeader signature hash sig → ∀ ref ∈ z.hashMap hash,
    (keys ref).given strictVerification (signature.skip Signer.HEADER_SIZE) = (keys ref).given strictVerification (View.wrap sig)

/-- Two calls return or throw the same when the same keys verify what they are given. -/
theorem verify_congr {z z' : KeySet} {hash sig : Bytes} (h : HasHeader s.signature hash sig) (h' : HasHeader s'.signature hash sig)
    (hempty : z.hashMap hash = [] ↔ z'.hashMap hash = [])
    (hsame : (∃ ref ∈ z.hashMap hash, (keys ref).Verifies J s.message (s.signature.skip Signer.HEADER_SIZE)) ↔
      ∃ ref ∈ z'.hashMap hash, (keys ref).Verifies J s'.message (s'.signature.skip Signer.HEADER_SIZE))
    {queues queues' : Streams} (hq : Ready keys queues) (hq' : Ready keys queues') :
    outcome (verify J keys z s queues).1 = outcome (verify J keys z' s' queues').1 := by
  obtain ⟨hnone, hsome⟩ := (yields_verify (J := J) h queues hq).1
  obtain ⟨hnone', hsome'⟩ := (yields_verify (J := J) h' queues' hq').1
  by_cases hrefs : z.hashMap hash = []
  · obtain ⟨t, hrun⟩ := hnone hrefs
    obtain ⟨t', hrun'⟩ := hnone' (hempty.mp hrefs)
    rw [hrun, hrun']
    rfl
  · obtain ⟨b, t, hrun, hb⟩ := hsome hrefs
    obtain ⟨b', t', hrun', hb'⟩ := hsome' fun hrefs' => hrefs (hempty.mpr hrefs')
    have hanswer : b = b' := Bool.eq_iff_iff.mpr (by rw [hb, hb', hsame])
    rw [hrun, hrun', hanswer]
    rfl

/-- The answer does not depend on the order in which the keys were registered. -/
theorem verify_perm {z z' : KeySet} {hash sig : Bytes} (h : HasHeader s.signature hash sig)
    (hperm : (z.hashMap hash).Perm (z'.hashMap hash)) {queues queues' : Streams} (hq : Ready keys queues) (hq' : Ready keys queues') :
    outcome (verify J keys z s queues).1 = outcome (verify J keys z' s queues').1 := by
  refine verify_congr h h ?_ ?_ hq hq'
  · rw [← List.length_eq_zero_iff, hperm.length_eq, List.length_eq_zero_iff]
  · exact exists_congr fun ref => and_congr_left fun _ => hperm.mem_iff

/-- What the keys are given decides whether the answer is right. -/
theorem findsKey_of_given {z : KeySet} (hgiven : GivesRest J.strictVerification keys z s.signature) : FindsKey J keys z s where
  answer := by
    intro queues hq hash sig hheader hne
    obtain ⟨b, t, hrun, hb⟩ := (yields_verify (J := J) hheader queues hq).1.2 hne
    refine ⟨b, t, hrun, hb.trans ?_⟩
    refine exists_congr fun ref => and_congr_right fun href => ?_
    unfold VerifyingKey.Verifies
    rw [hgiven hash sig hheader ref href]
  keyNotFound := fun queues hq hash sig hheader hempty => (yields_verify (J := J) hheader queues hq).1.1 hempty
  noHeader := fun queues h => ⟨_, verify_of_no_header z h queues⟩

end Viewed

namespace Viewed

/-- On every platform the right key is found, exactly when every RSA and DSA key under the hash is given the bytes behind the header. -/
theorem findsKey_iff (keys : KeyRef → VerifyingKey) (z : KeySet) (s : Inputs) (strictVerification : Bool) :
    (∀ J : Platform, J.strictVerification = strictVerification → FindsKey J keys z s) ↔
      GivesRest strictVerification keys z s.signature := by
  constructor
  · intro h hash sig hheader
    have hrest := rest_skip_of_hasHeader hheader
    refine (VerifyingKey.verifies_alike_iff s.message (hrest.trans (View.rest_wrap sig).symm)).mp fun J hJ => ?_
    by_cases hempty : z.hashMap hash = []
    · rw [hempty]
      simp
    · have hyields : Yields (Ready keys) _ (verify J keys z s) := yields_verify hheader
      obtain ⟨b, t, hrun, hb⟩ := (hyields (fun _ => []) allFit_empty).1.2 hempty
      obtain ⟨b', t', hrun', hb'⟩ := (h J hJ).answer (fun _ => []) allFit_empty hash sig hheader hempty
      rw [hrun] at hrun'
      cases hrun'
      exact hb.symm.trans hb'
  · rintro h J rfl
    exact findsKey_of_given h

/-- On such buffers `verify` is what it is on values, with keys that verify the same. -/
theorem verify_eq_verifyBuffer {ρ : Type} {J : Platform} {keys : KeyRef → VerifyingKey} {z : KeySet} {s : Inputs}
    {signing : KeyRef → SigningKey ρ}
    (hsigning : ∀ ref message sig, (signing ref).verify message sig = .ok true ↔ (keys ref).Verifies J message (View.wrap sig))
    (hgiven : GivesRest J.strictVerification keys z s.signature) {hash sig : Bytes} (hheader : HasHeader s.signature hash sig)
    {queues : Streams} (hq : Ready keys queues) :
    outcome (verify J keys z s queues).1 =
      Verifier.verifyBuffer (z.signingKeyczar signing) s.data.buffer (s.hidden.map View.buffer) s.signature.buffer := by
  have hfinds := findsKey_of_given hgiven
  have hkeys : (z.signingKeyczar signing).getKey hash = (z.hashMap hash).map signing := rfl
  by_cases hempty : z.hashMap hash = []
  · obtain ⟨t, hrun⟩ := hfinds.keyNotFound queues hq hash sig hheader hempty
    rw [hrun, Verifier.verifyBuffer_of_no_key _ _ hheader.2 hheader.1 (by rw [hkeys, hempty, List.map_nil])]
    rfl
  · obtain ⟨answer, t, hrun, hanswer⟩ := hfinds.answer queues hq hash sig hheader hempty
    obtain ⟨ref, hmem⟩ := List.exists_mem_of_ne_nil _ hempty
    have hkey : signing ref ∈ (z.signingKeyczar signing).getKey hash := by
      rw [hkeys]
      exact List.mem_map_of_mem hmem
    obtain ⟨answer', hvalue, hanswer'⟩ :=
      Verifier.verifyBuffer_layout s.data.buffer (s.hidden.map View.buffer) hheader.2 hheader.1 hkey
    have hmessage : s.data.buffer.rest ++ ((s.hidden.map View.buffer).map ByteBuffer.rest).getD [] ++ [0] = s.message := by
      rw [Option.map_map]
      rfl
    have hsame : answer = answer' := by
      refine Bool.eq_iff_iff.mpr ?_
      rw [hanswer, hanswer', hmessage, hkeys]
      simp only [List.mem_map, exists_exists_and_eq_and, hsigning]
    rw [hrun, hvalue, hsame]
    rfl

/-- A platform on which RSA keys accept one signature. -/
def onePlatform : Platform where
  primitives := Primitives.plain
  rsa := .accepting (· == [1])
  dsa := .accepting fun _ => false

def oneKey : VerifyingKey := .rsa { size := 0, modulus := 0, publicExponent := 0 }

/-- A key set with a key under one hash. -/
def oneSet : KeySet where
  hashMap hash := if hash = [7, 7, 7, 7] then [0] else []

/-- A signature that was sliced out of an array, behind its first byte. -/
def slicedInputs : Inputs where
  data := View.wrap []
  hidden := none
  signature := ((View.wrap [9, 0, 7, 7, 7, 7, 1]).skip 1).slice

/-- A signature that its key accepts is refused in a buffer that begins behind the start of its array. -/
theorem sliced_signature_is_refused : ¬ FindsKey onePlatform (fun _ => oneKey) oneSet slicedInputs ∧
    outcome (verify onePlatform (fun _ => oneKey) oneSet slicedInputs fun _ => []).1 = .ok false := by
  have hrun : outcome (verify onePlatform (fun _ => oneKey) oneSet slicedInputs fun _ => []).1 = .ok false := rfl
  refine ⟨fun h => ?_, hrun⟩
  obtain ⟨b, t, hanswer, hb⟩ := h.answer (fun _ => []) allFit_empty [7, 7, 7, 7] [1] ⟨by decide, rfl⟩ (by decide)
  rw [hanswer] at hrun
  obtain rfl : b = false := Except.ok.inj hrun
  have hverifies : oneKey.Verifies onePlatform slicedInputs.message (View.wrap [1]) := ⟨[1], by decide, rfl, rfl⟩
  exact Bool.noConfusion (hb.mpr ⟨0, List.mem_cons_self, hverifies⟩)

end Viewed

end Java
