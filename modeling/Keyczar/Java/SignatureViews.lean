import Keyczar.Java.VerifierSearch

/-!
# Two buffers with the same bytes

Whether verification depends only on the bytes that are left in its buffers. It does not matter where the data and the hidden bytes
are, nor, for an HMAC key, where the signature is. RSA and DSA keys take the signature out of the array of its buffer: two signatures
with the same bytes left are verified alike on every platform exactly when each of these keys takes the same out of both.
-/

namespace Java

open Bytes Pool Throwing

/-! ## Views -/

namespace View

variable {v : View} {a : Bytes}

@[simp] theorem rest_duplicate (v : View) : v.duplicate.rest = v.rest := rfl

@[simp] theorem rest_slice (v : View) : v.slice.rest = v.rest := ByteBuffer.rest_wrap v.buffer.rest

@[simp] theorem rest_asReadOnlyBuffer (v : View) : v.asReadOnlyBuffer.rest = v.rest := rfl

/-- A slice has the array of its buffer. -/
@[simp] theorem array_slice (v : View) : v.slice.array = v.array := by
  unfold array slice
  cases v.backing with
  | heap front back =>
    refine congrArg Except.ok ?_
    have hcontent : v.buffer.content.take v.buffer.position ++ v.buffer.rest ++ v.buffer.content.drop v.buffer.limit =
        v.buffer.content := by
      have hbefore : v.buffer.content.take v.buffer.position = (v.buffer.content.take v.buffer.limit).take v.buffer.position := by
        rw [List.take_take, Nat.min_eq_left v.buffer.position_le]
      rw [hbefore, ByteBuffer.rest, List.take_append_drop, List.take_append_drop]
    conv_rhs => rw [← hcontent]
    simp only [ByteBuffer.slice, ByteBuffer.wrap, List.append_assoc]
  | readOnly => rfl
  | direct => rfl

/-- What is taken of a slice stands at the start of the array, wherever the slice begins. -/
theorem taken_slice (h : v.array = .ok a) : v.slice.taken = .ok (a.take v.rest.length) := by
  unfold taken
  rw [array_slice, h, ok_bind]
  rfl

/-- Nothing is taken of a buffer that is read only. -/
theorem taken_asReadOnlyBuffer (v : View) : v.asReadOnlyBuffer.taken.toOption = none := by
  unfold taken array asReadOnlyBuffer
  cases v.backing <;> rfl

end View

namespace Viewed

variable {J : Platform} {keys : KeyRef → VerifyingKey} {s s' : Inputs}

/-! ## `UnversionedVerifier` -/

namespace Unversioned

/-- A stream that was set up verifies all of the data. -/
theorem verifyWith_of_initVerify {stream t : VerificationStream} (hinit : stream.initVerify J = .ok t) (data signature : View) :
    verifyWith J stream data signature =
      match VerificationStream.verify J { stream with data := data.rest } signature with
      | .error e _ => .error e
      | .ok result _ => .ok (result, { key := stream.key }) := by
  unfold verifyWith
  rw [hinit, ok_bind, VerificationStream.eq_of_initVerify hinit]
  rfl

/-- A stream answers whether its key verifies the data, unless it throws. -/
theorem verifyWith_spec (stream : VerificationStream) (data signature : View) :
    (∃ b t, verifyWith J stream data signature = .ok (b, t) ∧ t.key = stream.key ∧
        (b = true ↔ stream.key.Verifies J data.rest signature)) ∨
      ∃ e, verifyWith J stream data signature = .error e ∧ ¬ stream.key.Verifies J data.rest signature := by
  cases hinit : stream.initVerify J with
  | error e =>
    refine Or.inr ⟨e, ?_, VerificationStream.not_verifies_of_initVerify hinit _ _⟩
    unfold verifyWith
    rw [hinit, error_bind]
  | ok t =>
    have hrun := verifyWith_of_initVerify hinit data signature
    obtain ⟨v, -, hverify⟩ := VerificationStream.verify_spec hinit data.rest signature
    rcases hverify with ⟨b, hverify, hb⟩ | ⟨e, hverify, hnot⟩
    · rw [hverify] at hrun
      exact Or.inl ⟨b, _, hrun, rfl, hb⟩
    · rw [hverify] at hrun
      exact Or.inr ⟨e, hrun, hnot⟩

/-- A key answers whether it verifies the data. -/
theorem yields_verifyKey (data signature : View) (ref : KeyRef) :
    Yields (Ready keys) (fun b => b = true ↔ (keys ref).Verifies J data.rest signature) (verifyKey J keys data signature ref) := by
  refine (yields_getStream ref).bind fun r hr => ?_
  rcases hr with ⟨e, rfl, hnew⟩ | ⟨stream, rfl, hkey, hnew⟩
  · exact yields_pure ⟨nofun, fun h => (not_verifies_of_new hnew _ _ h).elim⟩
  · have hspec := verifyWith_spec (J := J) stream data signature
    rw [hkey] at hspec
    dsimp only
    rcases hspec with ⟨b, t, hrun, ht, hb⟩ | ⟨e, hrun, hnot⟩
    · rw [hrun]
      exact (yields_add ⟨ht, hnew⟩).bind fun _ _ => yields_pure hb
    · rw [hrun]
      exact yields_pure ⟨nofun, fun h => (hnot h).elim⟩

/-- The answer is whether some key verifies the data. -/
theorem yields_verify (data signature : View) (refs : List KeyRef) :
    Yields (Ready keys) (fun b => b = true ↔ ∃ ref ∈ refs, (keys ref).Verifies J data.rest signature)
      (verify J keys data signature refs) := by
  induction refs with
  | nil => exact yields_pure ⟨nofun, nofun⟩
  | cons ref refs ih =>
    refine (yields_verifyKey data signature ref).bind fun b hb => ?_
    cases b with
    | true => exact yields_pure ⟨fun _ => ⟨ref, List.mem_cons_self, hb.mp rfl⟩, fun _ => rfl⟩
    | false =>
      have hnot : ¬ (keys ref).Verifies J data.rest signature := fun h => Bool.noConfusion (hb.mpr h)
      refine ih.mono fun b' hb' => ?_
      rw [hb', List.exists_mem_cons_iff, or_iff_right hnot]

end Unversioned

/-! ## The same bytes -/

/-- Buffers with the same bytes left. -/
structure SameBytes (s s' : Inputs) : Prop where
  data : s.data.rest = s'.data.rest
  hidden : s.hidden.map View.rest = s'.hidden.map View.rest
  signature : s.signature.rest = s'.signature.rest

theorem message_eq_of_sameBytes (h : SameBytes s s') : s.message = s'.message := by
  rw [Inputs.message, Inputs.message, h.data, h.hidden]

theorem hasHeader_of_sameBytes (h : SameBytes s s') {hash sig : Bytes} (hheader : HasHeader s.signature hash sig) :
    HasHeader s'.signature hash sig := ⟨h.signature.symm.trans hheader.1, hheader.2⟩

/-- Both verifiers return or throw the same on the buffers, however streams were put back before. The keys of the versions are those of
`UnversionedVerifier`, which has no hidden bytes. -/
structure Alike (J : Platform) (keys : KeyRef → VerifyingKey) (z : KeySet) (versions : List KeyRef) (s s' : Inputs) : Prop where
  verifier : ∀ queues queues', Ready keys queues → Ready keys queues' →
    outcome (verify J keys z s queues).1 = outcome (verify J keys z s' queues').1
  unversioned : ∀ queues queues', Ready keys queues → Ready keys queues' →
    (Unversioned.verify J keys s.data s.signature versions queues).1 = (Unversioned.verify J keys s'.data s'.signature versions queues').1

/-- Every key that is asked is given the same of both signatures: behind the header, and of the whole. -/
structure GivenAlike (strictVerification : Bool) (keys : KeyRef → VerifyingKey) (z : KeySet) (versions : List KeyRef)
    (signature signature' : View) : Prop where
  verifier : ∀ hash sig, HasHeader signature hash sig → ∀ ref ∈ z.hashMap hash,
    (keys ref).given strictVerification (signature.skip Signer.HEADER_SIZE) =
      (keys ref).given strictVerification (signature'.skip Signer.HEADER_SIZE)
  unversioned : ∀ ref ∈ versions, (keys ref).given strictVerification signature = (keys ref).given strictVerification signature'

theorem rest_skip_of_sameBytes (h : SameBytes s s') {hash sig : Bytes} (hheader : HasHeader s.signature hash sig) :
    (s.signature.skip Signer.HEADER_SIZE).rest = (s'.signature.skip Signer.HEADER_SIZE).rest := by
  rw [rest_skip_of_hasHeader hheader, rest_skip_of_hasHeader (hasHeader_of_sameBytes h hheader)]

/-- Buffers that begin where their arrays do give every key the same. -/
theorem givenAlike_of_arrayOffset_zero {strictVerification : Bool} {z : KeySet} {versions : List KeyRef} {back back' : Bytes}
    (h : SameBytes s s') (hback : s.signature.backing = .heap [] back) (hback' : s'.signature.backing = .heap [] back') :
    GivenAlike strictVerification keys z versions s.signature s'.signature where
  verifier := by
    intro hash sig hheader ref _
    have hskip : (s.signature.skip Signer.HEADER_SIZE).backing = .heap [] back := hback
    have hskip' : (s'.signature.skip Signer.HEADER_SIZE).backing = .heap [] back' := hback'
    rw [VerifyingKey.given_of_arrayOffset_zero hskip, VerifyingKey.given_of_arrayOffset_zero hskip', rest_skip_of_sameBytes h hheader]
  unversioned := by
    intro ref _
    rw [VerifyingKey.given_of_arrayOffset_zero hback, VerifyingKey.given_of_arrayOffset_zero hback', h.signature]

/-- HMAC keys are given the same of any buffers with the same bytes left. -/
theorem givenAlike_of_hmac {strictVerification : Bool} {z : KeySet} {versions : List KeyRef} (h : SameBytes s s')
    (hkeys : ∀ ref, ∃ k, keys ref = .hmac k) : GivenAlike strictVerification keys z versions s.signature s'.signature := by
  have hnot (ref : KeyRef) : ¬ (keys ref).TakesArray := by
    obtain ⟨k, hk⟩ := hkeys ref
    rw [hk]
    exact id
  constructor
  · intro hash sig hheader ref _
    exact VerifyingKey.given_of_not_takesArray (hnot ref) (rest_skip_of_sameBytes h hheader)
  · intro ref _
    exact VerifyingKey.given_of_not_takesArray (hnot ref) h.signature

/-- Signatures of which every key is given the same are verified alike. -/
theorem alike_of_givenAlike {z : KeySet} {versions : List KeyRef} (h : SameBytes s s')
    (hgiven : GivenAlike J.strictVerification keys z versions s.signature s'.signature) : Alike J keys z versions s s' := by
  constructor
  · intro queues queues' hq hq'
    by_cases hheader : ∃ hash sig, HasHeader s.signature hash sig
    · obtain ⟨hash, sig, hheader⟩ := hheader
      refine verify_congr hheader (hasHeader_of_sameBytes h hheader) Iff.rfl ?_ hq hq'
      refine exists_congr fun ref => and_congr_right fun href => ?_
      unfold VerifyingKey.Verifies
      rw [message_eq_of_sameBytes h, hgiven.verifier hash sig hheader ref href]
    · -- Both are refused, for the same bytes.
      have hnone : ∀ hash sig, ¬ HasHeader s.signature hash sig := fun hash sig h => hheader ⟨hash, sig, h⟩
      have hnone' : ∀ hash sig, ¬ HasHeader s'.signature hash sig := by
        intro hash sig hheader'
        exact hnone hash sig ⟨h.signature.trans hheader'.1, hheader'.2⟩
      obtain ⟨t, hrun⟩ := verify_of_no_header z hnone queues
      obtain ⟨t', hrun'⟩ := verify_of_no_header z hnone' queues'
      rw [hrun, hrun', h.signature]
      rfl
  · intro queues queues' hq hq'
    have hanswer := (Unversioned.yields_verify (J := J) s.data s.signature versions queues hq).1
    have hanswer' := (Unversioned.yields_verify (J := J) s'.data s'.signature versions queues' hq').1
    refine Bool.eq_iff_iff.mpr (hanswer.trans (Iff.trans ?_ hanswer'.symm))
    refine exists_congr fun ref => and_congr_right fun href => ?_
    unfold VerifyingKey.Verifies
    rw [h.data, hgiven.unversioned ref href]

/-- Signatures that are verified alike on every platform give every key the same. -/
theorem givenAlike_of_alike {strictVerification : Bool} {z : KeySet} {versions : List KeyRef} (h : SameBytes s s')
    (halike : ∀ J : Platform, J.strictVerification = strictVerification → Alike J keys z versions s s') :
    GivenAlike strictVerification keys z versions s.signature s'.signature := by
  have hempty : Ready keys fun _ => [] := allFit_empty
  constructor
  · intro hash sig hheader
    refine (VerifyingKey.verifies_alike_iff s.message (rest_skip_of_sameBytes h hheader)).mp fun J hJ => ?_
    by_cases hrefs : z.hashMap hash = []
    · rw [hrefs]
      simp
    · have hyields : Yields (Ready keys) _ (verify J keys z s) := yields_verify hheader
      have hyields' : Yields (Ready keys) _ (verify J keys z s') := yields_verify (hasHeader_of_sameBytes h hheader)
      obtain ⟨b, t, hrun, hb⟩ := (hyields _ hempty).1.2 hrefs
      obtain ⟨b', t', hrun', hb'⟩ := (hyields' _ hempty).1.2 hrefs
      have hsame := (halike J hJ).verifier _ _ hempty hempty
      rw [hrun, hrun'] at hsame
      rw [message_eq_of_sameBytes h] at hb ⊢
      rw [← hb, ← hb', Except.ok.inj hsame]
  · refine (VerifyingKey.verifies_alike_iff s.data.rest h.signature).mp fun J hJ => ?_
    have hyields : Yields (Ready keys) _ _ := Unversioned.yields_verify (J := J) s.data s.signature versions
    have hyields' : Yields (Ready keys) _ _ := Unversioned.yields_verify (J := J) s'.data s'.signature versions
    rw [← (hyields _ hempty).1, (halike J hJ).unversioned _ _ hempty hempty, (hyields' _ hempty).1, h.data]

/-- Signatures with the same bytes left are verified alike on every platform, exactly when every key is given the same of them. -/
theorem alike_iff (keys : KeyRef → VerifyingKey) (z : KeySet) (versions : List KeyRef) (strictVerification : Bool) (h : SameBytes s s') :
    (∀ J : Platform, J.strictVerification = strictVerification → Alike J keys z versions s s') ↔
      GivenAlike strictVerification keys z versions s.signature s'.signature := by
  constructor
  · exact givenAlike_of_alike h
  · rintro hgiven J rfl
    exact alike_of_givenAlike h hgiven

/-- The signature that was sliced, in an array of its own. -/
def wrappedInputs : Inputs := { slicedInputs with signature := View.wrap slicedInputs.signature.rest }

theorem sameBytes_wrapped_sliced : SameBytes wrappedInputs slicedInputs := ⟨rfl, rfl, by decide⟩

/-- An HMAC key verifies the same in both. -/
theorem alike_iff_sliced_hmac :
    SameBytes wrappedInputs slicedInputs ∧
      Alike onePlatform (fun _ => .hmac { keyBytes := [3], ne_nil := by decide }) oneSet [0] wrappedInputs slicedInputs :=
  ⟨sameBytes_wrapped_sliced, (alike_iff _ oneSet [0] onePlatform.strictVerification sameBytes_wrapped_sliced).mpr
    (givenAlike_of_hmac sameBytes_wrapped_sliced fun _ => ⟨_, rfl⟩) onePlatform rfl⟩

/-- An RSA key accepts a signature in an array of its own, and refuses it in a slice. -/
theorem slice_is_verified_otherwise :
    (SameBytes wrappedInputs slicedInputs ∧ ¬ Alike onePlatform (fun _ => oneKey) oneSet [0] wrappedInputs slicedInputs) ∧
      (outcome (verify onePlatform (fun _ => oneKey) oneSet wrappedInputs fun _ => []).1 = .ok true ∧
        outcome (verify onePlatform (fun _ => oneKey) oneSet slicedInputs fun _ => []).1 = .ok false) ∧
      (Unversioned.verify onePlatform (fun _ => oneKey) (View.wrap []) (View.wrap [1]) [0] fun _ => []).1 = true ∧
      (Unversioned.verify onePlatform (fun _ => oneKey) (View.wrap []) ((View.wrap [9, 1]).skip 1).slice [0] fun _ => []).1 = false := by
  have haccepted : outcome (verify onePlatform (fun _ => oneKey) oneSet wrappedInputs fun _ => []).1 = .ok true := rfl
  have hrefused : outcome (verify onePlatform (fun _ => oneKey) oneSet slicedInputs fun _ => []).1 = .ok false := rfl
  refine ⟨⟨sameBytes_wrapped_sliced, fun h => ?_⟩, ⟨haccepted, hrefused⟩, rfl, rfl⟩
  have hsame := h.verifier (fun _ => []) (fun _ => []) allFit_empty allFit_empty
  rw [haccepted, hrefused] at hsame
  cases hsame

end Viewed

end Java
