import Keyczar.Java.DsaSignatures

/-!
# What a key is given of a signature

An HMAC key is given the bytes of a buffer that are left. An RSA or a DSA key is given bytes of the array of the buffer, from the index on
that is the position of the buffer: in a view that begins behind the start of its array these are others, and in one that does not give
out its array there are none. Two buffers with the same bytes left are verified alike, on every platform, exactly when each key is given
the same of both.
-/

namespace Java

open Bytes Throwing

/-! ## Views -/

namespace View

/-- What moving the position leaves. -/
def frame (v : View) : Backing × Bytes × Nat × Option Nat := (v.backing, v.buffer.content, v.buffer.limit, v.buffer.mark)

/-- The view `n` bytes further on. -/
def skip (v : View) (n : Nat) : View :=
  { v with buffer :=
    { v.buffer with
      position := min (v.buffer.position + n) v.buffer.limit
      position_le := Nat.min_le_right _ _
      mark_le := fun m hm => by
        have h1 := v.buffer.mark_le m hm
        have h2 := v.buffer.position_le
        omega } }

theorem eq_of_frame {v v' : View} (h : v'.frame = v.frame) (hposition : v'.buffer.position = v.buffer.position) : v' = v := by
  obtain ⟨b, backing⟩ := v
  obtain ⟨b', backing'⟩ := v'
  simp only [frame, Prod.mk.injEq] at h
  obtain ⟨rfl, hcontent, hlimit, hmark⟩ := h
  exact congrArg (View.mk · _) (ByteBuffer.ext hcontent hposition hlimit hmark)

@[simp] theorem rest_wrap (s : Bytes) : (wrap s).rest = s := ByteBuffer.rest_wrap s

theorem rest_skip {v : View} {n : Nat} (h : n ≤ v.buffer.remaining) : (v.skip n).rest = v.rest.drop n := by
  refine ByteBuffer.rest_drop rfl ?_ rfl
  have hle := v.buffer.position_le
  rw [ByteBuffer.remaining_eq] at h
  show min _ _ = _
  omega

end View

/-! ## Keys -/

namespace VerifyingKey

/-- What a key is given to verify, of the buffer of a signature. -/
def given (strictVerification : Bool) (key : VerifyingKey) (v : View) : Option Bytes :=
  match key with
  | .hmac _ => some v.rest
  | .rsa _ => v.taken.toOption
  | .dsa _ => v.taken.toOption.bind (DsaVerifyingStream.verified strictVerification)
  | .other _ => none

variable (J : Platform)

/-- The key accepts the bytes of a signature over a message. -/
def Accepts (key : VerifyingKey) (message sig : Bytes) : Prop :=
  match key with
  | .hmac k => J.primitives.hmacSha1 k.keyBytes message = sig
  | .rsa k => J.rsa.initVerify k = .ok () ∧ J.rsa.verify k message sig = .ok true
  | .dsa k => J.dsa.initVerify k = .ok () ∧ J.dsa.verify k message sig = .ok true
  | .other _ => False

/-- The key verifies a message against what it is given of a buffer. -/
def Verifies (key : VerifyingKey) (message : Bytes) (v : View) : Prop :=
  ∃ sig, key.given J.strictVerification v = some sig ∧ key.Accepts J message sig

end VerifyingKey

theorem VerifyingKey.given_congr {strictVerification : Bool} {v v' : View} (hrest : v.rest = v'.rest) (htaken : v.taken = v'.taken)
    (key : VerifyingKey) : key.given strictVerification v = key.given strictVerification v' := by
  cases key with
  | hmac k => exact congrArg some hrest
  | rsa k => exact congrArg Except.toOption htaken
  | dsa k => exact congrArg (fun t => t.toOption.bind (DsaVerifyingStream.verified strictVerification)) htaken
  | other e => rfl

/-- A buffer that begins where its array does gives every key the bytes that are left. -/
theorem VerifyingKey.given_of_arrayOffset_zero {strictVerification : Bool} {v : View} {back : Bytes} (h : v.backing = .heap [] back)
    (key : VerifyingKey) : key.given strictVerification v = key.given strictVerification (View.wrap v.rest) := by
  refine VerifyingKey.given_congr (View.rest_wrap _).symm ?_ key
  have hle := v.buffer.limit_le
  rw [View.taken_wrap, View.taken, View.array, h, ok_bind]
  refine congrArg Except.ok ?_
  rw [List.nil_append, subArray, View.rest, ByteBuffer.rest, List.drop_append_of_le_length (by have := v.buffer.position_le; omega),
    List.take_append_of_le_length (by rw [List.length_drop]; omega), List.drop_take]

/-- What an RSA stream answers. -/
theorem rsaVerify_eq_ok_iff {J : Platform} {k : RsaPublicKey} {data : Bytes} {v : View} {b : Bool} :
    RsaStream.verify J k data v = .ok b ↔ ∃ sig, v.taken.toOption = some sig ∧ J.rsa.verify k data sig = .ok b := by
  unfold RsaStream.verify View.taken
  cases v.array with
  | error e =>
    rw [mapError_error, error_bind, error_bind]
    exact ⟨nofun, nofun⟩
  | ok array =>
    rw [mapError_ok, ok_bind, ok_bind, mapError_eq_ok_iff]
    exact ⟨fun h => ⟨_, rfl, h⟩, fun ⟨_, hsig, h⟩ => Option.some.inj hsig ▸ h⟩

/-- What a DSA stream answers. -/
theorem dsaVerify_eq_ok_iff {J : Platform} {k : DsaPublicKey} {data : Bytes} {v : View} {b : Bool} :
    DsaVerifyingStream.verify J k data v = .ok b ↔
      ∃ sig, v.taken.toOption.bind (DsaVerifyingStream.verified J.strictVerification) = some sig ∧ J.dsa.verify k data sig = .ok b := by
  cases htaken : v.taken with
  | error e =>
    have harray : v.array = .error e := by
      unfold View.taken at htaken
      cases harray : v.array with
      | error e' =>
        rw [harray, error_bind] at htaken
        exact htaken
      | ok array =>
        rw [harray, ok_bind] at htaken
        cases htaken
    rw [DsaVerifyingStream.verify_of_not_taken J k data harray]
    exact ⟨nofun, nofun⟩
  | ok w =>
    rw [DsaVerifyingStream.verify_of_taken J k data htaken]
    show _ ↔ ∃ sig, DsaVerifyingStream.verified J.strictVerification w = some sig ∧ _
    cases DsaVerifyingStream.verified J.strictVerification w with
    | none => exact ⟨nofun, nofun⟩
    | some sig =>
      dsimp only
      rw [mapError_eq_ok_iff]
      exact ⟨fun h => ⟨_, rfl, h⟩, fun ⟨_, hsig, h⟩ => Option.some.inj hsig ▸ h⟩

/-! ## Platforms that tell signatures apart -/

/-- Primitives whose HMAC is never a given string. -/
def avoidingPrimitives (avoided : Bytes) : Primitives where
  aes := Primitives.plain.aes
  hash := Primitives.plain.hash
  hmac d _ _ := List.replicate d.size (if avoided.head? = some 0 then 1 else 0)
  length_hash := Primitives.plain.length_hash
  length_hmac _ _ _ := List.length_replicate

theorem hmacSha1_avoiding (avoided key message : Bytes) : (avoidingPrimitives avoided).hmacSha1 key message ≠ avoided := by
  intro h
  have hhead : avoided.head? = some (if avoided.head? = some 0 then 1 else 0) := by
    conv_lhs => rw [← h]
    rfl
  split at hhead
  · rename_i hzero
    rw [hzero] at hhead
    cases hhead
  · rename_i hzero
    exact hzero hhead

namespace VerifyingKey

variable {strictVerification : Bool} {key key' : VerifyingKey} {message avoided sig : Bytes} {v : View}

/-- A platform on which only keys of one algorithm accept a signature, and only one. -/
def platform (strictVerification : Bool) (key : VerifyingKey) (avoided sig : Bytes) : Platform where
  primitives := avoidingPrimitives avoided
  rsa := .accepting fun s => match key with
    | .rsa _ => s == sig
    | _ => false
  dsa := .accepting fun s => match key with
    | .dsa _ => s == sig
    | _ => false
  strictVerification := strictVerification

/-- A key whose algorithm is that of the platform. -/
def TakesArray : VerifyingKey → Prop
  | .rsa _ | .dsa _ => True
  | .hmac _ | .other _ => False

theorem verifies_platform (htakes : key.TakesArray) (h : key.given strictVerification v = some sig) :
    key.Verifies (platform strictVerification key avoided sig) message v := by
  refine ⟨sig, h, ?_⟩
  have hself : (sig == sig) = true := beq_self_eq_true sig
  cases key with
  | rsa k => exact ⟨rfl, congrArg Except.ok hself⟩
  | dsa k => exact ⟨rfl, congrArg Except.ok hself⟩
  | hmac k => exact htakes.elim
  | other e => exact htakes.elim

/-- Another key verifies on the platform of a key only what that key would. -/
theorem given_of_verifies_platform (h : key'.Verifies (platform strictVerification key v.rest sig) message v) :
    key.given strictVerification v = some sig := by
  obtain ⟨s, hs, haccepts⟩ := h
  cases key' with
  | hmac k' =>
    obtain rfl : v.rest = s := Option.some.inj hs
    exact (hmacSha1_avoiding _ _ _ haccepts).elim
  | rsa k' =>
    have hverify := Except.ok.inj haccepts.2
    cases key with
    | rsa k => exact beq_iff_eq.mp hverify ▸ hs
    | _ => cases hverify
  | dsa k' =>
    have hverify := Except.ok.inj haccepts.2
    cases key with
    | dsa k => exact beq_iff_eq.mp hverify ▸ hs
    | _ => cases hverify
  | other e => exact haccepts.elim

/-- Keys that take no array are given the same of buffers with the same rest. -/
theorem given_of_not_takesArray {v' : View} (h : ¬ key.TakesArray) (hrest : v.rest = v'.rest) :
    key.given strictVerification v = key.given strictVerification v' := by
  cases key with
  | hmac k => exact congrArg some hrest
  | rsa k => exact (h trivial).elim
  | dsa k => exact (h trivial).elim
  | other e => rfl

/-- Two buffers with the same rest are verified alike on every platform exactly when every key is given the same of them. -/
theorem verifies_alike_iff (message : Bytes) {α : Type} {refs : List α} {keys : α → VerifyingKey} {v' : View} (hrest : v.rest = v'.rest) :
    (∀ J : Platform, J.strictVerification = strictVerification →
      ((∃ ref ∈ refs, (keys ref).Verifies J message v) ↔ ∃ ref ∈ refs, (keys ref).Verifies J message v')) ↔
    ∀ ref ∈ refs, (keys ref).given strictVerification v = (keys ref).given strictVerification v' := by
  constructor
  · intro h ref href
    by_cases htakes : (keys ref).TakesArray
    · -- The signature that one of the buffers gives the key is one that the platform of the key tells from all others.
      refine Option.ext fun sig => ?_
      have hsig := h (platform strictVerification (keys ref) v.rest sig) rfl
      constructor
      · intro hgiven
        obtain ⟨ref', -, hverifies⟩ := hsig.mp ⟨ref, href, verifies_platform htakes hgiven⟩
        rw [hrest] at hverifies
        exact given_of_verifies_platform hverifies
      · intro hgiven
        obtain ⟨ref', -, hverifies⟩ := hsig.mpr ⟨ref, href, verifies_platform htakes hgiven⟩
        exact given_of_verifies_platform hverifies
    · exact given_of_not_takesArray htakes hrest
  · rintro h J rfl
    refine exists_congr fun ref => and_congr_right fun href => ?_
    unfold Verifies
    rw [h ref href]

end VerifyingKey

end Java
