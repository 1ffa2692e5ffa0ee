import Keyczar.Java.DetachedSignatures

/-!
# Signing into a buffer of the caller

What `Signer.sign` does to an output of any capacity, position and limit. The room is checked against the capacity of the output, while
its puts are bounded by the limit: an output that has the capacity but not the room is written to before anything is noticed.
-/

namespace Java

open Bytes Throwing

variable {ρ : Type}

namespace Signer

variable {z : SigningKeyczar ρ} {k : SigningKey ρ} {random : ρ} {input output : ByteBuffer} {hidden : Option ByteBuffer}
  {expirationTime : Int64} {sig : Bytes}

/-- The space that is asked for: the header, the time and the longest signature. -/
def spaceNeeded (k : SigningKey ρ) (expirationTime : Int64) : Nat :=
  HEADER_SIZE + k.digestSize + if 0 < expirationTime then TIMESTAMP_SIZE else 0

/-- What is written with a signature. -/
def signature (k : SigningKey ρ) (expirationTime : Int64) (sig : Bytes) : Bytes := [0] ++ k.hash ++ expiration expirationTime ++ sig

theorem length_expiration (t : Int64) : (expiration t).length = if 0 < t then TIMESTAMP_SIZE else 0 := by
  unfold expiration
  split <;> rfl

theorem length_header (k : SigningKey ρ) : (FORMAT_BYTES ++ k.hash).length = HEADER_SIZE := by
  rw [List.length_append, k.length_hash]
  rfl

theorem length_signature (k : SigningKey ρ) (t : Int64) (sig : Bytes) :
    (signature k t sig).length = HEADER_SIZE + (expiration t).length + sig.length := by
  simp only [signature, List.length_append, k.length_hash, HEADER_SIZE, List.length_singleton]

/-- A signature of at most the announced size fits into the space that is asked for. -/
theorem length_signature_le (hsize : sig.length ≤ k.digestSize) : (signature k expirationTime sig).length ≤ spaceNeeded k expirationTime := by
  rw [length_signature, length_expiration, spaceNeeded]
  omega

/-! ## How the puts end -/

theorem put_ends (bytes : Bytes) (o : ByteBuffer) :
    (bytes.length ≤ o.remaining ∧ ∃ o', put bytes o = .ok () o' ∧ o.Wrote bytes o') ∨
    (o.remaining < bytes.length ∧ put bytes o = .error (.runtime .bufferOverflow) o) := by
  unfold put
  rcases Nat.lt_or_ge o.remaining bytes.length with hsmall | hroom
  · right
    rw [ByteBuffer.put_error hsmall]
    exact ⟨hsmall, rfl⟩
  · left
    obtain ⟨o', hput, hwrote⟩ := ByteBuffer.put_ok hroom
    rw [hput]
    exact ⟨hroom, o', rfl, hwrote⟩

theorem putExpiration_ends (stream : SignatureStream ρ) (t : Int64) (o : ByteBuffer) :
    ((expiration t).length ≤ o.remaining ∧
      ∃ o', putExpiration stream t o = .ok (stream.updateSign (ByteBuffer.wrap (expiration t))) o' ∧ o.Wrote (expiration t) o') ∨
    (o.remaining < (expiration t).length ∧ putExpiration stream t o = .error (.runtime .bufferOverflow) o) := by
  unfold putExpiration
  by_cases hpos : 0 < t
  · rw [if_pos hpos, expiration_of_pos hpos]
    rcases put_ends (Util.fromLong t) o with ⟨hroom, o', hput, hwrote⟩ | ⟨hsmall, hput⟩
    · left
      rw [bind_ok hput]
      exact ⟨hroom, o', rfl, hwrote⟩
    · right
      rw [bind_error hput]
      exact ⟨hsmall, rfl⟩
  · left
    rw [if_neg hpos, expiration_of_nonpos (Int64.not_lt.mp hpos)]
    refine ⟨Nat.zero_le _, o, ?_, ByteBuffer.wrote_refl o⟩
    rw [SignatureStream.updateSign, ByteBuffer.rest_wrap, List.append_nil]
    rfl

theorem sign_ends {stream : SignatureStream ρ} (hsig : stream.key.sign random stream.data = .ok sig) (o : ByteBuffer) :
    (sig.length ≤ o.remaining ∧ ∃ o', stream.sign random o = .ok () o') ∨
    (o.remaining < sig.length ∧ stream.sign random o = .error (.runtime .bufferOverflow) o) := by
  unfold SignatureStream.sign
  rw [hsig]
  dsimp only
  rcases Nat.lt_or_ge o.remaining sig.length with hsmall | hroom
  · right
    rw [ByteBuffer.put_error hsmall]
    exact ⟨hsmall, rfl⟩
  · left
    obtain ⟨o', hput, -⟩ := ByteBuffer.put_ok hroom
    rw [hput]
    exact ⟨hroom, o', rfl⟩

/-- The stream that signs, once it was updated with all of the message. -/
theorem updated_stream (k : SigningKey ρ) (time : Bytes) (hidden : Option ByteBuffer) (input : ByteBuffer) :
    (((match hidden with
      | none => k.getStream.initSign.updateSign (ByteBuffer.wrap time)
      | some hidden => (k.getStream.initSign.updateSign (ByteBuffer.wrap time)).updateSign hidden).updateSign input).updateSign
        (ByteBuffer.wrap FORMAT_BYTES)) = { key := k, data := time ++ hiddenBytes hidden ++ input.rest ++ [0] } := by
  cases hidden <;> simp [SignatureStream.updateSign, SignatureStream.initSign, SigningKey.getStream, FORMAT_BYTES, hiddenBytes]

/-- Behind the check of the space, a signature is written when there is room for it; else one of the three puts overflows. -/
theorem signWith_ends (output : ByteBuffer)
    (hsig : k.sign random (expiration expirationTime ++ hiddenBytes hidden ++ input.rest ++ [0]) = .ok sig) :
    ((signature k expirationTime sig).length ≤ output.remaining ∧
      ∃ o, signWith random k input hidden expirationTime output = .ok () o) ∨
    (output.remaining < (signature k expirationTime sig).length ∧
      ∃ o, signWith random k input hidden expirationTime output = .error (.runtime .bufferOverflow) o) := by
  have hset : (modify ByteBuffer.setMark : EStateM Exception ByteBuffer Unit) output = .ok () output.setMark := rfl
  have hremaining : output.setMark.remaining = output.remaining := rfl
  have hstream := updated_stream k (expiration expirationTime) hidden input
  have hdata : SigningKey.sign (SignatureStream.mk k (expiration expirationTime ++ hiddenBytes hidden ++ input.rest ++ [0])).key random
      (SignatureStream.mk k (expiration expirationTime ++ hiddenBytes hidden ++ input.rest ++ [0])).data = .ok sig := hsig
  rw [length_signature]
  unfold signWith
  rw [bind_ok hset]
  rcases put_ends (FORMAT_BYTES ++ k.hash) output.setMark with ⟨hheader, o₁, hput, hwrote₁⟩ | ⟨hheader, hput⟩
  · have hremaining₁ := hwrote₁.remaining_eq
    rw [length_header, hremaining] at hremaining₁ hheader
    rw [bind_ok hput]
    rcases putExpiration_ends k.getStream.initSign expirationTime o₁ with ⟨htime, o₂, hput', hwrote₂⟩ | ⟨htime, hput'⟩
    · have hremaining₂ := hwrote₂.remaining_eq
      rw [bind_ok hput']
      rcases sign_ends hdata o₂ with ⟨hroom, o₃, hsign⟩ | ⟨hroom, hsign⟩
      · left
        refine ⟨by omega, o₃.limitHere, ?_⟩
        exact bind_ok ((congrArg (fun stream => SignatureStream.sign stream random o₂) hstream).trans hsign)
      · right
        refine ⟨by omega, o₂, ?_⟩
        exact bind_error ((congrArg (fun stream => SignatureStream.sign stream random o₂) hstream).trans hsign)
    · right
      exact ⟨by omega, o₁, bind_error hput'⟩
  · right
    rw [length_header, hremaining] at hheader
    exact ⟨by omega, output.setMark, bind_error hput⟩

/-! ## What is promised of an output -/

/-- What is promised of an output: too little room in it is noticed before anything is written; else the signature is written from the
position on, the limit is at its end, and no other byte is changed. -/
structure RespectsOutput (z : SigningKeyczar ρ) (random : ρ) (input : ByteBuffer) (hidden : Option ByteBuffer) (expirationTime : Int64)
    (k : SigningKey ρ) (sig : Bytes) (output : ByteBuffer) : Prop where
  tooSmall : output.remaining < spaceNeeded k expirationTime →
    ∃ o, signBuffer z random input hidden expirationTime output = .error (.keyczar .shortBuffer) o ∧ o.content = output.content ∧
      o.position = output.position ∧ o.limit = output.limit
  fits : spaceNeeded k expirationTime ≤ output.remaining →
    ∃ o, signBuffer z random input hidden expirationTime output = .ok () o ∧
      o.content = overwrite output.content output.position (signature k expirationTime sig) ∧
      o.position = output.position + (signature k expirationTime sig).length ∧ o.limit = o.position

/-- The check is on the capacity: behind it, the call is as the puts end. -/
theorem signBuffer_of_key (hk : z.getPrimaryKey = some k) :
    signBuffer z random input hidden expirationTime output =
      if output.capacity < spaceNeeded k expirationTime then .error (.keyczar .shortBuffer) output
      else signWith random k input hidden expirationTime output := by
  unfold signBuffer
  rw [hk]
  rfl

/-- An output is respected exactly when it has room for the longest signature, or not even the capacity for it. -/
theorem respectsOutput_iff (hk : z.getPrimaryKey = some k)
    (hsig : k.sign random (expiration expirationTime ++ hiddenBytes hidden ++ input.rest ++ [0]) = .ok sig)
    (hsize : sig.length ≤ k.digestSize) :
    RespectsOutput z random input hidden expirationTime k sig output ↔
      spaceNeeded k expirationTime ≤ output.remaining ∨ output.capacity < spaceNeeded k expirationTime := by
  have hfits : (signature k expirationTime sig).length ≤ spaceNeeded k expirationTime := length_signature_le hsize
  have hcapacity : output.remaining ≤ output.capacity := (Nat.sub_le _ _).trans output.limit_le
  constructor
  · intro h
    rcases Nat.lt_or_ge output.remaining (spaceNeeded k expirationTime) with hsmall | hroom
    · right
      by_contra hnot
      obtain ⟨o, hrun, -⟩ := h.tooSmall hsmall
      rw [signBuffer_of_key hk, if_neg hnot] at hrun
      rcases signWith_ends output hsig with ⟨-, o', hok⟩ | ⟨-, o', herror⟩
      · rw [hok] at hrun
        cases hrun
      · rw [herror] at hrun
        cases hrun
    · left
      exact hroom
  · rintro (hroom | hshort)
    · refine ⟨fun hsmall => absurd hroom (Nat.not_le.mpr hsmall), fun _ => ?_⟩
      rw [signBuffer_of_key hk, if_neg (Nat.not_lt.mpr (hroom.trans hcapacity))]
      rcases signWith_ends output hsig with ⟨-, o, hok⟩ | ⟨hlong, -⟩
      · obtain ⟨sig', hsig', o', rfl, hwrote, -⟩ := signWith_eq_ok hok
        obtain rfl : sig = sig' := Except.ok.inj (hsig.symm.trans hsig')
        exact ⟨o'.limitHere, hok, hwrote.content_eq, hwrote.position_eq, rfl⟩
      · omega
    · refine ⟨fun _ => ?_, fun hroom => ?_⟩
      · rw [signBuffer_of_key hk, if_pos hshort]
        exact ⟨output, rfl, rfl, rfl, rfl⟩
      · omega

/-- An output with bytes of its caller on both sides of the room. -/
theorem respectsOutput_iff_inner_room :
    RespectsOutput (oneMessageSet [2, 1, 0]) () (ByteBuffer.wrap [1]) (some (ByteBuffer.wrap [2])) 0 (oneMessageKey [2, 1, 0])
      (List.replicate 20 7) ⟨List.replicate 40 9, 3, 28, none, by decide, by decide, nofun⟩ :=
  (respectsOutput_iff rfl rfl (by decide)).mpr (.inl (by decide))

/-- Thirty bytes of which ten may be written: the header is written, and the signature overflows. -/
theorem capacity_is_no_room :
    signBuffer (oneMessageSet [1, 0]) () (ByteBuffer.wrap [1]) none 0 ⟨List.replicate 30 9, 0, 10, none, by decide, by decide, nofun⟩ =
      .error (.runtime .bufferOverflow)
        ⟨[0, 1, 2, 3, 4] ++ List.replicate 25 9, 5, 10, some 0, by decide, by decide, by decide⟩ ∧
    ¬ RespectsOutput (oneMessageSet [1, 0]) () (ByteBuffer.wrap [1]) none 0 (oneMessageKey [1, 0]) (List.replicate 20 7)
      ⟨List.replicate 30 9, 0, 10, none, by decide, by decide, nofun⟩ := by
  have hrun : signBuffer (oneMessageSet [1, 0]) () (ByteBuffer.wrap [1]) none 0
      ⟨List.replicate 30 9, 0, 10, none, by decide, by decide, nofun⟩ =
      .error (.runtime .bufferOverflow)
        ⟨[0, 1, 2, 3, 4] ++ List.replicate 25 9, 5, 10, some 0, by decide, by decide, by decide⟩ := rfl
  refine ⟨hrun, ?_⟩
  intro h
  obtain ⟨o, hshort, -⟩ := h.tooSmall (by decide)
  rw [hrun] at hshort
  cases hshort

end Signer

end Java
