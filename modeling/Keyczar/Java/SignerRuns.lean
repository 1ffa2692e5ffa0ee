import Keyczar.Java.Signer
import Keyczar.Lib.Throwing

/-!
# What the signers return and the verifiers check

Each signer returns the header, an expiration time or the data with its length, and what the primary key signs; each verifier cuts its
input into these parts and asks the keys under the hash about the same bytes. The messages that are signed are written out here once:
`SignCall.message`.
-/

namespace Java

open Bytes Throwing

/-! ## `Util` -/

namespace Util

@[simp] theorem length_fromInt (n : Nat) : (fromInt n).length = 4 := rfl

@[simp] theorem length_fromLong (t : Int64) : (fromLong t).length = 8 := rfl

/-- Reading what was written gives the number back. -/
theorem toLong_fromLong (t : Int64) : toLong (fromLong t) = .ok t := by
  have htake : (fromLong t).take 8 = fromLong t := List.take_of_length_le (by simp)
  have hlt : t.toBitVec.toNat < 2 ^ 64 := t.toBitVec.isLt
  unfold toLong
  rw [htake, fromLong, readBe64_be64, Nat.mod_eq_of_lt hlt]
  simp [Int64.ofNat]

theorem allocate_of_lt {size : Nat} (h : size < 2 ^ 31) : allocate size = .ok (ByteBuffer.allocate size) := by
  rw [allocate, toInt32_of_lt h, if_neg (Int.not_lt.mpr (Int.natCast_nonneg _)), Int.toNat_natCast]

/-- What fills a new buffer is its content. -/
theorem content_of_wrote {n : Nat} {w : Bytes} {b : ByteBuffer} (h : (ByteBuffer.allocate n).Wrote w b) (hn : n ≤ w.length) :
    b.content = w := by
  have hlength : (ByteBuffer.allocate n).content.length = n := by simp [ByteBuffer.allocate, ByteBuffer.wrap]
  have hposition : (ByteBuffer.allocate n).position = 0 := rfl
  have hcontent := h.content_eq
  rw [hposition, overwrite, List.take_zero, List.nil_append, Nat.zero_add, List.drop_of_length_le (by omega), List.append_nil]
    at hcontent
  exact hcontent

/-- A length that an `int` holds is put in front. -/
theorem lenPrefix_of_lt {data : Bytes} (h : 4 + data.length < 2 ^ 31) : lenPrefix data = .ok (be32 data.length ++ data) := by
  by_cases hdata : data.length = 0
  · rw [lenPrefix, if_pos hdata, List.eq_nil_of_length_eq_zero hdata]
    simp [fromInt]
  · obtain ⟨b, hb, hwrote⟩ := ByteBuffer.put_ok (b := ByteBuffer.allocate (4 + data.length)) (w := fromInt data.length)
      (by simp [ByteBuffer.allocate])
    obtain ⟨b', hb', hwrote'⟩ := ByteBuffer.put_ok (b := b) (w := data)
      (by rw [hwrote.remaining_eq]; simp [ByteBuffer.allocate])
    have hcontent := content_of_wrote (hwrote.trans hwrote') (by simp)
    rw [lenPrefix, if_neg hdata, allocate_of_lt h]
    simp only [hb, hb', bind, Except.bind, pure, Except.pure, hcontent]
    rw [fromInt]

/-- What is put in front is the length. -/
theorem lenPrefix_eq_ok {data result : Bytes} (h : lenPrefix data = .ok result) : result = be32 data.length ++ data := by
  by_cases hdata : data.length = 0
  · rw [lenPrefix, if_pos hdata] at h
    rw [← Except.ok.inj h, List.eq_nil_of_length_eq_zero hdata]
    simp [fromInt]
  · rw [lenPrefix, if_neg hdata, allocate] at h
    split at h
    · cases h
    · rw [Throwing.ok_bind] at h
      obtain ⟨b, hb, h⟩ := Throwing.ok_of_bind h
      obtain ⟨b', hb', h⟩ := Throwing.ok_of_bind h
      have hwrote := (ByteBuffer.wrote_of_put hb).trans (ByteBuffer.wrote_of_put hb')
      have hle : toInt32 ((4 + data.length : Nat) : Int) ≤ (4 + data.length : Nat) := by
        unfold toInt32
        rw [Int.bmod_def]
        split <;> omega
      have hcontent := content_of_wrote hwrote (by
        rw [List.length_append, length_fromInt]
        omega)
      rw [← Except.ok.inj h, hcontent, fromInt]

/-- Only a length that an `int` holds with four more is put in front. -/
theorem lt_of_lenPrefix {data result : Bytes} (hpos : 0 < data.length) (h : lenPrefix data = .ok result) :
    4 + data.length < 2 ^ 31 := by
  rw [lenPrefix, if_neg (Nat.ne_of_gt hpos), allocate] at h
  have hlt : toInt32 ((4 + data.length : Nat) : Int) < 2 ^ 31 := by
    unfold toInt32
    rw [Int.bmod_def]
    split <;> omega
  split at h
  · cases h
  · rw [Throwing.ok_bind] at h
    obtain ⟨b, hb, h⟩ := Throwing.ok_of_bind h
    obtain ⟨b', hb', h⟩ := Throwing.ok_of_bind h
    have hfits := ((ByteBuffer.wrote_of_put hb).trans (ByteBuffer.wrote_of_put hb')).length_le
    rw [ByteBuffer.allocate, ByteBuffer.remaining_wrap, List.length_replicate, List.length_append, length_fromInt] at hfits
    omega

/-- A length from `2 ^ 31 - 4` on overflows. -/
theorem lenPrefix_of_large {data : Bytes} (h : 2 ^ 31 ≤ 4 + data.length) (h' : data.length < 2 ^ 31) :
    lenPrefix data = .error .illegalArgument := by
  have hdata : data.length ≠ 0 := by omega
  have hneg := toInt32_neg h (by omega)
  rw [lenPrefix, if_neg hdata, allocate, if_pos hneg]
  rfl

/-- The lengths are added up to their sum, as an `int`. -/
theorem toInt32_foldl (arrays : List Bytes) (n : Nat) (h : n + arrays.flatten.length < 2 ^ 31) :
    arrays.foldl (fun length array => toInt32 (length + array.length)) (n : Int) = (n + arrays.flatten.length : Nat) := by
  induction arrays generalizing n with
  | nil => simp
  | cons array arrays ih =>
    rw [List.flatten_cons, List.length_append] at h ⊢
    have hstep : toInt32 ((n : Int) + array.length) = (n + array.length : Nat) := by
      rw [← Nat.cast_add]
      exact toInt32_of_lt (by omega)
    rw [List.foldl_cons, hstep, ih _ (by omega), Nat.add_assoc]

theorem cat_of_lt {arrays : List Bytes} (h : arrays.flatten.length < 2 ^ 31) : cat arrays = .ok arrays.flatten := by
  have hsum := toInt32_foldl arrays 0 (by omega)
  rw [Nat.zero_add, Nat.cast_zero] at hsum
  simp only [cat, hsum]
  rw [if_neg (by omega), if_neg (by omega)]

/-- What is returned holds the arrays one after another. -/
theorem cat_eq_ok {arrays : List Bytes} {result : Bytes} (h : cat arrays = .ok result) : result = arrays.flatten := by
  simp only [cat] at h
  split at h
  · cases h
  · split at h
    · cases h
    · exact (Except.ok.inj h).symm

end Util

variable {ρ : Type}

/-! ## An output that is filled from its start -/

/-- A new buffer, marked at its start, into which `w` was put. -/
structure Filled (n : Nat) (w : Bytes) (output : ByteBuffer) : Prop where
  wrote : (ByteBuffer.allocate n).Wrote w output
  mark_eq : output.mark = some 0

theorem filled_setMark (n : Nat) : Filled n [] (ByteBuffer.allocate n).setMark :=
  ⟨ByteBuffer.wrote_nil rfl rfl rfl, rfl⟩

theorem Filled.remaining_eq {n : Nat} {w : Bytes} {output : ByteBuffer} (h : Filled n w output) :
    output.remaining = n - w.length := by
  rw [h.wrote.remaining_eq]
  simp [ByteBuffer.allocate]

theorem Filled.of_put {n : Nat} {w v : Bytes} {output output' : ByteBuffer} (h : Filled n w output)
    (hput : output.put v = .ok output') : Filled n (w ++ v) output' :=
  ⟨h.wrote.trans (ByteBuffer.wrote_of_put hput), (ByteBuffer.mark_of_put hput).trans h.mark_eq⟩

/-- More is put where it fits. -/
theorem Filled.put {n : Nat} {w v : Bytes} {output : ByteBuffer} (h : Filled n w output) (hfits : w.length + v.length ≤ n) :
    ∃ output', output.put v = .ok output' ∧ Filled n (w ++ v) output' := by
  obtain ⟨output', hput, -⟩ := ByteBuffer.put_ok (b := output) (w := v) (by rw [h.remaining_eq]; omega)
  exact ⟨output', hput, h.of_put hput⟩

/-- What is in front of the position is what was put. -/
theorem Filled.take_position {n : Nat} {w : Bytes} {output : ByteBuffer} (h : Filled n w output) :
    output.content.take output.position = w := by
  rw [h.wrote.take_position]
  rfl

/-- What was put is what is read back, once the limit is at the position. -/
theorem Filled.sinceMark {n : Nat} {w : Bytes} {output : ByteBuffer} (h : Filled n w output) :
    Signer.sinceMark (.ok () output.limitHere) = .ok w := by
  have hposition : (ByteBuffer.allocate n).position = 0 := rfl
  have hcontent : output.limitHere.content = overwrite (ByteBuffer.allocate n).content (ByteBuffer.allocate n).position w :=
    h.wrote.content_eq
  obtain ⟨o', o'', hreset, hget⟩ := ByteBuffer.get_of_reset hposition hcontent h.wrote.position_eq rfl h.mark_eq
  simp only [Signer.sinceMark, hreset, hget]

/-! ## The calls of a signer -/

/-- A call of a signer. -/
inductive SignCall where
  | sign (data : Bytes)
  | timeoutSign (data : Bytes) (expirationTime : Int64)
  | attachedSign (data hidden : Bytes)
  deriving DecidableEq

/-- What is signed and written of an expiration time: nothing when it is not positive. -/
def expiration (expirationTime : Int64) : Bytes := if 0 < expirationTime then Util.fromLong expirationTime else []

namespace SignCall

/-- The call on a key set. -/
def run (z : SigningKeyczar ρ) (random : ρ) : SignCall → Except Exception Bytes
  | .sign data => Signer.sign z random data
  | .timeoutSign data expirationTime => TimeoutSigner.timeoutSign z random data expirationTime
  | .attachedSign data hidden => Signer.attachedSign z random data hidden

/-- The bytes that the call asks the key to sign. -/
def message : SignCall → Bytes
  | .sign data => data ++ [0]
  | .timeoutSign data expirationTime => expiration expirationTime ++ data ++ [0]
  | .attachedSign data hidden => data ++ (be32 hidden.length ++ hidden) ++ [0]

/-- What the call returns, with the hash of the key and its signature. -/
def output (hash sig : Bytes) : SignCall → Bytes
  | .sign _ => [0] ++ hash ++ sig
  | .timeoutSign _ expirationTime => [0] ++ hash ++ expiration expirationTime ++ sig
  | .attachedSign data _ => [0] ++ hash ++ (be32 data.length ++ data) ++ sig

end SignCall

namespace Signer

theorem put_filled {n : Nat} {w v : Bytes} {output : ByteBuffer} (h : Filled n w output) (hfits : w.length + v.length ≤ n) :
    ∃ output', put v output = .ok () output' ∧ Filled n (w ++ v) output' := by
  obtain ⟨output', hput, hfilled⟩ := h.put hfits
  exact ⟨output', by simp only [put, hput], hfilled⟩

theorem putExpiration_filled {n : Nat} {w : Bytes} {output : ByteBuffer} (h : Filled n w output) (stream : SignatureStream ρ)
    (expirationTime : Int64) (hfits : w.length + (expiration expirationTime).length ≤ n) :
    ∃ output', putExpiration stream expirationTime output =
        .ok (stream.updateSign (ByteBuffer.wrap (expiration expirationTime))) output' ∧
      Filled n (w ++ expiration expirationTime) output' := by
  by_cases hpos : 0 < expirationTime
  · rw [expiration, if_pos hpos] at hfits ⊢
    obtain ⟨output', hput, hfilled⟩ := put_filled h hfits
    refine ⟨output', ?_, hfilled⟩
    rw [putExpiration, if_pos hpos, bind_ok hput]
    rfl
  · rw [expiration, if_neg hpos, List.append_nil]
    refine ⟨output, ?_, h⟩
    rw [putExpiration, if_neg hpos]
    simp [SignatureStream.updateSign, pure, EStateM.pure]

/-- The stream puts what the key signs, where it fits. -/
theorem sign_filled {n : Nat} {w : Bytes} {output : ByteBuffer} (h : Filled n w output) (stream : SignatureStream ρ) (random : ρ) :
    (∃ e, stream.sign random output = .error e output ∧
      ∀ sig, stream.key.sign random stream.data = .ok sig → n < w.length + sig.length) ∨
    ∃ sig output', stream.key.sign random stream.data = .ok sig ∧ stream.sign random output = .ok () output' ∧
      Filled n (w ++ sig) output' := by
  unfold SignatureStream.sign
  cases hsign : stream.key.sign random stream.data with
  | error e =>
    left
    exact ⟨.keyczar e, rfl, nofun⟩
  | ok sig =>
    cases hput : output.put sig with
    | error e =>
      left
      refine ⟨.runtime e, by simp only [hput], ?_⟩
      intro sig' hsig'
      cases hsig'
      by_contra hfits
      obtain ⟨output', hput', -⟩ := h.put (Nat.le_of_not_lt hfits)
      rw [hput] at hput'
      cases hput'
    | ok output' =>
      right
      exact ⟨sig, output', rfl, by simp only [hput], h.of_put hput⟩

/-- A signature written to a new buffer that has room for the header and the expiration time. -/
theorem signWith_cases (random : ρ) (k : SigningKey ρ) (input : Bytes) (expirationTime : Int64) {n : Nat}
    (hn : 5 + (expiration expirationTime).length ≤ n) :
    (∃ e, sinceMark (signWith random k (ByteBuffer.wrap input) none expirationTime (ByteBuffer.allocate n)) = .error e ∧
      ∀ sig, k.sign random (expiration expirationTime ++ input ++ [0]) = .ok sig →
        n < 5 + (expiration expirationTime).length + sig.length) ∨
    ∃ sig, k.sign random (expiration expirationTime ++ input ++ [0]) = .ok sig ∧
      sinceMark (signWith random k (ByteBuffer.wrap input) none expirationTime (ByteBuffer.allocate n)) =
        .ok ([0] ++ k.hash ++ expiration expirationTime ++ sig) := by
  have hheader : (FORMAT_BYTES ++ k.hash).length = 5 := by rw [List.length_append, k.length_hash]; rfl
  have hmark : (modify ByteBuffer.setMark : EStateM Exception ByteBuffer Unit) (ByteBuffer.allocate n) =
      .ok () (ByteBuffer.allocate n).setMark := rfl
  obtain ⟨o₁, hput₁, h₁⟩ := put_filled (v := FORMAT_BYTES ++ k.hash) (filled_setMark n) (by
    rw [hheader, List.length_nil]
    omega)
  rw [List.nil_append] at h₁
  obtain ⟨o₂, hput₂, h₂⟩ := putExpiration_filled h₁ k.getStream.initSign expirationTime (by rw [hheader]; exact hn)
  have hlength : (FORMAT_BYTES ++ k.hash ++ expiration expirationTime).length = 5 + (expiration expirationTime).length := by
    rw [List.length_append, hheader]
  have hstream : ((k.getStream.initSign.updateSign (ByteBuffer.wrap (expiration expirationTime))).updateSign
      (ByteBuffer.wrap input)).updateSign (ByteBuffer.wrap FORMAT_BYTES) =
        { key := k, data := expiration expirationTime ++ input ++ [0] } := by
    simp [SignatureStream.updateSign, SignatureStream.initSign, SigningKey.getStream, FORMAT_BYTES]
  have hrun : signWith random k (ByteBuffer.wrap input) none expirationTime (ByteBuffer.allocate n) =
      ((SignatureStream.sign { key := k, data := expiration expirationTime ++ input ++ [0] } random >>= fun _ =>
        modify ByteBuffer.limitHere) : EStateM Exception ByteBuffer Unit) o₂ := by
    unfold signWith
    simp only [bind_ok hmark, bind_ok hput₁, bind_ok hput₂, hstream]
  rcases sign_filled h₂ { key := k, data := expiration expirationTime ++ input ++ [0] } random with
    ⟨e, hsign, hlong⟩ | ⟨sig, o₃, hsig, hsign, h₃⟩
  · left
    rw [hlength] at hlong
    refine ⟨e, ?_, hlong⟩
    rw [hrun, bind_error hsign]
    rfl
  · right
    refine ⟨sig, hsig, ?_⟩
    rw [hrun, bind_ok hsign]
    exact h₃.sinceMark

/-- `signBuffer` into a new buffer with the space that is asked for. -/
theorem signBuffer_allocate {z : SigningKeyczar ρ} {k : SigningKey ρ} (hk : z.getPrimaryKey = some k) (random : ρ) (input : Bytes)
    (expirationTime : Int64) {n : Nat} (hn : HEADER_SIZE + k.digestSize + (expiration expirationTime).length ≤ n) :
    signBuffer z random (ByteBuffer.wrap input) none expirationTime (ByteBuffer.allocate n) =
      signWith random k (ByteBuffer.wrap input) none expirationTime (ByteBuffer.allocate n) := by
  have hspace : (expiration expirationTime).length = if 0 < expirationTime then TIMESTAMP_SIZE else 0 := by
    unfold expiration
    split <;> rfl
  have hcapacity : (ByteBuffer.allocate n).capacity = n := by
    simp [ByteBuffer.allocate, ByteBuffer.capacity, ByteBuffer.wrap]
  rw [hspace] at hn
  simp only [signBuffer, hk, hcapacity]
  rw [if_neg (Nat.not_lt.mpr hn)]

/-- How a plain signature or one with an expiration time ends: with an exception, which is not thrown for a signature of the announced
size, or with what the key signed behind the header. -/
theorem sign_cases {z : SigningKeyczar ρ} {k : SigningKey ρ} (hk : z.getPrimaryKey = some k) (random : ρ) (input : Bytes)
    (expirationTime : Int64) {n : Nat} (hn : HEADER_SIZE + k.digestSize + (expiration expirationTime).length ≤ n) :
    (∃ e, sinceMark (signBuffer z random (ByteBuffer.wrap input) none expirationTime (ByteBuffer.allocate n)) = .error e ∧
      ∀ sig, k.sign random (expiration expirationTime ++ input ++ [0]) = .ok sig → k.digestSize < sig.length) ∨
    ∃ sig, k.sign random (expiration expirationTime ++ input ++ [0]) = .ok sig ∧
      sinceMark (signBuffer z random (ByteBuffer.wrap input) none expirationTime (ByteBuffer.allocate n)) =
        .ok ([0] ++ k.hash ++ expiration expirationTime ++ sig) := by
  have hheader : HEADER_SIZE = 5 := rfl
  rw [signBuffer_allocate hk random input expirationTime hn]
  rcases signWith_cases random k input expirationTime (n := n) (by omega) with ⟨e, hrun, hlong⟩ | ⟨sig, hsig, hrun⟩
  · left
    refine ⟨e, hrun, ?_⟩
    intro sig hsig
    have hlt := hlong sig hsig
    omega
  · right
    exact ⟨sig, hsig, hrun⟩

/-- The bytes behind the data of an attached signature. -/
theorem hiddenPlusLength_eq {hidden result : Bytes}
    (h : (if 0 < hidden.length then Util.lenPrefix hidden else .ok (Util.fromInt 0)) = .ok result) :
    result = be32 hidden.length ++ hidden := by
  by_cases hpos : 0 < hidden.length
  · rw [if_pos hpos] at h
    exact Util.lenPrefix_eq_ok h
  · rw [if_neg hpos] at h
    have hnil : hidden = [] := List.eq_nil_of_length_eq_zero (Nat.eq_zero_of_not_pos hpos)
    subst hnil
    exact (Except.ok.inj h).symm

theorem hiddenPlusLength_of_lt {hidden : Bytes} (h : 4 + hidden.length < 2 ^ 31) :
    (if 0 < hidden.length then Util.lenPrefix hidden else .ok (Util.fromInt 0)) = .ok (be32 hidden.length ++ hidden) := by
  by_cases hpos : 0 < hidden.length
  · rw [if_pos hpos, Util.lenPrefix_of_lt h]
  · have hnil : hidden = [] := List.eq_nil_of_length_eq_zero (Nat.eq_zero_of_not_pos hpos)
    subst hnil
    rw [if_neg hpos]
    rfl

/-- The signature of an attached call in a new buffer. -/
theorem attachedSign_eq {z : SigningKeyczar ρ} {k : SigningKey ρ} (hk : z.getPrimaryKey = some k) (random : ρ)
    {blob hidden hiddenPlusLength : Bytes}
    (hhidden : (if 0 < hidden.length then Util.lenPrefix hidden else .ok (Util.fromInt 0)) = .ok hiddenPlusLength) :
    attachedSign z random blob hidden =
      match SignatureStream.sign { key := k, data := blob ++ hiddenPlusLength ++ [0] } random
        (ByteBuffer.allocate k.digestSize).setMark with
      | .error e _ => .error e
      | .ok _ output => (Util.lenPrefix blob).mapError .runtime >>= fun prefixed =>
        (Util.cat [FORMAT_BYTES, k.hash, prefixed, output.content.take output.position]).mapError .runtime := by
  have hstream : ((k.getStream.initSign.updateSign (ByteBuffer.wrap blob)).updateSign (ByteBuffer.wrap hiddenPlusLength)).updateSign
      (ByteBuffer.wrap FORMAT_BYTES) = { key := k, data := blob ++ hiddenPlusLength ++ [0] } := by
    simp [SignatureStream.updateSign, SignatureStream.initSign, SigningKey.getStream, FORMAT_BYTES]
  unfold attachedSign
  rw [hk]
  dsimp only
  cases hsign : SignatureStream.sign { key := k, data := blob ++ hiddenPlusLength ++ [0] } random
      (ByteBuffer.allocate k.digestSize).setMark with
  | error e output => simp only [hhidden, mapError_ok, ok_bind, hstream, hsign]
  | ok _ output => simp only [hhidden, mapError_ok, ok_bind, hstream, hsign]

/-- An attached call that returns has signed its message and laid out the blob. -/
theorem attachedSign_eq_ok {z : SigningKeyczar ρ} {k : SigningKey ρ} (hk : z.getPrimaryKey = some k) {random : ρ}
    {blob hidden result : Bytes} (h : attachedSign z random blob hidden = .ok result) :
    ∃ sig, k.sign random (blob ++ (be32 hidden.length ++ hidden) ++ [0]) = .ok sig ∧
      result = [0] ++ k.hash ++ (be32 blob.length ++ blob) ++ sig := by
  cases hhidden : (if 0 < hidden.length then Util.lenPrefix hidden else .ok (Util.fromInt 0)) with
  | error e =>
    unfold attachedSign at h
    rw [hk] at h
    dsimp only at h
    rw [hhidden, mapError_error, error_bind] at h
    cases h
  | ok hiddenPlusLength =>
    obtain rfl := hiddenPlusLength_eq hhidden
    rw [attachedSign_eq hk random hhidden] at h
    rcases sign_filled (filled_setMark k.digestSize) { key := k, data := blob ++ (be32 hidden.length ++ hidden) ++ [0] } random with
      ⟨e, hsign, -⟩ | ⟨sig, output, hsig, hsign, hfilled⟩
    · rw [hsign] at h
      cases h
    · rw [hsign] at h
      refine ⟨sig, hsig, ?_⟩
      have htake := hfilled.take_position
      rw [List.nil_append] at htake
      dsimp only at h
      rw [htake] at h
      cases hlen : Util.lenPrefix blob with
      | error e =>
        rw [hlen] at h
        cases h
      | ok prefixed =>
        rw [hlen, mapError_ok, ok_bind] at h
        cases hcat : Util.cat [FORMAT_BYTES, k.hash, prefixed, sig] with
        | error e =>
          rw [hcat] at h
          cases h
        | ok bytes =>
          rw [hcat, mapError_ok] at h
          rw [← Except.ok.inj h, Util.cat_eq_ok hcat, Util.lenPrefix_eq_ok hlen]
          simp [FORMAT_BYTES]

/-- An attached call returns when its arrays are no longer than an `int` says and the signature is of the announced size. -/
theorem attachedSign_of_lt {z : SigningKeyczar ρ} {k : SigningKey ρ} (hk : z.getPrimaryKey = some k) {random : ρ}
    {blob hidden sig : Bytes} (hsig : k.sign random (blob ++ (be32 hidden.length ++ hidden) ++ [0]) = .ok sig)
    (hsize : sig.length ≤ k.digestSize) (hhidden : 4 + hidden.length < 2 ^ 31) (hblob : 9 + blob.length + sig.length < 2 ^ 31) :
    attachedSign z random blob hidden = .ok ([0] ++ k.hash ++ (be32 blob.length ++ blob) ++ sig) := by
  have hflatten : [FORMAT_BYTES, k.hash, be32 blob.length ++ blob, sig].flatten =
      [0] ++ k.hash ++ (be32 blob.length ++ blob) ++ sig := by
    simp [FORMAT_BYTES]
  have hlength : [FORMAT_BYTES, k.hash, be32 blob.length ++ blob, sig].flatten.length = 9 + blob.length + sig.length := by
    rw [hflatten]
    simp only [List.length_append, length_be32, k.length_hash, List.length_singleton, KEY_HASH_SIZE]
    omega
  rw [attachedSign_eq hk random (hiddenPlusLength_of_lt hhidden)]
  rcases sign_filled (filled_setMark k.digestSize) { key := k, data := blob ++ (be32 hidden.length ++ hidden) ++ [0] } random with
    ⟨e, -, hlong⟩ | ⟨sig', output, hsig', hsign, hfilled⟩
  · have hlt := hlong sig hsig
    rw [List.length_nil] at hlt
    omega
  · obtain rfl : sig = sig' := Except.ok.inj (hsig.symm.trans hsig')
    have htake := hfilled.take_position
    rw [List.nil_append] at htake
    have hlen : Util.lenPrefix blob = .ok (be32 blob.length ++ blob) := Util.lenPrefix_of_lt (by omega)
    have hcat : Util.cat [FORMAT_BYTES, k.hash, be32 blob.length ++ blob, sig] = .ok _ := Util.cat_of_lt (by omega)
    rw [hsign]
    dsimp only
    rw [htake, hlen, mapError_ok, ok_bind, hcat, mapError_ok, hflatten]

/-- A blob that would be longer than an array is refused. -/
theorem attachedSign_of_large {z : SigningKeyczar ρ} {k : SigningKey ρ} (hk : z.getPrimaryKey = some k) (random : ρ)
    {blob : Bytes} (hblob : 2 ^ 31 ≤ 4 + blob.length) (hblob' : blob.length < 2 ^ 31) (hidden : Bytes) :
    ∃ e, attachedSign z random blob hidden = .error e := by
  have hlen := Util.lenPrefix_of_large hblob hblob'
  cases hhidden : (if 0 < hidden.length then Util.lenPrefix hidden else .ok (Util.fromInt 0)) with
  | error e =>
    refine ⟨.runtime e, ?_⟩
    unfold attachedSign
    rw [hk]
    dsimp only
    rw [hhidden, mapError_error, error_bind]
  | ok hiddenPlusLength =>
    rw [attachedSign_eq hk random hhidden]
    split
    · rename_i e _ _
      exact ⟨e, rfl⟩
    · rw [hlen]
      exact ⟨.runtime .illegalArgument, rfl⟩

end Signer

/-- A call that returns has asked the primary key to sign its message, and nothing else, and returns what is laid out around the
signature. -/
theorem SignCall.run_eq_ok {z : SigningKeyczar ρ} {k : SigningKey ρ} (hk : z.getPrimaryKey = some k) {random : ρ} {c : SignCall}
    {result : Bytes} (h : c.run z random = .ok result) :
    ∃ sig, k.sign random c.message = .ok sig ∧ result = c.output k.hash sig := by
  cases c with
  | sign d =>
    simp only [run, Signer.sign, Signer.digestSize, hk, ok_bind] at h
    have hnone : expiration 0 = [] := by decide
    rcases Signer.sign_cases hk random d 0 (n := Signer.HEADER_SIZE + k.digestSize) (by simp [hnone]) with
      ⟨e, hrun, -⟩ | ⟨sig, hsig, hrun⟩
    · rw [hrun] at h
      cases h
    · rw [hrun] at h
      rw [hnone, List.nil_append] at hsig
      refine ⟨sig, hsig, ?_⟩
      rw [← Except.ok.inj h, hnone, List.append_nil]
      rfl
  | timeoutSign d t =>
    simp only [run, TimeoutSigner.timeoutSign, Signer.digestSize, hk, ok_bind] at h
    have hle : (expiration t).length ≤ Signer.TIMESTAMP_SIZE := by
      unfold expiration
      split <;> simp [Signer.TIMESTAMP_SIZE]
    rcases Signer.sign_cases hk random d t (n := Signer.HEADER_SIZE + k.digestSize + Signer.TIMESTAMP_SIZE)
      (Nat.add_le_add_left hle _) with ⟨e, hrun, -⟩ | ⟨sig, hsig, hrun⟩
    · rw [hrun] at h
      cases h
    · rw [hrun] at h
      exact ⟨sig, hsig, (Except.ok.inj h).symm⟩
  | attachedSign d n => exact Signer.attachedSign_eq_ok hk h

/-! ## What the verifiers check -/

namespace Verifier

open Signer

/-- What is verified: the data, the hidden bytes and the format byte. -/
theorem rawVerify_eq (key : SigningKey ρ) (data signature : ByteBuffer) (hidden : Option ByteBuffer) :
    rawVerify key data hidden signature = key.verify (data.rest ++ (hidden.map ByteBuffer.rest).getD [] ++ [0]) signature.rest := by
  cases hidden with
  | none =>
    simp [rawVerify, SignatureStream.verify, SignatureStream.updateVerify, SignatureStream.initVerify, SigningKey.getStream, FORMAT_BYTES]
  | some hidden =>
    simp [rawVerify, SignatureStream.verify, SignatureStream.updateVerify, SignatureStream.initVerify, SigningKey.getStream, FORMAT_BYTES]

/-- The loop answers that some key verifies the signature. -/
theorem verifyKeys_iff {data signature : ByteBuffer} {hidden : Option ByteBuffer} {keys : List (SigningKey ρ)} :
    verifyKeys data hidden signature keys = true ↔
      ∃ key ∈ keys, key.verify (data.rest ++ (hidden.map ByteBuffer.rest).getD [] ++ [0]) signature.rest = .ok true := by
  induction keys with
  | nil => simp [verifyKeys]
  | cons key keys ih =>
    rw [verifyKeys, rawVerify_eq]
    split
    · rename_i h
      exact ⟨fun _ => ⟨key, List.mem_cons_self .., h⟩, fun _ => rfl⟩
    · rename_i h
      rw [ih, List.exists_mem_cons_iff, or_iff_right h]

theorem getVerifyingKey_eq_ok {z : SigningKeyczar ρ} {hash : Bytes} {keys : List (SigningKey ρ)}
    (h : getVerifyingKey z hash = .ok keys) : keys = z.getKey hash := by
  unfold getVerifyingKey at h
  split at h
  · cases h
  · exact (Except.ok.inj h).symm

theorem getVerifyingKey_of_mem {z : SigningKeyczar ρ} {hash : Bytes} {key : SigningKey ρ} (h : key ∈ z.getKey hash) :
    getVerifyingKey z hash = .ok (z.getKey hash) := by
  unfold getVerifyingKey
  cases hkeys : z.getKey hash with
  | nil =>
    rw [hkeys] at h
    cases h
  | cons key' keys => rfl

/-- The header is cut off. -/
theorem checkFormatAndGetHash_append {b : ByteBuffer} {hash rest : Bytes} (hhash : hash.length = KEY_HASH_SIZE)
    (h : b.rest = [0] ++ hash ++ rest) : ∃ b', checkFormatAndGetHash b = .ok (hash, b') ∧ b'.rest = rest := by
  rw [List.append_assoc] at h
  obtain ⟨b₁, hget₁, h₁⟩ := ByteBuffer.get_append h (n := 1) rfl
  obtain ⟨b₂, hget₂, h₂⟩ := ByteBuffer.get_append h₁ hhash
  refine ⟨b₂, ?_, h₂⟩
  unfold checkFormatAndGetHash
  rw [hget₁, mapError_ok, ok_bind]
  dsimp only
  rw [if_neg (not_not_intro (show ([0] : Bytes) = FORMAT_BYTES from rfl)), hget₂, mapError_ok]

theorem not_remaining_lt_header {signature : ByteBuffer} {hash sig : Bytes} (hhash : hash.length = KEY_HASH_SIZE)
    (h : signature.rest = [0] ++ hash ++ sig) : ¬ signature.remaining < Signer.HEADER_SIZE := by
  rw [← ByteBuffer.length_rest, h, List.length_append, List.length_append, hhash]
  show ¬ 1 + 4 + sig.length < 5
  omega

/-- How a signature with a header is verified. -/
theorem verifyBuffer_layout {z : SigningKeyczar ρ} (data : ByteBuffer) {signature : ByteBuffer} (hidden : Option ByteBuffer)
    {hash sig : Bytes} (hhash : hash.length = KEY_HASH_SIZE) (h : signature.rest = [0] ++ hash ++ sig) {key : SigningKey ρ}
    (hkey : key ∈ z.getKey hash) :
    ∃ b, verifyBuffer z data hidden signature = .ok b ∧
      (b = true ↔ ∃ key ∈ z.getKey hash, key.verify (data.rest ++ (hidden.map ByteBuffer.rest).getD [] ++ [0]) sig = .ok true) := by
  obtain ⟨b, hformat, hrest⟩ := checkFormatAndGetHash_append hhash h
  refine ⟨verifyKeys data hidden b (z.getKey hash), ?_, ?_⟩
  · unfold verifyBuffer
    rw [if_neg (not_remaining_lt_header hhash h), hformat, ok_bind]
    dsimp only
    rw [getVerifyingKey_of_mem hkey]
    rfl
  · rw [verifyKeys_iff, hrest]

/-- Without a key under the hash. -/
theorem verifyBuffer_of_no_key {z : SigningKeyczar ρ} (data : ByteBuffer) {signature : ByteBuffer} (hidden : Option ByteBuffer)
    {hash sig : Bytes} (hhash : hash.length = KEY_HASH_SIZE) (h : signature.rest = [0] ++ hash ++ sig) (hnone : z.getKey hash = []) :
    verifyBuffer z data hidden signature = .error (.keyczar (.keyNotFound hash)) := by
  obtain ⟨b, hformat, -⟩ := checkFormatAndGetHash_append hhash h
  unfold verifyBuffer
  rw [if_neg (not_remaining_lt_header hhash h), hformat, ok_bind]
  dsimp only
  rw [getVerifyingKey, hnone]
  rfl

/-- A blob is cut off behind its length. -/
theorem getBlob_append {b : ByteBuffer} {blob rest : Bytes} (hblob : blob.length < 2 ^ 31)
    (h : b.rest = be32 blob.length ++ blob ++ rest) : ∃ b', getBlob b = .ok (blob, b') ∧ b'.rest = rest := by
  rw [List.append_assoc] at h
  obtain ⟨b₁, hget₁, h₁⟩ := ByteBuffer.get_append h (length_be32 _)
  obtain ⟨b₂, hget₂, h₂⟩ := ByteBuffer.get_append h₁ rfl
  have hread : int32 ((readBe32 (be32 blob.length)).getD 0) = blob.length := by
    rw [readBe32_be32, Option.getD_some, Nat.mod_eq_of_lt (by omega), int32_of_lt hblob]
  have hint : getInt b = .ok ((blob.length : Int), b₁) := by
    unfold getInt
    rw [hget₁]
    dsimp only
    rw [hread]
  refine ⟨b₂, ?_, h₂⟩
  unfold getBlob
  rw [hint, ok_bind]
  dsimp only
  rw [if_neg (Int.not_lt.mpr (Int.natCast_nonneg _)), Int.toNat_natCast, hget₂, mapError_ok]

/-- How a blob of the right layout is verified. -/
theorem attachedVerify_layout {z : SigningKeyczar ρ} {hash data : Bytes} (hhash : hash.length = KEY_HASH_SIZE)
    (hdata : data.length < 2 ^ 31) {keys : List (SigningKey ρ)} (hkeys : getVerifyingKey z hash = .ok keys) (sig hidden : Bytes) :
    attachedVerify z ([0] ++ hash ++ (be32 data.length ++ data) ++ sig) hidden =
      (if 0 < hidden.length then Util.lenPrefix hidden else .ok (Util.fromInt 0)).mapError .runtime >>= fun hiddenPlusLength =>
        .ok (verifyKeys (ByteBuffer.wrap data) (some (ByteBuffer.wrap hiddenPlusLength)) (ByteBuffer.wrap sig) keys) := by
  have hrest : (ByteBuffer.wrap ([0] ++ hash ++ (be32 data.length ++ data) ++ sig)).rest =
      [0] ++ hash ++ (be32 data.length ++ data ++ sig) := by
    rw [ByteBuffer.rest_wrap, List.append_assoc ([0] ++ hash)]
  obtain ⟨b₁, hformat, h₁⟩ := checkFormatAndGetHash_append hhash hrest
  obtain ⟨b₂, hblob, h₂⟩ := getBlob_append hdata h₁
  have hremaining : sig.length = b₂.remaining := by rw [← ByteBuffer.length_rest, h₂]
  obtain ⟨b₃, hget, -⟩ := ByteBuffer.get_append (y := []) (by rw [h₂, List.append_nil]) hremaining
  unfold attachedVerify
  rw [hformat, ok_bind]
  dsimp only
  rw [hblob, ok_bind]
  dsimp only
  rw [hget, mapError_ok, ok_bind]
  dsimp only
  rw [hkeys]
  rfl

/-- It carries its data. -/
theorem getAttachedDataWithoutVerifying_layout {z : SigningKeyczar ρ} {hash data : Bytes} (hhash : hash.length = KEY_HASH_SIZE)
    (hdata : data.length < 2 ^ 31) {keys : List (SigningKey ρ)} (hkeys : getVerifyingKey z hash = .ok keys) (sig : Bytes) :
    getAttachedDataWithoutVerifying z ([0] ++ hash ++ (be32 data.length ++ data) ++ sig) = .ok data := by
  have hrest : (ByteBuffer.wrap ([0] ++ hash ++ (be32 data.length ++ data) ++ sig)).rest =
      [0] ++ hash ++ (be32 data.length ++ data ++ sig) := by
    rw [ByteBuffer.rest_wrap, List.append_assoc ([0] ++ hash)]
  obtain ⟨b₁, hformat, h₁⟩ := checkFormatAndGetHash_append hhash hrest
  obtain ⟨b₂, hblob, -⟩ := getBlob_append hdata h₁
  unfold getAttachedDataWithoutVerifying
  rw [hformat, ok_bind]
  dsimp only
  rw [hkeys, ok_bind, hblob]
  rfl

/-- A plain signature that is accepted is one that some key verifies over the data. -/
theorem verifyBuffer_eq_ok {z : SigningKeyczar ρ} {data signature : ByteBuffer} {hidden : Option ByteBuffer}
    (h : verifyBuffer z data hidden signature = .ok true) :
    ∃ hash, ∃ key ∈ z.getKey hash, ∃ sig,
      key.verify (data.rest ++ (hidden.map ByteBuffer.rest).getD [] ++ [0]) sig = .ok true := by
  unfold verifyBuffer at h
  split at h
  · cases h
  · obtain ⟨⟨hash, b⟩, -, h⟩ := ok_of_bind h
    obtain ⟨keys, hkeys, h⟩ := ok_of_bind h
    have hverify := Except.ok.inj h
    obtain ⟨key, hkey, hsig⟩ := verifyKeys_iff.mp hverify
    rw [getVerifyingKey_eq_ok hkeys] at hkey
    exact ⟨hash, key, hkey, _, hsig⟩

/-- An attached signature that is accepted is one that some key verifies over the data it carries and the hidden bytes. -/
theorem attachedVerify_eq_ok {z : SigningKeyczar ρ} {signedBlob hidden data : Bytes}
    (h : attachedVerify z signedBlob hidden = .ok true) (hdata : getAttachedDataWithoutVerifying z signedBlob = .ok data) :
    ∃ hash, ∃ key ∈ z.getKey hash, ∃ sig,
      key.verify (data ++ (be32 hidden.length ++ hidden) ++ [0]) sig = .ok true := by
  unfold attachedVerify at h
  unfold getAttachedDataWithoutVerifying at hdata
  obtain ⟨⟨hash, b⟩, hformat, h⟩ := ok_of_bind h
  rw [hformat, ok_bind] at hdata
  obtain ⟨⟨blob, b'⟩, hblob, h⟩ := ok_of_bind h
  obtain ⟨⟨sig, b''⟩, -, h⟩ := ok_of_bind h
  obtain ⟨hiddenPlusLength, hhidden, h⟩ := ok_of_bind h
  obtain ⟨keys, hkeys, h⟩ := ok_of_bind h
  obtain ⟨-, -, hdata⟩ := ok_of_bind hdata
  rw [hblob, ok_bind] at hdata
  obtain rfl : blob = data := Except.ok.inj hdata
  have hhidden' : (if 0 < hidden.length then Util.lenPrefix hidden else .ok (Util.fromInt 0)) = .ok hiddenPlusLength := by
    cases hx : (if 0 < hidden.length then Util.lenPrefix hidden else .ok (Util.fromInt 0)) with
    | error e =>
      rw [hx] at hhidden
      cases hhidden
    | ok x =>
      rw [hx] at hhidden
      exact congrArg Except.ok (Except.ok.inj hhidden)
  obtain rfl := hiddenPlusLength_eq hhidden'
  obtain ⟨key, hkey, hsig⟩ := verifyKeys_iff.mp (Except.ok.inj h)
  rw [getVerifyingKey_eq_ok hkeys] at hkey
  refine ⟨hash, key, hkey, sig, ?_⟩
  simpa using hsig

end Verifier

namespace TimeoutVerifier

open Signer

theorem allocate_eq_ok {size : Nat} {b : ByteBuffer} (h : Util.allocate size = .ok b) :
    ∃ n ≤ size, b = ByteBuffer.allocate n := by
  unfold Util.allocate at h
  split at h
  · cases h
  · refine ⟨(toInt32 size).toNat, ?_, (Except.ok.inj h).symm⟩
    unfold toInt32
    rw [Int.bmod_def]
    split <;> omega

/-- Two strings put into a buffer of their size, read from the start. -/
theorem rest_of_puts {n : Nat} {x y : Bytes} {b b' : ByteBuffer} (hn : n ≤ x.length + y.length)
    (hput : (ByteBuffer.allocate n).put x = .ok b) (hput' : b.put y = .ok b') : b'.rewind.rest = x ++ y := by
  have hwrote := (ByteBuffer.wrote_of_put hput).trans (ByteBuffer.wrote_of_put hput')
  have hcontent := Util.content_of_wrote hwrote (by rw [List.length_append]; exact hn)
  have hle := hwrote.length_le
  have hlimit : b'.rewind.limit = n := by
    rw [ByteBuffer.rewind, hwrote.limit_eq]
    simp [ByteBuffer.allocate, ByteBuffer.wrap]
  rw [ByteBuffer.allocate, ByteBuffer.remaining_wrap, List.length_replicate] at hle
  have hrest : b'.rewind.rest = (b'.content.take n).drop 0 := by
    rw [ByteBuffer.rest, hlimit]
    rfl
  rw [hrest, hcontent, List.drop_zero, List.take_of_length_le hle]

/-- A signature with an expiration time that is accepted is one that some key verifies over the timestamp behind the header, which has
not passed, and the data. -/
theorem verify_eq_ok {z : SigningKeyczar ρ} {now : Int64} {data signature : Bytes} (h : verify z now data signature = .ok true) :
    ((signature.drop 5).take 8).length = 8 ∧
    ∃ expirationTime, Util.toLong ((signature.drop 5).take 8) = .ok expirationTime ∧ ¬ expirationTime < now ∧
      ∃ hash, ∃ key ∈ z.getKey hash, ∃ sig, key.verify ((signature.drop 5).take 8 ++ data ++ [0]) sig = .ok true := by
  unfold verify verifyBuffer at h
  split at h
  · cases h
  · obtain ⟨⟨header, b₁⟩, hheader, h⟩ := ok_of_bind h
    obtain ⟨⟨timestamp, b₂⟩, htimestamp, h⟩ := ok_of_bind h
    obtain ⟨expirationTime, hexpiration, h⟩ := ok_of_bind h
    obtain ⟨-, hrest₁, -⟩ := ByteBuffer.get_eq_ok (mapError_eq_ok_iff.mp hheader)
    obtain ⟨htimestamp, -, hlength⟩ := ByteBuffer.get_eq_ok (mapError_eq_ok_iff.mp htimestamp)
    have htake : timestamp = (signature.drop 5).take 8 := by
      rw [htimestamp, hrest₁, ByteBuffer.rest_wrap]
      rfl
    have hlen : timestamp.length = 8 := by
      rw [htimestamp, List.length_take, ByteBuffer.length_rest]
      exact Nat.min_eq_left hlength
    rw [← htake]
    refine ⟨hlen, expirationTime, mapError_eq_ok_iff.mp hexpiration, ?_⟩
    split at h
    · cases h
    · rename_i hnow
      refine ⟨hnow, ?_⟩
      obtain ⟨s₁, -, h⟩ := ok_of_bind h
      obtain ⟨s₂, -, h⟩ := ok_of_bind h
      obtain ⟨s₃, -, h⟩ := ok_of_bind h
      obtain ⟨d₁, hd₁, h⟩ := ok_of_bind h
      obtain ⟨d₂, hd₂, h⟩ := ok_of_bind h
      obtain ⟨d₃, hd₃, h⟩ := ok_of_bind h
      obtain ⟨n, hn, heq⟩ := allocate_eq_ok (mapError_eq_ok_iff.mp hd₁)
      rw [ByteBuffer.remaining_wrap] at hn
      rw [heq] at hd₂
      have hrest := rest_of_puts (y := (ByteBuffer.wrap data).rest) (by
        rw [hlen, ByteBuffer.rest_wrap]
        exact hn) (mapError_eq_ok_iff.mp hd₂) (mapError_eq_ok_iff.mp hd₃)
      obtain ⟨hash, key, hkey, sig, hsig⟩ := Verifier.verifyBuffer_eq_ok h
      refine ⟨hash, key, hkey, sig, ?_⟩
      rw [hrest, ByteBuffer.rest_wrap] at hsig
      simpa using hsig

end TimeoutVerifier

end Java
