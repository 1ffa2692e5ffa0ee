import Keyczar.Java.SignerRuns
import Keyczar.Java.VerifyingStreams

/-!
# What is verified of a DSA signature

The stream of a DSA key copies a signature out of the array of its buffer. Unless verification is strict it cuts the copy behind the
DER sequence that it begins with, so that extra bytes of older versions are ignored. It reads the tag and the length without asking
whether they are there: a copy that ends before them throws.
-/

namespace Java

open Bytes Throwing

@[simp] theorem subArray_zero (array : Bytes) (len : Nat) : subArray array 0 len = array.take len := rfl

/-- An algorithm that accepts every key, and signatures whatever the message is. -/
def SignatureAlgorithm.accepting {κ : Type} (accepts : Bytes → Bool) : SignatureAlgorithm κ where
  initVerify _ := .ok ()
  verify _ _ sig := .ok (accepts sig)

namespace View

/-- The bytes that are taken of the array, from the position on. -/
def taken (v : View) : Except RuntimeException Bytes := do
  let array ← v.array
  return subArray array v.buffer.position (v.buffer.limit - v.buffer.position)

theorem length_of_taken {v : View} {w : Bytes} (h : v.taken = .ok w) : w.length = v.buffer.limit - v.buffer.position := by
  obtain ⟨array, harray, h⟩ := ok_of_bind h
  have hlimit := v.buffer.limit_le
  have hle : v.buffer.limit ≤ array.length := by
    unfold View.array at harray
    split at harray
    · rw [← Except.ok.inj harray, List.length_append, List.length_append]
      omega
    · cases harray
    · cases harray
  rw [← Except.ok.inj h, subArray, List.length_take, List.length_drop]
  omega

/-- An array of its own gives the bytes that are left. -/
@[simp] theorem taken_wrap (s : Bytes) : (wrap s).taken = .ok s := by
  simp [taken, wrap, array, subArray, ByteBuffer.wrap, ok_bind, pure, Except.pure]

end View

namespace DsaVerifyingStream

/-- A signature that begins with a DER sequence, cut behind it. -/
def truncated (sig : Bytes) : Bytes :=
  match sig with
  | tag :: length :: _ =>
    if tag = 0x30 ∧ length.toNat < 0x80 ∧ 2 + length.toNat ≤ sig.length then sig.take (2 + length.toNat) else sig
  | _ => sig

/-- There is no tag, or no length behind the tag of a sequence. -/
def Short (sig : Bytes) : Prop := sig = [] ∨ sig = [0x30]

instance (sig : Bytes) : Decidable (Short sig) := inferInstanceAs (Decidable (_ ∨ _))

/-- What is cut is an initial part. -/
theorem take_length_truncated (sig : Bytes) : sig.take (truncated sig).length = truncated sig := by
  unfold truncated
  split
  · split
    · rename_i h
      rw [List.length_take, Nat.min_eq_left h.2.2]
    · exact List.take_length
  · exact List.take_length

/-- What begins with another tag is not cut. -/
theorem truncated_of_ne {tag : UInt8} {t : Bytes} (h : tag ≠ 0x30) : truncated (tag :: t) = tag :: t := by
  cases t with
  | nil => rfl
  | cons length t => exact if_neg fun hcut => h hcut.1

theorem remaining_lt_one {b : ByteBuffer} (h : b.rest = []) : b.remaining < 1 := by
  rw [← ByteBuffer.length_rest, h]
  exact Nat.zero_lt_one

/-- One byte is read. -/
theorem get_one_start {b : ByteBuffer} {x : UInt8} {s : Bytes} (h : b.rest = x :: s) :
    ∃ b', b.get 1 = .ok ([x], b') ∧ b'.rest = s ∧ b'.content = b.content ∧ b'.position = b.position + 1 ∧ b'.limit = b.limit := by
  have hremaining : 1 ≤ b.remaining := by
    rw [← ByteBuffer.length_rest, h, List.length_cons]
    omega
  obtain ⟨b', hget, hc, hp, hl, -⟩ := ByteBuffer.get_ok hremaining
  refine ⟨b', ?_, ?_, hc, hp, hl⟩
  · rw [hget, h]
    rfl
  · rw [ByteBuffer.rest_drop hc hp hl, h]
    rfl

/-- The end of the sequence is found when it is not behind the limit. -/
theorem truncateBehind_spec {b : ByteBuffer} {length : UInt8} {t : Bytes} (hcontent : b.content = 0x30 :: length :: t)
    (hlimit : b.limit = b.content.length) (hposition : b.position = 2) :
    ∃ b', truncateBehind length.toNat b = .ok b' ∧ b'.content = b.content ∧ b'.limit = (truncated b.content).length := by
  have htruncated : truncated b.content =
      if length.toNat < 0x80 ∧ 2 + length.toNat ≤ b.content.length then b.content.take (2 + length.toNat) else b.content := by
    rw [hcontent]
    simp [truncated]
  unfold truncateBehind
  rw [htruncated, hlimit, hposition]
  by_cases hlong : 0x80 ≤ length.toNat
  · rw [if_pos hlong, if_neg fun h => Nat.not_lt.mpr hlong h.1]
    exact ⟨b, rfl, rfl, hlimit⟩
  · rw [if_neg hlong]
    by_cases hbehind : b.content.length < 2 + length.toNat
    · rw [if_pos hbehind, if_neg fun h => Nat.not_le.mpr hbehind h.2]
      exact ⟨b, rfl, rfl, hlimit⟩
    · have hle : 2 + length.toNat ≤ b.content.length := Nat.not_lt.mp hbehind
      rw [if_neg hbehind, if_pos ⟨Nat.not_le.mp hlong, hle⟩, List.length_take, Nat.min_eq_left hle]
      obtain ⟨b₁, hset₁, hc₁, hp₁, hl₁, -⟩ := ByteBuffer.setPosition_ok (b := b) (n := 2 + length.toNat) (by omega)
      rw [hset₁, ok_bind]
      dsimp only
      rw [hp₁, hl₁, hlimit]
      by_cases hmore : 0 < b.content.length - (2 + length.toNat)
      · rw [if_pos hmore]
        obtain ⟨b₂, hset₂, hc₂, -, hl₂, -⟩ := ByteBuffer.setLimit_ok (b := b₁) (hc₁ ▸ hle)
        exact ⟨b₂, hset₂, hc₂.trans hc₁, hl₂⟩
      · rw [if_neg hmore]
        refine ⟨b₁, rfl, hc₁, ?_⟩
        rw [hl₁, hlimit]
        omega

/-- What is left of the copy. -/
theorem truncate_spec {b : ByteBuffer} (hlimit : b.limit = b.content.length) :
    (Short b.content ∧ truncate b = .error .bufferUnderflow) ∨
    (¬ Short b.content ∧ ∃ b', truncate b = .ok b' ∧ b'.content = b.content ∧ b'.limit = (truncated b.content).length) := by
  obtain ⟨b₀, hstart, hc₀, hp₀, hl₀, -⟩ := ByteBuffer.setPosition_ok (b := b) (Nat.zero_le _)
  have hrest₀ : b₀.rest = b.content := by
    rw [ByteBuffer.rest, hc₀, hl₀, hp₀, hlimit, List.take_length, List.drop_zero]
  unfold truncate
  rw [hstart, ok_bind]
  rcases hcontent : b.content with _ | ⟨tag, t⟩
  · refine Or.inl ⟨Or.inl rfl, ?_⟩
    rw [ByteBuffer.get_error (remaining_lt_one (hrest₀.trans hcontent)), error_bind]
  · obtain ⟨b₁, hget₁, hrest₁, hc₁, hp₁, hl₁⟩ := get_one_start (hrest₀.trans hcontent)
    rw [hget₁, ok_bind]
    dsimp only
    by_cases htag : tag = 0x30
    · subst htag
      rw [if_neg (not_not_intro rfl)]
      rcases t with _ | ⟨length, t⟩
      · refine Or.inl ⟨Or.inr rfl, ?_⟩
        rw [ByteBuffer.get_error (remaining_lt_one hrest₁), error_bind]
      · obtain ⟨b₂, hget₂, -, hc₂, hp₂, hl₂⟩ := get_one_start hrest₁
        have hsame : b₂.content = b.content := by rw [hc₂, hc₁, hc₀]
        obtain ⟨b', hcut, hc', hl'⟩ := truncateBehind_spec (hsame.trans hcontent) (by rw [hl₂, hl₁, hl₀, hlimit, hsame])
          (by rw [hp₂, hp₁, hp₀])
        refine Or.inr ⟨by simp [Short], b', ?_, by rw [hc', hsame, hcontent], by rw [hl', hsame, hcontent]⟩
        rw [hget₂, ok_bind]
        exact hcut
    · have hne : [tag] ≠ [0x30] := fun h => htag (List.head_eq_of_cons_eq h)
      refine Or.inr ⟨by simp [Short, htag], b₁, if_pos hne, by rw [hc₁, hc₀, hcontent], ?_⟩
      rw [truncated_of_ne htag, hl₁, hl₀, hlimit, hcontent]

/-- What the platform is asked to verify of a signature. Where verification is not strict, nothing when the signature is too short. -/
def verified (strictVerification : Bool) (sig : Bytes) : Option Bytes :=
  if strictVerification then some sig else if Short sig then none else some (truncated sig)

/-- A copy of the bytes that were taken. -/
theorem copy_of_taken {n : Nat} {w : Bytes} (h : w.length = n) :
    ∃ b, (ByteBuffer.allocate n).put w = .ok b ∧ b.content = w ∧ b.limit = w.length := by
  have hremaining : (ByteBuffer.allocate n).remaining = n := by simp [ByteBuffer.allocate]
  obtain ⟨b, hput, hwrote⟩ := ByteBuffer.put_ok (b := ByteBuffer.allocate n) (w := w) (by omega)
  refine ⟨b, hput, Util.content_of_wrote hwrote (Nat.le_of_eq h.symm), ?_⟩
  rw [hwrote.limit_eq, h]
  simp [ByteBuffer.allocate, ByteBuffer.wrap]

/-- The copy of a signature is what the platform is asked to verify. -/
theorem signatureToVerify_of_taken (strictVerification : Bool) {v : View} {w : Bytes} (h : v.taken = .ok w) :
    (verified strictVerification w = none ∧ signatureToVerify strictVerification v = .error .bufferUnderflow) ∨
    ∃ b, signatureToVerify strictVerification v = .ok b ∧
      verified strictVerification w = some (subArray b.content b.position (b.limit - b.position)) := by
  have hlength := View.length_of_taken h
  obtain ⟨array, harray, h⟩ := ok_of_bind h
  obtain rfl := Except.ok.inj h
  obtain ⟨b, hput, hcontent, hlimit⟩ := copy_of_taken hlength
  unfold signatureToVerify verified
  rw [harray, ok_bind, hput, ok_bind]
  by_cases hstrict : strictVerification = true
  · obtain ⟨b', hset, hc', hp', hl', -⟩ := ByteBuffer.setPosition_ok (b := b) (Nat.zero_le _)
    rw [if_pos hstrict, if_pos hstrict, ok_bind]
    refine Or.inr ⟨b', hset, ?_⟩
    rw [hc', hp', hl', hlimit, hcontent, subArray_zero, Nat.sub_zero, List.take_length]
  · rw [if_neg hstrict, if_neg hstrict]
    rcases truncate_spec (b := b) (by rw [hlimit, hcontent]) with ⟨hshort, hcut⟩ | ⟨hshort, b₁, hcut, hc₁, hl₁⟩
    · rw [hcontent] at hshort
      rw [if_pos hshort, hcut, error_bind]
      exact Or.inl ⟨rfl, rfl⟩
    · obtain ⟨b', hset, hc', hp', hl', -⟩ := ByteBuffer.setPosition_ok (b := b₁) (Nat.zero_le _)
      rw [hcontent] at hshort hc₁ hl₁
      rw [if_neg hshort, hcut, ok_bind]
      refine Or.inr ⟨b', hset, ?_⟩
      rw [hc', hp', hl', hc₁, hl₁, subArray_zero, Nat.sub_zero, take_length_truncated]

/-- What `verify` answers. -/
theorem verify_of_taken (J : Platform) (k : DsaPublicKey) (data : Bytes) {v : View} {w : Bytes} (h : v.taken = .ok w) :
    verify J k data v = match verified J.strictVerification w with
      | none => .error (.runtime .bufferUnderflow)
      | some sig => (J.dsa.verify k data sig).mapError JceException.rethrow := by
  unfold verify
  rcases signatureToVerify_of_taken J.strictVerification h with ⟨hnone, hcopy⟩ | ⟨b, hcopy, hsome⟩
  · rw [hnone, hcopy, mapError_error, error_bind]
  · rw [hsome, hcopy, mapError_ok, ok_bind]

/-- Without an array there is nothing to copy. -/
theorem verify_of_not_taken (J : Platform) (k : DsaPublicKey) (data : Bytes) {v : View} {e : RuntimeException}
    (h : v.array = .error e) : verify J k data v = .error (.runtime e) := by
  unfold verify signatureToVerify
  rw [h, error_bind, mapError_error, error_bind]

/-! ## Trailing bytes -/

/-- A DER sequence whose length takes one byte. -/
def ShortSequence (s : Bytes) : Prop :=
  ∃ length content, s = 0x30 :: length :: content ∧ length.toNat < 0x80 ∧ content.length = length.toNat

theorem ShortSequence.truncated_append {s : Bytes} (h : ShortSequence s) (x : Bytes) : truncated (s ++ x) = s := by
  obtain ⟨length, content, rfl, hlt, hlength⟩ := h
  have hlen : (0x30 :: length :: content).length = 2 + length.toNat := by
    rw [List.length_cons, List.length_cons, hlength]
    omega
  have hcut : truncated (0x30 :: length :: content ++ x) = (0x30 :: length :: content ++ x).take (2 + length.toNat) :=
    if_pos ⟨rfl, hlt, by rw [List.length_append]; omega⟩
  rw [hcut, ← hlen, List.take_left]

theorem ShortSequence.not_short {s : Bytes} (h : ShortSequence s) (x : Bytes) : ¬ Short (s ++ x) := by
  obtain ⟨length, content, rfl, -, -⟩ := h
  simp [Short]

/-- A number in DER. -/
def derInteger (n : Nat) : Bytes := 0x02 :: UInt8.ofNat (TwosComplement.natBytes n).length :: TwosComplement.natBytes n

/-- A signature in DER: the sequence of its two numbers. -/
def derSignature (r s : Nat) : Bytes :=
  0x30 :: UInt8.ofNat (derInteger r ++ derInteger s).length :: (derInteger r ++ derInteger s)

/-- The numbers of a signature are below the order of the group. Where it has at most 60 bytes (here 20), their sequence is a short one. -/
theorem shortSequence_derSignature {r s n : Nat} (hn : n ≤ 60) (hr : r < 256 ^ n) (hs : s < 256 ^ n) :
    ShortSequence (derSignature r s) := by
  have hlength : (derInteger r ++ derInteger s).length < 0x80 := by
    have hr' := TwosComplement.length_natBytes_le hr
    have hs' := TwosComplement.length_natBytes_le hs
    simp only [derInteger, List.length_append, List.length_cons]
    omega
  have hbyte : (UInt8.ofNat (derInteger r ++ derInteger s).length).toNat = (derInteger r ++ derInteger s).length := by
    rw [UInt8.toNat_ofNat']
    exact Nat.mod_eq_of_lt (by omega)
  exact ⟨_, _, rfl, hbyte.trans_lt hlength, hbyte.symm⟩

/-- Of a signature in an array of its own, the platform is asked to verify what is left when trailing bytes are cut; no exception is
thrown but that of the platform; and what is behind a DER sequence does not matter. -/
structure IgnoresTrailing (sig : Bytes) : Prop where
  verify_eq : ∀ (J : Platform) (k : DsaPublicKey) (data : Bytes), J.strictVerification = false →
    verify J k data (View.wrap sig) = (J.dsa.verify k data (truncated sig)).mapError JceException.rethrow
  no_exception : ∀ (J : Platform) (k : DsaPublicKey) (data : Bytes) (e : RuntimeException), J.strictVerification = false →
    verify J k data (View.wrap sig) = .error (.runtime e) → J.dsa.verify k data (truncated sig) = .error (.runtime e)
  verify_append : ∀ (J : Platform) (k : DsaPublicKey) (data s x : Bytes), J.strictVerification = false → sig = s ++ x →
    ShortSequence s → verify J k data (View.wrap sig) = verify J k data (View.wrap s)

/-- A platform that refuses every signature. -/
def refusing : Platform where
  primitives := Primitives.plain
  rsa := .accepting fun _ => false
  dsa := .accepting fun _ => false

theorem not_ignoresTrailing_of_short {sig : Bytes} (h : Short sig) : ¬ IgnoresTrailing sig := by
  intro hsig
  have hnone : verified refusing.strictVerification sig = none := if_pos h
  have hverify := hsig.verify_eq refusing { size := 0, y := 0, p := 0, q := 0, g := 0 } [] rfl
  rw [verify_of_taken refusing _ _ (View.taken_wrap sig), hnone] at hverify
  cases hverify

/-- Trailing bytes are ignored exactly when there is a tag, and a length behind the tag of a sequence. -/
theorem ignoresTrailing_iff (sig : Bytes) : IgnoresTrailing sig ↔ sig ≠ [] ∧ sig ≠ [0x30] := by
  rw [← not_or]
  constructor
  · exact fun hsig hshort => not_ignoresTrailing_of_short hshort hsig
  · intro hshort
    have hverified : verified false sig = some (truncated sig) := if_neg hshort
    have hverify (J : Platform) (k : DsaPublicKey) (data : Bytes) (hJ : J.strictVerification = false) :
        verify J k data (View.wrap sig) = (J.dsa.verify k data (truncated sig)).mapError JceException.rethrow := by
      rw [verify_of_taken J k data (View.taken_wrap sig), hJ, hverified]
    refine ⟨hverify, ?_, ?_⟩
    · intro J k data e hJ h
      rw [hverify J k data hJ] at h
      cases hjce : J.dsa.verify k data (truncated sig) with
      | ok b =>
        rw [hjce] at h
        cases h
      | error e' =>
        rw [hjce] at h
        cases e' with
        | generalSecurity => cases h
        | runtime e' =>
          cases h
          rfl
    · rintro J k data s x hJ rfl hs
      have hself : verified false s = some s := by
        have hnot := hs.not_short []
        have hcut := hs.truncated_append []
        rw [List.append_nil] at hnot hcut
        rw [verified, if_neg (by decide), if_neg hnot, hcut]
      rw [hverify J k data hJ, hs.truncated_append, verify_of_taken J k data (View.taken_wrap s), hJ, hself]

/-- A tag without a length behind it throws, where the platform would only refuse it. -/
theorem tag_alone_throws : ¬ IgnoresTrailing [0x30] ∧
    verify refusing { size := 0, y := 0, p := 0, q := 0, g := 0 } [] (View.wrap [0x30]) = .error (.runtime .bufferUnderflow) :=
  ⟨not_ignoresTrailing_of_short (Or.inr rfl), verify_of_taken refusing _ _ (View.taken_wrap [0x30])⟩

end DsaVerifyingStream

end Java
