import Keyczar.Java.StreamPairs
import Keyczar.Java.Collisions

/-!
# Calls on streams that are used again

Each call on the queues gives what it gives with new streams, as long as the queues hold streams that can be given out again, and it
keeps them so. The one call that does not is a decryption with a counting key of a ciphertext without a payload: its cipher was not
reset, and from then on the key decrypts to other bytes.
-/

namespace Java

open Bytes Relational

/-! ## Encryption -/

namespace AesStream

variable {P : Primitives} {k : AesKey} {s s' : AesStream} {input output : ByteBuffer}

/-- A stream of a key that encrypts a message. -/
structure Encrypting (k : AesKey) (s : AesStream) : Prop where
  key_eq : s.key = k
  hmacKey_eq : s.signStream.hmacKey = k.hmacKey
  encrypting : Cipher.init k.mode k.aesBytes = .ok s.encryptingCipher.reset
  decrypting : Cipher.init k.mode k.aesBytes = .ok s.decryptingCipher.reset
  idle : s.decryptingCipher.Idle

/-- Two streams that differ only in what decrypts. -/
structure SameEncrypting (s s' : AesStream) : Prop where
  key_eq : s'.key = s.key
  cipher : s'.encryptingCipher = s.encryptingCipher
  signStream : s'.signStream = s.signStream

/-- What is left at the end of an encryption can be given out again. -/
theorem Encrypting.encrypted (h : Encrypting k s) : Reusable k s.encrypted :=
  ⟨h.key_eq, h.hmacKey_eq, h.encrypting, h.decrypting, h.idle⟩

/-- Before an encryption the signature is initialised. -/
theorem Reusable.initSign (h : Reusable k s) : Encrypting k { s with signStream := s.signStream.initSign } where
  key_eq := h.key_eq
  hmacKey_eq := h.hmacKey_eq
  encrypting := h.encrypting.trans (congrArg Except.ok (Cipher.reset_init h.encrypting).symm)
  decrypting := h.decrypting
  idle := h.idle

theorem Reusable.sameEncrypting (h : Reusable k s) (hnew : new k = .ok s') :
    SameEncrypting { s with signStream := s.signStream.initSign } { s' with signStream := s'.signStream.initSign } where
  key_eq := (key_of_new hnew).1.trans h.key_eq.symm
  cipher := (h.ciphers_new hnew).1
  signStream := by simp only [HmacStream.initSign, (key_of_new hnew).2, h.hmacKey_eq]

/-- Two runs of an encryption that agree. -/
def SameRun (k : AesKey) {ν : Type} (r r' : AesStream × ν) : Prop := SameEncrypting r.1 r'.1 ∧ Encrypting k r.1 ∧ r.2 = r'.2

theorem updateEncrypt_alike (hsame : SameEncrypting s s') (h : Encrypting k s) :
    Alike (SameRun k) (s.updateEncrypt P input output) (s'.updateEncrypt P input output) := by
  unfold updateEncrypt encryptingUpdate
  by_cases hnil : input.remaining = 0
  · rw [if_pos hnil, if_pos hnil]
    exact ⟨hsame, h, rfl⟩
  · rw [if_neg hnil, if_neg hnil, hsame.key_eq, hsame.cipher]
    dsimp only
    cases transfer (s.encryptingCipher.encryptSize input.remaining)
        (s.encryptingCipher.encryptUpdate P s.key.aesBytes input.rest).1 output with
    | error e => rfl
    | ok output' =>
      refine ⟨⟨rfl, rfl, hsame.signStream⟩, ⟨h.key_eq, h.hmacKey_eq, ?_, h.decrypting, h.idle⟩, rfl⟩
      rw [h.encrypting]
      exact congrArg Except.ok (Cipher.reset_encryptUpdate _ _).symm

/-- Signing on leaves the ciphers. -/
theorem SameEncrypting.signUpTo (h : SameEncrypting s s') (b : ByteBuffer) (signed : Nat) :
    SameEncrypting (Encrypter.signUpTo s b signed) (Encrypter.signUpTo s' b signed) where
  key_eq := h.key_eq
  cipher := h.cipher
  signStream := by
    unfold Encrypter.signUpTo
    rw [h.signStream]

theorem Encrypting.signUpTo (h : Encrypting k s) (b : ByteBuffer) (signed : Nat) : Encrypting k (Encrypter.signUpTo s b signed) :=
  ⟨h.key_eq, h.hmacKey_eq, h.encrypting, h.decrypting, h.idle⟩

end AesStream

namespace Cached

open AesStream

variable {P : Primitives} {k : AesKey} {stream stream' : AesStream}

theorem encryptChunks_match {fuel : Nat} {s s' : AesStream} (hsame : SameEncrypting s s') (h : Encrypting k s) (inputCopy : ByteBuffer)
    (signed : Nat) (output : ByteBuffer) :
    Match (fun r r' _ => SameRun k r r') (Encrypter.encryptChunks P fuel s inputCopy signed output)
      (Encrypter.encryptChunks P fuel s' inputCopy signed output) := by
  induction fuel generalizing s s' inputCopy signed output with
  | zero => exact ⟨⟨hsame, h, rfl⟩, rfl⟩
  | succ fuel ih =>
    unfold Encrypter.encryptChunks
    by_cases hle : inputCopy.remaining ≤ Encrypter.ENCRYPT_CHUNK_SIZE
    · rw [if_pos hle, if_pos hle]
      exact ⟨⟨hsame, h, rfl⟩, rfl⟩
    · rw [if_neg hle, if_neg hle]
      cases inputCopy.slice.setLimit Encrypter.ENCRYPT_CHUNK_SIZE with
      | error e => exact ⟨rfl, rfl⟩
      | ok chunk =>
        have hstep : Alike (SameRun k) (s.updateEncrypt P chunk output) (s'.updateEncrypt P chunk output) :=
          updateEncrypt_alike hsame h
        dsimp only
        rcases hstep.cases with ⟨e, hup, hup'⟩ | ⟨⟨t, b⟩, ⟨t', b'⟩, hup, hup', hsame', hactive', hb⟩
        · rw [hup, hup']
          exact ⟨rfl, rfl⟩
        · dsimp only at hb
          subst hb
          rw [hup, hup']
          dsimp only
          cases inputCopy.setPosition (inputCopy.position + Encrypter.ENCRYPT_CHUNK_SIZE) with
          | error e => exact ⟨rfl, rfl⟩
          | ok inputCopy' => exact ih (hsame'.signUpTo b signed) (hactive'.signUpTo b signed) inputCopy' b.position b

/-- The end of an encryption does the same with both. -/
theorem finish_eq_of_same {s s' : AesStream} (h : SameEncrypting s s') (inputCopy : ByteBuffer) (signed : Nat) :
    Encrypter.finish P s inputCopy signed = Encrypter.finish P s' inputCopy signed := by
  funext output
  simp only [Encrypter.finish, AesStream.doFinalEncrypt, Encrypter.signUpTo, h.key_eq, h.cipher, h.signStream]

/-- An encryption throws the same with both streams, or writes the same with both. -/
theorem encryptWith_match (h : stream.Reusable k) (hnew : AesStream.new k = .ok stream') (ivPreImage : Bytes)
    (input output : ByteBuffer) :
    Match (fun t _ _ => t.Reusable k) (encryptWith P k stream ivPreImage input output)
      (Encrypter.encryptBuffer P k ivPreImage input output) := by
  unfold encryptWith Encrypter.encryptBuffer
  rw [hnew]
  dsimp only
  cases Encrypter.copyHeader P k output.setMark with
  | error e b => exact ⟨rfl, rfl⟩
  | ok _ b =>
    have hstep : Alike (SameRun k)
        (AesStream.initEncrypt P { stream with signStream := stream.signStream.initSign } ivPreImage b)
        (AesStream.initEncrypt P { stream' with signStream := stream'.signStream.initSign } ivPreImage b) :=
      updateEncrypt_alike (h.sameEncrypting hnew) h.initSign
    dsimp only
    rcases hstep.cases with ⟨e, hup, hup'⟩ | ⟨⟨t, c⟩, ⟨t', c'⟩, hup, hup', hsame, hactive, hc⟩
    · rw [hup, hup']
      exact ⟨rfl, rfl⟩
    · dsimp only at hc
      subst hc
      rw [hup, hup']
      dsimp only
      have hloop : Match (fun r r' _ => SameRun k r r')
          (Encrypter.encryptChunks P input.remaining t input.asReadOnlyBuffer output.position c)
          (Encrypter.encryptChunks P input.remaining t' input.asReadOnlyBuffer output.position c) :=
        encryptChunks_match hsame hactive _ _ _
      rcases hloop.cases with ⟨e, b, hrun, hrun'⟩ | ⟨⟨u, left⟩, ⟨u', left'⟩, b, hrun, hrun', hsame', hactive', hleft⟩
      · rw [hrun, hrun']
        exact ⟨rfl, rfl⟩
      · dsimp only at hleft
        subst hleft
        rw [hrun, hrun']
        dsimp only
        rw [finish_eq_of_same hsame']
        cases Encrypter.finish P u' left.1 left.2 b with
        | error e b => exact ⟨rfl, rfl⟩
        | ok _ b => exact ⟨hactive'.encrypted, rfl⟩

end Cached

end Java
