import Keyczar.Python.RsaKeys
import Keyczar.Lib.Throwing

/-!
# Encoding and decoding with OAEP

What `__Encode` makes of a message passes through the integers of the library, which take the zeros in front of it away. `__Decode` puts them
back on, but for the first, takes the masks off and finds the message behind the zeros and the one that were put in front of it.
-/

namespace Python

open Bytes BigEndian

variable (P : Primitives) (L : RsaLibrary)

/-! ## Masks -/

theorem length_mgf_output (seed : Bytes) (n : Nat) : ((List.range n).flatMap fun i => P.sha1 (seed ++ be32 i)).length = n * HLEN := by
  induction n with
  | zero => rfl
  | succ n ih =>
    rw [List.range_succ, List.flatMap_append, List.length_append, ih, List.flatMap_singleton, P.length_sha1, Nat.succ_mul]
    rfl

/-- A mask has the length that was asked for; only one that is too long is refused. -/
theorem mgf_spec (seed : Bytes) (mlen : Nat) :
    (mlen ≤ 2 ^ 32 * HLEN ∧ ∃ mask, mgf P seed mlen = .ok mask ∧ mask.length = mlen) ∨
    (2 ^ 32 * HLEN < mlen ∧ mgf P seed mlen = .error (.keyczarError "MGF1 mask length too long.")) := by
  rcases Nat.lt_or_ge (2 ^ 32 * HLEN) mlen with hlong | hshort
  · exact Or.inr ⟨hlong, if_pos hlong⟩
  · refine Or.inl ⟨hshort, _, if_neg (Nat.not_lt_of_le hshort), ?_⟩
    rw [List.length_take, length_mgf_output, HLEN]
    omega

variable {P}

theorem length_of_mgf {seed mask : Bytes} {mlen : Nat} (h : mgf P seed mlen = .ok mask) : mask.length = mlen := by
  rcases mgf_spec P seed mlen with ⟨-, mask', hmask', hlength⟩ | ⟨-, herror⟩
  · rw [hmask'] at h
    rw [← Except.ok.inj h, hlength]
  · rw [herror] at h
    cases h

/-- Strings of one length are not filled. -/
theorem xor_eq {a b : Bytes} (h : a.length = b.length) : xor a b = Bytes.xor a b := by
  have hzero : padBytes a 0 = a ∧ padBytes b 0 = b := ⟨rfl, rfl⟩
  simp only [xor, h, Nat.max_self, Int.sub_self, hzero]

theorem length_xor {a b : Bytes} (h : a.length = b.length) : (xor a b).length = a.length := by
  rw [xor_eq h, Bytes.length_xor, h, Nat.min_self]

/-- A mask that is put on again is taken off. -/
theorem xor_xor {a b : Bytes} (h : a.length = b.length) : xor (xor a b) b = a := by
  rw [xor_eq ((length_xor h).trans h), xor_eq h, xor_xor_cancel h]

/-! ## What `__Encode` makes -/

variable {L}

/-- The block of data under its mask: the hash of the label, zeros, a one and the message. -/
def datablock (P : Primitives) (n : Nat) (msg : Bytes) : Bytes := P.sha1 [] ++ List.replicate (n - msg.length - 2 * HLEN - 2) 0 ++ 1 :: msg

theorem length_datablock {n : Nat} {msg : Bytes} (h : msg.length + 42 ≤ n) : (datablock P n msg).length = n - HLEN - 1 := by
  simp only [datablock, List.length_append, P.length_sha1, List.length_replicate, List.length_cons, HLEN]
  omega

/-- A message that is too long is refused. -/
theorem encode_of_long {k : RsaPublicKey} (seed : Bytes) {msg : Bytes} (h : k.modulusBytes L < msg.length + 42) :
    k.encode P L seed msg = .error (.keyczarError "Message too long to OAEP encode.") := by
  have hlong : (msg.length : Int) > (k.modulusBytes L : Int) - 2 * (HLEN : Nat) - 2 := by
    rw [HLEN]
    omega
  exact if_pos hlong

/-- Any other is laid out, masked, and put behind the masked seed. -/
theorem encode_of_short {k : RsaPublicKey} (seed : Bytes) {msg : Bytes} (h : msg.length + 42 ≤ k.modulusBytes L) :
    k.encode P L seed msg = do
      let datablockMask ← mgf P seed (k.modulusBytes L - HLEN - 1)
      let maskedDatablock := xor (datablock P (k.modulusBytes L) msg) datablockMask
      let seedMask ← mgf P maskedDatablock HLEN
      return 0 :: xor seed seedMask ++ maskedDatablock := by
  have hlong : ¬ (msg.length : Int) > (k.modulusBytes L : Int) - 2 * (HLEN : Nat) - 2 := by
    rw [HLEN]
    omega
  have hpad : ¬ (k.modulusBytes L : Int) - msg.length - 2 * (HLEN : Nat) - 2 < 0 := by
    rw [HLEN]
    omega
  have hzeros : ((k.modulusBytes L : Int) - msg.length - 2 * (HLEN : Nat) - 2).toNat = k.modulusBytes L - msg.length - 2 * HLEN - 2 := by
    rw [HLEN]
    omega
  have hmask : ((k.modulusBytes L : Int) - (HLEN : Nat) - 1).toNat = k.modulusBytes L - HLEN - 1 := by
    rw [HLEN]
    omega
  simp only [RsaPublicKey.encode, if_neg hlong, if_neg hpad, hzeros, hmask]
  rfl

/-- What is encoded is the message that was masked, and is as long as the modulus. -/
theorem encode_eq_ok {k : RsaPublicKey} {seed msg em : Bytes} (h : k.encode P L seed msg = .ok em) :
    msg.length + 42 ≤ k.modulusBytes L ∧ ∃ datablockMask seedMask,
      mgf P seed (k.modulusBytes L - HLEN - 1) = .ok datablockMask ∧
      mgf P (xor (datablock P (k.modulusBytes L) msg) datablockMask) HLEN = .ok seedMask ∧
      em = 0 :: (xor seed seedMask ++ xor (datablock P (k.modulusBytes L) msg) datablockMask) := by
  rcases Nat.lt_or_ge (k.modulusBytes L) (msg.length + 42) with hlong | hshort
  · rw [encode_of_long seed hlong] at h
    cases h
  · rw [encode_of_short seed hshort] at h
    obtain ⟨datablockMask, hdatablockMask, h⟩ := Throwing.ok_of_bind h
    obtain ⟨seedMask, hseedMask, h⟩ := Throwing.ok_of_bind h
    exact ⟨hshort, datablockMask, seedMask, hdatablockMask, hseedMask, (Except.ok.inj h).symm⟩

/-- A message is encoded exactly when it fits in the modulus, and a mask as long as the modulus can be made. -/
theorem encode_returns_iff (k : RsaPublicKey) (seed msg : Bytes) :
    (∃ em, k.encode P L seed msg = .ok em) ↔ msg.length + 42 ≤ k.modulusBytes L ∧ k.modulusBytes L ≤ 2 ^ 32 * HLEN + HLEN + 1 := by
  rcases Nat.lt_or_ge (k.modulusBytes L) (msg.length + 42) with hlong | hshort
  · rw [encode_of_long seed hlong]
    exact iff_of_false nofun fun h => absurd h.1 (Nat.not_le_of_lt hlong)
  · rw [encode_of_short seed hshort]
    rcases mgf_spec P seed (k.modulusBytes L - HLEN - 1) with ⟨hle, mask, hmask, -⟩ | ⟨hgt, hmask⟩
    · refine iff_of_true ?_ ⟨hshort, by omega⟩
      obtain ⟨-, seedMask, hseedMask, -⟩ | ⟨hgt, -⟩ := mgf_spec P (xor (datablock P (k.modulusBytes L) msg) mask) HLEN
      · rw [hmask, Throwing.ok_bind]
        dsimp only
        rw [hseedMask]
        exact ⟨_, rfl⟩
      · exact absurd hgt (by decide)
    · rw [hmask]
      exact iff_of_false nofun fun h => by omega

/-! ## What `__Decode` finds -/

/-- The zeros that were stripped are put back on, but for the first. -/
theorem restore_strip {n : Nat} {rest : Bytes} (h : rest.length + 1 = n) :
    (if (n : Int) - (strip (0 :: rest)).length > 1 then List.replicate ((n : Int) - (strip (0 :: rest)).length - 1).toNat 0 ++ strip (0 :: rest)
      else strip (0 :: rest)) = rest := by
  obtain ⟨j, hj⟩ := eq_zeros_append_strip rest
  have hlength := congrArg List.length hj
  rw [List.length_append, List.length_replicate] at hlength
  rw [strip_zero_cons]
  split
  · rename_i hmore
    have hzeros : ((n : Int) - (strip rest).length - 1).toNat = j := by omega
    rw [hzeros]
    exact hj.symm
  · rename_i hone
    obtain rfl : j = 0 := by omega
    exact hj.symm

/-- Behind the hash of the label the one is the first byte that is not zero. -/
theorem strip_datablock (n : Nat) (msg : Bytes) :
    (datablock P n msg).take HLEN = P.sha1 [] ∧ strip ((datablock P n msg).drop HLEN) = 1 :: msg := by
  have hhash : (P.sha1 []).length = HLEN := P.length_sha1 []
  rw [datablock, List.append_assoc, List.take_left' hhash, List.drop_left' hhash, strip_zeros_append]
  exact ⟨rfl, strip_of_head_ne (by decide)⟩

/-- What was encoded and stripped is unmasked to the block of data. -/
theorem unmask_strip {k : RsaPrivateKey} {seed msg em : Bytes} (hseed : seed.length = HLEN)
    (h : k.publicKey.encode P L seed msg = .ok em) :
    k.unmask P L (strip em) = .ok (datablock P (k.publicKey.modulusBytes L) msg) := by
  obtain ⟨hshort, datablockMask, seedMask, hdatablockMask, hseedMask, rfl⟩ := encode_eq_ok h
  have hdata := length_datablock (P := P) hshort
  have hdatamask := length_of_mgf hdatablockMask
  have hmaskedData := length_xor (hdata.trans hdatamask.symm)
  have hmaskedSeed := length_xor (hseed.trans (length_of_mgf hseedMask).symm)
  have hrest : (xor seed seedMask ++ xor (datablock P (k.publicKey.modulusBytes L) msg) datablockMask).length + 1 = k.publicKey.modulusBytes L := by
    rw [List.length_append, hmaskedSeed, hmaskedData, hseed, hdata, HLEN]
    omega
  rw [RsaPrivateKey.unmask]
  dsimp only
  rw [restore_strip hrest, List.take_left' (hmaskedSeed.trans hseed), List.drop_left' (hmaskedSeed.trans hseed), hseedMask,
    Throwing.ok_bind, xor_xor (hseed.trans (length_of_mgf hseedMask).symm), hmaskedData, hdata, hdatablockMask, Throwing.ok_bind,
    xor_xor (hdata.trans hdatamask.symm)]
  rfl

/-- Encoding and decoding. What was encoded is decoded to the message, without the zeros in front that the library strips, where 42 bytes are
left of it at least; a message is encoded exactly when it has 42 bytes less than the modulus at most (and the modulus is not too long for a
mask), and one that is longer is refused before anything is encrypted. -/
theorem decode_strip_encode (P : Primitives) (L : RsaLibrary) (k : RsaPrivateKey) (seed : Seed) (msg : Bytes) :
    (∀ em, k.publicKey.encode P L seed.val msg = .ok em → 42 ≤ (strip em).length → k.decode P L (strip em) = .ok msg) ∧
    ((∃ em, k.publicKey.encode P L seed.val msg = .ok em) ↔
      msg.length + 42 ≤ k.publicKey.modulusBytes L ∧ k.publicKey.modulusBytes L ≤ 2 ^ 32 * HLEN + HLEN + 1) ∧
    (k.publicKey.modulusBytes L < msg.length + 42 →
      k.publicKey.encode P L seed.val msg = .error (.keyczarError "Message too long to OAEP encode.") ∧
      k.publicKey.encrypt P L seed.val msg = .error (.keyczarError "Message too long to OAEP encode.")) := by
  refine ⟨?_, encode_returns_iff k.publicKey seed.val msg, ?_⟩
  · intro em hem hlength
    obtain ⟨hhash, hstrip⟩ := strip_datablock (P := P) (k.publicKey.modulusBytes L) msg
    have hshort : ¬ (strip em).length < 2 * HLEN + 2 := Nat.not_lt_of_le hlength
    simp only [RsaPrivateKey.decode, if_neg hshort, unmask_strip seed.property hem, hhash, hstrip, ne_eq, not_true_eq_false, if_false, bind,
      Except.bind, pure, Except.pure]
  · intro hlong
    have hencode := encode_of_long (P := P) (L := L) seed.val hlong
    refine ⟨hencode, ?_⟩
    rw [RsaPublicKey.encrypt, hencode]
    rfl

/-- A library for keys of 64 bytes, whose operations do nothing. -/
def bareLibrary : RsaLibrary where
  encrypt _ s := s
  decrypt _ s := s
  sign _ _ := 0
  verify _ _ _ := true
  log256 _ := 63

/-- A private key. -/
def bareKey : RsaPrivateKey where
  publicKey := { modulus := [1], publicExponent := [3] }
  privateExponent := [1]
  primeP := [1]
  primeQ := [1]
  primeExponentP := [1]
  primeExponentQ := [1]
  crtCoefficient := [1]

/-- A message with a zero and a one in front, and a masked seed of zeros: 43 bytes are left of what was encoded. -/
theorem decode_strip_encode_zeros :
    ∃ em, bareKey.publicKey.encode Primitives.plain bareLibrary (List.replicate 20 7) [0, 1, 2] = .ok em ∧ (strip em).length = 43 ∧
      bareKey.decode Primitives.plain bareLibrary (strip em) = .ok [0, 1, 2] := by
  obtain ⟨hdecode, -, -⟩ := decode_strip_encode Primitives.plain bareLibrary bareKey ⟨List.replicate 20 7, rfl⟩ [0, 1, 2]
  have hencode : bareKey.publicKey.encode Primitives.plain bareLibrary (List.replicate 20 7) [0, 1, 2] =
      .ok (List.replicate 21 0 ++ List.replicate 39 7 ++ [6, 7, 6, 5]) := by decide
  exact ⟨_, hencode, by decide, hdecode _ hencode (by decide)⟩

end Python
