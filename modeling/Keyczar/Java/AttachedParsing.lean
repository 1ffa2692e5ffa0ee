import Keyczar.Java.SignerRuns

/-!
# Parsing attached signatures

The calls that cut an attached signature into parts, with the arrays that they request for the parts. The size of the data is read from
the signature and an array of that size is requested at once, so what is in the signature decides how the calls fail.
-/

namespace Java

open Bytes Throwing

namespace Verifier

open Signer

variable {ρ : Type}

/-! ## The calls with the arrays they request -/

/-- A call that keeps a list of the lengths of the arrays that it requests for the parts of a signature. -/
abbrev Requesting (α : Type) : Type := EStateM Exception (List Int) α

/-- `new byte[length]`. -/
def newArray (length : Int) : Requesting Unit := fun arrays =>
  if length < 0 then .error (.runtime .negativeArraySize) (arrays ++ [length]) else .ok () (arrays ++ [length])

/-- An array is requested and filled from the buffer. -/
def getArray (b : ByteBuffer) (length : Int) : Requesting (Bytes × ByteBuffer) := do
  newArray length
  lift ((b.get length.toNat).mapError .runtime)

namespace Requesting

/-- `checkFormatAndGetHash`. -/
def checkFormatAndGetHash (signature : ByteBuffer) : Requesting (Bytes × ByteBuffer) := do
  let (version, signature) ← lift ((signature.get 1).mapError .runtime)
  if version ≠ FORMAT_BYTES then lift (.error (.keyczar (.badVersion (version.headD 0))))
  else getArray signature KEY_HASH_SIZE

/-- The blob of an attached signature, behind the hash. -/
def getBlob (sigBuffer : ByteBuffer) : Requesting (Bytes × ByteBuffer) := do
  let (blobSize, sigBuffer) ← lift (getInt sigBuffer)
  getArray sigBuffer blobSize

variable (z : SigningKeyczar ρ)

/-- `attachedVerify`. -/
def attachedVerify (signedBlob hidden : Bytes) : Requesting Bool := do
  let (hash, sigBuffer) ← checkFormatAndGetHash (ByteBuffer.wrap signedBlob)
  let (blob, sigBuffer) ← getBlob sigBuffer
  let (signature, _) ← getArray sigBuffer sigBuffer.remaining
  let hiddenPlusLength ← lift ((if 0 < hidden.length then Util.lenPrefix hidden else .ok (Util.fromInt 0)).mapError .runtime)
  let keys ← lift (getVerifyingKey z hash)
  return verifyKeys (ByteBuffer.wrap blob) (some (ByteBuffer.wrap hiddenPlusLength)) (ByteBuffer.wrap signature) keys

/-- `getAttachedDataWithoutVerifying`. -/
def getAttachedDataWithoutVerifying (signedBlob : Bytes) : Requesting Bytes := do
  let (hash, sigBuffer) ← checkFormatAndGetHash (ByteBuffer.wrap signedBlob)
  let _ ← lift (getVerifyingKey z hash)
  let (blob, _) ← getBlob sigBuffer
  return blob

/-- `getAttachedData`. -/
def getAttachedData (signedBlob hidden : Bytes) : Requesting Bytes := do
  let verified ← attachedVerify z signedBlob hidden
  if verified then getAttachedDataWithoutVerifying z signedBlob else lift (.error (.keyczar .attachedSignature))

end Requesting

/-! ### Without the list -/

theorem erases_getArray (b : ByteBuffer) (n : Nat) : Erases (getArray b n) ((b.get n).mapError .runtime) := by
  intro arrays
  have hnew : newArray n arrays = .ok () (arrays ++ [(n : Int)]) := if_neg (by omega)
  unfold getArray
  rw [bind_ok hnew, Int.toNat_natCast]
  exact erases_lift _ _

theorem erases_checkFormatAndGetHash (b : ByteBuffer) : Erases (Requesting.checkFormatAndGetHash b) (checkFormatAndGetHash b) := by
  refine (erases_lift _).bind fun parts => ?_
  dsimp only
  split
  · exact erases_lift _
  · exact erases_getArray _ _

theorem erases_getBlob (b : ByteBuffer) : Erases (Requesting.getBlob b) (getBlob b) := by
  refine (erases_lift _).bind fun parts => ?_
  obtain ⟨blobSize, sigBuffer⟩ := parts
  dsimp only
  by_cases hneg : blobSize < 0
  · rw [if_pos hneg]
    intro arrays
    have hnew : newArray blobSize arrays = .error (.runtime .negativeArraySize) (arrays ++ [blobSize]) := if_pos hneg
    unfold getArray
    rw [bind_error hnew]
    rfl
  · rw [if_neg hneg]
    obtain ⟨n, rfl⟩ := Int.eq_ofNat_of_zero_le (Int.not_lt.mp hneg)
    exact erases_getArray _ _

/-- The list changes nothing: the calls return and throw what the calls without it do. -/
theorem erases_attachedVerify (z : SigningKeyczar ρ) (signedBlob hidden : Bytes) :
    Erases (Requesting.attachedVerify z signedBlob hidden) (attachedVerify z signedBlob hidden) := by
  refine (erases_checkFormatAndGetHash _).bind fun parts => ?_
  refine (erases_getBlob _).bind fun blobParts => ?_
  refine (erases_getArray _ _).bind fun signatureParts => ?_
  refine (erases_lift _).bind fun hiddenPlusLength => ?_
  exact (erases_lift _).bind fun keys => erases_pure _

theorem erases_getAttachedDataWithoutVerifying (z : SigningKeyczar ρ) (signedBlob : Bytes) :
    Erases (Requesting.getAttachedDataWithoutVerifying z signedBlob) (getAttachedDataWithoutVerifying z signedBlob) := by
  refine (erases_checkFormatAndGetHash _).bind fun parts => ?_
  refine (erases_lift _).bind fun keys => ?_
  exact (erases_getBlob _).bind fun blobParts => erases_pure _

theorem erases_getAttachedData (z : SigningKeyczar ρ) (signedBlob hidden : Bytes) :
    Erases (Requesting.getAttachedData z signedBlob hidden) (getAttachedData z signedBlob hidden) := by
  refine (erases_attachedVerify z signedBlob hidden).bind fun verified => ?_
  cases verified with
  | true => exact erases_getAttachedDataWithoutVerifying z signedBlob
  | false =>
    rw [if_neg Bool.false_ne_true, if_neg Bool.false_ne_true]
    exact erases_lift _

/-! ## How each step ends -/

/-- The size that stands in a signature behind the header, as an `int`. -/
def sizeField (bytes : Bytes) : Int := int32 ((readBe32 (bytes.take 4)).getD 0)

theorem getArray_of_le {b : ByteBuffer} {n : Nat} (h : n ≤ b.remaining) (arrays : List Int) :
    ∃ b', getArray b n arrays = .ok (b.rest.take n, b') (arrays ++ [(n : Int)]) ∧ b'.rest = b.rest.drop n := by
  have hnew : newArray n arrays = .ok () (arrays ++ [(n : Int)]) := if_neg (by omega)
  obtain ⟨b', hget, hc, hp, hl, -⟩ := ByteBuffer.get_ok h
  refine ⟨b', ?_, ByteBuffer.rest_drop hc hp hl⟩
  unfold getArray
  rw [bind_ok hnew, Int.toNat_natCast, hget]
  rfl

theorem getArray_of_lt {b : ByteBuffer} {n : Int} (h : b.remaining < n) (arrays : List Int) :
    getArray b n arrays = .error (.runtime .bufferUnderflow) (arrays ++ [n]) := by
  obtain ⟨m, rfl⟩ := Int.eq_ofNat_of_zero_le (by omega : 0 ≤ n)
  have hnew : newArray m arrays = .ok () (arrays ++ [(m : Int)]) := if_neg (by omega)
  unfold getArray
  rw [bind_ok hnew, Int.toNat_natCast, ByteBuffer.get_error (by omega)]
  rfl

theorem getArray_of_neg (b : ByteBuffer) {n : Int} (h : n < 0) (arrays : List Int) :
    getArray b n arrays = .error (.runtime .negativeArraySize) (arrays ++ [n]) := by
  have hnew : newArray n arrays = .error (.runtime .negativeArraySize) (arrays ++ [n]) := if_pos h
  unfold getArray
  exact bind_error hnew

/-- How the header is read: nothing is there, the version is another one, the hash is cut off, or it is there. -/
theorem checkFormatAndGetHash_cases (bytes : Bytes) (arrays : List Int) :
    (bytes = [] ∧ Requesting.checkFormatAndGetHash (ByteBuffer.wrap bytes) arrays = .error (.runtime .bufferUnderflow) arrays) ∨
    (∃ version rest, bytes = version :: rest ∧ version ≠ 0 ∧
      Requesting.checkFormatAndGetHash (ByteBuffer.wrap bytes) arrays = .error (.keyczar (.badVersion version)) arrays) ∨
    (∃ rest, bytes = 0 :: rest ∧ rest.length < 4 ∧
      Requesting.checkFormatAndGetHash (ByteBuffer.wrap bytes) arrays = .error (.runtime .bufferUnderflow) (arrays ++ [4])) ∨
    (∃ rest b, bytes = 0 :: rest ∧ 4 ≤ rest.length ∧
      Requesting.checkFormatAndGetHash (ByteBuffer.wrap bytes) arrays = .ok (rest.take 4, b) (arrays ++ [4]) ∧ b.rest = rest.drop 4) := by
  cases bytes with
  | nil => exact Or.inl ⟨rfl, rfl⟩
  | cons version rest =>
    obtain ⟨b, hget, hrest⟩ := ByteBuffer.get_append (b := ByteBuffer.wrap (version :: rest)) (x := [version]) (y := rest) (n := 1)
      (by simp) rfl
    have hrun : Requesting.checkFormatAndGetHash (ByteBuffer.wrap (version :: rest)) =
        if [version] ≠ FORMAT_BYTES then lift (.error (.keyczar (.badVersion version))) else getArray b KEY_HASH_SIZE := by
      unfold Requesting.checkFormatAndGetHash
      rw [hget, mapError_ok, lift_ok_bind]
      rfl
    right
    by_cases hversion : version = 0
    · subst hversion
      right
      rw [if_neg (by decide)] at hrun
      rw [hrun]
      have hremaining : b.remaining = rest.length := by rw [← ByteBuffer.length_rest, hrest]
      by_cases hlen : rest.length < 4
      · left
        exact ⟨rest, rfl, hlen, getArray_of_lt (b := b) (n := (KEY_HASH_SIZE : Nat)) (by rw [hremaining]; exact_mod_cast hlen) arrays⟩
      · right
        obtain ⟨b', hhash, hrest'⟩ := getArray_of_le (b := b) (n := KEY_HASH_SIZE)
          (by rw [hremaining]; exact Nat.le_of_not_lt hlen) arrays
        rw [hrest] at hhash hrest'
        exact ⟨rest, b', rfl, Nat.le_of_not_lt hlen, hhash, hrest'⟩
    · left
      have hformat : [version] ≠ FORMAT_BYTES := fun h => hversion (List.singleton_inj.mp h)
      rw [if_pos hformat] at hrun
      exact ⟨version, rest, rfl, hversion, by rw [hrun, lift_error]⟩

/-- How the blob is read: the size is cut off, or it is negative, or more than there is, or the blob is there. -/
theorem getBlob_cases (b : ByteBuffer) (arrays : List Int) :
    (b.rest.length < 4 ∧ Requesting.getBlob b arrays = .error (.runtime .bufferUnderflow) arrays) ∨
    (sizeField b.rest < 0 ∧
      Requesting.getBlob b arrays = .error (.runtime .negativeArraySize) (arrays ++ [sizeField b.rest])) ∨
    (b.rest.length < 4 + sizeField b.rest ∧
      Requesting.getBlob b arrays = .error (.runtime .bufferUnderflow) (arrays ++ [sizeField b.rest])) ∨
    (4 ≤ b.rest.length ∧ 0 ≤ sizeField b.rest ∧ 4 + sizeField b.rest ≤ b.rest.length ∧ ∃ blob b',
      Requesting.getBlob b arrays = .ok (blob, b') (arrays ++ [sizeField b.rest]) ∧ b'.remaining ≤ b.remaining) := by
  have hremaining := b.length_rest
  unfold Requesting.getBlob getInt
  by_cases hlen : b.rest.length < 4
  · rw [ByteBuffer.get_error (by omega)]
    exact Or.inl ⟨hlen, rfl⟩
  right
  obtain ⟨b₁, hget, hc, hp, hl, -⟩ := ByteBuffer.get_ok (b := b) (n := 4) (by omega)
  have hrest := ByteBuffer.rest_drop hc hp hl
  have hremaining₁ : b₁.remaining = b.remaining - 4 := by
    rw [← ByteBuffer.length_rest, hrest, List.length_drop, hremaining]
  rw [hget]
  dsimp only
  rw [bind_ok (lift_ok _ _)]
  dsimp only
  rw [show int32 ((readBe32 (b.rest.take 4)).getD 0) = sizeField b.rest from rfl]
  by_cases hneg : sizeField b.rest < 0
  · exact Or.inl ⟨hneg, getArray_of_neg b₁ hneg arrays⟩
  right
  by_cases hlong : b.rest.length < 4 + sizeField b.rest
  · exact Or.inl ⟨hlong, getArray_of_lt (by omega) arrays⟩
  right
  obtain ⟨n, hn⟩ := Int.eq_ofNat_of_zero_le (Int.not_lt.mp hneg)
  rw [hn] at hlong ⊢
  obtain ⟨b₂, hblob, hrest₂⟩ := getArray_of_le (b := b₁) (n := n) (by omega) arrays
  refine ⟨Nat.le_of_not_lt hlen, by omega, by omega, _, b₂, hblob, ?_⟩
  rw [← ByteBuffer.length_rest, hrest₂, List.length_drop, ByteBuffer.length_rest, hremaining₁]
  omega

/-! ## Which signatures fail cleanly -/

/-- No array is longer than a signature. -/
def NoneLonger (arrays : List Int) (signedBlob : Bytes) : Prop := ∀ n ∈ arrays, n ≤ (signedBlob.length : Int)

theorem noneLonger_nil (signedBlob : Bytes) : NoneLonger [] signedBlob := nofun

theorem NoneLonger.append {arrays : List Int} {signedBlob : Bytes} (h : NoneLonger arrays signedBlob) {n : Int}
    (hn : n ≤ (signedBlob.length : Int)) : NoneLonger (arrays ++ [n]) signedBlob := by
  intro m hm
  rcases List.mem_append.mp hm with hm | hm
  · exact h m hm
  · cases List.mem_singleton.mp hm
    exact hn

/-- A call on a signature returns or throws one of the checked exceptions of the library, and no array that it requests for a part of
the signature is longer than the signature. -/
def FailsCleanly {α : Type} (signedBlob : Bytes) (r : EStateM.Result Exception (List Int) α) : Prop :=
  (∀ e, outcome r = .error e → ∃ k, e = .keyczar k) ∧ NoneLonger (leaves r) signedBlob

/-- The size is there, it is not negative, and not larger than what is behind it. -/
def SizeFits (signedBlob : Bytes) : Prop :=
  9 ≤ signedBlob.length ∧ 0 ≤ sizeField (signedBlob.drop 5) ∧ 9 + sizeField (signedBlob.drop 5) ≤ signedBlob.length

theorem not_failsCleanly {α : Type} (signedBlob : Bytes) (e : RuntimeException) (arrays : List Int) :
    ¬ FailsCleanly signedBlob (.error (.runtime e) arrays : EStateM.Result Exception (List Int) α) := by
  intro h
  obtain ⟨k, hk⟩ := h.1 (.runtime e) rfl
  cases hk

theorem failsCleanly_error {α : Type} {signedBlob : Bytes} {arrays : List Int} (h : NoneLonger arrays signedBlob)
    (k : KeyczarException) : FailsCleanly signedBlob (.error (.keyczar k) arrays : EStateM.Result Exception (List Int) α) := by
  refine ⟨fun e he => ?_, h⟩
  cases he
  exact ⟨k, rfl⟩

theorem failsCleanly_ok {α : Type} {signedBlob : Bytes} {arrays : List Int} (h : NoneLonger arrays signedBlob) (a : α) :
    FailsCleanly signedBlob (.ok a arrays : EStateM.Result Exception (List Int) α) :=
  ⟨nofun, h⟩

/-- Behind the header of a signature, the blob is there exactly when its size fits. -/
theorem getBlob_behind_header {signedBlob rest : Bytes} {b : ByteBuffer} (hbytes : signedBlob = 0 :: rest) (hrest : b.rest = rest.drop 4)
    (hlen : 4 ≤ rest.length) {arrays : List Int} (harrays : NoneLonger arrays signedBlob) :
    (¬ SizeFits signedBlob ∧ ∃ e arrays', Requesting.getBlob b arrays = .error (.runtime e) arrays') ∨
    (SizeFits signedBlob ∧ ∃ blob b' arrays', Requesting.getBlob b arrays = .ok (blob, b') arrays' ∧
      b'.remaining ≤ signedBlob.length ∧ NoneLonger arrays' signedBlob) := by
  have hlength : signedBlob.length = rest.length + 1 := by rw [hbytes, List.length_cons]
  have hdrop : signedBlob.drop 5 = b.rest := by rw [hbytes, hrest, List.drop_succ_cons]
  have hleft : b.rest.length = rest.length - 4 := by rw [hrest, List.length_drop]
  unfold SizeFits
  rw [hdrop]
  rcases getBlob_cases b arrays with ⟨hshort, heq⟩ | ⟨hneg, heq⟩ | ⟨hlong, heq⟩ | ⟨hfour, hnonneg, hfits, blob, b', heq, hle⟩
  · exact Or.inl ⟨fun h => by omega, _, _, heq⟩
  · exact Or.inl ⟨fun h => by omega, _, _, heq⟩
  · exact Or.inl ⟨fun h => by omega, _, _, heq⟩
  · refine Or.inr ⟨by omega, blob, b', _, heq, ?_, ?_⟩
    · rw [← ByteBuffer.length_rest b] at hle
      omega
    · exact harrays.append (by omega)

/-- What is verified behind the blob can be packed exactly when its length and four more are an `int`. -/
theorem hiddenPlusLength_cases (hidden : Bytes) :
    (4 + hidden.length < 2 ^ 31 ∧ ∃ bytes,
      (if 0 < hidden.length then Util.lenPrefix hidden else .ok (Util.fromInt 0)) = .ok bytes) ∨
    (¬ 4 + hidden.length < 2 ^ 31 ∧ ∃ e,
      (if 0 < hidden.length then Util.lenPrefix hidden else .ok (Util.fromInt 0)) = .error e) := by
  by_cases hlt : 4 + hidden.length < 2 ^ 31
  · exact Or.inl ⟨hlt, _, hiddenPlusLength_of_lt hlt⟩
  · refine Or.inr ⟨hlt, ?_⟩
    have hpos : 0 < hidden.length := by omega
    rw [if_pos hpos]
    cases heq : Util.lenPrefix hidden with
    | error e => exact ⟨e, rfl⟩
    | ok bytes => exact absurd (Util.lt_of_lenPrefix hpos heq) hlt

/-- What follows a header that was read, or the failure to read it. -/
theorem failsCleanly_header_iff {α : Type} {signedBlob : Bytes} {arrays : List Int} (harrays : NoneLonger arrays signedBlob)
    {f : Bytes × ByteBuffer → Requesting α} {cond : Prop}
    (hf : ∀ rest b, signedBlob = 0 :: rest → 4 ≤ rest.length → b.rest = rest.drop 4 →
      (FailsCleanly signedBlob (f (rest.take 4, b) (arrays ++ [4])) ↔ cond)) :
    FailsCleanly signedBlob ((Requesting.checkFormatAndGetHash (ByteBuffer.wrap signedBlob) >>= f) arrays) ↔
      signedBlob ≠ [] ∧ (signedBlob.head? = some 0 → 5 ≤ signedBlob.length ∧ cond) := by
  rcases checkFormatAndGetHash_cases signedBlob arrays with ⟨hnil, heq⟩ | ⟨version, rest, hbytes, hversion, heq⟩ |
    ⟨rest, hbytes, hshort, heq⟩ | ⟨rest, b, hbytes, hlen, heq, hrest⟩
  · rw [bind_error heq]
    exact ⟨fun h => absurd h (not_failsCleanly _ _ _), fun h => absurd hnil h.1⟩
  · rw [bind_error heq]
    refine ⟨fun _ => ⟨by rw [hbytes]; exact List.cons_ne_nil _ _, ?_⟩, fun _ => failsCleanly_error harrays _⟩
    intro hhead
    rw [hbytes] at hhead
    exact absurd (Option.some.inj hhead) hversion
  · rw [bind_error heq]
    refine ⟨fun h => absurd h (not_failsCleanly _ _ _), fun h => ?_⟩
    have hfive := (h.2 (by rw [hbytes]; rfl)).1
    rw [hbytes, List.length_cons] at hfive
    omega
  · rw [bind_ok heq, hf rest b hbytes hlen hrest]
    have hfive : 5 ≤ signedBlob.length := by
      rw [hbytes, List.length_cons]
      omega
    refine ⟨fun h => ⟨by rw [hbytes]; exact List.cons_ne_nil _ _, fun _ => ⟨hfive, h⟩⟩, fun h => ?_⟩
    exact (h.2 (by rw [hbytes]; rfl)).2

/-- `getVerifyingKey` finds the keys under the hash or throws a checked exception. -/
theorem getVerifyingKey_cases (z : SigningKeyczar ρ) (hash : Bytes) :
    (z.getKey hash = [] ∧ getVerifyingKey z hash = .error (.keyczar (.keyNotFound hash))) ∨
      (z.getKey hash ≠ [] ∧ getVerifyingKey z hash = .ok (z.getKey hash)) := by
  unfold getVerifyingKey
  cases hkeys : z.getKey hash with
  | nil => exact Or.inl ⟨rfl, rfl⟩
  | cons key keys => exact Or.inr ⟨List.cons_ne_nil _ _, rfl⟩

/-- `getAttachedDataWithoutVerifying` gets to the size only when there is a key. -/
theorem getAttachedDataWithoutVerifying_failsCleanly_iff (z : SigningKeyczar ρ) (signedBlob : Bytes) {arrays : List Int}
    (harrays : NoneLonger arrays signedBlob) :
    FailsCleanly signedBlob (Requesting.getAttachedDataWithoutVerifying z signedBlob arrays) ↔
      signedBlob ≠ [] ∧ (signedBlob.head? = some 0 → 5 ≤ signedBlob.length ∧
        (z.getKey ((signedBlob.drop 1).take KEY_HASH_SIZE) ≠ [] → SizeFits signedBlob)) := by
  refine failsCleanly_header_iff harrays fun rest b hbytes hlen hrest => ?_
  have hhash : (signedBlob.drop 1).take KEY_HASH_SIZE = rest.take 4 := by rw [hbytes]; rfl
  have hfour : NoneLonger (arrays ++ [4]) signedBlob :=
    harrays.append (by rw [hbytes, List.length_cons]; omega)
  rw [hhash]
  dsimp only
  rcases getVerifyingKey_cases z (rest.take 4) with ⟨hnone, heq⟩ | ⟨hsome, heq⟩
  · rw [heq, bind_error (lift_error _ _)]
    exact ⟨fun _ h => absurd hnone h, fun _ => failsCleanly_error hfour _⟩
  · rw [heq, lift_ok_bind]
    rcases getBlob_behind_header hbytes hrest hlen hfour with ⟨hbad, e, arrays', hrun⟩ | ⟨hfits, blob, b', arrays', hrun, -, hle⟩
    · rw [bind_error hrun]
      exact ⟨fun h => absurd h (not_failsCleanly _ _ _), fun h => absurd (h hsome) hbad⟩
    · rw [bind_ok hrun]
      exact ⟨fun _ _ => hfits, fun _ => failsCleanly_ok hle _⟩

/-- `attachedVerify` and what goes on with its result: the parts are cut out before the keys are looked for. -/
theorem attachedVerify_failsCleanly_iff {α : Type} (z : SigningKeyczar ρ) (signedBlob hidden : Bytes) (f : Bool → Requesting α)
    (hf : ∀ verified arrays, SizeFits signedBlob → (NoneLonger arrays signedBlob) →
      signedBlob ≠ [] → FailsCleanly signedBlob (f verified arrays)) :
    FailsCleanly signedBlob ((Requesting.attachedVerify z signedBlob hidden >>= f) []) ↔
      signedBlob ≠ [] ∧ (signedBlob.head? = some 0 → 5 ≤ signedBlob.length ∧ SizeFits signedBlob ∧ 4 + hidden.length < 2 ^ 31) := by
  unfold Requesting.attachedVerify
  rw [bind_assoc]
  refine failsCleanly_header_iff (noneLonger_nil _) fun rest b hbytes hlen hrest => ?_
  have hfour : NoneLonger ([] ++ [4]) signedBlob :=
    (noneLonger_nil _).append (by rw [hbytes, List.length_cons]; omega)
  dsimp only
  rw [bind_assoc]
  rcases getBlob_behind_header hbytes hrest hlen hfour with ⟨hbad, e, arrays', hrun⟩ | ⟨hfits, blob, b', arrays', hrun, hle, harrays⟩
  · rw [bind_error hrun]
    exact ⟨fun h => absurd h (not_failsCleanly _ _ _), fun h => absurd h.1 hbad⟩
  · rw [bind_ok hrun]
    obtain ⟨b'', hsig, -⟩ := getArray_of_le (Nat.le_refl b'.remaining) arrays'
    have hthree := harrays.append (by exact_mod_cast hle : (b'.remaining : Int) ≤ signedBlob.length)
    dsimp only
    rw [bind_assoc, bind_ok hsig]
    dsimp only
    rw [bind_assoc]
    rcases hiddenPlusLength_cases hidden with ⟨hlt, bytes, hpack⟩ | ⟨hlarge, e, hpack⟩
    · rw [hpack, mapError_ok, lift_ok_bind, bind_assoc]
      refine ⟨fun _ => ⟨hfits, hlt⟩, fun _ => ?_⟩
      rcases getVerifyingKey_cases z (rest.take 4) with ⟨-, heq⟩ | ⟨-, heq⟩
      · rw [heq, bind_error (lift_error _ _)]
        exact failsCleanly_error hthree _
      · rw [heq, lift_ok_bind, pure_bind]
        exact hf _ _ hfits hthree (by rw [hbytes]; exact List.cons_ne_nil _ _)
    · rw [hpack, mapError_error, bind_error (lift_error _ _)]
      exact ⟨fun h => absurd h (not_failsCleanly _ _ _), fun h => absurd h.2 hlarge⟩

/-- The calls on attached signatures fail cleanly, and request no array that is longer than the signature, exactly when the signature has a
first byte, and if that is the version byte the size behind the header is there and fits. Without verification the size is looked at
only when the hash leads to a key; with it the hidden bytes have to be packed. -/
theorem attached_failsCleanly_iff (z : SigningKeyczar ρ) (signedBlob hidden : Bytes) :
    (FailsCleanly signedBlob (Requesting.attachedVerify z signedBlob hidden []) ↔
      signedBlob ≠ [] ∧ (signedBlob.head? = some 0 → SizeFits signedBlob ∧ 4 + hidden.length < 2 ^ 31)) ∧
    (FailsCleanly signedBlob (Requesting.getAttachedData z signedBlob hidden []) ↔
      signedBlob ≠ [] ∧ (signedBlob.head? = some 0 → SizeFits signedBlob ∧ 4 + hidden.length < 2 ^ 31)) ∧
    (FailsCleanly signedBlob (Requesting.getAttachedDataWithoutVerifying z signedBlob []) ↔
      signedBlob ≠ [] ∧ (signedBlob.head? = some 0 → 5 ≤ signedBlob.length ∧
        (z.getKey ((signedBlob.drop 1).take KEY_HASH_SIZE) ≠ [] → SizeFits signedBlob))) := by
  have hfive : (signedBlob.head? = some 0 → 5 ≤ signedBlob.length ∧ SizeFits signedBlob ∧ 4 + hidden.length < 2 ^ 31) ↔
      (signedBlob.head? = some 0 → SizeFits signedBlob ∧ 4 + hidden.length < 2 ^ 31) := by
    refine forall_congr' fun _ => and_iff_right_of_imp fun h => ?_
    exact Nat.le_trans (by decide) h.1.1
  refine ⟨?_, ?_, getAttachedDataWithoutVerifying_failsCleanly_iff z signedBlob (noneLonger_nil _)⟩
  · have h := attachedVerify_failsCleanly_iff z signedBlob hidden pure fun verified arrays _ harrays _ =>
      failsCleanly_ok harrays verified
    rw [bind_pure, hfive] at h
    exact h
  · rw [← hfive]
    refine attachedVerify_failsCleanly_iff z signedBlob hidden _ fun verified arrays hfits harrays hne => ?_
    cases verified with
    | true =>
      exact (getAttachedDataWithoutVerifying_failsCleanly_iff z signedBlob harrays).mpr
        ⟨hne, fun _ => ⟨Nat.le_trans (by decide) hfits.1, fun _ => hfits⟩⟩
    | false => exact failsCleanly_error harrays _

/-- Nine bytes with the size -1 make every call throw a `NegativeArraySizeException`; no bytes make it throw a `BufferUnderflowException`; and
nine bytes with the size 2^31 - 1 make it request an array of that length. -/
theorem size_is_not_checked :
    attachedVerify ({} : SigningKeyczar Unit) [0, 1, 2, 3, 4, 255, 255, 255, 255] [] = .error (.runtime .negativeArraySize) ∧
    getAttachedData ({} : SigningKeyczar Unit) [] [] = .error (.runtime .bufferUnderflow) ∧
    2147483647 ∈ leaves (Requesting.attachedVerify ({} : SigningKeyczar Unit) [0, 1, 2, 3, 4, 127, 255, 255, 255] [] []) ∧
    ¬ FailsCleanly [0, 1, 2, 3, 4, 127, 255, 255, 255]
      (Requesting.attachedVerify ({} : SigningKeyczar Unit) [0, 1, 2, 3, 4, 127, 255, 255, 255] [] []) := by
  have hlong : 2147483647 ∈
      leaves (Requesting.attachedVerify ({} : SigningKeyczar Unit) [0, 1, 2, 3, 4, 127, 255, 255, 255] [] []) := by
    decide
  refine ⟨by decide, by decide, hlong, fun h => ?_⟩
  exact absurd (h.2 _ hlong) (by decide)

end Verifier

end Java
