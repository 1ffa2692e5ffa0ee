import Keyczar.Cpp.Cuts

/-!
# Signing in the C++ library

The class `Signer`, without an encoding of what it returns. A key that signs is an object of a key set with the operations of its class;
the randomness that it draws is given to it.
-/

namespace Cpp

open Bytes Throwing

/-- A key that signs: what it is as a key that verifies, its hash identifier, and its signatures. -/
structure SigningKey (ρ : Type) where
  key : Key
  hash : Option Bytes
  sign : ρ → Bytes → Option Bytes

variable {ρ : Type}

/-- `Header`. -/
def SigningKey.header (k : SigningKey ρ) : Option Bytes := do
  let hash ← k.hash
  let decoded ← base64WDecode hash
  return kVersionByte :: decoded

/-- A key whose identifier is the code of some bytes has them in its header. -/
theorem SigningKey.header_eq {k : SigningKey ρ} {hash : Bytes} (hlength : 0 < hash.length) (hhash : k.hash = base64WEncode hash) :
    k.header = some ([0] ++ hash) := by
  rw [header, hhash, base64WEncode_eq hlength, Option.bind_eq_bind, Option.bind_some, base64WDecode_encode hlength]
  rfl

/-- A `Signer` object: as a verifier, and the primary key of its key set. -/
structure Signer (ρ : Type) extends Keyczar where
  primaryKey : Option (SigningKey ρ)

namespace Signer

/-- `InternalSign`: the signature and the header. -/
def internalSign (z : Signer ρ) (random : ρ) (data : Bytes) (hidden : Option Bytes) : Option (Bytes × Bytes) :=
  match z.keyset with
  | none => none
  | some _ => do
    let key ← z.primaryKey
    let keyHeader ← key.header
    let signature ← key.sign random (Verifier.buildMessageToSign data hidden)
    return (signature, keyHeader)

/-- `Sign`. -/
def sign (z : Signer ρ) (random : ρ) (data : Bytes) : Option Bytes := do
  let (rawSignature, keyHeader) ← z.internalSign random data none
  return keyHeader ++ rawSignature

/-- `AttachedSign`. -/
def attachedSign (z : Signer ρ) (random : ρ) (data hidden : Bytes) : Option Bytes := do
  let (signatureBytes, keyHeader) ← z.internalSign random data (some hidden)
  return keyHeader ++ int32ToByteString data.length ++ data ++ signatureBytes

/-- What an attached call makes with a primary key whose identifier stands for the bytes `hash`. -/
theorem attachedSign_eq {z : Signer ρ} {keyset : Keyset} (hkeyset : z.keyset = some keyset) {k : SigningKey ρ}
    (hk : z.primaryKey = some k) {hash : Bytes} (hlength : 0 < hash.length) (hhash : k.hash = base64WEncode hash) {random : ρ}
    {data hidden sig : Bytes} (hsig : k.sign random (data ++ be32 hidden.length ++ hidden ++ [0]) = some sig) :
    z.attachedSign random data hidden = some ([0] ++ hash ++ (be32 data.length ++ data) ++ sig) := by
  have hheader := SigningKey.header_eq hlength hhash
  have hsign : k.sign random (Verifier.buildMessageToSign data (some hidden)) = some sig := hsig
  have hinternal : z.internalSign random data (some hidden) = some (sig, [0] ++ hash) := by
    simp only [internalSign, hkeyset, hk, hheader, hsign, Option.bind_eq_bind, Option.bind_some]
    rfl
  rw [attachedSign, hinternal, Option.bind_eq_bind, Option.bind_some, int32ToByteString]
  simp

end Signer

/-! ## What is verified of an attached signature -/

/-- The length field behind a header, whatever comes after it. -/
theorem byteStringToInt32_append {header rest : Bytes} (hheader : header.length = headerSize) (n : Nat) :
    byteStringToInt32 (header ++ be32 n ++ rest) headerSize = some (toInt n) := by
  have hlength : ¬ (header ++ be32 n ++ rest).length < headerSize + 4 := by
    rw [List.length_append, List.length_append, length_be32, hheader]
    exact Nat.not_lt.mpr (Nat.le_add_right _ _)
  have hfield : ((header ++ be32 n ++ rest).drop headerSize).take 4 = be32 n := by
    rw [List.append_assoc, List.drop_left' hheader, List.take_left' (length_be32 n)]
  rw [byteStringToInt32, if_neg hlength, hfield, readBe32_be32, Option.map_some, int32_eq_toInt, toInt_mod]

namespace Verifier

variable {hash data sig : Bytes}

/-- The length field of a blob. -/
theorem byteStringToInt32_layout (hhash : hash.length = kKeyHashSize) :
    byteStringToInt32 ([0] ++ hash ++ (be32 data.length ++ data) ++ sig) headerSize = some (toInt data.length) := by
  have hheader : ([0] ++ hash).length = headerSize := by rw [List.length_append, hhash]; rfl
  rw [← List.append_assoc ([0] ++ hash), List.append_assoc _ data]
  exact byteStringToInt32_append hheader data.length

/-- A blob whose data ends at an offset that an `int` holds is cut into its parts. -/
theorem parseAttachedSignature_layout (hhash : hash.length = kKeyHashSize) (hdata : 9 + data.length < 2 ^ 31) :
    parseAttachedSignature ([0] ++ hash ++ (be32 data.length ++ data) ++ sig) = .ok (some ([0] ++ hash, data, sig)) := by
  have hheader : ([0] ++ hash).length = headerSize := by rw [List.length_append, hhash]; rfl
  have hfront : ([0] ++ hash ++ be32 data.length).length = headerSize + 4 := by rw [List.length_append, hheader, length_be32]
  have hbody : ([0] ++ hash ++ (be32 data.length ++ data)).length = headerSize + 4 + data.length := by
    rw [← List.append_assoc, List.length_append, hfront]
  have hnum : byteStringToInt32 ([0] ++ hash ++ (be32 data.length ++ data) ++ sig) headerSize = some (data.length : Int) := by
    rw [byteStringToInt32_layout hhash, toInt_of_lt (by omega)]
  have hstart : (headerSize : Int) + 4 = (headerSize + 4 : Nat) := rfl
  have hend : toInt (((headerSize + 4 : Nat) : Int) + data.length) = (headerSize + 4 + data.length : Nat) := by
    rw [← Nat.cast_add]
    exact toInt_of_lt (by simp only [headerSize, kKeyHashSize]; omega)
  have hle : headerSize + 4 + data.length ≤ ([0] ++ hash ++ (be32 data.length ++ data) ++ sig).length := by
    rw [List.length_append, hbody]
    exact Nat.le_add_right _ _
  have hwithin : ¬ (Size.of (headerSize + 4 + data.length)).exceeds ([0] ++ hash ++ (be32 data.length ++ data) ++ sig).length = true := by
    rw [Size.exceeds, decide_eq_true_eq]
    exact Nat.not_lt.mpr hle
  have hcutHeader : (Size.of headerSize).take (([0] ++ hash ++ (be32 data.length ++ data) ++ sig).drop 0) = [0] ++ hash := by
    rw [Size.take, List.drop_zero, List.append_assoc, List.take_left' hheader]
  have hcutData : (Size.of data.length).take (([0] ++ hash ++ (be32 data.length ++ data) ++ sig).drop (headerSize + 4)) = data := by
    rw [Size.take, ← List.append_assoc, List.append_assoc ([0] ++ hash ++ be32 data.length), List.drop_left' hfront,
      List.take_left' rfl]
  have hcutSig : Size.npos.take (([0] ++ hash ++ (be32 data.length ++ data) ++ sig).drop (headerSize + 4 + data.length)) = sig := by
    rw [Size.take, List.drop_left' hbody]
  unfold parseAttachedSignature
  rw [substr_of_le (Nat.zero_le _), ok_bind, hcutHeader]
  simp only [hnum, hstart, hend, Size.ofInt_natCast]
  rw [if_neg hwithin, substr_of_le (Nat.le_trans (Nat.le_add_right _ _) hle), ok_bind, hcutData, substr_of_le hle, ok_bind, hcutSig]
  rfl

/-- A blob whose data ends further on is refused. -/
theorem parseAttachedSignature_of_large (hhash : hash.length = kKeyHashSize) (hlarge : 2 ^ 31 ≤ 9 + data.length)
    (hdata : 9 + data.length < 2 ^ 32) : parseAttachedSignature ([0] ++ hash ++ (be32 data.length ++ data) ++ sig) = .ok none := by
  have hnum : byteStringToInt32 ([0] ++ hash ++ (be32 data.length ++ data) ++ sig) headerSize = some (toInt data.length) :=
    byteStringToInt32_layout hhash
  have hoffset : ((headerSize : Nat) : Int) + 4 = 9 := rfl
  have hneg : toInt (((headerSize : Nat) : Int) + 4 + toInt data.length) < 0 := by
    rw [hoffset, toInt_add_toInt]
    exact toInt_neg (by omega) (by omega)
  unfold parseAttachedSignature
  rw [substr_of_le (Nat.zero_le _), ok_bind]
  simp only [hnum, Size.ofInt_of_neg hneg]
  rfl

variable (P : Primitives) (z : Keyczar)

/-- An attached signature of the right layout is verified by the key under its hash. -/
theorem attachedVerify_layout (hhash : hash.length = kKeyHashSize) (hdata : 9 + data.length < 2 ^ 31) {keyset : Keyset}
    (hkeyset : z.keyset = some keyset) {key : Key} (hkey : keyset.getKeyFromHash (Base64.encode Base64.webSafe hash) = some key)
    (hidden old : Bytes) :
    attachedVerify P z ([0] ++ hash ++ (be32 data.length ++ data) ++ sig) hidden old =
      .ok (key.verify P (data ++ (be32 hidden.length ++ hidden) ++ [0]) sig, data) := by
  have hlength : toInt ([0] ++ hash).length = headerSize := by rw [List.length_append, hhash]; rfl
  have hcut : (([0] ++ hash).drop 1).take kKeyHashSize = hash := by
    exact List.take_of_length_le (Nat.le_of_eq hhash)
  have hlookup : z.headerKey ([0] ++ hash) = some key := by
    rw [Keyczar.headerKey, if_neg (by rw [hlength]; exact Int.lt_irrefl _), hkeyset, hcut, Option.bind_some, hkey]
  have hmessage : buildMessageToSign data (some hidden) = data ++ (be32 hidden.length ++ hidden) ++ [0] := by
    simp [buildMessageToSign, int32ToByteString, kVersionByte]
  unfold attachedVerify internalVerify
  rw [parseAttachedSignature_layout hhash hdata, ok_bind]
  simp only [z.lookupKey_eq, hlookup, hmessage]
  rfl

end Verifier

end Cpp
