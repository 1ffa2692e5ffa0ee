import Keyczar.Python.Keys

/-!
# Session keys

A session key travels as two packed byte arrays. The receiver unpacks whatever its crypter decrypts, so the unpacking loop runs on
bytes that the sender chose.
-/

namespace Python

open Bytes

/-- `_Session.LoadPackedKey`, when its unpacking loop ends within `fuel` turns. -/
def loadPackedKey (packedKeyData : Bytes) (fuel : Nat) : Option (Except PyError AesKey) :=
  (unpackMultipleByteArrays packedKeyData fuel).map fun unpacked => do
    match ← unpacked with
    | [aesKeyBytes, hmacKeyBytes] =>
      let hmacKey : HmacKey := { keyBytes := hmacKeyBytes, size := setSize .hmacSha1 (hmacKeyBytes.length * 8) }
      return { keyBytes := aesKeyBytes, hmacKey, size := setSize .aes (aesKeyBytes.length * 8) }
    | _ => throw .assertionError

/-- `SessionDecrypter.__init__` for a crypter whose `Decrypt` is `decrypt`: the session key it ends with. -/
def sessionDecrypter (decrypt : Bytes → Except PyError Bytes) (sessionMaterial : Bytes) (fuel : Nat) :
    Option (Except PyError AesKey) :=
  match decrypt sessionMaterial with
  | .error e => some (.error e)
  | .ok packedKeyData => loadPackedKey packedKeyData fuel

theorem isSome_loadPackedKey (packedKeyData : Bytes) (fuel : Nat) :
    (loadPackedKey packedKeyData fuel).isSome = (unpackMultipleByteArrays packedKeyData fuel).isSome := by
  simp [loadPackedKey]

/-- Unpacking ends exactly when the length fields, followed from offset 4, come to no offset twice; and a session decrypter is
constructed, or its construction raises, exactly when that is so for what its crypter decrypts. -/
theorem unpacking_terminates_iff (decrypt : Bytes → Except PyError Bytes) (sessionMaterial : Bytes) :
    (∀ data : Bytes, (∃ fuel, (unpackMultipleByteArrays data fuel).isSome) ↔ (fieldOffsets data).Nodup) ∧
    ((∃ fuel, (sessionDecrypter decrypt sessionMaterial fuel).isSome) ↔
      ∀ data, decrypt sessionMaterial = .ok data → (fieldOffsets data).Nodup) := by
  refine ⟨unpackMultipleByteArrays_returns_iff, ?_⟩
  cases hd : decrypt sessionMaterial with
  | error e =>
    refine iff_of_true ⟨0, ?_⟩ nofun
    rw [sessionDecrypter, hd]
    rfl
  | ok packedKeyData =>
    have heq : ∀ fuel, (sessionDecrypter decrypt sessionMaterial fuel).isSome =
        (unpackMultipleByteArrays packedKeyData fuel).isSome := by
      intro fuel
      rw [sessionDecrypter, hd]
      exact isSome_loadPackedKey packedKeyData fuel
    simp only [heq, unpackMultipleByteArrays_returns_iff, Except.ok.injEq, forall_eq']

/-- Twelve bytes whose length field, at offset 4, is minus four: every turn of the loop comes back to offset 4. -/
theorem negative_length_loops :
    ¬(∃ fuel, (unpackMultipleByteArrays (be32 2 ++ be32 0xfffffffc ++ be32 0) fuel).isSome) ∧
      ¬∃ fuel, (sessionDecrypter .ok (be32 2 ++ be32 0xfffffffc ++ be32 0) fuel).isSome := by
  have hloop : ¬ ∃ fuel, (unpackMultipleByteArrays (be32 2 ++ be32 0xfffffffc ++ be32 0) fuel).isSome := by
    rw [unpackMultipleByteArrays_returns_iff]
    decide
  refine ⟨hloop, ?_⟩
  rintro ⟨fuel, hfuel⟩
  have hunpack : (loadPackedKey (be32 2 ++ be32 0xfffffffc ++ be32 0) fuel).isSome = true := hfuel
  rw [isSome_loadPackedKey] at hunpack
  exact hloop ⟨fuel, hunpack⟩

/-- Two arrays packed one after the other are unpacked in three turns. -/
example : unpackMultipleByteArrays (be32 2 ++ be32 1 ++ [7] ++ be32 0) 3 = some (.ok [[7], []]) := by decide

end Python
