import Keyczar.Python.StreamWriter
import Keyczar.Python.Reload
import Keyczar.Lib.Throwing

/-!
# Calls that need a primary key

`Encrypter` and `Signer` look for a `NoPrimaryKeyError` to raise after the property `primary_key` has looked `None` up in the dictionary of
keys, which raises a `KeyNotFoundError`. The documented error is never raised.
-/

namespace Python

open Throwing

variable {κ ρ : Type}

/-- `UnversionedSigner.Sign`. -/
def UnversionedSigner.sign (C : KeyClass κ ρ) (s : Keyczar κ) (random : ρ) (data : Bytes) (encoder : Option (Bytes → Bytes)) :
    Except PyError Bytes := do
  let signingKey ← s.primaryKey
  let signature ← C.sign signingKey random data
  return encodeWith encoder signature

/-! ## The calls -/

/-- A call that needs a primary key, with the randomness it draws and its encoder. A stream writer is made by the constructor that is
given. -/
inductive PrimaryCall (κ ρ : Type) where
  | encrypt (random : ρ) (data : Bytes) (encoder : Option (Bytes → Bytes))
  | createEncryptingStreamWriter (newWriter : κ → Except PyError Unit)
  | sign (random : ρ) (data : Bytes) (encoder : Option (Bytes → Bytes))
  | attachedSign (random : ρ) (data nonce : Bytes) (encoder : Option (Bytes → Bytes))
  | unversionedSign (random : ρ) (data : Bytes) (encoder : Option (Bytes → Bytes))

namespace PrimaryCall

/-- Whether a call returns, and what it raises. -/
def run (C : KeyClass κ ρ) (s : Keyczar κ) : PrimaryCall κ ρ → Except PyError Unit
  | encrypt random data encoder => (Encrypter.encrypt C s random data encoder).map fun _ => ()
  | createEncryptingStreamWriter newWriter => s.primaryKey >>= newWriter
  | sign random data encoder => (Signer.sign C s random data encoder).map fun _ => ()
  | attachedSign random data nonce encoder => (Signer.attachedSign C s random data nonce encoder).map fun _ => ()
  | unversionedSign random data encoder => (UnversionedSigner.sign C s random data encoder).map fun _ => ()

/-- With the constructor of the writer for AES keys it is the call on a set of such keys. -/
theorem run_createEncryptingStreamWriter (P : Primitives) (s : Keyczar AesKey) (outputStream ivBytes : Bytes) :
    run (aesKeys P) s (.createEncryptingStreamWriter fun key => (EncryptingStreamWriter.init P key outputStream ivBytes).map fun _ => ()) =
      (Encrypter.createEncryptingStreamWriter P s outputStream ivBytes).map fun _ => () := by
  unfold run Encrypter.createEncryptingStreamWriter
  cases s.primaryKey with
  | error e => rfl
  | ok key => rfl

/-- The constructor of the writer does not raise the error. -/
def Silent : PrimaryCall κ ρ → Prop
  | createEncryptingStreamWriter newWriter => ∀ key, newWriter key ≠ .error .noPrimaryKeyError
  | _ => True

end PrimaryCall

/-- No operation of a key raises the error: `keys.py` does not name it. -/
structure KeyClass.Silent (C : KeyClass κ ρ) : Prop where
  encrypt : ∀ key random data, C.encrypt key random data ≠ .error .noPrimaryKeyError
  sign : ∀ key random data, C.sign key random data ≠ .error .noPrimaryKeyError

theorem silent_aesKeys (P : Primitives) : (aesKeys P).Silent where
  encrypt key random data := by
    show key.encrypt P random.val data ≠ _
    by_cases hkey : validKeyLength key.keyBytes.length = true
    · rw [AesKey.encrypt_eq P key random.val data hkey]
      intro h
      cases h
    · have hnew : AesCipher.new key.keyBytes random.val = .error .valueError := if_neg hkey
      rw [AesKey.encrypt, hnew]
      intro h
      cases h
  sign key _ message := by
    intro h
    cases h

theorem silent_hmacKeys (P : Primitives) : (hmacKeys P).Silent where
  encrypt _ _ _ := nofun
  sign _ _ _ := nofun

theorem silent_init (P : Primitives) (key : AesKey) (outputStream ivBytes : Bytes) :
    (EncryptingStreamWriter.init P key outputStream ivBytes).map (fun _ => ()) ≠ .error .noPrimaryKeyError := by
  unfold EncryptingStreamWriter.init AesCipher.new
  split
  · exact nofun
  · exact nofun

/-! ## What is raised -/

/-- Looking a key up raises another error. -/
theorem primaryKey_ne_noPrimaryKeyError (s : Keyczar κ) : s.primaryKey ≠ .error .noPrimaryKeyError := by
  unfold Keyczar.primaryKey Keyczar.getKey
  split
  · exact nofun
  · exact nofun

theorem packByteArray_ne_noPrimaryKeyError (array : Option Bytes) : packByteArray array ≠ .error .noPrimaryKeyError := by
  cases array with
  | none => exact nofun
  | some array =>
    refine bind_ne_error ?_ fun _ => nofun
    unfold packInt
    split
    · exact nofun
    · exact nofun

variable {C : KeyClass κ ρ}

theorem internalSign_ne_noPrimaryKeyError (hC : C.Silent) (s : Keyczar κ) (random : ρ) (data : Bytes) (nonce : Option Bytes) :
    Signer.internalSign C s random data nonce ≠ .error .noPrimaryKeyError := by
  refine bind_ne_error (primaryKey_ne_noPrimaryKeyError s) fun key => ?_
  refine bind_ne_error ?_ fun msg => hC.sign key random msg
  exact bind_ne_error (packByteArray_ne_noPrimaryKeyError nonce) fun _ => nofun

/-- No call raises the documented error, whatever the key set. -/
theorem PrimaryCall.run_ne_noPrimaryKeyError (hC : C.Silent) (s : Keyczar κ) {call : PrimaryCall κ ρ} (hcall : call.Silent) :
    call.run C s ≠ .error .noPrimaryKeyError := by
  have hprimary := primaryKey_ne_noPrimaryKeyError s
  cases call with
  | encrypt random data encoder =>
    refine map_ne_error (bind_ne_error hprimary fun key => ?_) _
    exact bind_ne_error (hC.encrypt key random data) fun _ => nofun
  | createEncryptingStreamWriter newWriter => exact bind_ne_error hprimary hcall
  | sign random data encoder =>
    refine map_ne_error (bind_ne_error hprimary fun key => ?_) _
    exact bind_ne_error (internalSign_ne_noPrimaryKeyError hC s random data none) fun _ => nofun
  | attachedSign random data nonce encoder =>
    refine map_ne_error (bind_ne_error hprimary fun key => ?_) _
    refine bind_ne_error (packByteArray_ne_noPrimaryKeyError (some data)) fun packed => ?_
    exact bind_ne_error (internalSign_ne_noPrimaryKeyError hC s random data (some nonce)) fun _ => nofun
  | unversionedSign random data encoder =>
    refine map_ne_error (bind_ne_error hprimary fun key => ?_) _
    exact bind_ne_error (hC.sign key random data) fun _ => nofun

/-! ## The documented error -/

/-- A call raises the error on a key set without a primary version, and on no other. -/
def PrimaryCall.Documented (C : KeyClass κ ρ) (s : Keyczar κ) (call : PrimaryCall κ ρ) : Prop :=
  (s.primaryVersion = none → call.run C s = .error .noPrimaryKeyError) ∧
  (s.primaryVersion ≠ none → call.run C s ≠ .error .noPrimaryKeyError)

/-- The calls do what is documented exactly on the key sets that have a primary version. -/
theorem PrimaryCall.documented_iff (hC : C.Silent) (s : Keyczar κ) {call : PrimaryCall κ ρ} (hcall : call.Silent) :
    call.Documented C s ↔ s.primaryVersion ≠ none := by
  have hne := run_ne_noPrimaryKeyError hC s hcall
  constructor
  · rintro ⟨hnone, -⟩ h
    exact hne (hnone h)
  · intro h
    exact ⟨fun hnone => absurd hnone h, fun _ => hne⟩

/-- A set that has been loaded without a primary version: the error is that of a key that is not found. -/
theorem PrimaryCall.run_of_none {accept : KeyPurpose → Bool} {order : DictOrder} {reader : Reader κ} {s : Keyczar κ}
    (h : Keyczar.init C accept order reader = .ok s) (hnone : s.primaryVersion = none) (call : PrimaryCall κ ρ) :
    call.run C s = .error (.keyNotFoundError .none) := by
  have hprimary : s.primaryKey = .error (.keyNotFoundError .none) := by
    rw [Keyczar.primaryKey, hnone]
    dsimp only
    rw [Keyczar.getKey, (GenericKeyczar.entries_of_init h).nameless]
  cases call with
  | encrypt random data encoder =>
    rw [run, Encrypter.encrypt, hprimary]
    rfl
  | createEncryptingStreamWriter newWriter =>
    rw [run, hprimary]
    rfl
  | sign random data encoder =>
    rw [run, Signer.sign, hprimary]
    rfl
  | attachedSign random data nonce encoder =>
    rw [run, Signer.attachedSign, hprimary]
    rfl
  | unversionedSign random data encoder =>
    rw [run, UnversionedSigner.sign, hprimary]
    rfl

/-- The small key set signs without raising the error. -/
theorem PrimaryCall.documented_smallSet : (PrimaryCall.sign () [1, 2] none).Documented (hmacKeys Primitives.plain) smallSet := by
  have hcall : (PrimaryCall.sign () [1, 2] none : PrimaryCall HmacKey Unit).Silent := trivial
  exact (documented_iff (silent_hmacKeys Primitives.plain) smallSet hcall).mpr (by decide)

/-- Once its primary version is demoted, every call looks `None` up. -/
theorem demoted_set_has_no_documented_error :
    (GenericKeyczar.demote smallSet 1).2.primaryVersion = none ∧
    (PrimaryCall.sign () [1, 2] none).run (hmacKeys Primitives.plain) (GenericKeyczar.demote smallSet 1).2 =
      .error (.keyNotFoundError .none) ∧
    ¬ (PrimaryCall.sign () [1, 2] none).Documented (hmacKeys Primitives.plain) (GenericKeyczar.demote smallSet 1).2 := by
  have hnone : (GenericKeyczar.demote smallSet 1).2.primaryVersion = none := rfl
  have hrun : (PrimaryCall.sign () [1, 2] none).run (hmacKeys Primitives.plain) (GenericKeyczar.demote smallSet 1).2 =
      .error (.keyNotFoundError .none) := rfl
  refine ⟨hnone, hrun, ?_⟩
  rintro ⟨hdocumented, -⟩
  have herror := hdocumented hnone
  rw [hrun] at herror
  cases herror

end Python
