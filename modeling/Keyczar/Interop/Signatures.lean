import Keyczar.Format
import Keyczar.Python.SignedBytes
import Keyczar.Java.SignerRuns
import Keyczar.Cpp.Signer

/-!
# Attached signatures across the implementations

A key that signs as the three implementations hold it. All sign the same message and lay out the same blob, and all take a blob apart
in the same way. Where they differ is in the lengths they go up to: an array of Java, and an offset in the C++ library, is an `int`.
-/

namespace Interop

open Bytes

/-- The message of an attached signature: the data, the nonce behind its length, and the version byte. -/
def attachedMessage (data nonce : Bytes) : Bytes := data ++ (be32 nonce.length ++ nonce) ++ [Format.version]

/-- An attached signature: the header, the data behind its length, and the signature. -/
def attachedBlob (hash data sig : Bytes) : Bytes := [Format.version] ++ hash ++ (be32 data.length ++ data) ++ sig

/-- Two nonces for the same data make different messages. -/
theorem attachedMessage_inj {data nonce nonce' : Bytes} (h : attachedMessage data nonce = attachedMessage data nonce') :
    nonce = nonce' := by
  have hpacked := List.append_cancel_left (List.append_cancel_right h)
  exact (List.append_inj hpacked rfl).2

/-- A key that signs: its hash, the size that it announces for its signatures, and the two operations. -/
structure SharedSigner (ρ : Type) where
  hash : Bytes
  digestSize : Nat
  sign : ρ → Bytes → Bytes
  verify : Bytes → Bytes → Bool
  length_hash : hash.length = 4
  length_sign : ∀ random message, (sign random message).length ≤ digestSize

namespace SharedSigner

variable {ρ : Type}

/-- The keys of the Python library. -/
def pythonKeys : Python.KeyClass (SharedSigner ρ) ρ where
  hash k := k.hash
  length_hash k := k.length_hash
  encrypt _ _ _ := .error .attributeError
  decrypt _ _ := .error .attributeError
  sign k random message := .ok (k.sign random message)
  verify k message sig := .ok (k.verify message sig)

variable (k : SharedSigner ρ)

/-- The key of the Java library. -/
def java : Java.SigningKey ρ where
  hash := k.hash
  digestSize := k.digestSize
  sign random message := .ok (k.sign random message)
  verify message sig := .ok (k.verify message sig)
  length_hash := k.length_hash

/-- The key of the C++ library. -/
def cpp : Cpp.SigningKey ρ where
  key := .other (Base64.encode Base64.webSafe k.hash) k.verify
  hash := Cpp.base64WEncode k.hash
  sign random message := some (k.sign random message)

/-- It is the primary key of three key sets. -/
structure Primary (s : Python.Keyczar (SharedSigner ρ)) (z : Java.SigningKeyczar ρ) (c : Cpp.Signer ρ) : Prop where
  python : s.primaryKey = .ok k
  java : z.getPrimaryKey = some k.java
  cpp : c.primaryKey = some k.cpp
  keyset : ∃ keyset, c.keyset = some keyset

/-- It is found under its hash in three key sets. In Java other keys may be there too. -/
structure Found (s : Python.Keyczar (SharedSigner ρ)) (z : Java.SigningKeyczar ρ) (c : Cpp.Keyczar) : Prop where
  python : s.getKey (.hash (pythonKeys.hashId k)) = .ok k
  java : k.java ∈ z.getKey k.hash
  cpp : ∃ keyset, c.keyset = some keyset ∧ keyset.getKeyFromHash (Base64.encode Base64.webSafe k.hash) = some k.cpp.key

/-- Exactly one message goes with a signature, by the key and by what else a key set has under its hash. -/
structure Ideal (z : Java.SigningKeyczar ρ) (message sig : Bytes) : Prop where
  accepts : k.verify message sig = true
  refuses : ∀ message', k.verify message' sig = true → message' = message
  others : ∀ key ∈ z.getKey k.hash, ∀ message', key.verify message' sig = .ok true → message' = message

/-! ## What each implementation makes of it -/

variable {k} {s : Python.Keyczar (SharedSigner ρ)} {z : Java.SigningKeyczar ρ} {c : Cpp.Signer ρ} {random : ρ} {data nonce : Bytes}

theorem python_attachedSign (h : k.Primary s z c) (hdata : data.length < 2 ^ 31) (hnonce : nonce.length < 2 ^ 31) :
    Python.Signer.attachedSign pythonKeys s random data nonce none =
      .ok (attachedBlob k.hash data (k.sign random (attachedMessage data nonce))) := by
  have hmessage : (Python.SignCall.attachedSign data nonce).signedBytes = .ok (attachedMessage data nonce) := by
    simp only [Python.SignCall.signedBytes, Python.packByteArray_some_of_lt hdata, Python.signedBytes,
      Python.packByteArray_some_of_lt hnonce, bind, Except.bind]
    rfl
  rw [Python.Signer.attachedSign_eq, h.python]
  simp only [hmessage, bind, Except.bind]
  rfl

theorem java_attachedSign (h : k.Primary s z c) (hnonce : 4 + nonce.length < 2 ^ 31)
    (hblob : 9 + data.length + (k.sign random (attachedMessage data nonce)).length < 2 ^ 31) :
    Java.Signer.attachedSign z random data nonce =
      .ok (attachedBlob k.hash data (k.sign random (attachedMessage data nonce))) :=
  Java.Signer.attachedSign_of_lt h.java rfl (k.length_sign _ _) hnonce hblob

theorem cpp_attachedSign (h : k.Primary s z c) :
    c.attachedSign random data nonce = some (attachedBlob k.hash data (k.sign random (attachedMessage data nonce))) := by
  obtain ⟨keyset, hkeyset⟩ := h.keyset
  have hsign : k.cpp.sign random (data ++ be32 nonce.length ++ nonce ++ [0]) =
      some (k.sign random (attachedMessage data nonce)) := by
    rw [List.append_assoc data]
    rfl
  have hlength : 0 < k.hash.length := by
    rw [k.length_hash]
    exact Nat.zero_lt_succ _
  exact Cpp.Signer.attachedSign_eq hkeyset h.cpp hlength rfl hsign

variable {c : Cpp.Keyczar} {sig : Bytes}

theorem python_attachedVerify (h : k.Found s z c) (hdata : data.length < 2 ^ 31) (hnonce : nonce.length < 2 ^ 31) :
    Python.Verifier.attachedVerify pythonKeys s (attachedBlob k.hash data sig) nonce none =
      .ok (if k.verify (attachedMessage data nonce) sig then some data else none) := by
  have hlayout := Python.Verifier.attachedVerify_layout h.python hdata sig nonce
  have hmessage : Python.signedBytes data (some nonce) = .ok (attachedMessage data nonce) := by
    simp only [Python.signedBytes, Python.packByteArray_some_of_lt hnonce, bind, Except.bind]
    rfl
  rw [hmessage] at hlayout
  exact hlayout

/-- A nonce that cannot be packed raises. -/
theorem python_attachedVerify_of_large (h : k.Found s z c) (hdata : data.length < 2 ^ 31) (hnonce : 2 ^ 31 ≤ nonce.length) :
    ∃ e, Python.Verifier.attachedVerify pythonKeys s (attachedBlob k.hash data sig) nonce none = .error e := by
  have hlayout := Python.Verifier.attachedVerify_layout h.python hdata sig nonce
  have hmessage : Python.signedBytes data (some nonce) = .error .structError := by
    simp only [Python.signedBytes, Python.packByteArray, Python.packInt, if_neg (Nat.not_lt.mpr hnonce), bind, Except.bind]
  rw [hmessage] at hlayout
  exact ⟨_, hlayout⟩

theorem java_getVerifyingKey (h : k.Found s z c) : Java.Verifier.getVerifyingKey z k.hash = .ok (z.getKey k.hash) :=
  Java.Verifier.getVerifyingKey_of_mem h.java

theorem java_attachedVerify (h : k.Found s z c) (hideal : k.Ideal z (attachedMessage data nonce) sig)
    (hdata : data.length < 2 ^ 31) (hnonce : 4 + nonce.length < 2 ^ 31) :
    Java.Verifier.attachedVerify z (attachedBlob k.hash data sig) nonce = .ok true := by
  have hlayout := Java.Verifier.attachedVerify_layout k.length_hash hdata (java_getVerifyingKey h) sig nonce
  rw [Java.Signer.hiddenPlusLength_of_lt hnonce, Throwing.mapError_ok, Throwing.ok_bind] at hlayout
  refine hlayout.trans (congrArg Except.ok (Java.Verifier.verifyKeys_iff.mpr ⟨k.java, h.java, ?_⟩))
  simp only [Java.ByteBuffer.rest_wrap, Option.map_some, Option.getD_some]
  exact congrArg Except.ok hideal.accepts

/-- The data of a blob that is accepted. -/
theorem java_getAttachedData (h : k.Found s z c) (hideal : k.Ideal z (attachedMessage data nonce) sig)
    (hdata : data.length < 2 ^ 31) (hnonce : 4 + nonce.length < 2 ^ 31) :
    Java.Verifier.getAttachedData z (attachedBlob k.hash data sig) nonce = .ok data := by
  rw [Java.Verifier.getAttachedData, java_attachedVerify h hideal hdata hnonce, Throwing.ok_bind, if_pos rfl]
  exact Java.Verifier.getAttachedDataWithoutVerifying_layout k.length_hash hdata (java_getVerifyingKey h) sig

/-- A blob is not accepted with another nonce. -/
theorem java_attachedVerify_of_ne {nonce' : Bytes} (h : k.Found s z c) (hideal : k.Ideal z (attachedMessage data nonce) sig)
    (hdata : data.length < 2 ^ 31) (hne : nonce' ≠ nonce) :
    Java.Verifier.attachedVerify z (attachedBlob k.hash data sig) nonce' ≠ .ok true := by
  intro haccepted
  have hlayout := Java.Verifier.attachedVerify_layout k.length_hash hdata (java_getVerifyingKey h) sig nonce'
  have hok := hlayout.symm.trans haccepted
  cases hhidden : (if 0 < nonce'.length then Java.Util.lenPrefix nonce' else .ok (Java.Util.fromInt 0)) with
  | error e =>
    rw [hhidden] at hok
    cases hok
  | ok hiddenPlusLength =>
    rw [hhidden, Throwing.mapError_ok, Throwing.ok_bind] at hok
    obtain rfl := Java.Signer.hiddenPlusLength_eq hhidden
    obtain ⟨key, hkey, hverify⟩ := Java.Verifier.verifyKeys_iff.mp (Except.ok.inj hok)
    simp only [Java.ByteBuffer.rest_wrap, Option.map_some, Option.getD_some] at hverify
    exact hne (attachedMessage_inj (hideal.others key hkey _ hverify))

theorem java_getAttachedData_of_ne {nonce' : Bytes} (h : k.Found s z c) (hideal : k.Ideal z (attachedMessage data nonce) sig)
    (hdata : data.length < 2 ^ 31) (hne : nonce' ≠ nonce) (data' : Bytes) :
    Java.Verifier.getAttachedData z (attachedBlob k.hash data sig) nonce' ≠ .ok data' := by
  intro hok
  obtain ⟨verified, hverified, hrest⟩ := Throwing.ok_of_bind hok
  cases verified with
  | true => exact java_attachedVerify_of_ne h hideal hdata hne hverified
  | false => cases hrest

theorem cpp_attachedVerify (P : Primitives) (h : k.Found s z c) (hdata : 9 + data.length < 2 ^ 31) (old : Bytes) :
    Cpp.Verifier.attachedVerify P c (attachedBlob k.hash data sig) nonce old =
      .ok (k.verify (attachedMessage data nonce) sig, data) := by
  obtain ⟨keyset, hkeyset, hkey⟩ := h.cpp
  exact Cpp.Verifier.attachedVerify_layout P c k.length_hash hdata hkeyset hkey nonce old

/-- Data that ends at an offset that is not an `int` is not looked at. -/
theorem cpp_attachedVerify_of_large (P : Primitives) (c : Cpp.Keyczar) (hlarge : 2 ^ 31 ≤ 9 + data.length)
    (hdata : data.length < 2 ^ 31) (nonce old : Bytes) :
    Cpp.Verifier.attachedVerify P c (attachedBlob k.hash data sig) nonce old = .ok (false, old) := by
  have hparse : Cpp.Verifier.parseAttachedSignature (attachedBlob k.hash data sig) = .ok none :=
    Cpp.Verifier.parseAttachedSignature_of_large k.length_hash hlarge (by omega)
  rw [Cpp.Verifier.attachedVerify, hparse]
  rfl

/-- A message that the signature does not go with is not verified. -/
theorem verify_of_ne {nonce' : Bytes} (hideal : k.Ideal z (attachedMessage data nonce) sig) (hne : nonce' ≠ nonce) :
    k.verify (attachedMessage data nonce') sig = false := by
  rw [Bool.eq_false_iff]
  intro hverify
  exact hne (attachedMessage_inj (hideal.refuses _ hverify))

theorem python_attachedVerify_of_ne {nonce' : Bytes} (h : k.Found s z c) (hideal : k.Ideal z (attachedMessage data nonce) sig)
    (hdata : data.length < 2 ^ 31) (hne : nonce' ≠ nonce) (data' : Bytes) :
    Python.Verifier.attachedVerify pythonKeys s (attachedBlob k.hash data sig) nonce' none ≠ .ok (some data') := by
  rcases Nat.lt_or_ge nonce'.length (2 ^ 31) with hnonce | hnonce
  · rw [python_attachedVerify h hdata hnonce, verify_of_ne hideal hne]
    nofun
  · obtain ⟨e, herror⟩ : ∃ e, Python.Verifier.attachedVerify pythonKeys s (attachedBlob k.hash data sig) nonce' none = .error e :=
      python_attachedVerify_of_large h hdata hnonce
    rw [herror]
    nofun

theorem cpp_attachedVerify_of_ne (P : Primitives) {nonce' : Bytes} (h : k.Found s z c)
    (hideal : k.Ideal z (attachedMessage data nonce) sig) (hdata : data.length < 2 ^ 31) (hne : nonce' ≠ nonce) (old : Bytes) :
    ∃ out, Cpp.Verifier.attachedVerify P c (attachedBlob k.hash data sig) nonce' old = .ok (false, out) := by
  rcases Nat.lt_or_ge (9 + data.length) (2 ^ 31) with hend | hend
  · refine ⟨data, ?_⟩
    rw [cpp_attachedVerify P h hend, verify_of_ne hideal hne]
  · exact ⟨old, cpp_attachedVerify_of_large P c hend hdata nonce' old⟩

end SharedSigner

open SharedSigner

variable {ρ : Type}

/-- Attached signatures can be exchanged. The three signers make the same blob, Java as long as its arrays go; the three verifiers take
its data out with its nonce, C++ as long as the data ends at an `int` and Java as long as the nonce with its length fits an array; and
with another nonce none of them accepts it. -/
theorem attached_signatures_interchangeable (P : Primitives) (k : SharedSigner ρ) {s s' : Python.Keyczar (SharedSigner ρ)}
    {z z' : Java.SigningKeyczar ρ} {c : Cpp.Signer ρ} {c' : Cpp.Keyczar} (hprimary : k.Primary s z c) (hfound : k.Found s' z' c')
    (random : ρ) {data nonce sig : Bytes} (hdata : data.length < 2 ^ 31) (hnonce : nonce.length < 2 ^ 31)
    (hsig : k.sign random (attachedMessage data nonce) = sig) (hideal : k.Ideal z' (attachedMessage data nonce) sig) :
    (Python.Signer.attachedSign pythonKeys s random data nonce none = .ok (attachedBlob k.hash data sig) ∧
      (4 + nonce.length < 2 ^ 31 → 9 + data.length + sig.length < 2 ^ 31 →
        Java.Signer.attachedSign z random data nonce = .ok (attachedBlob k.hash data sig)) ∧
      c.attachedSign random data nonce = some (attachedBlob k.hash data sig)) ∧
    (Python.Verifier.attachedVerify pythonKeys s' (attachedBlob k.hash data sig) nonce none = .ok (some data) ∧
      (4 + nonce.length < 2 ^ 31 → Java.Verifier.attachedVerify z' (attachedBlob k.hash data sig) nonce = .ok true ∧
        Java.Verifier.getAttachedData z' (attachedBlob k.hash data sig) nonce = .ok data) ∧
      (9 + data.length < 2 ^ 31 → ∀ old,
        Cpp.Verifier.attachedVerify P c' (attachedBlob k.hash data sig) nonce old = .ok (true, data))) ∧
    ∀ nonce' ≠ nonce,
      (∀ data', Python.Verifier.attachedVerify pythonKeys s' (attachedBlob k.hash data sig) nonce' none ≠ .ok (some data')) ∧
      Java.Verifier.attachedVerify z' (attachedBlob k.hash data sig) nonce' ≠ .ok true ∧
      (∀ data', Java.Verifier.getAttachedData z' (attachedBlob k.hash data sig) nonce' ≠ .ok data') ∧
      ∀ old, ∃ out, Cpp.Verifier.attachedVerify P c' (attachedBlob k.hash data sig) nonce' old = .ok (false, out) := by
  subst hsig
  refine ⟨⟨python_attachedSign hprimary hdata hnonce, java_attachedSign hprimary, cpp_attachedSign hprimary⟩, ⟨?_, ?_, ?_⟩, ?_⟩
  · rw [python_attachedVerify hfound hdata hnonce, hideal.accepts, if_pos rfl]
  · intro hnonce'
    exact ⟨java_attachedVerify hfound hideal hdata hnonce', java_getAttachedData hfound hideal hdata hnonce'⟩
  · intro hend old
    rw [cpp_attachedVerify P hfound hend, hideal.accepts]
  · intro nonce' hne
    exact ⟨python_attachedVerify_of_ne hfound hideal hdata hne, java_attachedVerify_of_ne hfound hideal hdata hne,
      java_getAttachedData_of_ne hfound hideal hdata hne, cpp_attachedVerify_of_ne P hfound hideal hdata hne⟩

theorem length_oneMessageHash : ([1, 2, 3, 4] : Bytes).length = 4 := rfl

/-- A key that signs one message, with the only signature that it has. -/
def oneMessage (message : Bytes) : SharedSigner Unit where
  hash := [1, 2, 3, 4]
  digestSize := 1
  sign _ _ := [7]
  verify message' sig := message' = message ∧ sig = [7]
  length_hash := length_oneMessageHash
  length_sign _ _ := Nat.le_refl 1

/-- Key sets of one key. -/
def pythonSet (k : SharedSigner Unit) : Python.Keyczar (SharedSigner Unit) where
  metadata := { name := "one", purpose := .signAndVerify, type := .hmacSha1, versions := (∅ : AList _).insert 1 0 }
  heap := Python.Heap.empty.alloc ⟨1, .primary, false⟩
  keys := Python.Keyczar.addEntries pythonKeys ∅ 0 k
  primaryVersion := some 0
  defaultSize := 256

def javaSet (k : SharedSigner Unit) : Java.SigningKeyczar Unit where
  primaryVersion := some ⟨1, .primary⟩
  versionMap n := if n = 1 then some k.java else none
  hashMap hash := if hash = k.hash then [k.java] else []

def cppSet (k : SharedSigner Unit) : Cpp.Signer Unit where
  keyset := some { hashMap := Function.update (fun _ => none) (Base64.encode Base64.webSafe k.hash) (some k.cpp.key) }
  primaryKey := some k.cpp

theorem getKey_javaSet (k : SharedSigner Unit) : (javaSet k).getKey k.hash = [k.java] := if_pos (Eq.refl k.hash)

theorem primary_sets (k : SharedSigner Unit) : k.Primary (pythonSet k) (javaSet k) (cppSet k) where
  python := by
    simp [Python.Keyczar.primaryKey, Python.Keyczar.getKey, pythonSet, Python.Keyczar.addEntries, -AList.insert_empty]
  java := rfl
  cpp := rfl
  keyset := ⟨_, rfl⟩

theorem found_sets (k : SharedSigner Unit) : k.Found (pythonSet k) (javaSet k) (cppSet k).toKeyczar where
  python := by
    simp [Python.Keyczar.getKey, pythonSet, Python.Keyczar.addEntries]
  java := by
    rw [getKey_javaSet]
    exact List.mem_singleton_self _
  cpp := by
    refine ⟨_, rfl, ?_⟩
    simp only [Cpp.Keyset.getKeyFromHash, Function.update_self]

theorem oneMessage_ideal (message : Bytes) : (oneMessage message).Ideal (javaSet (oneMessage message)) message [7] where
  accepts := by simp [oneMessage]
  refuses message' h := by
    have hverify := of_decide_eq_true h
    exact hverify.1
  others key hkey message' h := by
    rw [getKey_javaSet, List.mem_singleton] at hkey
    subst hkey
    have hverify := of_decide_eq_true (Except.ok.inj h)
    exact hverify.1

theorem attached_signatures_interchangeable_oneMessage :
    ∃ blob, Java.Signer.attachedSign (javaSet (oneMessage (attachedMessage [7] [9]))) () [7] [9] = .ok blob ∧
      Python.Verifier.attachedVerify pythonKeys (pythonSet (oneMessage (attachedMessage [7] [9]))) blob [9] none = .ok (some [7]) ∧
      Cpp.Verifier.attachedVerify .plain (cppSet (oneMessage (attachedMessage [7] [9]))).toKeyczar blob [9] [] = .ok (true, [7]) ∧
      Java.Verifier.attachedVerify (javaSet (oneMessage (attachedMessage [7] [9]))) blob [8] ≠ .ok true := by
  have hdata : List.length ([7] : Bytes) < 2 ^ 31 := by decide
  have hnonce : List.length ([9] : Bytes) < 2 ^ 31 := by decide
  obtain ⟨⟨-, hjava, -⟩, ⟨hpython, -, hcpp⟩, hne⟩ := attached_signatures_interchangeable .plain _
    (primary_sets (oneMessage (attachedMessage [7] [9]))) (found_sets _) () hdata hnonce rfl (oneMessage_ideal _)
  exact ⟨_, hjava (by decide) (by decide), hpython, hcpp (by decide) [], (hne [8] (by decide)).2.1⟩

/-- Data that Python signs, and takes back out of its blob, while the signer of Java throws and the verifier of C++ refuses the blob. -/
theorem large_data_refused :
    ∃ k : SharedSigner Unit, ∃ data sig : Bytes, data.length < 2 ^ 31 ∧ k.Primary (pythonSet k) (javaSet k) (cppSet k) ∧
      k.Found (pythonSet k) (javaSet k) (cppSet k).toKeyczar ∧ k.Ideal (javaSet k) (attachedMessage data []) sig ∧
      Python.Signer.attachedSign pythonKeys (pythonSet k) () data [] none = .ok (attachedBlob k.hash data sig) ∧
      Python.Verifier.attachedVerify pythonKeys (pythonSet k) (attachedBlob k.hash data sig) [] none = .ok (some data) ∧
      (∃ e, Java.Signer.attachedSign (javaSet k) () data [] = .error e) ∧
      Cpp.Verifier.attachedVerify .plain (cppSet k).toKeyczar (attachedBlob k.hash data sig) [] [] = .ok (false, []) := by
  obtain ⟨data, hlength⟩ : ∃ data : Bytes, data.length = 2 ^ 31 - 1 := ⟨List.replicate (2 ^ 31 - 1) 0, List.length_replicate⟩
  have hdata : data.length < 2 ^ 31 := by rw [hlength]; exact Nat.sub_lt (Nat.two_pow_pos 31) Nat.one_pos
  have hnonce : List.length ([] : Bytes) < 2 ^ 31 := Nat.two_pow_pos 31
  have hideal := oneMessage_ideal (attachedMessage data [])
  have hfound := found_sets (oneMessage (attachedMessage data []))
  refine ⟨oneMessage (attachedMessage data []), data, [7], hdata, primary_sets _, hfound, hideal,
    python_attachedSign (primary_sets _) hdata hnonce, ?_, ?_, ?_⟩
  · rw [python_attachedVerify hfound hdata hnonce, hideal.accepts, if_pos rfl]
  · exact Java.Signer.attachedSign_of_large (primary_sets _).java () (by omega) hdata []
  · exact cpp_attachedVerify_of_large .plain _ (by omega) hdata [] []

end Interop
