import Keyczar.Cpp.Base64W
import Keyczar.Cpp.Cuts
import Keyczar.Interop.Signatures
import Keyczar.Java.Base64Encoding
import Keyczar.Python.PrimaryKeys
import Keyczar.Python.StreamReader

/-!
# Signatures without a header across the implementations

The signers here sign the data as it is and write the signature alone. The verifiers have no hash to look a key up by, and try every key
of their key set; each implementation goes through its keys in an order of its own. Java takes what a key throws for a refusal.
-/

namespace Python

variable {κ ρ : Type} (C : KeyClass κ ρ) (s : Keyczar κ)

namespace UnversionedVerifier

/-- The loop of `Verify`. A version that is listed has a key. -/
def verifyVersions (data sigBytes : Bytes) : List Ref → Except PyError Bool
  | [] => return false
  | version :: versions => do
    let key ← s.getKey (.version version)
    if ← C.verify key data sigBytes then return true
    else verifyVersions data sigBytes versions

/-- `Verify`. -/
def verify (data sig : Bytes) (decoder : Option (Bytes → Except PyError Bytes)) : Except PyError Bool := do
  let sigBytes ← decodeWith decoder sig
  verifyVersions C s data sigBytes s.versions

end UnversionedVerifier

end Python

namespace Java

variable {ρ : Type}

namespace UnversionedSigner

variable (z : SigningKeyczar ρ) (random : ρ)

/-- `digestSize`. -/
def digestSize : Except Exception Nat :=
  match z.getPrimaryKey with
  | none => .error (.keyczar .noPrimaryKey)
  | some signingKey => .ok signingKey.digestSize

/-- What follows the check of the space in `sign(ByteBuffer, ByteBuffer)`. -/
def signWith (signingKey : SigningKey ρ) (input : ByteBuffer) : EStateM Exception ByteBuffer Unit := do
  let stream := signingKey.getStream.initSign
  modify ByteBuffer.setMark
  let stream := stream.updateSign input
  stream.sign random
  modify ByteBuffer.limitHere

/-- `sign(ByteBuffer, ByteBuffer)`: the state is the output. -/
def signBuffer (input : ByteBuffer) : EStateM Exception ByteBuffer Unit := fun output =>
  match z.getPrimaryKey with
  | none => .error (.keyczar .noPrimaryKey) output
  | some signingKey =>
    if output.capacity < signingKey.digestSize then .error (.keyczar .shortBuffer) output
    else signWith random signingKey input output

/-- `sign(byte[])`. -/
def sign (input : Bytes) : Except Exception Bytes := do
  let size ← digestSize z
  Signer.sinceMark (signBuffer z random (ByteBuffer.wrap input) (ByteBuffer.allocate size))

/-- `sign(String)`, of the bytes of the string. -/
def signText (input : Bytes) : Except Exception (Except Base64Strings.Thrown Text) :=
  (sign z random input).map Base64Strings.encodeWebSafe

end UnversionedSigner

namespace UnversionedVerifier

/-- `verify(ByteBuffer, ByteBuffer, KeyczarKey)`: an exception means that the signature is wrong. -/
def verifyKey (key : SigningKey ρ) (data signature : ByteBuffer) : Bool :=
  let stream := key.getStream.initVerify
  let stream := stream.updateVerify data
  match stream.verify signature with
  | .ok result => result
  | .error _ => false

/-- `verify(ByteBuffer, ByteBuffer)`, with the values of `versionMap` in the order of the map. -/
def verifyBuffer (data signature : ByteBuffer) : List (SigningKey ρ) → Bool
  | [] => false
  | key :: keys => if verifyKey key data signature then true else verifyBuffer data signature keys

variable (values : List (SigningKey ρ))

/-- `verify(byte[], byte[])`. -/
def verify (data signature : Bytes) : Bool := verifyBuffer (ByteBuffer.wrap data) (ByteBuffer.wrap signature) values

/-- `verify(String, String)`, of the bytes of the data. -/
def verifyText (data : Bytes) (signature : Text) : Except Base64Strings.Thrown Bool := do
  let signature ← Base64Strings.decodeWebSafe signature
  return verify values data signature

end UnversionedVerifier

end Java

namespace Cpp

variable {ρ : Type}

/-- `UnversionedSigner::Sign`, with the encoding of the signer. -/
def UnversionedSigner.sign (z : Signer ρ) (encoding : Encoding) (random : ρ) (data : Bytes) : Except Exception (Option Bytes) :=
  match z.keyset with
  | none => .ok none
  | some _ =>
    match z.primaryKey with
    | none => .ok none
    | some key =>
      match key.sign random data with
      | none => .ok none
      | some signedBytes => encoding.encode signedBytes

/-- `UnversionedVerifier::Verify`, with the encoding of the verifier. -/
def UnversionedVerifier.verifyEncoded (P : Primitives) (z : Keyczar) (encoding : Encoding) (data signature : Bytes) :
    Except Exception Bool :=
  match z.keyset with
  | none => .ok false
  | some _ => do
    match ← encoding.decode signature with
    | none => return false
    | some signatureBytes => verify P z data signatureBytes

end Cpp

namespace Interop

open Bytes Throwing SharedSigner

/-! ## What is signed -/

/-- What a stream writes into a new buffer of the announced size is the signature. -/
theorem java_unversionedSign {ρ : Type} {z : Java.SigningKeyczar ρ} {k : Java.SigningKey ρ} (hk : z.getPrimaryKey = some k) {random : ρ}
    {data sig : Bytes} (hsig : k.sign random data = .ok sig) (hsize : sig.length ≤ k.digestSize) :
    Java.UnversionedSigner.sign z random data = .ok sig := by
  have hcapacity : (Java.ByteBuffer.allocate k.digestSize).capacity = k.digestSize := by
    simp [Java.ByteBuffer.allocate, Java.ByteBuffer.capacity, Java.ByteBuffer.wrap]
  have hmark : (modify Java.ByteBuffer.setMark : EStateM Java.Exception Java.ByteBuffer Unit) (Java.ByteBuffer.allocate k.digestSize) =
      .ok () (Java.ByteBuffer.allocate k.digestSize).setMark := rfl
  have hstream : k.getStream.initSign.updateSign (Java.ByteBuffer.wrap data) = { key := k, data := data } := by
    simp [Java.SignatureStream.updateSign, Java.SignatureStream.initSign, Java.SigningKey.getStream]
  have hbuffer : Java.UnversionedSigner.signBuffer z random (Java.ByteBuffer.wrap data) (Java.ByteBuffer.allocate k.digestSize) =
      ((Java.SignatureStream.sign { key := k, data := data } random >>= fun _ => modify Java.ByteBuffer.limitHere) :
        EStateM Java.Exception Java.ByteBuffer Unit) (Java.ByteBuffer.allocate k.digestSize).setMark := by
    simp only [Java.UnversionedSigner.signBuffer, hk, hcapacity]
    rw [if_neg (Nat.lt_irrefl _), Java.UnversionedSigner.signWith]
    simp only [bind_ok hmark, hstream]
  have hsize' : Java.UnversionedSigner.digestSize z = .ok k.digestSize := by
    rw [Java.UnversionedSigner.digestSize, hk]
  rw [Java.UnversionedSigner.sign, hsize', ok_bind, hbuffer]
  rcases Java.Signer.sign_filled (Java.filled_setMark k.digestSize) { key := k, data := data } random with
    ⟨e, -, hlong⟩ | ⟨sig', output, hsig', hsign, hfilled⟩
  · have hlt := hlong sig hsig
    rw [List.length_nil, Nat.zero_add] at hlt
    exact absurd hsize (Nat.not_le.mpr hlt)
  · obtain rfl := Except.ok.inj (hsig.symm.trans hsig')
    rw [bind_ok hsign]
    exact hfilled.sinceMark

/-! ## What is accepted -/

/-- The loop over the versions answers whether some key accepts, when none of them raises. -/
theorem python_verifyVersions {κ ρ : Type} {C : Python.KeyClass κ ρ} {s : Python.Keyczar κ} {data sigBytes : Bytes}
    {accepts : κ → Bool} (haccepts : ∀ key, C.verify key data sigBytes = .ok (accepts key)) {versions : List Python.Ref}
    (hversions : ∀ r ∈ versions, r ∈ s.versions) :
    ∃ b, Python.UnversionedVerifier.verifyVersions C s data sigBytes versions = .ok b ∧
      (b = true ↔ ∃ r ∈ versions, ∃ key, s.keys.lookup (.version r) = some key ∧ accepts key = true) := by
  induction versions with
  | nil => exact ⟨false, rfl, by simp⟩
  | cons version versions ih =>
    obtain ⟨hversion, hversions⟩ := List.forall_mem_cons.mp hversions
    obtain ⟨key, hkey⟩ := Python.GenericKeyczar.mem_versions_iff.mp hversion
    rw [Python.UnversionedVerifier.verifyVersions, Python.Keyczar.getKey_eq_ok_iff.mpr hkey, ok_bind, haccepts, ok_bind]
    cases haccepted : accepts key with
    | true => exact ⟨true, rfl, iff_of_true rfl ⟨version, List.mem_cons_self .., key, hkey, haccepted⟩⟩
    | false =>
      obtain ⟨b, hb, hiff⟩ := ih hversions
      refine ⟨b, hb, hiff.trans ?_⟩
      rw [List.exists_mem_cons_iff]
      refine (or_iff_right ?_).symm
      rintro ⟨key', hkey', haccepted'⟩
      obtain rfl := Option.some.inj (hkey.symm.trans hkey')
      rw [haccepted] at haccepted'
      cases haccepted'

/-- The loop over the values answers whether some key accepts. -/
theorem java_verifyBuffer {ρ : Type} {data signature : Java.ByteBuffer} {values : List (Java.SigningKey ρ)} :
    Java.UnversionedVerifier.verifyBuffer data signature values = true ↔
      ∃ key ∈ values, key.verify data.rest signature.rest = .ok true := by
  induction values with
  | nil => simp [Java.UnversionedVerifier.verifyBuffer]
  | cons key values ih =>
    have hkey : Java.UnversionedVerifier.verifyKey key data signature = true ↔ key.verify data.rest signature.rest = .ok true := by
      simp only [Java.UnversionedVerifier.verifyKey, Java.SignatureStream.verify, Java.SignatureStream.updateVerify,
        Java.SignatureStream.initVerify, Java.SigningKey.getStream, List.nil_append]
      cases key.verify data.rest signature.rest with
      | ok result => simp
      | error e => simp
    rw [Java.UnversionedVerifier.verifyBuffer, List.exists_mem_cons_iff, ← ih, ← hkey]
    cases Java.UnversionedVerifier.verifyKey key data signature with
    | true => simp
    | false => simp

variable {ρ : Type}

/-- Some key of a set accepts a signature. -/
def accepted (keys : List (SharedSigner ρ)) (data sig : Bytes) : Bool := keys.any fun k => k.verify data sig

/-- Three key sets hold the same keys, each in its own order; the values are those of the Java map. -/
structure Listed (keys : List (SharedSigner ρ)) (s : Python.Keyczar (SharedSigner ρ)) (z : Java.SigningKeyczar ρ)
    (values : List (Java.SigningKey ρ)) (c : Cpp.Keyczar) : Prop where
  python : ∀ k, k ∈ keys ↔ ∃ r, s.keys.lookup (.version r) = some k
  values : ∀ key, key ∈ values ↔ ∃ n, z.versionMap n = some key
  java : ∀ key, (∃ n, z.versionMap n = some key) ↔ ∃ k ∈ keys, k.java = key
  cpp : ∃ keyset, c.keyset = some keyset ∧ ∀ key, (∃ n, (n, key) ∈ keyset.versionNumberMap) ↔ ∃ k ∈ keys, k.cpp.key = key

namespace Listed

variable {keys : List (SharedSigner ρ)} {s : Python.Keyczar (SharedSigner ρ)} {z : Java.SigningKeyczar ρ}
  {values : List (Java.SigningKey ρ)} {c : Cpp.Keyczar}

theorem python_verify (h : Listed keys s z values c) (data : Bytes) {sig sigBytes : Bytes}
    {decoder : Option (Bytes → Except Python.PyError Bytes)} (hdecode : Python.decodeWith decoder sig = .ok sigBytes) :
    Python.UnversionedVerifier.verify pythonKeys s data sig decoder = .ok (accepted keys data sigBytes) := by
  obtain ⟨b, hb, hiff⟩ : ∃ b, Python.UnversionedVerifier.verifyVersions pythonKeys s data sigBytes s.versions = .ok b ∧
      (b = true ↔ ∃ r ∈ s.versions, ∃ k, s.keys.lookup (.version r) = some k ∧ k.verify data sigBytes = true) :=
    python_verifyVersions (fun _ => rfl) fun _ hr => hr
  rw [Python.UnversionedVerifier.verify, hdecode, ok_bind, hb]
  refine congrArg Except.ok (Bool.eq_iff_iff.mpr (hiff.trans ?_))
  rw [accepted, List.any_eq_true]
  constructor
  · rintro ⟨r, -, k, hk, haccepts⟩
    exact ⟨k, (h.python k).mpr ⟨r, hk⟩, haccepts⟩
  · rintro ⟨k, hk, haccepts⟩
    obtain ⟨r, hr⟩ := (h.python k).mp hk
    exact ⟨r, Python.GenericKeyczar.mem_versions_iff.mpr ⟨k, hr⟩, k, hr, haccepts⟩

theorem java_verify (h : Listed keys s z values c) (data sig : Bytes) :
    Java.UnversionedVerifier.verify values data sig = accepted keys data sig := by
  refine Bool.eq_iff_iff.mpr (java_verifyBuffer.trans ?_)
  rw [accepted, List.any_eq_true]
  simp only [Java.ByteBuffer.rest_wrap]
  constructor
  · rintro ⟨key, hkey, haccepts⟩
    obtain ⟨k, hk, rfl⟩ := (h.java key).mp ((h.values key).mp hkey)
    exact ⟨k, hk, Except.ok.inj haccepts⟩
  · rintro ⟨k, hk, haccepts⟩
    exact ⟨k.java, (h.values _).mpr ((h.java _).mpr ⟨k, hk, rfl⟩), congrArg Except.ok haccepts⟩

theorem cpp_verify (P : Primitives) (h : Listed keys s z values c) (data sig : Bytes) :
    Cpp.UnversionedVerifier.verify P c data sig = .ok (accepted keys data sig) := by
  obtain ⟨keyset, hkeyset, hkeys⟩ := h.cpp
  simp only [Cpp.UnversionedVerifier.verify, hkeyset]
  rw [Cpp.UnversionedVerifier.verifyKeys_eq]
  refine congrArg Except.ok (Bool.eq_iff_iff.mpr ?_)
  rw [accepted, List.any_eq_true, List.any_eq_true]
  constructor
  · rintro ⟨⟨n, key⟩, hmem, haccepts⟩
    obtain ⟨k, hk, rfl⟩ := (hkeys key).mp ⟨n, hmem⟩
    exact ⟨k, hk, haccepts⟩
  · rintro ⟨k, hk, haccepts⟩
    obtain ⟨n, hmem⟩ := (hkeys k.cpp.key).mpr ⟨k, hk, rfl⟩
    exact ⟨(n, k.cpp.key), hmem, haccepts⟩

theorem cpp_verifyEncoded (P : Primitives) (h : Listed keys s z values c) (data : Bytes) {encoding : Cpp.Encoding} {sig sigBytes : Bytes}
    (hdecode : encoding.decode sig = .ok (some sigBytes)) :
    Cpp.UnversionedVerifier.verifyEncoded P c encoding data sig = .ok (accepted keys data sigBytes) := by
  have hverify := h.cpp_verify P data sigBytes
  obtain ⟨keyset, hkeyset, -⟩ := h.cpp
  simp only [Cpp.UnversionedVerifier.verifyEncoded, hkeyset, hdecode, ok_bind, hverify]

end Listed

/-- The text of bytes is decoded to them, unless there are none. -/
theorem java_decodeWebSafe_text {sig : Bytes} (h : sig ≠ []) :
    Java.Base64Strings.decodeWebSafe (Java.Base64Strings.text sig) = .ok sig := by
  rw [Java.Base64Strings.text, Java.Base64Strings.decodeWebSafe_ofByte, Java.Base64Coder.decodeWebSafe_encode h, mapError_ok]

/-- Signatures without a header can be exchanged, as bytes and as texts. The three signers make the same signature and write it in the
same characters, Java and C++ as long as these are counted by an `int`. The three verifiers give the same answer on every signature,
whatever keys come first: that some key accepts it. Of the text without characters Java throws, and C++ refuses it. -/
theorem unversioned_signatures_interchangeable (P : Primitives) (k : SharedSigner ρ) {s s' : Python.Keyczar (SharedSigner ρ)}
    {z z' : Java.SigningKeyczar ρ} {c : Cpp.Signer ρ} {c' : Cpp.Keyczar} (hprimary : k.Primary s z c) {keys : List (SharedSigner ρ)}
    {values : List (Java.SigningKey ρ)} (hlisted : Listed keys s' z' values c') (random : ρ) {data sig : Bytes}
    (hsig : k.sign random data = sig) :
    (Python.UnversionedSigner.sign pythonKeys s random data none = .ok sig ∧
      Java.UnversionedSigner.sign z random data = .ok sig ∧
      Cpp.UnversionedSigner.sign c .noEncoding random data = .ok (some sig)) ∧
    (Python.UnversionedSigner.sign pythonKeys s random data (some Python.base64WSEncode) = .ok (Python.base64WSEncode sig) ∧
      (sig.length < 3 * 2 ^ 29 → Java.UnversionedSigner.signText z random data = .ok (.ok (Java.Base64Strings.text sig))) ∧
      (sig ≠ [] → Cpp.Base64W.Fits sig.length →
        Cpp.UnversionedSigner.sign c .base64W random data = .ok (some (Python.base64WSEncode sig)))) ∧
    (∀ data' sig', Python.UnversionedVerifier.verify pythonKeys s' data' sig' none = .ok (accepted keys data' sig') ∧
      Java.UnversionedVerifier.verify values data' sig' = accepted keys data' sig' ∧
      Cpp.UnversionedVerifier.verifyEncoded P c' .noEncoding data' sig' = .ok (accepted keys data' sig')) ∧
    (∀ data' sig', Python.UnversionedVerifier.verify pythonKeys s' data' (Python.base64WSEncode sig') (some Python.base64WSDecode) =
        .ok (accepted keys data' sig') ∧
      (sig' ≠ [] → Java.UnversionedVerifier.verifyText values data' (Java.Base64Strings.text sig') = .ok (accepted keys data' sig')) ∧
      (sig' ≠ [] → Cpp.Base64W.Fits sig'.length →
        Cpp.UnversionedVerifier.verifyEncoded P c' .base64W data' (Python.base64WSEncode sig') = .ok (accepted keys data' sig'))) ∧
    ∀ data', Java.UnversionedVerifier.verifyText values data' [] = .error (.runtime .indexOutOfBounds) ∧
      Cpp.UnversionedVerifier.verifyEncoded P c' .base64W data' [] = .ok false := by
  subst hsig
  have hpython : ∀ encoder, Python.UnversionedSigner.sign pythonKeys s random data encoder =
      .ok (Python.encodeWith encoder (k.sign random data)) := by
    intro encoder
    rw [Python.UnversionedSigner.sign, hprimary.python, ok_bind]
    rfl
  have hjava : Java.UnversionedSigner.sign z random data = .ok (k.sign random data) :=
    java_unversionedSign hprimary.java rfl (k.length_sign random data)
  have hcpp : ∀ encoding, Cpp.UnversionedSigner.sign c encoding random data = encoding.encode (k.sign random data) := by
    intro encoding
    obtain ⟨keyset, hkeyset⟩ := hprimary.keyset
    simp only [Cpp.UnversionedSigner.sign, hkeyset, hprimary.cpp, SharedSigner.cpp]
  refine ⟨⟨hpython none, hjava, hcpp .noEncoding⟩, ⟨hpython _, ?_, ?_⟩, ?_, ?_, ?_⟩
  · intro hlt
    rw [Java.UnversionedSigner.signText, hjava]
    exact congrArg Except.ok (Java.Base64Strings.encodeWebSafe_of_lt hlt)
  · intro hne hfits
    rw [hcpp, Cpp.Encoding.encode, Cpp.Base64W.encode_of_fits hfits, Cpp.base64WEncode_eq (List.length_pos_of_ne_nil hne)]
    rfl
  · intro data' sig'
    exact ⟨hlisted.python_verify data' rfl, hlisted.java_verify data' sig', hlisted.cpp_verifyEncoded P data' rfl⟩
  · intro data' sig'
    refine ⟨hlisted.python_verify data' (Python.base64WSDecode_encode sig'), ?_, ?_⟩
    · intro hne
      rw [Java.UnversionedVerifier.verifyText, java_decodeWebSafe_text hne, ok_bind, hlisted.java_verify]
      rfl
    · intro hne hfits
      have hdecode : Cpp.Encoding.decode .base64W (Python.base64WSEncode sig') = .ok (some sig') := by
        rw [Cpp.Encoding.decode]
        exact Cpp.Base64W.decode_encode hne hfits
      exact hlisted.cpp_verifyEncoded P data' hdecode
  · intro data'
    obtain ⟨keyset, hkeyset, -⟩ := hlisted.cpp
    refine ⟨rfl, ?_⟩
    simp only [Cpp.UnversionedVerifier.verifyEncoded, hkeyset]
    rfl

/-- Key sets of two keys. Their hashes may be the same. -/
def pythonPair (k k' : SharedSigner Unit) : Python.Keyczar (SharedSigner Unit) :=
  { pythonSet k with keys := Python.Keyczar.addEntries pythonKeys (Python.Keyczar.addEntries pythonKeys ∅ 0 k) 1 k' }

def javaPair (k k' : SharedSigner Unit) : Java.SigningKeyczar Unit where
  versionMap n := if n = 1 then some k.java else if n = 2 then some k'.java else none

def cppPair (k k' : SharedSigner Unit) : Cpp.Keyczar where
  keyset := some { versionNumberMap := [(1, k.cpp.key), (2, k'.cpp.key)] }

theorem lookup_pythonPair (k k' : SharedSigner Unit) (r : Python.Ref) :
    (pythonPair k k').keys.lookup (.version r) = if r = 1 then some k' else if r = 0 then some k else none := by
  by_cases hone : r = 1
  · rw [if_pos hone, hone]
    exact Python.Keyczar.lookup_addEntries_version_self _ 1 k'
  · rw [if_neg hone]
    refine (Python.Keyczar.lookup_addEntries_version_of_ne _ k' hone).trans ?_
    by_cases hzero : r = 0
    · rw [if_pos hzero, hzero]
      exact Python.Keyczar.lookup_addEntries_version_self _ 0 k
    · rw [if_neg hzero]
      exact (Python.Keyczar.lookup_addEntries_version_of_ne _ k hzero).trans (AList.lookup_empty _)

theorem versionMap_javaPair (k k' : SharedSigner Unit) (key : Java.SigningKey Unit) :
    (∃ n, (javaPair k k').versionMap n = some key) ↔ key = k.java ∨ key = k'.java := by
  constructor
  · rintro ⟨n, hn⟩
    simp only [javaPair] at hn
    split at hn
    · exact Or.inl (Option.some.inj hn).symm
    · split at hn
      · exact Or.inr (Option.some.inj hn).symm
      · cases hn
  · rintro (rfl | rfl)
    · exact ⟨1, rfl⟩
    · exact ⟨2, rfl⟩

/-- Java goes through them from the last to the first. -/
theorem listed_pair (k k' : SharedSigner Unit) :
    Listed [k, k'] (pythonPair k k') (javaPair k k') [k'.java, k.java] (cppPair k k') where
  python k'' := by
    simp only [lookup_pythonPair, List.mem_cons, List.not_mem_nil, or_false]
    constructor
    · rintro (rfl | rfl)
      · exact ⟨0, rfl⟩
      · exact ⟨1, rfl⟩
    · rintro ⟨r, hr⟩
      split at hr
      · exact Or.inr (Option.some.inj hr).symm
      · split at hr
        · exact Or.inl (Option.some.inj hr).symm
        · cases hr
  values key := by
    rw [versionMap_javaPair, List.mem_cons, List.mem_singleton]
    exact or_comm
  java key := by
    rw [versionMap_javaPair]
    simp [eq_comm]
  cpp := by
    refine ⟨_, rfl, ?_⟩
    intro key
    constructor
    · rintro ⟨n, hn⟩
      rcases List.mem_cons.mp hn with h | hn
      · exact ⟨k, List.mem_cons_self .., (congrArg Prod.snd h).symm⟩
      · exact ⟨k', List.mem_cons_of_mem _ (List.mem_singleton_self k'), (congrArg Prod.snd (List.mem_singleton.mp hn)).symm⟩
    · rintro ⟨k'', hk'', rfl⟩
      rcases List.mem_cons.mp hk'' with rfl | hk''
      · exact ⟨1, List.mem_cons_self ..⟩
      · obtain rfl := List.mem_singleton.mp hk''
        exact ⟨2, List.mem_cons_of_mem _ (List.mem_singleton_self _)⟩

theorem unversioned_signatures_interchangeable_pair :
    ∃ sig, Java.UnversionedSigner.sign (javaSet (oneMessage [5])) () [5] = .ok sig ∧
      Python.UnversionedVerifier.verify pythonKeys (pythonPair (oneMessage [6]) (oneMessage [5])) [5] (Python.base64WSEncode sig)
        (some Python.base64WSDecode) = .ok true ∧
      Cpp.UnversionedVerifier.verifyEncoded .plain (cppPair (oneMessage [6]) (oneMessage [5])) .base64W [5] (Python.base64WSEncode sig) =
        .ok true ∧
      Java.UnversionedVerifier.verifyText [(oneMessage [5]).java, (oneMessage [6]).java] [8] (Java.Base64Strings.text sig) =
        .ok false := by
  have hone : accepted [oneMessage [6], oneMessage [5]] [5] [7] = true := by decide
  have hother : accepted [oneMessage [6], oneMessage [5]] [8] [7] = false := by decide
  have hsig : (oneMessage [5]).sign () [5] = [7] := rfl
  obtain ⟨⟨-, hjava, -⟩, -, -, htexts, -⟩ := unversioned_signatures_interchangeable .plain (oneMessage [5])
    (primary_sets (oneMessage [5])) (listed_pair (oneMessage [6]) (oneMessage [5])) () hsig
  obtain ⟨hpython, -, hcpp⟩ := htexts [5] [7]
  obtain ⟨-, hverify, -⟩ := htexts [8] [7]
  refine ⟨[7], hjava, ?_, ?_, ?_⟩
  · exact hpython.trans (congrArg Except.ok hone)
  · exact (hcpp (List.cons_ne_nil _ _) (by decide)).trans (congrArg Except.ok hone)
  · exact (hverify (List.cons_ne_nil _ _)).trans (congrArg Except.ok hother)

end Interop
