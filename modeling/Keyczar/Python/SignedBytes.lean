import Keyczar.Python.Crypter

/-!
# Which message a signature stands for

Plain and attached signatures sign the data, the packed nonce and the version byte, with nothing in front that tells one from the
other. What a verified signature says about the calls of the signer follows from when two calls sign the same bytes.
-/

namespace Python

open Bytes

/-- A call of the signer. -/
inductive SignCall where
  | sign (data : Bytes)
  | attachedSign (data nonce : Bytes)
  deriving DecidableEq, Repr

namespace SignCall

def data : SignCall → Bytes
  | .sign data => data
  | .attachedSign data _ => data

def nonce : SignCall → Option Bytes
  | .sign _ => none
  | .attachedSign _ nonce => some nonce

/-- The bytes the call asks the key to sign; an attached call packs its data before. -/
def signedBytes (c : SignCall) : Except PyError Bytes :=
  match c with
  | .sign data => Python.signedBytes data none
  | .attachedSign data nonce => do
    let _ ← packByteArray (some data)
    Python.signedBytes data (some nonce)

/-- What the nonce adds to the data in the signed bytes. -/
def suffix (c : SignCall) : Bytes :=
  match c with
  | .sign _ => []
  | .attachedSign _ nonce => be32 nonce.length ++ nonce

end SignCall

variable {κ ρ : Type} {C : KeyClass κ ρ}

/-- `Sign` asks its primary key to sign the bytes of the call, and nothing else. -/
theorem Signer.sign_eq (s : Keyczar κ) (random : ρ) (d : Bytes) :
    Signer.sign C s random d none = do
      let key ← s.primaryKey
      let msg ← (SignCall.sign d).signedBytes
      let signature ← C.sign key random msg
      return C.header key ++ signature := by
  unfold Signer.sign Signer.internalSign
  cases hp : s.primaryKey with
  | error e => rfl
  | ok key =>
    simp only [bind, Except.bind, SignCall.signedBytes]
    cases Python.signedBytes d none with
    | error e => rfl
    | ok msg => rfl

/-- `AttachedSign` asks its primary key to sign the bytes of the call, and nothing else. -/
theorem Signer.attachedSign_eq (s : Keyczar κ) (random : ρ) (d n : Bytes) :
    Signer.attachedSign C s random d n none = do
      let key ← s.primaryKey
      let msg ← (SignCall.attachedSign d n).signedBytes
      let signature ← C.sign key random msg
      return C.header key ++ (be32 d.length ++ d) ++ signature := by
  unfold Signer.attachedSign Signer.internalSign
  cases hp : s.primaryKey with
  | error e => rfl
  | ok key =>
    simp only [bind, Except.bind, SignCall.signedBytes]
    cases hd : packByteArray (some d) with
    | error e => rfl
    | ok packed =>
      obtain ⟨_, rfl⟩ := packByteArray_some_eq_ok_iff.mp hd
      cases Python.signedBytes d (some n) with
      | error e => rfl
      | ok msg => rfl

/-! ## When two calls sign the same bytes -/

/-- The signed bytes of a call that signs. -/
theorem signedBytes_eq_ok {d : Bytes} {n : Option Bytes} {m : Bytes} (h : signedBytes d n = .ok m) :
    ∃ packed, packByteArray n = .ok packed ∧ m = d ++ packed ++ [VERSION] := by
  unfold signedBytes at h
  cases hp : packByteArray n with
  | error e => rw [hp] at h; cases h
  | ok packed =>
    rw [hp] at h
    exact ⟨packed, rfl, (Except.ok.inj h).symm⟩

theorem SignCall.signedBytes_eq_ok {c : SignCall} {m : Bytes} (h : c.signedBytes = .ok m) :
    m = c.data ++ c.suffix ++ [VERSION] := by
  cases c with
  | sign d =>
    obtain ⟨packed, hp, rfl⟩ := Python.signedBytes_eq_ok h
    cases hp
    rfl
  | attachedSign d n =>
    simp only [SignCall.signedBytes] at h
    cases hd : packByteArray (some d) with
    | error e => rw [hd] at h; cases h
    | ok packed =>
      rw [hd] at h
      obtain ⟨packed', hp, rfl⟩ := Python.signedBytes_eq_ok h
      obtain ⟨_, rfl⟩ := packByteArray_some_eq_ok_iff.mp hp
      rfl

/-- Two attached calls with nonces of one length sign the same bytes only when they are the same call. -/
theorem attachedSign_inj {d d' n n' : Bytes} (hn : n.length = n'.length)
    (h : d ++ (be32 n.length ++ n) = d' ++ (be32 n'.length ++ n')) : d = d' ∧ n = n' := by
  have hlen := congrArg List.length h
  simp only [List.length_append, length_be32] at hlen
  obtain ⟨hd, hrest⟩ := List.append_inj h (by omega)
  exact ⟨hd, (List.append_inj hrest (by simp)).2⟩

/-- Two calls sign the same bytes only when they are the same call, or their modes differ, or the lengths of their nonces do. -/
theorem SignCall.eq_of_signedBytes {c c' : SignCall} {m : Bytes} (h : c.signedBytes = .ok m) (h' : c'.signedBytes = .ok m) :
    c = c' ∨ c.nonce.map List.length ≠ c'.nonce.map List.length := by
  have heq : c.data ++ c.suffix = c'.data ++ c'.suffix :=
    List.append_cancel_right ((SignCall.signedBytes_eq_ok h).symm.trans (SignCall.signedBytes_eq_ok h'))
  cases c with
  | sign d =>
    cases c' with
    | sign d' =>
      left
      simpa [SignCall.data, SignCall.suffix] using heq
    | attachedSign d' n' =>
      right
      simp [SignCall.nonce]
  | attachedSign d n =>
    cases c' with
    | sign d' =>
      right
      simp [SignCall.nonce]
    | attachedSign d' n' =>
      by_cases hn : n.length = n'.length
      · left
        obtain ⟨rfl, rfl⟩ := attachedSign_inj hn heq
        rfl
      · right
        simpa [SignCall.nonce] using hn

/-! ## What a verified signature says -/

/-- A verified signature was checked by some key over the signed bytes of its data and nonce. -/
theorem Verifier.internalVerify_eq_ok {s : Keyczar κ} {hdr sig d : Bytes} {n : Option Bytes} {b : Bool}
    (h : Verifier.internalVerify C s hdr sig d n = .ok b) :
    ∃ key m, signedBytes d n = .ok m ∧ C.verify key m sig = .ok b := by
  unfold Verifier.internalVerify at h
  cases hk : s.parseHeader hdr with
  | error e => rw [hk] at h; cases h
  | ok key =>
    rw [hk] at h
    cases hm : signedBytes d n with
    | error e => rw [hm] at h; cases h
    | ok m =>
      rw [hm] at h
      exact ⟨key, m, rfl, h⟩

theorem Verifier.verify_eq_ok {s : Keyczar κ} {d sig : Bytes} {decoder : Option (Bytes → Except PyError Bytes)} {b : Bool}
    (h : Verifier.verify C s d sig decoder = .ok b) : ∃ key m t, signedBytes d none = .ok m ∧ C.verify key m t = .ok b := by
  unfold Verifier.verify at h
  cases hd : decodeWith decoder sig with
  | error e => rw [hd] at h; cases h
  | ok sigBytes =>
    rw [hd] at h
    simp only [bind, Except.bind] at h
    split at h
    · cases h
    · obtain ⟨key, m, hm, hv⟩ := Verifier.internalVerify_eq_ok h
      exact ⟨key, m, _, hm, hv⟩

theorem Verifier.attachedVerify_eq_ok {s : Keyczar κ} {blob n d : Bytes} {decoder : Option (Bytes → Except PyError Bytes)}
    (h : Verifier.attachedVerify C s blob n decoder = .ok (some d)) :
    ∃ key m t, signedBytes d (some n) = .ok m ∧ C.verify key m t = .ok true := by
  unfold Verifier.attachedVerify at h
  cases hd : decodeWith decoder blob with
  | error e => rw [hd] at h; cases h
  | ok decoded =>
    rw [hd] at h
    simp only [bind, Except.bind] at h
    split at h
    · cases h
    · rename_i v _
      split at h
      · cases h
      · rename_i b hb
        obtain ⟨key, m, hm, hv⟩ := Verifier.internalVerify_eq_ok hb
        cases b with
        | false => cases h
        | true =>
          cases Option.some.inj (Except.ok.inj h)
          exact ⟨key, m, _, hm, hv⟩

/-- The length field of a packed array behind a front part. -/
theorem unpackInt_append {front array : Bytes} (rest : Bytes) (harray : array.length < 2 ^ 31) :
    unpackInt (front ++ (be32 array.length ++ array) ++ rest) front.length = .ok (array.length : Int) := by
  have hstart : (front.length : Int) + 4 = (front.length + 4 : Nat) := by push_cast; rfl
  have hfield : slice (front ++ (be32 array.length ++ array) ++ rest) front.length ((front.length + 4 : Nat) : Int) =
      be32 array.length := by
    rw [slice_nat, List.append_assoc, List.drop_left' rfl, List.append_assoc, Nat.add_sub_cancel_left,
      List.take_left' (length_be32 _)]
  rw [unpackInt, hstart, hfield, readBe32_be32, Nat.mod_eq_of_lt (by omega)]
  dsimp only
  rw [int32_of_lt harray]

/-- An array packed at the end of a front part is unpacked there. -/
theorem unpackByteArray_append {front array rest : Bytes} (harray : array.length < 2 ^ 31) :
    unpackByteArray (front ++ (be32 array.length ++ array) ++ rest) front.length =
      .ok (array, ((front.length + 4 + array.length : Nat) : Int)) := by
  have hfront : (front ++ be32 array.length).length = front.length + 4 := by rw [List.length_append, length_be32]
  have hbody : slice (front ++ (be32 array.length ++ array) ++ rest) ((front.length + 4 : Nat) : Int)
      ((front.length + 4 + array.length : Nat) : Int) = array := by
    rw [slice_nat, ← List.append_assoc front, List.append_assoc (front ++ be32 array.length), List.drop_left' hfront,
      Nat.add_sub_cancel_left, List.take_left' rfl]
  have hstart : (front.length : Int) + 4 = (front.length + 4 : Nat) := by push_cast; rfl
  have hend : (front.length : Int) + 4 + array.length = (front.length + 4 + array.length : Nat) := by push_cast; rfl
  simp only [unpackByteArray, unpackInt_append rest harray, bind, Except.bind, pure, Except.pure, hend]
  rw [hstart, hbody]

/-- A blob with the header of a key is verified with the key under its identifier. -/
theorem Verifier.attachedVerify_layout {s : Keyczar κ} {k : κ} (hget : s.getKey (.hash (C.hashId k)) = .ok k) {d : Bytes}
    (hd : d.length < 2 ^ 31) (sig n : Bytes) :
    Verifier.attachedVerify C s (C.header k ++ (be32 d.length ++ d) ++ sig) n none = do
      let msg ← signedBytes d (some n)
      let verified ← C.verify k msg sig
      return if verified then some d else none := by
  have hheader := C.length_header k
  have hunpack : unpackByteArray (C.header k ++ (be32 d.length ++ d) ++ sig) (C.header k).length =
      .ok (d, (((C.header k).length + 4 + d.length : Nat) : Int)) := unpackByteArray_append hd
  have hlength : (C.header k ++ (be32 d.length ++ d)).length = (C.header k).length + 4 + d.length := by
    rw [List.length_append, List.length_append, length_be32, Nat.add_assoc]
  have hrest : sliceFrom (C.header k ++ (be32 d.length ++ d) ++ sig) (((C.header k).length + 4 + d.length : Nat) : Int) = sig := by
    rw [sliceFrom_nat, List.drop_left' hlength]
  have hfront : sliceTo (C.header k ++ (be32 d.length ++ d) ++ sig) (HEADER_SIZE : Int) = C.header k := by
    rw [sliceTo_nat, List.append_assoc, List.take_left' hheader]
  have hkey : s.parseHeader (C.header k) = .ok k := (parseHeader_header s k).trans hget
  rw [hheader] at hunpack hrest
  unfold Verifier.attachedVerify decodeWith Verifier.internalVerify
  simp only [bind, Except.bind, hunpack, hrest, hfront, hkey]
  cases signedBytes d (some n) with
  | error e => rfl
  | ok msg =>
    dsimp only
    cases C.verify k msg sig with
    | error e => rfl
    | ok verified => cases verified <;> rfl

/-- With ideal signatures, what a verified signature says about the calls of the signer. A plain signature was made by a plain call
on its data, or by an attached call whose data and packed nonce make up its data. An attached one was made by the attached call with
its data and nonce, or by a plain call on the data with the packed nonce, or by an attached call with a nonce of another length that
signs the same bytes. Calls of one mode with nonces of one length sign different bytes. -/
theorem verified_signature_origin (C : KeyClass κ ρ) (history : List SignCall)
    (ideal : ∀ key m t, C.verify key m t = .ok true → ∃ c ∈ history, c.signedBytes = .ok m)
    (s : Keyczar κ) (decoder : Option (Bytes → Except PyError Bytes)) :
    (∀ d sig, Verifier.verify C s d sig decoder = .ok true →
      .sign d ∈ history ∨ ∃ d' n, .attachedSign d' n ∈ history ∧ d = d' ++ (be32 n.length ++ n)) ∧
    (∀ blob n d, Verifier.attachedVerify C s blob n decoder = .ok (some d) →
      .attachedSign d n ∈ history ∨ .sign (d ++ (be32 n.length ++ n)) ∈ history ∨
      ∃ d' n', .attachedSign d' n' ∈ history ∧ n'.length ≠ n.length ∧
        d' ++ (be32 n'.length ++ n') = d ++ (be32 n.length ++ n)) ∧
    (∀ (c c' : SignCall) (m : Bytes), c.signedBytes = .ok m → c'.signedBytes = .ok m →
      c = c' ∨ c.nonce.map List.length ≠ c'.nonce.map List.length) := by
  refine ⟨?_, ?_, fun c c' m h h' => SignCall.eq_of_signedBytes h h'⟩
  · intro d sig h
    obtain ⟨key, m, t, hm, hv⟩ := Verifier.verify_eq_ok h
    obtain ⟨c, hc, hcm⟩ := ideal key m t hv
    have hm' := SignCall.signedBytes_eq_ok (c := .sign d) hm
    have heq : c.data ++ c.suffix = d := by
      have := List.append_cancel_right ((SignCall.signedBytes_eq_ok hcm).symm.trans hm')
      simpa [SignCall.data, SignCall.suffix] using this
    cases c with
    | sign d' =>
      left
      have hd : d' = d := by simpa [SignCall.data, SignCall.suffix] using heq
      exact hd ▸ hc
    | attachedSign d' n => exact Or.inr ⟨d', n, hc, heq.symm⟩
  · intro blob n d h
    obtain ⟨key, m, t, hm, hv⟩ := Verifier.attachedVerify_eq_ok h
    obtain ⟨c, hc, hcm⟩ := ideal key m t hv
    obtain ⟨packed, hp, hmeq⟩ := Python.signedBytes_eq_ok hm
    obtain ⟨_, rfl⟩ := packByteArray_some_eq_ok_iff.mp hp
    have heq : c.data ++ c.suffix = d ++ (be32 n.length ++ n) :=
      List.append_cancel_right ((SignCall.signedBytes_eq_ok hcm).symm.trans hmeq)
    cases c with
    | sign d' =>
      right
      left
      have hd : d' = d ++ (be32 n.length ++ n) := by simpa [SignCall.data, SignCall.suffix] using heq
      exact hd ▸ hc
    | attachedSign d' n' =>
      by_cases hn : n'.length = n.length
      · left
        obtain ⟨rfl, rfl⟩ := attachedSign_inj hn heq
        exact hc
      · exact Or.inr (Or.inr ⟨d', n', hc, hn, heq⟩)

/-! ## One signature, two messages -/

/-- HMAC keys that verify only what was signed: the tag must be right, and the message one of those of the history. -/
def idealKeys (P : Primitives) (history : List SignCall) : KeyClass HmacKey Unit :=
  { hmacKeys P with
    verify := fun k m t => .ok (k.verify P m t && history.any fun c => decide (c.signedBytes.toOption = some m)) }

theorem idealKeys_ideal (P : Primitives) (history : List SignCall) (k : HmacKey) (m t : Bytes)
    (h : (idealKeys P history).verify k m t = .ok true) : ∃ c ∈ history, c.signedBytes = .ok m := by
  have h' := Except.ok.inj h
  rw [Bool.and_eq_true, List.any_eq_true] at h'
  obtain ⟨_, c, hc, hm⟩ := h'
  refine ⟨c, hc, ?_⟩
  have hm' := of_decide_eq_true hm
  cases hs : c.signedBytes with
  | error e => rw [hs] at hm'; cases hm'
  | ok m' =>
    rw [hs] at hm'
    exact congrArg Except.ok (Option.some.inj hm')

/-- The signer of the small key set signs one message; its signature verifies on that message. -/
theorem verified_signature_origin_smallSet :
    Verifier.verify (idealKeys Primitives.plain [.sign [7]]) smallSet [7]
        (header (smallKey.hash Primitives.plain) ++ smallKey.sign Primitives.plain [7, 0]) none = .ok true ∧
      (.sign [7] ∈ [SignCall.sign [7]] ∨
        ∃ d' n, .attachedSign d' n ∈ [SignCall.sign [7]] ∧ ([7] : Bytes) = d' ++ (be32 n.length ++ n)) := by
  have h : Verifier.verify (idealKeys Primitives.plain [.sign [7]]) smallSet [7]
      (header (smallKey.hash Primitives.plain) ++ smallKey.sign Primitives.plain [7, 0]) none = .ok true := by decide
  exact ⟨h, (verified_signature_origin (idealKeys Primitives.plain [.sign [7]]) [.sign [7]] (idealKeys_ideal _ _) smallSet
    none).1 _ _ h⟩

/-- The signature of one attached call, cut out of its blob, verifies as a plain signature on other data; and with the data of one
attached call moved into the nonce of another, one blob's signature verifies for both. -/
theorem attached_signature_reread :
    (∃ sig blob,
      Signer.attachedSign (idealKeys Primitives.plain [.attachedSign [7] [9]]) smallSet () [7] [9] none = .ok blob ∧
      sig = blob.take 5 ++ blob.drop 10 ∧
      Verifier.verify (idealKeys Primitives.plain [.attachedSign [7] [9]]) smallSet [7, 0, 0, 0, 1, 9] sig none = .ok true ∧
      .sign [7, 0, 0, 0, 1, 9] ∉ [SignCall.attachedSign [7] [9]]) ∧
    (∃ blob,
      Verifier.attachedVerify (idealKeys Primitives.plain [.attachedSign [] [0, 0, 0, 0]]) smallSet blob [] none =
        .ok (some [0, 0, 0, 4]) ∧
      .attachedSign [0, 0, 0, 4] [] ∉ [SignCall.attachedSign [] [0, 0, 0, 0]]) := by
  refine ⟨⟨_, _, rfl, rfl, by decide, by decide⟩, ?_⟩
  exact ⟨header (smallKey.hash Primitives.plain) ++ (be32 4 ++ [0, 0, 0, 4]) ++
    smallKey.sign Primitives.plain [0, 0, 0, 4, 0, 0, 0, 0, 0], by decide, by decide⟩

end Python
