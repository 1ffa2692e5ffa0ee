import Keyczar.Java.EcSignatures

/-!
# Sessions on a signature object

What is signed in one session is verified in another, and sessions on one object do not interfere as long as the signatures that are
verified can be decoded. One that cannot leaves its data to the next session.
-/

namespace Java

namespace EcSignatureImpl

open EcCore Throwing Bytes
open DoubleAndAdd (lost)

/-! ## The numbers as bytes -/

/-- A sequence of two short elements is decoded to their contents. -/
def Asn1.Lawful (asn1 : Asn1) : Prop :=
  ∀ a b : Bytes, a.length < 128 → b.length < 128 →
    ∃ der, asn1.encode (0x02 :: UInt8.ofNat a.length :: a) (0x02 :: UInt8.ofNat b.length :: b) = some der ∧ asn1.decode der = some (a, b)

section

variable {params : DomainParameters}

/-- The bytes that a number has in a signature. -/
def numberBytes (params : DomainParameters) (a : Int) : Bytes :=
  toLength (fieldBytes params.toECParameterSpec) (TwosComplement.toBytes a)

theorem length_numberBytes (a : Int) : (numberBytes params a).length = fieldBytes params.toECParameterSpec := length_toLength _ _

/-- A number that the field has room for is read back. -/
theorem ofBytes_numberBytes {a : Int} (ha : 0 ≤ a) (hlt : a < 256 ^ fieldBytes params.toECParameterSpec) :
    (BigEndian.ofBytes (numberBytes params a) : Int) = a := by
  obtain ⟨n, rfl⟩ := Int.eq_ofNat_of_zero_le ha
  exact congrArg Nat.cast (ofBytes_toLength_natBytes (by exact_mod_cast hlt))

theorem element_spec (hp : bitLength params.p + 7 < 2 ^ 31) (a : Int) :
    element params a = .ok (0x02 :: UInt8.ofNat (fieldBytes params.toECParameterSpec) :: numberBytes params a) := by
  have hlength : fieldLength params.toECParameterSpec = fieldBytes params.toECParameterSpec := fieldLength_eq hp
  have hsize : fieldBytes params.toECParameterSpec + 1 + 1 = 2 + fieldBytes params.toECParameterSpec := Nat.add_comm _ 2
  have hwritten : fieldElemToBytesAt params.toECParameterSpec a
      (0x02 :: 0 :: List.replicate (fieldBytes params.toECParameterSpec) 0) (2 : Nat) =
        .ok (overwrite (0x02 :: 0 :: List.replicate (fieldBytes params.toECParameterSpec) 0) 2 (numberBytes params a),
          (fieldBytes params.toECParameterSpec : Int)) :=
    fieldElemToBytesAt_spec hp a (le_of_eq (by simp [hsize])) (by simp)
  have hnumber : (numberBytes params a).length = fieldBytes params.toECParameterSpec := length_numberBytes a
  unfold element
  generalize fieldBytes params.toECParameterSpec = len at *
  have hnew : newBytes (2 + (len : Int)) = .ok (0 :: 0 :: List.replicate len 0) := by
    have hcast : (2 + len : Int) = ((len + 2 : Nat) : Int) := by omega
    rw [hcast, newBytes_natCast]
    rfl
  have hall : overwrite (0x02 :: 0 :: List.replicate len 0) 2 (numberBytes params a) = 0x02 :: 0 :: numberBytes params a := by
    rw [overwrite_to_end (by simp [hnumber, hsize])]
    rfl
  rw [hlength, hnew, ok_bind]
  dsimp only [List.set]
  have htwo : ((2 : Nat) : Int) = 2 := rfl
  rw [htwo, hall] at hwritten
  rw [hwritten]
  rfl

/-- A signature is decoded to the bytes of its numbers, in fields of less than 1017 bits. -/
theorem decode_encodeSignature {asn1 : Asn1} (hasn1 : asn1.Lawful) (hp : fieldBytes params.toECParameterSpec < 128) (r s : Int) :
    ∃ sig, encodeSignature params asn1 r s = .ok sig ∧ asn1.decode sig = some (numberBytes params r, numberBytes params s) := by
  have hbits : bitLength params.p + 7 < 2 ^ 31 := by
    unfold fieldBytes at hp
    rw [Nat.ceilDiv_eq_add_pred_div] at hp
    generalize bitLength params.p = bits at *
    calc bits + 7 < 1024 := by omega
      _ ≤ 2 ^ 31 := by decide
  obtain ⟨der, hencode, hdecode⟩ := hasn1 (numberBytes params r) (numberBytes params s) (by rwa [length_numberBytes])
    (by rwa [length_numberBytes])
  rw [length_numberBytes, length_numberBytes] at hencode
  refine ⟨der, ?_, hdecode⟩
  rw [encodeSignature, element_spec hbits, element_spec hbits, mapError_ok, mapError_ok, ok_bind, ok_bind]
  simp only [hencode]

end

/-- The contents of an element in the short form, and what is behind it. -/
def readElement : Bytes → Option (Bytes × Bytes)
  | 0x02 :: length :: rest => some (rest.take length.toNat, rest.drop length.toNat)
  | _ => none

theorem readElement_append {a : Bytes} (ha : a.length < 128) (rest : Bytes) :
    readElement (0x02 :: UInt8.ofNat a.length :: (a ++ rest)) = some (a, rest) := by
  have hlength : (UInt8.ofNat a.length).toNat = a.length := by
    rw [UInt8.toNat_ofNat', Nat.mod_eq_of_lt (by omega)]
  rw [readElement, hlength, List.take_left, List.drop_left]

/-- The elements of a sequence in the short form. -/
def readElements : Bytes → Option (Bytes × Bytes)
  | 0x30 :: _ :: rest => do
    let (a, rest) ← readElement rest
    let (b, _) ← readElement rest
    return (a, b)
  | _ => none

theorem readElements_append (n : UInt8) {a b : Bytes} (ha : a.length < 128) (hb : b.length < 128) :
    readElements (0x30 :: n :: 0x02 :: UInt8.ofNat a.length :: (a ++ 0x02 :: UInt8.ofNat b.length :: b)) = some (a, b) := by
  have hsecond := readElement_append hb []
  rw [List.append_nil] at hsecond
  simp only [readElements, readElement_append ha, Option.bind_eq_bind, Option.bind_some, hsecond]
  rfl

/-- Sequences in the short form. -/
def shortForm : Asn1 where
  encode a b := some (0x30 :: UInt8.ofNat (a.length + b.length) :: (a ++ b))
  decode := readElements

theorem lawful_shortForm : shortForm.Lawful := by
  intro a b ha hb
  exact ⟨_, rfl, readElements_append (UInt8.ofNat (a.length + 2 + (b.length + 2))) ha hb⟩

/-- A digest of one byte. -/
def smallDigest (data : Bytes) : Bytes := [UInt8.ofNat data.length]

/-- A verification on the small curve, with twice its point. -/
def smallVerify (chunks : List Bytes) (sigBytes : Bytes) : Session :=
  .verify (.ecPublic { W := { x := some 4, y := some 5 }, params := smallDomain }) chunks sigBytes

/-! ## One session -/

variable {H : Bytes → Bytes} {asn1 : Asn1}

theorem updateAll_eq (chunks : List Bytes) (o : EcSignatureImpl) : updateAll chunks o = { o with hash := o.hash ++ chunks.flatten } := by
  unfold updateAll
  induction chunks generalizing o with
  | nil => simp
  | cons b chunks ih =>
    rw [List.foldl_cons, ih, engineUpdate]
    simp

/-- What a session gives on a new object. -/
def fresh (H : Bytes → Bytes) (asn1 : Asn1) (session : Session) : Option Outcome := (runSession H asn1 session {}).map Prod.fst

/-- A session that is given data before its own. -/
def Session.prepend (data : Bytes) : Session → Session
  | .sign key chunks draws => .sign key (data :: chunks) draws
  | .verify key chunks sigBytes => .verify key (data :: chunks) sigBytes

/-- What a session leaves in the digest. -/
def Session.leftover (asn1 : Asn1) (data : Bytes) : Session → Bytes
  | .sign (.ecPrivate _) _ _ => []
  | .sign _ _ _ => data
  | .verify (.ecPublic _) chunks sigBytes =>
    match asn1.decode sigBytes with
    | none => data ++ chunks.flatten
    | some _ => []
  | .verify _ _ _ => data

/-- A signature that is verified can be decoded. -/
def Session.Decodes (asn1 : Asn1) : Session → Prop
  | .sign _ _ _ => True
  | .verify _ _ sigBytes => asn1.decode sigBytes ≠ none

theorem Session.leftover_nil {session : Session} (h : session.Decodes asn1) : session.leftover asn1 [] = [] := by
  cases session with
  | sign key chunks draws => cases key <;> rfl
  | verify key chunks sigBytes =>
    cases key with
    | ecPrivate key => rfl
    | other => rfl
    | ecPublic key =>
      rw [leftover]
      cases hdecode : asn1.decode sigBytes with
      | none => exact absurd hdecode h
      | some rs => rfl

theorem runSession_sign (key : ECPrivateKey) (chunks : List Bytes) (draws : List Nat) (o : EcSignatureImpl) :
    runSession H asn1 (.sign (.ecPrivate key) chunks draws) o =
      (engineSign H asn1 draws { o with privateKey := some key, params := some key.params, hash := o.hash ++ chunks.flatten }).map
        fun r => (.signed r.1, r.2) := by
  rw [runSession, engineInitSign]
  dsimp only
  rw [updateAll_eq]

theorem runSession_verify (key : ECPublicKey) (chunks : List Bytes) (sigBytes : Bytes) (o : EcSignatureImpl) :
    runSession H asn1 (.verify (.ecPublic key) chunks sigBytes) o =
      some (.verified (engineVerify H asn1 sigBytes
          { o with publicKey := some key, params := some key.params, hash := o.hash ++ chunks.flatten }).1,
        (engineVerify H asn1 sigBytes { o with publicKey := some key, params := some key.params, hash := o.hash ++ chunks.flatten }).2) := by
  rw [runSession, engineInitVerify]
  dsimp only
  rw [updateAll_eq]

/-- What signing gives depends on the data, the private key and the parameters only; and the digest is finished. -/
theorem engineSign_congr (H : Bytes → Bytes) (asn1 : Asn1) (draws : List Nat) (o o' : EcSignatureImpl) (hhash : o.hash = o'.hash) (hkey : o.privateKey = o'.privateKey)
    (hparams : o.params = o'.params) :
    ∃ result : Option (Except SignatureThrown Bytes), engineSign H asn1 draws o = result.map (·, { o with hash := [] }) ∧
      engineSign H asn1 draws o' = result.map (·, { o' with hash := [] }) := by
  unfold engineSign
  dsimp only
  rw [← hhash, ← hkey, ← hparams]
  cases o.params with
  | none => exact ⟨some _, rfl, rfl⟩
  | some params =>
    refine ⟨(signLoop params o.privateKey (trimHash (H o.hash) params.order) draws).map fun result =>
      result.mapError .unchecked >>= fun rs => encodeSignature params asn1 rs.1 rs.2, ?_, ?_⟩
    · dsimp only
      rw [Option.map_map]
      rfl
    · dsimp only
      rw [Option.map_map]
      rfl

/-- What verifying gives depends on the data, the public key and the parameters only; and the digest is finished, unless the signature
cannot be decoded. -/
theorem engineVerify_congr (H : Bytes → Bytes) (asn1 : Asn1) (sigBytes : Bytes) (o o' : EcSignatureImpl) (hhash : o.hash = o'.hash) (hkey : o.publicKey = o'.publicKey)
    (hparams : o.params = o'.params) :
    (engineVerify H asn1 sigBytes o).1 = (engineVerify H asn1 sigBytes o').1 ∧
      (engineVerify H asn1 sigBytes o).2.hash = if asn1.decode sigBytes = none then o.hash else [] := by
  unfold engineVerify
  cases asn1.decode sigBytes with
  | none => exact ⟨rfl, (if_pos rfl).symm⟩
  | some rs =>
    dsimp only
    rw [← hhash, ← hkey, ← hparams, if_neg nofun]
    cases o.params with
    | none => exact ⟨rfl, rfl⟩
    | some params =>
      dsimp only
      cases verifyNumbers params o.publicKey (trimHash (H o.hash) params.order) (BigEndian.ofBytes rs.1) (BigEndian.ofBytes rs.2) with
      | error t => exact ⟨rfl, rfl⟩
      | ok b => exact ⟨rfl, rfl⟩

/-- A session gives what it gives on a new object after the data that were left. -/
theorem runSession_eq (H : Bytes → Bytes) (asn1 : Asn1) (session : Session) (o : EcSignatureImpl) :
    (runSession H asn1 session o).map (fun r => (r.1, r.2.hash)) =
      (fresh H asn1 (session.prepend o.hash)).map (·, session.leftover asn1 o.hash) := by
  cases session with
  | sign key chunks draws =>
    cases key with
    | ecPrivate key =>
      have hdata : ([] : Bytes) ++ (o.hash :: chunks).flatten = o.hash ++ chunks.flatten := rfl
      obtain ⟨result, hrun, hrun'⟩ := engineSign_congr H asn1 draws
        { o with privateKey := some key, params := some key.params, hash := o.hash ++ chunks.flatten }
        { privateKey := some key, params := some key.params, hash := o.hash ++ chunks.flatten } rfl rfl rfl
      rw [fresh, Session.prepend, runSession_sign, runSession_sign, hrun, hdata, hrun']
      cases result with
      | none => rfl
      | some result => rfl
    | ecPublic key => rfl
    | other => rfl
  | verify key chunks sigBytes =>
    cases key with
    | ecPublic key =>
      have hdata : ([] : Bytes) ++ (o.hash :: chunks).flatten = o.hash ++ chunks.flatten := rfl
      obtain ⟨hresult, hhash⟩ := engineVerify_congr H asn1 sigBytes
        { o with publicKey := some key, params := some key.params, hash := o.hash ++ chunks.flatten }
        { publicKey := some key, params := some key.params, hash := o.hash ++ chunks.flatten } rfl rfl rfl
      rw [fresh, Session.prepend, runSession_verify, runSession_verify, Option.map_some, Option.map_some, Option.map_some, hdata, hresult,
        hhash, Session.leftover]
      cases asn1.decode sigBytes with
      | none => rfl
      | some rs => rfl
    | ecPrivate key => rfl
    | other => rfl

/-! ## Session after session -/

/-- What sessions should give: each on a new object, after the data that the one before left. -/
def outcomes (H : Bytes → Bytes) (asn1 : Asn1) : Bytes → List Session → Option (List Outcome)
  | _, [] => some []
  | data, session :: sessions => do
    let outcome ← fresh H asn1 (session.prepend data)
    let rest ← outcomes H asn1 (session.leftover asn1 data) sessions
    return outcome :: rest

/-- On one object they give that. -/
theorem runSessions_eq (sessions : List Session) (o : EcSignatureImpl) :
    (runSessions H asn1 sessions o).map Prod.fst = outcomes H asn1 o.hash sessions := by
  induction sessions generalizing o with
  | nil => rfl
  | cons session sessions ih =>
    have hrun := runSession_eq H asn1 session o
    rw [runSessions, outcomes]
    cases hsession : runSession H asn1 session o with
    | none =>
      rw [hsession] at hrun
      cases hfresh : fresh H asn1 (session.prepend o.hash) with
      | none => rfl
      | some outcome =>
        rw [hfresh] at hrun
        cases hrun
    | some r =>
      rw [hsession] at hrun
      cases hfresh : fresh H asn1 (session.prepend o.hash) with
      | none =>
        rw [hfresh] at hrun
        cases hrun
      | some outcome =>
        rw [hfresh, Option.map_some, Option.map_some, Option.some.injEq, Prod.mk.injEq] at hrun
        obtain ⟨rfl, hhash⟩ := hrun
        have hrest := ih r.2
        rw [hhash] at hrest
        obtain ⟨outcome, o₁⟩ := r
        rw [← hrest]
        simp only [Option.bind_eq_bind, Option.bind_some]
        cases runSessions H asn1 sessions o₁ <;> rfl

theorem fresh_prepend_nil (session : Session) : fresh H asn1 (session.prepend []) = fresh H asn1 session := by
  cases session with
  | sign key chunks draws => cases key <;> rfl
  | verify key chunks sigBytes => cases key <;> rfl

/-- Sessions that leave nothing do not matter to those behind them. -/
theorem outcomes_append {sessions : List Session} (h : ∀ session ∈ sessions, session.Decodes asn1) (rest : List Session) :
    outcomes H asn1 [] (sessions ++ rest) = do
      let first ← sessions.mapM (fresh H asn1)
      let second ← outcomes H asn1 [] rest
      return first ++ second := by
  induction sessions with
  | nil =>
    rw [List.nil_append, List.mapM_nil]
    cases outcomes H asn1 [] rest <;> rfl
  | cons session sessions ih =>
    obtain ⟨hdecodes, hrest⟩ := List.forall_mem_cons.mp h
    rw [List.cons_append, outcomes, fresh_prepend_nil, Session.leftover_nil hdecodes, ih hrest, List.mapM_cons]
    cases fresh H asn1 session with
    | none => rfl
    | some outcome =>
      cases sessions.mapM (fresh H asn1) with
      | none => rfl
      | some first => cases outcomes H asn1 [] rest <;> rfl

/-- Sessions on one object give what they give on new objects, as long as the signatures that are verified can be decoded. Behind one that
cannot, the next session is about the data of both. -/
theorem sessions_interfere (sessions : List Session) (h : ∀ session ∈ sessions, session.Decodes asn1) :
    (runSessions H asn1 sessions {}).map Prod.fst = sessions.mapM (fresh H asn1) ∧
      ∀ key chunks sigBytes session, asn1.decode sigBytes = none →
        (runSessions H asn1 (sessions ++ [.verify (.ecPublic key) chunks sigBytes, session]) {}).map Prod.fst = do
          let first ← sessions.mapM (fresh H asn1)
          let outcome ← fresh H asn1 (session.prepend chunks.flatten)
          return first ++ [.verified (.error .signature), outcome] := by
  rw [runSessions_eq]
  constructor
  · have hall := outcomes_append (H := H) h []
    rw [List.append_nil] at hall
    rw [hall]
    cases sessions.mapM (fresh H asn1) with
    | none => rfl
    | some first => exact congrArg some (List.append_nil first)
  · intro key chunks sigBytes session hdecode
    have hundecoded : fresh H asn1 (.verify (.ecPublic key) chunks sigBytes) = some (.verified (.error .signature)) := by
      rw [fresh, runSession_verify, engineVerify, hdecode]
      rfl
    rw [runSessions_eq, outcomes_append h, outcomes, fresh_prepend_nil, hundecoded, Session.leftover, hdecode, outcomes, List.nil_append]
    cases sessions.mapM (fresh H asn1) with
    | none => rfl
    | some first => cases fresh H asn1 (session.prepend chunks.flatten) <;> rfl

theorem sessions_interfere_small :
    (runSessions smallDigest shortForm
      [smallVerify [[7]] [0x30, 6, 2, 1, 4, 2, 1, 4], smallVerify [[1]] [], smallVerify [[2, 3]] [0x30, 6, 2, 1, 4, 2, 1, 4]] {}).map
        Prod.fst = do
      let first ← [smallVerify [[7]] [0x30, 6, 2, 1, 4, 2, 1, 4]].mapM (fresh smallDigest shortForm)
      let outcome ← fresh smallDigest shortForm (smallVerify [[1], [2, 3]] [0x30, 6, 2, 1, 4, 2, 1, 4])
      return first ++ [.verified (.error .signature), outcome] := by
  have hdecodes : ∀ session ∈ [smallVerify [[7]] [0x30, 6, 2, 1, 4, 2, 1, 4]], session.Decodes shortForm :=
    List.forall_mem_singleton.mpr (show shortForm.decode [0x30, 6, 2, 1, 4, 2, 1, 4] ≠ none by decide)
  exact (@sessions_interfere smallDigest shortForm _ hdecodes).2 { W := { x := some 4, y := some 5 }, params := smallDomain } [[1]] []
    (smallVerify [[2, 3]] [0x30, 6, 2, 1, 4, 2, 1, 4]) rfl

/-! ## Signing and verifying -/

section

variable {params : DomainParameters} [Fact params.p.Prime] {g w : params.curve.Point}

/-- The number of what a session is about. -/
def digestNumber (H : Bytes → Bytes) (params : DomainParameters) (data : Bytes) : Nat := trimHash (H data) params.order

/-- A signing session gives what the loops end with, encoded. -/
theorem sign_eq (params : DomainParameters) (S : Int) (chunks : List Bytes) (draws : List Nat) (o : EcSignatureImpl) :
    (runSession H asn1 (.sign (.ecPrivate { S, params }) chunks draws) o).map Prod.fst =
      (signLoop params (some { S, params }) (digestNumber H params (o.hash ++ chunks.flatten)) draws).map fun result =>
        .signed (result.mapError .unchecked >>= fun rs => encodeSignature params asn1 rs.1 rs.2) := by
  rw [runSession_sign, engineSign, digestNumber]
  dsimp only
  rw [Option.map_map, Option.map_map]
  rfl

/-- What a signing session gives, for the numbers that are drawn: the signature of the first one that is not skipped, or an exception if
that is lost. -/
theorem session_signs_iff (D : IsDomain params g) (S : Int) (chunks : List Bytes) (draws : List Nat) (o : EcSignatureImpl) (outcome : Outcome) :
    (runSession H asn1 (.sign (.ecPrivate { S, params }) chunks draws) o).map Prod.fst = some outcome ↔
      ∃ skipped draw rest, draws = skipped ++ draw :: rest ∧
        (∀ d ∈ skipped, Skips g S (digestNumber H params (o.hash ++ chunks.flatten)) (d % params.order)) ∧
        ¬Skips g S (digestNumber H params (o.hash ++ chunks.flatten)) (draw % params.order) ∧
        outcome = .signed (if Lost params.order (draw % params.order) then .error (.unchecked .arithmetic)
          else encodeSignature params asn1 (number ((draw % params.order) • g))
            (secondNumber g S (digestNumber H params (o.hash ++ chunks.flatten)) (draw % params.order))) := by
  have hresult (k : Nat) : ((nonceResult g S (digestNumber H params (o.hash ++ chunks.flatten)) k).mapError .unchecked >>= fun rs =>
      encodeSignature params asn1 rs.1 rs.2) = if Lost params.order k then .error (.unchecked .arithmetic)
        else encodeSignature params asn1 (number (k • g)) (secondNumber g S (digestNumber H params (o.hash ++ chunks.flatten)) k) := by
    unfold nonceResult
    by_cases hlost : Lost params.order k
    · rw [if_pos hlost, if_pos hlost]
      rfl
    · rw [if_neg hlost, if_neg hlost, mapError_ok, ok_bind]
  rw [sign_eq, Option.map_eq_some_iff]
  constructor
  · rintro ⟨result, hloop, rfl⟩
    obtain ⟨skipped, draw, rest, hdraws, hskipped, hlast, rfl⟩ := (signLoop_iff D { S, params } _ draws result).mp hloop
    exact ⟨skipped, draw, rest, hdraws, hskipped, hlast, congrArg Outcome.signed (hresult _)⟩
  · rintro ⟨skipped, draw, rest, hdraws, hskipped, hlast, rfl⟩
    refine ⟨_, (signLoop_iff D { S, params } _ draws _).mpr ⟨skipped, draw, rest, hdraws, hskipped, hlast, rfl⟩, ?_⟩
    exact congrArg Outcome.signed (hresult _)

theorem digestNumber_small : digestNumber smallDigest smallDomain [1, 2, 3] = 0 := by
  have hbits : bitLength 5 = 3 := rfl
  unfold digestNumber trimHash
  rw [hbits]
  rfl

theorem sign_small :
    (runSession smallDigest shortForm (.sign (.ecPrivate { S := 2, params := smallDomain }) [[1, 2], [3]] [5, 2]) {}).map Prod.fst =
      some (.signed (encodeSignature smallDomain shortForm 4 4)) := by
  refine (@session_signs_iff smallDigest shortForm smallDomain _ _ isDomain_small 2 [[1, 2], [3]] [5, 2] {} _).mpr
    ⟨[5], 2, [], rfl, ?_, ?_, ?_⟩
  · intro d hd
    rw [List.mem_singleton.mp hd]
    exact Or.inl rfl
  · exact digestNumber_small ▸ not_skips_small
  · have hlost : ¬Lost smallDomain.order (2 % smallDomain.order) := by decide
    have hdigest : digestNumber smallDigest smallDomain (({} : EcSignatureImpl).hash ++ [[1, 2], [3]].flatten) = 0 := digestNumber_small
    rw [if_neg hlost, hdigest]
    exact congrArg Outcome.signed (congrArg₂ (encodeSignature smallDomain shortForm) number_two_smallPoint.symm secondNumber_small.symm)

/-- What a verifying session gives: a signature is accepted exactly where the point that is computed from its numbers has the first of
them, and refused by an exception exactly where it is not decoded or, for numbers in range, no such point is computed. -/
theorem session_verifies_iff (D : IsDomain params g) {W : AffinePoint} (hW : IsAffine W w) (chunks : List Bytes) (sigBytes : Bytes)
    (o : EcSignatureImpl) :
    ((runSession H asn1 (.verify (.ecPublic { W, params }) chunks sigBytes) o).map Prod.fst = some (.verified (.ok true)) ↔
      ∃ rs, asn1.decode sigBytes = some rs ∧ InRange params.order (BigEndian.ofBytes rs.1) (BigEndian.ofBytes rs.2) ∧ g ≠ w ∧ g ≠ -w ∧
        computed g w (digestNumber H params (o.hash ++ chunks.flatten)) (BigEndian.ofBytes rs.1) (BigEndian.ofBytes rs.2) ≠ 0 ∧
        number (computed g w (digestNumber H params (o.hash ++ chunks.flatten)) (BigEndian.ofBytes rs.1) (BigEndian.ofBytes rs.2)) =
          BigEndian.ofBytes rs.1) ∧
    ((runSession H asn1 (.verify (.ecPublic { W, params }) chunks sigBytes) o).map Prod.fst = some (.verified (.error .signature)) ↔
      asn1.decode sigBytes = none ∨
        ∃ rs, asn1.decode sigBytes = some rs ∧ InRange params.order (BigEndian.ofBytes rs.1) (BigEndian.ofBytes rs.2) ∧
          (g = w ∨ g = -w ∨
            computed g w (digestNumber H params (o.hash ++ chunks.flatten)) (BigEndian.ofBytes rs.1) (BigEndian.ofBytes rs.2) = 0)) := by
  rw [runSession_verify, engineVerify]
  dsimp only
  unfold digestNumber
  cases hdecode : asn1.decode sigBytes with
  | none =>
    refine ⟨⟨?_, ?_⟩, ⟨fun _ => Or.inl rfl, fun _ => rfl⟩⟩
    · intro h
      cases h
    · rintro ⟨rs, hrs, -⟩
      cases hrs
  | some rs =>
    obtain ⟨haccepts, hthrows⟩ := @verifyNumbers_iff params _ g w D { W, params } hW (trimHash (H (o.hash ++ chunks.flatten)) params.order)
      (BigEndian.ofBytes rs.1) (BigEndian.ofBytes rs.2)
    simp only [Option.some.injEq, exists_eq_left', reduceCtorEq, false_or]
    rw [← haccepts, ← hthrows]
    cases verifyNumbers params (some { W, params }) (trimHash (H (o.hash ++ chunks.flatten)) params.order) (BigEndian.ofBytes rs.1)
      (BigEndian.ofBytes rs.2) with
    | error t => simp
    | ok b => simp

theorem verify_small :
    (runSession smallDigest shortForm (smallVerify [[1, 2, 3]] [0x30, 6, 2, 1, 4, 2, 1, 4]) {}).map Prod.fst = some (.verified (.ok true)) ∧
      (runSession smallDigest shortForm (smallVerify [[1, 2, 3]] []) {}).map Prod.fst = some (.verified (.error .signature)) := by
  have hsignature : @IsSignature smallDomain _ smallPoint 2 0 4 4 := isSignature_small (by decide) (by decide) (by decide)
  have hW : IsAffine { x := some 4, y := some 5 } ((2 : Int) • smallPoint) := two_zsmul_smallPoint ▸ isAffine_smallDouble
  have haccepted := @verifyNumbers_of_signature smallDomain _ _ isDomain_small 2
    { W := { x := some 4, y := some 5 }, params := smallDomain } hW 0 4 4 hsignature (two_zsmul_smallPoint ▸ uneventful_0_4_4)
  have hexact := (@verifyNumbers_iff smallDomain _ _ _ isDomain_small { W := { x := some 4, y := some 5 }, params := smallDomain }
    isAffine_smallDouble 0 4 4).1.mp haccepted
  have hiff (sigBytes : Bytes) := @session_verifies_iff smallDigest shortForm smallDomain _ _ _ isDomain_small { x := some 4, y := some 5 }
    isAffine_smallDouble [[1, 2, 3]] sigBytes {}
  refine ⟨(hiff _).1.mpr ⟨([4], [4]), rfl, ?_⟩, (hiff _).2.mpr (Or.inl rfl)⟩
  have hdigest : digestNumber smallDigest smallDomain (({} : EcSignatureImpl).hash ++ [[1, 2, 3]].flatten) = 0 := digestNumber_small
  rw [hdigest]
  exact hexact

/-- A signature is decoded to numbers that verify as those of the signature do. -/
theorem verify_of_sign (D : IsDomain params g) (hasn1 : asn1.Lawful) (hfield : fieldBytes params.toECParameterSpec < 128)
    (horder : params.order ≤ 256 ^ fieldBytes params.toECParameterSpec) {S : Int} {W : AffinePoint} (hW : IsAffine W (S • g))
    {o o' : EcSignatureImpl} {chunks chunks' : List Bytes} (hdata : o.hash ++ chunks.flatten = o'.hash ++ chunks'.flatten)
    {draws : List Nat} {sig : Bytes}
    (hsign : (runSession H asn1 (.sign (.ecPrivate { S, params }) chunks draws) o).map Prod.fst = some (.signed (.ok sig))) :
    ∃ r s, asn1.decode sig = some (numberBytes params r, numberBytes params s) ∧
      IsSignature g S (digestNumber H params (o.hash ++ chunks.flatten)) r s ∧
      (Uneventful g (S • g) (digestNumber H params (o.hash ++ chunks.flatten)) r s →
        (runSession H asn1 (.verify (.ecPublic { W, params }) chunks' sig) o').map Prod.fst = some (.verified (.ok true))) ∧
      (g = S • g ∨ g = -(S • g) →
        (runSession H asn1 (.verify (.ecPublic { W, params }) chunks' sig) o').map Prod.fst = some (.verified (.error .signature))) := by
  rw [sign_eq, Option.map_eq_some_iff] at hsign
  obtain ⟨result, hloop, hresult⟩ := hsign
  cases result with
  | error t => cases hresult
  | ok rs =>
    obtain ⟨r, s⟩ := rs
    have hsignature := IsSignature.of_signLoop D hloop
    obtain ⟨der, hencode, hdecode⟩ := decode_encodeSignature hasn1 hfield r s
    rw [mapError_ok, ok_bind, hencode] at hresult
    cases hresult
    have hcast : (params.order : Int) ≤ 256 ^ fieldBytes params.toECParameterSpec := by exact_mod_cast horder
    have hr : (BigEndian.ofBytes (numberBytes params r) : Int) = r :=
      ofBytes_numberBytes (Int.le_trans (by decide) hsignature.r_pos) (hsignature.r_lt.trans_le hcast)
    have hs : (BigEndian.ofBytes (numberBytes params s) : Int) = s :=
      ofBytes_numberBytes (Int.le_trans (by decide) hsignature.s_pos) (hsignature.s_lt.trans_le hcast)
    refine ⟨r, s, hdecode, hsignature, ?_, ?_⟩
    · intro huneventful
      have haccepted := @verifyNumbers_of_signature params _ g D S { W, params } hW _ r s hsignature huneventful
      unfold digestNumber at haccepted
      rw [runSession_verify, engineVerify, hdecode]
      dsimp only
      rw [← hdata, hr, hs, haccepted]
      rfl
    · intro hsame
      have hrange : InRange params.order r s := ⟨hsignature.r_pos, hsignature.r_lt, hsignature.s_pos, hsignature.s_lt⟩
      have hthrows := @verifyNumbers_of_same params _ g (S • g) D { W, params } hW hsame r s hrange
      rw [runSession_verify, engineVerify, hdecode]
      dsimp only
      rw [hr, hs, hthrows]
      rfl

/-- A multiple is the point itself or the opposite one for the first scalar and the last. -/
theorem eq_nsmul_iff (D : IsDomain params g) {S : Nat} (hpos : 1 ≤ S) (hlt : S < params.order) :
    (g = S • g ↔ S = 1) ∧ (g = -(S • g) ↔ S = params.order - 1) := by
  have horder := D.order
  constructor
  · constructor
    · intro h
      by_contra hne
      refine nsmul_ne_zero_of_lt (A := g) (m := S - 1) (by omega) (by omega) ?_
      have hsum : (S - 1) • g + g = S • g := by
        rw [← succ_nsmul]
        congr 1
        omega
      rw [← h] at hsum
      exact add_eq_right.mp hsum
    · rintro rfl
      exact (one_nsmul g).symm
  · have hsum : g = -(S • g) ↔ (S + 1) • g = 0 := by
      rw [succ_nsmul, eq_neg_iff_add_eq_zero, add_comm]
    rw [hsum, ← addOrderOf_dvd_iff_nsmul_eq_zero, horder]
    constructor
    · intro hdvd
      have hle := Nat.le_of_dvd (by omega) hdvd
      omega
    · intro h
      exact dvd_of_eq (by omega)

/-- What is signed with a key that was generated is verified with its point on any object that is given the same data, in whatever
pieces, unless an addition loses something; but a signature with the first or the last key throws. -/
theorem verify_of_generated (D : IsDomain params g) (hasn1 : asn1.Lawful) (hfield : fieldBytes params.toECParameterSpec < 128)
    (horder : params.order ≤ 256 ^ fieldBytes params.toECParameterSpec) {keyDraws : List Nat} {publicKey : ECPublicKey}
    {privateKey : ECPrivateKey} (hkeys : generateKeyPair params keyDraws = some (.ok (publicKey, privateKey)))
    {o o' : EcSignatureImpl} {chunks chunks' : List Bytes} (hdata : o.hash ++ chunks.flatten = o'.hash ++ chunks'.flatten)
    {draws : List Nat} {sig : Bytes}
    (hsign : (runSession H asn1 (.sign (.ecPrivate privateKey) chunks draws) o).map Prod.fst = some (.signed (.ok sig))) :
    ∃ r s, asn1.decode sig = some (numberBytes params r, numberBytes params s) ∧
      IsSignature g privateKey.S (digestNumber H params (o.hash ++ chunks.flatten)) r s ∧
      (privateKey.S ≠ 1 → privateKey.S ≠ params.order - 1 →
        lost 0 (verifySteps g (privateKey.S • g) (digestNumber H params (o.hash ++ chunks.flatten)) r s) = 0 →
        (runSession H asn1 (.verify (.ecPublic publicKey) chunks' sig) o').map Prod.fst = some (.verified (.ok true))) ∧
      (privateKey.S = 1 ∨ privateKey.S = params.order - 1 →
        (runSession H asn1 (.verify (.ecPublic publicKey) chunks' sig) o').map Prod.fst = some (.verified (.error .signature))) := by
  obtain ⟨S, hpos, hlt, rfl, hparams, hW⟩ := generateKeyPair_spec D hkeys
  obtain ⟨W, params'⟩ := publicKey
  obtain rfl : params' = params := hparams
  rw [← natCast_zsmul] at hW
  obtain ⟨hfirst, hlast⟩ := eq_nsmul_iff D hpos hlt
  rw [← natCast_zsmul] at hfirst hlast
  obtain ⟨r, s, hdecode, hsignature, haccepted, hthrows⟩ := verify_of_sign D hasn1 hfield horder hW hdata hsign
  refine ⟨r, s, hdecode, hsignature, ?_, ?_⟩
  · dsimp only
    intro hone hminus hlost
    refine haccepted ⟨?_, ?_, hlost⟩
    · intro hsame
      exact hone (by exact_mod_cast hfirst.mp hsame)
    · intro hopposite
      have := hlast.mp hopposite
      omega
  · dsimp only
    rintro (hone | hminus)
    · exact hthrows (Or.inl (hfirst.mpr (by exact_mod_cast hone)))
    · exact hthrows (Or.inr (hlast.mpr (by omega)))

theorem verify_of_generated_small :
    (runSession smallDigest shortForm (.sign (.ecPrivate { S := 2, params := smallDomain }) [[1, 2], [3]] [2]) {}).map Prod.fst =
        some (.signed (.ok [0x30, 6, 2, 1, 4, 2, 1, 4])) ∧
      (runSession smallDigest shortForm (.verify (.ecPublic { W := { x := some 4, y := some 5 }, params := smallDomain }) [[1], [2, 3]]
        [0x30, 6, 2, 1, 4, 2, 1, 4]) {}).map Prod.fst = some (.verified (.ok true)) := by
  have hlost : ¬Lost smallDomain.order (2 % smallDomain.order) := by decide
  have hloop : signLoop smallDomain (some { S := 2, params := smallDomain }) (digestNumber smallDigest smallDomain [1, 2, 3]) [2] =
      some (.ok (4, 4)) := by
    rw [digestNumber_small]
    refine (@signLoop_of_not_skips smallDomain _ _ isDomain_small { S := 2, params := smallDomain } 0 2 [] not_skips_small).trans ?_
    unfold nonceResult
    rw [if_neg hlost]
    exact congrArg some (congrArg Except.ok (Prod.ext number_two_smallPoint secondNumber_small))
  have hencode : encodeSignature smallDomain shortForm 4 4 = .ok [0x30, 6, 2, 1, 4, 2, 1, 4] := by decide +kernel
  have hsign : (runSession smallDigest shortForm (.sign (.ecPrivate { S := 2, params := smallDomain }) [[1, 2], [3]] [2]) {}).map Prod.fst =
      some (.signed (.ok [0x30, 6, 2, 1, 4, 2, 1, 4])) := by
    have hdigest : digestNumber smallDigest smallDomain (({} : EcSignatureImpl).hash ++ [[1, 2], [3]].flatten) =
        digestNumber smallDigest smallDomain [1, 2, 3] := rfl
    rw [sign_eq, hdigest, hloop, Option.map_some, mapError_ok, ok_bind, hencode]
  refine ⟨hsign, ?_⟩
  obtain ⟨r, s, hdecode, hsignature, hverify, -⟩ := @verify_of_generated smallDigest shortForm smallDomain _ _ isDomain_small
    lawful_shortForm (by decide +kernel) (by decide +kernel) [0, 2] _ _ generateKeyPair_small {} {} [[1, 2], [3]] [[1], [2, 3]] rfl [2] _
    hsign
  have hread : numberBytes smallDomain r = [4] ∧ numberBytes smallDomain s = [4] := by
    have heq := hdecode.symm.trans (show shortForm.decode [0x30, 6, 2, 1, 4, 2, 1, 4] = some ([4], [4]) from rfl)
    exact Prod.ext_iff.mp (Option.some.inj heq)
  have hread' (a : Int) (ha : numberBytes smallDomain a = [4]) (hpos : 1 ≤ a) (hlt : a < 5) : a = 4 := by
    have hsmall : (5 : Int) ≤ 256 ^ fieldBytes smallDomain.toECParameterSpec := by decide +kernel
    rw [← ofBytes_numberBytes (Int.le_trans (by decide) hpos) (hlt.trans_le hsmall), ha]
    rfl
  obtain rfl := hread' r hread.1 hsignature.r_pos hsignature.r_lt
  obtain rfl := hread' s hread.2 hsignature.s_pos hsignature.s_lt
  refine hverify (by decide) (by decide) ?_
  dsimp only
  rw [two_zsmul_smallPoint]
  exact digestNumber_small ▸ uneventful_0_4_4.lost

end

end EcSignatureImpl

end Java
