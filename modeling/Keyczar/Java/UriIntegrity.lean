import Keyczar.Java.SignedUris

/-!
# What an accepted URI says about the signed one

With ideal signatures an accepted URI has the components of a signed one. The parameters that begin with the name of the signature
parameter are left out before anything is verified, so of those nothing is known.
-/

namespace Java

open Bytes Throwing

variable {ρ : Type}

/-- A signature that is accepted has the header of a key that verifies it. -/
theorem Verifier.verify_eq_ok {z : SigningKeyczar ρ} {data signature : Bytes} (h : Verifier.verify z data signature = .ok true) :
    ∃ hash sig, hash.length = KEY_HASH_SIZE ∧ signature = [0] ++ hash ++ sig ∧
      ∃ key ∈ z.getKey hash, key.verify (data ++ [0]) sig = .ok true := by
  by_cases hshort : signature.length < 5
  · rw [verify, verifyBuffer, ByteBuffer.remaining_wrap, if_pos (show signature.length < Signer.HEADER_SIZE from hshort)] at h
    cases h
  have hlong : ¬ signature.length < Signer.HEADER_SIZE := hshort
  obtain ⟨version, rest, rfl⟩ := List.exists_cons_of_length_pos (l := signature) (by omega)
  rw [List.length_cons] at hshort
  by_cases hversion : version = 0
  · subst hversion
    have hhash : (rest.take 4).length = KEY_HASH_SIZE := by
      rw [List.length_take]
      exact Nat.min_eq_left (by omega)
    have hlayout : 0 :: rest = [0] ++ rest.take 4 ++ rest.drop 4 := by
      rw [List.append_assoc, List.take_append_drop]
      rfl
    have hrest : (ByteBuffer.wrap (0 :: rest)).rest = [0] ++ rest.take 4 ++ rest.drop 4 := by rw [ByteBuffer.rest_wrap, hlayout]
    refine ⟨rest.take 4, rest.drop 4, hhash, hlayout, ?_⟩
    cases hkeys : z.getKey (rest.take 4) with
    | nil =>
      rw [verify, verifyBuffer_of_no_key (ByteBuffer.wrap data) none hhash hrest hkeys] at h
      cases h
    | cons key keys =>
      have hkey : key ∈ z.getKey (rest.take 4) := by
        rw [hkeys]
        exact List.mem_cons_self
      obtain ⟨b, hb, hiff⟩ := verifyBuffer_layout (ByteBuffer.wrap data) none hhash hrest hkey
      rw [verify, hb] at h
      rw [Except.ok.inj h, ByteBuffer.rest_wrap, Option.map_none, Option.getD_none, List.append_nil, hkeys] at hiff
      exact hiff.mp rfl
  · obtain ⟨b, hget, -⟩ := ByteBuffer.get_append (b := ByteBuffer.wrap (version :: rest)) (x := [version]) (y := rest) (n := 1)
      (ByteBuffer.rest_wrap _) rfl
    have hformat : [version] ≠ Signer.FORMAT_BYTES := fun heq => hversion (List.singleton_inj.mp heq)
    rw [verify, verifyBuffer, ByteBuffer.remaining_wrap, if_neg hlong, checkFormatAndGetHash, hget, mapError_ok, ok_bind] at h
    dsimp only at h
    rw [if_pos hformat] at h
    cases h

namespace UriSigner

variable {R : Rendering} {uri : URI} {sigParam : Text}

/-! ## Signed and accepted URIs -/

/-- The message that is signed of a URI: its canonical form. -/
def IsMessage (R : Rendering) (uri : URI) (m : Bytes) : Prop :=
  sortedParams uri.query ≠ [] ∧ m = (R.toASCIIString (withSorted uri)).getBytes ++ [0]

/-- A call on a URI signs its message and nothing else. -/
theorem sign_signs {z : SigningKeyczar ρ} {k : SigningKey ρ} {random : ρ} {signed : URI} (hk : z.getPrimaryKey = some k)
    (h : sign R.toASCIIString z random (some uri) sigParam = .ok signed) :
    ∃ m sig, IsMessage R uri m ∧ k.sign random m = .ok sig ∧ ∃ text, Base64Strings.encodeWebSafe ([0] ++ k.hash ++ sig) = .ok text ∧
      signed = { uri with query := some (Segments.join 38 (sortedParams uri.query) ++ [38] ++ (sigParam ++ [61] ++ text)) } := by
  rw [sign_eq] at h
  by_cases hparams : sortedParams uri.query = []
  · rw [if_pos hparams] at h
    cases h
  rw [if_neg hparams] at h
  cases htext : Signer.signText z random (R.toASCIIString (withSorted uri)) with
  | error e =>
    rw [htext] at h
    cases h
  | ok text =>
    rw [htext] at h
    obtain rfl := Except.ok.inj h
    obtain ⟨signature, hsignature, hencode⟩ := ok_of_bind htext
    obtain ⟨sig, hsig, hlayout⟩ := SignCall.run_eq_ok hk (c := .sign (R.toASCIIString (withSorted uri)).getBytes)
      (mapError_eq_ok_iff.mp hsignature)
    refine ⟨_, sig, ⟨hparams, rfl⟩, hsig, text, ?_, rfl⟩
    have hsame : signature = [0] ++ k.hash ++ sig := hlayout
    rw [← hsame]
    exact mapError_eq_ok_iff.mp hencode

/-- The keys accept the messages of signed URIs and no others. -/
def Explains (R : Rendering) (z : SigningKeyczar ρ) (Signed : URI → Prop) : Prop :=
  ∀ hash, ∀ key ∈ z.getKey hash, ∀ m sig, key.verify m sig = .ok true → ∃ uri, Signed uri ∧ IsMessage R uri m

/-- The name of a parameter: what is in front of its first equals sign. -/
def nameOf (p : Text) : Text := p.takeWhile (· ≠ 61)

/-- The components are the same, and the parameters are those of another URI but for the ones with a name. -/
structure SameParams (u u' : URI) (sigParam : Text) : Prop where
  scheme : u.scheme = u'.scheme
  authority : u.authority = u'.authority
  path : u.path = u'.path
  fragment : u.fragment = u'.fragment
  params : ∀ p, IsParam u.query p ↔ IsParam u'.query p ∧ nameOf p ≠ sigParam

/-- Whatever was signed, if the URI is accepted then one with its parameters was. -/
def Protected (R : Rendering) (uri : URI) (sigParam : Text) : Prop :=
  ∀ (ρ : Type) (z : SigningKeyczar ρ) (Signed : URI → Prop), Explains R z Signed →
    verify R.toASCIIString z (some uri) sigParam = .ok true → ∃ u, Signed u ∧ SameParams u uri sigParam

/-- A text with the header of a signature is found, and what is left is not a query of separators only. -/
def HasSignature (uri : URI) (sigParam : Text) : Prop :=
  ∃ query text hash sig, uri.query = some query ∧ (readParameters sigParam (query.split 38)).sig = some text ∧
    hash.length = KEY_HASH_SIZE ∧ Base64Strings.decodeWebSafe text = .ok ([0] ++ hash ++ sig) ∧
    ¬ OnlySeparators (unsignedQuery sigParam (query.split 38))

/-- Every parameter that begins with the name of the signature parameter has that name. -/
def NamedExactly (uri : URI) (sigParam : Text) : Prop := ∀ p, IsParam uri.query p → sigParam <+: p → nameOf p = sigParam

/-! ## What an accepted URI says -/

/-- The URI without what is taken for the signature. -/
def unsignedUri (uri : URI) (query sigParam : Text) : URI := { uri with query := unsignedQuery sigParam (query.split 38) }

theorem prefix_of_nameOf {p : Text} (h : nameOf p = sigParam) : sigParam <+: p := h ▸ List.takeWhile_prefix _

theorem separated_of_split (query : Text) : ∀ p ∈ query.split 38, 38 ∉ p := fun _ hp =>
  Segments.not_mem_of_mem_splitOn (Segments.mem_splitOn_of_mem_split hp)

/-- The parameters of the query without the signature. -/
theorem isParam_unsignedQuery {query p : Text} :
    IsParam (unsignedQuery sigParam (query.split 38)) p ↔ IsParam (some query) p ∧ ¬ sigParam <+: p := by
  by_cases hp : p = []
  · exact iff_of_false (fun h => h.1 hp) fun h => h.1.1 hp
  have hsplit : IsParam (some query) p ↔ p ∈ query.split 38 := (and_iff_right hp).trans (Segments.mem_split_iff hp).symm
  rw [hsplit, ← mem_others, IsParam, and_iff_right hp, unsignedQuery]
  by_cases h : others sigParam (query.split 38) = []
  · rw [if_pos h, h, Option.getD_none, List.splitOn_nil, List.mem_singleton]
    exact iff_of_false hp List.not_mem_nil
  · rw [if_neg h, Option.getD_some, Segments.splitOn_join (fun q hq => separated_of_split query q (mem_others.mp hq).1) h]

/-- What an accepted URI is: some key verifies, under a hash that stands in the text of its signature, what is left of it. -/
theorem verify_eq_ok {z : SigningKeyczar ρ} (h : verify R.toASCIIString z (some uri) sigParam = .ok true) :
    HasSignature uri sigParam ∧ ∃ query hash sig, uri.query = some query ∧
      sortedParams (unsignedQuery sigParam (query.split 38)) ≠ [] ∧
      ∃ key ∈ z.getKey hash, key.verify ((R.toASCIIString (withSorted (unsignedUri uri query sigParam))).getBytes ++ [0]) sig = .ok true := by
  cases hquery : uri.query with
  | none =>
    unfold verify at h
    dsimp only at h
    rw [hquery] at h
    cases h
  | some query =>
    rw [verify_eq R.toASCIIString z hquery] at h
    cases htext : (readParameters sigParam (query.split 38)).sig with
    | none =>
      rw [htext] at h
      cases h
    | some text =>
      rw [htext] at h
      dsimp only at h
      by_cases hparams : sortedParams (unsignedQuery sigParam (query.split 38)) = []
      · rw [if_pos hparams] at h
        cases h
      rw [if_neg hparams] at h
      obtain ⟨bytes, hdecode, hverify⟩ := ok_of_bind h
      obtain ⟨hash, sig, hhash, rfl, hkey⟩ := Verifier.verify_eq_ok (mapError_eq_ok_iff.mp hverify)
      exact ⟨⟨query, text, hash, sig, hquery, htext, hhash, mapError_eq_ok_iff.mp hdecode, mt sortedParams_eq_nil_iff.mpr hparams⟩,
        query, hash, sig, rfl, hparams, hkey⟩

/-- A signed URI with the message of what is left has its components and parameters. -/
theorem sameParams_of_message {u : URI} {query : Text} (hquery : uri.query = some query) (hnamed : NamedExactly uri sigParam)
    (hparams : sortedParams (unsignedQuery sigParam (query.split 38)) ≠ [])
    (h : IsMessage R u ((R.toASCIIString (withSorted (unsignedUri uri query sigParam))).getBytes ++ [0])) : SameParams u uri sigParam := by
  obtain ⟨hu, hmessage⟩ := h
  have hsame := R.injective ((Text.getBytes_inj (R.ascii _) (R.ascii _)).mp (List.append_cancel_right hmessage))
  rw [withSorted, withSorted, URI.mk.injEq] at hsame
  obtain ⟨hscheme, hauthority, hpath, hjoin, hfragment⟩ := hsame
  have hsorted := ((canonical_sortedParams hparams).join_inj (canonical_sortedParams hu)).mp (Option.some.inj hjoin)
  refine ⟨hscheme.symm, hauthority.symm, hpath.symm, hfragment.symm, fun p => ?_⟩
  by_cases hp : p = []
  · exact iff_of_false (fun h => h.1 hp) fun h => h.1.1 hp
  rw [← mem_sortedParams hp, ← hsorted, mem_sortedParams hp]
  refine isParam_unsignedQuery.trans ?_
  rw [← hquery]
  refine and_congr_right fun hparam => not_congr ⟨hnamed p hparam, prefix_of_nameOf⟩

/-- A key under a hash that accepts any signature of one message. -/
def acceptingKey (hash message : Bytes) (h : hash.length = KEY_HASH_SIZE) : SigningKey Unit where
  hash := hash
  digestSize := 0
  sign _ _ := .ok []
  verify m _ := .ok (decide (m = message))
  length_hash := h

/-- A key set of this key. -/
def acceptingSet (hash message : Bytes) (h : hash.length = KEY_HASH_SIZE) : SigningKeyczar Unit where
  hashMap hash' := if hash' = hash then [acceptingKey hash message h] else []

theorem acceptingSet_explains {hash message : Bytes} (h : hash.length = KEY_HASH_SIZE) (hmessage : IsMessage R uri message) :
    Explains R (acceptingSet hash message h) fun u => u = uri := by
  intro hash' key hkey m sig hverify
  refine ⟨uri, rfl, ?_⟩
  unfold SigningKeyczar.getKey acceptingSet at hkey
  dsimp only at hkey
  split at hkey
  · obtain rfl := List.mem_singleton.mp hkey
    obtain rfl : m = message := of_decide_eq_true (Except.ok.inj hverify)
    exact hmessage
  · cases hkey

theorem acceptingSet_accepts {hash : Bytes} (h : hash.length = KEY_HASH_SIZE) (data sig : Bytes) :
    Verifier.verify (acceptingSet hash (data ++ [0]) h) data ([0] ++ hash ++ sig) = .ok true := by
  have hkey : acceptingKey hash (data ++ [0]) h ∈ (acceptingSet hash (data ++ [0]) h).getKey hash := by
    unfold SigningKeyczar.getKey acceptingSet
    dsimp only
    rw [if_pos rfl]
    exact List.mem_cons_self
  obtain ⟨answer, hanswer, hiff⟩ := Verifier.verifyBuffer_layout (ByteBuffer.wrap data) none h (ByteBuffer.rest_wrap ([0] ++ hash ++ sig)) hkey
  have htrue : answer = true := by
    refine hiff.mpr ⟨_, hkey, ?_⟩
    rw [ByteBuffer.rest_wrap, Option.map_none, Option.getD_none, List.append_nil]
    exact congrArg Except.ok (decide_eq_true rfl)
  rw [Verifier.verify, hanswer, htrue]

/-- A URI with a signature is accepted by a key of what is left of it. -/
theorem exists_accepting (R : Rendering) (h : HasSignature uri sigParam) :
    ∃ query, uri.query = some query ∧ ∃ z : SigningKeyczar Unit, Explains R z (fun u => u = unsignedUri uri query sigParam) ∧
      verify R.toASCIIString z (some uri) sigParam = .ok true := by
  obtain ⟨query, text, hash, sig, hquery, htext, hhash, hdecode, honly⟩ := h
  have hparams := mt sortedParams_eq_nil_iff.mp honly
  have hmessage : IsMessage R (unsignedUri uri query sigParam) _ := ⟨hparams, rfl⟩
  refine ⟨query, hquery, acceptingSet hash _ hhash, acceptingSet_explains hhash hmessage, ?_⟩
  rw [verify_eq R.toASCIIString _ hquery, htext]
  dsimp only
  rw [if_neg hparams, Verifier.verifyText, hdecode, mapError_ok, ok_bind]
  exact congrArg (Except.mapError StringFailure.signer) (acceptingSet_accepts hhash _ sig)

/-- With ideal signatures, that a URI is accepted says that one with its components and its parameters, but for those with the name of
the signature parameter, was signed: exactly if no other parameter begins with that name, or there is no signature to be accepted. -/
theorem protected_iff (R : Rendering) (uri : URI) (sigParam : Text) :
    Protected R uri sigParam ↔ (HasSignature uri sigParam → NamedExactly uri sigParam) := by
  constructor
  · intro hprotected hsignature p hparam hprefix
    by_contra hname
    obtain ⟨query, hquery, z, hexplains, hverify⟩ := exists_accepting R hsignature
    obtain ⟨u, rfl, hsame⟩ := hprotected Unit z _ hexplains hverify
    have hleft : IsParam (unsignedQuery sigParam (query.split 38)) p := (hsame.params p).mpr ⟨hparam, hname⟩
    exact (isParam_unsignedQuery.mp hleft).2 hprefix
  · intro hnamed ρ z Signed hexplains hverify
    obtain ⟨hsignature, query, hash, sig, hquery, hparams, key, hkey, haccepted⟩ := verify_eq_ok hverify
    obtain ⟨u, hu, hmessage⟩ := hexplains hash key hkey _ sig haccepted
    exact ⟨u, hu, sameParams_of_message hquery (hnamed hsignature) hparams hmessage⟩

/-- `?a=1&sigma=2&sig=...`, with a signature of `?a=1`. -/
def forgedPage : URI :=
  { page with query := some ([97, 61, 49, 38, 115, 105, 103, 109, 97, 61, 50, 38, 115, 105, 103, 61] ++
    Base64Strings.text ([0, 1, 2, 3, 4] ++ List.replicate 20 7)) }

/-- A parameter `sigma` is added to a signed URI, and it is accepted: no signed URI has this parameter. -/
theorem added_parameter_is_accepted :
    (sign rendering.toASCIIString (oneUriSet { page with query := some [97, 61, 49] }) () (some { page with query := some [97, 61, 49] })
      DEFAULT_SIG_PARAM = .ok { page with query := some ([97, 61, 49, 38, 115, 105, 103, 61] ++
        Base64Strings.text ([0, 1, 2, 3, 4] ++ List.replicate 20 7)) }) ∧
    Explains rendering (oneUriSet { page with query := some [97, 61, 49] }) (fun u => u = { page with query := some [97, 61, 49] }) ∧
    verify rendering.toASCIIString (oneUriSet { page with query := some [97, 61, 49] }) (some forgedPage) DEFAULT_SIG_PARAM = .ok true ∧
    (¬ ∃ u : URI, u = { page with query := some [97, 61, 49] } ∧ SameParams u forgedPage DEFAULT_SIG_PARAM) ∧
    ¬ Protected rendering forgedPage DEFAULT_SIG_PARAM := by
  have hexplains : Explains rendering (oneUriSet { page with query := some [97, 61, 49] })
      (fun u => u = { page with query := some [97, 61, 49] }) := by
    intro hash key hkey m sig hverify
    refine ⟨_, rfl, by decide, ?_⟩
    unfold SigningKeyczar.getKey oneUriSet oneMessageSet at hkey
    dsimp only at hkey
    split at hkey
    · obtain rfl := List.mem_singleton.mp hkey
      exact (of_decide_eq_true (Except.ok.inj hverify)).1
    · cases hkey
  have haccepted : verify rendering.toASCIIString (oneUriSet { page with query := some [97, 61, 49] }) (some forgedPage)
      DEFAULT_SIG_PARAM = .ok true := by decide
  have hnone : ¬ ∃ u : URI, u = { page with query := some [97, 61, 49] } ∧ SameParams u forgedPage DEFAULT_SIG_PARAM := by
    rintro ⟨u, rfl, hsame⟩
    have hforged : IsParam forgedPage.query [115, 105, 103, 109, 97, 61, 50] := ⟨by decide, by decide⟩
    have hsigned := (hsame.params [115, 105, 103, 109, 97, 61, 50]).mpr ⟨hforged, by decide⟩
    exact absurd hsigned.2 (by decide)
  exact ⟨by decide, hexplains, haccepted, hnone, fun h => hnone (h Unit _ _ hexplains haccepted)⟩

end UriSigner

end Java
