import Keyczar.Java.Base64Encoding
import Keyczar.Java.TimeoutSignatures
import Keyczar.Java.UriSigner

/-!
# Which signed URIs are accepted

A query in canonical form is its parameters in order, joined. What is signed is read back whole, with the parameter of the signature
behind it; what is then left out of it is every parameter that begins like that one.
-/

namespace Java

open Bytes Throwing

/-! ## Strings -/

namespace Text

theorem toNat_lt_of_ascii {c : UInt16} (h : c < 128) : c.toNat < 128 := UInt16.lt_iff_toNat_lt.mp h

theorem utf8_of_ascii {c : UInt16} (h : c < 128) : utf8 c.toNat = [c.toUInt8] := by
  rw [utf8, if_pos (toNat_lt_of_ascii h)]
  exact congrArg (fun b : UInt8 => [b]) (UInt8.toNat_inj.mp (by simp))

theorem not_surrogate_of_ascii {c : UInt16} (h : c < 128) : isHighSurrogate c = false ∧ isLowSurrogate c = false := by
  have hlt := toNat_lt_of_ascii h
  simp only [isHighSurrogate, isLowSurrogate, Bool.and_eq_false_imp, decide_eq_true_eq, UInt16.le_iff_toNat_le]
  constructor
  · intro hle
    exact absurd (Nat.le_trans hle (Nat.le_of_lt hlt)) (by decide)
  · intro hle
    exact absurd (Nat.le_trans hle (Nat.le_of_lt hlt)) (by decide)

/-- An ASCII character is one byte. -/
theorem getBytes_of_ascii {s : Text} (h : ∀ c ∈ s, c < 128) : s.getBytes = s.map UInt16.toUInt8 := by
  induction s using getBytes.induct with
  | case1 => rfl
  | case2 c hc =>
    obtain ⟨hhigh, hlow⟩ := not_surrogate_of_ascii (h c List.mem_cons_self)
    rw [hhigh, hlow] at hc
    cases hc
  | case3 c hc =>
    rw [getBytes, if_neg hc, utf8_of_ascii (h c List.mem_cons_self)]
    rfl
  | case4 c d s hc ih =>
    rw [(not_surrogate_of_ascii (h c List.mem_cons_self)).1] at hc
    cases hc
  | case5 c d s hpair hc ih =>
    obtain ⟨hhigh, hlow⟩ := not_surrogate_of_ascii (h c List.mem_cons_self)
    rw [hhigh, hlow] at hc
    cases hc
  | case6 c d s hpair hc ih =>
    rw [getBytes, if_neg hpair, if_neg hc, utf8_of_ascii (h c List.mem_cons_self), ih fun x hx => h x (List.mem_cons_of_mem c hx)]
    rfl

/-- Strings of ASCII characters have different bytes. -/
theorem getBytes_inj {s t : Text} (hs : ∀ c ∈ s, c < 128) (ht : ∀ c ∈ t, c < 128) : s.getBytes = t.getBytes ↔ s = t := by
  rw [getBytes_of_ascii hs, getBytes_of_ascii ht]
  constructor
  · intro h
    have hback : ∀ {u : Text}, (∀ c ∈ u, c < 128) → (u.map UInt16.toUInt8).map UInt8.toUInt16 = u := by
      intro u hu
      rw [List.map_map]
      refine (List.map_congr_left fun c hc => ?_).trans (List.map_id u)
      have hlt := toNat_lt_of_ascii (hu c hc)
      refine UInt16.toNat_inj.mp ?_
      simp only [Function.comp_apply, UInt8.toNat_toUInt16, UInt16.toNat_toUInt8, id_eq]
      omega
    rw [← hback hs, h, hback ht]
  · rintro rfl
    rfl

theorem startsWith_iff {s start : Text} : s.startsWith start = true ↔ start <+: s := List.isPrefixOf_iff_prefix

end Text

variable {ρ : Type}

namespace UriSigner

/-! ## Canonical queries -/

/-- A parameter of a query: a segment that is not empty. -/
def IsParam (query : Option Text) (p : Text) : Prop := p ≠ [] ∧ p ∈ (query.getD []).splitOn 38

/-- A query of separators only. -/
def OnlySeparators (query : Option Text) : Prop := ∃ q, query = some q ∧ q ≠ [] ∧ ∀ c ∈ q, c = 38

/-- Segments in the form of a canonical query: in order, and without separators. -/
structure Canonical (l : List Text) : Prop where
  sorted : l.Pairwise (· < ·)
  separated : ∀ p ∈ l, 38 ∉ p
  ne_nil : l ≠ []

/-- Only the empty segment alone is an empty segment at the end. -/
theorem getLast_of_sorted {l : List Text} (h : l.Pairwise (· < ·)) (hne : l ≠ []) : l.getLast hne ≠ [] ∨ l = [[]] := by
  obtain ⟨m, p, rfl⟩ := List.eq_nil_or_concat' l |>.resolve_left hne
  by_cases hp : p = []
  · right
    subst hp
    cases m with
    | nil => rfl
    | cons q m =>
      have hlt : q < [] := (List.pairwise_append.mp h).2.2 q List.mem_cons_self [] (List.mem_singleton_self _)
      exact absurd hlt (List.not_lt_nil q)
  · left
    simpa using hp

theorem Canonical.split_join {l : List Text} (h : Canonical l) : Text.split (Segments.join 38 l) 38 = l :=
  Segments.split_join h.separated h.ne_nil (getLast_of_sorted h.sorted h.ne_nil)

theorem canonical_sortedParams {query : Option Text} (h : sortedParams query ≠ []) : Canonical (sortedParams query) := by
  cases query with
  | none => exact ⟨List.pairwise_singleton _ _, by simp [sortedParams], h⟩
  | some q =>
    refine ⟨(SortedSet.ofList (q.split 38)).sorted, fun p hp => ?_, h⟩
    exact Segments.not_mem_of_mem_splitOn (Segments.mem_splitOn_of_mem_split (SortedSet.mem_ofList.mp hp))

/-- The parameters of a query that was in canonical form are found again. -/
theorem Canonical.sortedParams_join {l : List Text} (h : Canonical l) : sortedParams (some (Segments.join 38 l)) = l := by
  show (SortedSet.ofList (Text.split (Segments.join 38 l) 38)).elements = l
  rw [h.split_join]
  exact congrArg SortedSet.elements (SortedSet.elements_ofList ⟨l, h.sorted⟩)

theorem Canonical.join_inj {l m : List Text} (hl : Canonical l) (hm : Canonical m) :
    Segments.join 38 l = Segments.join 38 m ↔ l = m := by
  constructor
  · intro h
    rw [← hl.split_join, h, hm.split_join]
  · rintro rfl
    rfl

theorem sortedParams_eq_nil_iff {query : Option Text} : sortedParams query = [] ↔ OnlySeparators query := by
  cases query with
  | none => exact iff_of_false (List.cons_ne_nil _ _) fun ⟨_, h, _⟩ => nomatch h
  | some q =>
    have hempty : sortedParams (some q) = [] ↔ q.split 38 = [] := by
      rw [List.eq_nil_iff_forall_not_mem, List.eq_nil_iff_forall_not_mem]
      exact forall_congr' fun p => not_congr SortedSet.mem_ofList
    rw [hempty, Text.split, Segments.split_eq_nil_iff]
    constructor
    · exact fun h => ⟨q, rfl, h⟩
    · rintro ⟨q', hq, h⟩
      obtain rfl := Option.some.inj hq
      exact h

theorem mem_sortedParams {query : Option Text} {p : Text} (hp : p ≠ []) : p ∈ sortedParams query ↔ IsParam query p := by
  rw [IsParam, and_iff_right hp]
  cases query with
  | none => exact iff_of_eq (congrArg (p ∈ ·) (List.splitOn_nil (38 : UInt16)).symm)
  | some q => exact SortedSet.mem_ofList.trans (Segments.mem_split_iff hp)

/-- What the canonical form of a query is; there is none of separators only. -/
theorem canonicalQuery_eq (query : Option Text) :
    canonicalQuery query = if sortedParams query = [] then .error .indexOutOfBounds else .ok (Segments.join 38 (sortedParams query)) := by
  cases query with
  | none => rfl
  | some q =>
    show Text.deleteLast _ = if (SortedSet.ofList (q.split 38)).elements = [] then _ else _
    by_cases h : (SortedSet.ofList (q.split 38)).elements = []
    · rw [if_pos h, h]
      rfl
    · have hne : (SortedSet.ofList (q.split 38)).elements.flatMap (· ++ [38]) ≠ [] := by
        obtain ⟨p, l, hl⟩ := List.exists_cons_of_ne_nil h
        rw [hl]
        simp
      rw [if_neg h, Text.deleteLast, if_neg hne, Segments.dropLast_flatMap h]
      rfl

/-- A URI with its query in canonical form. -/
def withSorted (uri : URI) : URI := { uri with query := some (Segments.join 38 (sortedParams uri.query)) }

theorem canonicalUri_eq (uri : URI) :
    canonicalUri (some uri) = if sortedParams uri.query = [] then .error .indexOutOfBounds else .ok (some (withSorted uri)) := by
  rw [canonicalUri, canonicalQuery_eq]
  by_cases h : sortedParams uri.query = []
  · rw [if_pos h, if_pos h]
    rfl
  · rw [if_neg h, if_neg h]
    rfl

/-! ## The loop over the parameters -/

variable {sigParam : Text}

/-- The parameters that are not taken for the signature. -/
def others (sigParam : Text) (params : List Text) : List Text := params.filter fun p => !p.startsWith sigParam

theorem mem_others {params : List Text} {p : Text} : p ∈ others sigParam params ↔ p ∈ params ∧ ¬ sigParam <+: p := by
  rw [others, List.mem_filter, Bool.not_eq_true', ← Bool.not_eq_true, Text.startsWith_iff]

theorem foldl_read (params : List Text) (s : Parameters) :
    (params.foldl (Parameters.read sigParam) s).unsignedQuery = s.unsignedQuery ++ (others sigParam params).flatMap (· ++ [38]) := by
  induction params generalizing s with
  | nil => exact (List.append_nil _).symm
  | cons p params ih =>
    rw [List.foldl_cons, ih, others, others, List.filter_cons, Parameters.read]
    cases hp : p.startsWith sigParam with
    | true =>
      rw [if_pos rfl, if_neg (by simp)]
      split <;> rfl
    | false =>
      rw [if_neg Bool.false_ne_true, if_pos (by simp), List.flatMap_cons, List.append_assoc, List.append_assoc, List.append_assoc]

/-- What is put back together are the other parameters. -/
theorem unsignedQuery_readParameters (params : List Text) :
    (readParameters sigParam params).unsignedQuery = (others sigParam params).flatMap (· ++ [38]) := by
  rw [readParameters, foldl_read]
  rfl

/-- The query without the signature. -/
def unsignedQuery (sigParam : Text) (params : List Text) : Option Text :=
  if others sigParam params = [] then none else some (Segments.join 38 (others sigParam params))

theorem unsigned_readParameters (params : List Text) :
    (readParameters sigParam params).unsigned = .ok (unsignedQuery sigParam params) := by
  rw [Parameters.unsigned, unsignedQuery_readParameters, unsignedQuery]
  by_cases h : others sigParam params = []
  · rw [if_pos h, h]
    rfl
  · have hne : (others sigParam params).flatMap (· ++ [38]) ≠ [] := by
      obtain ⟨p, l, hl⟩ := List.exists_cons_of_ne_nil h
      rw [hl]
      simp
    rw [if_neg h, if_pos (List.length_pos_iff.mpr hne), Text.deleteLast, if_neg hne, Segments.dropLast_flatMap h]
    rfl

/-- How a URI with a query is verified. -/
theorem verify_eq (toASCIIString : URI → Text) (z : SigningKeyczar ρ) {uri : URI} {query : Text} (h : uri.query = some query)
    (sigParam : Text) :
    verify toASCIIString z (some uri) sigParam = match (readParameters sigParam (query.split 38)).sig with
      | none => .ok false
      | some sig =>
        if sortedParams (unsignedQuery sigParam (query.split 38)) = [] then .error (.signer (.runtime .indexOutOfBounds))
        else Verifier.verifyText z (toASCIIString (withSorted { uri with query := unsignedQuery sigParam (query.split 38) })) sig := by
  unfold verify
  dsimp only
  rw [h]
  dsimp only
  cases (readParameters sigParam (query.split 38)).sig with
  | none => rfl
  | some sig =>
    dsimp only
    rw [unsigned_readParameters, mapError_ok, ok_bind, canonicalUri_eq]
    by_cases hempty : sortedParams (unsignedQuery sigParam (query.split 38)) = []
    · rw [if_pos hempty, if_pos hempty]
      rfl
    · rw [if_neg hempty, if_neg hempty]
      rfl

/-! ## The parameter of the signature -/

/-- No parameter of a query begins with a name that has a separator in it. -/
theorem not_prefix_of_separator (hsep : 38 ∈ sigParam) {p : Text} (hp : 38 ∉ p) : ¬ sigParam <+: p := fun h => hp (h.subset hsep)

theorem sig_foldl_read {params : List Text} (h : ∀ p ∈ params, ¬ sigParam <+: p) (s : Parameters) :
    (params.foldl (Parameters.read sigParam) s).sig = s.sig := by
  induction params generalizing s with
  | nil => rfl
  | cons p params ih =>
    have hp : ¬ p.startsWith sigParam = true := mt Text.startsWith_iff.mp (h p List.mem_cons_self)
    rw [List.foldl_cons, ih fun q hq => h q (List.mem_cons_of_mem p hq), Parameters.read, if_neg hp]

/-- Behind a name with a separator in it no signature is found. -/
theorem sig_of_separator (hsep : 38 ∈ sigParam) (query : Text) : (readParameters sigParam (query.split 38)).sig = none := by
  refine sig_foldl_read (fun p hp => not_prefix_of_separator hsep ?_) _
  exact Segments.not_mem_of_mem_splitOn (Segments.mem_splitOn_of_mem_split hp)

/-- The parameter that a signature is put into, by the parts between its equals signs. -/
theorem split_signature (sigParam : Text) {sig : Text} (hsig : 61 ∉ sig) (hne : sig ≠ []) :
    Text.split (sigParam ++ [61] ++ sig) 61 = sigParam.splitOn 61 ++ [sig] := by
  have hsplit : (sigParam ++ [61] ++ sig).splitOn 61 = sigParam.splitOn 61 ++ [sig] := by
    rw [List.append_assoc, List.singleton_append, List.splitOn_append_cons_self, List.splitOn_eq_singleton hsig]
  have hmem : (61 : UInt16) ∈ sigParam ++ [61] ++ sig := by simp
  rw [Text.split, Segments.split, if_pos hmem, hsplit]
  exact List.rdropWhile_concat_neg List.isEmpty _ sig (by simpa using hne)

/-- The signature is found in its parameter, unless the name of the parameter has an equals sign in it. -/
theorem sig_read (s : Parameters) {sig : Text} (hsig : 61 ∉ sig) (hne : sig ≠ []) :
    (Parameters.read sigParam s (sigParam ++ [61] ++ sig)).sig = if 61 ∈ sigParam then s.sig else some sig := by
  have hstarts : Text.startsWith (sigParam ++ [61] ++ sig) sigParam = true := by
    rw [Text.startsWith_iff, List.append_assoc]
    exact List.prefix_append _ _
  rw [Parameters.read, if_pos hstarts, split_signature sigParam hsig hne]
  by_cases h : 61 ∈ sigParam
  · obtain ⟨first, rest, rfl⟩ := List.append_of_mem h
    obtain ⟨p, l, hl⟩ := List.exists_cons_of_ne_nil (List.splitOn_ne_nil (61 : UInt16) first)
    obtain ⟨q, m, hm⟩ := List.exists_cons_of_ne_nil (List.splitOn_ne_nil (61 : UInt16) rest)
    rw [if_pos h, List.splitOn_append_cons_self, hl, hm]
    cases l with
    | nil => cases m <;> rfl
    | cons r l => cases l <;> rfl
  · rw [if_neg h, List.splitOn_eq_singleton h]
    rfl

/-- The parameters of a signed query: those of the canonical query, and one more. -/
theorem Canonical.split_signed {l : List Text} (h : Canonical l) (hsep : 38 ∉ sigParam) {sig : Text} (hsig : 38 ∉ sig) :
    Text.split (Segments.join 38 l ++ [38] ++ (sigParam ++ [61] ++ sig)) 38 = l ++ [sigParam ++ [61] ++ sig] := by
  have hjoin : Segments.join 38 l ++ [38] ++ (sigParam ++ [61] ++ sig) = Segments.join 38 (l ++ [sigParam ++ [61] ++ sig]) := by
    rw [Segments.join_concat h.ne_nil, List.append_assoc, List.singleton_append]
  rw [hjoin]
  refine Segments.split_join ?_ (by simp) (Or.inl (by simp))
  intro p hp
  rcases List.mem_append.mp hp with hp | hp
  · exact h.separated p hp
  · rw [List.mem_singleton.mp hp]
    simp [hsep, hsig]

theorem others_concat (l : List Text) (sig : Text) : others sigParam (l ++ [sigParam ++ [61] ++ sig]) = others sigParam l := by
  have hstarts : Text.startsWith (sigParam ++ [61] ++ sig) sigParam = true := by
    rw [Text.startsWith_iff, List.append_assoc]
    exact List.prefix_append _ _
  rw [others, List.filter_append, List.filter_singleton, hstarts]
  exact List.append_nil _

/-! ## What is left out -/

theorem Canonical.others {l : List Text} (h : Canonical l) (hne : others sigParam l ≠ []) : Canonical (others sigParam l) where
  sorted := h.sorted.sublist List.filter_sublist
  separated := fun p hp => h.separated p (mem_others.mp hp).1
  ne_nil := hne

/-- Without the signature, the query is in canonical form again. -/
theorem Canonical.join_unsigned {l : List Text} (h : Canonical l) :
    sortedParams (unsignedQuery sigParam l) ≠ [] ∧
      Segments.join 38 (sortedParams (unsignedQuery sigParam l)) = Segments.join 38 (UriSigner.others sigParam l) := by
  rw [unsignedQuery]
  by_cases hne : UriSigner.others sigParam l = []
  · rw [if_pos hne, hne]
    exact ⟨List.cons_ne_nil _ _, rfl⟩
  · rw [if_neg hne, (h.others hne).sortedParams_join]
    exact ⟨hne, rfl⟩

/-- Only an empty parameter may be left out unnoticed. -/
theorem Canonical.join_others_iff {l : List Text} (h : Canonical l) :
    Segments.join 38 (UriSigner.others sigParam l) = Segments.join 38 l ↔ ∀ p ∈ l, p ≠ [] → ¬ sigParam <+: p := by
  constructor
  · intro heq p hp hne hprefix
    by_cases hempty : UriSigner.others sigParam l = []
    · have hone : Canonical [[]] := ⟨List.pairwise_singleton _ _, by simp, List.cons_ne_nil _ _⟩
      rw [hempty] at heq
      obtain rfl := (hone.join_inj h).mp heq
      exact hne (List.mem_singleton.mp hp)
    · have hsame := ((h.others hempty).join_inj h).mp heq
      rw [← hsame] at hp
      exact (mem_others.mp hp).2 hprefix
  · intro hall
    by_cases hname : sigParam = []
    · have hlast : l = [[]] := by
        refine (getLast_of_sorted h.sorted h.ne_nil).resolve_left fun hlast => ?_
        exact hall _ (List.getLast_mem h.ne_nil) hlast (hname ▸ List.nil_prefix)
      subst hlast hname
      rfl
    · have hself : UriSigner.others sigParam l = l := by
        refine List.filter_eq_self.mpr fun p hp => ?_
        rw [Bool.not_eq_true', ← Bool.not_eq_true, Text.startsWith_iff]
        by_cases hp' : p = []
        · rw [hp', List.prefix_nil]
          exact hname
        · exact hall p hp hp'
      rw [hself]

end UriSigner

/-! ## Signatures as strings -/

namespace Base64Strings

/-- A text of bytes is decoded to them. -/
theorem decodeWebSafe_text {b : Bytes} (hne : b ≠ []) : decodeWebSafe (text b) = .ok b := by
  have hdata : data (text b) = text b := by
    refine List.filter_eq_self.mpr fun c hc => ?_
    obtain ⟨i, hi, rfl⟩ := mem_text hc
    have hall : ∀ i < 64, (!isBlank (ofByte (Base64.webSafe.toChar i))) = true := by decide
    exact hall i hi
  refine (decodeWebSafe_spaced (Or.inl hdata)).mpr ⟨fun h => ?_, fun ⟨c, hc, _⟩ => ?_⟩
  · have hlength := congrArg List.length h
    have hpos := List.length_pos_iff.mpr hne
    rw [length_text, List.length_nil] at hlength
    omega
  · have hnone : (text b).dropWhile (· ≠ 61) = [] := by
      refine List.dropWhile_eq_nil_iff.mpr fun c hc => ?_
      exact decide_eq_true fun (heq : c = 61) => pad_not_mem_text b (heq ▸ hc)
    rw [hnone] at hc
    cases hc

theorem not_mem_text {c : UInt16} (h : ∀ i < 64, c ≠ ofByte (Base64.webSafe.toChar i)) (b : Bytes) : c ∉ text b := by
  intro hc
  obtain ⟨i, hi, heq⟩ := mem_text hc
  exact h i hi heq

end Base64Strings

variable {z : SigningKeyczar ρ} {k : SigningKey ρ} {random : ρ}

/-- A string is signed as its bytes, and its signature is their text. -/
theorem Signer.signText_ok (hk : z.getPrimaryKey = some k) {input : Text} {sig : Bytes}
    (hsig : k.sign random (input.getBytes ++ [0]) = .ok sig) (hlength : sig.length ≤ k.digestSize) (hsize : 5 + k.digestSize < 3 * 2 ^ 29) :
    signText z random input = .ok (Base64Strings.text ([0] ++ k.hash ++ sig)) := by
  have hdigest : digestSize z = .ok (HEADER_SIZE + k.digestSize) := by rw [digestSize, hk]
  have hsign : Signer.sign z random input.getBytes = .ok ([0] ++ k.hash ++ sig) := by
    rw [Signer.sign, hdigest, ok_bind]
    rcases sign_cases hk random input.getBytes 0 (Nat.le_refl (HEADER_SIZE + k.digestSize)) with ⟨_, _, hlong⟩ | ⟨sig', hsig', hrun⟩
    · exact absurd hlength (Nat.not_le.mpr (hlong sig hsig))
    · obtain rfl : sig = sig' := Except.ok.inj (hsig.symm.trans hsig')
      rw [hrun, expiration_of_nonpos (Int64.le_refl 0), List.append_nil]
  have htext : ([0] ++ k.hash ++ sig).length < 3 * 2 ^ 29 := by
    have hhash : k.hash.length = 4 := k.length_hash
    simp only [List.length_append, hhash, List.length_singleton]
    omega
  rw [signText, hsign, mapError_ok, ok_bind, Base64Strings.encodeWebSafe_of_lt htext]
  rfl

/-- The text of a signature is verified of the string that was signed, and of no other. -/
theorem Ideal.verifyText {hash : Bytes} {Signed : Bytes → Bytes → Prop} (h : Ideal z hash Signed) (hhash : hash.length = KEY_HASH_SIZE)
    {m sig : Bytes} (hsigned : Signed m sig) (data : Text) :
    ∃ answer, Verifier.verifyText z data (Base64Strings.text ([0] ++ hash ++ sig)) = .ok answer ∧
      (answer = true ↔ data.getBytes ++ [0] = m) := by
  obtain ⟨answer, hanswer, hiff⟩ := h.verifyBuffer hhash hsigned (ByteBuffer.wrap data.getBytes)
    (ByteBuffer.rest_wrap ([0] ++ hash ++ sig))
  refine ⟨answer, ?_, ?_⟩
  · rw [Verifier.verifyText, Base64Strings.decodeWebSafe_text (by simp), mapError_ok, ok_bind, Verifier.verify, hanswer]
    rfl
  · rw [hiff, ByteBuffer.rest_wrap]
    constructor
    · exact fun hsame => h.unique _ _ _ hsame hsigned
    · rintro rfl
      exact hsigned

namespace UriSigner

/-! ## A rendering -/

/-- Any characters in ASCII characters, with the end marked. -/
def marked (s : Text) : Text := (s.flatMap fun c => [1, c % 128, c / 128 % 128, c / 16384]) ++ [0]

theorem marked_cons (c : UInt16) (s : Text) : marked (c :: s) = 1 :: c % 128 :: c / 128 % 128 :: c / 16384 :: marked s := rfl

theorem marked_inj {s t r r' : Text} (h : marked s ++ r = marked t ++ r') : s = t ∧ r = r' := by
  induction s generalizing t with
  | nil =>
    cases t with
    | nil => exact ⟨rfl, List.append_cancel_left h⟩
    | cons d t =>
      rw [marked_cons] at h
      cases h
  | cons c s ih =>
    cases t with
    | nil =>
      rw [marked_cons] at h
      cases h
    | cons d t =>
      simp only [marked_cons, List.cons_append, List.cons.injEq, true_and] at h
      obtain ⟨hlow, hmiddle, hhigh, hrest⟩ := h
      have hsame : c = d := by
        have hlow := UInt16.toNat_inj.mpr hlow
        have hmiddle := UInt16.toNat_inj.mpr hmiddle
        have hhigh := UInt16.toNat_inj.mpr hhigh
        simp only [UInt16.toNat_mod, UInt16.toNat_div, UInt16.reduceToNat] at hlow hmiddle hhigh
        refine UInt16.toNat_inj.mp ?_
        omega
      obtain ⟨rfl, rfl⟩ := ih hrest
      exact ⟨by rw [hsame], rfl⟩

def component : Option Text → Text
  | none => [0]
  | some s => 1 :: marked s

theorem component_inj {s t : Option Text} {r r' : Text} (h : component s ++ r = component t ++ r') : s = t ∧ r = r' := by
  cases s with
  | none =>
    cases t with
    | none => exact ⟨rfl, List.append_cancel_left h⟩
    | some t => cases h
  | some s =>
    cases t with
    | none => cases h
    | some t =>
      obtain ⟨rfl, rfl⟩ := marked_inj (List.cons.inj h).2
      exact ⟨rfl, rfl⟩

theorem marked_lt {s : Text} {c : UInt16} (h : c ∈ marked s) : c < 128 := by
  induction s with
  | nil =>
    obtain rfl := List.mem_singleton.mp h
    decide
  | cons d s ih =>
    have hd := d.toNat_lt
    simp only [marked_cons, List.mem_cons] at h
    rcases h with rfl | rfl | rfl | rfl | h
    · decide
    · exact UInt16.lt_iff_toNat_lt.mpr (by simp only [UInt16.toNat_mod, UInt16.reduceToNat]; omega)
    · exact UInt16.lt_iff_toNat_lt.mpr (by simp only [UInt16.toNat_mod, UInt16.reduceToNat]; omega)
    · exact UInt16.lt_iff_toNat_lt.mpr (by simp only [UInt16.toNat_div, UInt16.reduceToNat]; omega)
    · exact ih h

theorem component_lt {s : Option Text} {c : UInt16} (h : c ∈ component s) : c < 128 := by
  cases s with
  | none =>
    obtain rfl := List.mem_singleton.mp h
    decide
  | some s =>
    rcases List.mem_cons.mp h with rfl | h
    · decide
    · exact marked_lt h

/-- `http://foo.com/q`. -/
def page : URI where
  scheme := some [104, 116, 116, 112]
  authority := some [102, 111, 111, 46, 99, 111, 109]
  path := some [47, 113]

/-- A letter, a digit, an equals sign or a separator. -/
def isQueryChar (c : UInt16) : Bool := c = 38 || c = 61 || 48 ≤ c && c ≤ 57 || 97 ≤ c && c ≤ 122

/-- The page with a query of such characters. -/
def IsPage (uri : URI) : Prop := uri = { page with query := some (uri.query.getD []) } ∧ (uri.query.getD []).all isQueryChar = true

instance (uri : URI) : Decidable (IsPage uri) := inferInstanceAs (Decidable (_ ∧ _))

/-- `http://foo.com/q?`. -/
def pageText : Text := [104, 116, 116, 112, 58, 47, 47, 102, 111, 111, 46, 99, 111, 109, 47, 113, 63]

/-- URIs of the page are written out, and all others are marked. -/
def writeOut (uri : URI) : Text :=
  if IsPage uri then pageText ++ uri.query.getD []
  else 0 :: (component uri.scheme ++ (component uri.authority ++ (component uri.path ++ (component uri.query ++
    (component uri.fragment ++ [])))))

def rendering : Rendering where
  toASCIIString := writeOut
  ascii := by
    intro uri c hc
    unfold writeOut at hc
    split at hc
    · rename_i huri
      rcases List.mem_append.mp hc with hc | hc
      · have hall : ∀ c ∈ pageText, c < 128 := by simp [pageText]
        exact hall c hc
      · have hchar := List.all_eq_true.mp huri.2 c hc
        simp only [isQueryChar, Bool.or_eq_true, Bool.and_eq_true, decide_eq_true_eq, UInt16.le_iff_toNat_le] at hchar
        rw [UInt16.lt_iff_toNat_lt]
        rcases hchar with ((rfl | rfl) | h) | h
        · decide
        · decide
        · exact Nat.lt_of_le_of_lt h.2 (by decide)
        · exact Nat.lt_of_le_of_lt h.2 (by decide)
    · simp only [List.mem_cons, List.mem_append, List.not_mem_nil, or_false] at hc
      rcases hc with rfl | hc | hc | hc | hc | hc
      · decide
      all_goals exact component_lt hc
  injective := by
    intro u v h
    unfold writeOut at h
    split at h
    · rename_i hu
      split at h
      · rename_i hv
        rw [hu.1, hv.1, List.append_cancel_left h]
      · cases h
    · split at h
      · cases h
      · obtain ⟨h₁, h⟩ := component_inj (List.cons.inj h).2
        obtain ⟨h₂, h⟩ := component_inj h
        obtain ⟨h₃, h⟩ := component_inj h
        obtain ⟨h₄, h⟩ := component_inj h
        obtain ⟨h₅, -⟩ := component_inj h
        cases u
        cases v
        simp_all

/-- A key set that signs one URI, in the form in which it is signed. -/
def oneUriSet (uri : URI) : SigningKeyczar Unit := oneMessageSet ((rendering.toASCIIString uri).getBytes ++ [0])

/-! ## What is signed is accepted -/

/-- The call on a URI returns one that is verified. -/
def AcceptsSigned (R : Rendering) (z : SigningKeyczar ρ) (random : ρ) (uri : URI) (sigParam : Text) : Prop :=
  ∃ signed, sign R.toASCIIString z random (some uri) sigParam = .ok signed ∧
    verify R.toASCIIString z (some signed) sigParam = .ok true

/-- The query of a URI carries a signature of the rest of it already, in a parameter that begins with the name. -/
def CarriesSignature (R : Rendering) (z : SigningKeyczar ρ) (uri : URI) (sigParam : Text) : Prop :=
  ∃ sig, (readParameters sigParam (sortedParams uri.query)).sig = some sig ∧
    Verifier.verifyText z (R.toASCIIString { uri with query := some (Segments.join 38 (others sigParam (sortedParams uri.query))) }) sig =
      .ok true

/-- The query is not of separators only, and none of its parameters begins with the name of the signature parameter. That has no
separator in it, and has it an equals sign, then the signature is not looked for behind it but in the query. -/
def KeepsParameters (R : Rendering) (z : SigningKeyczar ρ) (uri : URI) (sigParam : Text) : Prop :=
  ¬ OnlySeparators uri.query ∧ 38 ∉ sigParam ∧
    if 61 ∈ sigParam then CarriesSignature R z uri sigParam else ∀ p, IsParam uri.query p → ¬ sigParam <+: p

/-- How a URI is signed. -/
theorem sign_eq (toASCIIString : URI → Text) (z : SigningKeyczar ρ) (random : ρ) (uri : URI) (sigParam : Text) :
    sign toASCIIString z random (some uri) sigParam =
      if sortedParams uri.query = [] then .error (.signer (.runtime .indexOutOfBounds))
      else (Signer.signText z random (toASCIIString (withSorted uri))).map fun sig =>
        { uri with query := some (Segments.join 38 (sortedParams uri.query) ++ [38] ++ (sigParam ++ [61] ++ sig)) } := by
  rw [sign, canonicalUri_eq]
  by_cases h : sortedParams uri.query = []
  · rw [if_pos h, if_pos h]
    rfl
  · rw [if_neg h, if_neg h, mapError_ok, ok_bind]
    exact bind_pure_map _ _

/-- How what was signed is verified: the signature is found, or the one that the query had; and what is left of the query is verified. -/
theorem verify_signed (toASCIIString : URI → Text) (z : SigningKeyczar ρ) {uri : URI} {sigParam sig : Text}
    (hparams : Canonical (sortedParams uri.query)) (hsep : 38 ∉ sigParam) (hamp : 38 ∉ sig) (heq : 61 ∉ sig) (hne : sig ≠ []) :
    verify toASCIIString z (some { uri with
      query := some (Segments.join 38 (sortedParams uri.query) ++ [38] ++ (sigParam ++ [61] ++ sig)) }) sigParam =
      match (if 61 ∈ sigParam then (readParameters sigParam (sortedParams uri.query)).sig else some sig) with
      | none => .ok false
      | some sig => Verifier.verifyText z (toASCIIString { uri with
          query := some (Segments.join 38 (others sigParam (sortedParams uri.query))) }) sig := by
  have hunsigned : unsignedQuery sigParam (sortedParams uri.query ++ [sigParam ++ [61] ++ sig]) =
      unsignedQuery sigParam (sortedParams uri.query) := by
    rw [unsignedQuery, others_concat, unsignedQuery]
  have hsig : (readParameters sigParam (sortedParams uri.query ++ [sigParam ++ [61] ++ sig])).sig =
      if 61 ∈ sigParam then (readParameters sigParam (sortedParams uri.query)).sig else some sig := by
    rw [readParameters, List.foldl_append]
    exact sig_read _ heq hne
  obtain ⟨hsorted, hjoin⟩ := @Canonical.join_unsigned sigParam _ hparams
  rw [verify_eq toASCIIString z rfl, hparams.split_signed hsep hamp, hsig, hunsigned]
  cases (if 61 ∈ sigParam then (readParameters sigParam (sortedParams uri.query)).sig else some sig) with
  | none => rfl
  | some sig' =>
    dsimp only
    rw [if_neg hsorted, withSorted]
    dsimp only
    rw [hjoin]

theorem acceptsSigned_of_text {R : Rendering} {uri : URI} {sigParam sig : Text} (h : sortedParams uri.query ≠ [])
    (htext : Signer.signText z random (R.toASCIIString (withSorted uri)) = .ok sig) :
    AcceptsSigned R z random uri sigParam ↔ verify R.toASCIIString z (some { uri with
      query := some (Segments.join 38 (sortedParams uri.query) ++ [38] ++ (sigParam ++ [61] ++ sig)) }) sigParam = .ok true := by
  rw [AcceptsSigned, sign_eq, if_neg h, htext]
  constructor
  · rintro ⟨signed, hsame, hverify⟩
    cases hsame
    exact hverify
  · exact fun hverify => ⟨_, rfl, hverify⟩

/-- With an ideal signature, a URI is signed and then accepted exactly when its query is not of separators only and none of its
parameters begins with the name of the signature parameter, a name without a separator or an equals sign in it. -/
theorem acceptsSigned_iff (R : Rendering) {Signed : Bytes → Bytes → Prop} (hk : z.getPrimaryKey = some k) (hideal : Ideal z k.hash Signed)
    (hsize : 5 + k.digestSize < 3 * 2 ^ 29) (uri : URI) (sigParam : Text)
    (hsign : ∀ query, canonicalQuery uri.query = .ok query →
      ∃ sig, k.sign random ((R.toASCIIString { uri with query := some query }).getBytes ++ [0]) = .ok sig ∧
        sig.length ≤ k.digestSize ∧ Signed ((R.toASCIIString { uri with query := some query }).getBytes ++ [0]) sig) :
    AcceptsSigned R z random uri sigParam ↔ KeepsParameters R z uri sigParam := by
  by_cases honly : sortedParams uri.query = []
  · refine iff_of_false ?_ fun h => h.1 (sortedParams_eq_nil_iff.mp honly)
    rintro ⟨signed, hsigned, -⟩
    rw [sign_eq, if_pos honly] at hsigned
    cases hsigned
  have hparams := canonical_sortedParams honly
  obtain ⟨sig, hsig, hlength, hsigned⟩ := hsign (Segments.join 38 (sortedParams uri.query)) (by rw [canonicalQuery_eq, if_neg honly])
  have htext : Signer.signText z random (R.toASCIIString (withSorted uri)) = _ := Signer.signText_ok hk hsig hlength hsize
  have hamp : 38 ∉ Base64Strings.text ([0] ++ k.hash ++ sig) := Base64Strings.not_mem_text (by decide) _
  have hequals := Base64Strings.pad_not_mem_text ([0] ++ k.hash ++ sig)
  have hne : Base64Strings.text ([0] ++ k.hash ++ sig) ≠ [] := by
    intro h
    have hzero := congrArg List.length h
    simp [Base64Strings.length_text] at hzero
    omega
  rw [acceptsSigned_of_text honly htext, KeepsParameters, and_iff_right (mt sortedParams_eq_nil_iff.mpr honly)]
  by_cases hsep : 38 ∈ sigParam
  · rw [verify_eq R.toASCIIString z rfl, sig_of_separator hsep]
    exact iff_of_false nofun fun h => h.1 hsep
  · rw [and_iff_right hsep, verify_signed R.toASCIIString z hparams hsep hamp hequals hne]
    by_cases hname : 61 ∈ sigParam
    · rw [if_pos hname, if_pos hname, CarriesSignature]
      cases (readParameters sigParam (sortedParams uri.query)).sig with
      | none => exact iff_of_false nofun fun ⟨_, h, _⟩ => nomatch h
      | some old =>
        constructor
        · exact fun h => ⟨old, rfl, h⟩
        · rintro ⟨old', hold, h⟩
          cases hold
          exact h
    · rw [if_neg hname, if_neg hname]
      obtain ⟨answer, hanswer, hiff⟩ := hideal.verifyText k.length_hash hsigned
        (R.toASCIIString { uri with query := some (Segments.join 38 (others sigParam (sortedParams uri.query))) })
      have hsame : (R.toASCIIString { uri with query := some (Segments.join 38 (others sigParam (sortedParams uri.query))) }).getBytes ++
          [0] = (R.toASCIIString (withSorted uri)).getBytes ++ [0] ↔
          Segments.join 38 (others sigParam (sortedParams uri.query)) = Segments.join 38 (sortedParams uri.query) := by
        rw [List.append_left_inj, Text.getBytes_inj (R.ascii _) (R.ascii _), R.injective.eq_iff, withSorted]
        simp
      dsimp only
      rw [hanswer]
      have hvalue : (Except.ok answer : Except StringFailure Bool) = .ok true ↔ answer = true := by simp
      rw [hvalue, hiff]
      refine hsame.trans (hparams.join_others_iff.trans ?_)
      constructor
      · exact fun h p hp => h p ((mem_sortedParams hp.1).mpr hp) hp.1
      · exact fun h p hp hp' => h p ((mem_sortedParams hp').mp hp)

/-- `?b=2&a=1`, which is signed as `?a=1&b=2`. -/
theorem acceptsSigned_two_params :
    AcceptsSigned rendering (oneUriSet { page with query := some [97, 61, 49, 38, 98, 61, 50] }) ()
      { page with query := some [98, 61, 50, 38, 97, 61, 49] } DEFAULT_SIG_PARAM := by
  have hk : (oneUriSet { page with query := some [97, 61, 49, 38, 98, 61, 50] }).getPrimaryKey =
      some (oneMessageKey ((rendering.toASCIIString { page with query := some [97, 61, 49, 38, 98, 61, 50] }).getBytes ++ [0])) := rfl
  have hquery : canonicalQuery (some [98, 61, 50, 38, 97, 61, 49]) = .ok [97, 61, 49, 38, 98, 61, 50] := by decide
  refine (acceptsSigned_iff rendering hk (oneMessageSet_ideal _) (by decide) _ DEFAULT_SIG_PARAM fun query h => ?_).mpr ⟨?_, ?_, ?_⟩
  · obtain rfl := Except.ok.inj (hquery.symm.trans h)
    exact ⟨_, rfl, by decide, rfl, rfl⟩
  · rintro ⟨q, hq, -, hall⟩
    obtain rfl := Option.some.inj hq
    exact absurd (hall 98 (by simp)) (by decide)
  · decide
  · rw [if_neg (by decide)]
    rintro p ⟨-, hp⟩
    have hparams : List.splitOn (38 : UInt16) [98, 61, 50, 38, 97, 61, 49] = [[98, 61, 50], [97, 61, 49]] := by decide
    have hall : ∀ p ∈ ([[98, 61, 50], [97, 61, 49]] : List Text), ¬ DEFAULT_SIG_PARAM <+: p := by decide
    exact hall p (hparams ▸ hp)

/-- `http://foo.com/q?sigma=1`. -/
def sigmaPage : URI := { page with query := some [115, 105, 103, 109, 97, 61, 49] }

/-- `?sigma=1` is signed and then refused, and `?&` is not signed, under ideal signatures and without a parameter `sig` in either. -/
theorem signed_uri_is_refused :
    Ideal (oneUriSet sigmaPage) [1, 2, 3, 4]
      (fun m sig => m = (rendering.toASCIIString sigmaPage).getBytes ++ [0] ∧ sig = List.replicate 20 7) ∧
    (∃ signed, sign rendering.toASCIIString (oneUriSet sigmaPage) () (some sigmaPage) DEFAULT_SIG_PARAM = .ok signed ∧
      verify rendering.toASCIIString (oneUriSet sigmaPage) (some signed) DEFAULT_SIG_PARAM = .ok false) ∧
    sign rendering.toASCIIString (oneUriSet sigmaPage) () (some { page with query := some [38] }) DEFAULT_SIG_PARAM =
      .error (.signer (.runtime .indexOutOfBounds)) ∧
    ¬ AcceptsSigned rendering (oneUriSet sigmaPage) () sigmaPage DEFAULT_SIG_PARAM ∧
    ¬ AcceptsSigned rendering (oneUriSet sigmaPage) () { page with query := some [38] } DEFAULT_SIG_PARAM := by
  have hsign : sign rendering.toASCIIString (oneUriSet sigmaPage) () (some sigmaPage) DEFAULT_SIG_PARAM =
      .ok { page with query := some ([115, 105, 103, 109, 97, 61, 49, 38, 115, 105, 103, 61] ++
        Base64Strings.text ([0, 1, 2, 3, 4] ++ List.replicate 20 7)) } := by decide
  have hverify : verify rendering.toASCIIString (oneUriSet sigmaPage) (some { page with
      query := some ([115, 105, 103, 109, 97, 61, 49, 38, 115, 105, 103, 61] ++
        Base64Strings.text ([0, 1, 2, 3, 4] ++ List.replicate 20 7)) }) DEFAULT_SIG_PARAM = .ok false := by decide
  have hthrow : sign rendering.toASCIIString (oneUriSet sigmaPage) () (some { page with query := some [38] }) DEFAULT_SIG_PARAM =
      .error (.signer (.runtime .indexOutOfBounds)) := by decide
  refine ⟨oneMessageSet_ideal _, ⟨_, hsign, hverify⟩, hthrow, ?_, ?_⟩
  · rintro ⟨signed, hsigned, haccepted⟩
    obtain rfl := Except.ok.inj (hsign.symm.trans hsigned)
    rw [hverify] at haccepted
    cases haccepted
  · rintro ⟨signed, hsigned, -⟩
    rw [hthrow] at hsigned
    cases hsigned

end UriSigner

end Java
