import Keyczar.Cpp.KeysetHistory

/-!
# What a hash finds

A key is entered under its hash and, when it is an AES key that starts with a zero, under its buggy hash too. Adding a key looks
whether its hash is in use and overwrites what its buggy hash finds; removing it erases its hash only. The index therefore describes
the keys of the versions as long as no buggy hash meets the hash of another key, and no key is revoked that its buggy hash finds.
-/

namespace Cpp

namespace ManagedKeyset

variable {P : Primitives}

/-- A version of the metadata that has a key. -/
def Live (s : ManagedKeyset) (n : Int) (key : Key) : Prop := (s.metadata.getVersion n).isSome ∧ s.getKey n = some key

/-- The hashes find the keys of the live versions, and nothing else. -/
structure Coherent (P : Primitives) (s : ManagedKeyset) : Prop where
  found : ∀ n key, s.Live n key → ∃ hash, key.hash P = some hash ∧ s.hashMap hash = some key
  live : ∀ hash key, s.hashMap hash = some key → ∃ n, s.Live n key
  buggy : ∀ n key hash, s.Live n key → key.buggyHash P = .ok (some hash) →
    (∀ n' key', s.Live n' key' → n' ≠ n → key'.hash P ≠ some hash) →
    ∃ found, s.hashMap hash = some found ∧ found.buggyHash P = .ok (some hash)

/-- What holds after additions and revocations that did not get in each other's way. -/
structure Indexed (P : Primitives) (s : ManagedKeyset) : Prop where
  version : ∀ {n key}, s.getKey n = some key → (s.metadata.getVersion n).isSome
  found : ∀ {n key}, s.getKey n = some key → ∃ hash, key.hash P = some hash ∧ s.hashMap hash = some key
  live : ∀ {hash key}, s.hashMap hash = some key →
    (∃ n, s.getKey n = some key) ∧ (key.hash P = some hash ∨ key.buggyHash P = .ok (some hash))
  distinct : ∀ {n n' key key'}, s.getKey n = some key → s.getKey n' = some key' → key.hash P = key'.hash P → n = n'
  buggy : ∀ {n key hash}, s.getKey n = some key → key.buggyHash P = .ok (some hash) →
    ∃ found, s.hashMap hash = some found ∧ found.buggyHash P = .ok (some hash)
  apart : ∀ {n n' key key' hash}, s.getKey n = some key → s.getKey n' = some key' → n' ≠ n →
    key.buggyHash P = .ok (some hash) → key'.hash P ≠ some hash

theorem Indexed.coherent {s : ManagedKeyset} (h : Indexed P s) : Coherent P s := by
  refine ⟨?_, ?_, ?_⟩
  · intro n key hlive
    exact h.found hlive.2
  · intro hash key hf
    obtain ⟨⟨n, hk⟩, -⟩ := h.live hf
    exact ⟨n, h.version hk, hk⟩
  · intro n key hash hlive hb _
    exact h.buggy hlive.2 hb

theorem Indexed.keyHashes {s : ManagedKeyset} (h : Indexed P s) : KeyHashes P s := by
  refine ⟨?_, h.distinct⟩
  intro n key hk
  obtain ⟨hash, hh, hf⟩ := h.found hk
  exact ⟨hash, key, hh, hf⟩

/-- The index depends on the two maps only, and on there being a version for every key. -/
theorem Indexed.congr {s t : ManagedKeyset} (h : Indexed P s) (hv : t.versionNumberMap = s.versionNumberMap)
    (hh : t.hashMap = s.hashMap) (hversion : ∀ n, (s.metadata.getVersion n).isSome → (t.metadata.getVersion n).isSome) :
    Indexed P t := by
  have hkey : ∀ n, t.getKey n = s.getKey n := fun n => congrArg (fun m => m.find n) hv
  refine ⟨?_, ?_, ?_, ?_, ?_, ?_⟩
  · intro n key hk
    rw [hkey] at hk
    exact hversion n (h.version hk)
  · intro n key hk
    rw [hkey] at hk
    rw [hh]
    exact h.found hk
  · intro hash key hf
    rw [hh] at hf
    simp only [hkey]
    exact h.live hf
  · intro n n' key key' hk hk'
    rw [hkey] at hk hk'
    exact h.distinct hk hk'
  · intro n key hash hk hb
    rw [hkey] at hk
    rw [hh]
    exact h.buggy hk hb
  · intro n n' key key' hash hk hk'
    rw [hkey] at hk hk'
    exact h.apart hk hk'

/-! ## Adding a key -/

/-- The buggy hash of a key that can be added is not the hash of a key there is. -/
def Clear (P : Primitives) (s : ManagedKeyset) (key : Key) : Prop :=
  ∀ hash buggyHash n' key', key.hash P = some hash → s.hashMap hash = none → key.buggyHash P = .ok (some buggyHash) →
    s.Live n' key' → key'.hash P ≠ some buggyHash

theorem Indexed.withKey {s : ManagedKeyset} (h : Indexed P s) {key : Key} {n : Int} {hash : Bytes}
    (hversion : (s.metadata.getVersion n).isSome) (hnew : s.getKey n = none) (hhash : key.hash P = some hash)
    (hfree : s.hashMap hash = none) (hclear : Clear P s key) : Indexed P (s.withKey P key n hash) := by
  have hold : ∀ {n' key'}, s.getKey n' = some key' → key'.hash P ≠ some hash := by
    intro n' key' hk' heq
    obtain ⟨hash', hh', hf⟩ := h.found hk'
    rw [heq] at hh'
    cases hh'
    rw [hfree] at hf
    cases hf
  -- a buggy hash that is there finds something, so the new hash is another one
  have hbuggy : ∀ {n' key' b}, s.getKey n' = some key' → key'.buggyHash P = .ok (some b) → b ≠ hash := by
    rintro n' key' b hk' hb rfl
    obtain ⟨found, hf, -⟩ := h.buggy hk' hb
    rw [hfree] at hf
    cases hf
  have hself : ∀ {b}, key.buggyHash P = .ok (some b) → ∀ {n' key'}, s.getKey n' = some key' → key'.hash P ≠ some b := by
    intro b hb n' key' hk'
    exact hclear hash b n' key' hhash hfree hb ⟨h.version hk', hk'⟩
  have hkeys := (h.keyHashes).withKey hhash hfree n
  refine ⟨?_, ?_, ?_, hkeys.distinct, ?_, ?_⟩
  · intro n' key' hk'
    rw [getKey_withKey] at hk'
    split at hk'
    · rename_i hn
      rw [hn]
      exact hversion
    · exact h.version hk'
  · intro n' key' hk'
    rw [getKey_withKey] at hk'
    split at hk'
    · cases Option.some.inj hk'
      refine ⟨hash, hhash, ?_⟩
      rw [hashMap_withKey, if_pos rfl, ite_self]
    · obtain ⟨hash', hh', hf⟩ := h.found hk'
      refine ⟨hash', hh', ?_⟩
      rw [hashMap_withKey, if_neg, if_neg]
      · exact hf
      · rintro rfl
        exact hold hk' hh'
      · intro hb
        exact hself hb hk' hh'
  · intro i key' hf
    rw [hashMap_withKey] at hf
    have hthere : ∃ n', (s.withKey P key n hash).getKey n' = some key := ⟨n, by rw [getKey_withKey, if_pos rfl]⟩
    split at hf
    · rename_i hb
      cases Option.some.inj hf
      exact ⟨hthere, Or.inr hb⟩
    · split at hf
      · rename_i hi
        cases Option.some.inj hf
        exact ⟨hthere, Or.inl (by rw [hi]; exact hhash)⟩
      · obtain ⟨⟨n', hk'⟩, hentry⟩ := h.live hf
        refine ⟨⟨n', ?_⟩, hentry⟩
        rw [getKey_withKey, if_neg]
        · exact hk'
        · rintro rfl
          rw [hnew] at hk'
          cases hk'
  · intro n' key' b hk' hb
    rw [hashMap_withKey]
    by_cases hkb : key.buggyHash P = .ok (some b)
    · rw [if_pos hkb]
      exact ⟨key, rfl, hkb⟩
    · rw [if_neg hkb]
      rw [getKey_withKey] at hk'
      split at hk'
      · cases Option.some.inj hk'
        exact absurd hb hkb
      · rw [if_neg (hbuggy hk' hb)]
        exact h.buggy hk' hb
  · intro n₁ n₂ k₁ k₂ b h₁ h₂ hne hb
    rw [getKey_withKey] at h₁ h₂
    split at h₁
    · rename_i hn₁
      cases Option.some.inj h₁
      rw [if_neg (by rw [← hn₁]; exact hne)] at h₂
      exact hself hb h₂
    · split at h₂
      · cases Option.some.inj h₂
        rw [hhash]
        intro heq
        exact hbuggy h₁ hb (Option.some.inj heq).symm
      · exact h.apart h₁ h₂ hne hb

/-- Adding a key keeps the index. -/
theorem Indexed.addKey {s : ManagedKeyset} (h : Indexed P s) {key : Key} (hclear : Clear P s key) (n : Int) :
    Indexed P (s.addKey P key n).2 := by
  obtain ⟨result, t, hadd⟩ : ∃ result t, s.addKey P key n = (result, t) := ⟨_, _, rfl⟩
  rw [hadd]
  rcases addKey_cases hadd with ⟨-, rfl⟩ | ⟨hash, -, hversion, hnew, hhash, hfree, rfl, -⟩
  · exact h
  · exact h.withKey hversion hnew hhash hfree hclear

/-- A key whose buggy hash is the hash of a live key displaces it. -/
theorem Indexed.not_coherent_addKey {s : ManagedKeyset} (h : Indexed P s) {key : Key} {n : Int} {hash : Bytes} (hpos : 0 < n)
    (hversion : (s.metadata.getVersion n).isSome) (hnew : s.getKey n = none) (hhash : key.hash P = some hash)
    (hfree : s.hashMap hash = none) (hclear : ¬ Clear P s key) : ¬ Coherent P (s.addKey P key n).2 := by
  simp only [Clear, not_forall, not_not] at hclear
  obtain ⟨hash', b, n', key', hhash', -, hb, hlive, hh'⟩ := hclear
  intro hc
  obtain ⟨result, heq, -⟩ := addKey_new (P := P) hpos hversion hnew hhash hfree
  rw [heq] at hc
  have hne : n' ≠ n := by
    rintro rfl
    have hk' := hlive.2
    rw [hnew] at hk'
    cases hk'
  have hlive' : (s.withKey P key n hash).Live n' key' := by
    refine ⟨hlive.1, ?_⟩
    rw [getKey_withKey, if_neg hne]
    exact hlive.2
  obtain ⟨hash'', hh'', hf⟩ := hc.found n' key' hlive'
  rw [hh'] at hh''
  cases hh''
  rw [hashMap_withKey, if_pos hb] at hf
  cases hf
  -- then the key's hash is that of the live key, which is in use
  obtain ⟨hash'', hh'', hf⟩ := h.found hlive.2
  rw [hhash] at hh''
  cases hh''
  rw [hfree] at hf
  cases hf

/-! ## Revoking a key -/

/-- The version can be revoked without leaving its key behind: its buggy hash does not find it, or it is its hash. -/
def Removable (P : Primitives) (s : ManagedKeyset) (n : Int) : Prop :=
  ∀ key buggyHash, s.Live n key → key.buggyHash P = .ok (some buggyHash) → key.hash P ≠ some buggyHash → s.hashMap buggyHash ≠ some key

theorem Indexed.revoked {s : ManagedKeyset} (h : Indexed P s) {n : Int} {key : Key} {hash : Bytes} (hk : s.getKey n = some key)
    (hhash : key.hash P = some hash) (hremovable : Removable P s n) : Indexed P (s.revoked n hash) := by
  have hget : ∀ n', (s.revoked n hash).getKey n' = if n' = n then none else s.getKey n' := s.versionNumberMap.find_erase n
  have hold : ∀ {n' key'}, (s.revoked n hash).getKey n' = some key' → n' ≠ n ∧ s.getKey n' = some key' := by
    intro n' key' hk'
    rw [hget] at hk'
    split at hk'
    · cases hk'
    · rename_i hn
      exact ⟨hn, hk'⟩
  have hmap : ∀ {i}, i ≠ hash → (s.revoked n hash).hashMap i = s.hashMap i := fun hi => Function.update_of_ne hi _ _
  refine ⟨?_, ?_, ?_, ?_, ?_, ?_⟩
  · intro n' key' hlater
    obtain ⟨hne, hk'⟩ := hold hlater
    show ((s.metadata.removeVersion n).2.getVersion n').isSome
    rw [KeysetMetadata.getVersion_removeVersion, if_neg hne]
    exact h.version hk'
  · intro n' key' hlater
    obtain ⟨hne, hk'⟩ := hold hlater
    obtain ⟨hash', hh', hf⟩ := h.found hk'
    refine ⟨hash', hh', ?_⟩
    rw [hmap]
    · exact hf
    · rintro rfl
      exact hne (h.distinct hk' hk (hh'.trans hhash.symm))
  · intro i key' hf
    by_cases hi : i = hash
    · subst hi
      rw [show (s.revoked n i).hashMap i = none from Function.update_self _ _ _] at hf
      cases hf
    · rw [hmap hi] at hf
      obtain ⟨⟨n', hk'⟩, hentry⟩ := h.live hf
      refine ⟨⟨n', ?_⟩, hentry⟩
      rw [hget, if_neg]
      · exact hk'
      · rintro rfl
        rw [hk] at hk'
        cases Option.some.inj hk'
        rcases hentry with hh | hb
        · rw [hhash] at hh
          exact hi (Option.some.inj hh).symm
        · refine hremovable key i ⟨h.version hk, hk⟩ hb ?_ hf
          rw [hhash]
          exact fun heq => hi (Option.some.inj heq).symm
  · intro n₁ n₂ k₁ k₂ h₁ h₂
    exact h.distinct (hold h₁).2 (hold h₂).2
  · intro n' key' b hlater hb
    obtain ⟨hne, hk'⟩ := hold hlater
    rw [hmap]
    · exact h.buggy hk' hb
    · rintro rfl
      exact h.apart hk' hk hne.symm hb hhash
  · intro n₁ n₂ k₁ k₂ b h₁ h₂
    exact h.apart (hold h₁).2 (hold h₂).2

/-- Revoking a version keeps the index. -/
theorem Indexed.revokeKey {s : ManagedKeyset} (h : Indexed P s) {n : Int}
    (hremovable : (∃ v, s.metadata.getVersion n = some v ∧ v.keyStatus = .inactive) → Removable P s n) :
    Indexed P (s.revokeKey P n).2 := by
  rcases s.revokeKey_cases (P := P) n with heq | ⟨v, hv, hinactive, heq⟩
  · rw [heq]
    exact h
  · rw [heq]
    cases hk : s.getKey n with
    | none =>
      rw [removeKey_of_none (s := { s with metadata := (s.metadata.removeVersion n).2 }) hk]
      refine ⟨?_, h.found, h.live, h.distinct, h.buggy, h.apart⟩
      intro n' key' hk'
      have hne : n' ≠ n := by
        rintro rfl
        rw [show s.getKey n' = some key' from hk'] at hk
        cases hk
      show ((s.metadata.removeVersion n).2.getVersion n').isSome
      rw [KeysetMetadata.getVersion_removeVersion, if_neg hne]
      exact h.version hk'
    | some key =>
      have hremoved : KeyHashes P { s with metadata := (s.metadata.removeVersion n).2 } := h.keyHashes.congr rfl rfl
      obtain ⟨hash, hhash, hremove⟩ := hremoved.removeKey (n := n) hk
      rw [hremove]
      exact h.revoked hk hhash (hremovable ⟨v, hv, hinactive⟩)

/-- A revoked key that its buggy hash finds is still found by it. -/
theorem Indexed.not_coherent_revokeKey {s : ManagedKeyset} (h : Indexed P s) {n : Int} {v : KeyVersion} (hpos : 0 < n)
    (hv : s.metadata.getVersion n = some v) (hst : v.keyStatus = .inactive) (hremovable : ¬ Removable P s n) :
    ¬ Coherent P (s.revokeKey P n).2 := by
  simp only [Removable, not_forall, not_not] at hremovable
  obtain ⟨key, b, hlive, hb, hne, hf⟩ := hremovable
  obtain ⟨-, hk⟩ := hlive
  have hremoved : KeyHashes P { s with metadata := (s.metadata.removeVersion n).2 } := h.keyHashes.congr rfl rfl
  obtain ⟨hash, hhash, hremove⟩ := hremoved.removeKey (n := n) hk
  have hrevoke : s.revokeKey P n = (true, s.revoked n hash) := by
    rw [revokeKey_of_inactive hpos hv hst, hremove]
    rfl
  rw [hrevoke]
  intro hc
  have hentry : (s.revoked n hash).hashMap b = some key := by
    refine Eq.trans ?_ hf
    refine Function.update_of_ne ?_ _ _
    rintro rfl
    exact hne hhash
  obtain ⟨n', -, hk'⟩ := hc.live b key hentry
  have hget : (s.revoked n hash).getKey n' = if n' = n then none else s.getKey n' := s.versionNumberMap.find_erase n n'
  rw [hget] at hk'
  split at hk'
  · cases hk'
  · rename_i hn
    exact hn (h.distinct hk' hk rfl)

/-! ## Runs -/

/-- The two maps are the same, and the versions there were are there. -/
structure SameMaps (s t : ManagedKeyset) : Prop where
  versionNumberMap_eq : t.versionNumberMap = s.versionNumberMap
  hashMap_eq : t.hashMap = s.hashMap
  version : ∀ n, (s.metadata.getVersion n).isSome → (t.metadata.getVersion n).isSome

theorem SameMaps.trans {s t u : ManagedKeyset} (h : SameMaps s t) (h' : SameMaps t u) : SameMaps s u :=
  ⟨h'.versionNumberMap_eq.trans h.versionNumberMap_eq, h'.hashMap_eq.trans h.hashMap_eq,
    fun n hn => h'.version n (h.version n hn)⟩

theorem SameKeys.sameMaps {s t : ManagedKeyset} (h : SameKeys s t) : SameMaps s t :=
  ⟨h.versionNumberMap_eq, h.hashMap_eq, fun n hn => (h.isSome_getVersion n).trans hn⟩

theorem Indexed.of_sameMaps {s t : ManagedKeyset} (h : Indexed P s) (hsame : SameMaps s t) : Indexed P t :=
  h.congr hsame.versionNumberMap_eq hsame.hashMap_eq hsame.version

theorem sameMaps_addVersion {s : ManagedKeyset} {v v' : KeyVersion} {added : Bool} {m : KeysetMetadata}
    (h : s.metadata.addVersion v = some (added, v', m)) : SameMaps s { s with metadata := m } := by
  refine ⟨rfl, rfl, ?_⟩
  intro n hn
  unfold KeysetMetadata.addVersion at h
  obtain ⟨⟨v₁, m₁⟩, hassign, heq⟩ := Option.map_eq_some_iff.mp h
  have hsame : m₁.keyVersionsMap = s.metadata.keyVersionsMap := by
    unfold KeysetMetadata.assignNumber at hassign
    split at hassign
    · split at hassign
      · cases hassign
      · cases hassign
        rfl
    · cases hassign
      rfl
  unfold KeysetMetadata.getVersion at hn ⊢
  dsimp only at heq
  split at heq
  · cases heq
    rw [hsame]
    exact hn
  · cases heq
    show ((m₁.keyVersionsMap.insert _ _).find n).isSome
    rw [OrderedMap.find_insert, hsame]
    split
    · rfl
    · exact hn

theorem sameMaps_addKeyVersion {s t : ManagedKeyset} {v : KeyVersion} {n : Int} (h : s.addKeyVersion v = some (n, t)) :
    SameMaps s t := by
  unfold ManagedKeyset.addKeyVersion at h
  split at h
  · cases h
    exact (sameKeys_refl s).sameMaps
  · split at h
    · cases h
    · rename_i hadd
      cases h
      exact sameMaps_addVersion hadd
    · rename_i v' m hadd
      dsimp only at h
      split at h
      · split at h
        · rename_i u hupdate
          cases h
          have hsame := sameKeys_updateKeyStatus { s with metadata := m } .primary v'.versionNumber
          rw [hupdate] at hsame
          exact (sameMaps_addVersion hadd).trans hsame.sameMaps
        · cases h
      · cases h
        exact sameMaps_addVersion hadd

/-- `GenerateKey` and `ImportPrivateKey` change the two maps by `AddKey` only. -/
theorem addNewKey_maps {s : ManagedKeyset} {status : KeyStatus} {key : Key} {r : Except Exception Int × ManagedKeyset}
    (h : s.addNewKey P status key = some r) :
    ∃ t, SameMaps s t ∧ (r.2 = t ∨ ∃ n, r.2 = (t.addKey P key n).2) := by
  obtain ⟨demoted, t, hroom, hsame⟩ : ∃ demoted t,
      (if status = .primary ∧ 0 < s.primaryKeyVersionNumber then s.demoteKey s.primaryKeyVersionNumber else (true, s)) =
        (demoted, t) ∧ SameKeys s t := by
    split
    · exact ⟨_, _, rfl, sameKeys_demoteKey s _⟩
    · exact ⟨_, _, rfl, sameKeys_refl s⟩
  unfold ManagedKeyset.addNewKey at h
  rw [hroom] at h
  dsimp only at h
  split at h
  · cases h
    exact ⟨t, hsame.sameMaps, Or.inl rfl⟩
  · split at h
    · cases h
    · rename_i n u hversion
      have hmaps := hsame.sameMaps.trans (sameMaps_addKeyVersion hversion)
      split at h
      · cases h
        exact ⟨u, hmaps, Or.inl rfl⟩
      · refine ⟨u, hmaps, Or.inr ⟨n, ?_⟩⟩
        split at h
        all_goals
          rename_i hkey
          cases h
          rw [hkey]

theorem Clear.of_sameMaps {s t : ManagedKeyset} {key : Key} (h : Clear P s key) (hindexed : Indexed P s) (hsame : SameMaps s t) :
    Clear P t key := by
  intro hash b n' key' hhash hfree hb hlive
  rw [hsame.hashMap_eq] at hfree
  have hk' : s.getKey n' = some key' := by
    rw [← hlive.2]
    exact congrArg (fun m => m.find n') hsame.versionNumberMap_eq.symm
  exact h hash b n' key' hhash hfree hb ⟨hindexed.version hk', hk'⟩

theorem Indexed.addNewKey {s : ManagedKeyset} (h : Indexed P s) {status : KeyStatus} {key : Key}
    {r : Except Exception Int × ManagedKeyset} (hclear : Clear P s key) (hadd : s.addNewKey P status key = some r) :
    Indexed P r.2 := by
  obtain ⟨t, hsame, heq | ⟨n, heq⟩⟩ := addNewKey_maps hadd
  · rw [heq]
    exact h.of_sameMaps hsame
  · rw [heq]
    exact (h.of_sameMaps hsame).addKey (hclear.of_sameMaps h hsame) n

/-- A step of a run: a key that is loaded, or a call. -/
inductive Step where
  | addKey (key : Key) (versionNumber : Int)
  | call (c : Call)

def step (P : Primitives) (s : ManagedKeyset) : Step → Option ManagedKeyset
  | .addKey key n => some (s.addKey P key n).2
  | .call c => s.call P c

/-- Steps that all meet a condition lead from one state to another. -/
inductive Steps (P : Primitives) (Ok : ManagedKeyset → Step → Prop) (s₀ : ManagedKeyset) : ManagedKeyset → Prop where
  | start : Steps P Ok s₀ s₀
  | step {s s' : ManagedKeyset} (c : Step) : Steps P Ok s₀ s → Ok s c → s.step P c = some s' → Steps P Ok s₀ s'

/-- The key that a step adds is clear of those there are, and the key of a version that is revoked can be removed. -/
def Safe (P : Primitives) (s : ManagedKeyset) : Step → Prop
  | .addKey key _ => Clear P s key
  | .call (.generateKey _ generated) => ∀ key, s.generateUnusedKey P generated = some (some key) → Clear P s key
  | .call (.importPrivateKey _ imported) => ∀ key, imported = some key → Clear P s key
  | .call (.revokeKey n) => (∃ v, s.metadata.getVersion n = some v ∧ v.keyStatus = .inactive) → Removable P s n
  | .call (.promoteKey _) => True
  | .call (.demoteKey _) => True

/-- A safe step keeps the index. -/
theorem Indexed.step {s s' : ManagedKeyset} (h : Indexed P s) {c : Step} (hsafe : Safe P s c) (hstep : s.step P c = some s') :
    Indexed P s' := by
  cases c with
  | addKey key n =>
    cases hstep
    exact h.addKey hsafe n
  | call c =>
    cases c with
    | generateKey status generated =>
      obtain ⟨r, hgenerate, rfl⟩ := Option.map_eq_some_iff.mp hstep
      rcases generateKey_cases hgenerate with rfl | ⟨key, hash, hkey, -, -, hadd⟩
      · exact h
      · exact h.addNewKey (hsafe key hkey) hadd
    | importPrivateKey status imported =>
      obtain ⟨r, himport, rfl⟩ := Option.map_eq_some_iff.mp hstep
      rcases importPrivateKey_cases himport with rfl | ⟨key, hash, hkey, -, -, hadd⟩
      · exact h
      · exact h.addNewKey (hsafe key hkey) hadd
    | promoteKey n =>
      cases hstep
      exact h.of_sameMaps (sameKeys_promoteKey s n).sameMaps
    | demoteKey n =>
      cases hstep
      exact h.of_sameMaps (sameKeys_demoteKey s n).sameMaps
    | revokeKey n =>
      cases hstep
      exact h.revokeKey hsafe

/-- In a run of safe steps from a key set with metadata and no keys, the hashes find the keys of the live versions and nothing else. -/
theorem coherent_of_safe_steps {metadata : KeysetMetadata} {s : ManagedKeyset} (h : Steps P (Safe P) { metadata } s) :
    Coherent P s := by
  have hindexed : Indexed P s := by
    induction h with
    | start => exact ⟨nofun, nofun, nofun, nofun, nofun, nofun⟩
    | step c _ hsafe hstep ih => exact ih.step hsafe hstep
  exact hindexed.coherent

/-- An AES key of some length, that starts with zeros and goes on with ones. -/
def aesKeyOfZeros (zeros ones : Nat) (h : validKeyLength (zeros + ones) = true) : AESKey where
  aesImpl := ⟨List.replicate zeros 0 ++ List.replicate ones 1, by simpa using h⟩
  hmacKey := ⟨[], .sha1⟩

/-- Metadata with inactive versions. -/
def inactiveMetadata (versions : List Int) : KeysetMetadata where
  name := "crypter"
  keyType := .aes
  keyPurpose := .decryptAndEncrypt
  encrypted := false
  nextKeyVersionNumber := 3
  keyVersionsMap := versions.foldl (fun m n => m.insert n ⟨n, .inactive, false⟩) .empty

/-- The key set of one inactive version whose key starts with a zero, after the version was revoked. -/
theorem steps_revoked : ∃ s, Steps Primitives.plain (fun _ _ => True) { metadata := inactiveMetadata [1] } s ∧
    (∀ n, s.getKey n = none) ∧ s.hashMap [65, 65, 65, 65, 68, 119] = some (.aes (aesKeyOfZeros 1 15 (by decide))) :=
  ⟨_, .step (.call (.revokeKey 1)) (.step (.addKey (.aes (aesKeyOfZeros 1 15 (by decide))) 1) .start trivial rfl) trivial rfl,
    fun _ => rfl, rfl⟩

/-- Two keys, one of which is the other with zeros before it. -/
theorem steps_displaced : ∃ s, Steps Primitives.plain (fun _ _ => True) { metadata := inactiveMetadata [1, 2] } s ∧
    s.Live 1 (.aes (aesKeyOfZeros 0 16 (by decide))) ∧
    (Key.aes (aesKeyOfZeros 0 16 (by decide))).hash Primitives.plain = some [65, 65, 65, 65, 69, 65] ∧
    s.hashMap [65, 65, 65, 65, 69, 65] = some (.aes (aesKeyOfZeros 16 16 (by decide))) :=
  ⟨_, .step (.addKey (.aes (aesKeyOfZeros 16 16 (by decide))) 2)
      (.step (.addKey (.aes (aesKeyOfZeros 0 16 (by decide))) 1) .start trivial rfl) trivial rfl,
    ⟨rfl, rfl⟩, rfl, rfl⟩

/-- A revoked key is found by its buggy hash, and a key can displace another one whose hash is its buggy hash. -/
theorem not_coherent_of_steps :
    (∃ s, Steps Primitives.plain (fun _ _ => True) { metadata := inactiveMetadata [1] } s ∧ ¬ Coherent Primitives.plain s) ∧
    ∃ s, Steps Primitives.plain (fun _ _ => True) { metadata := inactiveMetadata [1, 2] } s ∧ ¬ Coherent Primitives.plain s := by
  refine ⟨?_, ?_⟩
  · obtain ⟨s, hsteps, hkeys, hf⟩ := steps_revoked
    refine ⟨s, hsteps, ?_⟩
    intro hc
    obtain ⟨n, -, hk⟩ := hc.live _ _ hf
    rw [hkeys] at hk
    cases hk
  · obtain ⟨s, hsteps, hlive, hhash, hf⟩ := steps_displaced
    refine ⟨s, hsteps, ?_⟩
    intro hc
    obtain ⟨hash, hh, hfound⟩ := hc.found _ _ hlive
    rw [hhash] at hh
    cases hh
    rw [hf] at hfound
    exact absurd (Key.aes.inj (Option.some.inj hfound)) (by decide)

theorem coherent_of_safe_steps_small : ∃ s, Steps Primitives.plain (Safe Primitives.plain) { metadata := inactiveMetadata [1, 2] } s ∧
    s.Live 1 (.aes (aesKeyOfZeros 1 15 (by decide))) ∧ Coherent Primitives.plain s := by
  have hsteps : ∃ s, Steps Primitives.plain (Safe Primitives.plain) { metadata := inactiveMetadata [1, 2] } s ∧
      s.Live 1 (.aes (aesKeyOfZeros 1 15 (by decide))) := by
    refine ⟨_, .step (.addKey (.aes (aesKeyOfZeros 1 15 (by decide))) 1) .start ?_ rfl, rfl, rfl⟩
    intro hash buggyHash n' key' _ _ _ hlive
    cases hlive.2
  obtain ⟨s, hsteps, hlive⟩ := hsteps
  exact ⟨s, hsteps, hlive, coherent_of_safe_steps hsteps⟩

end ManagedKeyset

end Cpp
