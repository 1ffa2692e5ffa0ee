import Keyczar.Python.Reload

/-!
# Memory and metadata

Along a run of calls that return, the dictionary of keys keeps every entry it ever had, and the metadata loses the versions that are
revoked. So the two agree as long as no key was revoked, and from the first `Revoke` on they never agree again.
-/

namespace Python

namespace GenericKeyczar

variable {κ ρ : Type} {C : KeyClass κ ρ}

/-! ## Runs -/

/-- A run of calls that all return without raising, with the operations among them; the rest are calls of `Write`. -/
inductive Performed (C : KeyClass κ ρ) (s₀ : Keyczar κ) : List (Op κ) → Keyczar κ → Prop where
  | start : Performed C s₀ [] s₀
  | step {ops : List (Op κ)} {s s' : Keyczar κ} (op : Op κ) (run : Performed C s₀ ops s)
      (returns : step C s op = some (.ok (), s')) : Performed C s₀ (ops ++ [op]) s'
  | write {ops : List (Op κ)} {s : Keyczar κ} (order : DictOrder) (encrypted : Bool) (run : Performed C s₀ ops s) :
      Performed C s₀ ops (write order s encrypted).2

def Op.isRevoke : Op κ → Bool
  | .revoke _ => true
  | _ => false

/-! ## Memory agrees with the metadata -/

/-- The key set in memory is the one that its metadata describes: it has keys for the versions of the metadata and no others, a
hash identifier is found exactly when such a version has a key with it, what is written and exported has a key for each of these
versions and no others, and a key set loaded from what was written has the same lookups. -/
structure AgreesWithMetadata (C : KeyClass κ ρ) (s : Keyczar κ) : Prop where
  versions : s.versions.Perm s.metadata.refs
  hash : ∀ i, (∃ key, s.getKey (.hash i) = .ok key) ↔
    ∃ r ∈ s.metadata.refs, ∃ key, s.getKey (.version r) = .ok key ∧ C.hashId key = i
  written : ∀ order encrypted, ∃ w, (write order s encrypted).1 = .ok w ∧ w.Complete ∧
    (∀ n, n ∈ w.keyNumbers ↔ n ∈ s.metadata.versions) ∧
    ∀ reader, w.ReadBy reader → ∀ order', ∃ s', init C order' reader = .ok s' ∧ SameLookups s s'
  exported : ∀ (π : Type) (publicKey : κ → Except PyError π) order w, publicKeyExport publicKey order s = .ok w →
    w.Complete ∧ ∀ n, n ∈ w.keyNumbers ↔ n ∈ s.metadata.versions

/-! ## What each call keeps -/

/-- Adding the key of a new version whose identifier is not in use neither makes nor removes a clash. -/
theorem noClash_addEntries_iff {keys : AList (fun _ : KeyId => κ)} (h : Entries C keys) {r : Ref} {key : κ}
    (hr : keys.lookup (.version r) = none) (hunused : keys.lookup (.hash (C.hashId key)) = none) :
    NoClash C (Keyczar.addEntries C keys r key) ↔ NoClash C keys := by
  have hold : ∀ {r' key'}, keys.lookup (.version r') = some key' →
      (Keyczar.addEntries C keys r key).lookup (.version r') = some key' := by
    intro r' key' hr'
    rw [Keyczar.lookup_addEntries_version_of_ne]
    · exact hr'
    · rintro rfl
      rw [hr] at hr'
      cases hr'
  have hother : ∀ {r' key'}, keys.lookup (.version r') = some key' → C.hashId key' ≠ C.hashId key := by
    intro r' key' hr' heq
    obtain ⟨found, hfound⟩ := h.complete hr'
    rw [heq, hunused] at hfound
    cases hfound
  have hnew : ∀ {r' key'}, (Keyczar.addEntries C keys r key).lookup (.version r') = some key' →
      key' = key ∨ keys.lookup (.version r') = some key' := by
    intro r' key' hr'
    by_cases heq : r' = r
    · subst heq
      rw [Keyczar.lookup_addEntries_version_self] at hr'
      exact Or.inl (Option.some.inj hr').symm
    · rw [Keyczar.lookup_addEntries_version_of_ne _ _ heq] at hr'
      exact Or.inr hr'
  constructor
  · intro hc r₁ r₂ k₁ k₂ h₁ h₂
    exact hc r₁ r₂ k₁ k₂ (hold h₁) (hold h₂)
  · intro hc r₁ r₂ k₁ k₂ h₁ h₂ heq
    rcases hnew h₁ with rfl | hk₁
    · rcases hnew h₂ with rfl | hk₂
      · rfl
      · exact absurd heq.symm (hother hk₂)
    · rcases hnew h₂ with rfl | hk₂
      · exact absurd heq (hother hk₁)
      · exact hc r₁ r₂ k₁ k₂ hk₁ hk₂ heq

/-- The new version object has no key yet. -/
theorem Live.lookup_next {s : Keyczar κ} (h : Live s) : s.keys.lookup (.version s.heap.next) = none := by
  cases hl : s.keys.lookup (.version s.heap.next) with
  | none => rfl
  | some key => exact absurd (h.version_lt _ (mem_versions_iff.mpr ⟨key, hl⟩)) (Nat.lt_irrefl _)

/-- What a call that returns does to the keys: nothing, or it adds the key of a new version under an identifier not in use. -/
theorem keys_step {s s' : Keyczar κ} {op : Op κ} (hs : step C s op = some (.ok (), s')) :
    s'.keys = s.keys ∨ ∃ key, s.keys.lookup (.hash (C.hashId key)) = none ∧
      s'.keys = Keyczar.addEntries C s.keys s.heap.next key := by
  cases op with
  | addVersion status size generated =>
    rcases addVersion_cases hs with ⟨_, ⟨e, he⟩, _⟩ | ⟨_, ⟨e, he⟩, _⟩ | ⟨_, _, key, hunused, rfl⟩
    · cases he
    · cases he
    · refine Or.inr ⟨key, hunused, ?_⟩
      show Keyczar.addEntries C (addVersionObject s status).keys s.heap.next key = _
      rw [keys_addVersionObject]
  | promote n =>
    rcases promote_cases (Option.some.inj hs) with ⟨⟨e, he⟩, _⟩ | ⟨_, version, hv, ⟨hst, rfl⟩ | ⟨hst, rfl⟩⟩
    · cases he
    · exact Or.inl rfl
    · exact Or.inl rfl
  | demote n =>
    rcases demote_cases (Option.some.inj hs) with ⟨⟨e, he⟩, _⟩ | ⟨_, version, hv, ⟨hst, rfl⟩ | ⟨hst, rfl⟩⟩
    · cases he
    · exact Or.inl rfl
    · exact Or.inl rfl
  | revoke n =>
    rcases revoke_cases (Option.some.inj hs) with ⟨⟨e, he⟩, _⟩ | ⟨_, version, hv, hst, rfl⟩
    · cases he
    · exact Or.inl rfl

theorem Entries.step {s s' : Keyczar κ} {op : Op κ} (h : Entries C s.keys) (hl : Live s)
    (hs : GenericKeyczar.step C s op = some (.ok (), s')) : Entries C s'.keys := by
  rcases keys_step hs with hkeys | ⟨key, _, hkeys⟩
  · rw [hkeys]
    exact h
  · rw [hkeys]
    exact h.addEntries hl.lookup_next key

theorem noClash_step_iff {s s' : Keyczar κ} {op : Op κ} (h : Entries C s.keys) (hl : Live s)
    (hs : step C s op = some (.ok (), s')) : NoClash C s'.keys ↔ NoClash C s.keys := by
  rcases keys_step hs with hkeys | ⟨key, hunused, hkeys⟩
  · rw [hkeys]
  · rw [hkeys]
    exact noClash_addEntries_iff h hl.lookup_next hunused

/-- Every version that has a key is in the metadata. -/
def Listed (s : Keyczar κ) : Prop := ∀ r ∈ s.versions, r ∈ s.metadata.refs

/-- A call that returns leaves every version with a key in the metadata exactly when they were in it and it is no `Revoke`: a
revoked version keeps its key. -/
theorem listed_step_iff {s s' : Keyczar κ} {op : Op κ} (hl : Live s) (hs : step C s op = some (.ok (), s')) :
    Listed s' ↔ Listed s ∧ op.isRevoke = false := by
  cases op with
  | addVersion status size generated =>
    rcases addVersion_cases hs with ⟨_, ⟨e, he⟩, _⟩ | ⟨_, ⟨e, he⟩, _⟩ | ⟨_, _, key, _, rfl⟩
    · cases he
    · cases he
    · refine Iff.trans ?_ (and_iff_left rfl).symm
      constructor
      · intro h r hr
        have hmem := h r (mem_versions_addKey_iff.mpr (Or.inr (by rw [versions_addVersionObject]; exact hr)))
        rcases (hl.mem_refs_addKey_iff status key r).mp hmem with rfl | hmem
        · exact absurd (hl.version_lt _ hr) (Nat.lt_irrefl _)
        · exact hmem
      · intro h r hr
        rw [mem_versions_addKey_iff, versions_addVersionObject] at hr
        exact (hl.mem_refs_addKey_iff status key r).mpr (hr.imp_right (h r))
  | promote n =>
    rcases promote_cases (Option.some.inj hs) with ⟨⟨e, he⟩, _⟩ | ⟨_, version, hv, ⟨hst, rfl⟩ | ⟨hst, rfl⟩⟩
    · cases he
    · exact (and_iff_left rfl).symm
    · exact (and_iff_left rfl).symm
  | demote n =>
    rcases demote_cases (Option.some.inj hs) with ⟨⟨e, he⟩, _⟩ | ⟨_, version, hv, ⟨hst, rfl⟩ | ⟨hst, rfl⟩⟩
    · cases he
    · exact (and_iff_left rfl).symm
    · exact (and_iff_left rfl).symm
  | revoke n =>
    rcases revoke_cases (Option.some.inj hs) with ⟨⟨e, he⟩, _⟩ | ⟨_, version, hv, hst, rfl⟩
    · cases he
    · refine iff_of_false ?_ (fun h => nomatch h.2)
      intro h
      obtain ⟨n', hn'⟩ := (KeyMetadata.mem_refs_iff _ version).mp (h version (hl.listed version (mem_refs_of_getVersion hv)))
      have hold := (hl.erase n).fits n' version hn'
      have hn := hl.fits n version (lookup_of_getVersion hv)
      have heq : n' = n := hold.2.symm.trans hn.2
      subst heq
      rw [AList.lookup_erase] at hn'
      cases hn'

/-! ## Runs of calls that return -/

/-- What holds along every run of calls that return, from a loaded key set. -/
structure Held (C : KeyClass κ ρ) (s₀ : Keyczar κ) (ops : List (Op κ)) (s : Keyczar κ) : Prop where
  live : Live s
  primary : PrimaryKnown s
  entries : Entries C s.keys
  noClash_iff : NoClash C s.keys ↔ NoClash C s₀.keys
  listed_iff : Listed s ↔ ∀ op ∈ ops, op.isRevoke = false

theorem Held.step {s₀ s s' : Keyczar κ} {ops : List (Op κ)} {op : Op κ} (h : Held C s₀ ops s)
    (hs : GenericKeyczar.step C s op = some (.ok (), s')) : Held C s₀ (ops ++ [op]) s' := by
  refine ⟨h.live.step hs, h.primary.step h.live hs, h.entries.step h.live hs, ?_, ?_⟩
  · exact (noClash_step_iff h.entries h.live hs).trans h.noClash_iff
  · rw [listed_step_iff h.live hs, h.listed_iff]
    simp only [List.mem_append, List.mem_singleton, or_imp, forall_and, forall_eq]

theorem held_of_performed {order : DictOrder} {reader : Reader κ} {s₀ s : Keyczar κ} {ops : List (Op κ)}
    (h₀ : init C order reader = .ok s₀) (h : Performed C s₀ ops s) : Held C s₀ ops s := by
  induction h with
  | start =>
    refine ⟨live_of_init h₀, primaryKnown_of_init h₀, entries_of_init h₀, Iff.rfl, ?_⟩
    exact iff_of_true (fun r hr => mem_refs_of_init h₀ hr) nofun
  | step op _ hs ih => exact ih.step hs
  | write order encrypted _ ih =>
    exact ⟨⟨ih.live.fits, ih.live.listed, ih.live.version_lt, ih.live.primary_lt⟩, ih.primary, ih.entries, ih.noClash_iff,
      ih.listed_iff⟩

/-! ## When memory agrees with the metadata -/

/-- The numbers of the versions that have a key are those of the metadata. -/
theorem Mirrored.number_iff {s : Keyczar κ} (hs : Mirrored C s) (n : Int) :
    (∃ r ∈ s.versions, (s.heap.object r).versionNumber = n) ↔ n ∈ s.metadata.versions := by
  constructor
  · rintro ⟨r, hr, rfl⟩
    obtain ⟨n, hn⟩ := (s.metadata.mem_refs_iff r).mp (hs.listed r hr)
    rw [(hs.live.fits n r hn).2]
    exact AList.lookup_isSome.mp (Option.isSome_iff_exists.mpr ⟨r, hn⟩)
  · intro hn
    obtain ⟨r, hr⟩ := Option.isSome_iff_exists.mp (AList.lookup_isSome.mpr hn)
    exact ⟨r, hs.live.listed r ((s.metadata.mem_refs_iff r).mpr ⟨n, hr⟩), (hs.live.fits n r hr).2⟩

theorem versions_eq_filterMap (s : Keyczar κ) :
    s.versions = s.keys.keys.filterMap fun i => match i with
      | .version r => some r
      | _ => none := by
  rw [AList.keys, List.keys, List.filterMap_map]
  rfl

/-- No version is listed twice. -/
theorem nodup_versions (s : Keyczar κ) : s.versions.Nodup := by
  rw [versions_eq_filterMap]
  refine List.Nodup.filterMap ?_ s.keys.keys_nodup
  intro i i' r hi hi'
  cases i with
  | version r₁ =>
    cases i' with
    | version r₂ => rw [Option.some.inj hi, Option.some.inj hi']
    | none => cases hi'
    | hash h => cases hi'
  | none => cases hi
  | hash h => cases hi

/-- A key set whose versions with keys are those of its metadata agrees with it when no identifiers clash. -/
theorem Mirrored.agrees {s : Keyczar κ} (hs : Mirrored C s) (hc : NoClash C s.keys) : AgreesWithMetadata C s := by
  have hmem : ∀ r, r ∈ s.versions ↔ r ∈ s.metadata.refs := fun r => ⟨hs.listed r, hs.live.listed r⟩
  refine ⟨?_, ?_, ?_, ?_⟩
  · exact (List.perm_ext_iff_of_nodup (nodup_versions s) (KeyMetadata.nodup_refs hs.live.fits)).mpr hmem
  · intro i
    constructor
    · rintro ⟨key, hkey⟩
      obtain ⟨n, r, hr, hk, hid⟩ := hs.version_of_hash (Keyczar.getKey_eq_ok_iff.mp hkey)
      exact ⟨r, (s.metadata.mem_refs_iff r).mpr ⟨n, hr⟩, key, Keyczar.getKey_eq_ok_iff.mpr hk, hid⟩
    · rintro ⟨r, _, key, hkey, rfl⟩
      exact ⟨key, Keyczar.getKey_eq_ok_iff.mpr (hs.entries.lookup_hash hc (Keyczar.getKey_eq_ok_iff.mp hkey))⟩
  · intro order encrypted
    obtain ⟨w, hw, hmeta, _⟩ := write_spec order s encrypted
    have hnum : ∀ n, n ∈ w.keyNumbers ↔ n ∈ s.metadata.versions := fun n =>
      (mem_keyNumbers_write hw n).trans (hs.number_iff n)
    refine ⟨w, hw, ?_, hnum, ?_⟩
    · intro n
      rw [mem_keyNumbers_write hw, Written.versionNumbers, hmeta, mem_numbers_toJson]
      simp only [hmem]
      rfl
    · intro reader hread order'
      obtain ⟨s', hs', hcopy⟩ := reload_ok hs hw hread order'
      exact ⟨s', hs', hcopy.sameLookups hs (mirrored_of_init hs') hc⟩
  · intro π publicKey order w hw
    obtain ⟨hcomplete, hnum⟩ := mem_keyNumbers_publicKeyExport hw
    exact ⟨hcomplete, fun n => (hnum n).trans (hs.number_iff n)⟩

/-- A reader of keys that were written under different numbers. -/
def readerOf (w : Written κ) : Reader κ where
  metadata := w.metadata
  isEncryptedReader := true
  getKey _ n := match w.keys.find? (·.1 = n) with
    | some p => .ok p.2
    | none => .error (.keyczarError "Unrecognized Version Number")

/-- What a key set writes is read back by number. -/
theorem Mirrored.readBy_readerOf {s : Keyczar κ} (hs : Mirrored C s) {order : DictOrder} {encrypted : Bool} {w : Written κ}
    (hw : (write order s encrypted).1 = .ok w) : w.ReadBy (readerOf w) := by
  obtain ⟨w', hw', _, hmem⟩ := write_spec order s encrypted
  cases Except.ok.inj (hw.symm.trans hw')
  refine ⟨rfl, fun _ => rfl, ?_⟩
  intro type _ p hp
  obtain ⟨r, hr, hnum, hkey⟩ := (hmem p).mp hp
  unfold readerOf
  dsimp only
  cases hf : w.keys.find? (·.1 = p.1) with
  | none => exact absurd (by simp) (List.find?_eq_none.mp hf p hp)
  | some q =>
    obtain ⟨r', hr', hnum', hkey'⟩ := (hmem q).mp (List.mem_of_find?_eq_some hf)
    have hqp : q.1 = p.1 := by simpa using List.find?_some hf
    have hrr : r' = r := by
      obtain ⟨n, hn⟩ := (s.metadata.mem_refs_iff r).mp (hs.listed r hr)
      obtain ⟨n', hn'⟩ := (s.metadata.mem_refs_iff r').mp (hs.listed r' hr')
      have hnn : n' = n := by
        rw [← (hs.live.fits n r hn).2, ← (hs.live.fits n' r' hn').2, hnum, hnum', hqp]
      rw [hnn, hn] at hn'
      exact (Option.some.inj hn').symm
    rw [hrr, hkey] at hkey'
    exact congrArg Except.ok (Except.ok.inj hkey').symm

/-- When every reload has the same lookups, no two versions with different keys share an identifier: each of them is found by it in
the set that loads it last. -/
theorem Mirrored.noClash_of_agrees {s : Keyczar κ} (hs : Mirrored C s) (h : AgreesWithMetadata C s) : NoClash C s.keys := by
  have hown : ∀ r key, s.keys.lookup (.version r) = some key → s.keys.lookup (.hash (C.hashId key)) = some key := by
    intro r key hr
    obtain ⟨n, hn⟩ := (s.metadata.mem_refs_iff r).mp (hs.listed r (mem_versions_iff.mpr ⟨key, hr⟩))
    obtain ⟨w, hw, _, _, hreload⟩ := h.written asListed false
    have hread := hs.readBy_readerOf hw
    obtain ⟨s₁, hs₁, _⟩ := hreload (readerOf w) hread asListed
    obtain ⟨s₂, hs₂, hcopy⟩ := reload_ok hs hw hread asListed
    cases Except.ok.inj (hs₁.symm.trans hs₂)
    obtain ⟨r', hr', _, _⟩ := hcopy.exists_version hn
    -- the same metadata, with this version loaded last
    obtain ⟨s₃, hs₃, hsame⟩ := hreload (readerOf w) hread (listedLast r')
    obtain ⟨s₄, hs₄, hcopy'⟩ := reload_ok hs hw hread (listedLast r')
    cases Except.ok.inj (hs₃.symm.trans hs₄)
    have hmeta : s₃.metadata = s₁.metadata := by
      have h₁ := Keyczar.readMetadata_of_init hs₁
      have h₃ := Keyczar.readMetadata_of_init hs₃
      exact (Prod.mk.inj (Except.ok.inj (h₃.symm.trans h₁))).1
    rw [← hmeta] at hr'
    have hkey : s₃.keys.lookup (.version r') = some key := (hcopy'.key hn hr').trans hr
    have hfound := lookup_hash_of_listedLast hs₃ ((s₃.metadata.mem_refs_iff r').mpr ⟨n, hr'⟩) hkey
    have := hsame.hash (C.hashId key)
    rw [Keyczar.getKey_eq_ok_iff.mpr hfound] at this
    exact Keyczar.getKey_eq_ok_iff.mp this.symm
  intro r r' key key' hr hr' heq
  have h1 := hown r key hr
  rw [heq, hown r' key' hr'] at h1
  exact (Option.some.inj h1).symm

/-- After a run of calls that return, memory agrees with the metadata exactly when nothing was revoked in it and no two versions
that were loaded with different keys share a hash identifier. -/
theorem agreesWithMetadata_iff (C : KeyClass κ ρ) (order : DictOrder) (reader : Reader κ) (s₀ s : Keyczar κ) (ops : List (Op κ))
    (h₀ : init C order reader = .ok s₀) (h : Performed C s₀ ops s) :
    AgreesWithMetadata C s ↔
      (∀ op ∈ ops, op.isRevoke = false) ∧
      ∀ r ∈ s₀.metadata.refs, ∀ r' ∈ s₀.metadata.refs, ∀ key key', s₀.getKey (.version r) = .ok key →
        s₀.getKey (.version r') = .ok key' → C.hashId key = C.hashId key' → key = key' := by
  have hheld := held_of_performed h₀ h
  have hclash : NoClash C s₀.keys ↔ ∀ r ∈ s₀.metadata.refs, ∀ r' ∈ s₀.metadata.refs, ∀ key key',
      s₀.getKey (.version r) = .ok key → s₀.getKey (.version r') = .ok key' → C.hashId key = C.hashId key' → key = key' := by
    simp only [Keyczar.getKey_eq_ok_iff]
    constructor
    · intro hc r _ r' _ key key' hr hr'
      exact hc r r' key key' hr hr'
    · intro hc r r' key key' hr hr'
      exact hc r (mem_refs_of_init h₀ (mem_versions_iff.mpr ⟨key, hr⟩)) r'
        (mem_refs_of_init h₀ (mem_versions_iff.mpr ⟨key', hr'⟩)) key key' hr hr'
  rw [← hclash, ← hheld.noClash_iff, ← hheld.listed_iff]
  constructor
  · intro hagrees
    have hlisted : Listed s := fun r hr => hagrees.versions.mem_iff.mp hr
    exact ⟨hlisted, Mirrored.noClash_of_agrees ⟨hheld.live, hheld.primary, hlisted, hheld.entries⟩ hagrees⟩
  · rintro ⟨hlisted, hc⟩
    exact Mirrored.agrees ⟨hheld.live, hheld.primary, hlisted, hheld.entries⟩ hc

/-- The small key set with its version demoted twice and revoked. -/
def revokedSet : Keyczar HmacKey := (revoke (demote (demote smallSet 1).2 1).2 1).2

theorem performed_revokedSet : Performed (hmacKeys Primitives.plain) smallSet [.demote 1, .demote 1, .revoke 1] revokedSet :=
  ((Performed.start.step (.demote 1) rfl).step (.demote 1) rfl).step (.revoke 1) rfl

/-- The small key set agrees with its metadata after its version is demoted. -/
theorem agreesWithMetadata_iff_smallSet :
    AgreesWithMetadata (hmacKeys Primitives.plain) (demote smallSet 1).2 := by
  refine (agreesWithMetadata_iff (hmacKeys Primitives.plain) asListed smallReader smallSet _ [.demote 1] init_smallReader
    (Performed.start.step (.demote 1) rfl)).mpr ⟨?_, ?_⟩
  · intro op hop
    rw [List.mem_singleton.mp hop]
    rfl
  · intro r hr r' hr' key key' hkey hkey' _
    have h : r = r' := (List.mem_singleton.mp hr).trans (List.mem_singleton.mp hr').symm
    subst h
    exact Except.ok.inj (hkey.symm.trans hkey')

/-- A revoked key is still listed, found under its identifier, and written, though the metadata that is written lists nothing. -/
theorem revoked_key_is_written :
    init (hmacKeys Primitives.plain) asListed smallReader = .ok smallSet ∧
    Performed (hmacKeys Primitives.plain) smallSet [.demote 1, .demote 1, .revoke 1] revokedSet ∧
    revokedSet.metadata.refs = [] ∧ revokedSet.versions = [0] ∧
    revokedSet.getKey (.hash ((hmacKeys Primitives.plain).hashId smallKey)) = .ok smallKey ∧
    (∃ w, (write asListed revokedSet false).1 = .ok w ∧ w.keys = [(1, smallKey)] ∧ w.metadata.versions = []) ∧
    ¬ AgreesWithMetadata (hmacKeys Primitives.plain) revokedSet := by
  refine ⟨init_smallReader, performed_revokedSet, rfl, rfl, rfl, ⟨_, rfl, rfl, rfl⟩, ?_⟩
  intro h
  have hlen := h.versions.length_eq
  cases hlen

end GenericKeyczar

end Python
