import Keyczar.Cpp.KeysetLoad

/-!
# Histories of a key set

What callers can do with a key set, call after call, whatever each of them answers.
-/

namespace Cpp

/-- A call on a key set, with its arguments and the keys that the generator, or a file, gives. -/
inductive Call where
  | generateKey (status : KeyStatus) (generated : List (Option Key))
  | importPrivateKey (status : KeyStatus) (imported : Option Key)
  | promoteKey (versionNumber : Int)
  | demoteKey (versionNumber : Int)
  | revokeKey (versionNumber : Int)

namespace ManagedKeyset

variable {P : Primitives}

/-- The state after a call, whatever the call answers or throws; `none` when it does not return. -/
def call (P : Primitives) (s : ManagedKeyset) : Call → Option ManagedKeyset
  | .generateKey status generated => (s.generateKey P status generated).map Prod.snd
  | .importPrivateKey status imported => (s.importPrivateKey P status imported).map Prod.snd
  | .promoteKey n => some (s.promoteKey n).2
  | .demoteKey n => some (s.demoteKey n).2
  | .revokeKey n => some (s.revokeKey P n).2

/-- The numbers of the versions in the metadata. -/
def numbers (s : ManagedKeyset) : List Int := s.metadata.keyVersionsMap.entries.map Prod.fst

/-- The numbers of the versions that a call added. -/
def newNumbers (s s' : ManagedKeyset) : List Int := s'.numbers.filter fun n => (s.metadata.getVersion n).isNone

/-- If a call counted a version, there was room on the counter. -/
def HasRoom (s s' : ManagedKeyset) : Prop :=
  s'.metadata.nextKeyVersionNumber ≠ s.metadata.nextKeyVersionNumber → s.metadata.nextKeyVersionNumber + 1 < 2 ^ 31

/-- Calls that returned lead from one state to another; `assigned` are the numbers there were at first, and all that were given to a
version since. -/
inductive History (P : Primitives) (s₀ : ManagedKeyset) : List Int → ManagedKeyset → Prop where
  | start : History P s₀ s₀.numbers s₀
  | call {assigned : List Int} {s s' : ManagedKeyset} (c : Call) : History P s₀ assigned s → s.call P c = some s' → HasRoom s s' →
    History P s₀ (assigned ++ newNumbers s s') s'

/-! ## One call -/

/-- The key that `GenerateKey` finds has a hash that is not in use. -/
theorem generateUnusedKey_spec {s : ManagedKeyset} {generated : List (Option Key)} {key : Key}
    (h : s.generateUnusedKey P generated = some (some key)) : ∃ hash, key.hash P = some hash ∧ s.hashMap hash = none := by
  induction generated with
  | nil => cases h
  | cons first generated ih =>
    cases first with
    | none => cases h
    | some first =>
      unfold generateUnusedKey at h
      split at h
      · cases h
      · rename_i hash hhash
        split at h
        · exact ih h
        · rename_i hfree
          cases h
          exact ⟨hash, hhash, Option.not_isSome_iff_eq_none.mp hfree⟩

/-- What `GenerateKey` comes to: nothing, or the addition of a key whose hash is not in use. -/
theorem generateKey_cases {s : ManagedKeyset} {status : KeyStatus} {generated : List (Option Key)}
    {r : Except Exception Int × ManagedKeyset} (h : s.generateKey P status generated = some r) :
    r = (.ok 0, s) ∨ ∃ key hash, s.generateUnusedKey P generated = some (some key) ∧ key.hash P = some hash ∧
      s.hashMap hash = none ∧ s.addNewKey P status key = some r := by
  unfold ManagedKeyset.generateKey at h
  split at h
  · cases h
    exact Or.inl rfl
  · split at h
    · cases h
    · cases h
      exact Or.inl rfl
    · rename_i key hkey
      obtain ⟨hash, hhash, hfree⟩ := generateUnusedKey_spec hkey
      exact Or.inr ⟨key, hash, hkey, hhash, hfree, h⟩

/-- `ImportPrivateKey` comes to the same. -/
theorem importPrivateKey_cases {s : ManagedKeyset} {status : KeyStatus} {imported : Option Key}
    {r : Except Exception Int × ManagedKeyset} (h : s.importPrivateKey P status imported = some r) :
    r = (.ok 0, s) ∨ ∃ key hash, imported = some key ∧ key.hash P = some hash ∧ s.hashMap hash = none ∧
      s.addNewKey P status key = some r := by
  unfold ManagedKeyset.importPrivateKey at h
  split at h
  · cases h
    exact Or.inl rfl
  · split at h
    · cases h
      exact Or.inl rfl
    · rename_i key
      split at h
      · cases h
        exact Or.inl rfl
      · rename_i hash hhash
        split at h
        · cases h
          exact Or.inl rfl
        · rename_i hfree
          exact Or.inr ⟨key, hash, rfl, hhash, Option.not_isSome_iff_eq_none.mp hfree, h⟩

/-- What a call does to a key set. -/
inductive Effect (P : Primitives) (s : ManagedKeyset) : ManagedKeyset → Prop where
  | statuses {s' : ManagedKeyset} : SameKeys s s' → Effect P s s'
  | newKey {status : KeyStatus} {key : Key} {result : Except Exception Int} {s' : ManagedKeyset} :
    NewKey P s status key result s' → Effect P s s'
  | revoked {n : Int} {key : Key} {hash : Bytes} : s.getKey n = some key → key.hash P = some hash → Effect P s (s.revoked n hash)

theorem Consistent.addNewKey_effect {s s' : ManagedKeyset} (h : Consistent P s) {status : KeyStatus} {key : Key} {hash : Bytes}
    {result : Except Exception Int} (hhash : key.hash P = some hash) (hfree : s.hashMap hash = none)
    (hadd : s.addNewKey P status key = some (result, s')) (hroom : HasRoom s s') : Consistent P s' ∧ Effect P s s' := by
  have hbound : s.metadata.nextKeyVersionNumber + 1 < 2 ^ 31 := by
    refine hroom ?_
    rw [h.addNewKey_counter hadd]
    intro heq
    have hdvd := Int.dvd_bmod_sub_self (x := s.metadata.nextKeyVersionNumber + 1) (m := 2 ^ 32)
    rw [show (s.metadata.nextKeyVersionNumber + 1).bmod (2 ^ 32) = s.metadata.nextKeyVersionNumber from heq] at hdvd
    omega
  obtain ⟨result', s'', heq, hnew, hconsistent⟩ := h.addNewKey hbound status hhash hfree
  rw [hadd] at heq
  cases heq
  exact ⟨hconsistent, .newKey hnew⟩

/-- A call keeps the key set consistent. -/
theorem Consistent.call {s s' : ManagedKeyset} (h : Consistent P s) {c : Call} (hcall : s.call P c = some s')
    (hroom : HasRoom s s') : Consistent P s' ∧ Effect P s s' := by
  cases c with
  | generateKey status generated =>
    obtain ⟨⟨result, t⟩, hgenerate, rfl⟩ := Option.map_eq_some_iff.mp hcall
    rcases generateKey_cases hgenerate with heq | ⟨key, hash, -, hhash, hfree, hadd⟩
    · cases heq
      exact ⟨h, .statuses (sameKeys_refl s)⟩
    · exact h.addNewKey_effect hhash hfree hadd hroom
  | importPrivateKey status imported =>
    obtain ⟨⟨result, t⟩, himport, rfl⟩ := Option.map_eq_some_iff.mp hcall
    rcases importPrivateKey_cases himport with heq | ⟨key, hash, -, hhash, hfree, hadd⟩
    · cases heq
      exact ⟨h, .statuses (sameKeys_refl s)⟩
    · exact h.addNewKey_effect hhash hfree hadd hroom
  | promoteKey n =>
    cases hcall
    exact ⟨h.promoteKey n, .statuses (sameKeys_promoteKey s n)⟩
  | demoteKey n =>
    cases hcall
    exact ⟨h.demoteKey n, .statuses (sameKeys_demoteKey s n)⟩
  | revokeKey n =>
    cases hcall
    refine ⟨h.revokeKey n, ?_⟩
    have hrefine := h.revokeKey_spec n
    split at hrefine
    · obtain ⟨key, hash, hk, hhash, heq, -⟩ := hrefine
      rw [heq]
      exact .revoked hk hhash
    · rw [hrefine]
      exact .statuses (sameKeys_refl s)

theorem isSome_getVersion_iff (s : ManagedKeyset) (n : Int) : (s.metadata.getVersion n).isSome ↔ s.lifecycle.status n ≠ none := by
  unfold lifecycle
  rw [Option.isSome_iff_ne_none, not_iff_not, Option.map_eq_none_iff]

/-- With room on the counter every call returns, except a `GenerateKey` that the generator gives nothing but hashes in use. -/
theorem Consistent.call_isSome {s : ManagedKeyset} (h : Consistent P s) (hbound : s.metadata.nextKeyVersionNumber + 1 < 2 ^ 31)
    {c : Call} (hc : ∀ status generated, c = .generateKey status generated → s.generateUnusedKey P generated ≠ none) :
    (s.call P c).isSome := by
  have hadd : ∀ {status : KeyStatus} {key : Key} {hash : Bytes}, key.hash P = some hash → s.hashMap hash = none →
      ((s.addNewKey P status key).map Prod.snd).isSome := by
    intro status key hash hhash hfree
    obtain ⟨result, s', heq, -⟩ := h.addNewKey hbound status hhash hfree
    rw [heq]
    rfl
  cases c with
  | generateKey status generated =>
    show ((s.generateKey P status generated).map Prod.snd).isSome
    unfold ManagedKeyset.generateKey
    by_cases htype : s.metadata.keyType = .undefined
    · rw [if_pos htype]
      rfl
    · rw [if_neg htype]
      cases hfound : s.generateUnusedKey P generated with
      | none => exact absurd hfound (hc status generated rfl)
      | some found =>
        cases found with
        | none => rfl
        | some key =>
          obtain ⟨hash, hhash, hfree⟩ := generateUnusedKey_spec hfound
          exact hadd hhash hfree
  | importPrivateKey status imported =>
    show ((s.importPrivateKey P status imported).map Prod.snd).isSome
    unfold ManagedKeyset.importPrivateKey
    by_cases htype : s.metadata.keyType = .undefined
    · rw [if_pos htype]
      rfl
    · rw [if_neg htype]
      cases imported with
      | none => rfl
      | some key =>
        dsimp only
        cases hhash : key.hash P with
        | none => rfl
        | some hash =>
          dsimp only
          by_cases hused : (s.hashMap hash).isSome
          · rw [if_pos hused]
            rfl
          · rw [if_neg hused]
            exact hadd hhash (Option.not_isSome_iff_eq_none.mp hused)
  | promoteKey n => rfl
  | demoteKey n => rfl
  | revokeKey n => rfl

/-- The numbers after a call: the counter does not go back, and a version that is new has the number it showed. -/
theorem Effect.numbers {s s' : ManagedKeyset} (h : Effect P s s') (hs : Statuses s) :
    s.metadata.nextKeyVersionNumber ≤ s'.metadata.nextKeyVersionNumber ∧
    ∀ n, (s'.metadata.getVersion n).isSome → (s.metadata.getVersion n).isSome ∨
      n = s.metadata.nextKeyVersionNumber ∧ n < s'.metadata.nextKeyVersionNumber := by
  cases h with
  | statuses hsame =>
    refine ⟨Int.le_of_eq hsame.next_eq.symm, ?_⟩
    intro n hn
    rw [hsame.isSome_getVersion] at hn
    exact Or.inl hn
  | newKey hnew =>
    have hnext := hnew.next_eq
    refine ⟨by omega, ?_⟩
    intro n hn
    rw [isSome_getVersion_iff, hnew.lifecycle_eq] at hn
    rcases hs.sound.status_add hn with rfl | hold
    · refine Or.inr ⟨rfl, ?_⟩
      rw [hnext]
      exact Int.lt_succ _
    · exact Or.inl ((isSome_getVersion_iff s n).mpr hold)
  | revoked hk hhash =>
    refine ⟨Int.le_of_eq (s.metadata.nextKeyVersionNumber_removeVersion _).symm, ?_⟩
    intro n hn
    rw [show (s.revoked _ _).metadata.getVersion n = _ from s.metadata.getVersion_removeVersion _ n] at hn
    split at hn
    · cases hn
    · exact Or.inl hn

theorem mem_numbers_iff (s : ManagedKeyset) (n : Int) : n ∈ s.numbers ↔ (s.metadata.getVersion n).isSome := by
  unfold numbers
  rw [List.mem_map, Option.isSome_iff_exists]
  constructor
  · rintro ⟨⟨m, v⟩, hmem, rfl⟩
    exact ⟨v, s.metadata.keyVersionsMap.mem_entries_iff.mp hmem⟩
  · rintro ⟨v, hv⟩
    exact ⟨(n, v), s.metadata.keyVersionsMap.mem_entries_iff.mpr hv, rfl⟩

theorem nodup_numbers (s : ManagedKeyset) : s.numbers.Nodup := by
  refine List.Pairwise.map Prod.fst ?_ s.metadata.keyVersionsMap.sorted
  intro a b hlt
  exact ne_of_lt hlt

/-! ## The history -/

/-- The numbers given out in a history: they are below the counter, none was given twice, and they include those of the versions
there are. -/
structure Assigned (assigned : List Int) (s : ManagedKeyset) : Prop where
  lt_next : ∀ n ∈ assigned, n < s.metadata.nextKeyVersionNumber
  nodup : assigned.Nodup
  mem : ∀ n, (s.metadata.getVersion n).isSome → n ∈ assigned

theorem Assigned.call {assigned : List Int} {s s' : ManagedKeyset} (h : Assigned assigned s) (heffect : Effect P s s')
    (hs : Statuses s) : Assigned (assigned ++ newNumbers s s') s' := by
  obtain ⟨hle, hnumbers⟩ := heffect.numbers hs
  have hnew : ∀ n ∈ newNumbers s s', n = s.metadata.nextKeyVersionNumber ∧ n < s'.metadata.nextKeyVersionNumber := by
    intro n hn
    obtain ⟨hmem, hnone⟩ := List.mem_filter.mp hn
    rcases hnumbers n ((mem_numbers_iff s' n).mp hmem) with hold | hnext
    · rw [Option.isSome_iff_ne_none] at hold
      exact absurd (Option.isNone_iff_eq_none.mp hnone) hold
    · exact hnext
  refine ⟨?_, ?_, ?_⟩
  · intro n hn
    rcases List.mem_append.mp hn with hold | hmem
    · exact Int.lt_of_lt_of_le (h.lt_next n hold) hle
    · exact (hnew n hmem).2
  · refine List.nodup_append.mpr ⟨h.nodup, s'.nodup_numbers.filter _, ?_⟩
    intro n hn m hm heq
    have hlt := h.lt_next n hn
    rw [heq, (hnew m hm).1] at hlt
    exact Int.lt_irrefl _ hlt
  · intro n hn
    by_cases hold : (s.metadata.getVersion n).isSome
    · exact List.mem_append_left _ (h.mem n hold)
    · refine List.mem_append_right _ (List.mem_filter.mpr ⟨(mem_numbers_iff s' n).mpr hn, ?_⟩)
      exact Option.isNone_iff_eq_none.mpr (Option.not_isSome_iff_eq_none.mp hold)

theorem History.consistent {s₀ s : ManagedKeyset} {assigned : List Int} (h : History P s₀ assigned s) (hs : Consistent P s₀) :
    Consistent P s ∧ Assigned assigned s := by
  induction h with
  | start =>
    refine ⟨hs, ?_, s₀.nodup_numbers, fun n hn => (mem_numbers_iff s₀ n).mpr hn⟩
    intro n hn
    exact hs.statuses.sound.lt_next n ((isSome_getVersion_iff s₀ n).mp ((mem_numbers_iff s₀ n).mp hn))
  | call c _ hcall hroom ih =>
    obtain ⟨hconsistent, hassigned⟩ := ih
    obtain ⟨hnext, heffect⟩ := hconsistent.call hcall hroom
    exact ⟨hnext, hassigned.call heffect hconsistent.statuses⟩

/-- At every point of a history of a key set that was read, at most one version is primary and the primary number is its number, or
0 when there is none; the keys are those of the versions in the metadata; and the next number is above all numbers ever assigned, none
of them twice. -/
theorem lifecycle_of_history {reader : KeysetReader} {value : MetadataValue} {s₀ s : ManagedKeyset} {assigned : List Int}
    (hvalue : reader.readMetadata = some value) (hnum : value.Numbered) (hread : read P reader true = some (.ok (some s₀)))
    (h : History P s₀ assigned s) :
    (∀ n m v w, s.metadata.getVersion n = some v → s.metadata.getVersion m = some w →
      v.keyStatus = .primary → w.keyStatus = .primary → n = m) ∧
    (s.primaryKeyVersionNumber = 0 ∧ (∀ n v, s.metadata.getVersion n = some v → v.keyStatus ≠ .primary) ∨
      0 < s.primaryKeyVersionNumber ∧ ∃ v, s.metadata.getVersion s.primaryKeyVersionNumber = some v ∧ v.keyStatus = .primary) ∧
    (∀ n, (s.getKey n).isSome = (s.metadata.getVersion n).isSome) ∧
    (∀ n ∈ assigned, n < s.metadata.nextKeyVersionNumber) ∧
    (∀ n, (s.metadata.getVersion n).isSome → n ∈ assigned) ∧
    assigned.Nodup := by
  obtain ⟨hs, hassigned⟩ := h.consistent (consistent_of_read hvalue hnum hread)
  have hprimary : ∀ {n v}, s.metadata.getVersion n = some v → v.keyStatus = .primary → s.lifecycle.status n = some .primary := by
    intro n v hv hst
    rw [status_lifecycle_of_getVersion hv, hst]
    rfl
  refine ⟨?_, ?_, hs.keys, hassigned.lt_next, hassigned.mem, hassigned.nodup⟩
  · intro n m v w hv hw hvst hwst
    exact hs.statuses.sound.primary_unique (hprimary hv hvst) (hprimary hw hwst)
  · rcases hs.statuses.getPrimaryKeyVersion with ⟨hzero, -⟩ | ⟨hne, v, hv, hst⟩
    · refine Or.inl ⟨hzero, ?_⟩
      intro n v hv hst
      have hp := (hs.statuses.sound.primary_iff n).mpr (hprimary hv hst)
      rw [show s.lifecycle.primary = none from if_pos hzero] at hp
      cases hp
    · exact Or.inr ⟨hs.statuses.positive hv, v, hv, hst⟩

/-- A reader of a key set with one version. -/
def smallReader : KeysetReader where
  readMetadata := some ⟨"small", "HMAC", "SIGN_AND_VERIFY", false, none, [⟨1, "PRIMARY", false⟩]⟩
  readKey _ _ := some (.other [1] fun _ _ => false)

/-- The key set that is read. -/
def smallKeyset : ManagedKeyset where
  metadata :=
    { name := "small"
      keyType := .hmac
      keyPurpose := .signAndVerify
      encrypted := false
      nextKeyVersionNumber := 2
      keyVersionsMap := OrderedMap.empty.insert 1 ⟨1, .primary, false⟩ }
  primaryKeyVersionNumber := 1
  versionNumberMap := OrderedMap.empty.insert 1 (.other [1] fun _ _ => false)
  hashMap := Function.update (fun _ => none) [1] (some (.other [1] fun _ _ => false))

theorem lifecycle_of_history_smallReader :
    ∃ s assigned, History Primitives.plain smallKeyset assigned s ∧ s.primaryKeyVersionNumber = 2 ∧
      (∀ n, (s.getKey n).isSome = (s.metadata.getVersion n).isSome) ∧ assigned.Nodup := by
  have hread : read Primitives.plain smallReader true = some (.ok (some smallKeyset)) := rfl
  have hnum : MetadataValue.Numbered ⟨"small", "HMAC", "SIGN_AND_VERIFY", false, none, [⟨1, "PRIMARY", false⟩]⟩ := by
    refine ⟨?_, nofun, ?_⟩ <;> simp
  have hstep : ∃ s, smallKeyset.call Primitives.plain (.generateKey .primary [some (.other [2] fun _ _ => false)]) = some s ∧
      s.primaryKeyVersionNumber = 2 := ⟨_, rfl, rfl⟩
  obtain ⟨s, hs, hprimary⟩ := hstep
  have hhistory := History.call _ History.start hs (by intro _; decide)
  obtain ⟨-, -, hkeys, -, -, hnodup⟩ := lifecycle_of_history rfl hnum hread hhistory
  exact ⟨s, _, hhistory, hprimary, hkeys, hnodup⟩

end ManagedKeyset

end Cpp
