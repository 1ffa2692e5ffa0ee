import Keyczar.Cpp.KeysetHashes

/-!
# Additions that are refused

`GenerateKey` and `ImportPrivateKey` answer 0 for a key that they do not add. They give the version a number from the counter, which a
file may have set to the number of a version there is, after they made room for a primary one. A debug build evaluates what stands in a
`DCHECK`, and aborts where it fails.
-/

namespace Cpp

/-- How the program was built: `NDEBUG` is defined in a release build. -/
inductive Build where
  | release | debug
  deriving DecidableEq, Repr

namespace ManagedKeyset

variable (P : Primitives) (b : Build) (s : ManagedKeyset)

/-! ## The operations in a build -/

/-- `RemoveKeyVersion`. -/
def removeKeyVersion (versionNumber : Int) : Bool × ManagedKeyset :=
  if versionNumber ≤ 0 ∨ (s.metadata.getVersion versionNumber).isNone then (false, s)
  else
    let (removed, metadata) := s.metadata.removeVersion versionNumber
    (removed, { s with metadata })

/-- `DCHECK` of a call that changes the key set; `none` when it aborts. -/
def dcheck (check : ManagedKeyset → Bool × ManagedKeyset) : Option ManagedKeyset :=
  match b with
  | .release => some s
  | .debug =>
    match check s with
    | (true, s) => some s
    | (false, _) => none

/-- `PromoteKey` and `DemoteKey` come to `NOTREACHED`. -/
def notReached (versionNumber : Int) : Bool :=
  0 < versionNumber && (s.metadata.getVersion versionNumber).any fun keyVersion => keyVersion.keyStatus = .undefined

/-- `PromoteKey`; `none` when it aborts. -/
def promoteKeyIn (versionNumber : Int) : Option (Bool × ManagedKeyset) :=
  if b = .debug ∧ s.notReached versionNumber then none else some (s.promoteKey versionNumber)

/-- `DemoteKey`. -/
def demoteKeyIn (versionNumber : Int) : Option (Bool × ManagedKeyset) :=
  if b = .debug ∧ s.notReached versionNumber then none else some (s.demoteKey versionNumber)

/-- The primary version makes room for a new one. -/
def makeRoomIn (status : KeyStatus) : Option (Bool × ManagedKeyset) :=
  if status = .primary ∧ 0 < s.primaryKeyVersionNumber then s.demoteKeyIn b s.primaryKeyVersionNumber else some (true, s)

/-- The end of `GenerateKey` and `ImportPrivateKey`. -/
def addNewKeyIn (status : KeyStatus) (key : Key) : Option (Except Exception Int × ManagedKeyset) :=
  match s.makeRoomIn b status with
  | none => none
  | some (false, s) => some (.ok 0, s)
  | some (true, s) =>
    match s.addKeyVersion ⟨0, status, false⟩ with
    | none => none
    | some (versionNumber, s) =>
      if versionNumber = 0 then some (.ok 0, s)
      else
        match s.addKey P key versionNumber with
        | (.error e, s) => some (.error e, s)
        | (.ok false, s) => (dcheck b s fun s => s.removeKeyVersion versionNumber).map fun s => (.ok 0, s)
        | (.ok true, s) => some (.ok versionNumber, s)

/-- `GenerateKey`; `none` when it does not return. -/
def generateKeyIn (status : KeyStatus) (generated : List (Option Key)) : Option (Except Exception Int × ManagedKeyset) :=
  if s.metadata.keyType = .undefined then some (.ok 0, s)
  else
    match s.generateUnusedKey P generated with
    | none => none
    | some none => some (.ok 0, s)
    | some (some key) => s.addNewKeyIn P b status key

/-- `ImportPrivateKey` of the key that a file gives. -/
def importPrivateKeyIn (status : KeyStatus) (imported : Option Key) : Option (Except Exception Int × ManagedKeyset) :=
  if s.metadata.keyType = .undefined then some (.ok 0, s)
  else
    match imported with
    | none => some (.ok 0, s)
    | some key =>
      match key.hash P with
      | none => some (.ok 0, s)
      | some hash => if (s.hashMap hash).isSome then some (.ok 0, s) else s.addNewKeyIn P b status key

/-- A step of a run, in a build. -/
def stepIn : Step → Option ManagedKeyset
  | .addKey key n => some (s.addKey P key n).2
  | .call (.generateKey status generated) => (s.generateKeyIn P b status generated).map Prod.snd
  | .call (.importPrivateKey status imported) => (s.importPrivateKeyIn P b status imported).map Prod.snd
  | .call (.promoteKey n) => (s.promoteKeyIn b n).map Prod.snd
  | .call (.demoteKey n) => (s.demoteKeyIn b n).map Prod.snd
  | .call (.revokeKey n) => some (s.revokeKey P n).2

/-- Steps that returned lead from one state to another. -/
inductive RunIn (s₀ : ManagedKeyset) : ManagedKeyset → Prop where
  | start : RunIn s₀ s₀
  | step {s s' : ManagedKeyset} (c : Step) : RunIn s₀ s → s.stepIn P b c = some s' → RunIn s₀ s'

variable {P b s}

/-! ### Release builds -/

theorem makeRoomIn_release (status : KeyStatus) : s.makeRoomIn .release status =
    some (if status = .primary ∧ 0 < s.primaryKeyVersionNumber then s.demoteKey s.primaryKeyVersionNumber else (true, s)) := by
  unfold makeRoomIn
  split
  · exact if_neg nofun
  · rfl

theorem addNewKeyIn_release (status : KeyStatus) (key : Key) : s.addNewKeyIn P .release status key = s.addNewKey P status key := by
  unfold addNewKeyIn ManagedKeyset.addNewKey
  rw [makeRoomIn_release]
  obtain ⟨demoted, t⟩ := if status = .primary ∧ 0 < s.primaryKeyVersionNumber then s.demoteKey s.primaryKeyVersionNumber
    else (true, s)
  cases demoted with
  | false => rfl
  | true =>
    dsimp only
    rw [if_neg (by decide)]
    cases t.addKeyVersion ⟨0, status, false⟩ with
    | none => rfl
    | some added =>
      obtain ⟨n, u⟩ := added
      dsimp only
      split
      · rfl
      · obtain ⟨result, v⟩ := u.addKey P key n
        rcases result with e | added
        · rfl
        · cases added <;> rfl

theorem generateKeyIn_release (status : KeyStatus) (generated : List (Option Key)) :
    s.generateKeyIn P .release status generated = s.generateKey P status generated := by
  unfold generateKeyIn ManagedKeyset.generateKey
  by_cases htype : s.metadata.keyType = .undefined
  · rw [if_pos htype, if_pos htype]
  · rw [if_neg htype, if_neg htype]
    rcases s.generateUnusedKey P generated with _ | _ | key
    · rfl
    · rfl
    · exact addNewKeyIn_release status key

theorem importPrivateKeyIn_release (status : KeyStatus) (imported : Option Key) :
    s.importPrivateKeyIn P .release status imported = s.importPrivateKey P status imported := by
  unfold importPrivateKeyIn ManagedKeyset.importPrivateKey
  by_cases htype : s.metadata.keyType = .undefined
  · rw [if_pos htype, if_pos htype]
  · rw [if_neg htype, if_neg htype]
    cases imported with
    | none => rfl
    | some key =>
      dsimp only
      cases key.hash P with
      | none => rfl
      | some hash => exact if_congr Iff.rfl rfl (addNewKeyIn_release status key)

theorem promoteKeyIn_release (n : Int) : s.promoteKeyIn .release n = some (s.promoteKey n) := if_neg nofun

theorem demoteKeyIn_release (n : Int) : s.demoteKeyIn .release n = some (s.demoteKey n) := if_neg nofun

/-- In a release build the steps are those of the key set. -/
theorem stepIn_release (c : Step) : s.stepIn P .release c = s.step P c := by
  rcases c with ⟨key, n⟩ | c
  · rfl
  · cases c with
    | generateKey status generated => exact congrArg (Option.map Prod.snd) (generateKeyIn_release status generated)
    | importPrivateKey status imported => exact congrArg (Option.map Prod.snd) (importPrivateKeyIn_release status imported)
    | promoteKey n => exact congrArg (Option.map Prod.snd) (promoteKeyIn_release n)
    | demoteKey n => exact congrArg (Option.map Prod.snd) (demoteKeyIn_release n)
    | revokeKey n => rfl

/-! ## What is kept in every run -/

/-- What reading establishes, whatever the counter is: the primary number is that of a primary version, every key is that of a version,
and can be removed by its hash. -/
structure Tidy (P : Primitives) (s : ManagedKeyset) : Prop where
  primary : 0 < s.primaryKeyVersionNumber →
    ∃ v, s.metadata.getVersion s.primaryKeyVersionNumber = some v ∧ v.keyStatus = .primary
  version : ∀ {n key}, s.getKey n = some key → (s.metadata.getVersion n).isSome
  hashes : KeyHashes P s

/-- The keys stay those of versions while versions are only added. -/
theorem Tidy.of_sameMaps {s t : ManagedKeyset} (h : Tidy P s) (hsame : SameMaps s t)
    (hprimary : 0 < t.primaryKeyVersionNumber →
      ∃ v, t.metadata.getVersion t.primaryKeyVersionNumber = some v ∧ v.keyStatus = .primary) : Tidy P t := by
  refine ⟨hprimary, ?_, h.hashes.congr hsame.versionNumberMap_eq hsame.hashMap_eq⟩
  intro n key hk
  unfold getKey at hk
  rw [hsame.versionNumberMap_eq] at hk
  exact hsame.version n (h.version hk)

/-- A version that is not primary is not the one that the primary number names. -/
theorem Tidy.ne_primary {s : ManagedKeyset} (h : Tidy P s) {n : Int} {v : KeyVersion} (hv : s.metadata.getVersion n = some v)
    (hst : v.keyStatus ≠ .primary) (hp : 0 < s.primaryKeyVersionNumber) : s.primaryKeyVersionNumber ≠ n := by
  rintro rfl
  obtain ⟨w, hw, hwst⟩ := h.primary hp
  rw [hv] at hw
  cases hw
  exact hst hwst

theorem Tidy.setKeyStatus {s : ManagedKeyset} (h : Tidy P s) {n : Int} {v : KeyVersion} (hv : s.metadata.getVersion n = some v)
    (hst : v.keyStatus ≠ .primary) (status : KeyStatus) : Tidy P (s.setKeyStatus n status) := by
  refine h.of_sameMaps (sameKeys_setKeyStatus s n status).sameMaps ?_
  intro hp
  show ∃ w, (s.metadata.setKeyStatus n status).getVersion s.primaryKeyVersionNumber = some w ∧ _
  rw [KeysetMetadata.getVersion_setKeyStatus, if_neg (h.ne_primary hv hst hp)]
  exact h.primary hp

/-- When a version there is was made primary, the primary number is its number. -/
theorem updateKeyStatus_primary {s t : ManagedKeyset} {n : Int} (hversion : (s.metadata.getVersion n).isSome)
    (h : s.updateKeyStatus .primary n = (true, t)) :
    ∃ v, t.metadata.getVersion t.primaryKeyVersionNumber = some v ∧ v.keyStatus = .primary := by
  unfold updateKeyStatus at h
  dsimp only at h
  split at h
  · cases h
  · have hstill : ((if s.getPrimaryKeyVersion.isSome then s.setKeyStatus s.primaryKeyVersionNumber .active
        else s).metadata.getVersion n).isSome := by
      split
      · exact ((s.metadata.isSome_getVersion_setKeyStatus _ n .active).trans hversion)
      · exact hversion
    obtain ⟨v, hv⟩ := Option.isSome_iff_exists.mp hstill
    cases h
    refine ⟨{ v with keyStatus := .primary }, ?_, rfl⟩
    refine (KeysetMetadata.getVersion_setKeyStatus _ n n .primary).trans ?_
    rw [if_pos rfl]
    exact congrArg (Option.map fun v : KeyVersion => { v with keyStatus := .primary }) hv

theorem Tidy.promoteKey {s : ManagedKeyset} (h : Tidy P s) (n : Int) : Tidy P (s.promoteKey n).2 := by
  unfold ManagedKeyset.promoteKey
  split
  · exact h
  · split
    · exact h
    · rename_i v hv
      split
      · exact h
      · obtain ⟨updated, t, hupdate⟩ : ∃ updated t, s.updateKeyStatus .primary n = (updated, t) := ⟨_, _, rfl⟩
        have hsame := sameKeys_updateKeyStatus s .primary n
        rw [hupdate] at hsame ⊢
        cases updated with
        | true => exact h.of_sameMaps hsame.sameMaps fun _ => updateKeyStatus_primary (by rw [hv]; rfl) hupdate
        | false =>
          unfold updateKeyStatus at hupdate
          dsimp only at hupdate
          split at hupdate
          · cases hupdate
            exact h
          · cases hupdate
      · rename_i hst
        exact h.setKeyStatus hv (by rw [hst]; decide) .active
      · exact h

theorem Tidy.demoteKey {s : ManagedKeyset} (h : Tidy P s) (n : Int) : Tidy P (s.demoteKey n).2 := by
  unfold ManagedKeyset.demoteKey
  split
  · exact h
  · split
    · exact h
    · rename_i v hv
      split
      · refine h.of_sameMaps (t := { s.setKeyStatus n .active with primaryKeyVersionNumber := 0 }) ?_ ?_
        · have hsame := (sameKeys_setKeyStatus s n .active).sameMaps
          exact ⟨hsame.versionNumberMap_eq, hsame.hashMap_eq, hsame.version⟩
        · intro hp
          exact absurd hp (Int.lt_irrefl 0)
      · rename_i hst
        exact h.setKeyStatus hv (by rw [hst]; decide) .inactive
      · exact h
      · exact h

theorem Tidy.withKey {s : ManagedKeyset} (h : Tidy P s) {key : Key} {n : Int} {hash : Bytes}
    (hversion : (s.metadata.getVersion n).isSome) (hhash : key.hash P = some hash) (hfree : s.hashMap hash = none) :
    Tidy P (s.withKey P key n hash) := by
  refine ⟨h.primary, ?_, h.hashes.withKey hhash hfree n⟩
  intro n' key' hk'
  rw [getKey_withKey] at hk'
  split at hk'
  · rename_i hn
    rw [hn]
    exact hversion
  · exact h.version hk'

theorem Tidy.addKey {s : ManagedKeyset} (h : Tidy P s) (key : Key) (n : Int) : Tidy P (s.addKey P key n).2 := by
  obtain ⟨result, t, hadd⟩ : ∃ result t, s.addKey P key n = (result, t) := ⟨_, _, rfl⟩
  rw [hadd]
  rcases addKey_cases hadd with ⟨-, rfl⟩ | ⟨hash, -, hversion, -, hhash, hfree, rfl, -⟩
  · exact h
  · exact h.withKey hversion hhash hfree

theorem Tidy.revokeKey {s : ManagedKeyset} (h : Tidy P s) (n : Int) : Tidy P (s.revokeKey P n).2 := by
  rcases s.revokeKey_cases (P := P) n with heq | ⟨v, hv, hst, heq⟩
  · rw [heq]
    exact h
  · rw [heq]
    have hinactive : v.keyStatus ≠ .primary := by
      rw [hst]
      decide
    have hprimary : 0 < s.primaryKeyVersionNumber →
        ∃ w, (s.metadata.removeVersion n).2.getVersion s.primaryKeyVersionNumber = some w ∧ w.keyStatus = .primary := by
      intro hp
      rw [KeysetMetadata.getVersion_removeVersion, if_neg (h.ne_primary hv hinactive hp)]
      exact h.primary hp
    have hversion : ∀ {n' key'}, n' ≠ n → s.getKey n' = some key' →
        ((s.metadata.removeVersion n).2.getVersion n').isSome := by
      intro n' key' hne hk'
      rw [KeysetMetadata.getVersion_removeVersion, if_neg hne]
      exact h.version hk'
    have hremoved : KeyHashes P { s with metadata := (s.metadata.removeVersion n).2 } := h.hashes.congr rfl rfl
    cases hk : s.getKey n with
    | none =>
      rw [removeKey_of_none (s := { s with metadata := (s.metadata.removeVersion n).2 }) hk]
      refine ⟨hprimary, ?_, hremoved⟩
      intro n' key' hk'
      refine hversion ?_ hk'
      rintro rfl
      exact nomatch hk.symm.trans (show s.getKey n' = some key' from hk')
    | some key =>
      obtain ⟨hash, hhash, hremove⟩ := hremoved.removeKey (n := n) hk
      rw [hremove]
      refine ⟨hprimary, ?_, hremoved.withoutKey (n := n) hk hhash⟩
      intro n' key' hk'
      rw [getKey_withoutKey] at hk'
      split at hk'
      · cases hk'
      · rename_i hne
        exact hversion hne hk'

/-! ## A version without a number -/

/-- How `AddVersion` ends: the number that the counter shows is taken, or the version gets it. The counter goes on. -/
theorem addVersion_cases {m m' : KeysetMetadata} {status : KeyStatus} {added : Bool} {v : KeyVersion}
    (h : m.addVersion ⟨0, status, false⟩ = some (added, v, m')) :
    0 < m.nextKeyVersionNumber ∧
    ((m.getVersion m.nextKeyVersionNumber).isSome ∧ added = false ∧
        m' = { m with nextKeyVersionNumber := toInt (m.nextKeyVersionNumber + 1) } ∨
      m.getVersion m.nextKeyVersionNumber = none ∧ added = true ∧ v = ⟨m.nextKeyVersionNumber, status, false⟩ ∧
        m' = { withVersion m status with nextKeyVersionNumber := toInt (m.nextKeyVersionNumber + 1) }) := by
  by_cases hpos : 0 < m.nextKeyVersionNumber
  · refine ⟨hpos, ?_⟩
    cases hfree : m.getVersion m.nextKeyVersionNumber with
    | none =>
      rw [addVersion_new hpos hfree] at h
      cases h
      exact Or.inr ⟨rfl, rfl, rfl, rfl⟩
    | some w =>
      unfold KeysetMetadata.addVersion KeysetMetadata.assignNumber at h
      rw [if_pos (Eq.refl (0 : Int)), if_neg (not_le.mpr hpos)] at h
      unfold KeysetMetadata.getVersion at hfree
      simp only [Option.map_some, hfree, Option.isSome_some, if_true] at h
      cases h
      exact Or.inl ⟨rfl, rfl, rfl⟩
  · unfold KeysetMetadata.addVersion KeysetMetadata.assignNumber at h
    rw [if_pos (Eq.refl (0 : Int)), if_pos (not_lt.mp hpos)] at h
    cases h

/-- How `AddKeyVersion` ends. -/
theorem Tidy.addKeyVersion {s t : ManagedKeyset} (h : Tidy P s) {status : KeyStatus} {n : Int}
    (hadd : s.addKeyVersion ⟨0, status, false⟩ = some (n, t)) :
    0 < s.metadata.nextKeyVersionNumber ∧ Tidy P t ∧
    ((s.metadata.getVersion s.metadata.nextKeyVersionNumber).isSome ∧ n = 0 ∧
        t = s.withNext (toInt (s.metadata.nextKeyVersionNumber + 1)) ∨
      s.metadata.getVersion s.metadata.nextKeyVersionNumber = none ∧ n = s.metadata.nextKeyVersionNumber ∧ SameMaps s t ∧
        (t.metadata.getVersion n).isSome) := by
  have hmaps := sameMaps_addKeyVersion hadd
  unfold ManagedKeyset.addKeyVersion at hadd
  rw [if_neg (not_not.mpr (Eq.refl (0 : Int)))] at hadd
  split at hadd
  · cases hadd
  · rename_i v m haddVersion
    obtain ⟨hpos, ⟨hclash, -, rfl⟩ | ⟨-, hfalse, -⟩⟩ := addVersion_cases haddVersion
    · cases hadd
      exact ⟨hpos, h.of_sameMaps hmaps h.primary, Or.inl ⟨hclash, rfl, rfl⟩⟩
    · cases hfalse
  · rename_i v m haddVersion
    obtain ⟨hpos, ⟨-, hfalse, -⟩ | ⟨hfree, -, rfl, rfl⟩⟩ := addVersion_cases haddVersion
    · cases hfalse
    · have hnew : ∀ n', ({ withVersion s.metadata status with
          nextKeyVersionNumber := toInt (s.metadata.nextKeyVersionNumber + 1) } : KeysetMetadata).getVersion n' =
          if n' = s.metadata.nextKeyVersionNumber then some ⟨s.metadata.nextKeyVersionNumber, status, false⟩
          else s.metadata.getVersion n' := getVersion_withVersion s.metadata status
      have hthere : (({ withVersion s.metadata status with
          nextKeyVersionNumber := toInt (s.metadata.nextKeyVersionNumber + 1) } : KeysetMetadata).getVersion
            s.metadata.nextKeyVersionNumber).isSome := by
        rw [hnew, if_pos rfl]
        rfl
      dsimp only at hadd
      split at hadd
      · split at hadd
        · rename_i u hupdate
          cases hadd
          have hsame := sameKeys_updateKeyStatus { s with metadata := { withVersion s.metadata status with
            nextKeyVersionNumber := toInt (s.metadata.nextKeyVersionNumber + 1) } } .primary s.metadata.nextKeyVersionNumber
          rw [hupdate] at hsame
          refine ⟨hpos, h.of_sameMaps hmaps fun _ => updateKeyStatus_primary hthere hupdate, Or.inr ⟨hfree, rfl, hmaps, ?_⟩⟩
          exact (hsame.isSome_getVersion _).trans hthere
        · cases hadd
      · cases hadd
        refine ⟨hpos, h.of_sameMaps hmaps ?_, Or.inr ⟨hfree, rfl, hmaps, hthere⟩⟩
        intro hp
        obtain ⟨w, hw, hst⟩ := h.primary hp
        refine ⟨w, ?_, hst⟩
        show ({ withVersion s.metadata status with
          nextKeyVersionNumber := toInt (s.metadata.nextKeyVersionNumber + 1) } : KeysetMetadata).getVersion
            s.primaryKeyVersionNumber = some w
        rw [hnew, if_neg]
        · exact hw
        · intro heq
          rw [heq, hfree] at hw
          cases hw

/-! ## A new key -/

/-- The key set after the primary version made room. -/
def withRoom (s : ManagedKeyset) (status : KeyStatus) : ManagedKeyset :=
  if status = .primary ∧ 0 < s.primaryKeyVersionNumber then
    { s.setKeyStatus s.primaryKeyVersionNumber .active with primaryKeyVersionNumber := 0 }
  else s

theorem Tidy.makeRoomIn {s : ManagedKeyset} (h : Tidy P s) (status : KeyStatus) :
    s.makeRoomIn b status = some (true, s.withRoom status) ∧ Tidy P (s.withRoom status) ∧ SameKeys s (s.withRoom status) := by
  unfold ManagedKeyset.makeRoomIn withRoom
  by_cases hroom : status = .primary ∧ 0 < s.primaryKeyVersionNumber
  · rw [if_pos hroom, if_pos hroom]
    obtain ⟨v, hv, hst⟩ := h.primary hroom.2
    have hreached : s.notReached s.primaryKeyVersionNumber = false := by
      unfold notReached
      rw [hv]
      simp [hst]
    have hdemote : s.demoteKey s.primaryKeyVersionNumber =
        (true, { s.setKeyStatus s.primaryKeyVersionNumber .active with primaryKeyVersionNumber := 0 }) := by
      unfold ManagedKeyset.demoteKey
      rw [if_neg (not_le.mpr hroom.2), hv]
      dsimp only
      rw [hst]
      rfl
    have htidy := h.demoteKey s.primaryKeyVersionNumber
    have hsame := sameKeys_demoteKey s s.primaryKeyVersionNumber
    rw [hdemote] at htidy hsame
    refine ⟨?_, htidy, hsame⟩
    unfold demoteKeyIn
    rw [hreached, if_neg (by simp), hdemote]
  · rw [if_neg hroom, if_neg hroom]
    exact ⟨rfl, h, sameKeys_refl s⟩

/-- How an addition ends: the number that the counter shows is taken, and the answer is 0; or the version gets it and the key is
added, which may still throw. What a debug build checks is never reached. -/
theorem Tidy.addNewKeyIn {s : ManagedKeyset} (h : Tidy P s) {status : KeyStatus} {key : Key} {hash : Bytes}
    (hhash : key.hash P = some hash) (hfree : s.hashMap hash = none) {r : Except Exception Int × ManagedKeyset}
    (hadd : s.addNewKeyIn P b status key = some r) :
    Tidy P r.2 ∧ 0 < s.metadata.nextKeyVersionNumber ∧
    ((s.metadata.getVersion s.metadata.nextKeyVersionNumber).isSome ∧
        r = (.ok 0, (s.withRoom status).withNext (toInt (s.metadata.nextKeyVersionNumber + 1))) ∨
      s.metadata.getVersion s.metadata.nextKeyVersionNumber = none ∧
        (r.1 = .ok s.metadata.nextKeyVersionNumber ∨ ∃ e, r.1 = .error e)) := by
  obtain ⟨hroom, hroomTidy, hsame⟩ := h.makeRoomIn (b := b) status
  unfold ManagedKeyset.addNewKeyIn at hadd
  rw [hroom] at hadd
  dsimp only at hadd
  split at hadd
  · cases hadd
  · rename_i n t hversion
    obtain ⟨hpos, htidy, hcases⟩ := hroomTidy.addKeyVersion hversion
    have hnone : (s.withRoom status).metadata.getVersion s.metadata.nextKeyVersionNumber = none ↔
        s.metadata.getVersion s.metadata.nextKeyVersionNumber = none := by
      have hisSome := hsame.isSome_getVersion s.metadata.nextKeyVersionNumber
      rw [← Option.not_isSome_iff_eq_none, ← Option.not_isSome_iff_eq_none, hisSome]
    rw [hsame.next_eq] at hpos hcases
    rw [hsame.isSome_getVersion, hnone] at hcases
    rcases hcases with ⟨hclash, rfl, rfl⟩ | ⟨hnew, rfl, hmaps, hthere⟩
    · rw [if_pos rfl] at hadd
      cases hadd
      exact ⟨htidy, hpos, Or.inl ⟨hclash, rfl⟩⟩
    · rw [if_neg (Int.ne_of_gt hpos)] at hadd
      have hnokey : t.getKey s.metadata.nextKeyVersionNumber = none := by
        have hget : t.getKey s.metadata.nextKeyVersionNumber = s.getKey s.metadata.nextKeyVersionNumber :=
          congrArg (fun m => m.find s.metadata.nextKeyVersionNumber) (hmaps.versionNumberMap_eq.trans hsame.versionNumberMap_eq)
        rw [hget]
        cases hk : s.getKey s.metadata.nextKeyVersionNumber with
        | none => rfl
        | some old =>
          have hold := h.version hk
          rw [hnew] at hold
          cases hold
      have hunused : t.hashMap hash = none := by
        rw [hmaps.hashMap_eq, hsame.hashMap_eq]
        exact hfree
      have hkey := htidy.addKey key s.metadata.nextKeyVersionNumber
      obtain ⟨result, heq, hresult⟩ := addKey_new hpos hthere hnokey hhash hunused
      rw [heq] at hadd hkey
      rcases hresult with rfl | ⟨e, rfl⟩
      · cases hadd
        exact ⟨hkey, hpos, Or.inr ⟨hnew, Or.inl rfl⟩⟩
      · cases hadd
        exact ⟨hkey, hpos, Or.inr ⟨hnew, Or.inr ⟨e, rfl⟩⟩⟩

/-- `GenerateKey` comes to nothing, or to the addition of a key whose hash is not in use. -/
theorem generateKeyIn_cases {s : ManagedKeyset} {status : KeyStatus} {generated : List (Option Key)}
    {r : Except Exception Int × ManagedKeyset} (h : s.generateKeyIn P b status generated = some r) :
    r = (.ok 0, s) ∨ ∃ key hash, s.metadata.keyType ≠ .undefined ∧ s.generateUnusedKey P generated = some (some key) ∧
      key.hash P = some hash ∧ s.hashMap hash = none ∧ s.addNewKeyIn P b status key = some r := by
  unfold generateKeyIn at h
  split at h
  · cases h
    exact Or.inl rfl
  · rename_i htype
    split at h
    · cases h
    · cases h
      exact Or.inl rfl
    · rename_i key hkey
      obtain ⟨hash, hhash, hfree⟩ := generateUnusedKey_spec hkey
      exact Or.inr ⟨key, hash, htype, hkey, hhash, hfree, h⟩

/-- `ImportPrivateKey` comes to the same. -/
theorem importPrivateKeyIn_cases {s : ManagedKeyset} {status : KeyStatus} {imported : Option Key}
    {r : Except Exception Int × ManagedKeyset} (h : s.importPrivateKeyIn P b status imported = some r) :
    r = (.ok 0, s) ∨ ∃ key hash, s.metadata.keyType ≠ .undefined ∧ imported = some key ∧ key.hash P = some hash ∧
      s.hashMap hash = none ∧ s.addNewKeyIn P b status key = some r := by
  unfold importPrivateKeyIn at h
  split at h
  · cases h
    exact Or.inl rfl
  · rename_i htype
    split at h
    · cases h
      exact Or.inl rfl
    · rename_i key
      split at h
      · cases h
        exact Or.inl rfl
      · rename_i hash hhash
        split at h
        · cases h
          exact Or.inl rfl
        · rename_i hused
          exact Or.inr ⟨key, hash, htype, rfl, hhash, Option.not_isSome_iff_eq_none.mp hused, h⟩

/-! ## Runs -/

/-- Every step keeps a key set tidy, in every build. -/
theorem Tidy.stepIn {s s' : ManagedKeyset} (h : Tidy P s) {c : Step} (hstep : s.stepIn P b c = some s') : Tidy P s' := by
  rcases c with ⟨key, n⟩ | c
  · cases hstep
    exact h.addKey key n
  · cases c with
    | generateKey status generated =>
      obtain ⟨r, hgenerate, rfl⟩ := Option.map_eq_some_iff.mp hstep
      rcases generateKeyIn_cases hgenerate with rfl | ⟨key, hash, -, -, hhash, hfree, hadd⟩
      · exact h
      · exact (h.addNewKeyIn hhash hfree hadd).1
    | importPrivateKey status imported =>
      obtain ⟨r, himport, rfl⟩ := Option.map_eq_some_iff.mp hstep
      rcases importPrivateKeyIn_cases himport with rfl | ⟨key, hash, -, -, hhash, hfree, hadd⟩
      · exact h
      · exact (h.addNewKeyIn hhash hfree hadd).1
    | promoteKey n =>
      obtain ⟨r, hpromote, rfl⟩ := Option.map_eq_some_iff.mp hstep
      unfold promoteKeyIn at hpromote
      split at hpromote
      · cases hpromote
      · cases hpromote
        exact h.promoteKey n
    | demoteKey n =>
      obtain ⟨r, hdemote, rfl⟩ := Option.map_eq_some_iff.mp hstep
      unfold demoteKeyIn at hdemote
      split at hdemote
      · cases hdemote
      · cases hdemote
        exact h.demoteKey n
    | revokeKey n =>
      cases hstep
      exact h.revokeKey n

theorem RunIn.tidy {s₀ s : ManagedKeyset} (h : RunIn P b s₀ s) (hs : Tidy P s₀) : Tidy P s := by
  induction h with
  | start => exact hs
  | step c _ hstep ih => exact ih.stepIn hstep

/-- When a version is read that is primary, the primary number becomes its number. -/
theorem Tidy.withPrimary {s : ManagedKeyset} (h : Tidy P s) {n : Int} {v : KeyVersion} (hv : s.metadata.getVersion n = some v)
    (hst : v.keyStatus = .primary) : Tidy P { s with primaryKeyVersionNumber := n } :=
  ⟨fun _ => ⟨v, hv, hst⟩, h.version, h.hashes.congr rfl rfl⟩

/-- A turn of the loop of `Read`, with or without keys. -/
theorem Tidy.readVersion {reader : KeysetReader} {loadKeys : Bool} {s s' : ManagedKeyset} {version : Int × KeyVersion} (h : Tidy P s)
    (hversion : s.metadata.getVersion version.1 = some version.2)
    (hread : readVersion P reader loadKeys s version = .ok (some s')) : Tidy P s' ∧ s'.metadata = s.metadata := by
  cases loadKeys with
  | true =>
    obtain ⟨key, hash, -, hhash, hfree, hcase⟩ := readVersion_cases hread
    have hloaded : Tidy P (s.withKey P key version.1 hash) := h.withKey (by rw [hversion]; rfl) hhash hfree
    rcases hcase with ⟨hst, -, rfl⟩ | ⟨-, rfl⟩
    · exact ⟨hloaded.withPrimary hversion hst, rfl⟩
    · exact ⟨hloaded, rfl⟩
  | false =>
    unfold ManagedKeyset.readVersion at hread
    rw [if_neg (by decide)] at hread
    simp only [pure_bind] at hread
    split at hread
    · rename_i hst
      split at hread
      · cases hread
      · cases hread
        exact ⟨h.withPrimary hversion hst, rfl⟩
    · cases hread
      exact ⟨h, rfl⟩

theorem Tidy.readVersions {reader : KeysetReader} {loadKeys : Bool} {s s' : ManagedKeyset} {versions : List (Int × KeyVersion)}
    (h : Tidy P s) (hversions : ∀ version ∈ versions, s.metadata.getVersion version.1 = some version.2)
    (hread : readVersions P reader loadKeys s versions = .ok (some s')) : Tidy P s' := by
  induction versions generalizing s with
  | nil =>
    cases hread
    exact h
  | cons version versions ih =>
    unfold ManagedKeyset.readVersions at hread
    obtain ⟨turn, hturn, hread⟩ := Throwing.ok_of_bind hread
    cases turn with
    | none => cases hread
    | some t =>
      obtain ⟨htidy, hmeta⟩ := h.readVersion (hversions version List.mem_cons_self) hturn
      refine ih htidy ?_ hread
      intro version' hmem
      rw [hmeta]
      exact hversions version' (List.mem_cons_of_mem _ hmem)

/-- Whatever metadata is accepted, the key set that is read is tidy. -/
theorem tidy_of_read {reader : KeysetReader} {loadKeys : Bool} {s : ManagedKeyset}
    (h : read P reader loadKeys = some (.ok (some s))) : Tidy P s := by
  unfold ManagedKeyset.read at h
  split at h
  · cases h
  · split at h
    · cases h
    · cases h
    · rename_i metadata _
      refine Tidy.readVersions (s := { metadata }) ?_ ?_ (Option.some.inj h)
      · exact ⟨fun hp => absurd hp (Int.lt_irrefl 0), nofun, nofun, nofun⟩
      · rintro ⟨n, v⟩ hmem
        exact metadata.keyVersionsMap.mem_entries_iff.mp hmem

/-! ## What an answer of 0 leaves -/

/-- The statuses, the primary number, the versions and both maps of keys are as before. -/
structure Unchanged (s s' : ManagedKeyset) : Prop where
  keyVersionsMap_eq : s'.metadata.keyVersionsMap = s.metadata.keyVersionsMap
  primaryKeyVersionNumber_eq : s'.primaryKeyVersionNumber = s.primaryKeyVersionNumber
  versionNumberMap_eq : s'.versionNumberMap = s.versionNumberMap
  hashMap_eq : s'.hashMap = s.hashMap

/-- When a call answers 0, it changed nothing. -/
def Refuses (s : ManagedKeyset) (returned : Option (Except Exception Int × ManagedKeyset)) : Prop :=
  ∀ s', returned = some (.ok 0, s') → Unchanged s s'

/-- A primary version is to give way to a new one, whose number is that of a version there is. -/
def Clash (s : ManagedKeyset) (status : KeyStatus) : Prop :=
  status = .primary ∧ 0 < s.primaryKeyVersionNumber ∧ 0 < s.metadata.nextKeyVersionNumber ∧
    (s.metadata.getVersion s.metadata.nextKeyVersionNumber).isSome

/-- An addition that is refused changes nothing, unless the version clashes. -/
theorem Tidy.refuses_addNewKeyIn {s : ManagedKeyset} (h : Tidy P s) {status : KeyStatus} {key : Key} {hash : Bytes}
    (hhash : key.hash P = some hash) (hfree : s.hashMap hash = none) :
    Refuses s (s.addNewKeyIn P b status key) ↔ ¬ Clash s status := by
  constructor
  · rintro hrefuses ⟨hst, hp, hpos, hclash⟩
    obtain ⟨hroom, -, hsame⟩ := h.makeRoomIn (b := b) status
    have hadd : (s.withRoom status).addKeyVersion ⟨0, status, false⟩ =
        some (0, (s.withRoom status).withNext (toInt (s.metadata.nextKeyVersionNumber + 1))) := by
      unfold ManagedKeyset.addKeyVersion KeysetMetadata.addVersion KeysetMetadata.assignNumber
      have hfound : ((s.withRoom status).metadata.keyVersionsMap.find s.metadata.nextKeyVersionNumber).isSome :=
        (hsame.isSome_getVersion _).trans hclash
      rw [if_neg (not_not.mpr (Eq.refl (0 : Int))), if_pos (Eq.refl (0 : Int)), hsame.next_eq, if_neg (not_le.mpr hpos)]
      simp only [Option.map_some, hfound, if_true]
      rfl
    have hzero : s.addNewKeyIn P b status key =
        some (.ok 0, (s.withRoom status).withNext (toInt (s.metadata.nextKeyVersionNumber + 1))) := by
      unfold ManagedKeyset.addNewKeyIn
      rw [hroom]
      dsimp only
      rw [hadd]
      rfl
    have hprimary := (hrefuses _ hzero).primaryKeyVersionNumber_eq
    unfold withRoom at hprimary
    rw [if_pos ⟨hst, hp⟩] at hprimary
    exact absurd hprimary.symm (Int.ne_of_gt hp)
  · intro hclash s' hzero
    obtain ⟨-, hpos, ⟨htaken, heq⟩ | ⟨-, hok | ⟨e, herror⟩⟩⟩ := h.addNewKeyIn hhash hfree hzero
    · have hroom : s.withRoom status = s := if_neg fun hroom => hclash ⟨hroom.1, hroom.2, hpos, htaken⟩
      rw [hroom] at heq
      cases heq
      exact ⟨rfl, rfl, rfl, rfl⟩
    · exact absurd (Except.ok.inj hok).symm (Int.ne_of_gt hpos)
    · cases herror

/-- The key has a hash that is not in use. -/
def Unused (P : Primitives) (s : ManagedKeyset) (key : Key) : Prop := ∃ hash, key.hash P = some hash ∧ s.hashMap hash = none

/-- The first key of the generator whose hash is not in use comes after keys with hashes in use only. -/
def Generates (P : Primitives) (s : ManagedKeyset) (generated : List (Option Key)) : Prop :=
  ∃ used key rest, generated = used ++ some key :: rest ∧ Unused P s key ∧
    ∀ first ∈ used, ∃ old hash, first = some old ∧ old.hash P = some hash ∧ (s.hashMap hash).isSome

theorem generates_iff (generated : List (Option Key)) :
    Generates P s generated ↔ ∃ key, s.generateUnusedKey P generated = some (some key) := by
  constructor
  · rintro ⟨used, key, rest, rfl, ⟨hash, hhash, hfree⟩, hused⟩
    refine ⟨key, ?_⟩
    induction used with
    | nil =>
      rw [List.nil_append]
      unfold generateUnusedKey
      rw [hhash]
      dsimp only
      rw [hfree]
      rfl
    | cons first used ih =>
      obtain ⟨old, oldHash, rfl, hold, hin⟩ := hused first List.mem_cons_self
      rw [List.cons_append]
      unfold generateUnusedKey
      rw [hold]
      dsimp only
      rw [if_pos hin]
      exact ih fun first hmem => hused first (List.mem_cons_of_mem _ hmem)
  · rintro ⟨key, hkey⟩
    induction generated with
    | nil => cases hkey
    | cons first generated ih =>
      cases first with
      | none => cases hkey
      | some first =>
        unfold generateUnusedKey at hkey
        split at hkey
        · cases hkey
        · rename_i hash hhash
          split at hkey
          · rename_i hin
            obtain ⟨used, key', rest, rfl, hunused, hall⟩ := ih hkey
            refine ⟨some first :: used, key', rest, rfl, hunused, ?_⟩
            intro other hmem
            rcases List.mem_cons.mp hmem with rfl | hmem
            · exact ⟨first, hash, rfl, hhash, hin⟩
            · exact hall other hmem
          · rename_i hfree
            exact ⟨[], first, generated, rfl, ⟨hash, hhash, Option.not_isSome_iff_eq_none.mp hfree⟩, nofun⟩

theorem Unchanged.refl (s : ManagedKeyset) : Unchanged s s := ⟨rfl, rfl, rfl, rfl⟩

/-- A call that comes to an addition when there is a key, and to nothing else, changes nothing when it answers 0, unless there is a key
and its version clashes. -/
theorem Tidy.refuses_iff_of_comes {s : ManagedKeyset} (h : Tidy P s) {status : KeyStatus}
    {returned : Option (Except Exception Int × ManagedKeyset)} {Comes : Prop}
    (hcomes : Comes → ∃ key hash, key.hash P = some hash ∧ s.hashMap hash = none ∧ returned = s.addNewKeyIn P b status key)
    (hnone : ¬ Comes → ∀ r, returned = some r → r = (.ok 0, s)) :
    Refuses s returned ↔ ¬ (Clash s status ∧ Comes) := by
  by_cases hc : Comes
  · obtain ⟨key, hash, hhash, hfree, rfl⟩ := hcomes hc
    rw [h.refuses_addNewKeyIn hhash hfree, and_iff_left hc]
  · refine iff_of_true ?_ fun hclash => hc hclash.2
    intro s' hzero
    cases hnone hc _ hzero
    exact Unchanged.refl s

/-- In every build and every state that a run leads to from a key set that was read, whatever its counter: a `GenerateKey` or
`ImportPrivateKey` that answers 0 changed nothing, unless it had a key for a primary version whose number clashes. -/
theorem refuses_iff {reader : KeysetReader} {loadKeys : Bool} {s₀ s : ManagedKeyset}
    (hread : read P reader loadKeys = some (.ok (some s₀))) (hrun : RunIn P b s₀ s) (status : KeyStatus) :
    (∀ generated, Refuses s (s.generateKeyIn P b status generated) ↔
      ¬ (Clash s status ∧ s.metadata.keyType ≠ .undefined ∧ Generates P s generated)) ∧
    (∀ imported, Refuses s (s.importPrivateKeyIn P b status imported) ↔
      ¬ (Clash s status ∧ s.metadata.keyType ≠ .undefined ∧ ∃ key, imported = some key ∧ Unused P s key)) := by
  have htidy := hrun.tidy (tidy_of_read hread)
  refine ⟨fun generated => htidy.refuses_iff_of_comes (b := b) ?_ ?_,
    fun imported => htidy.refuses_iff_of_comes (b := b) ?_ ?_⟩
  · rintro ⟨htype, hgenerates⟩
    obtain ⟨key, hkey⟩ := (generates_iff generated).mp hgenerates
    obtain ⟨hash, hhash, hfree⟩ := generateUnusedKey_spec hkey
    refine ⟨key, hash, hhash, hfree, ?_⟩
    unfold generateKeyIn
    rw [if_neg htype, hkey]
  · intro hnone r hreturned
    rcases generateKeyIn_cases hreturned with rfl | ⟨key, hash, htype, hkey, -⟩
    · rfl
    · exact absurd ⟨htype, (generates_iff generated).mpr ⟨key, hkey⟩⟩ hnone
  · rintro ⟨htype, key, rfl, hash, hhash, hfree⟩
    refine ⟨key, hash, hhash, hfree, ?_⟩
    unfold importPrivateKeyIn
    rw [if_neg htype]
    dsimp only
    rw [hhash]
    dsimp only
    rw [hfree]
    rfl
  · intro hnone r hreturned
    rcases importPrivateKeyIn_cases hreturned with rfl | ⟨key, hash, htype, hkey, hhash, hfree, -⟩
    · rfl
    · exact absurd ⟨htype, key, hkey, hash, hhash, hfree⟩ hnone

/-- A reader of a key set whose next number is that of its primary version. -/
def clashingReader : KeysetReader where
  readMetadata := some ⟨"small", "HMAC", "SIGN_AND_VERIFY", false, some 1, [⟨1, "PRIMARY", false⟩]⟩
  readKey _ _ := some (.other [1] fun _ _ => false)

/-- The key set that is read. -/
def clashingKeyset : ManagedKeyset := smallKeyset.withNext 1

/-- The former primary version was demoted, although the answer is 0. -/
theorem clashing_generateKey_demotes : read Primitives.plain clashingReader true = some (.ok (some clashingKeyset)) ∧
    ∀ b, ∃ s', clashingKeyset.generateKeyIn Primitives.plain b .primary [some (.other [2] fun _ _ => false)] = some (.ok 0, s') ∧
      s'.primaryKeyVersionNumber = 0 ∧ s'.metadata.getVersion 1 = some ⟨1, .active, false⟩ ∧ ¬ Unchanged clashingKeyset s' := by
  refine ⟨rfl, ?_⟩
  intro b
  refine ⟨(clashingKeyset.withRoom .primary).withNext 2, ?_, rfl, rfl, ?_⟩
  · cases b <;> rfl
  · intro h
    exact absurd h.primaryKeyVersionNumber_eq (by decide)

/-- In the same key set, an active version is refused and nothing changes; a primary one that is imported is refused too, and
something does. -/
theorem refuses_iff_clashing :
    Refuses clashingKeyset (clashingKeyset.generateKeyIn Primitives.plain .debug .active [some (.other [2] fun _ _ => false)]) ∧
    ¬ Refuses clashingKeyset (clashingKeyset.importPrivateKeyIn Primitives.plain .release .primary
      (some (.other [2] fun _ _ => false))) := by
  have hread : read Primitives.plain clashingReader true = some (.ok (some clashingKeyset)) := rfl
  refine ⟨((refuses_iff hread .start .active).1 _).mpr (fun h => nomatch h.1.1), ?_⟩
  intro h
  refine ((refuses_iff hread .start .primary).2 _).mp h ⟨⟨rfl, by decide, by decide, rfl⟩, by decide, _, rfl, [2], rfl, ?_⟩
  rfl

end ManagedKeyset

end Cpp
