import Keyczar.Java.GenericRuns

/-!
# The lifecycle of a key set in `GenericKeyczar`

The list and the map of the metadata, the primary version and the numbers stay in step through every run, when the numbers of the
metadata are distinct at first, no `null` key is added as primary, and the numbers do not wrap to one that is in use.
-/

namespace Java

namespace GenericKeyczar

variable {P : Primitives}

/-- The largest and the smallest number there can be are not both in use. -/
def Roomy (z : GenericKeyczar) : Prop := ¬ (2 ^ 31 - 1 ∈ z.numbers ∧ -2 ^ 31 ∈ z.numbers)

instance (z : GenericKeyczar) : Decidable z.Roomy :=
  inferInstanceAs (Decidable (¬ (2 ^ 31 - 1 ∈ z.numbers ∧ -2 ^ 31 ∈ z.numbers)))

/-- A call that adds a key finds room for its number, and a key that is `null` is not added as primary. -/
def Safe (P : Primitives) (z : GenericKeyczar) : Op → Prop
  | .addVersion status none => status ≠ some .primary
  | .addVersion _ (some _) => z.Roomy
  | .addGeneratedVersion _ generated => ∀ key, z.generateUnusedKey P generated = some (.ok key) → z.Roomy
  | .promote _ => True
  | .demote _ => True
  | .revoke _ => True

/-- The numbers that a call gives out. -/
def givenOut (z : GenericKeyczar) : Op → Except Exception Unit → List Int
  | .addVersion _ _, .ok _ => [z.nextNumber]
  | .addGeneratedVersion _ _, .ok _ => [z.nextNumber]
  | _, _ => []

/-- Calls that all meet a condition, and returned or threw, lead from one state to another; `given` are the numbers they gave out. -/
inductive Runs (P : Primitives) (Ok : GenericKeyczar → Op → Prop) (z₀ : GenericKeyczar) : List Int → GenericKeyczar → Prop where
  | start : Runs P Ok z₀ [] z₀
  | step {given : List Int} {z z' : GenericKeyczar} {result : Except Exception Unit} (op : Op) : Runs P Ok z₀ given z → Ok z op →
    z.step P op = some (result, z') → Runs P Ok z₀ (given ++ z.givenOut op result) z'

/-- The statuses, the primary version and both collections are the same. -/
structure Unchanged (z z' : GenericKeyczar) : Prop where
  kmd_eq : z'.kmd = z.kmd
  primaryVersion_eq : z'.primaryVersion = z.primaryVersion
  status_eq : ∀ r ∈ z.kmd.versions, z'.status r = z.status r

theorem unchanged_refl (z : GenericKeyczar) : Unchanged z z := ⟨rfl, rfl, fun _ _ => rfl⟩

/-- What a call comes to: the key set stays consistent, the numbers given out join those in use, and nothing has changed when it
throws. -/
structure StepSpec (z : GenericKeyczar) (op : Op) (result : Except Exception Unit) (z' : GenericKeyczar) : Prop where
  consistent : Consistent z'
  numbers_eq : z'.numbers = z.numbers ++ z.givenOut op result
  unchanged : ∀ e, result = .error e → Unchanged z z'

/-- A version object that no structure refers to changes nothing. -/
theorem Consistent.addVersionObject {z : GenericKeyczar} (h : Consistent z) {status : Option KeyStatus} (hst : status ≠ some .primary) :
    Consistent (z.addVersionObject status) ∧ (z.addVersionObject status).numbers = z.numbers ∧
      Unchanged z (z.addVersionObject status) := by
  have hlt : ∀ r ∈ z.kmd.versions, r < z.heap.next := fun r hr => h.lt r (h.listed r hr)
  have hadd : z.addVersionObject status = { z with heap := z.heap.alloc ⟨toInt32 (z.maxVersion + 1), status, false⟩ } := by
    unfold GenericKeyczar.addVersionObject
    rw [if_neg hst]
  have hnumber : ∀ r, r < z.heap.next → (z.addVersionObject status).number r = z.number r :=
    fun r hr => number_addVersionObject_of_lt hr status
  have hstatus : ∀ r, r < z.heap.next → (z.addVersionObject status).status r = z.status r := by
    intro r hr
    rw [status_addVersionObject_of_lt hr, if_neg fun hc => hst hc.1]
  have hkmd : (z.addVersionObject status).kmd = z.kmd := by
    rw [hadd]
  have hprimary : (z.addVersionObject status).primaryVersion = z.primaryVersion := by
    rw [hadd]
  have hversions : (z.addVersionObject status).getVersions = z.getVersions := by
    rw [hadd]
    rfl
  have hnumbers : (z.addVersionObject status).numbers = z.numbers := by
    unfold numbers
    rw [hversions]
    exact List.map_congr_left fun r hr => hnumber r (h.lt r hr)
  refine ⟨⟨⟨?_, ?_, ?_, ?_, ?_⟩, ?_⟩, hnumbers, hkmd, hprimary, fun r hr => hstatus r (hlt r hr)⟩
  · intro r hr
    rw [hversions] at hr
    rw [next_addVersionObject]
    exact Nat.lt_succ_of_lt (h.lt r hr)
  · rw [hkmd, hversions]
    exact h.listed
  · intro n r
    rw [hkmd, h.map_iff]
    refine and_congr_right fun hr => ?_
    rw [hnumber r (hlt r hr)]
  · rw [hnumbers]
    exact h.nodup
  · rw [hkmd]
    have hsame : z.kmd.versions.map (z.addVersionObject status).number = z.kmd.versions.map z.number :=
      List.map_congr_left fun r hr => hnumber r (hlt r hr)
    rw [hsame]
    exact h.versions_nodup
  · intro r
    rw [hprimary, hkmd, h.primary_iff]
    refine and_congr_right fun hr => ?_
    rw [hstatus r (hlt r hr)]

theorem Consistent.primary_lt {z : GenericKeyczar} (h : Consistent z) : z.primaryVersion ≠ some z.heap.next := by
  intro hp
  have hlt := h.lt _ (h.listed _ ((h.primary_iff _).mp hp).1)
  exact Nat.lt_irrefl _ hlt

theorem Consistent.addVersion {z : GenericKeyczar} (h : Consistent z) (hfresh : z.nextNumber ∉ z.numbers) (status : Option KeyStatus)
    (key : KeyczarKey) :
    Consistent (z.addVersion P status (some key)).2 ∧ (z.addVersion P status (some key)).2.numbers = z.numbers ++ [z.nextNumber] := by
  have hnew : NewVersion P z (z.addVersion P status (some key)).2 status key := h.toStructured.newVersion h.primary_lt hfresh status key
  exact ⟨hnew.consistent h hfresh, hnew.numbers_eq h.toStructured⟩

/-- An operation on the statuses that agrees with the lifecycle. -/
theorem stepSpec_of_match {z z' : GenericKeyczar} {op : Op} {result : Except Exception Unit} {o : Option Lifecycle.State}
    (h : Consistent z) (hgiven : z.givenOut op result = []) (hnumbers : z'.numbers = z.numbers)
    (hmatch : match o with
      | some t => result = .ok () ∧ z'.lifecycle = t ∧ Consistent z'
      | none => ∃ e, (result, z') = (.error e, z)) : StepSpec z op result z' := by
  cases o with
  | some t =>
    obtain ⟨rfl, -, hconsistent⟩ := hmatch
    refine ⟨hconsistent, ?_, nofun⟩
    rw [hgiven, List.append_nil]
    exact hnumbers
  | none =>
    obtain ⟨e, heq⟩ := hmatch
    cases heq
    refine ⟨h, ?_, fun _ _ => unchanged_refl z⟩
    rw [hgiven, List.append_nil]

theorem numbers_congr {z z' : GenericKeyczar} (hmap : z'.versionMap = z.versionMap) (hnumber : ∀ r, z'.number r = z.number r) :
    z'.numbers = z.numbers := by
  unfold numbers getVersions
  rw [hmap]
  exact List.map_congr_left fun r _ => hnumber r

/-- A promotion, a demotion and a revocation leave the versions that have a key. -/
theorem numbers_promote (z : GenericKeyczar) (n : Int) : (z.promote n).2.numbers = z.numbers := by
  unfold GenericKeyczar.promote
  split
  · rfl
  · split
    · rfl
    · rfl
    · refine numbers_congr rfl ?_
      intro r
      exact (versionNumber_setStatusOfSome _ _ _ _).trans (versionNumber_setStatus _ _ _ _)
    · exact numbers_congr rfl fun r => versionNumber_setStatus _ _ _ _

theorem numbers_demote (z : GenericKeyczar) (n : Int) : (z.demote n).2.numbers = z.numbers := by
  unfold GenericKeyczar.demote
  split
  · rfl
  · split
    · rfl
    · exact numbers_congr rfl fun r => versionNumber_setStatus _ _ _ _
    · exact numbers_congr rfl fun r => versionNumber_setStatus _ _ _ _
    · rfl

theorem numbers_revoke (z : GenericKeyczar) (n : Int) : (z.revoke n).2.numbers = z.numbers := by
  unfold GenericKeyczar.revoke
  split
  · rfl
  · split <;> rfl

theorem Consistent.step {z z' : GenericKeyczar} (h : Consistent z) (hint : ∀ n ∈ z.numbers, n < 2 ^ 31) {op : Op}
    {result : Except Exception Unit} (hsafe : Safe P z op) (hstep : z.step P op = some (result, z')) : StepSpec z op result z' := by
  have hadded : ∀ {status : Option KeyStatus} {key : KeyczarKey}, z.Roomy → z.addVersion P status (some key) = (result, z') →
      result = .ok () ∧ Consistent z' ∧ z'.numbers = z.numbers ++ [z.nextNumber] := by
    intro status key hroomy hadd
    obtain ⟨hconsistent, hnumbers⟩ := h.addVersion (P := P) (nextNumber_notMem hint hroomy) status key
    rw [hadd] at hconsistent hnumbers
    exact ⟨(congrArg Prod.fst hadd).symm, hconsistent, hnumbers⟩
  cases op with
  | addVersion status key =>
    cases key with
    | none =>
      obtain ⟨hconsistent, hnumbers, hunchanged⟩ := h.addVersionObject hsafe
      cases hstep
      refine ⟨hconsistent, ?_, fun _ _ => hunchanged⟩
      rw [hnumbers]
      exact (List.append_nil _).symm
    | some key =>
      obtain ⟨rfl, hconsistent, hnumbers⟩ := hadded hsafe (Option.some.inj hstep)
      exact ⟨hconsistent, hnumbers, nofun⟩
  | addGeneratedVersion status generated =>
    replace hstep : z.addGeneratedVersion P status generated = some (result, z') := hstep
    unfold addGeneratedVersion at hstep
    split at hstep
    · cases hstep
    · cases hstep
      exact ⟨h, (List.append_nil _).symm, fun _ _ => unchanged_refl z⟩
    · rename_i key hkey
      obtain ⟨rfl, hconsistent, hnumbers⟩ := hadded (hsafe key hkey) (Option.some.inj hstep)
      exact ⟨hconsistent, hnumbers, nofun⟩
  | promote n =>
    have heq : z.promote n = (result, z') := Option.some.inj hstep
    have hmatch := h.promote n
    have hnumbers := z.numbers_promote n
    rw [heq] at hmatch hnumbers
    exact stepSpec_of_match h (by cases result <;> rfl) hnumbers hmatch
  | demote n =>
    have heq : z.demote n = (result, z') := Option.some.inj hstep
    have hmatch := h.demote n
    have hnumbers := z.numbers_demote n
    rw [heq] at hmatch hnumbers
    exact stepSpec_of_match h (by cases result <;> rfl) hnumbers hmatch
  | revoke n =>
    have heq : z.revoke n = (result, z') := Option.some.inj hstep
    have hmatch := h.revoke n
    have hnumbers := z.numbers_revoke n
    rw [heq] at hmatch hnumbers
    exact stepSpec_of_match h (by cases result <;> rfl) hnumbers hmatch

/-! ## Runs -/

/-- A key set that was loaded from metadata with distinct numbers is consistent. -/
theorem Loaded.consistent {reader : JsonReader} {z : GenericKeyczar} (h : Loaded P reader z)
    (hdistinct : (reader.metadata.versions.map VersionObject.versionNumber).Nodup) : Consistent z := by
  have hnumbers : z.kmd.versions.map z.number = reader.metadata.versions.map VersionObject.versionNumber := by
    rw [← h.objects, List.map_map]
    rfl
  refine ⟨⟨?_, ?_, h.map_iff, ?_, ?_⟩, h.primary_iff⟩
  · intro r hr
    rw [h.getVersions_eq, h.refs, List.mem_range] at hr
    exact hr
  · intro r hr
    rw [h.getVersions_eq]
    exact hr
  · unfold numbers
    rw [h.getVersions_eq, hnumbers]
    exact hdistinct
  · rw [hnumbers]
    exact hdistinct

theorem Loaded.numbers_eq {reader : JsonReader} {z : GenericKeyczar} (h : Loaded P reader z) :
    z.numbers = reader.metadata.versions.map VersionObject.versionNumber := by
  unfold numbers
  rw [h.getVersions_eq, ← h.objects, List.map_map]
  rfl

theorem Loaded.numbers_lt {reader : JsonReader} {z : GenericKeyczar} (h : Loaded P reader z)
    (hint : ∀ v ∈ reader.metadata.versions, v.versionNumber < 2 ^ 31) : ∀ n ∈ z.numbers, n < 2 ^ 31 := by
  intro n hn
  rw [h.numbers_eq] at hn
  obtain ⟨v, hv, rfl⟩ := List.mem_map.mp hn
  exact hint v hv

/-- The lifecycle of a key set that was loaded holds the versions of the list. -/
theorem Loaded.holds {reader : JsonReader} {z : GenericKeyczar} (h : Loaded P reader z) {versions : List (Int × Lifecycle.Status)}
    (hversions : ∀ n status, (n, status) ∈ versions ↔
      ∃ v ∈ reader.metadata.versions, v.versionNumber = n ∧ KeyStatus.lifecycle v.status = status) :
    Lifecycle.Holds versions z.lifecycle := by
  have hobject : ∀ v, v ∈ reader.metadata.versions ↔ ∃ r ∈ z.kmd.versions, z.heap.object r = v := by
    intro v
    rw [← h.objects, List.mem_map]
  have hstatus : ∀ n status, z.lifecycle.status n = some status ↔ (n, status) ∈ versions := by
    intro n status
    rw [hversions]
    show (z.kmd.versionMap n).map (fun r => KeyStatus.lifecycle (z.status r)) = some status ↔ _
    rw [Option.map_eq_some_iff]
    constructor
    · rintro ⟨r, hr, hst⟩
      obtain ⟨hmem, hn⟩ := (h.map_iff n r).mp hr
      exact ⟨z.heap.object r, (hobject _).mpr ⟨r, hmem, rfl⟩, hn, hst⟩
    · rintro ⟨v, hv, hn, hst⟩
      obtain ⟨r, hmem, rfl⟩ := (hobject v).mp hv
      exact ⟨r, (h.map_iff n r).mpr ⟨hmem, hn⟩, hst⟩
  refine ⟨hstatus, Int.lt_add_one_of_le z.maxVersion_nonneg, ?_⟩
  rcases Lifecycle.foldl_max_mem z.number z.getVersions 0 with heq | ⟨r, hr, heq⟩
  · exact Or.inl (congrArg (· + 1) heq)
  · rw [h.getVersions_eq] at hr
    exact Or.inr ⟨(z.number r, KeyStatus.lifecycle (z.status r)),
      (hversions _ _).mpr ⟨z.heap.object r, (hobject _).mpr ⟨r, hr, rfl⟩, rfl, rfl⟩, congrArg (· + 1) heq.symm⟩

/-- The addition of a generated key, when one comes whose hash is not in use and the numbers have room. -/
theorem Consistent.addGeneratedVersion {z : GenericKeyczar} (h : Consistent z) (hroom : z.maxVersion + 1 < 2 ^ 31)
    (status : Option KeyStatus) {generated : List (Except Exception KeyczarKey)} {key : KeyczarKey}
    (hkey : z.generateUnusedKey P generated = some (.ok key)) :
    ∃ z', z.addGeneratedVersion P status generated = some (.ok (), z') ∧ Consistent z' ∧
      z'.lifecycle = z.lifecycle.add (KeyStatus.lifecycle status) := by
  have hnew := h.toStructured.newVersion (P := P) h.primary_lt (nextNumber_notMem_of_lt hroom) status key
  refine ⟨_, ?_, hnew.consistent h (nextNumber_notMem_of_lt hroom), hnew.lifecycle_eq h hroom⟩
  unfold GenericKeyczar.addGeneratedVersion
  rw [hkey]
  rfl

theorem givenOut_lt (z : GenericKeyczar) (op : Op) (result : Except Exception Unit) : ∀ n ∈ z.givenOut op result, n < 2 ^ 31 := by
  intro n hn
  unfold givenOut at hn
  split at hn
  · rw [List.mem_singleton.mp hn]
    exact z.nextNumber_lt.2
  · rw [List.mem_singleton.mp hn]
    exact z.nextNumber_lt.2
  · cases hn

theorem Runs.consistent {z₀ z : GenericKeyczar} {given : List Int} (h : Runs P (Safe P) z₀ given z) (hz₀ : Consistent z₀)
    (hint : ∀ n ∈ z₀.numbers, n < 2 ^ 31) : Consistent z ∧ z.numbers = z₀.numbers ++ given ∧ ∀ n ∈ z.numbers, n < 2 ^ 31 := by
  induction h with
  | start => exact ⟨hz₀, (List.append_nil _).symm, hint⟩
  | step op _ hsafe hstep ih =>
    obtain ⟨hconsistent, hnumbers, hlt⟩ := ih
    have hspec := hconsistent.step hlt hsafe hstep
    refine ⟨hspec.consistent, ?_, ?_⟩
    · rw [hspec.numbers_eq, hnumbers, List.append_assoc]
    · intro n hn
      rw [hspec.numbers_eq] at hn
      rcases List.mem_append.mp hn with hold | hnew
      · exact hlt n hold
      · exact givenOut_lt _ op _ n hnew

/-- In every run of safe calls on a key set whose numbers were distinct: at most one version of the metadata is primary and
`primaryVersion` is it, the list and the map hold the same versions with distinct numbers, every number given out is new, and a call
that throws changes nothing. -/
theorem statuses_and_numbers_of_runs {reader : JsonReader} {z₀ z : GenericKeyczar} {given : List Int} (hnew : new P reader = .ok z₀)
    (hdistinct : (reader.metadata.versions.map VersionObject.versionNumber).Nodup)
    (hint : ∀ v ∈ reader.metadata.versions, v.versionNumber < 2 ^ 31) (h : Runs P (Safe P) z₀ given z) :
    (∀ r ∈ z.kmd.versions, ∀ r' ∈ z.kmd.versions, z.status r = some .primary → z.status r' = some .primary → r = r') ∧
    (∀ r, z.primaryVersion = some r ↔ r ∈ z.kmd.versions ∧ z.status r = some .primary) ∧
    (∀ n r, z.kmd.versionMap n = some r ↔ r ∈ z.kmd.versions ∧ z.number r = n) ∧
    (z.kmd.versions.map z.number).Nodup ∧
    (z₀.numbers ++ given).Nodup ∧
    ∀ op e z', Safe P z op → z.step P op = some (.error e, z') → Unchanged z z' := by
  have hloaded := loaded_of_new hdistinct hnew
  obtain ⟨hz, hnumbers, hlt⟩ := h.consistent (hloaded.consistent hdistinct) (hloaded.numbers_lt hint)
  refine ⟨?_, hz.primary_iff, hz.map_iff, hz.versions_nodup, ?_, ?_⟩
  · intro r hr r' hr' hst hst'
    have hp := (hz.primary_iff r).mpr ⟨hr, hst⟩
    rw [(hz.primary_iff r').mpr ⟨hr', hst'⟩] at hp
    exact (Option.some.inj hp).symm
  · rw [← hnumbers]
    exact hz.nodup
  · intro op e z' hsafe hstep
    exact (hz.step hlt hsafe hstep).unchanged e rfl

/-- A reader of metadata with some versions. -/
def smallReader (versions : List VersionObject) : JsonReader where
  metadata := { name := "small", purpose := some .signAndVerify, encrypted := false, versions }
  getKey n := .ok (.other [0, 0, 0, UInt8.ofNat n.toNat] [])

theorem statuses_and_numbers_of_runs_small : ∃ z₀ z, new Primitives.plain (smallReader [⟨1, some .primary, false⟩]) = .ok z₀ ∧
    Runs Primitives.plain (Safe Primitives.plain) z₀ [2] z ∧ (z₀.numbers ++ [2]).Nodup := by
  obtain ⟨z₀, hz₀⟩ : ∃ z₀, new Primitives.plain (smallReader [⟨1, some .primary, false⟩]) = .ok z₀ := ⟨_, rfl⟩
  have hrun : ∃ z, Runs Primitives.plain (Safe Primitives.plain) z₀ [2] z := by
    cases hz₀
    exact ⟨_, .step (.addVersion (some .primary) (some (.other [0, 0, 0, 2] []))) .start (show Roomy _ by decide) rfl⟩
  obtain ⟨z, hrun⟩ := hrun
  obtain ⟨-, -, -, -, hnodup, -⟩ := statuses_and_numbers_of_runs hz₀ (by decide) (by decide) hrun
  exact ⟨z₀, z, hz₀, hrun, hnodup⟩

/-- The constructor accepts a number twice; a `null` key that is added as primary throws and leaves its version as the primary one;
and the number after the largest there can be may be in use. -/
theorem lifecycle_fails :
    (∃ z, new Primitives.plain (smallReader [⟨1, some .active, false⟩, ⟨1, some .inactive, false⟩]) = .ok z ∧
      ¬ (z.kmd.versions.map z.number).Nodup) ∧
    (∃ z z' e, new Primitives.plain (smallReader [⟨1, some .primary, false⟩]) = .ok z ∧
      z.step Primitives.plain (.addVersion (some .primary) none) = some (.error e, z') ∧ z'.primaryVersion ≠ z.primaryVersion) ∧
    ∃ z, new Primitives.plain (smallReader [⟨2 ^ 31 - 1, some .active, false⟩, ⟨-2 ^ 31, some .active, false⟩]) = .ok z ∧
      z.nextNumber ∈ z.numbers := by
  refine ⟨⟨_, rfl, by decide⟩, ⟨_, _, _, rfl, rfl, by decide⟩, ⟨_, rfl, by decide⟩⟩

end GenericKeyczar

end Java
