import Keyczar.Cpp.KeysetCounter
import Keyczar.Java.GenericLifecycle
import Keyczar.Python.GenericLifecycle

/-!
# The three key-set state machines

`GenericKeyczar` in Python and Java and `Keyset` in C++, started from the same list of versions, go through the same lifecycle: after
every run they hold the same versions with the same statuses, and every call gets the same answer from the three.
-/

namespace Interop

/-! ## Versions and calls -/

/-- The statuses that the three have in common. -/
inductive VersionStatus where
  | primary | active | inactive
  deriving DecidableEq, Repr

namespace VersionStatus

def lifecycle : VersionStatus → Lifecycle.Status
  | primary => .primary
  | active => .active
  | inactive => .inactive

def python : VersionStatus → Python.KeyStatus
  | primary => .primary
  | active => .active
  | inactive => .inactive

def java : VersionStatus → Java.KeyStatus
  | primary => .primary
  | active => .active
  | inactive => .inactive

def cpp : VersionStatus → Cpp.KeyStatus
  | primary => .primary
  | active => .active
  | inactive => .inactive

@[simp] theorem lifecycle_python (status : VersionStatus) : status.python.lifecycle = status.lifecycle := by
  cases status <;> rfl

@[simp] theorem lifecycle_java (status : VersionStatus) : Java.KeyStatus.lifecycle (some status.java) = status.lifecycle := by
  cases status <;> rfl

@[simp] theorem status_cpp (status : VersionStatus) : status.cpp.status = status.lifecycle := by
  cases status <;> rfl

/-- The JSON name of a status is read as that status. -/
theorem getStatus_name (status : VersionStatus) : Python.getStatus status.python.name = .ok status.python := by
  cases status <;> rfl

theorem getTypeFromName_name (status : VersionStatus) : Cpp.KeyStatus.getTypeFromName status.python.name = status.cpp := by
  cases status <;> rfl

end VersionStatus

/-- A version in the list that the three are started from. -/
structure Version where
  number : Int
  status : VersionStatus
  exportable : Bool
  deriving DecidableEq, Repr

namespace Version

def python (v : Version) : Python.JsonVersion := ⟨v.number, v.status.python.name, v.exportable⟩

def java (v : Version) : Java.VersionObject := ⟨v.number, some v.status.java, v.exportable⟩

def cpp (v : Version) : Cpp.VersionValue := ⟨v.number, v.status.python.name, v.exportable⟩

/-- The version as the lifecycle sees it. -/
def entry (v : Version) : Int × Lifecycle.Status := (v.number, v.status.lifecycle)

end Version

/-- A call on the three. -/
inductive Op where
  | add (status : VersionStatus)
  | promote (n : Int)
  | demote (n : Int)
  | revoke (n : Int)
  deriving DecidableEq, Repr

/-- What the key generators of the three return, call after call. -/
structure Generated (κ : Type) where
  python : List (Except Python.PyError κ) := []
  java : List (Except Java.Exception Java.KeyczarKey) := []
  cpp : List (Option Cpp.Key) := []

/-- What a call comes to. In C++ a call is refused by its result, so that an exception there is none of the refusals. -/
inductive Answer where
  | refused
  | threw
  | done
  | given (n : Int)
  deriving DecidableEq, Repr

/-- The answer of a call that adds no version. -/
def statusAnswer {α : Type} (o : Option α) : Answer := if o.isSome then .done else .refused

/-- The answer of an operation of the lifecycle. -/
def answer (t : Lifecycle.State) : Op → Answer
  | .add _ => .given t.next
  | .promote n => statusAnswer (t.promote n)
  | .demote n => statusAnswer (t.demote n)
  | .revoke n => statusAnswer (t.revoke n)

/-- The state of the lifecycle after a call. -/
def advance (t : Lifecycle.State) : Op → Lifecycle.State
  | .add status => t.add status.lifecycle
  | .promote n => (t.promote n).getD t
  | .demote n => (t.demote n).getD t
  | .revoke n => (t.revoke n).getD t

/-! ## The machines -/

section Machines

variable {κ ρ : Type} (C : Python.KeyClass κ ρ) (P : Primitives)

/-- A call of `GenericKeyczar` in Python, with keys of the default size. -/
def pythonCall (g : Generated κ) : Op → Python.GenericKeyczar.Op κ
  | .add status => .addVersion status.python none g.python
  | .promote n => .promote n
  | .demote n => .demote n
  | .revoke n => .revoke n

/-- The answer of a call in Python; a version that is added is numbered behind the largest. -/
def pythonAnswer (s : Python.Keyczar κ) : Op → Except Python.PyError Unit → Answer
  | _, .error _ => .refused
  | .add _, .ok () => .given (Python.GenericKeyczar.maxVersionNumber s + 1)
  | _, .ok () => .done

def pythonStep (s : Python.Keyczar κ) (op : Op) (g : Generated κ) : Option (Answer × Python.Keyczar κ) :=
  (Python.GenericKeyczar.step C s (pythonCall g op)).map fun (result, s') => (pythonAnswer s op result, s')

/-- A call of `GenericKeyczar` in Java. -/
def javaCall (g : Generated κ) : Op → Java.GenericKeyczar.Op
  | .add status => .addGeneratedVersion (some status.java) g.java
  | .promote n => .promote n
  | .demote n => .demote n
  | .revoke n => .revoke n

def javaAnswer (z : Java.GenericKeyczar) : Op → Except Java.Exception Unit → Answer
  | _, .error _ => .refused
  | .add _, .ok () => .given z.nextNumber
  | _, .ok () => .done

def javaStep (z : Java.GenericKeyczar) (op : Op) (g : Generated κ) : Option (Answer × Java.GenericKeyczar) :=
  (z.step P (javaCall g op)).map fun (result, z') => (javaAnswer z op result, z')

/-- The answer of a call in C++ that adds no version. -/
def cppAnswer : Bool → Answer
  | true => .done
  | false => .refused

/-- The answer of a call in C++ that adds a version; 0 is the number of none. -/
def cppNumber : Except Cpp.Exception Int → Answer
  | .error _ => .threw
  | .ok n => if n = 0 then .refused else .given n

/-- A call of `Keyset` in C++. -/
def cppStep (s : Cpp.ManagedKeyset) (op : Op) (g : Generated κ) : Option (Answer × Cpp.ManagedKeyset) :=
  match op with
  | .add status => (s.generateKey P status.cpp g.cpp).map fun (result, s') => (cppNumber result, s')
  | .promote n => some (cppAnswer (s.promoteKey n).1, (s.promoteKey n).2)
  | .demote n => some (cppAnswer (s.demoteKey n).1, (s.demoteKey n).2)
  | .revoke n => some (cppAnswer (s.revokeKey P n).1, (s.revokeKey P n).2)

/-- The states of the three. -/
structure Machines (κ : Type) where
  python : Python.Keyczar κ
  java : Java.GenericKeyczar
  cpp : Cpp.ManagedKeyset

/-- The three were loaded from the same list of versions, which does not name the next number. -/
structure Started (versions : List Version) (m : Machines κ) : Prop where
  python : ∃ order reader, reader.metadata.versions = versions.map Version.python ∧
    Python.GenericKeyczar.init C order reader = .ok m.python
  java : ∃ reader, reader.metadata.versions = versions.map Version.java ∧ Java.GenericKeyczar.new P reader = .ok m.java
  cpp : ∃ reader value, reader.readMetadata = some value ∧ value.versions = versions.map Version.cpp ∧
    value.nextKeyVersionNumber = none ∧ Cpp.ManagedKeyset.read P reader true = some (.ok (some m.cpp))

/-- The same call on the three, with the answer of each. -/
structure Step (m : Machines κ) (op : Op) (g : Generated κ) (python java cpp : Answer) (m' : Machines κ) : Prop where
  python : pythonStep C m.python op g = some (python, m'.python)
  java : javaStep P m.java op g = some (java, m'.java)
  cpp : cppStep P m.cpp op g = some (cpp, m'.cpp)

/-- The generators of the three give a key whose hash is not in use, when a version is added. -/
def Generates (m : Machines κ) (op : Op) (g : Generated κ) : Prop :=
  match op with
  | .add _ =>
    (∃ key, Python.genUnusedKey C m.python.keys m.python.metadata.type m.python.defaultSize g.python = some (.ok key)) ∧
    (∃ key, m.java.generateUnusedKey P g.java = some (.ok key)) ∧
    ∃ key, m.cpp.generateUnusedKey P g.cpp = some (some key)
  | _ => True

/-- A version that is added finds a number that an `int` can hold, and in C++ a key whose buggy hash can be computed: not an AES key of
zeros. -/
def Safe (m : Machines κ) (op : Op) (g : Generated κ) : Prop :=
  match op with
  | .add _ => Python.GenericKeyczar.maxVersionNumber m.python + 1 < 2 ^ 31 ∧
    ∀ key, m.cpp.generateUnusedKey P g.cpp = some (some key) → ∀ e, key.buggyHash P ≠ .error e
  | _ => True

/-- Safe calls lead from one state of the three to another. -/
inductive Runs (m₀ : Machines κ) : Machines κ → Prop where
  | start : Runs m₀ m₀
  | step {m m' : Machines κ} {python java cpp : Answer} (op : Op) (g : Generated κ) : Runs m₀ m → Generates C P m op g →
    Safe P m op g → Step C P m op g python java cpp m' → Runs m₀ m'

/-! ## What can be seen of the three -/

/-- The numbers and statuses of the versions in the metadata. -/
def pythonVersions (s : Python.Keyczar κ) : List (Int × Lifecycle.Status) :=
  s.metadata.refs.map fun r => ((s.heap.object r).versionNumber, (s.heap.object r).status.lifecycle)

def javaVersions (z : Java.GenericKeyczar) : List (Int × Lifecycle.Status) :=
  z.kmd.versions.map fun r => (z.number r, Java.KeyStatus.lifecycle (z.status r))

def cppVersions (s : Cpp.ManagedKeyset) : List (Int × Lifecycle.Status) :=
  s.metadata.keyVersionsMap.entries.map fun (n, v) => (n, v.keyStatus.status)

/-- The number of the primary version, if there is one. -/
def pythonPrimary (s : Python.Keyczar κ) : Option Int := s.primaryVersion.map fun r => (s.heap.object r).versionNumber

def javaPrimary (z : Java.GenericKeyczar) : Option Int := z.primaryVersion.map z.number

def cppPrimary (s : Cpp.ManagedKeyset) : Option Int :=
  if s.primaryKeyVersionNumber = 0 then none else some s.primaryKeyVersionNumber

/-- The three hold the same versions, and have the same primary version. -/
structure SameVersions (m : Machines κ) : Prop where
  java_iff : ∀ v, v ∈ pythonVersions m.python ↔ v ∈ javaVersions m.java
  cpp_iff : ∀ v, v ∈ pythonVersions m.python ↔ v ∈ cppVersions m.cpp
  java_primary : pythonPrimary m.python = javaPrimary m.java
  cpp_primary : pythonPrimary m.python = cppPrimary m.cpp

/-! ## The lifecycle of the three -/

/-- The three simulate one lifecycle. -/
structure Simulate (m : Machines κ) (t : Lifecycle.State) : Prop where
  python : Python.GenericKeyczar.Simulates m.python t
  java : m.java.Consistent
  java_eq : m.java.lifecycle = t
  cpp : m.cpp.Simulates P t

variable {C P} {t : Lifecycle.State}

theorem mem_pythonVersions_iff {s : Python.Keyczar κ} (h : Python.GenericKeyczar.Simulates s t) (v : Int × Lifecycle.Status) :
    v ∈ pythonVersions s ↔ t.status v.1 = some v.2 := by
  unfold pythonVersions
  rw [List.mem_map, ← h.state_eq]
  show _ ↔ (s.metadata.versions.lookup v.1).map (fun r => (s.heap.object r).status.lifecycle) = some v.2
  rw [Option.map_eq_some_iff]
  constructor
  · rintro ⟨r, hr, rfl⟩
    exact ⟨r, (h.live.mem_refs_iff r).mp hr, rfl⟩
  · rintro ⟨r, hr, hst⟩
    exact ⟨r, (s.metadata.mem_refs_iff r).mpr ⟨_, hr⟩, Prod.ext (h.live.fits _ _ hr).2 hst⟩

theorem mem_javaVersions_iff {z : Java.GenericKeyczar} (h : z.Consistent) (v : Int × Lifecycle.Status) :
    v ∈ javaVersions z ↔ z.lifecycle.status v.1 = some v.2 := by
  unfold javaVersions
  rw [List.mem_map]
  show _ ↔ (z.kmd.versionMap v.1).map (fun r => Java.KeyStatus.lifecycle (z.status r)) = some v.2
  rw [Option.map_eq_some_iff]
  constructor
  · rintro ⟨r, hr, rfl⟩
    exact ⟨r, (h.map_iff _ r).mpr ⟨hr, rfl⟩, rfl⟩
  · rintro ⟨r, hr, hst⟩
    obtain ⟨hmem, hn⟩ := (h.map_iff _ r).mp hr
    exact ⟨r, hmem, Prod.ext hn hst⟩

theorem mem_cppVersions_iff (s : Cpp.ManagedKeyset) (v : Int × Lifecycle.Status) :
    v ∈ cppVersions s ↔ s.lifecycle.status v.1 = some v.2 := by
  unfold cppVersions
  rw [List.mem_map]
  show _ ↔ (s.metadata.keyVersionsMap.find v.1).map (fun w => w.keyStatus.status) = some v.2
  rw [Option.map_eq_some_iff]
  constructor
  · rintro ⟨⟨n, w⟩, hw, rfl⟩
    exact ⟨w, s.metadata.keyVersionsMap.mem_entries_iff.mp hw, rfl⟩
  · rintro ⟨w, hw, hst⟩
    exact ⟨(v.1, w), s.metadata.keyVersionsMap.mem_entries_iff.mpr hw, Prod.ext rfl hst⟩

/-- What can be seen of the three is that of the lifecycle. -/
theorem Simulate.sameVersions {m : Machines κ} (h : Simulate P m t) : SameVersions m := by
  have hcpp : (m.cpp.withNext t.next).lifecycle.status = t.status := congrArg Lifecycle.State.status h.cpp.lifecycle_eq
  refine ⟨?_, ?_, ?_, ?_⟩
  · intro v
    rw [mem_pythonVersions_iff h.python, mem_javaVersions_iff h.java, h.java_eq]
  · intro v
    rw [mem_pythonVersions_iff h.python, ← hcpp]
    exact (mem_cppVersions_iff m.cpp v).symm
  · exact congrArg Lifecycle.State.primary (h.python.state_eq.trans h.java_eq.symm)
  · exact congrArg Lifecycle.State.primary (h.python.state_eq.trans h.cpp.lifecycle_eq.symm)

/-! ## One call -/

/-- A call in Python answers and goes on as the lifecycle does. -/
theorem python_step {s : Python.Keyczar κ} (h : Python.GenericKeyczar.Simulates s t) (op : Op) (g : Generated κ)
    (hgen : ∀ status, op = .add status →
      ∃ key, Python.genUnusedKey C s.keys s.metadata.type s.defaultSize g.python = some (.ok key)) :
    ∃ s', pythonStep C s op g = some (answer t op, s') ∧ Python.GenericKeyczar.Simulates s' (advance t op) := by
  have hstatus : ∀ {o result}, Python.GenericKeyczar.Agrees s o result → (∀ status, op ≠ .add status) →
      pythonAnswer s op result.1 = statusAnswer o ∧ Python.GenericKeyczar.Simulates result.2 (o.getD t) := by
    intro o result hagrees hop
    cases o with
    | none =>
      obtain ⟨e, rfl⟩ := hagrees
      exact ⟨by cases op <;> rfl, h⟩
    | some t' =>
      obtain ⟨hok, hs'⟩ := hagrees
      refine ⟨?_, hs'⟩
      rw [hok]
      cases op with
      | add status => exact absurd rfl (hop status)
      | _ => rfl
  cases op with
  | add status =>
    obtain ⟨key, hkey⟩ := hgen status rfl
    have hdefault : Python.genUnusedKey C s.keys s.metadata.type ((none : Option Int).getD s.defaultSize) g.python = some (.ok key) := hkey
    obtain ⟨s', hadd, hs'⟩ := h.addVersion status.python hdefault
    rw [VersionStatus.lifecycle_python] at hs'
    have hnext : Python.GenericKeyczar.maxVersionNumber s + 1 = t.next := congrArg Lifecycle.State.next h.state_eq
    refine ⟨s', ?_, hs'⟩
    unfold pythonStep answer
    rw [show Python.GenericKeyczar.step C s (pythonCall g (.add status)) = some (.ok (), s') from hadd, ← hnext]
    rfl
  | promote n =>
    obtain ⟨hanswer, hs'⟩ := hstatus (h.promote C n) nofun
    exact ⟨_, congrArg some (Prod.ext hanswer rfl), hs'⟩
  | demote n =>
    obtain ⟨hanswer, hs'⟩ := hstatus (h.demote C n) nofun
    exact ⟨_, congrArg some (Prod.ext hanswer rfl), hs'⟩
  | revoke n =>
    obtain ⟨hanswer, hs'⟩ := hstatus (h.revoke C n) nofun
    exact ⟨_, congrArg some (Prod.ext hanswer rfl), hs'⟩

/-- The answer to a change of status is that of the lifecycle. -/
theorem java_status {z : Java.GenericKeyczar} (h : z.Consistent) (hz : z.lifecycle = t) (op : Op) (hop : ∀ status, op ≠ .add status)
    {o : Option Lifecycle.State} {result : Except Java.Exception Unit × Java.GenericKeyczar}
    (hagrees : match o with
      | some t' => result.1 = .ok () ∧ result.2.lifecycle = t' ∧ result.2.Consistent
      | none => ∃ e, result = (.error e, z)) :
    javaAnswer z op result.1 = statusAnswer o ∧ result.2.Consistent ∧ result.2.lifecycle = o.getD t := by
  cases o with
  | none =>
    obtain ⟨e, rfl⟩ := hagrees
    exact ⟨by cases op <;> rfl, h, hz⟩
  | some t' =>
    obtain ⟨hok, hlife, hs'⟩ := hagrees
    refine ⟨?_, hs', hlife⟩
    rw [hok]
    cases op with
    | add status => exact absurd rfl (hop status)
    | _ => rfl

/-- A call in Java likewise, while the numbers have room. -/
theorem java_step {z : Java.GenericKeyczar} (h : z.Consistent) (hz : z.lifecycle = t) (op : Op) (g : Generated κ)
    (hgen : ∀ status, op = .add status → t.next < 2 ^ 31 ∧ ∃ key, z.generateUnusedKey P g.java = some (.ok key)) :
    ∃ z', javaStep P z op g = some (answer t op, z') ∧ z'.Consistent ∧ z'.lifecycle = advance t op := by
  cases op with
  | add status =>
    obtain ⟨hroom, key, hkey⟩ := hgen status rfl
    have hnext : z.maxVersion + 1 = t.next := congrArg Lifecycle.State.next hz
    rw [← hnext] at hroom
    obtain ⟨z', hadd, hz', hlife⟩ := h.addGeneratedVersion hroom (some status.java) hkey
    rw [VersionStatus.lifecycle_java, hz] at hlife
    refine ⟨z', ?_, hz', hlife⟩
    unfold javaStep answer
    rw [show z.step P (javaCall g (.add status)) = some (.ok (), z') from hadd, ← hnext,
      ← Java.GenericKeyczar.nextNumber_of_lt hroom]
    rfl
  | promote n =>
    have hpromote := h.promote n
    rw [hz] at hpromote
    obtain ⟨hanswer, hs'⟩ := java_status h hz (.promote n) (fun _ heq => by cases heq) hpromote
    exact ⟨_, congrArg some (Prod.ext hanswer rfl), hs'⟩
  | demote n =>
    have hdemote := h.demote n
    rw [hz] at hdemote
    obtain ⟨hanswer, hs'⟩ := java_status h hz (.demote n) (fun _ heq => by cases heq) hdemote
    exact ⟨_, congrArg some (Prod.ext hanswer rfl), hs'⟩
  | revoke n =>
    have hrevoke := h.revoke n
    rw [hz] at hrevoke
    obtain ⟨hanswer, hs'⟩ := java_status h hz (.revoke n) (fun _ heq => by cases heq) hrevoke
    exact ⟨_, congrArg some (Prod.ext hanswer rfl), hs'⟩

/-- A call in C++ likewise, when the buggy hash of a key that is added can be computed too. -/
theorem cpp_step {s : Cpp.ManagedKeyset} (h : s.Simulates P t) (op : Op) (g : Generated κ)
    (hgen : ∀ status, op = .add status → t.next < 2 ^ 31 ∧
      ∃ key, s.generateUnusedKey P g.cpp = some (some key) ∧ ∀ e, key.buggyHash P ≠ .error e) :
    ∃ s', cppStep P s op g = some (answer t op, s') ∧ s'.Simulates P (advance t op) := by
  have hstatus : ∀ {o result}, Cpp.ManagedKeyset.Agrees P s o result →
      cppAnswer result.1 = statusAnswer o ∧ result.2.Simulates P (o.getD t) := by
    intro o result hagrees
    cases o with
    | none =>
      cases hagrees
      exact ⟨rfl, h⟩
    | some t' =>
      obtain ⟨htrue, hs'⟩ := hagrees
      rw [htrue]
      exact ⟨rfl, hs'⟩
  cases op with
  | add status =>
    obtain ⟨hroom, key, hkey, hbuggy⟩ := hgen status rfl
    obtain ⟨result, s', hadd, hs', hresult⟩ := h.generateKey hroom status.cpp hkey
    rw [VersionStatus.status_cpp] at hs'
    have hok : result = .ok t.next := by
      rcases hresult with hok | ⟨e, he, -⟩
      · exact hok
      · exact absurd he (hbuggy e)
    have hpos : t.next ≠ 0 := by
      have := h.consistent.next_pos
      exact Int.ne_of_gt this
    refine ⟨s', ?_, hs'⟩
    unfold cppStep answer
    dsimp only
    rw [hadd, hok]
    exact congrArg some (Prod.ext (if_neg hpos) rfl)
  | promote n =>
    obtain ⟨hanswer, hs'⟩ := hstatus (h.promoteKey n)
    exact ⟨_, congrArg some (Prod.ext hanswer rfl), hs'⟩
  | demote n =>
    obtain ⟨hanswer, hs'⟩ := hstatus (h.demoteKey n)
    exact ⟨_, congrArg some (Prod.ext hanswer rfl), hs'⟩
  | revoke n =>
    obtain ⟨hanswer, hs'⟩ := hstatus (h.revokeKey n)
    exact ⟨_, congrArg some (Prod.ext hanswer rfl), hs'⟩

/-- A safe call gets the same answer from the three, and they go on as one lifecycle. -/
theorem Simulate.step {m : Machines κ} (h : Simulate P m t) {op : Op} {g : Generated κ} (hgen : Generates C P m op g)
    (hsafe : Safe P m op g) :
    ∃ m', Step C P m op g (answer t op) (answer t op) (answer t op) m' ∧ Simulate P m' (advance t op) := by
  have hnext : Python.GenericKeyczar.maxVersionNumber m.python + 1 = t.next := congrArg Lifecycle.State.next h.python.state_eq
  obtain ⟨s, hs, hsim⟩ := python_step (C := C) h.python op g (by
    rintro status rfl
    exact hgen.1)
  obtain ⟨z, hz, hzc, hzl⟩ := java_step (P := P) h.java h.java_eq op g (by
    rintro status rfl
    exact ⟨hnext ▸ hsafe.1, hgen.2.1⟩)
  obtain ⟨w, hw, hwsim⟩ := cpp_step h.cpp op g (by
    rintro status rfl
    obtain ⟨key, hkey⟩ := hgen.2.2
    exact ⟨hnext ▸ hsafe.1, key, hkey, hsafe.2 key hkey⟩)
  exact ⟨⟨s, z, w⟩, ⟨hs, hz, hw⟩, ⟨hsim, hzc, hzl, hwsim⟩⟩

/-! ## Runs -/

/-- Started from the same list, the three simulate one lifecycle. -/
theorem Started.simulate {versions : List Version} {m : Machines κ} (h : Started C P versions m)
    (hpos : ∀ v ∈ versions, 0 < v.number) (hdistinct : (versions.map Version.number).Nodup) : ∃ t, Simulate P m t := by
  obtain ⟨order, reader, hreader, hpython⟩ := h.python
  obtain ⟨jreader, hjreader, hjava⟩ := h.java
  obtain ⟨creader, value, hvalue, hversions, hnone, hcpp⟩ := h.cpp
  have hsim := Python.GenericKeyczar.simulates_of_init hpython
  have hholds : Lifecycle.Holds (versions.map Version.entry) (Python.GenericKeyczar.registry m.python).state := by
    refine Python.GenericKeyczar.holds_of_init ?_ ?_ hpython
    · rw [hreader, List.map_map]
      exact hdistinct
    · intro n status
      rw [hreader]
      simp [Version.entry, Version.python, VersionStatus.getStatus_name, Except.map]
  have hjdistinct : (jreader.metadata.versions.map Java.VersionObject.versionNumber).Nodup := by
    rw [hjreader, List.map_map]
    exact hdistinct
  have hloaded := Java.GenericKeyczar.loaded_of_new hjdistinct hjava
  have hjholds : Lifecycle.Holds (versions.map Version.entry) m.java.lifecycle := by
    refine hloaded.holds ?_
    intro n status
    rw [hjreader]
    simp [Version.entry, Version.java]
  have hconsistent := hloaded.consistent hjdistinct
  refine ⟨_, hsim, hconsistent, hjholds.unique hholds hconsistent.sound hsim.wellformed.sound, ?_⟩
  refine Cpp.ManagedKeyset.simulates_of_read hvalue hnone ?_ ?_ hcpp ?_ hholds hsim.wellformed.sound
  · intro v hv
    rw [hversions] at hv
    obtain ⟨w, hw, rfl⟩ := List.mem_map.mp hv
    exact hpos w hw
  · rw [hversions, List.map_map]
    exact hdistinct
  · intro n status
    rw [hversions]
    simp [Version.entry, Version.cpp, VersionStatus.getTypeFromName_name]

/-- A call leads to one state. -/
theorem Step.unique {m m' m'' : Machines κ} {op : Op} {g : Generated κ} {p j c p' j' c' : Answer} (h : Step C P m op g p j c m')
    (h' : Step C P m op g p' j' c' m'') : m' = m'' := by
  have hpython := h.python.symm.trans h'.python
  have hjava := h.java.symm.trans h'.java
  have hcpp := h.cpp.symm.trans h'.cpp
  cases m'
  cases m''
  simp only [Option.some.injEq, Prod.mk.injEq] at hpython hjava hcpp
  rw [hpython.2, hjava.2, hcpp.2]

/-- After every run of safe calls the three simulate one lifecycle. -/
theorem Runs.simulate {m₀ m : Machines κ} (h : Runs C P m₀ m) (h₀ : ∃ t, Simulate P m₀ t) : ∃ t, Simulate P m t := by
  induction h with
  | start => exact h₀
  | step op g _ hgen hsafe hstep ih =>
    obtain ⟨t, ht⟩ := ih
    obtain ⟨m', hm', hsim⟩ := ht.step hgen hsafe
    exact ⟨_, hstep.unique hm' ▸ hsim⟩

theorem answer_ne_threw (t : Lifecycle.State) (op : Op) : answer t op ≠ .threw := by
  have hstatus : ∀ o : Option Lifecycle.State, statusAnswer o ≠ .threw := by
    intro o
    cases o <;> simp [statusAnswer]
  cases op with
  | add status => simp [answer]
  | promote n => exact hstatus _
  | demote n => exact hstatus _
  | revoke n => exact hstatus _

/-- Started from the same list of versions with distinct positive numbers, after every run of safe calls the three hold the same
versions with the same statuses and have the same primary version; every further safe call gets one answer from all of them, and a
version that is added gets one number. -/
theorem machines_agree {versions : List Version} {m₀ m : Machines κ} (hstart : Started C P versions m₀)
    (hpos : ∀ v ∈ versions, 0 < v.number) (hdistinct : (versions.map Version.number).Nodup) (h : Runs C P m₀ m) :
    SameVersions m ∧ ∀ op g, Generates C P m op g → Safe P m op g →
      ∃ a m', Step C P m op g a a a m' ∧ a ≠ .threw ∧ ∀ status, op = .add status → ∃ n, a = .given n := by
  obtain ⟨t, ht⟩ := h.simulate (hstart.simulate hpos hdistinct)
  refine ⟨ht.sameVersions, ?_⟩
  intro op g hgen hsafe
  obtain ⟨m', hm', -⟩ := ht.step hgen hsafe
  refine ⟨_, m', hm', answer_ne_threw t op, ?_⟩
  rintro status rfl
  exact ⟨t.next, rfl⟩

end Machines

/-! ## Small key sets -/

def smallPython {κ : Type} (type purpose : String) (versions : List Version) (key : κ) : Python.Reader κ where
  metadata := { name := "small", purpose, type, encrypted := false, versions := versions.map Version.python }
  isEncryptedReader := false
  getKey _ _ := .ok key

def smallCpp (type purpose : String) (versions : List Version) : Cpp.KeysetReader where
  readMetadata := some ⟨"small", type, purpose, false, none, versions.map Version.cpp⟩
  readKey _ n := some (.other [UInt8.ofNat n.toNat] fun _ _ => false)

/-- The three are started when each has loaded its key set. -/
theorem started_small {κ ρ : Type} {C : Python.KeyClass κ ρ} {P : Primitives} (type ctype purpose : String) {versions : List Version}
    (key : κ) {m : Machines κ}
    (hpython : Python.GenericKeyczar.init C Python.asListed (smallPython type purpose versions key) = .ok m.python)
    (hjava : Java.GenericKeyczar.new P (Java.GenericKeyczar.smallReader (versions.map Version.java)) = .ok m.java)
    (hcpp : Cpp.ManagedKeyset.read P (smallCpp ctype purpose versions) true = some (.ok (some m.cpp))) : Started C P versions m :=
  ⟨⟨_, _, rfl, hpython⟩, ⟨_, rfl, hjava⟩, ⟨_, _, rfl, rfl, rfl, hcpp⟩⟩

/-- Keys for a second version. -/
def smallGenerated : Generated Python.HmacKey where
  python := [.ok Python.otherKey]
  java := [.ok (.other [9, 9, 9, 9] [])]
  cpp := [some (.other [99] fun _ _ => false)]

theorem machines_agree_small : ∃ m₀ m, Started (Python.hmacKeys Primitives.plain) Primitives.plain [⟨1, .primary, false⟩] m₀ ∧
    Runs (Python.hmacKeys Primitives.plain) Primitives.plain m₀ m ∧ pythonPrimary m.python = some 2 ∧ SameVersions m := by
  have hloaded : ∃ m₀ : Machines Python.HmacKey,
      Python.GenericKeyczar.init (Python.hmacKeys Primitives.plain) Python.asListed
        (smallPython "HMAC_SHA1" "SIGN_AND_VERIFY" [⟨1, .primary, false⟩] Python.smallKey) = .ok m₀.python ∧
      Java.GenericKeyczar.new Primitives.plain (Java.GenericKeyczar.smallReader ([⟨1, .primary, false⟩].map Version.java)) = .ok m₀.java ∧
      Cpp.ManagedKeyset.read Primitives.plain (smallCpp "HMAC" "SIGN_AND_VERIFY" [⟨1, .primary, false⟩]) true =
        some (.ok (some m₀.cpp)) ∧
      ∃ m, Generates (Python.hmacKeys Primitives.plain) Primitives.plain m₀ (.add .primary) smallGenerated ∧
        Safe Primitives.plain m₀ (.add .primary) smallGenerated ∧
        Step (Python.hmacKeys Primitives.plain) Primitives.plain m₀ (.add .primary) smallGenerated (.given 2) (.given 2) (.given 2) m ∧
        pythonPrimary m.python = some 2 := by
    refine ⟨⟨_, _, _⟩, rfl, rfl, rfl, ⟨_, _, _⟩, ⟨⟨_, rfl⟩, ⟨_, rfl⟩, ⟨_, rfl⟩⟩, ⟨by decide, ?_⟩, ⟨rfl, rfl, rfl⟩, rfl⟩
    intro key hkey e he
    cases hkey
    cases he
  obtain ⟨m₀, hpython, hjava, hcpp, m, hgen, hsafe, hstep, hprimary⟩ := hloaded
  have hstart := started_small _ _ _ _ hpython hjava hcpp
  have hrun := Runs.step _ _ Runs.start hgen hsafe hstep
  exact ⟨m₀, m, hstart, hrun, hprimary, (machines_agree hstart (by decide) (by decide) hrun).1⟩

theorem validKeyLength_zeros : Cpp.validKeyLength (List.replicate 16 (0 : UInt8)).length := by decide

/-- AES keys of zeros. -/
def zeroGenerated : Generated Python.AesKey where
  python := [.ok { keyBytes := List.replicate 16 0, hmacKey := Python.smallKey }]
  java := [.ok (.aes { aesBytes := List.replicate 16 0, hmacKey := ⟨[1, 2, 3, 4], nofun⟩, ne_nil := nofun })]
  cpp := [some (.aes ⟨⟨List.replicate 16 0, validKeyLength_zeros⟩, ⟨[1, 2, 3, 4], .sha1⟩⟩)]

/-- After the largest version number that an `int` can hold, Python goes on, Java gives a negative number, and C++ aborts. And a key of
zeros, which Python and Java add, makes the C++ key set throw. -/
theorem machines_differ :
    (∃ m, Started (Python.hmacKeys Primitives.plain) Primitives.plain [⟨2 ^ 31 - 1, .active, false⟩] m ∧
      Generates (Python.hmacKeys Primitives.plain) Primitives.plain m (.add .active) smallGenerated ∧
      (∃ s, pythonStep (Python.hmacKeys Primitives.plain) m.python (.add .active) smallGenerated = some (.given (2 ^ 31), s)) ∧
      (∃ z, javaStep Primitives.plain m.java (.add .active) smallGenerated = some (.given (-2 ^ 31), z)) ∧
      cppStep Primitives.plain m.cpp (.add .active) smallGenerated = none) ∧
    ∃ m, Started (Python.aesKeys Primitives.plain) Primitives.plain [] m ∧
      Generates (Python.aesKeys Primitives.plain) Primitives.plain m (.add .primary) zeroGenerated ∧
      (∃ s, pythonStep (Python.aesKeys Primitives.plain) m.python (.add .primary) zeroGenerated = some (.given 1, s)) ∧
      (∃ z, javaStep Primitives.plain m.java (.add .primary) zeroGenerated = some (.given 1, z)) ∧
      ∃ s, cppStep Primitives.plain m.cpp (.add .primary) zeroGenerated = some (.threw, s) := by
  constructor
  · exact ⟨⟨_, _, _⟩, started_small "HMAC_SHA1" "HMAC" "SIGN_AND_VERIFY" Python.smallKey rfl rfl rfl,
      ⟨⟨_, rfl⟩, ⟨_, rfl⟩, ⟨_, rfl⟩⟩, ⟨_, rfl⟩, ⟨_, rfl⟩, rfl⟩
  · exact ⟨⟨_, _, _⟩, started_small "AES" "AES" "DECRYPT_AND_ENCRYPT" { keyBytes := [], hmacKey := Python.smallKey } rfl rfl rfl,
      ⟨⟨_, rfl⟩, ⟨_, rfl⟩, ⟨_, rfl⟩⟩, ⟨_, rfl⟩, ⟨_, rfl⟩, ⟨_, rfl⟩⟩

end Interop
