import Keyczar.Python.MemoryAgreement

/-!
# Writes that are cut short

`Write` writes the metadata first and then each key, a file each. When it fails in between, the metadata of the changed key set stands
beside key files that were there before. `FileReader` reads what there is.
-/

namespace Python

variable {κ ρ : Type} {C : KeyClass κ ρ}

/-! ## Files: `readers.py` and `writers.py` -/

/-- The text in a key file: of a key, as it is or encrypted. -/
structure KeyText (κ : Type) where
  key : κ
  encrypted : Bool

/-- A directory with a key set: its name, the file `meta` and the key files, which have version numbers for names. -/
structure Directory (κ : Type) where
  location : String
  metadata : JsonMetadata
  keyFile : Int → Option (KeyText κ)

/-- `os.path.join`, of a name that is not a path. -/
def osPathJoin (path name : String) : String :=
  if path.isEmpty || path.endsWith "/" then path ++ name else path ++ "/" ++ name

namespace Directory

/-- `FileReader`, or an `EncryptedReader` around it. What reading a text in the other form raises depends on the text. -/
def reader (mismatch : KeyText κ → PyError) (d : Directory κ) (crypter : Bool) : Reader κ where
  metadata := d.metadata
  isEncryptedReader := crypter
  getKey _ versionNumber :=
    match d.keyFile versionNumber with
    | none => .error (.keyczarError ("Unable to read file " ++ osPathJoin d.location (toString versionNumber) ++ "."))
    | some text => if text.encrypted = crypter then .ok text.key else .error (mismatch text)

end Directory

/-- A file that `FileWriter` writes. -/
inductive FileWrite (κ : Type) where
  | metadata (text : JsonMetadata)
  | key (versionNumber : Int) (text : KeyText κ)

/-- `util.WriteFile`, when it succeeds. -/
def Directory.write (d : Directory κ) : FileWrite κ → Directory κ
  | .metadata text => { d with metadata := text }
  | .key versionNumber text => { d with keyFile := Function.update d.keyFile versionNumber (some text) }

/-- The files that `Write` writes, in their order. -/
def Written.fileWrites (w : Written κ) (encrypted : Bool) : List (FileWrite κ) :=
  .metadata w.metadata :: w.keys.map fun p => .key p.1 ⟨p.2, encrypted⟩

/-- The directory after the first of the writes. -/
def Directory.writeFirst (d : Directory κ) (k : Nat) (w : Written κ) (encrypted : Bool) : Directory κ :=
  ((w.fileWrites encrypted).take k).foldl Directory.write d

namespace GenericKeyczar

/-! ## What a run keeps -/

/-- No two versions with keys have the same number. -/
def DistinctNumbers (s : Keyczar κ) : Prop :=
  ∀ r ∈ s.versions, ∀ r' ∈ s.versions, (s.heap.object r).versionNumber = (s.heap.object r').versionNumber → r = r'

theorem distinctNumbers_of_init {order : DictOrder} {reader : Reader κ} {s : Keyczar κ} (h : init C order reader = .ok s) :
    DistinctNumbers s := by
  have hfits := (live_of_init h).fits
  intro r hr r' hr' heq
  obtain ⟨n, hn⟩ := (s.metadata.mem_refs_iff r).mp (mem_refs_of_init h hr)
  obtain ⟨n', hn'⟩ := (s.metadata.mem_refs_iff r').mp (mem_refs_of_init h hr')
  rw [(hfits n r hn).2, (hfits n' r' hn').2] at heq
  subst heq
  exact Option.some.inj (hn.symm.trans hn')

/-- At most one version of the metadata is primary, and it is the primary version. -/
def PrimaryListed (s : Keyczar κ) : Prop :=
  ∀ r ∈ s.metadata.refs, (s.heap.object r).status = .primary → s.primaryVersion = some r

theorem PrimaryListed.setStatus {s : Keyczar κ} (h : PrimaryListed s) {version : Ref} {status : KeyStatus} (hs : status ≠ .primary) :
    PrimaryListed { s with heap := s.heap.setStatus version status } := by
  intro r hr hst
  have hst' : ((s.heap.setStatus version status).object r).status = .primary := hst
  rw [Heap.status_setStatus] at hst'
  split at hst'
  · exact absurd hst' hs
  · exact h r hr hst'

/-- Making a version primary, with the demotion of the primary version. -/
theorem PrimaryListed.makePrimary {s : Keyczar κ} (h : PrimaryListed s) (version : Ref) :
    PrimaryListed { s with
      heap := (s.heap.setStatus version .primary).setStatusOfSome s.primaryVersion .active
      primaryVersion := some version } := by
  intro r hr hst
  have hst' : (((s.heap.setStatus version .primary).setStatusOfSome s.primaryVersion .active).object r).status = .primary := hst
  rw [Heap.status_setStatusOfSome, Heap.status_setStatus] at hst'
  split at hst'
  · cases hst'
  · rename_i hne
    split at hst'
    · rename_i heq
      exact congrArg some heq.symm
    · exact absurd (h r hr hst') hne

theorem PrimaryListed.clearPrimary {s : Keyczar κ} (h : PrimaryListed s) {version : Ref} (hmem : version ∈ s.metadata.refs)
    (hv : (s.heap.object version).status = .primary) :
    PrimaryListed { s with heap := s.heap.setStatus version .active, primaryVersion := none } := by
  intro r hr hst
  have hst' : ((s.heap.setStatus version .active).object r).status = .primary := hst
  rw [Heap.status_setStatus] at hst'
  split at hst'
  · cases hst'
  · rename_i hne
    exact absurd (Option.some.inj ((h r hr hst').symm.trans (h version hmem hv))) hne

theorem PrimaryListed.addVersionObject {s : Keyczar κ} (h : PrimaryListed s) (hl : Live s) (status : KeyStatus) :
    PrimaryListed (GenericKeyczar.addVersionObject s status) := by
  intro r hr hst
  rw [metadata_addVersionObject] at hr
  rw [status_addVersionObject_of_lt (hl.version_lt r (hl.listed r hr))] at hst
  rw [primaryVersion_addVersionObject]
  split at hst
  · cases hst
  · rename_i hne
    have hp := h r hr hst
    rw [if_neg fun hprimary => hne ⟨hprimary, hp⟩, hp]

theorem PrimaryListed.addKey {s : Keyczar κ} (h : PrimaryListed s) (hl : Live s) (status : KeyStatus) (key : κ) :
    PrimaryListed (GenericKeyczar.addKey C (GenericKeyczar.addVersionObject s status) s.heap.next key) := by
  intro r hr hst
  rcases (hl.mem_refs_addKey_iff status key r).mp hr with rfl | hr
  · have hne : s.primaryVersion ≠ some s.heap.next := fun hp => Nat.lt_irrefl _ (hl.primary_lt _ hp)
    have hself := status_addVersionObject_self hne status
    have hprimary : status = .primary := hself.symm.trans hst
    show (GenericKeyczar.addVersionObject s status).primaryVersion = some s.heap.next
    rw [primaryVersion_addVersionObject, if_pos hprimary]
  · refine h.addVersionObject hl status r ?_ hst
    rw [metadata_addVersionObject]
    exact hr

/-- What a call keeps whatever it answers: the versions with keys, their keys and numbers; and the metadata gets only new versions. -/
structure Since (s s' : Keyczar κ) : Prop where
  lookup : ∀ {r key}, s.keys.lookup (.version r) = some key → s'.keys.lookup (.version r) = some key
  number : ∀ r ∈ s.versions, (s'.heap.object r).versionNumber = (s.heap.object r).versionNumber
  distinct : DistinctNumbers s → DistinctNumbers s'
  primary : PrimaryListed s → PrimaryListed s'

theorem since_refl (s : Keyczar κ) : Since s s := ⟨id, fun _ _ => rfl, id, id⟩

theorem Since.versions {s s' : Keyczar κ} (h : Since s s') {r : Ref} (hr : r ∈ s.versions) : r ∈ s'.versions := by
  obtain ⟨key, hkey⟩ := mem_versions_iff.mp hr
  exact mem_versions_iff.mpr ⟨key, h.lookup hkey⟩

theorem Since.trans {s t u : Keyczar κ} (h : Since s t) (h' : Since t u) : Since s u :=
  ⟨fun hk => h'.lookup (h.lookup hk), fun r hr => (h'.number r (h.versions hr)).trans (h.number r hr),
    fun hd => h'.distinct (h.distinct hd), fun hp => h'.primary (h.primary hp)⟩

/-- Only statuses and the primary version have changed. -/
theorem since_of_statuses {s : Keyczar κ} {heap : Heap} {primaryVersion : Option Ref}
    (hnumber : ∀ r, (heap.object r).versionNumber = (s.heap.object r).versionNumber)
    (hprimary : PrimaryListed s → PrimaryListed { s with heap, primaryVersion }) : Since s { s with heap, primaryVersion } := by
  refine ⟨id, fun r _ => hnumber r, ?_, hprimary⟩
  intro hd r hr r' hr' heq
  refine hd r hr r' hr' ?_
  rw [← hnumber r, ← hnumber r']
  exact heq

theorem Live.since_addVersionObject {s : Keyczar κ} (h : Live s) (status : KeyStatus) :
    Since s (GenericKeyczar.addVersionObject s status) := by
  have hnumber : ∀ r ∈ s.versions, ((GenericKeyczar.addVersionObject s status).heap.object r).versionNumber =
      (s.heap.object r).versionNumber := fun r hr => versionNumber_addVersionObject_of_lt (h.version_lt r hr) status
  refine ⟨?_, hnumber, ?_, fun hp => hp.addVersionObject h status⟩
  · intro r key hk
    rw [keys_addVersionObject]
    exact hk
  · intro hd r hr r' hr' heq
    rw [versions_addVersionObject] at hr hr'
    rw [hnumber r hr, hnumber r' hr'] at heq
    exact hd r hr r' hr' heq

theorem Live.since_addKey {s : Keyczar κ} (h : Live s) (status : KeyStatus) (key : κ) :
    Since s (GenericKeyczar.addKey C (GenericKeyczar.addVersionObject s status) s.heap.next key) := by
  have hobject := h.since_addVersionObject status
  have hself : ((GenericKeyczar.addVersionObject s status).heap.object s.heap.next).versionNumber = maxVersionNumber s + 1 :=
    versionNumber_addVersionObject_self s status
  have hnew : ∀ r ∈ s.versions, ((GenericKeyczar.addVersionObject s status).heap.object r).versionNumber < maxVersionNumber s + 1 := by
    intro r hr
    rw [hobject.number r hr]
    have hle := le_maxVersionNumber hr
    omega
  refine ⟨?_, hobject.number, ?_, fun hp => hp.addKey h status key⟩
  · intro r found hk
    have hne : r ≠ s.heap.next := by
      rintro rfl
      rw [h.lookup_next] at hk
      cases hk
    show (Keyczar.addEntries C (GenericKeyczar.addVersionObject s status).keys s.heap.next key).lookup (.version r) = some found
    rw [Keyczar.lookup_addEntries_version_of_ne _ _ hne]
    exact hobject.lookup hk
  · intro hd r hr r' hr' heq
    have heq' : ((GenericKeyczar.addVersionObject s status).heap.object r).versionNumber =
        ((GenericKeyczar.addVersionObject s status).heap.object r').versionNumber := heq
    rw [mem_versions_addKey_iff, versions_addVersionObject] at hr hr'
    rcases hr with rfl | hr
    · rcases hr' with rfl | hr'
      · rfl
      · have hlt := hnew r' hr'
        omega
    · rcases hr' with rfl | hr'
      · have hlt := hnew r hr
        omega
      · rw [hobject.number r hr, hobject.number r' hr'] at heq'
        exact hd r hr r' hr' heq'

theorem Live.since_step {s s' : Keyczar κ} {op : Op κ} {result : Except PyError Unit} (h : Live s)
    (hs : GenericKeyczar.step C s op = some (result, s')) : Since s s' := by
  cases op with
  | addVersion status size generated =>
    rcases addVersion_cases hs with ⟨-, -, rfl⟩ | ⟨-, -, rfl⟩ | ⟨-, -, key, -, rfl⟩
    · exact since_refl _
    · exact h.since_addVersionObject status
    · exact h.since_addKey status key
  | promote n =>
    rcases promote_cases (Option.some.inj hs) with ⟨-, rfl⟩ | ⟨-, version, hv, ⟨-, rfl⟩ | ⟨-, rfl⟩⟩
    · exact since_refl _
    · exact since_of_statuses (by simp) fun hp => hp.makePrimary version
    · exact since_of_statuses (by simp) fun hp => hp.setStatus nofun
  | demote n =>
    rcases demote_cases (Option.some.inj hs) with ⟨-, rfl⟩ | ⟨-, version, hv, ⟨hst, rfl⟩ | ⟨-, rfl⟩⟩
    · exact since_refl _
    · exact since_of_statuses (by simp) fun hp => hp.clearPrimary (mem_refs_of_getVersion hv) hst
    · exact since_of_statuses (by simp) fun hp => hp.setStatus nofun
  | revoke n =>
    rcases revoke_cases (Option.some.inj hs) with ⟨-, rfl⟩ | ⟨-, version, hv, -, rfl⟩
    · exact since_refl _
    · exact ⟨id, fun _ _ => rfl, id, fun hp r hr => hp r (mem_refs_erase hr)⟩

theorem Reachable.since {order : DictOrder} {reader : Reader κ} {s₀ s : Keyczar κ} (h₀ : init C order reader = .ok s₀)
    (h : Reachable C s₀ s) : Since s₀ s := by
  induction h with
  | start => exact since_refl s₀
  | step op run hs ih => exact ih.trans ((live_of_reachable h₀ run).since_step hs)

/-! ## The files after the first writes -/

/-- The text in the key file of a version number after some of the versions were written: that of the version with the number, or what
there was. -/
def textAfter (d : Directory κ) (s : Keyczar κ) (encrypted : Bool) (written : List Ref) (n : Int) : Option (KeyText κ) :=
  match written.find? fun r => (s.heap.object r).versionNumber = n with
  | some r => (s.keys.lookup (.version r)).map fun key => ⟨key, encrypted⟩
  | none => d.keyFile n

theorem keyEntry_eq_ok_iff {s : Keyczar κ} {r : Ref} {p : Int × κ} :
    keyEntry s r = .ok p ↔ (s.heap.object r).versionNumber = p.1 ∧ s.keys.lookup (.version r) = some p.2 := by
  unfold keyEntry
  constructor
  · intro h
    obtain ⟨key, hkey, h⟩ := Throwing.ok_of_bind h
    cases Except.ok.inj h
    exact ⟨rfl, Keyczar.getKey_eq_ok_iff.mp hkey⟩
  · rintro ⟨hnumber, hkey⟩
    rw [Keyczar.getKey_eq_ok_iff.mpr hkey, Throwing.ok_bind, hnumber]
    rfl

/-- What a map over a list with exceptions returns, element by element. -/
theorem forall₂_of_mapM {l : List Ref} {f : Ref → Except PyError (Int × κ)} {ps : List (Int × κ)} (h : l.mapM f = .ok ps) :
    List.Forall₂ (fun r p => f r = .ok p) l ps := by
  induction l generalizing ps with
  | nil =>
    cases Except.ok.inj h
    exact .nil
  | cons r l ih =>
    rw [List.mapM_cons] at h
    obtain ⟨p, hp, h⟩ := Throwing.ok_of_bind h
    obtain ⟨ps', hps, h⟩ := Throwing.ok_of_bind h
    cases Except.ok.inj h
    exact .cons hp (ih hps)

/-- Writing keys of different numbers. The metadata stays, and each key file has the text of its version or what it had. -/
theorem write_keys {s : Keyczar κ} (encrypted : Bool) {written : List Ref} {ps : List (Int × κ)}
    (hps : List.Forall₂ (fun r p => keyEntry s r = .ok p) written ps)
    (hdistinct : written.Pairwise fun r r' => (s.heap.object r).versionNumber ≠ (s.heap.object r').versionNumber) (d : Directory κ) :
    ((ps.map fun p => FileWrite.key p.1 ⟨p.2, encrypted⟩).foldl Directory.write d).metadata = d.metadata ∧
      ∀ n, ((ps.map fun p => FileWrite.key p.1 ⟨p.2, encrypted⟩).foldl Directory.write d).keyFile n =
        textAfter d s encrypted written n := by
  induction hps generalizing d with
  | nil => exact ⟨rfl, fun _ => rfl⟩
  | @cons r p written ps hp _ ih =>
    obtain ⟨hnumber, hkey⟩ := keyEntry_eq_ok_iff.mp hp
    obtain ⟨hne, hrest⟩ := List.pairwise_cons.mp hdistinct
    obtain ⟨hmeta, hfile⟩ := ih hrest (d.write (.key p.1 ⟨p.2, encrypted⟩))
    refine ⟨hmeta, ?_⟩
    intro n
    refine (hfile n).trans ?_
    unfold textAfter
    by_cases hn : (s.heap.object r).versionNumber = n
    · have hnone : written.find? (fun r => (s.heap.object r).versionNumber = n) = none := by
        rw [List.find?_eq_none]
        intro r' hr'
        rw [decide_eq_true_eq, ← hn]
        exact fun heq => hne r' hr' heq.symm
      rw [hnone, List.find?_cons_of_pos (by simpa using hn)]
      dsimp only
      rw [hkey, ← hn, hnumber]
      exact Function.update_self _ _ _
    · rw [List.find?_cons_of_neg (by simpa using hn)]
      have hsame : (d.write (.key p.1 ⟨p.2, encrypted⟩)).keyFile n = d.keyFile n :=
        Function.update_of_ne (fun heq => hn (hnumber.trans heq.symm)) _ _
      rw [hsame]

/-- The directory after the metadata and some of the keys were written. -/
theorem writeFirst_succ {s : Keyczar κ} (hd : DistinctNumbers s) {order : DictOrder} {encrypted : Bool} {w : Written κ}
    (hw : (write order s encrypted).1 = .ok w) (d : Directory κ) (j : Nat) :
    (d.writeFirst (j + 1) w encrypted).metadata = KeyMetadata.toJson order s.heap { s.metadata with encrypted } ∧
      ∀ n, (d.writeFirst (j + 1) w encrypted).keyFile n = textAfter d s encrypted ((order.list s.versions).take j) n := by
  unfold write at hw
  dsimp only at hw
  cases hkeys : (order.list s.versions).mapM (keyEntry { s with metadata := { s.metadata with encrypted } }) with
  | error e =>
    have hw' : Except.map (fun keys => (⟨KeyMetadata.toJson order s.heap { s.metadata with encrypted }, keys⟩ : Written κ))
        ((order.list s.versions).mapM (keyEntry { s with metadata := { s.metadata with encrypted } })) = .ok w := hw
    rw [hkeys] at hw'
    cases hw'
  | ok keys =>
    have hw' : Except.map (fun keys => (⟨KeyMetadata.toJson order s.heap { s.metadata with encrypted }, keys⟩ : Written κ))
        ((order.list s.versions).mapM (keyEntry { s with metadata := { s.metadata with encrypted } })) = .ok w := hw
    rw [hkeys] at hw'
    cases hw'
    have hentries : List.Forall₂ (fun r p => keyEntry s r = .ok p) ((order.list s.versions).take j) (keys.take j) :=
      List.forall₂_take j (forall₂_of_mapM hkeys)
    have hnodup : (order.list s.versions).Nodup := (order.perm _).nodup_iff.mpr (nodup_versions s)
    have hdistinct : ((order.list s.versions).take j).Pairwise fun r r' =>
        (s.heap.object r).versionNumber ≠ (s.heap.object r').versionNumber := by
      refine (List.Pairwise.imp_of_mem ?_ hnodup).sublist (List.take_sublist j _)
      intro r r' hr hr' hne heq
      exact hne (hd r ((order.perm _).mem_iff.mp hr) r' ((order.perm _).mem_iff.mp hr') heq)
    obtain ⟨hmeta, hfile⟩ := write_keys encrypted hentries hdistinct
      (d.write (.metadata (KeyMetadata.toJson order s.heap { s.metadata with encrypted })))
    unfold Directory.writeFirst Written.fileWrites
    rw [List.take_succ_cons, List.foldl_cons, ← List.map_take]
    exact ⟨hmeta, hfile⟩

/-! ## Loading from a directory -/

/-- The reader gives back a key whose text has the form that it reads. -/
theorem getKey_reader_eq_ok_iff {mismatch : KeyText κ → PyError} {d : Directory κ} {crypter : Bool} {type : KeyType} {n : Int}
    {key : κ} : (d.reader mismatch crypter).getKey type n = .ok key ↔ d.keyFile n = some ⟨key, crypter⟩ := by
  unfold Directory.reader
  dsimp only
  cases d.keyFile n with
  | none => exact ⟨nofun, nofun⟩
  | some text =>
    obtain ⟨key', encrypted⟩ := text
    dsimp only
    split
    · rename_i heq
      simp [heq]
    · rename_i hne
      simp [hne]

theorem encrypted_of_init {order : DictOrder} {reader : Reader κ} {s : Keyczar κ} (h : init C order reader = .ok s)
    (hencrypted : s.metadata.encrypted = true) : reader.isEncryptedReader = true := by
  have hread := Keyczar.readMetadata_of_init h
  unfold init Keyczar.init at h
  rw [hread, Throwing.ok_bind] at h
  simp only [hencrypted, Bool.not_true, Bool.false_eq_true, if_false, Bool.true_and] at h
  cases hr : reader.isEncryptedReader with
  | true => rfl
  | false =>
    rw [hr] at h
    cases h

/-- A loaded key set got the key of each of its versions from the reader. -/
theorem getKey_of_init {order : DictOrder} {reader : Reader κ} {s : Keyczar κ} (h : init C order reader = .ok s) {n : Int} {r : Ref}
    (hr : s.metadata.versions.lookup n = some r) :
    ∃ key, reader.getKey s.metadata.type n = .ok key ∧ s.keys.lookup (.version r) = some key := by
  have hmem := (s.metadata.mem_refs_iff r).mpr ⟨n, hr⟩
  obtain ⟨l, -, hl⟩ := Keyczar.loaded_of_init h
  obtain ⟨p, hp, rfl⟩ := List.mem_map.mp (hl.perm.mem_iff.mpr hmem)
  have hstored := hl.stored p hp
  unfold Keyczar.storedKey at hstored
  refine ⟨p.2, ?_, lookup_version_of_init h hmem hstored⟩
  rw [(hl.fits n p.1 hr).2] at hstored
  exact hstored

/-- The key set in a directory can be loaded, with the crypter or without it, whatever the order of the dictionary; and it finds each
key of the first key set whose version was not revoked by its hash identifier. -/
def Survives (C : KeyClass κ ρ) (mismatch : KeyText κ → PyError) (s₀ s : Keyczar κ) (d : Directory κ) : Prop :=
  ∃ crypter, ∀ order, ∃ s', init C order (d.reader mismatch crypter) = .ok s' ∧
    ∀ n key, keyOfNumber s₀ n = .ok key → n ∈ s.metadata.versions → s'.getKey (.hash (C.hashId key)) = .ok key

/-- Every listed version has a key file, all of them in one form that the metadata admits, and no other listed key has the hash
identifier of a key that is to be kept. -/
structure Intact (C : KeyClass κ ρ) (listed kept : Int → Prop) (encrypted : Bool) (text : Int → Option (KeyText κ)) : Prop where
  readable : ∃ crypter, (encrypted = true → crypter = true) ∧ ∀ n, listed n → ∃ key, text n = some ⟨key, crypter⟩
  apart : ∀ n n' t t', kept n → listed n' → text n = some t → text n' = some t' → C.hashId t.key = C.hashId t'.key → t.key = t'.key

/-- The versions of the first key set that were not revoked. -/
def Kept (s₀ s : Keyczar κ) (n : Int) : Prop := n ∈ s₀.metadata.versions ∧ n ∈ s.metadata.versions

theorem keyOfNumber_eq_ok_iff {s : Keyczar κ} {n : Int} {key : κ} :
    keyOfNumber s n = .ok key ↔ ∃ r, s.metadata.versions.lookup n = some r ∧ s.keys.lookup (.version r) = some key := by
  unfold keyOfNumber
  constructor
  · intro h
    obtain ⟨r, hr, h⟩ := Throwing.ok_of_bind h
    exact ⟨r, lookup_of_getVersion hr, Keyczar.getKey_eq_ok_iff.mp h⟩
  · rintro ⟨r, hr, hkey⟩
    unfold KeyMetadata.getVersion
    rw [hr, Throwing.ok_bind]
    exact Keyczar.getKey_eq_ok_iff.mpr hkey

theorem reloaded_of_init {mismatch : KeyText κ → PyError} {d : Directory κ} {m : KeyMetadata} {h : Heap}
    (hm : readMetadata d.metadata = .ok (m, h)) {order : DictOrder} {crypter : Bool} {s' : Keyczar κ}
    (hinit : init C order (d.reader mismatch crypter) = .ok s') : s'.metadata = m ∧ s'.heap = h :=
  Prod.mk.inj (Except.ok.inj ((Keyczar.readMetadata_of_init hinit).symm.trans hm))

/-- The key of a listed version is the one in its file. -/
theorem stored_of_init {mismatch : KeyText κ → PyError} {d : Directory κ} {m : KeyMetadata} {h : Heap}
    (hm : readMetadata d.metadata = .ok (m, h)) {order : DictOrder} {crypter : Bool} {s' : Keyczar κ}
    (hinit : init C order (d.reader mismatch crypter) = .ok s') {n : Int} (hn : n ∈ m.versions) :
    ∃ r key, m.versions.lookup n = some r ∧ d.keyFile n = some ⟨key, crypter⟩ ∧ s'.keys.lookup (.version r) = some key := by
  obtain ⟨hmeta, -⟩ := reloaded_of_init hm hinit
  obtain ⟨r, hr⟩ := Option.isSome_iff_exists.mp (AList.lookup_isSome.mpr hn)
  rw [← hmeta] at hr
  obtain ⟨key, hread, hkey⟩ := getKey_of_init hinit hr
  rw [hmeta] at hr
  exact ⟨r, key, hr, getKey_reader_eq_ok_iff.mp hread, hkey⟩

/-- A directory in which a key set survives is intact. -/
theorem intact_of_survives {mismatch : KeyText κ → PyError} {s₀ s : Keyczar κ} {d : Directory κ} {m : KeyMetadata} {h : Heap}
    (hm : readMetadata d.metadata = .ok (m, h))
    (hkeys : ∀ n key, keyOfNumber s₀ n = .ok key → n ∈ s.metadata.versions → ∃ encrypted, d.keyFile n = some ⟨key, encrypted⟩)
    (hknown : ∀ n, Kept s₀ s n → ∃ key, keyOfNumber s₀ n = .ok key) (hsurvives : Survives C mismatch s₀ s d) :
    Intact C (· ∈ m.versions) (Kept s₀ s) m.encrypted d.keyFile := by
  obtain ⟨crypter, hsurvives⟩ := hsurvives
  refine ⟨⟨crypter, ?_, ?_⟩, ?_⟩
  · intro hencrypted
    obtain ⟨s', hinit, -⟩ := hsurvives asListed
    rw [← (reloaded_of_init hm hinit).1] at hencrypted
    exact encrypted_of_init hinit hencrypted
  · intro n hn
    obtain ⟨s', hinit, -⟩ := hsurvives asListed
    obtain ⟨r, key, -, hfile, -⟩ := stored_of_init hm hinit hn
    exact ⟨key, hfile⟩
  · intro n n' t t' hn hn' ht ht' hid
    obtain ⟨r', hr'⟩ := Option.isSome_iff_exists.mp (AList.lookup_isSome.mpr hn')
    -- the version with the other key, loaded last, is found by the identifier
    obtain ⟨s', hinit, hfound⟩ := hsurvives (listedLast r')
    obtain ⟨r₁, key', hr₁, hfile', hkey'⟩ := stored_of_init hm hinit hn'
    cases Option.some.inj (hr'.symm.trans hr₁)
    rw [ht'] at hfile'
    cases Option.some.inj hfile'
    obtain ⟨hmeta, -⟩ := reloaded_of_init hm hinit
    have hmem : r' ∈ s'.metadata.refs := by
      rw [hmeta]
      exact (m.mem_refs_iff r').mpr ⟨n', hr'⟩
    have hlast := lookup_hash_of_listedLast hinit hmem hkey'
    obtain ⟨key, hkey⟩ := hknown n hn
    obtain ⟨encrypted, hfile⟩ := hkeys n key hkey hn.2
    rw [ht] at hfile
    cases Option.some.inj hfile
    have hown := Keyczar.getKey_eq_ok_iff.mp (hfound n key hkey hn.2)
    rw [hid, hlast] at hown
    exact (Option.some.inj hown).symm

/-- In a directory that is intact a key set survives. -/
theorem survives_of_intact {mismatch : KeyText κ → PyError} {s₀ s : Keyczar κ} {d : Directory κ} {m : KeyMetadata} {h : Heap}
    (hm : readMetadata d.metadata = .ok (m, h))
    (hprimary : ∀ r ∈ m.refs, ∀ r' ∈ m.refs, (h.object r).status = .primary → (h.object r').status = .primary → r = r')
    (hkept : ∀ n, Kept s₀ s n → n ∈ m.versions)
    (hkeys : ∀ n key, keyOfNumber s₀ n = .ok key → n ∈ s.metadata.versions → ∃ encrypted, d.keyFile n = some ⟨key, encrypted⟩)
    (hintact : Intact C (· ∈ m.versions) (Kept s₀ s) m.encrypted d.keyFile) : Survives C mismatch s₀ s d := by
  have hfits := fits_of_readMetadata hm
  obtain ⟨⟨crypter, hencrypted, hreadable⟩, hapart⟩ := hintact
  refine ⟨crypter, ?_⟩
  intro order
  obtain ⟨s', hinit, hmeta, hheap⟩ : ∃ s', init C order (d.reader mismatch crypter) = .ok s' ∧ s'.metadata = m ∧ s'.heap = h := by
    refine init_ok hm hencrypted ?_ hprimary
    intro r hr
    obtain ⟨n, hn⟩ := (m.mem_refs_iff r).mp hr
    obtain ⟨key, hkey⟩ := hreadable n (AList.lookup_isSome.mp (Option.isSome_iff_exists.mpr ⟨r, hn⟩))
    refine ⟨key, ?_⟩
    rw [(hfits n r hn).2]
    exact getKey_reader_eq_ok_iff.mpr hkey
  refine ⟨s', hinit, ?_⟩
  intro n key hkey hn
  have hk : Kept s₀ s n := by
    obtain ⟨r, hr, -⟩ := keyOfNumber_eq_ok_iff.mp hkey
    exact ⟨AList.lookup_isSome.mp (Option.isSome_iff_exists.mpr ⟨r, hr⟩), hn⟩
  obtain ⟨r, key', hr, hfile, hlookup⟩ := stored_of_init hm hinit (hkept n hk)
  obtain ⟨encrypted, hown⟩ := hkeys n key hkey hn
  rw [hfile] at hown
  cases Option.some.inj hown
  have hentries := entries_of_init hinit
  obtain ⟨found, hfound⟩ := hentries.complete hlookup
  -- what the identifier finds is the key of a listed version
  obtain ⟨r', hr', hid⟩ := hentries.sound hfound
  obtain ⟨n', hn'⟩ := (s'.metadata.mem_refs_iff r').mp (mem_refs_of_init hinit (mem_versions_iff.mpr ⟨found, hr'⟩))
  rw [hmeta] at hn'
  have hlisted : n' ∈ m.versions := AList.lookup_isSome.mp (Option.isSome_iff_exists.mpr ⟨r', hn'⟩)
  obtain ⟨r₁, key₁, hr₁, hfile₁, hlookup₁⟩ := stored_of_init hm hinit hlisted
  cases Option.some.inj (hn'.symm.trans hr₁)
  cases Option.some.inj (hr'.symm.trans hlookup₁)
  have heq := hapart n n' _ _ hk hlisted hfile hfile₁ hid.symm
  rw [Keyczar.getKey_eq_ok_iff, hfound]
  exact congrArg some heq.symm

/-- A key set survives in a directory that lists at most one primary version and has the keys that are to be kept exactly when the
directory is intact. -/
theorem survives_iff {mismatch : KeyText κ → PyError} {s₀ s : Keyczar κ} {d : Directory κ} {m : KeyMetadata} {h : Heap}
    (hm : readMetadata d.metadata = .ok (m, h))
    (hprimary : ∀ r ∈ m.refs, ∀ r' ∈ m.refs, (h.object r).status = .primary → (h.object r').status = .primary → r = r')
    (hkept : ∀ n, Kept s₀ s n → n ∈ m.versions)
    (hkeys : ∀ n key, keyOfNumber s₀ n = .ok key → n ∈ s.metadata.versions → ∃ encrypted, d.keyFile n = some ⟨key, encrypted⟩)
    (hknown : ∀ n, Kept s₀ s n → ∃ key, keyOfNumber s₀ n = .ok key) :
    Survives C mismatch s₀ s d ↔ Intact C (· ∈ m.versions) (Kept s₀ s) m.encrypted d.keyFile :=
  ⟨intact_of_survives hm hkeys hknown, survives_of_intact hm hprimary hkept hkeys⟩

/-! ## Writes that fail -/

/-- What is intact when a write fails after the first `k` files. Before the first there is what was loaded; then the metadata is that of
the changed key set, and some of the keys are. -/
def IntactAfter (C : KeyClass κ ρ) (d : Directory κ) (order : DictOrder) (s₀ s : Keyczar κ) (encrypted : Bool) : Nat → Prop
  | 0 => Intact C (· ∈ s₀.metadata.versions) (Kept s₀ s) s₀.metadata.encrypted d.keyFile
  | j + 1 => Intact C (· ∈ s.metadata.versions) (Kept s₀ s) encrypted
      (textAfter d s encrypted ((order.list s.versions).take j))

/-- The key file of a version that was loaded. -/
theorem keyFile_of_init {mismatch : KeyText κ → PyError} {d : Directory κ} {crypter : Bool} {order : DictOrder} {s : Keyczar κ}
    (h : init C order (d.reader mismatch crypter) = .ok s) {n : Int} {key : κ} (hkey : keyOfNumber s n = .ok key) :
    d.keyFile n = some ⟨key, crypter⟩ := by
  obtain ⟨r, hr, hk⟩ := keyOfNumber_eq_ok_iff.mp hkey
  obtain ⟨key', hread, hk'⟩ := getKey_of_init h hr
  cases Option.some.inj (hk.symm.trans hk')
  exact getKey_reader_eq_ok_iff.mp hread

theorem keyOfNumber_of_init {order : DictOrder} {reader : Reader κ} {s : Keyczar κ} (h : init C order reader = .ok s) {n : Int}
    (hn : n ∈ s.metadata.versions) : ∃ key, keyOfNumber s n = .ok key := by
  obtain ⟨r, hr⟩ := Option.isSome_iff_exists.mp (AList.lookup_isSome.mpr hn)
  obtain ⟨key, -, hkey⟩ := getKey_of_init h hr
  exact ⟨key, keyOfNumber_eq_ok_iff.mpr ⟨r, hr, hkey⟩⟩

/-- A key that was loaded is what its file has after some of the keys were written, too. -/
theorem Since.textAfter_eq {s₀ s : Keyczar κ} (h : Since s₀ s) (hl : Live s₀) (hd : DistinctNumbers s) {d : Directory κ}
    {encrypted crypter : Bool} {written : List Ref} (hwritten : ∀ r ∈ written, r ∈ s.versions) {n : Int} {key : κ}
    (hkey : keyOfNumber s₀ n = .ok key) (hfile : d.keyFile n = some ⟨key, crypter⟩) :
    textAfter d s encrypted written n = some ⟨key, encrypted⟩ ∨ textAfter d s encrypted written n = some ⟨key, crypter⟩ := by
  obtain ⟨r, hr, hk⟩ := keyOfNumber_eq_ok_iff.mp hkey
  have hmem : r ∈ s₀.versions := mem_versions_iff.mpr ⟨key, hk⟩
  unfold textAfter
  cases hf : written.find? fun r => (s.heap.object r).versionNumber = n with
  | none => exact Or.inr hfile
  | some r' =>
    have hnumber' : (s.heap.object r').versionNumber = n := by simpa using List.find?_some hf
    have hnumber : (s.heap.object r).versionNumber = n := (h.number r hmem).trans (hl.fits n r hr).2
    have heq : r' = r := hd r' (hwritten r' (List.mem_of_find?_eq_some hf)) r (h.versions hmem) (hnumber'.trans hnumber.symm)
    left
    dsimp only
    rw [heq, h.lookup hk]
    rfl

/-- Metadata whose objects are those of a key set, under the same numbers, has at most one primary version as well. -/
theorem PrimaryListed.unique {s : Keyczar κ} (h : PrimaryListed s) (hfits : Fits s.metadata s.heap) {m : KeyMetadata} {heap : Heap}
    (hobject : ∀ n, (m.versions.lookup n).map heap.object = (s.metadata.versions.lookup n).map s.heap.object) :
    ∀ r ∈ m.refs, ∀ r' ∈ m.refs, (heap.object r).status = .primary → (heap.object r').status = .primary → r = r' := by
  have hfrom : ∀ {n r}, m.versions.lookup n = some r → (heap.object r).status = .primary →
      ∃ t, s.metadata.versions.lookup n = some t ∧ s.primaryVersion = some t := by
    intro n r hn hst
    have ho := hobject n
    rw [hn] at ho
    cases ht : s.metadata.versions.lookup n with
    | none =>
      rw [ht] at ho
      cases ho
    | some t =>
      rw [ht] at ho
      refine ⟨t, rfl, h t ((s.metadata.mem_refs_iff t).mpr ⟨n, ht⟩) ?_⟩
      rw [← Option.some.inj ho]
      exact hst
  intro r hr r' hr' hst hst'
  obtain ⟨n, hn⟩ := (m.mem_refs_iff r).mp hr
  obtain ⟨n', hn'⟩ := (m.mem_refs_iff r').mp hr'
  obtain ⟨t, ht, hp⟩ := hfrom hn hst
  obtain ⟨t', ht', hp'⟩ := hfrom hn' hst'
  cases Option.some.inj (hp.symm.trans hp')
  have hnn : n = n' := (hfits n t ht).2.symm.trans (hfits n' t ht').2
  rw [hnn] at hn
  exact Option.some.inj (hn.symm.trans hn')

/-- After any calls on a key set that was loaded from a directory, a `Write` that fails after the first `k` files leaves a key set that
can be loaded, with the keys that were not revoked under their identifiers, exactly when the directory is intact: every version of the
metadata has its key among those written first or in a file of before, in one form that the metadata admits. -/
theorem survives_failed_write_iff {mismatch : KeyText κ → PyError} {d : Directory κ} {crypter : Bool} {order₀ : DictOrder}
    {s₀ s : Keyczar κ} (h₀ : init C order₀ (d.reader mismatch crypter) = .ok s₀) (h : Reachable C s₀ s) {order : DictOrder}
    {encrypted : Bool} {w : Written κ} (hw : (write order s encrypted).1 = .ok w) (k : Nat) :
    Survives C mismatch s₀ s (d.writeFirst k w encrypted) ↔ IntactAfter C d order s₀ s encrypted k := by
  have hl₀ := live_of_init h₀
  have hsince := Reachable.since h₀ h
  have hdistinct := hsince.distinct (distinctNumbers_of_init h₀)
  cases k with
  | zero =>
    refine survives_iff (Keyczar.readMetadata_of_init h₀) ?_ (fun n hn => hn.1) ?_ (fun n hn => keyOfNumber_of_init h₀ hn.1)
    · intro r hr r' hr' hst hst'
      have hp := (primaryKnown_of_init h₀ r).mpr ⟨hr, hst⟩
      have hp' := (primaryKnown_of_init h₀ r').mpr ⟨hr', hst'⟩
      exact Option.some.inj (hp.symm.trans hp')
    · intro n key hkey _
      exact ⟨crypter, keyFile_of_init h₀ hkey⟩
  | succ j =>
    have hprimary : PrimaryListed s := by
      refine hsince.primary ?_
      intro r hr hst
      exact (primaryKnown_of_init h₀ r).mpr ⟨hr, hst⟩
    have hfits : Fits { s.metadata with encrypted } s.heap := (live_of_reachable h₀ h).fits
    obtain ⟨hmeta, hfile⟩ := writeFirst_succ hdistinct hw d j
    obtain ⟨versions, heap, hread, hobject⟩ := readMetadata_toJson order hfits
    have hlisted : ∀ n, n ∈ versions ↔ n ∈ s.metadata.versions := by
      intro n
      have hsome := congrArg Option.isSome (hobject n)
      rw [Option.isSome_map, Option.isSome_map] at hsome
      rw [← AList.lookup_isSome, ← AList.lookup_isSome, hsome]
    have hwritten : ∀ r ∈ (order.list s.versions).take j, r ∈ s.versions := fun r hr =>
      (order.perm _).mem_iff.mp (List.mem_of_mem_take hr)
    have hm : readMetadata (d.writeFirst (j + 1) w encrypted).metadata = .ok ({ s.metadata with encrypted, versions }, heap) := by
      rw [hmeta]
      exact hread
    have hsurvives : Survives C mismatch s₀ s (d.writeFirst (j + 1) w encrypted) ↔
        Intact C (· ∈ versions) (Kept s₀ s) encrypted (d.writeFirst (j + 1) w encrypted).keyFile := by
      refine survives_iff hm ?_ (fun n hn => (hlisted n).mpr hn.2) ?_ (fun n hn => keyOfNumber_of_init h₀ hn.1)
      · exact hprimary.unique hfits hobject
      · intro n key hkey _
        rw [hfile]
        rcases hsince.textAfter_eq hl₀ hdistinct hwritten hkey (keyFile_of_init h₀ hkey) with htext | htext
        · exact ⟨encrypted, htext⟩
        · exact ⟨crypter, htext⟩
    rw [hsurvives]
    have htext : (d.writeFirst (j + 1) w encrypted).keyFile = textAfter d s encrypted ((order.list s.versions).take j) := funext hfile
    have hsame : (fun n => n ∈ versions) = fun n => n ∈ s.metadata.versions := funext fun n => propext (hlisted n)
    rw [htext, hsame]
    exact Iff.rfl

/-- With no version added, keys written in the form they were loaded in and no clash of identifiers, a `Write` may fail anywhere. -/
theorem intactAfter_of_no_addition {mismatch : KeyText κ → PyError} {d : Directory κ} {crypter : Bool} {order₀ : DictOrder}
    {s₀ s : Keyczar κ} (h₀ : init C order₀ (d.reader mismatch crypter) = .ok s₀) (h : Reachable C s₀ s)
    (hold : ∀ n ∈ s.metadata.versions, n ∈ s₀.metadata.versions) (hclash : NoClash C s₀.keys) (order : DictOrder) (k : Nat) :
    IntactAfter C d order s₀ s crypter k := by
  have hsince := Reachable.since h₀ h
  have hdistinct := hsince.distinct (distinctNumbers_of_init h₀)
  have hapart : ∀ {n n' key key'}, keyOfNumber s₀ n = .ok key → keyOfNumber s₀ n' = .ok key' → C.hashId key = C.hashId key' →
      key = key' := by
    intro n n' key key' hk hk' hid
    obtain ⟨r, -, hr⟩ := keyOfNumber_eq_ok_iff.mp hk
    obtain ⟨r', -, hr'⟩ := keyOfNumber_eq_ok_iff.mp hk'
    exact hclash r r' key key' hr hr' hid
  -- every text is that of the key that was loaded
  have hintact : ∀ {listed : Int → Prop} {encrypted : Bool} {text : Int → Option (KeyText κ)}, (encrypted = true → crypter = true) →
      (∀ n, listed n → n ∈ s₀.metadata.versions) →
      (∀ n key, keyOfNumber s₀ n = .ok key → text n = some ⟨key, crypter⟩) → Intact C listed (Kept s₀ s) encrypted text := by
    intro listed encrypted text hflag hlisted htext
    refine ⟨⟨crypter, hflag, ?_⟩, ?_⟩
    · intro n hn
      obtain ⟨key, hkey⟩ := keyOfNumber_of_init h₀ (hlisted n hn)
      exact ⟨key, htext n key hkey⟩
    · intro n n' t t' hn hn' ht ht' hid
      obtain ⟨key, hkey⟩ := keyOfNumber_of_init h₀ hn.1
      obtain ⟨key', hkey'⟩ := keyOfNumber_of_init h₀ (hlisted n' hn')
      cases Option.some.inj (ht.symm.trans (htext n key hkey))
      cases Option.some.inj (ht'.symm.trans (htext n' key' hkey'))
      exact hapart hkey hkey' hid
  cases k with
  | zero => exact hintact (fun hflag => encrypted_of_init h₀ hflag) (fun n hn => hn) fun n key hkey => keyFile_of_init h₀ hkey
  | succ j =>
    refine hintact id hold fun n key hkey => ?_
    have hwritten : ∀ r ∈ (order.list s.versions).take j, r ∈ s.versions := fun r hr =>
      (order.perm _).mem_iff.mp (List.mem_of_mem_take hr)
    exact (hsince.textAfter_eq (live_of_init h₀) hdistinct hwritten hkey (keyFile_of_init h₀ hkey)).elim id id

/-- A directory with the small key set. -/
def smallDirectory : Directory HmacKey where
  location := "keys"
  metadata := smallReader.metadata
  keyFile n := if n = 1 then some ⟨smallKey, false⟩ else none

theorem init_smallDirectory :
    init (hmacKeys Primitives.plain) asListed (smallDirectory.reader (fun _ => .valueError) false) = .ok smallSet := rfl

/-- Adding a version to the small key set, and writing the metadata but no key: no reader loads what there is. -/
theorem not_survives_first_write :
    init (hmacKeys Primitives.plain) asListed (smallDirectory.reader (fun _ => .valueError) false) = .ok smallSet ∧
    ∃ s w, step (hmacKeys Primitives.plain) smallSet (.addVersion .active none [.ok otherKey]) = some (.ok (), s) ∧
      (write asListed s false).1 = .ok w ∧
      ¬ Survives (hmacKeys Primitives.plain) (fun _ => .valueError) smallSet s (smallDirectory.writeFirst 1 w false) := by
  refine ⟨init_smallDirectory, _, _, rfl, rfl, ?_⟩
  rintro ⟨crypter, h⟩
  obtain ⟨s', hinit, -⟩ := h asListed
  cases crypter with
  | false => cases hinit
  | true => cases hinit

/-- The small key set after its version was demoted, when only the metadata is written. -/
theorem survives_first_write_small : ∃ w, (write asListed (demote smallSet 1).2 false).1 = .ok w ∧
    Survives (hmacKeys Primitives.plain) (fun _ => .valueError) smallSet (demote smallSet 1).2 (smallDirectory.writeFirst 1 w false) := by
  have hreach : Reachable (hmacKeys Primitives.plain) smallSet (demote smallSet 1).2 := .step (.demote 1) .start rfl
  obtain ⟨w, hw, -⟩ := write_spec asListed (demote smallSet 1).2 false
  refine ⟨w, hw, (survives_failed_write_iff init_smallDirectory hreach hw 1).mpr ?_⟩
  refine intactAfter_of_no_addition init_smallDirectory hreach (fun n hn => hn) ?_ asListed 1
  -- there is one version
  have hone : ∀ r key, smallSet.keys.lookup (.version r) = some key → key = smallKey := by
    intro r key hk
    have hmem : r ∈ smallSet.versions := mem_versions_iff.mpr ⟨key, hk⟩
    cases List.mem_singleton.mp (show r ∈ [0] from hmem)
    exact (Option.some.inj hk).symm
  intro r r' key key' hk hk' _
  rw [hone r key hk, hone r' key' hk']

end GenericKeyczar

end Python
