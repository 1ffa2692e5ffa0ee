import Keyczar.Cpp.KeysetWrites
import Mathlib.Logic.Relation

/-!
# The commands on a directory

`keyczar_tool.cc` without encryption of the keys. A command reads the directory, with its keys or without, and works on a key set that a
writer for the same directory observes; it may be stopped between any two files that are written.
-/

namespace Cpp

open Interrupted

/-- `Cipher` of the command line. -/
inductive Cipher where
  | symmetric | rsa | dsa | ecdsa
  deriving DecidableEq, Repr

/-- A command that writes to the directory it is for, with the keys that the generator, or a file, gives. -/
inductive Command where
  | create (keyPurpose : KeyPurpose) (name : String) (cipher : Cipher)
  | addKey (keyStatus : KeyStatus) (generated : List (Option Key))
  | importKey (keyStatus : KeyStatus) (imported : Option Key)
  | promote (version : Int)
  | demote (version : Int)
  | revoke (version : Int)

namespace KeyczarTool

variable (A : AsymmetricKeys) (P : Primitives) (files : Files)

/-- The type of the keys that `CmdCreate` chooses. -/
def createType : KeyPurpose → Cipher → Option KeyType
  | .signAndVerify, .symmetric => some .hmac
  | .signAndVerify, .rsa => some .rsaPriv
  | .signAndVerify, .dsa => some .dsaPriv
  | .signAndVerify, .ecdsa => some .ecdsaPriv
  | .decryptAndEncrypt, .symmetric => some .aes
  | .decryptAndEncrypt, .rsa => some .rsaPriv
  | _, _ => none

/-- `ReadMetadata` finds something. -/
def metadataExists : Bool :=
  match files metadataBasename with
  | none => false
  | some text =>
    match JSONReader.readAndReturnError text false with
    | .error _ => false
    | .ok _ => true

/-- Metadata that is read exists. -/
theorem metadataExists_of_readMetadata {files : Files} {m : KeysetMetadata} (h : files.readMetadata = some (some m)) :
    metadataExists files = true := by
  unfold metadataExists
  unfold Files.readMetadata at h
  cases htext : files metadataBasename with
  | none =>
    rw [htext] at h
    cases h
  | some text =>
    rw [htext] at h
    dsimp only [KeysetMetadata.ofText] at h ⊢
    cases hvalue : JSONReader.readAndReturnError text false with
    | error e =>
      rw [hvalue] at h
      cases h
    | ok value => rfl

/-- `CmdCreate`, with what it notifies. -/
def cmdCreate (keyPurpose : KeyPurpose) (name : String) (cipher : Cipher) : List Notification :=
  if metadataExists files then []
  else
    match createType keyPurpose cipher with
    | none => []
    | some keyType =>
      [.updatedKeysetMetadata { name, keyType, keyPurpose, encrypted := false, nextKeyVersionNumber := 1 }]

/-- A call on the key set that was read, which is not encrypted if it has keys; with what it throws, if it does, and what it notifies. -/
def withKeyset (loadKeys : Bool) (c : Call) : Option (Except Exception Unit × List Notification) :=
  match files.read A P loadKeys with
  | none => none
  | some (.error e) => some (.error e, [])
  | some (.ok none) => some (.ok (), [])
  | some (.ok (some keyset)) =>
    if loadKeys ∧ keyset.metadata.keyVersionsMap.entries ≠ [] ∧ keyset.metadata.encrypted then some (.ok (), [])
    else (ObservedKeyset.call P { keyset } c).map fun r => (r.1, r.2.notified)

/-- A command: `CmdPromote`, `CmdDemote` and `CmdRevoke` read the metadata only. -/
def run : Command → Option (Except Exception Unit × List Notification)
  | .create keyPurpose name cipher => some (.ok (), cmdCreate files keyPurpose name cipher)
  | .addKey keyStatus generated => withKeyset A P files true (.generateKey keyStatus generated)
  | .importKey keyStatus imported => withKeyset A P files true (.importPrivateKey keyStatus imported)
  | .promote version => withKeyset A P files false (.promoteKey version)
  | .demote version => withKeyset A P files false (.demoteKey version)
  | .revoke version => withKeyset A P files false (.revokeKey version)

end KeyczarTool

/-! ## Key sets without their keys -/

namespace ManagedKeyset

variable {P : Primitives}

/-- When at most one version is primary, the versions are read without their keys. -/
theorem readVersions_metadata (reader : KeysetReader) {t : ManagedKeyset} {versions : List (Int × KeyVersion)}
    (hone : versions.Pairwise fun a b => ¬ (a.2.keyStatus = .primary ∧ b.2.keyStatus = .primary))
    (hzero : 0 < t.primaryKeyVersionNumber → ∀ e ∈ versions, e.2.keyStatus ≠ .primary) :
    readVersions P reader false t versions = .ok (some { t with primaryKeyVersionNumber :=
      ((versions.find? fun e => e.2.keyStatus = .primary).map Prod.fst).getD t.primaryKeyVersionNumber }) := by
  induction versions generalizing t with
  | nil => rfl
  | cons e versions ih =>
    obtain ⟨hfirst, hone⟩ := List.pairwise_cons.mp hone
    unfold readVersions readVersion
    rw [if_neg (by decide)]
    simp only [pure_bind]
    by_cases hst : e.2.keyStatus = .primary
    · have hrest : ∀ e' ∈ versions, e'.2.keyStatus ≠ .primary := fun e' he' hprimary => hfirst e' he' ⟨hst, hprimary⟩
      rw [if_pos hst, if_neg fun hpos => hzero hpos e List.mem_cons_self hst]
      have hnext := ih hone (t := { t with primaryKeyVersionNumber := e.1 }) fun _ => hrest
      rw [List.find?_eq_none.mpr fun e' he' => by simpa using hrest e' he'] at hnext
      rw [List.find?_cons_of_pos (by simpa using hst)]
      exact hnext
    · rw [if_neg hst, List.find?_cons_of_neg (by simpa using hst)]
      exact ih hone fun hpos e' he' => hzero hpos e' (List.mem_cons_of_mem e he')

/-- The metadata of a consistent key set is read with its primary version. -/
theorem Consistent.readVersions_metadata {s : ManagedKeyset} (h : Consistent P s) (reader : KeysetReader) :
    readVersions P reader false { metadata := s.metadata } s.metadata.keyVersionsMap.entries =
      .ok (some { metadata := s.metadata, primaryKeyVersionNumber := s.primaryKeyVersionNumber }) := by
  have hmem : ∀ {n v}, (n, v) ∈ s.metadata.keyVersionsMap.entries ↔ s.metadata.getVersion n = some v :=
    s.metadata.keyVersionsMap.mem_entries_iff
  have hprimary : ∀ {e}, e ∈ s.metadata.keyVersionsMap.entries → e.2.keyStatus = .primary → s.lifecycle.status e.1 = some .primary := by
    intro e he hst
    rw [status_lifecycle_of_getVersion (hmem.mp he), hst]
    rfl
  have hone : s.metadata.keyVersionsMap.entries.Pairwise fun a b => ¬ (a.2.keyStatus = .primary ∧ b.2.keyStatus = .primary) := by
    refine s.metadata.keyVersionsMap.sorted.imp_of_mem ?_
    rintro a b ha hb hlt ⟨hast, hbst⟩
    exact absurd (h.statuses.sound.primary_unique (hprimary ha hast) (hprimary hb hbst)) (Int.ne_of_lt hlt)
  rw [ManagedKeyset.readVersions_metadata reader hone fun hpos => absurd hpos (Int.lt_irrefl 0)]
  have hfind : ((s.metadata.keyVersionsMap.entries.find? fun e => e.2.keyStatus = .primary).map Prod.fst).getD 0 =
      s.primaryKeyVersionNumber := by
    cases hf : s.metadata.keyVersionsMap.entries.find? fun e => e.2.keyStatus = .primary with
    | none =>
      rcases h.statuses.getPrimaryKeyVersion with ⟨hzero, -⟩ | ⟨-, v, hv, hst⟩
      · exact hzero.symm
      · exact absurd (decide_eq_true hst) (List.find?_eq_none.mp hf _ (hmem.mpr hv))
    | some e =>
      have hst : e.2.keyStatus = .primary := by simpa using List.find?_some hf
      have hlife := (h.statuses.sound.primary_iff _).mpr (hprimary (List.mem_of_find?_eq_some hf) hst)
      unfold lifecycle at hlife
      dsimp only at hlife
      split at hlife
      · cases hlife
      · exact (Option.some.inj hlife).symm
  dsimp only
  rw [hfind]

end ManagedKeyset

namespace ObservedKeyset

variable {P : Primitives}

/-- The observed key set with the keys of another. -/
def withKeys (o : ObservedKeyset) (s : ManagedKeyset) : ObservedKeyset :=
  { o with keyset := { o.keyset with versionNumberMap := s.versionNumberMap, hashMap := s.hashMap } }

/-- The operations on the statuses do not look at the keys. -/
theorem updateKeyStatus_withKeys (o : ObservedKeyset) (s : ManagedKeyset) (status : KeyStatus) (n : Int) :
    (o.withKeys s).updateKeyStatus status n = ((o.updateKeyStatus status n).1, (o.updateKeyStatus status n).2.withKeys s) := by
  cases status with
  | primary =>
    unfold updateKeyStatus
    dsimp only
    by_cases hcond : o.keyset.primaryKeyVersionNumber ≠ 0 ∧ o.keyset.getPrimaryKeyVersion.isNone
    · rw [if_pos hcond, if_pos (show (o.withKeys s).keyset.primaryKeyVersionNumber ≠ 0 ∧
        (o.withKeys s).keyset.getPrimaryKeyVersion.isNone from hcond)]
    · rw [if_neg hcond, if_neg (show ¬ ((o.withKeys s).keyset.primaryKeyVersionNumber ≠ 0 ∧
        (o.withKeys s).keyset.getPrimaryKeyVersion.isNone) from hcond)]
      by_cases hp : o.keyset.getPrimaryKeyVersion.isSome
      · rw [if_pos hp, if_pos (show (o.withKeys s).keyset.getPrimaryKeyVersion.isSome from hp)]
        rfl
      · rw [if_neg hp, if_neg (show ¬ (o.withKeys s).keyset.getPrimaryKeyVersion.isSome from hp)]
        rfl
  | _ => rfl

theorem promoteKey_withKeys (o : ObservedKeyset) (s : ManagedKeyset) (n : Int) :
    (o.withKeys s).promoteKey n = ((o.promoteKey n).1, (o.promoteKey n).2.withKeys s) := by
  unfold promoteKey
  by_cases hpos : n ≤ 0
  · rw [if_pos hpos, if_pos hpos]
  · rw [if_neg hpos, if_neg hpos, show (o.withKeys s).keyset.metadata = o.keyset.metadata from rfl]
    cases o.keyset.metadata.getVersion n with
    | none => rfl
    | some v =>
      dsimp only
      cases v.keyStatus with
      | active => exact o.updateKeyStatus_withKeys s .primary n
      | inactive => exact o.updateKeyStatus_withKeys s .active n
      | _ => rfl

theorem demoteKey_withKeys (o : ObservedKeyset) (s : ManagedKeyset) (n : Int) :
    (o.withKeys s).demoteKey n = ((o.demoteKey n).1, (o.demoteKey n).2.withKeys s) := by
  unfold demoteKey
  by_cases hpos : n ≤ 0
  · rw [if_pos hpos, if_pos hpos]
  · rw [if_neg hpos, if_neg hpos, show (o.withKeys s).keyset.metadata = o.keyset.metadata from rfl]
    cases o.keyset.metadata.getVersion n with
    | none => rfl
    | some v =>
      dsimp only
      cases v.keyStatus with
      | active => exact o.updateKeyStatus_withKeys s .inactive n
      | _ => rfl

theorem notified_revokeKey_withKeys (o : ObservedKeyset) (s : ManagedKeyset) (n : Int) :
    ((o.withKeys s).revokeKey P n).2.notified = (o.revokeKey P n).2.notified := by
  unfold revokeKey
  by_cases hpos : n ≤ 0
  · rw [if_pos hpos, if_pos hpos]
    rfl
  · rw [if_neg hpos, if_neg hpos, show (o.withKeys s).keyset.metadata = o.keyset.metadata from rfl]
    cases o.keyset.metadata.getVersion n with
    | none => rfl
    | some v =>
      dsimp only
      split <;> rfl

end ObservedKeyset

namespace KeyczarTool

open ManagedKeyset

variable {A : AsymmetricKeys} {P : Primitives} {files : Files}

/-- What is given to a command is what it can store: a name, a status and keys that are read as they are written, and there is room on the
counter. -/
def Allowed (A : AsymmetricKeys) (files : Files) : Command → Prop
  | .create _ name _ => IsStd name ∧ isStringUTF8 (asciiString name) = true
  | .addKey keyStatus generated => keyStatus ≠ .undefined ∧ ∀ m, files.readMetadata = some (some m) →
      m.nextKeyVersionNumber + 1 < 2 ^ 31 ∧ ∀ key, some key ∈ generated → key.Stored A m.keyType
  | .importKey keyStatus imported => keyStatus ≠ .undefined ∧ ∀ m, files.readMetadata = some (some m) →
      m.nextKeyVersionNumber + 1 < 2 ^ 31 ∧ ∀ key, imported = some key → key.Stored A m.keyType
  | _ => True

/-- A command, stopped after some of the files that it writes, or after all of them. -/
def Step (A : AsymmetricKeys) (P : Primitives) (files files' : Files) : Prop :=
  ∃ c result notified told, Allowed A files c ∧ run A P files c = some (result, notified) ∧ told <+: notified ∧
    tellAll (Files.told A) files told = some files'

/-- A directory without a key set. -/
structure Unused (files : Files) : Prop where
  metadata : files metadataBasename = none
  free : files.FreeFrom 1

/-- A directory that commands, stopped or not, made of one without a key set. -/
def Made (A : AsymmetricKeys) (P : Primitives) (files : Files) : Prop :=
  ∃ files₀, Unused files₀ ∧ Relation.ReflTransGen (Step A P) files₀ files

/-! ## One command -/

/-- A key that `GenerateKey` finds is one that was generated. -/
theorem mem_of_generateUnusedKey {s : ManagedKeyset} {generated : List (Option Key)} {key : Key}
    (h : s.generateUnusedKey P generated = some (some key)) : some key ∈ generated := by
  induction generated with
  | nil => cases h
  | cons first generated ih =>
    cases first with
    | none => cases h
    | some first =>
      unfold generateUnusedKey at h
      split at h
      · cases h
      · split at h
        · exact List.mem_cons_of_mem _ (ih h)
        · cases h
          exact List.mem_cons_self

/-- What a call that adds a key is given can be stored, and there is room on the counter. -/
def Stores (A : AsymmetricKeys) (s : ManagedKeyset) : Call → Prop
  | .generateKey status generated => status ≠ .undefined ∧ s.metadata.nextKeyVersionNumber + 1 < 2 ^ 31 ∧
      ∀ key, some key ∈ generated → key.Stored A s.metadata.keyType
  | .importPrivateKey status imported => status ≠ .undefined ∧ s.metadata.nextKeyVersionNumber + 1 < 2 ^ 31 ∧
      ∀ key, imported = some key → key.Stored A s.metadata.keyType
  | _ => True

/-- A call on a key set of which nothing is missing: wherever the work on it had stopped the directory has a key set, and when it did not
throw the directory has what it left. -/
theorem wrote_call {s : ManagedKeyset} (h : Saved A P files none s) {c : Call} (hc : Stores A s c) {result : Except Exception Unit}
    {o : ObservedKeyset} (hcall : ObservedKeyset.call P { keyset := s } c = some (result, o)) :
    (∃ files', Trail (Files.told A) (Stopped A P files) files o.notified files') ∧
      (result = .ok () → Wrote A P files none o.notified o.keyset) := by
  have hnil : Wrote A P files none ({ keyset := s } : ObservedKeyset).notified ({ keyset := s } : ObservedKeyset).keyset := wrote_nil h
  have hof : ∀ {o : ObservedKeyset}, Wrote A P files none o.notified o.keyset →
      (∃ files', Trail (Files.told A) (Stopped A P files) files o.notified files') ∧
        (result = .ok () → Wrote A P files none o.notified o.keyset) := by
    intro o hwrote
    obtain ⟨files', htrail, hs⟩ := id hwrote
    exact ⟨⟨files', htrail⟩, fun _ => hwrote⟩
  have hnew : ∀ {status : KeyStatus} {key : Key} {hash : Bytes} {r : Except Exception Int × ObservedKeyset}, status ≠ .undefined →
      s.metadata.nextKeyVersionNumber + 1 < 2 ^ 31 → key.Stored A s.metadata.keyType → key.hash P = some hash →
      s.hashMap hash = none → ObservedKeyset.addNewKey P { keyset := s } status key = some r →
      ((r.1.map fun _ => ()), r.2) = (result, o) → (∃ files', Trail (Files.told A) (Stopped A P files) files o.notified files') ∧
        (result = .ok () → Wrote A P files none o.notified o.keyset) := by
    intro status key hash r hst hbound hkey hhash hfree hadd heq
    obtain ⟨r₁, o'⟩ := r
    cases heq
    obtain ⟨htrail, hwrote⟩ := hnil.addNewKey hbound hst hkey hhash hfree hadd
    refine ⟨htrail, fun hok => ?_⟩
    cases r₁ with
    | error e => cases hok
    | ok n => exact hwrote n rfl
  cases c with
  | generateKey status generated =>
    obtain ⟨hst, hbound, hstored⟩ := hc
    obtain ⟨r, hgenerate, heq⟩ := Option.map_eq_some_iff.mp hcall
    unfold ObservedKeyset.generateKey at hgenerate
    split at hgenerate
    · cases hgenerate
      cases heq
      exact hof hnil
    · split at hgenerate
      · cases hgenerate
      · cases hgenerate
        cases heq
        exact hof hnil
      · rename_i key hkey
        obtain ⟨hash, hhash, hfree⟩ := generateUnusedKey_spec hkey
        exact hnew hst hbound (hstored key (mem_of_generateUnusedKey hkey)) hhash hfree hgenerate heq
  | importPrivateKey status imported =>
    obtain ⟨hst, hbound, hstored⟩ := hc
    obtain ⟨r, himport, heq⟩ := Option.map_eq_some_iff.mp hcall
    unfold ObservedKeyset.importPrivateKey at himport
    split at himport
    · cases himport
      cases heq
      exact hof hnil
    · split at himport
      · cases himport
        cases heq
        exact hof hnil
      · rename_i key
        split at himport
        · cases himport
          cases heq
          exact hof hnil
        · rename_i hash hhash
          split at himport
          · cases himport
            cases heq
            exact hof hnil
          · rename_i hused
            exact hnew hst hbound (hstored key rfl) hhash (Option.not_isSome_iff_eq_none.mp hused) himport heq
  | promoteKey n =>
    cases hcall
    exact hof (hnil.promoteKey n)
  | demoteKey n =>
    cases hcall
    exact hof (hnil.demoteKey n)
  | revokeKey n =>
    cases hcall
    exact hof (hnil.revokeKey n)

end KeyczarTool

/-! ## Reading what was written -/

namespace ManagedKeyset

variable {A : AsymmetricKeys} {P : Primitives} {files : Files} {missing : Option Int} {s t : ManagedKeyset}

theorem Saved.offers (h : Saved A P files missing s) : s.Offers P (files.keysetReader A) := by
  intro n key hk
  by_cases hn : missing = some n
  · left
    show files.readKey A s.metadata.keyType n = none
    unfold Files.readKey
    rw [h.absent hn]
  · right
    have hwritten : s.written missing n = some key := by
      unfold ManagedKeyset.written
      rw [if_neg hn, hk]
    exact ⟨h.recorded.keys hwritten, h.hashable hwritten⟩

/-- A version is read again unless its key is missing or clashes with an earlier one. -/
theorem Saved.refused_iff (h : Saved A P files missing s) {n : Int} (hn : (s.getKey n).isSome) :
    s.Refused P (files.keysetReader A) n ↔ files (intToString n) = none ∨ Clashes P s n := by
  refine or_congr ⟨?_, ?_⟩ Iff.rfl
  · intro hnone
    obtain ⟨key, hk⟩ := Option.isSome_iff_exists.mp hn
    by_cases hmissing : missing = some n
    · exact h.absent hmissing
    · have hread := h.recorded.keys (show s.written missing n = some key by rw [ManagedKeyset.written, if_neg hmissing, hk])
      rw [show files.readKey A s.metadata.keyType n = none from hnone] at hread
      cases hread
  · intro hnone
    show files.readKey A s.metadata.keyType n = none
    unfold Files.readKey
    rw [hnone]

/-- Every key has its file. -/
def Whole (files : Files) (s : ManagedKeyset) : Prop := ∀ n, (s.getKey n).isSome → (files (intToString n)).isSome

/-- A directory that has a key set is read as that key set when every key has its file and none clashes with an earlier one; else it is
refused. -/
theorem Saved.read (h : Saved A P files missing s) :
    (Whole files s ∧ HashesApart P s) ∧ (∃ t, files.read A P true = some (.ok (some t)) ∧ SameKeyset s t ∧ Consistent P t) ∨
      ¬ (Whole files s ∧ HashesApart P s) ∧ files.read A P true = some (.ok none) := by
  rcases Files.read_of_offers h.recorded.metadata h.consistent h.offers with ⟨hall, hread⟩ | ⟨⟨n, hn, hrefused⟩, hread⟩
  · refine Or.inl ⟨⟨fun n hn => ?_, fun n hclash => ?_⟩, hread⟩
    · rw [Option.isSome_iff_ne_none]
      exact fun hnone => hall n hn ((h.refused_iff hn).mpr (Or.inl hnone))
    · have hn : (s.getKey n).isSome := by
        obtain ⟨n', key, key', hash, -, -, hk, -, -⟩ := id hclash
        rw [hk]
        rfl
      exact hall n hn ((h.refused_iff hn).mpr (Or.inr hclash))
  · refine Or.inr ⟨?_, hread⟩
    rintro ⟨hwhole, hapart⟩
    rcases (h.refused_iff hn).mp hrefused with hnone | hclash
    · have hsome := hwhole n hn
      rw [hnone] at hsome
      cases hsome
    · exact hapart n hclash

/-- Nothing is missing of a key set that was read. -/
theorem Saved.of_read (h : Saved A P files missing s) (hread : files.read A P true = some (.ok (some t))) : Saved A P files none t := by
  rcases h.read with ⟨⟨hwhole, -⟩, t', hread', hsame, hc⟩ | ⟨-, hread'⟩
  · rw [hread] at hread'
    cases hread'
    have hkeys : ∀ {n key}, t.written none n = some key → s.written missing n = some key := by
      intro n key hk
      have hk' : s.getKey n = some key := (congrArg (fun m => m.find n) hsame.versionNumberMap_eq).symm.trans hk
      unfold ManagedKeyset.written
      rw [if_neg]
      · exact hk'
      · intro hn
        have hsome := hwhole n (by rw [hk']; rfl)
        rw [h.absent hn] at hsome
        cases hsome
    refine ⟨hc, fun hk => h.hashable (hkeys hk), ?_, ⟨?_, fun hk => ?_⟩, nofun, ?_⟩
    · rw [hsame.metadata_eq]
      exact h.recordable
    · rw [hsame.metadata_eq]
      exact h.recorded.metadata
    · rw [hsame.metadata_eq]
      exact h.recorded.keys (hkeys hk)
    · rw [hsame.metadata_eq]
      exact h.free
  · rw [hread] at hread'
    cases hread'

/-- The metadata is read with the primary version, whatever is missing. -/
theorem Saved.read_metadata (h : Saved A P files missing s) : files.read A P false =
    some (.ok (some { metadata := s.metadata, primaryKeyVersionNumber := s.primaryKeyVersionNumber })) := by
  unfold Files.read
  rw [h.recorded.metadata]
  exact congrArg some (h.consistent.readVersions_metadata (files.keysetReader A))

/-- New metadata is that of a key set without versions. -/
theorem consistent_new {m : KeysetMetadata} (hempty : m.keyVersionsMap = .empty) (hnext : 0 < m.nextKeyVersionNumber) :
    Consistent P { metadata := m } := by
  have hnone : ∀ n, m.getVersion n = none := by
    intro n
    unfold KeysetMetadata.getVersion
    rw [hempty]
    rfl
  have hstatus : ∀ n, ({ metadata := m } : ManagedKeyset).lifecycle.status n = none := fun n => status_lifecycle_of_none (hnone n)
  refine ⟨⟨?_, ?_, ?_⟩, ⟨nofun, nofun⟩, ?_, hnext⟩
  · intro n v hv
    rw [hnone] at hv
    cases hv
  · intro n
    rw [hstatus]
    exact iff_of_false nofun nofun
  · intro n hn
    exact absurd (hstatus n) hn
  · intro n
    show _ = (m.getVersion n).isSome
    rw [hnone]
    rfl

end ManagedKeyset

namespace KeyczarTool

open ManagedKeyset

variable {A : AsymmetricKeys} {P : Primitives} {files : Files}

/-! ## Runs of commands -/

/-- What every directory is that commands made: it is unused still, or it has a key set but for one key perhaps. -/
def Kept (A : AsymmetricKeys) (P : Primitives) (files : Files) : Prop := Unused files ∨ ∃ missing s, Saved A P files missing s

/-- The first metadata of a directory. -/
theorem Unused.create (h : Unused files) {keyPurpose : KeyPurpose} {name : String} {cipher : Cipher} {keyType : KeyType}
    (htype : createType keyPurpose cipher = some keyType) (hstd : IsStd name) (hutf8 : isStringUTF8 (asciiString name) = true) :
    ∃ files', files.told A (.updatedKeysetMetadata ⟨name, keyType, keyPurpose, false, 1, .empty⟩) = some files' ∧
      (∃ s, Saved A P files' none s) ∧ files.Extends files' := by
  have hnone : ∀ {n v}, KeysetMetadata.getVersion ⟨name, keyType, keyPurpose, false, 1, .empty⟩ n ≠ some v := by
    intro n v hv
    cases hv
  have hnamed : keyType ≠ .undefined ∧ keyPurpose ≠ .undefined := by
    unfold createType at htype
    split at htype <;> cases htype <;> decide
  have hm : KeysetMetadata.Recordable ⟨name, keyType, keyPurpose, false, 1, .empty⟩ := by
    have hint : InIntRange 1 := by decide
    exact ⟨fun n v hv => absurd hv hnone, ⟨hnamed.1, hnamed.2, Int.zero_lt_one, fun hv => absurd hv hnone⟩,
      ⟨hint, fun hv => absurd hv hnone⟩, hstd, hutf8⟩
  refine ⟨_, Files.told_metadata hm files, ⟨_, consistent_new rfl Int.zero_lt_one, ?_, hm,
    ⟨Files.readMetadata_withMetadata hm files, ?_⟩, nofun, h.free.withMetadata _⟩, files.extends_refl.withMetadata _⟩
  · intro n key hk
    cases hk
  · intro n key hk
    cases hk

/-- A command that reads the keys tells of changes that leave the directory a key set, wherever they stop. -/
theorem trail_withKeyset {missing : Option Int} {s : ManagedKeyset} (h : Saved A P files missing s) {c : Call}
    (hc : ∀ t, files.read A P true = some (.ok (some t)) → Stores A t c) {result : Except Exception Unit}
    {notified : List Notification} (hrun : withKeyset A P files true c = some (result, notified)) :
    ∃ files', Trail (Files.told A) (Stopped A P files) files notified files' := by
  have hstart : Trail (Files.told A) (Stopped A P files) files [] files := .start ⟨⟨missing, s, h⟩, files.extends_refl⟩
  unfold KeyczarTool.withKeyset at hrun
  rcases h.read with ⟨-, t, hread, -, -⟩ | ⟨-, hread⟩
  · rw [hread] at hrun
    dsimp only at hrun
    split at hrun
    · cases hrun
      exact ⟨files, hstart⟩
    · obtain ⟨⟨r, o⟩, hr, heq⟩ := Option.map_eq_some_iff.mp hrun
      cases heq
      exact (wrote_call (h.of_read hread) (hc t hread) hr).1
  · rw [hread] at hrun
    cases hrun
    exact ⟨files, hstart⟩

/-- A command that reads the metadata only does the same: what it tells does not depend on the keys. -/
theorem trail_withMetadata {missing : Option Int} {s : ManagedKeyset} (h : Saved A P files missing s) {c : Call} {n : Int}
    (hc : c = .promoteKey n ∨ c = .demoteKey n ∨ c = .revokeKey n) {result : Except Exception Unit} {notified : List Notification}
    (hrun : withKeyset A P files false c = some (result, notified)) :
    ∃ files', Trail (Files.told A) (Stopped A P files) files notified files' := by
  have hnil : Wrote A P files missing ({ keyset := s } : ObservedKeyset).notified ({ keyset := s } : ObservedKeyset).keyset :=
    wrote_nil h
  have htrail : ∀ {o : ObservedKeyset}, Wrote A P files missing o.notified o.keyset → o.notified = notified →
      ∃ files', Trail (Files.told A) (Stopped A P files) files notified files' := by
    rintro o ⟨files', htrail, -⟩ rfl
    exact ⟨files', htrail⟩
  let o : ObservedKeyset := { keyset := { metadata := s.metadata, primaryKeyVersionNumber := s.primaryKeyVersionNumber } }
  unfold KeyczarTool.withKeyset at hrun
  rw [h.read_metadata] at hrun
  dsimp only at hrun
  rw [if_neg fun hcond => Bool.false_ne_true hcond.1] at hrun
  rcases hc with rfl | rfl | rfl
  · cases hrun
    exact htrail (hnil.promoteKey n) (congrArg (fun r => r.2.notified) (o.promoteKey_withKeys s n))
  · cases hrun
    exact htrail (hnil.demoteKey n) (congrArg (fun r => r.2.notified) (o.demoteKey_withKeys s n))
  · cases hrun
    exact htrail (hnil.revokeKey n) (o.notified_revokeKey_withKeys s n)

/-- A call of a command on a directory without a key set does nothing. -/
theorem Unused.withKeyset (h : Unused files) (loadKeys : Bool) (c : Call) : withKeyset A P files loadKeys c = some (.ok (), []) := by
  have hread : files.read A P loadKeys = some (.ok none) := by
    unfold Files.read Files.readMetadata
    rw [h.metadata]
  unfold KeyczarTool.withKeyset
  rw [hread]

/-- A command keeps what directories are, wherever it stops, and keeps the files of keys. -/
theorem Kept.step {files' : Files} (h : Kept A P files) (hstep : Step A P files files') : Kept A P files' ∧ files.Extends files' := by
  obtain ⟨c, result, notified, told, hallowed, hrun, hprefix, htold⟩ := hstep
  have hsame : told = [] → Kept A P files' ∧ files.Extends files' := by
    rintro rfl
    cases htold
    exact ⟨h, files.extends_refl⟩
  have hnone : notified = [] → Kept A P files' ∧ files.Extends files' := by
    rintro rfl
    exact hsame (List.prefix_nil.mp hprefix)
  have htrail : (∃ files₁, Trail (Files.told A) (Stopped A P files) files notified files₁) → Kept A P files' ∧ files.Extends files' := by
    rintro ⟨files₁, htrail⟩
    obtain ⟨files₂, htold₂, hstopped⟩ := htrail.of_prefix hprefix
    rw [htold] at htold₂
    cases htold₂
    exact ⟨Or.inr hstopped.saved, hstopped.extends_⟩
  rcases id h with hunused | ⟨missing, s, hs⟩
  · cases c with
    | create keyPurpose name cipher =>
      obtain ⟨hstd, hutf8⟩ := hallowed
      cases hrun
      unfold cmdCreate at hprefix
      split at hprefix
      · exact hsame (List.prefix_nil.mp hprefix)
      · cases htype : createType keyPurpose cipher with
        | none =>
          rw [htype] at hprefix
          exact hsame (List.prefix_nil.mp hprefix)
        | some keyType =>
          rw [htype] at hprefix
          rcases List.prefix_concat_iff.mp (show told <+: [] ++ [_] from hprefix) with rfl | hnil
          · obtain ⟨files₁, htold₁, ⟨s, hs⟩, hextends⟩ := hunused.create (A := A) (P := P) htype hstd hutf8
            rw [List.nil_append, tellAll, htold₁, Option.bind_some, tellAll] at htold
            cases htold
            exact ⟨Or.inr ⟨_, s, hs⟩, hextends⟩
          · exact hsame (List.prefix_nil.mp hnil)
    | _ =>
      have hrefused := (hunused.withKeyset _ _).symm.trans hrun
      cases hrefused
      exact hnone rfl
  · cases c with
    | create keyPurpose name cipher =>
      cases hrun
      have hexists := metadataExists_of_readMetadata hs.recorded.metadata
      unfold cmdCreate at hprefix
      rw [if_pos hexists] at hprefix
      exact hsame (List.prefix_nil.mp hprefix)
    | addKey keyStatus generated =>
      obtain ⟨hst, hall⟩ := hallowed
      have hstores : ∀ t, files.read A P true = some (.ok (some t)) → Stores A t (.generateKey keyStatus generated) :=
        fun t hread => ⟨hst, hall _ (hs.of_read hread).recorded.metadata⟩
      exact htrail (trail_withKeyset hs hstores hrun)
    | importKey keyStatus imported =>
      obtain ⟨hst, hall⟩ := hallowed
      have hstores : ∀ t, files.read A P true = some (.ok (some t)) → Stores A t (.importPrivateKey keyStatus imported) :=
        fun t hread => ⟨hst, hall _ (hs.of_read hread).recorded.metadata⟩
      exact htrail (trail_withKeyset hs hstores hrun)
    | promote version => exact htrail (trail_withMetadata (n := version) hs (Or.inl rfl) hrun)
    | demote version => exact htrail (trail_withMetadata (n := version) hs (Or.inr (Or.inl rfl)) hrun)
    | revoke version => exact htrail (trail_withMetadata (n := version) hs (Or.inr (Or.inr rfl)) hrun)

theorem Kept.steps {files' : Files} (h : Kept A P files) (hsteps : Relation.ReflTransGen (Step A P) files files') :
    Kept A P files' ∧ files.Extends files' := by
  induction hsteps with
  | refl => exact ⟨h, files.extends_refl⟩
  | tail _ hstep ih =>
    obtain ⟨hkept, hextends⟩ := ih
    obtain ⟨hkept', hextends'⟩ := hkept.step hstep
    exact ⟨hkept', fun n text hn htext => hextends' n text hn (hextends n text hn htext)⟩

theorem Made.kept (h : Made A P files) : Kept A P files := by
  obtain ⟨files₀, hunused, hsteps⟩ := h
  exact (Kept.steps (Or.inl hunused) hsteps).1

/-- The metadata of a signer that was created. -/
def smallMetadata : KeysetMetadata := ⟨"small", .hmac, .signAndVerify, false, 1, .empty⟩

/-- The directory that it was created in. -/
def smallFiles : Files := Files.withMetadata (fun _ => none) smallMetadata

theorem recordable_small : smallMetadata.Recordable := by
  have hnone : ∀ {n v}, smallMetadata.getVersion n ≠ some v := by
    intro n v hv
    cases hv
  have hint : InIntRange 1 := by decide
  exact ⟨fun n v hv => absurd hv hnone, ⟨by decide, by decide, by decide, fun hv => absurd hv hnone⟩,
    ⟨hint, fun hv => absurd hv hnone⟩, by decide, by decide⟩

theorem step_small (A : AsymmetricKeys) (P : Primitives) : Step A P (fun _ => none) smallFiles := by
  have hallowed : Allowed A (fun _ => none) (.create .signAndVerify "small" .symmetric) := by
    refine ⟨?_, ?_⟩ <;> decide
  refine ⟨_, _, _, _, hallowed, rfl, List.prefix_refl _, ?_⟩
  show tellAll (Files.told A) _ [.updatedKeysetMetadata smallMetadata] = _
  rw [tellAll, Files.told_metadata recordable_small, Option.bind_some, tellAll]
  rfl

theorem made_small (A : AsymmetricKeys) (P : Primitives) : Made A P smallFiles :=
  ⟨fun _ => none, ⟨rfl, fun _ _ _ => rfl⟩, .single (step_small A P)⟩

theorem read_small (A : AsymmetricKeys) (P : Primitives) : smallFiles.read A P true = some (.ok (some { metadata := smallMetadata })) := by
  unfold Files.read
  rw [show smallFiles.readMetadata = _ from Files.readMetadata_withMetadata recordable_small _]
  rfl

theorem withKeyset_of_empty {A : AsymmetricKeys} {P : Primitives} {files : Files} {s : ManagedKeyset}
    (hread : files.read A P true = some (.ok (some s))) (hempty : s.metadata.keyVersionsMap.entries = []) (c : Call) :
    KeyczarTool.withKeyset A P files true c = (ObservedKeyset.call P { keyset := s } c).map fun r => (r.1, r.2.notified) := by
  unfold KeyczarTool.withKeyset
  rw [hread]
  dsimp only
  rw [if_neg fun hcond => hcond.2.1 hempty]

/-- A key for the signer. -/
def smallKey : HMACKey := ⟨List.replicate 20 7, .sha1⟩

theorem stores_small (A : AsymmetricKeys) :
    Stores A { metadata := smallMetadata } (.generateKey .primary [some (.hmac smallKey)]) := by
  have hstored : (Key.hmac smallKey).Stored A .hmac :=
    Key.storable_of_matched A (.hmac smallKey (by decide)) (show smallKey.Matched by decide)
  refine ⟨by decide, by decide, ?_⟩
  intro key hkey
  cases List.mem_singleton.mp hkey
  exact hstored

theorem call_small : ∃ o, ObservedKeyset.call Primitives.plain { keyset := { metadata := smallMetadata } }
    (.generateKey .primary [some (.hmac smallKey)]) = some (.ok (), o) ∧ o.keyset.getKey 1 = some (.hmac smallKey) := ⟨_, rfl, rfl⟩

/-- What a key set has become after a call is what is read from the directory again, unless the hash of a key is the buggy hash of an
earlier one; then the directory is refused. -/
theorem read_of_call (h : Made A P files) {s : ManagedKeyset} (hread : files.read A P true = some (.ok (some s))) {c : Call}
    (hc : Stores A s c) {o : ObservedKeyset} (hcall : ObservedKeyset.call P { keyset := s } c = some (.ok (), o)) :
    ∃ files', tellAll (Files.told A) files o.notified = some files' ∧
      ((∃ t, files'.read A P true = some (.ok (some t)) ∧ SameKeyset o.keyset t) ↔ HashesApart P o.keyset) ∧
      (¬ HashesApart P o.keyset → files'.read A P true = some (.ok none)) := by
  have hs : Saved A P files none s := by
    rcases h.kept with hunused | ⟨missing, s₀, hs₀⟩
    · unfold Files.read Files.readMetadata at hread
      rw [hunused.metadata] at hread
      cases hread
    · exact hs₀.of_read hread
  obtain ⟨files', htrail, hsaved⟩ := (wrote_call hs hc hcall).2 rfl
  have hwhole : Whole files' o.keyset := by
    intro n hn
    obtain ⟨key, hk⟩ := Option.isSome_iff_exists.mp hn
    have hkey := hsaved.recorded.keys (show o.keyset.written none n = some key from hk)
    unfold Files.readKey at hkey
    split at hkey
    · cases hkey
    · rename_i text htext
      rw [htext]
      rfl
  refine ⟨files', htrail.tellAll_eq, ?_⟩
  rcases hsaved.read with ⟨⟨-, hapart⟩, t, hread', hsame, -⟩ | ⟨hnot, hread'⟩
  · exact ⟨iff_of_true ⟨t, hread', hsame⟩ hapart, fun hn => absurd hapart hn⟩
  · have hapart : ¬ HashesApart P o.keyset := fun hapart => hnot ⟨hwhole, hapart⟩
    refine ⟨iff_of_false ?_ hapart, fun _ => hread'⟩
    rintro ⟨t, ht, -⟩
    rw [hread'] at ht
    cases ht

theorem read_of_call_small : ∃ o, ObservedKeyset.call Primitives.plain { keyset := { metadata := smallMetadata } }
    (.generateKey .primary [some (.hmac smallKey)]) = some (.ok (), o) ∧
    ∃ files', tellAll (Files.told noAsymmetricKeys) smallFiles o.notified = some files' ∧
      ((∃ t, files'.read noAsymmetricKeys Primitives.plain true = some (.ok (some t)) ∧ SameKeyset o.keyset t) ↔
        HashesApart Primitives.plain o.keyset) ∧
      (¬ HashesApart Primitives.plain o.keyset → files'.read noAsymmetricKeys Primitives.plain true = some (.ok none)) := by
  obtain ⟨o, hcall, -⟩ := call_small
  exact ⟨o, hcall, read_of_call (made_small _ _) (read_small _ _) (stores_small _) hcall⟩

/-- Wherever commands were stopped, a directory has no key set yet, or it has one of which one key at most is missing. It is read as that
key set exactly when none is and the hash of no key is the buggy hash of an earlier one, and else refused. -/
theorem read_of_made (h : Made A P files) : files.read A P true = some (.ok none) ∧ files metadataBasename = none ∨
    ∃ s, Consistent P s ∧ files.readMetadata = some (some s.metadata) ∧
      (∀ n n', (s.metadata.getVersion n).isSome → (s.metadata.getVersion n').isSome → files (intToString n) = none →
        files (intToString n') = none → n = n') ∧
      ((∃ t, files.read A P true = some (.ok (some t)) ∧ SameKeyset s t ∧ Consistent P t) ↔
        (∀ n, (s.metadata.getVersion n).isSome → (files (intToString n)).isSome) ∧ HashesApart P s) ∧
      (files.read A P true = some (.ok none) ↔
        ¬ ((∀ n, (s.metadata.getVersion n).isSome → (files (intToString n)).isSome) ∧ HashesApart P s)) := by
  rcases h.kept with hunused | ⟨missing, s, hs⟩
  · refine Or.inl ⟨?_, hunused.metadata⟩
    unfold Files.read Files.readMetadata
    rw [hunused.metadata]
  · have hwhole : Whole files s ↔ ∀ n, (s.metadata.getVersion n).isSome → (files (intToString n)).isSome :=
      forall_congr' fun n => by rw [hs.consistent.keys n]
    have hmissing : ∀ {n}, (s.metadata.getVersion n).isSome → files (intToString n) = none → missing = some n := by
      intro n hsome hnone
      by_contra hne
      rw [← hs.consistent.keys] at hsome
      obtain ⟨key, hk⟩ := Option.isSome_iff_exists.mp hsome
      have hkey := hs.recorded.keys (show s.written missing n = some key by rw [written, if_neg hne, hk])
      unfold Files.readKey at hkey
      rw [hnone] at hkey
      cases hkey
    refine Or.inr ⟨s, hs.consistent, hs.recorded.metadata, ?_, ?_⟩
    · intro n n' hn hn' hnone hnone'
      exact Option.some.inj ((hmissing hn hnone).symm.trans (hmissing hn' hnone'))
    · rw [← hwhole]
      rcases hs.read with ⟨hgood, hread⟩ | ⟨hbad, hread⟩
      · refine ⟨iff_of_true hread hgood, iff_of_false ?_ (not_not_intro hgood)⟩
        intro hnone
        obtain ⟨t, ht, -⟩ := hread
        rw [hnone] at ht
        cases ht
      · refine ⟨iff_of_false ?_ hbad, iff_of_true hread hbad⟩
        rintro ⟨t, ht, -⟩
        rw [hread] at ht
        cases ht

theorem read_of_made_small : smallFiles.read noAsymmetricKeys Primitives.plain true = some (.ok none) ∧
      smallFiles metadataBasename = none ∨
    ∃ s, Consistent Primitives.plain s ∧ smallFiles.readMetadata = some (some s.metadata) ∧
      (∀ n n', (s.metadata.getVersion n).isSome → (s.metadata.getVersion n').isSome → smallFiles (intToString n) = none →
        smallFiles (intToString n') = none → n = n') ∧
      ((∃ t, smallFiles.read noAsymmetricKeys Primitives.plain true = some (.ok (some t)) ∧ SameKeyset s t ∧
          Consistent Primitives.plain t) ↔
        (∀ n, (s.metadata.getVersion n).isSome → (smallFiles (intToString n)).isSome) ∧ HashesApart Primitives.plain s) ∧
      (smallFiles.read noAsymmetricKeys Primitives.plain true = some (.ok none) ↔
        ¬ ((∀ n, (s.metadata.getVersion n).isSome → (smallFiles (intToString n)).isSome) ∧ HashesApart Primitives.plain s)) :=
  read_of_made (made_small _ _)

/-- No command changes or removes the file of a key, wherever it stops, not even the command that revokes the version. -/
theorem keys_kept {files' : Files} (h : Made A P files) (hsteps : Relation.ReflTransGen (Step A P) files files') {n : Int}
    (hn : InIntRange n) {text : Bytes} (htext : files (intToString n) = some text) : files' (intToString n) = some text :=
  (h.kept.steps hsteps).2 n text hn htext

/-- A key is added to the signer, and its version is demoted. -/
theorem keys_kept_small : ∃ files files' text, Step noAsymmetricKeys Primitives.plain files files' ∧
    files (intToString 1) = some text ∧ files' (intToString 1) = some text := by
  obtain ⟨o, hcall, hkey⟩ := call_small
  have hsaved : Saved noAsymmetricKeys Primitives.plain smallFiles none { metadata := smallMetadata } := by
    refine ⟨consistent_new rfl Int.zero_lt_one, nofun, recordable_small, ⟨Files.readMetadata_withMetadata recordable_small _, nofun⟩,
      nofun, ?_⟩
    have hfree : Files.FreeFrom (fun _ => none) 1 := fun _ _ _ => rfl
    exact hfree.withMetadata smallMetadata
  obtain ⟨files, htrail, hs⟩ := (wrote_call hsaved (stores_small _) hcall).2 rfl
  have hadded : Step noAsymmetricKeys Primitives.plain smallFiles files := by
    refine ⟨.addKey .primary [some (.hmac smallKey)], .ok (), o.notified, o.notified, ?_, ?_, List.prefix_refl _, htrail.tellAll_eq⟩
    · obtain ⟨hst, hstores⟩ := stores_small noAsymmetricKeys
      refine ⟨hst, fun m hm => ?_⟩
      cases hm.symm.trans (Files.readMetadata_withMetadata recordable_small _)
      exact hstores
    · have hrun := withKeyset_of_empty (read_small noAsymmetricKeys Primitives.plain) rfl (.generateKey .primary [some (.hmac smallKey)])
      rw [hcall] at hrun
      exact hrun
  obtain ⟨text, htext⟩ : ∃ text, files (intToString 1) = some text := by
    have hread := hs.recorded.keys (show o.keyset.written none 1 = some _ from hkey)
    unfold Files.readKey at hread
    split at hread
    · cases hread
    · rename_i text htext
      exact ⟨text, htext⟩
  obtain ⟨notified, hrun⟩ : ∃ notified, run noAsymmetricKeys Primitives.plain files (.demote 1) = some (.ok (), notified) := by
    show ∃ notified, KeyczarTool.withKeyset _ _ _ _ _ = _
    unfold KeyczarTool.withKeyset
    rw [hs.read_metadata]
    dsimp only
    rw [if_neg fun hcond => Bool.false_ne_true hcond.1]
    exact ⟨_, rfl⟩
  obtain ⟨files', htrail'⟩ := trail_withMetadata (n := 1) hs (Or.inr (Or.inl rfl)) hrun
  have hdemoted : Step noAsymmetricKeys Primitives.plain files files' :=
    ⟨.demote 1, _, _, _, trivial, hrun, List.prefix_refl _, htrail'.tellAll_eq⟩
  have hmade : Made noAsymmetricKeys Primitives.plain files :=
    ⟨fun _ => none, ⟨rfl, fun _ _ _ => rfl⟩, (Relation.ReflTransGen.single (step_small _ _)).tail hadded⟩
  exact ⟨files, files', text, hdemoted, htext, keys_kept hmade (.single hdemoted) (by decide) htext⟩

end KeyczarTool

end Cpp
