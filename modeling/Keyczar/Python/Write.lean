import Keyczar.Lib.Throwing
import Keyczar.Python.GenericKeyczar

/-!
# Writing and exporting key sets

`Write` gives a writer the metadata and then the key of every version that has one; `PublicKeyExport` builds metadata of its own
from the versions it exports. What was written can be read again: the text of the metadata is parsed, and a reader gives back each
key under its version number.
-/

namespace Python

/-- The JSON text of a version object. -/
def KeyVersion.toJson (v : KeyVersion) : JsonVersion := ⟨v.versionNumber, v.status.name, v.exportable⟩

/-- The JSON text of the metadata. -/
def KeyMetadata.toJson (order : DictOrder) (heap : Heap) (m : KeyMetadata) : JsonMetadata where
  name := m.name
  purpose := m.purpose.name
  type := m.type.name
  encrypted := m.encrypted
  versions := (order.list m.refs).map fun r => (heap.object r).toJson

/-- What a writer is given: the metadata, and the keys with their version numbers in the order in which they come. -/
structure Written (κ : Type) where
  metadata : JsonMetadata
  keys : List (Int × κ)

namespace Written

variable {κ : Type}

def keyNumbers (w : Written κ) : List Int := w.keys.map Prod.fst

def versionNumbers (w : Written κ) : List Int := w.metadata.versions.map JsonVersion.versionNumber

/-- There is a key for exactly the versions that the metadata lists. -/
def Complete (w : Written κ) : Prop := ∀ n, n ∈ w.keyNumbers ↔ n ∈ w.versionNumbers

/-- A reader gives back what was written. -/
structure ReadBy (w : Written κ) (reader : Reader κ) : Prop where
  metadata_eq : reader.metadata = w.metadata
  encrypted : w.metadata.encrypted = true → reader.isEncryptedReader = true
  getKey : ∀ {type}, getType w.metadata.type = .ok type → ∀ p ∈ w.keys, reader.getKey type p.1 = .ok p.2

end Written

namespace GenericKeyczar

variable {κ π ρ : Type}

/-- The version number of a version object and its key. -/
def keyEntry (s : Keyczar κ) (v : Ref) : Except PyError (Int × κ) := do
  let key ← s.getKey (.version v)
  return ((s.heap.object v).versionNumber, key)

/-- `Write`. -/
def write (order : DictOrder) (s : Keyczar κ) (encrypted : Bool) : Except PyError (Written κ) × Keyczar κ :=
  let s := { s with metadata := { s.metadata with encrypted } }
  ((order.list s.versions).mapM (keyEntry s) |>.map fun keys => { metadata := s.metadata.toJson order s.heap, keys }, s)

/-- The metadata that `PublicKeyExport` starts with. -/
def publicMetadata (kmd : KeyMetadata) : Except PyError KeyMetadata :=
  match kmd.type, kmd.purpose with
  | .dsaPriv, .signAndVerify => .ok { name := kmd.name, purpose := .verify, type := .dsaPub }
  | .rsaPriv, .decryptAndEncrypt => .ok { name := kmd.name, purpose := .encrypt, type := .rsaPub }
  | .rsaPriv, .signAndVerify => .ok { name := kmd.name, purpose := .verify, type := .rsaPub }
  | _, _ => .error (.keyczarError "Cannot export public key")

/-- One turn of the loop of `PublicKeyExport`. -/
def exportVersion (publicKey : κ → Except PyError π) (s : Keyczar κ) (pub : KeyMetadata × List (Int × π)) (v : Ref) :
    Except PyError (KeyMetadata × List (Int × π)) := do
  let key ← s.getKey (.version v)
  let pubkey ← publicKey key
  return ((pub.1.addVersion (s.heap.object v).versionNumber v).1, pub.2 ++ [((s.heap.object v).versionNumber, pubkey)])

/-- `PublicKeyExport`; the attribute `public_key` belongs to the kind of keys. -/
def publicKeyExport (publicKey : κ → Except PyError π) (order : DictOrder) (s : Keyczar κ) : Except PyError (Written π) := do
  let pubkmd ← publicMetadata s.metadata
  let pub ← (order.list s.versions).foldlM (exportVersion publicKey s) (pubkmd, [])
  return { metadata := pub.1.toJson order s.heap, keys := pub.2 }

/-! ## What is emitted -/

/-- Every version that has a key gives an entry. -/
theorem mapM_keyEntry {s : Keyczar κ} {l : List Ref} (hl : ∀ r ∈ l, r ∈ s.versions) :
    ∃ keys, l.mapM (keyEntry s) = .ok keys ∧
      ∀ p, p ∈ keys ↔ ∃ r ∈ l, (s.heap.object r).versionNumber = p.1 ∧ s.getKey (.version r) = .ok p.2 := by
  induction l with
  | nil => exact ⟨[], rfl, by simp⟩
  | cons r l ih =>
    obtain ⟨key, hkey⟩ := mem_versions_iff.mp (hl r (List.mem_cons_self ..))
    obtain ⟨keys, hkeys, hmem⟩ := ih fun r' hr' => hl r' (List.mem_cons_of_mem r hr')
    have hget : s.getKey (.version r) = .ok key := Keyczar.getKey_eq_ok_iff.mpr hkey
    have hentry : keyEntry s r = .ok ((s.heap.object r).versionNumber, key) := by
      unfold keyEntry
      rw [hget]
      rfl
    refine ⟨((s.heap.object r).versionNumber, key) :: keys, ?_, ?_⟩
    · rw [List.mapM_cons, hentry, hkeys]
      rfl
    · intro p
      rw [List.mem_cons, hmem]
      constructor
      · rintro (rfl | ⟨r', hr', h⟩)
        · exact ⟨r, List.mem_cons_self .., rfl, hget⟩
        · exact ⟨r', List.mem_cons_of_mem r hr', h⟩
      · rintro ⟨r', hr', hnum, hk⟩
        rcases List.mem_cons.mp hr' with rfl | hr'
        · rw [hget] at hk
          exact Or.inl (Prod.ext hnum.symm (Except.ok.inj hk).symm)
        · exact Or.inr ⟨r', hr', hnum, hk⟩

/-- The numbers in the text of metadata are those of its version objects. -/
theorem mem_numbers_toJson {order : DictOrder} {heap : Heap} {m : KeyMetadata} {n : Int} :
    n ∈ (m.toJson order heap).versions.map JsonVersion.versionNumber ↔ ∃ r ∈ m.refs, (heap.object r).versionNumber = n := by
  simp only [KeyMetadata.toJson, List.map_map, List.mem_map, (order.perm _).mem_iff]
  rfl

/-- What `Write` gives the writer. -/
theorem write_spec (order : DictOrder) (s : Keyczar κ) (encrypted : Bool) :
    ∃ w, (write order s encrypted).1 = .ok w ∧
      w.metadata = KeyMetadata.toJson order s.heap { s.metadata with encrypted } ∧
      ∀ p, p ∈ w.keys ↔ ∃ r ∈ s.versions, (s.heap.object r).versionNumber = p.1 ∧ s.getKey (.version r) = .ok p.2 := by
  obtain ⟨keys, hkeys, hmem⟩ := mapM_keyEntry (s := s) (l := order.list s.versions) fun r hr =>
    (order.perm _).mem_iff.mp hr
  refine ⟨⟨KeyMetadata.toJson order s.heap { s.metadata with encrypted }, keys⟩, ?_, rfl, ?_⟩
  · show ((order.list s.versions).mapM (keyEntry s)).map _ = _
    rw [hkeys]
    rfl
  · intro p
    rw [hmem]
    simp only [(order.perm _).mem_iff]

/-- Every version that has a key is written under its number. -/
theorem mem_keyNumbers_write {order : DictOrder} {s : Keyczar κ} {encrypted : Bool} {w : Written κ}
    (h : (write order s encrypted).1 = .ok w) (n : Int) :
    n ∈ w.keyNumbers ↔ ∃ r ∈ s.versions, (s.heap.object r).versionNumber = n := by
  obtain ⟨w', hw', _, hmem⟩ := write_spec order s encrypted
  cases Except.ok.inj (h.symm.trans hw')
  constructor
  · intro hn
    obtain ⟨p, hp, rfl⟩ := List.mem_map.mp hn
    obtain ⟨r, hr, hnum, _⟩ := (hmem p).mp hp
    exact ⟨r, hr, hnum⟩
  · rintro ⟨r, hr, rfl⟩
    obtain ⟨key, hkey⟩ := mem_versions_iff.mp hr
    refine List.mem_map.mpr ⟨((s.heap.object r).versionNumber, key), (hmem _).mpr ⟨r, hr, rfl, ?_⟩, rfl⟩
    exact Keyczar.getKey_eq_ok_iff.mpr hkey

/-- The loop of `PublicKeyExport` puts the same numbers into the metadata and beside the keys. -/
theorem foldlM_exportVersion {publicKey : κ → Except PyError π} {s : Keyczar κ} {l : List Ref}
    {pub pub' : KeyMetadata × List (Int × π)} (h : l.foldlM (exportVersion publicKey s) pub = .ok pub')
    (hpub : ∀ n r, pub.1.versions.lookup n = some r → (s.heap.object r).versionNumber = n)
    (hnum : ∀ n, n ∈ pub.2.map Prod.fst ↔ n ∈ pub.1.versions) :
    (∀ n r, pub'.1.versions.lookup n = some r → (s.heap.object r).versionNumber = n) ∧
    (∀ n, n ∈ pub'.2.map Prod.fst ↔ n ∈ pub'.1.versions) ∧
    (∀ n, n ∈ pub'.2.map Prod.fst ↔ n ∈ pub.2.map Prod.fst ∨ ∃ r ∈ l, (s.heap.object r).versionNumber = n) := by
  induction l generalizing pub with
  | nil =>
    cases Except.ok.inj h
    exact ⟨hpub, hnum, by simp⟩
  | cons v l ih =>
    rw [List.foldlM_cons] at h
    obtain ⟨pub₁, hv, h⟩ := Throwing.ok_of_bind h
    obtain ⟨key, _, hv⟩ := Throwing.ok_of_bind hv
    obtain ⟨pubkey, _, hv⟩ := Throwing.ok_of_bind hv
    cases Except.ok.inj hv
    have hadd : ∀ n r, (pub.1.addVersion (s.heap.object v).versionNumber v).1.versions.lookup n = some r →
        pub.1.versions.lookup n = some r ∨ n = (s.heap.object v).versionNumber ∧ r = v := by
      intro n r hl
      unfold KeyMetadata.addVersion at hl
      split at hl
      · exact Or.inl hl
      · by_cases hn : n = (s.heap.object v).versionNumber
        · subst hn
          rw [AList.lookup_insert] at hl
          exact Or.inr ⟨rfl, (Option.some.inj hl).symm⟩
        · rw [AList.lookup_insert_ne hn] at hl
          exact Or.inl hl
    have hmem : ∀ n, n ∈ (pub.1.addVersion (s.heap.object v).versionNumber v).1.versions ↔
        n = (s.heap.object v).versionNumber ∨ n ∈ pub.1.versions := by
      intro n
      unfold KeyMetadata.addVersion
      split
      · rename_i hin
        refine ⟨Or.inr, ?_⟩
        rintro (rfl | hn)
        · exact hin
        · exact hn
      · exact AList.mem_insert _
    have hpub₁ : ∀ n r, (pub.1.addVersion (s.heap.object v).versionNumber v).1.versions.lookup n = some r →
        (s.heap.object r).versionNumber = n := by
      intro n r hl
      rcases hadd n r hl with hl | ⟨rfl, rfl⟩
      · exact hpub n r hl
      · rfl
    have hnum₁ : ∀ n, n ∈ (pub.2 ++ [((s.heap.object v).versionNumber, pubkey)]).map Prod.fst ↔
        n ∈ (pub.1.addVersion (s.heap.object v).versionNumber v).1.versions := by
      intro n
      rw [hmem, List.map_append, List.mem_append, hnum, List.map_singleton, List.mem_singleton, or_comm]
    obtain ⟨h1, h2, h3⟩ := ih h hpub₁ hnum₁
    refine ⟨h1, h2, ?_⟩
    intro n
    rw [h3 n, List.map_append, List.mem_append]
    simp only [List.map_cons, List.map_nil, List.mem_cons, List.not_mem_nil, or_false, exists_eq_or_imp, or_assoc,
      eq_comm (a := n)]

/-- Every version that has a key is exported, and the metadata of the export lists the same numbers. -/
theorem mem_keyNumbers_publicKeyExport {publicKey : κ → Except PyError π} {order : DictOrder} {s : Keyczar κ} {w : Written π}
    (h : publicKeyExport publicKey order s = .ok w) :
    w.Complete ∧ ∀ n, n ∈ w.keyNumbers ↔ ∃ r ∈ s.versions, (s.heap.object r).versionNumber = n := by
  obtain ⟨pubkmd, hpub, h⟩ := Throwing.ok_of_bind h
  obtain ⟨pub, hfold, h⟩ := Throwing.ok_of_bind h
  cases Except.ok.inj h
  have hempty : pubkmd.versions = ∅ := by
    unfold publicMetadata at hpub
    split at hpub
    · cases Except.ok.inj hpub; rfl
    · cases Except.ok.inj hpub; rfl
    · cases Except.ok.inj hpub; rfl
    · cases hpub
  obtain ⟨hfits, hnum, hmem⟩ := foldlM_exportVersion hfold (by simp [hempty]) (by simp [hempty])
  refine ⟨?_, ?_⟩
  · intro n
    refine (hnum n).trans (Iff.trans ?_ mem_numbers_toJson.symm)
    constructor
    · intro hn
      obtain ⟨r, hr⟩ := Option.isSome_iff_exists.mp (AList.lookup_isSome.mpr hn)
      exact ⟨r, (KeyMetadata.mem_refs_iff _ r).mpr ⟨n, hr⟩, hfits n r hr⟩
    · rintro ⟨r, hr, rfl⟩
      obtain ⟨n, hn⟩ := (KeyMetadata.mem_refs_iff _ r).mp hr
      rw [hfits n r hn]
      exact AList.lookup_isSome.mp (Option.isSome_iff_exists.mpr ⟨r, hn⟩)
  · intro n
    refine (hmem n).trans ?_
    simp only [List.map_nil, List.not_mem_nil, false_or, (order.perm _).mem_iff]

end GenericKeyczar

end Python
