import Keyczar.Interop.Ciphertexts
import Keyczar.Java.SessionCrypters
import Keyczar.Python.PackedArrays
import Keyczar.Python.SessionRuns

/-!
# Session keys between implementations

The Java library and the Python library pack the two keys of a session alike and unpack them differently: the one looks at the count and
not at what follows the arrays, the other at what follows them and not at the count. What both unpack is what both pack, and a session
that either begins the other can join.
-/

namespace Interop

open Bytes Frames Throwing SharedKey

/-! ## What both unpack -/

/-- A loop over frames has each of them among its arrays. -/
theorem unpackLoop_frames {xs : List Bytes} (hxs : ∀ x ∈ xs, x.length < 2 ^ 31) {front rest : Bytes} {fuel : Nat}
    {result arrays : List Bytes}
    (h : Python.unpackLoop (front ++ (frames xs ++ rest)) fuel front.length result = some (.ok arrays)) :
    ∃ fuel', Python.unpackLoop (front ++ (frames xs ++ rest)) fuel' ((front ++ frames xs).length : Nat) (result ++ xs) =
      some (.ok arrays) := by
  induction xs generalizing front fuel result with
  | nil => exact ⟨fuel, by simpa using h⟩
  | cons x xs ih =>
    obtain ⟨hx, hxs⟩ := List.forall_mem_cons.mp hxs
    cases fuel with
    | zero => cases h
    | succ fuel =>
      have hdata : front ++ (frames (x :: xs) ++ rest) = front ++ (be32 x.length ++ (x ++ (frames xs ++ rest))) := by
        rw [frames_cons]
        simp only [List.append_assoc]
      have hfront : front ++ (be32 x.length ++ (x ++ (frames xs ++ rest))) = (front ++ (be32 x.length ++ x)) ++ (frames xs ++ rest) := by
        simp only [List.append_assoc]
      have hend : (front ++ (be32 x.length ++ x)).length = front.length + 4 + x.length := by
        simp only [List.length_append, length_be32]
        omega
      rw [hdata] at h
      -- the length field leads behind the array
      rcases Python.unpackLoop_succ_eq_ok h with ⟨-, hnone, -⟩ | ⟨next, hnext, hrest⟩
      · rw [Python.nextOffset_append _ hx] at hnone
        cases hnone
      · rw [Python.nextOffset_append _ hx] at hnext
        obtain rfl := Option.some.inj hnext
        have hslice : slice (front ++ (be32 x.length ++ (x ++ (frames xs ++ rest)))) (front.length + 4)
            (front.length + 4 + x.length : Nat) = x := by
          have hstart : (front.length : Int) + 4 = (front.length + 4 : Nat) := by push_cast; rfl
          rw [hstart, slice_nat, ← List.append_assoc front, List.drop_left' (by rw [List.length_append, length_be32]),
            Nat.add_sub_cancel_left, List.take_left' rfl]
        rw [hslice, hfront, ← hend] at hrest
        obtain ⟨fuel', hfuel'⟩ := ih hxs hrest
        refine ⟨fuel', ?_⟩
        have hstrings : front ++ frames (x :: xs) = front ++ (be32 x.length ++ x) ++ frames xs := by
          rw [frames_cons]
          simp only [List.append_assoc]
        rw [hdata, hfront, hstrings, ← List.singleton_append, ← List.append_assoc result]
        exact hfuel'

/-- Where the Python library finds two keys there is nothing behind them. -/
theorem loadPackedKey_packed {a b rest : Bytes} (ha : a.length < 2 ^ 31) (hb : b.length < 2 ^ 31) {fuel : Nat} {key : Python.AesKey}
    (h : Python.loadPackedKey (Java.Util.packed [a, b] ++ rest) fuel = some (.ok key)) :
    rest = [] ∧ key.keyBytes = a ∧ key.hmacKey.keyBytes = b := by
  have hlengths : ∀ x ∈ [a, b], x.length < 2 ^ 31 := by
    intro x hx
    rcases List.mem_pair.mp hx with rfl | rfl
    · exact ha
    · exact hb
  obtain ⟨unpacked, hunpacked, hkey⟩ := Option.map_eq_some_iff.mp h
  obtain ⟨arrays, rfl, hkey⟩ := ok_of_bind hkey
  have hloop : Python.unpackLoop (be32 2 ++ (frames [a, b] ++ rest)) fuel (be32 2).length [] = some (.ok arrays) := by
    rw [← List.append_assoc]
    exact hunpacked
  obtain ⟨fuel', hrest⟩ := unpackLoop_frames hlengths hloop
  cases fuel' with
  | zero => cases hrest
  | succ fuel' =>
    rcases Python.unpackLoop_succ_eq_ok hrest with ⟨hend, -, rfl⟩ | ⟨next, -, hmore⟩
    · have hnil : rest.length = 0 := by
        simp only [List.length_append] at hend
        omega
      refine ⟨List.eq_nil_of_length_eq_zero hnil, ?_⟩
      rw [← Except.ok.inj hkey]
      exact ⟨rfl, rfl⟩
    · -- a third array
      exfalso
      have hcount := Python.length_places_of_unpackLoop hmore
      have hpos : 0 < (Walk.places (Python.nextOffset (be32 2 ++ (frames [a, b] ++ rest))) fuel' next).length := by
        cases fuel' with
        | zero => cases hmore
        | succ fuel' => exact Nat.succ_pos _
      simp only [List.length_append, List.length_cons, List.length_nil] at hcount
      rcases arrays with _ | ⟨x, _ | ⟨y, _ | ⟨z, arrays⟩⟩⟩
      · cases hkey
      · cases hkey
      · simp only [List.length_cons, List.length_nil] at hcount
        omega
      · cases hkey

/-- The key that packed keys are loaded as. -/
theorem exists_loadPackedKey {a b : Bytes} (ha : a.length < 2 ^ 31) (hb : b.length < 2 ^ 31) :
    ∃ key : Python.AesKey, key.Sized ∧ key.keyBytes = a ∧ key.hmacKey.keyBytes = b ∧
      ∀ fuel, 3 ≤ fuel → Python.loadPackedKey (Java.Util.packed [a, b]) fuel = some (.ok key) := by
  have hlengths : ∀ x ∈ [a, b], x.length < 2 ^ 31 := by
    intro x hx
    rcases List.mem_pair.mp hx with rfl | rfl
    · exact ha
    · exact hb
  refine ⟨{ keyBytes := a, hmacKey := { keyBytes := b, size := Python.setSize .hmacSha1 (b.length * 8) },
            size := Python.setSize .aes (a.length * 8) },
    ⟨Python.isValidSize_setSize .aes _, Python.isValidSize_setSize .hmacSha1 _⟩, rfl, rfl, ?_⟩
  intro fuel hfuel
  have hunpack : Python.unpackMultipleByteArrays (Java.Util.packed [a, b]) fuel = some (.ok [a, b]) := by
    have hpacked := Python.unpackMultipleByteArrays_pack hlengths hfuel
    rw [List.flatMap_def] at hpacked
    exact hpacked
  rw [Python.loadPackedKey, hunpack]
  rfl

/-- Both libraries accept bytes for packed keys exactly when the bytes are two keys packed, neither empty nor too long for a text, with
nothing behind them; then they have the same keys. -/
theorem packed_keys_accepted_iff {data : Bytes} (hlength : data.length < 2 ^ 31) :
    ((∃ k, Java.AesKeyJson.fromPackedKey data = .ok k) ∧ (∃ fuel key, Python.loadPackedKey data fuel = some (.ok key)) ↔
      ∃ a b, data = Java.Util.packed [a, b] ∧ Java.KeyBytes a ∧ Java.KeyBytes b) ∧
    ∀ k fuel key, Java.AesKeyJson.fromPackedKey data = .ok k → Python.loadPackedKey data fuel = some (.ok key) →
      k = .ofBytes key.keyBytes key.hmacKey.keyBytes := by
  have hsame : ∀ a b rest fuel key, data = Java.Util.packed [a, b] ++ rest → Python.loadPackedKey data fuel = some (.ok key) →
      rest = [] ∧ key.keyBytes = a ∧ key.hmacKey.keyBytes = b := by
    rintro a b rest fuel key rfl hload
    have hlengths := (Java.Util.lengths_of_packed hlength rfl).2
    exact loadPackedKey_packed (hlengths a (by simp)) (hlengths b (by simp)) hload
  refine ⟨⟨?_, ?_⟩, ?_⟩
  · rintro ⟨⟨k, hk⟩, fuel, key, hload⟩
    obtain ⟨a, b, rest, heq, ha, hb, -⟩ := (Java.AesKeyJson.fromPackedKey_eq_ok_iff hlength).mp hk
    obtain ⟨rfl, -⟩ := hsame a b rest fuel key heq hload
    exact ⟨a, b, by rw [heq, List.append_nil], ha, hb⟩
  · rintro ⟨a, b, rfl, ha, hb⟩
    have hlengths := (Java.Util.lengths_of_packed hlength (List.append_nil _).symm).2
    obtain ⟨key, -, -, -, hload⟩ := exists_loadPackedKey (hlengths a (by simp)) (hlengths b (by simp))
    exact ⟨⟨_, (Java.AesKeyJson.fromPackedKey_eq_ok_iff hlength).mpr ⟨a, b, [], (List.append_nil _).symm, ha, hb, rfl⟩⟩, 3, key,
      hload 3 (Nat.le_refl 3)⟩
  · intro k fuel key hk hload
    obtain ⟨a, b, rest, heq, -, -, rfl⟩ := (Java.AesKeyJson.fromPackedKey_eq_ok_iff hlength).mp hk
    obtain ⟨-, rfl, rfl⟩ := hsame a b rest fuel key heq hload
    rfl

/-- Two keys of one byte, and the same with a byte behind them. -/
theorem packed_keys_accepted_iff_small :
    (∃ k, Java.AesKeyJson.fromPackedKey (Java.Util.packed [[7], [8]]) = .ok k) ∧
    (∃ k, Java.AesKeyJson.fromPackedKey (Java.Util.packed [[7], [8]] ++ [9]) = .ok k) ∧
    ¬ ∃ fuel key, Python.loadPackedKey (Java.Util.packed [[7], [8]] ++ [9]) fuel = some (.ok key) := by
  have hlong : ∃ k, Java.AesKeyJson.fromPackedKey (Java.Util.packed [[7], [8]] ++ [9]) = .ok k :=
    ⟨_, (Java.AesKeyJson.fromPackedKey_eq_ok_iff (by decide)).mpr ⟨[7], [8], [9], rfl, by decide, by decide, rfl⟩⟩
  refine ⟨((packed_keys_accepted_iff (by decide)).1.mpr ⟨[7], [8], rfl, by decide, by decide⟩).1, hlong, ?_⟩
  intro hpython
  have hlength : (Java.Util.packed [[7], [8]] ++ [9]).length < 2 ^ 31 := by decide
  obtain ⟨a, b, heq, -, -⟩ := (packed_keys_accepted_iff hlength).1.mp ⟨hlong, hpython⟩
  have hinj := Java.Util.packed_append_inj hlength rfl
    (heq.trans (List.append_nil _).symm)
  cases hinj.2

/-! ## Sessions -/

/-- The keys that the Python library draws, and their packing. -/
theorem packedKey_eq (d : Python.SessionDraws) :
    Java.KeyBytes d.aesKeyBytes ∧ Java.KeyBytes d.hmacKeyBytes ∧
      (Java.Util.packed [d.aesKeyBytes, d.hmacKeyBytes]).length < 2 ^ 31 ∧
      (Python.Session.new d).packedKey = .ok (Java.Util.packed [d.aesKeyBytes, d.hmacKeyBytes]) := by
  have hvalid : (d.aesKeyBytes.length = 16 ∨ d.aesKeyBytes.length = 24) ∨ d.aesKeyBytes.length = 32 := by
    simpa [Python.validKeyLength] using d.valid
  have hhmac := d.length_hmacKeyBytes
  have ha : Java.KeyBytes d.aesKeyBytes := ⟨List.ne_nil_of_length_pos (by omega), by omega⟩
  have hb : Java.KeyBytes d.hmacKeyBytes := ⟨List.ne_nil_of_length_pos (by omega), by omega⟩
  refine ⟨ha, hb, ?_, ?_⟩
  · simp [Java.Util.length_packed]
    omega
  · have hlengths : ∀ x ∈ [d.aesKeyBytes, d.hmacKeyBytes], x.length < 2 ^ 31 := by
      intro x hx
      rcases List.mem_pair.mp hx with rfl | rfl <;> omega
    have hcount : [d.aesKeyBytes, d.hmacKeyBytes].length < 2 ^ 31 := show 2 < 2 ^ 31 by decide
    have hpack := Python.packMultipleByteArrays_eq hcount hlengths
    rw [List.flatMap_def] at hpack
    exact hpack

section

open Java.SessionCrypter

variable (P : Primitives) (J : Java.JSONObjects) (J' : Python.JsonModule) (order : Python.DictOrder)

/-- A Python session of some key decrypts what a Java session of the same key bytes encrypts. -/
theorem python_decrypt_of_java {a b : Bytes} (ha : Java.KeyBytes a) (hb : Java.KeyBytes b) {z : Java.Keyczar}
    (hz : Java.CrypterOf P (Java.sessionKey ha hb) z) {key : Python.AesKey} (hkey : key.Sized) (haes : key.keyBytes = a)
    (hhmac : key.hmacKey.keyBytes = b) {ivPreImage plain ct : Bytes} (hpre : ivPreImage.length = 16)
    (hct : Java.encryptImported P z ivPreImage plain = .ok ct) : Python.SessionDecrypter.decrypt P J' order ⟨key⟩ ct none = .ok plain := by
  subst haes hhmac
  obtain ⟨hvalid, rfl⟩ := hz.encrypt_eq_ok rfl hpre hct
  obtain ⟨s, hs, -, hget⟩ := Python.exists_sessionCrypter P J' order hkey
  rw [Python.SessionDecrypter.decrypt, hs, ok_bind]
  exact Python.Crypter.decrypt_of_getKey hget hvalid ⟨_, Java.Encrypter.length_ivOf hpre⟩ plain

/-- A Java session of some key bytes decrypts what a Python session of the same key encrypts. -/
theorem java_decrypt_of_python {key : Python.AesKey} (hkey : key.Sized) (hvalid : Python.validKeyLength key.keyBytes.length = true)
    (ha : Java.KeyBytes key.keyBytes) (hb : Java.KeyBytes key.hmacKey.keyBytes) {z : Java.Keyczar}
    (hz : Java.CrypterOf P (Java.sessionKey ha hb) z) {session : Python.Session} (hsession : session.sessionKey = key) {material : Bytes}
    {iv : Python.IvBytes} {plain ct : Bytes} (hct : Python.SessionEncrypter.encrypt P J' order ⟨session, material⟩ iv plain none = .ok ct) :
    Java.SessionCrypter.decrypt P ⟨z, material⟩ ct = .ok plain := by
  obtain ⟨s, hs, hprimary, -⟩ := Python.exists_sessionCrypter P J' order hkey
  rw [Python.SessionEncrypter.encrypt, hsession, hs, ok_bind, Python.Encrypter.encrypt_of_primaryKey hprimary hvalid] at hct
  obtain rfl := Except.ok.inj hct
  have hrun : Java.Crypter.decrypt P z (key.ciphertext P iv.val plain) = .ok plain := hz.decrypt_eq rfl hvalid iv.property plain
  exact mapError_eq_ok_iff.mpr hrun

end

/-- When each library decrypts what the other encrypts under the long-lived keys, a session that either begins is opened by the other,
which then decrypts whatever the first encrypts in it. -/
theorem sessions_interchangeable (P : Primitives) (J : Java.JSONObjects) (J' : Python.JsonModule) (order : Python.DictOrder)
    {encryptJava decryptJava : Bytes → Except Java.Exception Bytes} {encryptPython decryptPython : Bytes → Except Python.PyError Bytes}
    (hjava : ∀ x y, encryptJava x = .ok y → decryptPython y = .ok x) (hpython : ∀ x y, encryptPython x = .ok y → decryptJava y = .ok x) :
    (∀ d e, Java.SessionCrypter.new P J encryptJava d = .ok e →
      ∃ key, (∀ fuel, 3 ≤ fuel → Python.sessionDecrypter decryptPython e.sessionMaterial fuel = some (.ok key)) ∧
        ∀ ivPreImage plain ct : Bytes, ivPreImage.length = 16 → e.encrypt P ivPreImage plain = .ok ct →
          Python.SessionDecrypter.decrypt P J' order ⟨key⟩ ct none = .ok plain) ∧
    ∀ d e, Python.SessionEncrypter.init encryptPython d = .ok e →
      ∃ c, Java.SessionCrypter.ofMaterial P J decryptJava e.sessionMaterial = .ok c ∧
        ∀ iv plain ct, e.encrypt P J' order iv plain none = .ok ct → c.decrypt P ct = .ok plain := by
  refine ⟨?_, ?_⟩
  · intro d e he
    obtain ⟨himported, hencrypt⟩ := Java.SessionCrypter.new_eq_ok_iff.mp he
    have ha := d.keyBytes_aesKeyBytes.1
    obtain ⟨z, hz, hcrypter⟩ := Java.exists_importedCrypter P J ha d.keyBytes_hmacRandom
    obtain rfl : e.symmetricCrypter = z := Except.ok.inj (himported.symm.trans hz)
    obtain ⟨key, hsized, haes, hhmac, hload⟩ :=
      exists_loadPackedKey (show d.aesKeyBytes.length < 2 ^ 31 from lt_trans ha.2 (by decide))
        (show d.hmacRandom.length < 2 ^ 31 from lt_trans d.keyBytes_hmacRandom.2 (by decide))
    refine ⟨key, ?_, ?_⟩
    · intro fuel hfuel
      rw [Python.sessionDecrypter, hjava _ _ hencrypt]
      exact hload fuel hfuel
    · intro ivPreImage plain ct hpre hct
      exact python_decrypt_of_java P J' order ha d.keyBytes_hmacRandom hcrypter hsized haes hhmac hpre hct
  · intro d e he
    obtain ⟨packed, hpacked, hmaterial⟩ := ok_of_bind he
    obtain ⟨material, hencrypt, hreturn⟩ := ok_of_bind hmaterial
    obtain rfl := Except.ok.inj hreturn
    obtain ⟨ha, hb, hlength, hpackedKey⟩ := packedKey_eq d
    obtain rfl := Except.ok.inj (hpackedKey.symm.trans hpacked)
    obtain ⟨z, hz, hcrypter⟩ := Java.exists_importedCrypter P J ha hb
    refine ⟨⟨z, material⟩, (Java.SessionCrypter.ofMaterial_eq_ok_iff (hpython _ _ hencrypt) hlength).mpr
      ⟨_, _, [], (List.append_nil _).symm, ha, hb, hz, rfl⟩, ?_⟩
    intro iv plain ct hct
    exact java_decrypt_of_python P J' order (Python.Session.sized_new d) d.valid ha hb hcrypter rfl hct

/-- A session that begins in Java under the key of ones, joined in Python. -/
theorem sessions_interchangeable_ones :
    ∃ e key ct, Java.SessionCrypter.new .plain Java.smallObjects
        (Java.Encrypter.encryptWith .plain ones.java Java.smallPreImage) Java.smallSessionDraws = .ok e ∧
      Python.sessionDecrypter (ones.python.decrypt .plain) e.sessionMaterial 3 = some (.ok key) ∧
      e.encrypt .plain Java.smallPreImage [7] = .ok ct ∧
      Python.SessionDecrypter.decrypt .plain Python.numberedModule Python.asListed ⟨key⟩ ct none = .ok [7] := by
  have hpre : Java.smallPreImage.length = 16 := List.length_replicate
  have hz : onesSet.getKey (ones.hash .plain) = [.aes ones.java] := by
    rw [Java.Keyczar.getKey, onesSet]
    dsimp only
    rw [if_pos (Eq.refl (ones.hash .plain))]
  have hjava : ∀ x y, Java.Encrypter.encryptWith .plain ones.java Java.smallPreImage x = .ok y →
      ones.python.decrypt .plain y = .ok x := by
    intro x y hy
    obtain ⟨-, rfl⟩ := Java.Encrypter.encryptWith_eq_ok (k := ones.java) rfl hpre hy
    exact python_decrypt (Java.Encrypter.length_ivOf hpre) x
  have hpython : ∀ x y, ones.python.encrypt .plain (List.replicate 16 0) x = .ok y → Java.Crypter.decrypt .plain onesSet y = .ok x := by
    intro x y hy
    rw [python_encrypt] at hy
    obtain rfl := Except.ok.inj hy
    exact java_decrypt hz List.length_replicate x
  obtain ⟨crypter, himported, hcrypter⟩ := Java.exists_importedCrypter .plain Java.smallObjects
    Java.smallSessionDraws.keyBytes_aesKeyBytes.1 Java.smallSessionDraws.keyBytes_hmacRandom
  have he : Java.SessionCrypter.new .plain Java.smallObjects (Java.Encrypter.encryptWith .plain ones.java Java.smallPreImage)
      Java.smallSessionDraws = .ok ⟨crypter, _⟩ :=
    Java.SessionCrypter.new_eq_ok_iff.mpr ⟨himported, java_encrypt hpre (by decide)⟩
  obtain ⟨key, hload, hdecrypt⟩ :=
    (sessions_interchangeable .plain Java.smallObjects Python.numberedModule Python.asListed hjava hpython).1 _ _ he
  have hct := hcrypter.encrypt_eq rfl Java.smallSessionDraws.keyBytes_aesKeyBytes.2 hpre (show [7].length < 2 ^ 31 - 48 by decide)
  exact ⟨_, key, _, he, hload 3 (Nat.le_refl 3), hct, hdecrypt _ _ _ hpre hct⟩

end Interop
