import Keyczar.Java.SignedModes

/-!
# When timeout signatures expire

`TimeoutSigner` writes and signs a time only if it is positive. `TimeoutVerifier` always reads one: eight bytes behind the header, which of
a signature without a time are the first bytes of the signature of the key.
-/

namespace Java

open Bytes Throwing

variable {ρ : Type} {z : SigningKeyczar ρ} {now : Int64}

/-- The keys under a hash accept what was signed, and nothing else; a signature is one of a single message. -/
structure Ideal (z : SigningKeyczar ρ) (hash : Bytes) (Signed : Bytes → Bytes → Prop) : Prop where
  accepts : ∀ m sig, Signed m sig → ∃ key ∈ z.getKey hash, key.verify m sig = .ok true
  signed : ∀ key ∈ z.getKey hash, ∀ m sig, key.verify m sig = .ok true → Signed m sig
  unique : ∀ m m' sig, Signed m sig → Signed m' sig → m = m'

/-- Some key accepts exactly what was signed. -/
theorem Ideal.accepted_iff {hash : Bytes} {Signed : Bytes → Bytes → Prop} (h : Ideal z hash Signed) (m sig : Bytes) :
    (∃ key ∈ z.getKey hash, key.verify m sig = .ok true) ↔ Signed m sig :=
  ⟨fun ⟨key, hkey, hverify⟩ => h.signed key hkey m sig hverify, h.accepts m sig⟩

/-- A signature under the hash is verified exactly of the message that was signed, while some message was. -/
theorem Ideal.verifyBuffer {hash sig m s : Bytes} {Signed : Bytes → Bytes → Prop} (h : Ideal z hash Signed)
    (hhash : hash.length = KEY_HASH_SIZE) (hsigned : Signed m s) (data : ByteBuffer) {signature : ByteBuffer}
    (hrest : signature.rest = [0] ++ hash ++ sig) :
    ∃ answer, Verifier.verifyBuffer z data none signature = .ok answer ∧ (answer = true ↔ Signed (data.rest ++ [0]) sig) := by
  obtain ⟨key, hkey, -⟩ := h.accepts _ _ hsigned
  obtain ⟨answer, hanswer, hiff⟩ := Verifier.verifyBuffer_layout data none hhash hrest hkey
  rw [h.accepted_iff, Option.map_none, Option.getD_none, List.append_nil] at hiff
  exact ⟨answer, hanswer, hiff⟩

namespace TimeoutVerifier

/-! ## The parts of a signature -/

/-- A signature that ends before its time. -/
theorem verify_of_short {data signature : Bytes} (h : signature.length < 13) :
    verify z now data signature = .error (.keyczar (.shortSignature signature.length)) := by
  unfold verify verifyBuffer
  rw [ByteBuffer.remaining_wrap]
  exact if_pos h

/-- Eight bytes are a time. -/
theorem toLong_of_length : ∀ {timestamp : Bytes}, timestamp.length = 8 → ∃ t, Util.toLong timestamp = .ok t
  | [_, _, _, _, _, _, _, _], _ => ⟨_, rfl⟩

/-- Two strings are put into a new buffer, which is read from its start. -/
theorem exists_puts (x y : Bytes) :
    ∃ b₁ b₂ : ByteBuffer, (ByteBuffer.allocate (x.length + y.length)).put x = .ok b₁ ∧ b₁.put y = .ok b₂ ∧ b₂.rewind.rest = x ++ y := by
  obtain ⟨b₁, hput₁, hwrote₁⟩ := ByteBuffer.put_ok (b := ByteBuffer.allocate (x.length + y.length)) (w := x) (by
    rw [ByteBuffer.allocate, ByteBuffer.remaining_wrap, List.length_replicate]
    omega)
  obtain ⟨b₂, hput₂, -⟩ := ByteBuffer.put_ok (b := b₁) (w := y) (by
    rw [hwrote₁.remaining_eq, ByteBuffer.allocate, ByteBuffer.remaining_wrap, List.length_replicate]
    omega)
  exact ⟨b₁, b₂, hput₁, hput₂, rest_of_puts (Nat.le_refl _) hput₁ hput₂⟩

/-- How a signature is verified that is long enough: it has expired; or the data is too long for the time in front of it; or what is
behind the time is verified, behind the header, over the time and the data. -/
theorem verify_cases (z : SigningKeyczar ρ) (now : Int64) {data header timestamp rest : Bytes} {t : Int64} (hheader : header.length = 5)
    (htimestamp : timestamp.length = 8) (ht : Util.toLong timestamp = .ok t) (hrest : 13 + rest.length < 2 ^ 31)
    (hdata : data.length < 2 ^ 31) :
    (t < now ∧ verify z now data (header ++ timestamp ++ rest) = .ok false) ∨
    (¬ t < now ∧ 2 ^ 31 ≤ 8 + data.length ∧ verify z now data (header ++ timestamp ++ rest) = .error (.runtime .illegalArgument)) ∨
    (¬ t < now ∧ 8 + data.length < 2 ^ 31 ∧ ∃ d b : ByteBuffer, d.rest = timestamp ++ data ∧ b.rest = header ++ rest ∧
      verify z now data (header ++ timestamp ++ rest) = Verifier.verifyBuffer z d none b) := by
  have hlong : ¬ (ByteBuffer.wrap (header ++ timestamp ++ rest)).remaining < Signer.HEADER_SIZE + Signer.TIMESTAMP_SIZE := by
    rw [ByteBuffer.remaining_wrap, List.length_append, List.length_append, hheader, htimestamp]
    show ¬ 5 + 8 + rest.length < 5 + 8
    omega
  have hwhole : (ByteBuffer.wrap (header ++ timestamp ++ rest)).rest = header ++ (timestamp ++ rest) := by
    rw [ByteBuffer.rest_wrap, List.append_assoc]
  obtain ⟨b₁, hget₁, h₁⟩ := ByteBuffer.get_append hwhole (n := Signer.HEADER_SIZE) hheader
  obtain ⟨b₂, hget₂, h₂⟩ := ByteBuffer.get_append h₁ (n := Signer.TIMESTAMP_SIZE) htimestamp
  have hremaining : b₂.remaining = rest.length := by rw [← ByteBuffer.length_rest, h₂]
  unfold verify verifyBuffer
  rw [if_neg hlong, hget₁, mapError_ok, ok_bind]
  dsimp only
  rw [hget₂, mapError_ok, ok_bind]
  dsimp only
  rw [ht, mapError_ok, ok_bind, hremaining, h₂, ByteBuffer.remaining_wrap, ByteBuffer.rest_wrap]
  by_cases hnow : t < now
  · rw [if_pos hnow]
    exact Or.inl ⟨hnow, rfl⟩
  · rw [if_neg hnow]
    obtain ⟨s₁, s₂, hs₁, hs₂, hs⟩ := exists_puts header rest
    have hsliced : Util.allocate (Signer.HEADER_SIZE + rest.length) = .ok (ByteBuffer.allocate (header.length + rest.length)) := by
      rw [hheader]
      exact Util.allocate_of_lt (by show 5 + rest.length < 2 ^ 31; omega)
    rw [hsliced, mapError_ok, ok_bind, hs₁, mapError_ok, ok_bind, hs₂, mapError_ok, ok_bind]
    by_cases hlarge : 8 + data.length < 2 ^ 31
    · obtain ⟨d₁, d₂, hd₁, hd₂, hd⟩ := exists_puts timestamp data
      have hprepended : Util.allocate (Signer.TIMESTAMP_SIZE + data.length) =
          .ok (ByteBuffer.allocate (timestamp.length + data.length)) := by
        rw [htimestamp]
        exact Util.allocate_of_lt hlarge
      rw [hprepended, mapError_ok, ok_bind, hd₁, mapError_ok, ok_bind, hd₂, mapError_ok, ok_bind]
      exact Or.inr (Or.inr ⟨hnow, hlarge, d₂.rewind, s₂.rewind, hd, hs, rfl⟩)
    · have hneg : toInt32 ((8 + data.length : Nat) : Int) < 0 := toInt32_neg (by omega) (by omega)
      have hrefused : Util.allocate (Signer.TIMESTAMP_SIZE + data.length) = .error .illegalArgument := if_pos hneg
      rw [hrefused, mapError_error, error_bind]
      exact Or.inr (Or.inl ⟨hnow, Nat.not_lt.mp hlarge, rfl⟩)

/-! ## The time -/

/-- The verifier says of the data and of no other that they are signed, up to the expiration time. -/
def ExpiresExactly (z : SigningKeyczar ρ) (now t : Int64) (data data' signature : Bytes) : Prop :=
  verify z now data' signature = .ok (decide (data' = data ∧ now ≤ t))

/-- What the verifier needs. A positive time that has not passed has to fit in front of the data. Without a time in the signature the
answer is right where it should be `false`, and the first bytes of what the key signed are a time that has passed or that fits. -/
def ReadsTime (now t : Int64) (data data' sig : Bytes) : Prop :=
  if 0 < t then t < now ∨ 8 + data'.length < 2 ^ 31
  else (t < now ∨ data' ≠ data) ∧ 8 ≤ sig.length ∧ ∃ t', Util.toLong (sig.take 8) = .ok t' ∧ (t' < now ∨ 8 + data'.length < 2 ^ 31)

variable {hash data data' sig : Bytes} {Signed : Bytes → Bytes → Prop} {t : Int64}

/-- A signature with a time. -/
theorem expiresExactly_of_pos (hhash : hash.length = KEY_HASH_SIZE) (hideal : Ideal z hash Signed)
    (hsigned : Signed (Util.fromLong t ++ data ++ [0]) sig) (hsig : 13 + sig.length < 2 ^ 31) (hdata' : data'.length < 2 ^ 31) :
    ExpiresExactly z now t data data' ([0] ++ hash ++ Util.fromLong t ++ sig) ↔ t < now ∨ 8 + data'.length < 2 ^ 31 := by
  have hheader : ([0] ++ hash).length = 5 := by rw [List.length_append, hhash]; rfl
  unfold ExpiresExactly
  rcases verify_cases z now hheader (Util.length_fromLong t) (Util.toLong_fromLong t) hsig hdata' with
    ⟨hnow, hverify⟩ | ⟨hnow, hlarge, hverify⟩ | ⟨hnow, hlarge, d, b, hd, hb, hverify⟩
  · have hpassed : ¬ (data' = data ∧ now ≤ t) := fun h => Int64.not_le.mpr hnow h.2
    rw [hverify, decide_eq_false hpassed]
    exact iff_of_true rfl (Or.inl hnow)
  · rw [hverify]
    refine iff_of_false nofun ?_
    rintro (h | h)
    · exact hnow h
    · omega
  · obtain ⟨answer, hanswer, hiff⟩ := hideal.verifyBuffer hhash hsigned d hb
    rw [hd] at hiff
    have hdata : Signed (Util.fromLong t ++ data' ++ [0]) sig ↔ data' = data := by
      constructor
      · intro h
        have hsame := List.append_cancel_right (hideal.unique _ _ _ h hsigned)
        exact List.append_cancel_left hsame
      · rintro rfl
        exact hsigned
    have hvalue : answer = decide (data' = data ∧ now ≤ t) := by
      refine Bool.eq_iff_iff.mpr ?_
      rw [hiff, hdata, decide_eq_true_iff]
      exact (and_iff_left (Int64.not_lt.mp hnow)).symm
    rw [hverify, hanswer, hvalue]
    exact iff_of_true rfl (Or.inr hlarge)

/-- A signature without a time: the first bytes of what the key signed are read as one, and what is behind them is not a signature. -/
theorem expiresExactly_of_nonpos (hhash : hash.length = KEY_HASH_SIZE) (hideal : Ideal z hash Signed)
    (hcut : ∀ m m' first rest, first.length = 8 → Signed m (first ++ rest) → ¬ Signed m' rest)
    (hsigned : Signed (data ++ [0]) sig) (hsig : 5 + sig.length < 2 ^ 31) (hdata' : data'.length < 2 ^ 31) :
    ExpiresExactly z now t data data' ([0] ++ hash ++ sig) ↔
      (t < now ∨ data' ≠ data) ∧ 8 ≤ sig.length ∧
        ∃ t', Util.toLong (sig.take 8) = .ok t' ∧ (t' < now ∨ 8 + data'.length < 2 ^ 31) := by
  have hheader : ([0] ++ hash).length = 5 := by rw [List.length_append, hhash]; rfl
  have hfalse : decide (data' = data ∧ now ≤ t) = false ↔ t < now ∨ data' ≠ data := by
    rw [decide_eq_false_iff_not, not_and_or, Int64.not_le]
    exact Or.comm
  unfold ExpiresExactly
  by_cases hshort : sig.length < 8
  · rw [verify_of_short (by rw [List.length_append, hheader]; omega)]
    exact iff_of_false nofun fun h => Nat.not_le.mpr hshort h.2.1
  · have hlong : 8 ≤ sig.length := Nat.not_lt.mp hshort
    have htake : (sig.take 8).length = 8 := by rw [List.length_take, Nat.min_eq_left hlong]
    have hsplit : [0] ++ hash ++ sig = [0] ++ hash ++ sig.take 8 ++ sig.drop 8 := by
      rw [List.append_assoc _ (sig.take 8), List.take_append_drop]
    obtain ⟨t', ht'⟩ := toLong_of_length htake
    have hright : (∃ t'', Util.toLong (sig.take 8) = .ok t'' ∧ (t'' < now ∨ 8 + data'.length < 2 ^ 31)) ↔
        t' < now ∨ 8 + data'.length < 2 ^ 31 := by
      constructor
      · rintro ⟨t'', ht'', h⟩
        obtain rfl : t' = t'' := Except.ok.inj (ht'.symm.trans ht'')
        exact h
      · exact fun h => ⟨t', ht', h⟩
    rw [hright, hsplit, and_iff_right hlong]
    have hdrop : 13 + (sig.drop 8).length < 2 ^ 31 := by
      rw [List.length_drop]
      omega
    rcases verify_cases z now hheader htake ht' hdrop hdata' with
      ⟨hnow, hverify⟩ | ⟨hnow, hlarge, hverify⟩ | ⟨hnow, hlarge, d, b, hd, hb, hverify⟩
    · rw [hverify, and_iff_left (Or.inl hnow), ← hfalse]
      exact ⟨fun h => (Except.ok.inj h).symm, fun h => congrArg Except.ok h.symm⟩
    · rw [hverify]
      refine iff_of_false nofun ?_
      rintro ⟨-, h | h⟩
      · exact hnow h
      · omega
    · obtain ⟨answer, hanswer, hiff⟩ := hideal.verifyBuffer hhash hsigned d hb
      have hrefused : answer = false := by
        cases answer with
        | false => rfl
        | true =>
          refine (hcut (data ++ [0]) _ (sig.take 8) (sig.drop 8) htake ?_ (hiff.mp rfl)).elim
          rw [List.take_append_drop]
          exact hsigned
      rw [hverify, hanswer, hrefused, and_iff_left (Or.inr hlarge), ← hfalse]
      exact ⟨fun h => (Except.ok.inj h).symm, fun h => congrArg Except.ok h.symm⟩

end TimeoutVerifier

variable {ρ' : Type} {z' : SigningKeyczar ρ'} {k : SigningKey ρ} {random : ρ} {hash data data' signature sig : Bytes} {t : Int64}
  {Signed : Bytes → Bytes → Prop}

/-- With ideal signatures, a timeout signature says exactly of its data that it is signed, and exactly up to its time, if the verifier
reads the time that the signer was given or need not read it. -/
theorem TimeoutVerifier.expiresExactly_iff (hk : z.getPrimaryKey = some k) (hideal : Ideal z' k.hash Signed)
    (hcut : ∀ m m' first rest, first.length = 8 → Signed m (first ++ rest) → ¬ Signed m' rest)
    (hrun : TimeoutSigner.timeoutSign z random data t = .ok signature) (hlength : signature.length < 2 ^ 31)
    (hsig : k.sign random (expiration t ++ data ++ [0]) = .ok sig) (hsigned : Signed (expiration t ++ data ++ [0]) sig) (now : Int64)
    (hdata' : data'.length < 2 ^ 31) :
    TimeoutVerifier.ExpiresExactly z' now t data data' signature ↔ TimeoutVerifier.ReadsTime now t data data' sig := by
  obtain ⟨sig', hsig', hsignature⟩ := SignCall.run_eq_ok hk (c := .timeoutSign data t) hrun
  obtain rfl : sig = sig' := Except.ok.inj (hsig.symm.trans hsig')
  have hlayout : signature = [0] ++ k.hash ++ expiration t ++ sig := hsignature
  have hhash := k.length_hash
  unfold TimeoutVerifier.ReadsTime
  by_cases ht : 0 < t
  · rw [expiration_of_pos ht] at hlayout hsigned
    rw [hlayout, List.length_append, List.length_append, List.length_append, hhash, Util.length_fromLong] at hlength
    rw [if_pos ht, hlayout]
    exact TimeoutVerifier.expiresExactly_of_pos hhash hideal hsigned (by
      have hone : ([0] : Bytes).length + KEY_HASH_SIZE = 5 := rfl
      omega) hdata'
  · rw [expiration_of_nonpos (Int64.not_lt.mp ht), List.append_nil] at hlayout
    rw [expiration_of_nonpos (Int64.not_lt.mp ht), List.nil_append] at hsigned
    rw [hlayout, List.length_append, List.length_append, hhash] at hlength
    rw [if_neg ht, hlayout]
    exact TimeoutVerifier.expiresExactly_of_nonpos hhash hideal hcut hsigned (by
      have hone : ([0] : Bytes).length + KEY_HASH_SIZE = 5 := rfl
      omega) hdata'

theorem length_oneMessageHash : ([1, 2, 3, 4] : Bytes).length = KEY_HASH_SIZE := rfl

/-- A key with one signature, which is right for one message. -/
def oneMessageKey (message : Bytes) : SigningKey Unit where
  hash := [1, 2, 3, 4]
  digestSize := 20
  sign _ _ := .ok (List.replicate 20 7)
  verify m sig := .ok (decide (m = message ∧ sig = List.replicate 20 7))
  length_hash := length_oneMessageHash

/-- A key set of this key. -/
def oneMessageSet (message : Bytes) : SigningKeyczar Unit where
  primaryVersion := some ⟨1, .primary⟩
  versionMap n := if n = 1 then some (oneMessageKey message) else none
  hashMap hash := if hash = [1, 2, 3, 4] then [oneMessageKey message] else []

theorem oneMessageSet_ideal (message : Bytes) :
    Ideal (oneMessageSet message) [1, 2, 3, 4] fun m sig => m = message ∧ sig = List.replicate 20 7 where
  accepts m sig h := ⟨oneMessageKey message, List.mem_singleton_self _, congrArg Except.ok (decide_eq_true h)⟩
  signed key hkey m sig h := by
    obtain rfl : key = oneMessageKey message := List.mem_singleton.mp hkey
    exact of_decide_eq_true (Except.ok.inj h)
  unique m m' sig h h' := h.1.trans h'.1.symm

theorem oneMessageSet_not_cut (message m m' first rest : Bytes) (hfirst : first.length = 8)
    (h : m = message ∧ first ++ rest = List.replicate 20 7) : ¬ (m' = message ∧ rest = List.replicate 20 7) := by
  rintro ⟨-, hrest⟩
  have hlength := congrArg List.length h.2
  rw [List.length_append, hfirst, hrest, List.length_replicate] at hlength
  omega

/-- A time that has not passed. -/
theorem TimeoutVerifier.expiresExactly_iff_in_time :
    TimeoutVerifier.verify (oneMessageSet [0, 0, 0, 0, 0, 0, 0, 9, 7, 0]) 5 [7]
      ([0, 1, 2, 3, 4, 0, 0, 0, 0, 0, 0, 0, 9] ++ List.replicate 20 7) = .ok true := by
  have hrun : TimeoutSigner.timeoutSign (oneMessageSet [0, 0, 0, 0, 0, 0, 0, 9, 7, 0]) () [7] 9 =
      .ok ([0, 1, 2, 3, 4, 0, 0, 0, 0, 0, 0, 0, 9] ++ List.replicate 20 7) := by decide
  have hk : (oneMessageSet [0, 0, 0, 0, 0, 0, 0, 9, 7, 0]).getPrimaryKey = some (oneMessageKey [0, 0, 0, 0, 0, 0, 0, 9, 7, 0]) := rfl
  have hreads : TimeoutVerifier.ReadsTime 5 9 [7] [7] (List.replicate 20 7) := Or.inr (by decide)
  exact (TimeoutVerifier.expiresExactly_iff hk (oneMessageSet_ideal _) (oneMessageSet_not_cut _) hrun (by decide) rfl (by decide) 5
    (by decide)).mpr hreads

/-- The time zero is not signed: up to that time the verifier refuses what was signed for it. -/
theorem TimeoutVerifier.time_zero_is_refused :
    TimeoutSigner.timeoutSign (oneMessageSet [7, 0]) () [7] 0 = .ok ([0, 1, 2, 3, 4] ++ List.replicate 20 7) ∧
    Ideal (oneMessageSet [7, 0]) [1, 2, 3, 4] (fun m sig => m = [7, 0] ∧ sig = List.replicate 20 7) ∧
    (∀ m m' first rest : Bytes, first.length = 8 → m = [7, 0] ∧ first ++ rest = List.replicate 20 7 →
      ¬ (m' = [7, 0] ∧ rest = List.replicate 20 7)) ∧
    TimeoutVerifier.verify (oneMessageSet [7, 0]) 0 [7] ([0, 1, 2, 3, 4] ++ List.replicate 20 7) = .ok false ∧
    ¬ TimeoutVerifier.ExpiresExactly (oneMessageSet [7, 0]) 0 0 [7] [7] ([0, 1, 2, 3, 4] ++ List.replicate 20 7) := by
  have hrefused : TimeoutVerifier.verify (oneMessageSet [7, 0]) 0 [7] ([0, 1, 2, 3, 4] ++ List.replicate 20 7) = .ok false := by decide
  refine ⟨by decide, oneMessageSet_ideal _, oneMessageSet_not_cut _, hrefused, ?_⟩
  intro h
  have htrue : decide (([7] : Bytes) = [7] ∧ (0 : Int64) ≤ 0) = true := by decide
  rw [TimeoutVerifier.ExpiresExactly, hrefused, htrue] at h
  cases h

end Java
