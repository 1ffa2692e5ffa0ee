import Keyczar.Java.SignerRuns

/-!
# Which call a verified signature stands for

Plain signatures, signatures with an expiration time and attached signatures are over concatenations that no tag tells apart. With ideal
signatures, what a verifier accepts says that some call signed the same bytes; which calls these can be follows from when two messages
coincide.
-/

namespace Java

open Bytes

variable {ρ : Type}

/-! ## When two messages coincide -/

theorem expiration_of_pos {t : Int64} (h : 0 < t) : expiration t = Util.fromLong t := if_pos h

theorem expiration_of_nonpos {t : Int64} (h : t ≤ 0) : expiration t = [] := if_neg (Int64.not_lt.mpr h)

namespace SignCall

/-- The message of a call in front of its format byte. -/
def body : SignCall → Bytes
  | .sign data => data
  | .timeoutSign data expirationTime => expiration expirationTime ++ data
  | .attachedSign data hidden => data ++ (be32 hidden.length ++ hidden)

theorem message_eq (c : SignCall) : c.message = c.body ++ [0] := by
  cases c with
  | sign d => rfl
  | timeoutSign d t => rfl
  | attachedSign d n => rfl

/-- The calls that sign a string `body`, by their mode: a plain call on it, a call with an expiration time that is not positive on it or
a positive one and the rest of it, or an attached call with its parts. -/
inductive Signs (body : Bytes) : SignCall → Prop
  | sign : Signs body (.sign body)
  | untimed {t : Int64} (h : t ≤ 0) : Signs body (.timeoutSign body t)
  | timed {d : Bytes} {t : Int64} (h : 0 < t) (hbody : body = Util.fromLong t ++ d) : Signs body (.timeoutSign d t)
  | attached {d n : Bytes} (hbody : body = d ++ (be32 n.length ++ n)) : Signs body (.attachedSign d n)

/-- A call signs a message only in one of these ways. -/
theorem signs_of_message {c : SignCall} {body : Bytes} (h : c.message = body ++ [0]) : Signs body c := by
  rw [message_eq] at h
  have hbody := List.append_cancel_right h
  cases c with
  | sign d =>
    obtain rfl : d = body := hbody
    exact .sign
  | timeoutSign d t =>
    have heq : expiration t ++ d = body := hbody
    by_cases ht : 0 < t
    · rw [expiration_of_pos ht] at heq
      exact .timed ht heq.symm
    · have ht' := Int64.not_lt.mp ht
      rw [expiration_of_nonpos ht', List.nil_append] at heq
      subst heq
      exact .untimed ht'
  | attachedSign d n =>
    have heq : d ++ (be32 n.length ++ n) = body := hbody
    exact .attached heq.symm

end SignCall

/-- Attached messages with hidden bytes of one length are the same only for the same parts. -/
theorem attached_inj {d d' n n' : Bytes} (hn : n.length = n'.length)
    (h : d ++ (be32 n.length ++ n) = d' ++ (be32 n'.length ++ n')) : d = d' ∧ n = n' := by
  obtain ⟨hd, hrest⟩ := List.append_inj' h (by simp [hn])
  exact ⟨hd, (List.append_inj hrest (by simp)).2⟩

/-! ## What a verified signature says -/

/-- With ideal signatures, what a verified signature says about the calls of the signer. The calls sign their messages and nothing else.
A plain signature was made by a call that signs its data. One with an expiration time was made by a call for its data with a time that
has not passed, or by a call of another kind that signs the timestamp, which has not passed, in front of its data. An attached one was
made by the attached call with its data and hidden bytes, or by a call of another kind, or with hidden bytes of another length, that
signs the data with the hidden bytes and their length behind it. -/
theorem verified_mode_origin (z : SigningKeyczar ρ) (history : List SignCall)
    (ideal : ∀ hash, ∀ key ∈ z.getKey hash, ∀ m sig, key.verify m sig = .ok true → ∃ c ∈ history, c.message = m) :
    (∀ k random c result, z.getPrimaryKey = some k → SignCall.run z random c = .ok result →
      ∃ sig, k.sign random c.message = .ok sig ∧ result = c.output k.hash sig) ∧
    (∀ d sig, Verifier.verify z d sig = .ok true →
      .sign d ∈ history ∨ (∃ t ≤ 0, .timeoutSign d t ∈ history) ∨
      (∃ d' t, 0 < t ∧ .timeoutSign d' t ∈ history ∧ d = Util.fromLong t ++ d') ∨
      ∃ d' n, .attachedSign d' n ∈ history ∧ d = d' ++ (be32 n.length ++ n)) ∧
    (∀ now d sig, TimeoutVerifier.verify z now d sig = .ok true →
      (∃ t, now ≤ t ∧ .timeoutSign d t ∈ history) ∨
      ∃ timestamp t, timestamp = (sig.drop 5).take 8 ∧ Util.toLong timestamp = .ok t ∧ now ≤ t ∧
        (.sign (timestamp ++ d) ∈ history ∨ (∃ t' ≤ 0, .timeoutSign (timestamp ++ d) t' ∈ history) ∨
          ∃ d' n, .attachedSign d' n ∈ history ∧ timestamp ++ d = d' ++ (be32 n.length ++ n))) ∧
    (∀ blob n d, Verifier.attachedVerify z blob n = .ok true → Verifier.getAttachedDataWithoutVerifying z blob = .ok d →
      .attachedSign d n ∈ history ∨ .sign (d ++ (be32 n.length ++ n)) ∈ history ∨
      (∃ t ≤ 0, .timeoutSign (d ++ (be32 n.length ++ n)) t ∈ history) ∨
      (∃ d' t, 0 < t ∧ .timeoutSign d' t ∈ history ∧ d ++ (be32 n.length ++ n) = Util.fromLong t ++ d') ∨
      ∃ d' n', .attachedSign d' n' ∈ history ∧ n'.length ≠ n.length ∧
        d ++ (be32 n.length ++ n) = d' ++ (be32 n'.length ++ n')) := by
  -- what any accepted signature says: some call of the history signs the body that was verified
  have origin : ∀ {hash : Bytes} {key : SigningKey ρ}, key ∈ z.getKey hash → ∀ {body sig : Bytes},
      key.verify (body ++ [0]) sig = .ok true → ∃ c ∈ history, SignCall.Signs body c := by
    intro hash key hkey body sig hverify
    obtain ⟨c, hc, hmessage⟩ := ideal hash key hkey _ _ hverify
    exact ⟨c, hc, SignCall.signs_of_message hmessage⟩
  refine ⟨fun k random c result hk h => SignCall.run_eq_ok hk h, ?_, ?_, ?_⟩
  · intro d sig h
    obtain ⟨hash, key, hkey, sig', hverify⟩ := Verifier.verifyBuffer_eq_ok h
    rw [ByteBuffer.rest_wrap, Option.map_none, Option.getD_none, List.append_nil] at hverify
    obtain ⟨c, hc, hsigns⟩ := origin hkey hverify
    cases hsigns with
    | sign => exact Or.inl hc
    | untimed ht => exact Or.inr (Or.inl ⟨_, ht, hc⟩)
    | timed ht hbody => exact Or.inr (Or.inr (Or.inl ⟨_, _, ht, hc, hbody⟩))
    | attached hbody => exact Or.inr (Or.inr (Or.inr ⟨_, _, hc, hbody⟩))
  · intro now d sig h
    obtain ⟨hlen, t, ht, hnow, hash, key, hkey, sig', hverify⟩ := TimeoutVerifier.verify_eq_ok h
    have hle : now ≤ t := Int64.not_lt.mp hnow
    obtain ⟨c, hc, hsigns⟩ := origin hkey hverify
    cases hsigns with
    | sign => exact Or.inr ⟨_, t, rfl, ht, hle, Or.inl hc⟩
    | untimed ht' => exact Or.inr ⟨_, t, rfl, ht, hle, Or.inr (Or.inl ⟨_, ht', hc⟩)⟩
    | timed hpos hbody =>
      left
      rename_i d' t'
      obtain ⟨htimestamp, rfl⟩ := List.append_inj hbody (hlen.trans (Util.length_fromLong t').symm)
      rw [htimestamp, Util.toLong_fromLong] at ht
      obtain rfl : t' = t := Except.ok.inj ht
      exact ⟨t', hle, hc⟩
    | attached hbody => exact Or.inr ⟨_, t, rfl, ht, hle, Or.inr (Or.inr ⟨_, _, hc, hbody⟩)⟩
  · intro blob n d h hdata
    obtain ⟨hash, key, hkey, sig, hverify⟩ := Verifier.attachedVerify_eq_ok h hdata
    obtain ⟨c, hc, hsigns⟩ := origin hkey hverify
    cases hsigns with
    | sign => exact Or.inr (Or.inl hc)
    | untimed ht => exact Or.inr (Or.inr (Or.inl ⟨_, ht, hc⟩))
    | timed ht hbody => exact Or.inr (Or.inr (Or.inr (Or.inl ⟨_, _, ht, hc, hbody⟩)))
    | attached hbody =>
      rename_i d' n'
      by_cases hn : n'.length = n.length
      · left
        obtain ⟨rfl, rfl⟩ := attached_inj hn.symm hbody
        exact hc
      · exact Or.inr (Or.inr (Or.inr (Or.inr ⟨d', n', hc, hn, hbody⟩)))

/-! ## One signature, two modes -/

/-- A key whose signatures are all alike and right for the messages of a history only. -/
def historyKey (history : List SignCall) : SigningKey Unit where
  hash := [1, 2, 3, 4]
  digestSize := 1
  sign _ _ := .ok [7]
  verify m sig := .ok (sig = [7] && history.any fun c => c.message = m)
  length_hash := rfl

/-- A key set of this key. -/
def historySet (history : List SignCall) : SigningKeyczar Unit where
  primaryVersion := some ⟨1, .primary⟩
  versionMap n := if n = 1 then some (historyKey history) else none
  hashMap hash := if hash = [1, 2, 3, 4] then [historyKey history] else []

theorem historySet_ideal (history : List SignCall) (hash : Bytes) (key : SigningKey Unit) (hkey : key ∈ (historySet history).getKey hash)
    (m sig : Bytes) (h : key.verify m sig = .ok true) : ∃ c ∈ history, c.message = m := by
  have heq : key = historyKey history := by
    unfold SigningKeyczar.getKey historySet at hkey
    dsimp only at hkey
    split at hkey
    · exact List.mem_singleton.mp hkey
    · cases hkey
  subst heq
  have hverify := Except.ok.inj h
  rw [Bool.and_eq_true, List.any_eq_true] at hverify
  obtain ⟨-, c, hc, hm⟩ := hverify
  exact ⟨c, hc, of_decide_eq_true hm⟩

/-- A signature of one message verifies on that message, and its origin is found. -/
theorem verified_mode_origin_sign :
    Verifier.verify (historySet [.sign [7]]) [7] [0, 1, 2, 3, 4, 7] = .ok true ∧
    (.sign [7] ∈ [SignCall.sign [7]] ∨ (∃ t ≤ 0, .timeoutSign [7] t ∈ [SignCall.sign [7]]) ∨
      (∃ d' t, 0 < t ∧ .timeoutSign d' t ∈ [SignCall.sign [7]] ∧ ([7] : Bytes) = Util.fromLong t ++ d') ∨
      ∃ d' n, .attachedSign d' n ∈ [SignCall.sign [7]] ∧ ([7] : Bytes) = d' ++ (be32 n.length ++ n)) := by
  have h : Verifier.verify (historySet [.sign [7]]) [7] [0, 1, 2, 3, 4, 7] = .ok true := by decide
  exact ⟨h, (verified_mode_origin (historySet [.sign [7]]) [.sign [7]] (historySet_ideal _)).2.1 _ _ h⟩

/-- With ideal signatures: the signature of a call with an expiration time, without the time, verifies as a plain signature on other
data; that of a plain call, with a time put into it, as one with an expiration time; and that of a plain call, with the data put into it,
as an attached one. -/
theorem modes_coincide :
    (∀ history hash, ∀ key ∈ (historySet history).getKey hash, ∀ m sig, key.verify m sig = .ok true →
      ∃ c ∈ history, c.message = m) ∧
    (∃ sig, TimeoutSigner.timeoutSign (historySet [.timeoutSign [7] 9]) () [7] 9 = .ok sig ∧
      Verifier.verify (historySet [.timeoutSign [7] 9]) [0, 0, 0, 0, 0, 0, 0, 9, 7] (sig.take 5 ++ sig.drop 13) = .ok true ∧
      .sign [0, 0, 0, 0, 0, 0, 0, 9, 7] ∉ [SignCall.timeoutSign [7] 9]) ∧
    (∃ sig, Signer.sign (historySet [.sign [0, 0, 0, 0, 0, 0, 0, 9, 7]]) () [0, 0, 0, 0, 0, 0, 0, 9, 7] = .ok sig ∧
      TimeoutVerifier.verify (historySet [.sign [0, 0, 0, 0, 0, 0, 0, 9, 7]]) 5 [7]
        (sig.take 5 ++ [0, 0, 0, 0, 0, 0, 0, 9] ++ sig.drop 5) = .ok true ∧
      ∀ t, .timeoutSign [7] t ∉ [SignCall.sign [0, 0, 0, 0, 0, 0, 0, 9, 7]]) ∧
    (∃ sig, Signer.sign (historySet [.sign [7, 0, 0, 0, 1, 9]]) () [7, 0, 0, 0, 1, 9] = .ok sig ∧
      Verifier.getAttachedData (historySet [.sign [7, 0, 0, 0, 1, 9]]) (sig.take 5 ++ [0, 0, 0, 1, 7] ++ sig.drop 5) [9] = .ok [7] ∧
      .attachedSign [7] [9] ∉ [SignCall.sign [7, 0, 0, 0, 1, 9]]) := by
  refine ⟨historySet_ideal, ⟨[0, 1, 2, 3, 4, 0, 0, 0, 0, 0, 0, 0, 9, 7], ?_, ?_, ?_⟩, ⟨[0, 1, 2, 3, 4, 7], ?_, ?_, ?_⟩,
    ⟨[0, 1, 2, 3, 4, 7], ?_, ?_, ?_⟩⟩
  · decide
  · decide
  · decide
  · decide
  · decide
  · simp
  · decide
  · decide
  · decide

end Java
