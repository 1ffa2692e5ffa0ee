import Keyczar.Java.TimeoutSignatures
import Keyczar.Lib.Words

/-!
# Hidden data of detached signatures

`Signer.sign` signs the hidden data in front of the input, `Verifier.verify` verifies it behind the data, and neither says where one ends
and the other begins. The two orders give the same bytes only when both strings repeat a single one; and the verifier accepts whatever
other data and hidden data make up the bytes that were signed.
-/

namespace Java

open Bytes Throwing

variable {ρ : Type}

/-! ## What is signed -/

/-- The hidden bytes; there are none in no buffer. -/
def hiddenBytes (hidden : Option ByteBuffer) : Bytes := (hidden.map ByteBuffer.rest).getD []

namespace Signer

theorem wrote_of_put {bytes : Bytes} {o o' : ByteBuffer} (h : put bytes o = .ok () o') : o.Wrote bytes o' ∧ o'.mark = o.mark := by
  unfold put at h
  cases hput : o.put bytes with
  | error e =>
    rw [hput] at h
    cases h
  | ok b =>
    rw [hput] at h
    cases h
    exact ⟨ByteBuffer.wrote_of_put hput, ByteBuffer.mark_of_put hput⟩

/-- What was put since the mark. -/
theorem sinceMark_eq_ok {a o : ByteBuffer} {w bytes : Bytes} (hwrote : a.Wrote w o) (hmark : o.mark = some a.position)
    (h : sinceMark (.ok () o.limitHere) = .ok bytes) : bytes = w := by
  obtain ⟨b, hreset, hc, hp, hl, -⟩ := ByteBuffer.reset_ok (b := o.limitHere) hmark
  obtain ⟨b', hget, -⟩ := ByteBuffer.get_ok (Nat.le_refl b.remaining)
  have hrest : b.rest = w := by
    have hle : a.position ≤ a.content.length := a.position_le.trans a.limit_le
    rw [ByteBuffer.rest, hc, hp, hl]
    show (o.content.take o.position).drop a.position = w
    rw [hwrote.take_position]
    exact List.drop_left' (List.length_take_of_le hle)
  unfold sinceMark at h
  dsimp only at h
  rw [hreset] at h
  dsimp only at h
  rw [hget] at h
  dsimp only at h
  rw [← Except.ok.inj h, ← ByteBuffer.length_rest, List.take_length, hrest]

/-- The time is signed and written. -/
theorem putExpiration_eq_ok {stream stream' : SignatureStream ρ} {expirationTime : Int64} {o o' : ByteBuffer}
    (h : putExpiration stream expirationTime o = .ok stream' o') :
    stream' = stream.updateSign (ByteBuffer.wrap (expiration expirationTime)) ∧ o.Wrote (expiration expirationTime) o' ∧ o'.mark = o.mark := by
  unfold putExpiration at h
  by_cases hpos : 0 < expirationTime
  · rw [if_pos hpos] at h
    obtain ⟨_, o₁, hput, h⟩ := bind_eq_ok_iff.mp h
    cases h
    obtain ⟨hwrote, hmark⟩ := wrote_of_put hput
    rw [expiration_of_pos hpos]
    exact ⟨rfl, hwrote, hmark⟩
  · rw [if_neg hpos] at h
    cases h
    rw [expiration_of_nonpos (Int64.not_lt.mp hpos)]
    refine ⟨?_, ByteBuffer.wrote_refl o, rfl⟩
    rw [SignatureStream.updateSign, ByteBuffer.rest_wrap, List.append_nil]

/-- The signature is written. -/
theorem sign_eq_ok {stream : SignatureStream ρ} {random : ρ} {o o' : ByteBuffer} (h : stream.sign random o = .ok () o') :
    ∃ sig, stream.key.sign random stream.data = .ok sig ∧ o.Wrote sig o' ∧ o'.mark = o.mark := by
  unfold SignatureStream.sign at h
  cases hsig : stream.key.sign random stream.data with
  | error e =>
    rw [hsig] at h
    cases h
  | ok sig =>
    rw [hsig] at h
    dsimp only at h
    cases hput : o.put sig with
    | error e =>
      rw [hput] at h
      cases h
    | ok b =>
      rw [hput] at h
      cases h
      exact ⟨sig, rfl, ByteBuffer.wrote_of_put hput, ByteBuffer.mark_of_put hput⟩

/-- What a call puts into any output, and what it signs: the time, the hidden data and the input. -/
theorem signWith_eq_ok {k : SigningKey ρ} {random : ρ} {input output o : ByteBuffer} {hidden : Option ByteBuffer} {expirationTime : Int64}
    (h : signWith random k input hidden expirationTime output = .ok () o) :
    ∃ sig, k.sign random (expiration expirationTime ++ hiddenBytes hidden ++ input.rest ++ [0]) = .ok sig ∧
      ∃ o' : ByteBuffer, o = o'.limitHere ∧ output.Wrote ([0] ++ k.hash ++ expiration expirationTime ++ sig) o' ∧
        o'.mark = some output.position := by
  unfold signWith at h
  obtain ⟨_, o₀, hset, h⟩ := bind_eq_ok_iff.mp h
  obtain ⟨_, o₁, hheader, h⟩ := bind_eq_ok_iff.mp h
  obtain ⟨stream, o₂, htime, h⟩ := bind_eq_ok_iff.mp h
  obtain ⟨_, o₃, hsign, hend⟩ := bind_eq_ok_iff.mp h
  cases hset
  cases hend
  obtain ⟨hwrote₁, hmark₁⟩ := wrote_of_put hheader
  obtain ⟨rfl, hwrote₂, hmark₂⟩ := putExpiration_eq_ok htime
  obtain ⟨sig, hsig, hwrote₃, hmark₃⟩ := sign_eq_ok hsign
  refine ⟨sig, ?_, o₃, rfl, ?_, ?_⟩
  · cases hidden with
    | none => simpa [SignatureStream.updateSign, SignatureStream.initSign, SigningKey.getStream, FORMAT_BYTES, hiddenBytes] using hsig
    | some hidden =>
      simpa [SignatureStream.updateSign, SignatureStream.initSign, SigningKey.getStream, FORMAT_BYTES, hiddenBytes] using hsig
  · have hstart : output.Wrote [] output.setMark := ByteBuffer.wrote_nil rfl rfl rfl
    have hall := ((hstart.trans hwrote₁).trans hwrote₂).trans hwrote₃
    rw [List.nil_append] at hall
    exact hall
  · rw [hmark₃, hmark₂, hmark₁]
    rfl

/-- A signature that was produced in any output. -/
theorem signBuffer_eq_ok {z : SigningKeyczar ρ} {random : ρ} {input output : ByteBuffer} {hidden : Option ByteBuffer}
    {expirationTime : Int64} {signature : Bytes} (h : sinceMark (signBuffer z random input hidden expirationTime output) = .ok signature) :
    ∃ k, z.getPrimaryKey = some k ∧ ∃ sig, k.sign random (expiration expirationTime ++ hiddenBytes hidden ++ input.rest ++ [0]) = .ok sig ∧
      signature = [0] ++ k.hash ++ expiration expirationTime ++ sig := by
  unfold signBuffer at h
  cases hk : z.getPrimaryKey with
  | none =>
    rw [hk] at h
    cases h
  | some k =>
    rw [hk] at h
    dsimp only at h
    by_cases hspace : output.capacity < HEADER_SIZE + k.digestSize + if 0 < expirationTime then TIMESTAMP_SIZE else 0
    · rw [if_pos hspace] at h
      cases h
    · rw [if_neg hspace] at h
      cases hrun : signWith random k input hidden expirationTime output with
      | error e o =>
        rw [hrun] at h
        cases h
      | ok _ o =>
        obtain ⟨sig, hsig, o', rfl, hwrote, hmark⟩ := signWith_eq_ok hrun
        rw [hrun] at h
        exact ⟨k, rfl, sig, hsig, sinceMark_eq_ok hwrote hmark h⟩

end Signer

/-! ## What is verified -/

/-- The verifier answers whether the data and the hidden data are those that were signed. -/
def TellsApart (z : SigningKeyczar ρ) (input hidden : Bytes) (data : ByteBuffer) (hidden' : Option ByteBuffer) (signature : ByteBuffer) :
    Prop :=
  Verifier.verifyBuffer z data hidden' signature = .ok (decide (data.rest = input ∧ hiddenBytes hidden' = hidden))

/-- Data and hidden data that are verified as they were signed repeat one string; others do not make up the bytes that were signed. -/
def Unconfused (input hidden data hidden' : Bytes) : Prop :=
  (data = input ∧ hidden' = hidden → Words.Repeat input hidden) ∧
  (¬ (data = input ∧ hidden' = hidden) → data ++ hidden' ≠ hidden ++ input)

theorem unconfused_iff {input hidden data hidden' : Bytes} :
    Unconfused input hidden data hidden' ↔ (data ++ hidden' = hidden ++ input ↔ data = input ∧ hidden' = hidden) := by
  unfold Unconfused
  rw [← Words.append_comm_iff]
  by_cases hsame : data = input ∧ hidden' = hidden
  · obtain ⟨rfl, rfl⟩ := hsame
    simp
  · simp [hsame]

/-- With ideal signatures, the verifier tells the data and the hidden data of a signature from others exactly when they are not confused:
no other data and hidden data make up the bytes that were signed, and they do themselves when both repeat one string. -/
theorem tellsApart_iff {ρ' : Type} {z : SigningKeyczar ρ} {z' : SigningKeyczar ρ'} {k : SigningKey ρ} {random : ρ}
    {input output signature : ByteBuffer} {hidden : Option ByteBuffer} {sig : Bytes} {Signed : Bytes → Bytes → Prop}
    (hk : z.getPrimaryKey = some k) (hideal : Ideal z' k.hash Signed)
    (hrun : Signer.sinceMark (Signer.signBuffer z random input hidden 0 output) = .ok signature.rest)
    (hsig : k.sign random (hiddenBytes hidden ++ input.rest ++ [0]) = .ok sig)
    (hsigned : Signed (hiddenBytes hidden ++ input.rest ++ [0]) sig) (data : ByteBuffer) (hidden' : Option ByteBuffer) :
    TellsApart z' input.rest (hiddenBytes hidden) data hidden' signature ↔
      Unconfused input.rest (hiddenBytes hidden) data.rest (hiddenBytes hidden') := by
  have hnone : expiration 0 = [] := by decide
  obtain ⟨k', hk', sig', hsig', hlayout⟩ := Signer.signBuffer_eq_ok hrun
  obtain rfl : k = k' := Option.some.inj (hk.symm.trans hk')
  rw [hnone, List.nil_append] at hsig'
  obtain rfl : sig = sig' := Except.ok.inj (hsig.symm.trans hsig')
  rw [hnone, List.append_nil] at hlayout
  obtain ⟨key, hkey, -⟩ := hideal.accepts _ _ hsigned
  obtain ⟨answer, hanswer, hiff⟩ := Verifier.verifyBuffer_layout data hidden' k.length_hash hlayout hkey
  rw [hideal.accepted_iff] at hiff
  have hsame : answer = true ↔ data.rest ++ hiddenBytes hidden' = hiddenBytes hidden ++ input.rest := by
    rw [hiff]
    constructor
    · intro h
      exact List.append_cancel_right (hideal.unique _ _ _ h hsigned)
    · intro h
      show Signed (data.rest ++ hiddenBytes hidden' ++ [0]) sig
      rw [h]
      exact hsigned
  unfold TellsApart
  rw [unconfused_iff, hanswer, ← hsame]
  constructor
  · intro h
    rw [Except.ok.inj h]
    exact decide_eq_true_iff
  · intro h
    exact congrArg Except.ok (Bool.eq_iff_iff.mpr (h.trans decide_eq_true_iff.symm))

/-- The signature of hidden data alone. -/
theorem tellsApart_iff_hidden_alone :
    Verifier.verifyBuffer (oneMessageSet [5, 0]) (ByteBuffer.wrap []) (some (ByteBuffer.wrap [5]))
      (ByteBuffer.wrap ([0, 1, 2, 3, 4] ++ List.replicate 20 7)) = .ok true := by
  have hrun : Signer.sinceMark (Signer.signBuffer (oneMessageSet [5, 0]) () (ByteBuffer.wrap []) (some (ByteBuffer.wrap [5])) 0
      (ByteBuffer.allocate 25)) = .ok (ByteBuffer.wrap ([0, 1, 2, 3, 4] ++ List.replicate 20 7)).rest := by decide
  have hk : (oneMessageSet [5, 0]).getPrimaryKey = some (oneMessageKey [5, 0]) := rfl
  have hunconfused : Unconfused [] [5] [] [5] := ⟨fun _ => Words.repeat_nil _, fun h => (h ⟨rfl, rfl⟩).elim⟩
  exact (tellsApart_iff hk (oneMessageSet_ideal _) hrun rfl ⟨rfl, rfl⟩ (ByteBuffer.wrap []) (some (ByteBuffer.wrap [5]))).mpr hunconfused

/-- What was signed with hidden data is refused, and accepted with the two exchanged. -/
theorem hidden_data_is_exchanged :
    Ideal (oneMessageSet [2, 1, 0]) [1, 2, 3, 4] (fun m sig => m = [2, 1, 0] ∧ sig = List.replicate 20 7) ∧
    Signer.sinceMark (Signer.signBuffer (oneMessageSet [2, 1, 0]) () (ByteBuffer.wrap [1]) (some (ByteBuffer.wrap [2])) 0
      (ByteBuffer.allocate 25)) = .ok ([0, 1, 2, 3, 4] ++ List.replicate 20 7) ∧
    ¬ TellsApart (oneMessageSet [2, 1, 0]) [1] [2] (ByteBuffer.wrap [1]) (some (ByteBuffer.wrap [2]))
      (ByteBuffer.wrap ([0, 1, 2, 3, 4] ++ List.replicate 20 7)) ∧
    ¬ TellsApart (oneMessageSet [2, 1, 0]) [1] [2] (ByteBuffer.wrap [2]) (some (ByteBuffer.wrap [1]))
      (ByteBuffer.wrap ([0, 1, 2, 3, 4] ++ List.replicate 20 7)) := by
  have hrefused : Verifier.verifyBuffer (oneMessageSet [2, 1, 0]) (ByteBuffer.wrap [1]) (some (ByteBuffer.wrap [2]))
      (ByteBuffer.wrap ([0, 1, 2, 3, 4] ++ List.replicate 20 7)) = .ok false := by decide
  have haccepted : Verifier.verifyBuffer (oneMessageSet [2, 1, 0]) (ByteBuffer.wrap [2]) (some (ByteBuffer.wrap [1]))
      (ByteBuffer.wrap ([0, 1, 2, 3, 4] ++ List.replicate 20 7)) = .ok true := by decide
  refine ⟨oneMessageSet_ideal _, by decide, ?_, ?_⟩
  · intro h
    have htrue : decide ((ByteBuffer.wrap [1]).rest = [1] ∧ hiddenBytes (some (ByteBuffer.wrap [2])) = [2]) = true := by decide
    rw [TellsApart, hrefused, htrue] at h
    cases h
  · intro h
    have hfalse : decide ((ByteBuffer.wrap [2]).rest = [1] ∧ hiddenBytes (some (ByteBuffer.wrap [1])) = [2]) = false := by decide
    rw [TellsApart, haccepted, hfalse] at h
    cases h

/-- No data is told apart from all others but the empty one, with empty hidden data. -/
theorem unconfused_all_iff {input hidden : Bytes} :
    (∀ data hidden', Unconfused input hidden data hidden') ↔ input = [] ∧ hidden = [] := by
  constructor
  · intro h
    have hfirst := unconfused_iff.mp (h (hidden ++ input) [])
    have hsecond := unconfused_iff.mp (h [] (hidden ++ input))
    obtain ⟨-, hhidden⟩ := hfirst.mp (List.append_nil _)
    obtain ⟨hinput, -⟩ := hsecond.mp (List.nil_append _)
    exact ⟨hinput.symm, hhidden.symm⟩
  · rintro ⟨rfl, rfl⟩ data hidden'
    rw [unconfused_iff]
    exact List.append_eq_nil_iff

end Java
