import Keyczar.Java.Tries
import Keyczar.Java.EncrypterRuns

/-!
# Keys that share a hash

`Crypter.decrypt` on a message of an AES key, when other AES keys are registered under the hash in its header. The keys in front of
it fail, and what they have put into the output by then stays there.
-/

namespace Java

open Bytes

namespace Crypter

variable {P : Primitives} {m : Message} {k : AesKey} {plain : Bytes}

theorem getStream_aes {k : AesKey} {stream : AesStream} (h : AesStream.new k = .ok stream) :
    (KeyczarKey.aes k).getStream = .ok (.aes stream) := by
  simp only [KeyczarKey.getStream, h]

theorem getStream_aes_error {k : AesKey} {e : KeyczarException} (h : AesStream.new k = .error e) :
    (KeyczarKey.aes k).getStream = .error (.keyczar e) := by
  simp only [KeyczarKey.getStream, h]

/-- No key of the list but `k` accepts the signature of the message. -/
def OnlyOwn (P : Primitives) (m : Message) (k : AesKey) (keys : List AesKey) : Prop :=
  ∀ k' ∈ keys, P.hmacSha1 k'.hmacKey.keyBytes m.signed = m.tag → k' = k

/-- A try with a key that is not that of the message throws. -/
theorem OnlyOwn.tryKey_error {keys : List AesKey} (hown : OnlyOwn P m k keys) {k' : AesKey} (hmem : k' ∈ keys) (hne : k' ≠ k)
    {s : Buffers} {stream : AesStream} (hs : AtStart m s) (hnew : AesStream.new k' = .ok stream) :
    ∃ e t, tryKey P (ByteBuffer.wrap m.bytes) (.aes stream) s = .error e t := by
  cases ht : tryKey P (ByteBuffer.wrap m.bytes) (.aes stream) s with
  | error e t => exact ⟨e, t, rfl⟩
  | ok u t => exact absurd (hown k' hmem (verified_of_tryKey_ok hs hnew ht)) hne

/-- The view after a try that failed. -/
theorem AtStart.putBack {s : Buffers} (hs : AtStart m s) (t : Buffers) : AtStart m { t with inputCopy := s.inputCopy } :=
  ⟨hs.content_eq, hs.position_eq, hs.limit_eq, hs.mark_eq⟩

/-- A search that returns has put the plaintext, behind whatever the keys that failed have put. -/
theorem Own.wrote_of_tryKeys_ok (h : Own P m k plain) {collision : Bool} {keys : List AesKey} (hown : OnlyOwn P m k keys)
    {error : Option KeyczarException} {s s' : Buffers} (hs : AtStart m s) (hne : error ≠ none ∨ keys ≠ [])
    (hrun : tryKeys P (ByteBuffer.wrap m.bytes) s.inputCopy.limit collision (keys.map .aes) error s = .ok () s') :
    ∃ w o, s.output.Wrote (w ++ plain) o ∧ s'.output = o.limitHere := by
  induction keys generalizing error s with
  | nil =>
    cases error with
    | none => simp at hne
    | some e => cases hrun
  | cons k' keys ih =>
    rw [List.map_cons] at hrun
    cases hnew : AesStream.new k' with
    | error e =>
      rw [tryKeys_of_getStream_error (getStream_aes_error hnew)] at hrun
      cases hrun
    | ok stream =>
      cases ht : tryKey P (ByteBuffer.wrap m.bytes) (.aes stream) (withTempBuffer collision s) with
      | ok u t =>
        rw [tryKeys_of_tryKey_ok (getStream_aes hnew) hs.content_eq hs.mark_eq ht] at hrun
        cases hrun
        obtain rfl : k' = k := hown k' List.mem_cons_self (verified_of_tryKey_ok (hs.withTempBuffer collision) hnew ht)
        obtain ⟨o, ho, hout⟩ := h.wrote_of_tryKey_ok hs hnew ht
        exact ⟨[], o, ho, hout⟩
      | error e t =>
        rw [tryKeys_of_tryKey_error (getStream_aes hnew) hs.content_eq hs.mark_eq ht] at hrun
        have hcontent : (withTempBuffer collision s).inputCopy.content = (ByteBuffer.wrap m.bytes).content := hs.content_eq
        obtain ⟨w, hw, _⟩ := kept_of_tryKey_error hcontent hs.mark_eq ht
        obtain ⟨w', o, ho, hout⟩ := ih (fun k' hk' => hown k' (List.mem_cons_of_mem _ hk')) (hs.putBack t)
          (Or.inl (Option.some_ne_none _)) hrun
        refine ⟨w ++ w', o, ?_, hout⟩
        rw [List.append_assoc]
        exact hw.wrote.trans ho

/-- In a search that returns, every key before that of the message has a stream. -/
theorem Own.streams_of_tryKeys_ok {collision : Bool} {keys : List AesKey} (hown : OnlyOwn P m k keys)
    {error : Option KeyczarException} {s s' : Buffers} (hs : AtStart m s)
    (hrun : tryKeys P (ByteBuffer.wrap m.bytes) s.inputCopy.limit collision (keys.map .aes) error s = .ok () s') :
    ∀ k' ∈ keys.takeWhile (· ≠ k), ∃ stream, AesStream.new k' = .ok stream := by
  induction keys generalizing error s with
  | nil => exact nofun
  | cons k₁ keys ih =>
    intro k' hk'
    by_cases hne : k₁ = k
    · simp [hne] at hk'
    · rw [List.takeWhile_cons_of_pos (by simpa using hne)] at hk'
      rw [List.map_cons] at hrun
      cases hnew : AesStream.new k₁ with
      | error e =>
        rw [tryKeys_of_getStream_error (getStream_aes_error hnew)] at hrun
        cases hrun
      | ok stream =>
        rcases List.mem_cons.mp hk' with rfl | hlater
        · exact ⟨stream, hnew⟩
        · obtain ⟨e, t, ht⟩ := hown.tryKey_error List.mem_cons_self hne (hs.withTempBuffer collision) hnew
          rw [tryKeys_of_tryKey_error (getStream_aes hnew) hs.content_eq hs.mark_eq ht] at hrun
          exact ih (fun k' hk' => hown k' (List.mem_cons_of_mem _ hk')) (hs.putBack t) hrun k' hlater

/-- With a payload of more than a chunk, a search that returns has put bytes in front of the plaintext, unless the first key is
that of the message. -/
theorem Own.le_wrote_of_tryKeys_ok (h : Own P m k plain) {collision : Bool} {k' : AesKey} {keys : List AesKey}
    (hown : OnlyOwn P m k (k' :: keys)) (hne : k' ≠ k) (hlong : DECRYPT_CHUNK_SIZE < m.payload.length)
    {error : Option KeyczarException} {s s' : Buffers} (hs : AtStart m s) (hroom : DECRYPT_CHUNK_SIZE ≤ s.output.remaining)
    (hrun : tryKeys P (ByteBuffer.wrap m.bytes) s.inputCopy.limit collision ((k' :: keys).map .aes) error s = .ok () s') :
    ∃ w o, s.output.Wrote (w ++ plain) o ∧ s'.output = o.limitHere ∧ 1008 ≤ w.length := by
  rw [List.map_cons] at hrun
  cases hnew : AesStream.new k' with
  | error e =>
    rw [tryKeys_of_getStream_error (getStream_aes_error hnew)] at hrun
    cases hrun
  | ok stream =>
    obtain ⟨e, t, ht⟩ := hown.tryKey_error List.mem_cons_self hne (hs.withTempBuffer collision) hnew
    rw [tryKeys_of_tryKey_error (getStream_aes hnew) hs.content_eq hs.mark_eq ht] at hrun
    obtain ⟨w, hw, hlen⟩ := le_wrote_of_tryKey_error (hs.withTempBuffer collision) hnew hlong hroom ht
    obtain ⟨w', o, ho, hout⟩ := h.wrote_of_tryKeys_ok (fun k' hk' => hown k' (List.mem_cons_of_mem _ hk')) (hs.putBack t)
      (Or.inl (Option.some_ne_none _)) hrun
    refine ⟨w ++ w', o, ?_, hout, ?_⟩
    · rw [List.append_assoc]
      exact hw.trans ho
    · rw [List.length_append]
      omega

/-- With the key of the message first, or a payload of at most a chunk and a stream for each key before it, the search returns and
has put the plaintext. -/
theorem Own.tryKeys_ok (h : Own P m k plain) (hkey : validKeyLength k.aesBytes.length) (collision : Bool) {keys : List AesKey}
    (hown : keys.takeWhile (· ≠ k) ≠ [] → OnlyOwn P m k keys) (hmem : k ∈ keys)
    (hbefore : keys.takeWhile (· ≠ k) = [] ∨ m.payload.length ≤ DECRYPT_CHUNK_SIZE ∧
      ∀ k' ∈ keys.takeWhile (· ≠ k), ∃ stream, AesStream.new k' = .ok stream)
    (error : Option KeyczarException) {s : Buffers} (hs : AtStart m s) (hroom : m.payload.length ≤ s.output.remaining) :
    ∃ s' o, tryKeys P (ByteBuffer.wrap m.bytes) s.inputCopy.limit collision (keys.map .aes) error s = .ok () s' ∧
      s.output.Wrote plain o ∧ s'.output = o.limitHere := by
  induction keys generalizing error s with
  | nil => cases hmem
  | cons k₁ keys ih =>
    rw [List.map_cons]
    by_cases hne : k₁ = k
    · subst hne
      obtain ⟨stream, hnew⟩ := Encrypter.new_ok h.mode_eq hkey
      obtain ⟨t, ht⟩ := h.tryKey_ok collision hs hnew hroom
      obtain ⟨o, ho, hout⟩ := h.wrote_of_tryKey_ok hs hnew ht
      exact ⟨_, o, tryKeys_of_tryKey_ok (getStream_aes hnew) hs.content_eq hs.mark_eq ht, ho, hout⟩
    · rw [List.takeWhile_cons_of_pos (by simpa using hne)] at hbefore hown
      have hown := hown (List.cons_ne_nil _ _)
      obtain ⟨hshort, hstreams⟩ := hbefore.resolve_left (List.cons_ne_nil _ _)
      obtain ⟨stream, hnew⟩ := hstreams k₁ List.mem_cons_self
      obtain ⟨e, t, ht⟩ := hown.tryKey_error List.mem_cons_self hne (hs.withTempBuffer collision) hnew
      rw [tryKeys_of_tryKey_error (getStream_aes hnew) hs.content_eq hs.mark_eq ht]
      have hcontent : (withTempBuffer collision s).inputCopy.content = (ByteBuffer.wrap m.bytes).content := hs.content_eq
      obtain ⟨w, hw, hnil⟩ := kept_of_tryKey_error hcontent hs.mark_eq ht
      -- the payload is one chunk, so the key that failed has put nothing
      have hw0 : w = [] := by
        refine hnil ?_
        show s.inputCopy.remaining - 20 - 16 ≤ DECRYPT_CHUNK_SIZE
        rw [hs.remaining_eq]
        omega
      subst hw0
      have hw : s.output.Wrote [] t.output := hw.wrote
      have hrem := hw.remaining_eq
      obtain ⟨s', o, hrun, ho, hout⟩ := ih (s := { t with inputCopy := s.inputCopy })
        (fun _ k' hk' => hown k' (List.mem_cons_of_mem _ hk')) ((List.mem_cons.mp hmem).resolve_left (Ne.symm hne))
        (Or.inr ⟨hshort, fun k' hk' => hstreams k' (List.mem_cons_of_mem _ hk')⟩) (some (caught e)) (hs.putBack t)
        (hroom.trans_eq hrem.symm)
      exact ⟨s', o, hrun, hw.trans ho, hout⟩

/-! ## Whole decryptions -/

/-- A ciphertext of a key, in parts. -/
def message (P : Primitives) (k : AesKey) {iv : Bytes} (hiv : iv.length = 16) (plain : Bytes) : Message where
  header := FORMAT_VERSION :: k.hash P
  iv := iv
  payload := Cbc.encrypt (P.aes k.aesBytes) iv (Cbc.pad 16 plain)
  tag := P.hmacSha1 k.hmacKey.keyBytes (Format.signed P (k.hash P) k.aesBytes iv plain)
  length_header := by rw [List.length_cons, AesKey.length_hash]
  length_iv := hiv
  length_tag := P.length_hmacSha1 _ _

section Message

variable {iv : Bytes} (hiv : iv.length = 16)

theorem bytes_message : (message P k hiv plain).bytes = Format.ciphertext P (k.hash P) k.aesBytes k.hmacKey.keyBytes iv plain := rfl

theorem length_payload : (message P k hiv plain).payload.length = (plain.length / 16 + 1) * 16 := Format.length_body P hiv plain

theorem own_message (hmode : k.mode = .cbc) : Own P (message P k hiv plain) k plain where
  mode_eq := hmode
  tag_eq := rfl
  dvd_payload := by rw [length_payload]; exact Nat.dvd_mul_left _ _
  decrypt_eq := Format.decrypt_body P hiv plain

end Message

/-- A decryption of a message with a header is a search through the keys of its hash. -/
theorem decryptBuffer_message {z : Keyczar} {keys : List KeyczarKey} (hheader : m.header = FORMAT_VERSION :: k.hash P)
    (hkeys : z.getKey (k.hash P) = keys) (hne : keys ≠ []) (output : ByteBuffer) :
    ∃ s, AtStart m s ∧ s.output = output ∧ decryptBuffer P z (ByteBuffer.wrap m.bytes) output =
      match tryKeys P (ByteBuffer.wrap m.bytes) s.inputCopy.limit (keys.length > 1) keys none s with
      | .ok _ s => .ok () s.output
      | .error e s => .error e s.output := by
  have hbytes : m.bytes = FORMAT_VERSION :: (k.hash P ++ (m.iv ++ m.payload ++ m.tag)) := by
    simp only [Message.bytes, Message.signed, hheader, List.cons_append, List.append_assoc]
  have hhash : headerHash (ByteBuffer.wrap m.bytes) = k.hash P := by
    rw [headerHash, ByteBuffer.rest_wrap, hbytes]
    exact List.take_left' (k.length_hash P)
  rcases decryptBuffer_cases (P := P) z (ByteBuffer.wrap m.bytes) output with ⟨hbad, _⟩ | ⟨_, b, hc, hp, hl, hm, heq⟩
  · rw [hhash, hkeys, ByteBuffer.remaining_wrap, ByteBuffer.rest_wrap, m.length_bytes] at hbad
    rcases hbad with hshort | hversion | hnone
    · have hsize : HEADER_SIZE = 5 := rfl
      omega
    · rw [hbytes] at hversion
      exact absurd rfl hversion
    · exact absurd hnone hne
  · rw [hhash, hkeys] at heq
    exact ⟨{ inputCopy := b, output }, ⟨hc, hp, hl, hm⟩, rfl, heq⟩

/-- What is put into a new output and ends at the limit is what a decryption returns. -/
theorem decrypt_of_wrote {z : Keyczar} {ct v : Bytes} {o : ByteBuffer}
    (hrun : decryptBuffer P z (ByteBuffer.wrap ct) (ByteBuffer.allocate ct.length) = .ok () o.limitHere)
    (ho : (ByteBuffer.allocate ct.length).Wrote v o) : decrypt P z ct = .ok v := by
  obtain ⟨o', ho', _⟩ := ByteBuffer.get_ok (Nat.le_refl o.limitHere.rewind.remaining)
  unfold decrypt
  rw [hrun]
  simp only [ho']
  rw [← ByteBuffer.length_rest, List.take_length, ho.rest_rewind rfl]

/-- A key that a stream can be made for. -/
def hasStream (k : AesKey) : Bool := validKeyLength k.aesBytes.length && k.mode ≠ .ecb

theorem hasStream_iff : hasStream k ↔ ∃ stream, AesStream.new k = .ok stream := by
  unfold hasStream AesStream.new Cipher.init
  cases validKeyLength k.aesBytes.length <;> cases k.mode <;> simp

section Whole

variable {z : Keyczar} {keys : List AesKey} {iv : Bytes} (hiv : iv.length = 16)

/-- When a decryption returns, the key of the message is the first of its hash, or the payload is one chunk, or bytes were put in
front of the plaintext. -/
theorem short_or_behind_of_decryptBuffer_ok (hmode : k.mode = .cbc) (hkeys : z.getKey (k.hash P) = keys.map .aes)
    (hown : keys.takeWhile (· ≠ k) ≠ [] → OnlyOwn P (message P k hiv plain) k keys) (hmem : k ∈ keys) {output output' : ByteBuffer}
    (hroom : DECRYPT_CHUNK_SIZE ≤ output.remaining ∨ plain.length < 1024)
    (hrun : decryptBuffer P z (ByteBuffer.wrap (message P k hiv plain).bytes) output = .ok () output') :
    (keys.takeWhile (· ≠ k) = [] ∨ plain.length < 1024 ∧ ∀ k' ∈ keys.takeWhile (· ≠ k), hasStream k') ∨
    ∃ w o, output.Wrote (w ++ plain) o ∧ output' = o.limitHere ∧ 1008 ≤ w.length := by
  have hne : keys.map KeyczarKey.aes ≠ [] := by
    rw [Ne, List.map_eq_nil_iff]
    exact List.ne_nil_of_mem hmem
  obtain ⟨s, hs, hout, heq⟩ := decryptBuffer_message (m := message P k hiv plain) rfl hkeys hne output
  rw [hrun] at heq
  cases hsearch : tryKeys P (ByteBuffer.wrap (message P k hiv plain).bytes) s.inputCopy.limit
      ((keys.map KeyczarKey.aes).length > 1) (keys.map .aes) none s with
  | error e s' =>
    rw [hsearch] at heq
    cases heq
  | ok u s' =>
    rw [hsearch] at heq
    cases heq
    cases keys with
    | nil => exact Or.inl (Or.inl rfl)
    | cons k₁ keys =>
      by_cases hk : k₁ = k
      · left
        left
        simp [hk]
      · have hown := hown (by rw [List.takeWhile_cons_of_pos (by simpa using hk)]; exact List.cons_ne_nil _ _)
        have hstreams := Own.streams_of_tryKeys_ok hown hs hsearch
        by_cases hlong : plain.length < 1024
        · exact Or.inl (Or.inr ⟨hlong, fun k' hk' => hasStream_iff.mpr (hstreams k' hk')⟩)
        · right
          have hchunk : DECRYPT_CHUNK_SIZE < (message P k hiv plain).payload.length := by
            rw [length_payload]
            show 1024 < _
            omega
          obtain ⟨w, o, ho, hend, hw⟩ := (own_message hiv hmode).le_wrote_of_tryKeys_ok hown hk hchunk hs
            (hout ▸ hroom.resolve_right hlong) hsearch
          exact ⟨w, o, hout ▸ ho, hend, hw⟩

/-- When a decryption returns the plaintext, the key of the message is the first of its hash, or the payload is one chunk. -/
theorem short_of_decrypt_ok (hmode : k.mode = .cbc) (hkeys : z.getKey (k.hash P) = keys.map .aes)
    (hown : OnlyOwn P (message P k hiv plain) k keys) (hmem : k ∈ keys)
    (hrun : decrypt P z (message P k hiv plain).bytes = .ok plain) :
    keys.takeWhile (· ≠ k) = [] ∨
      plain.length < 1024 ∧ ∀ k' ∈ keys.takeWhile (· ≠ k), hasStream k' := by
  have hroom : DECRYPT_CHUNK_SIZE ≤ (ByteBuffer.allocate (message P k hiv plain).bytes.length).remaining ∨ plain.length < 1024 := by
    rw [ByteBuffer.allocate, ByteBuffer.remaining_wrap, List.length_replicate, Message.length_bytes, length_payload]
    show 1024 ≤ _ ∨ _
    omega
  cases hbuf : decryptBuffer P z (ByteBuffer.wrap (message P k hiv plain).bytes)
      (ByteBuffer.allocate (message P k hiv plain).bytes.length) with
  | error e o =>
    unfold decrypt at hrun
    rw [hbuf] at hrun
    cases hrun
  | ok u o' =>
    refine (short_or_behind_of_decryptBuffer_ok hiv hmode hkeys (fun _ => hown) hmem hroom hbuf).resolve_right ?_
    rintro ⟨w, o, ho, rfl, hw⟩
    rw [decrypt_of_wrote hbuf ho] at hrun
    have hsum := congrArg List.length (Except.ok.inj hrun)
    rw [List.length_append] at hsum
    omega

/-- Into any output with room for the payload. -/
theorem decryptBuffer_ok_of_short (hmode : k.mode = .cbc) (hkey : validKeyLength k.aesBytes.length)
    (hkeys : z.getKey (k.hash P) = keys.map .aes)
    (hown : keys.takeWhile (· ≠ k) ≠ [] → OnlyOwn P (message P k hiv plain) k keys) (hmem : k ∈ keys)
    (hbefore : keys.takeWhile (· ≠ k) = [] ∨ plain.length < 1024 ∧ ∀ k' ∈ keys.takeWhile (· ≠ k), hasStream k')
    {output : ByteBuffer} (hroom : (message P k hiv plain).payload.length ≤ output.remaining) :
    ∃ o, decryptBuffer P z (ByteBuffer.wrap (message P k hiv plain).bytes) output = .ok () o.limitHere ∧ output.Wrote plain o := by
  have hne : keys.map KeyczarKey.aes ≠ [] := by
    rw [Ne, List.map_eq_nil_iff]
    exact List.ne_nil_of_mem hmem
  obtain ⟨s, hs, hout, heq⟩ := decryptBuffer_message (m := message P k hiv plain) rfl hkeys hne output
  have hchunk : plain.length < 1024 → (message P k hiv plain).payload.length ≤ DECRYPT_CHUNK_SIZE := by
    intro hlt
    rw [length_payload]
    show (plain.length / 16 + 1) * 16 ≤ 1024
    omega
  obtain ⟨s', o, hrun, ho, hend⟩ := (own_message hiv hmode).tryKeys_ok hkey ((keys.map KeyczarKey.aes).length > 1) hown hmem
    (hbefore.imp_right fun h => ⟨hchunk h.1, fun k' hk' => hasStream_iff.mp (h.2 k' hk')⟩) none hs (hout ▸ hroom)
  simp only [hrun] at heq
  rw [hend] at heq
  exact ⟨o, heq, hout ▸ ho⟩

theorem decrypt_ok_of_short (hmode : k.mode = .cbc) (hkey : validKeyLength k.aesBytes.length)
    (hkeys : z.getKey (k.hash P) = keys.map .aes) (hown : OnlyOwn P (message P k hiv plain) k keys) (hmem : k ∈ keys)
    (hbefore : keys.takeWhile (· ≠ k) = [] ∨ plain.length < 1024 ∧ ∀ k' ∈ keys.takeWhile (· ≠ k), hasStream k') :
    decrypt P z (message P k hiv plain).bytes = .ok plain := by
  have hroom : (message P k hiv plain).payload.length ≤ (ByteBuffer.allocate (message P k hiv plain).bytes.length).remaining := by
    rw [ByteBuffer.allocate, ByteBuffer.remaining_wrap, List.length_replicate, Message.length_bytes]
    omega
  obtain ⟨o, hrun, ho⟩ := decryptBuffer_ok_of_short hiv hmode hkey hkeys (fun _ => hown) hmem hbefore hroom
  exact decrypt_of_wrote hrun ho

end Whole

/-- The same of the message as it is: its last 20 bytes are the signature over the rest. -/
theorem onlyOwn_iff {k : AesKey} {keys : List AesKey} : OnlyOwn P m k keys ↔ ∀ k' ∈ keys,
    P.hmacSha1 k'.hmacKey.keyBytes (m.bytes.take (m.bytes.length - HMAC_DIGEST_SIZE)) =
      m.bytes.drop (m.bytes.length - HMAC_DIGEST_SIZE) → k' = k := by
  rw [Message.bytes, List.length_append, m.length_tag, HMAC_DIGEST_SIZE, Nat.add_sub_cancel, List.take_left, List.drop_left]
  rfl

/-- A key of 16 bytes `b`, with 20 bytes `b` for the signatures. -/
def keyOf (b : UInt8) : AesKey where
  aesBytes := List.replicate 16 b
  hmacKey := { keyBytes := List.replicate 20 b, ne_nil := List.cons_ne_nil _ _ }
  ne_nil := List.cons_ne_nil _ _

/-- A key set of two keys. Where a hash is the start of what is hashed, they have the same hash. -/
def twoKeys : KeyczarReader where
  metadata :=
    { purpose := .decryptAndEncrypt
      versions := [{ versionNumber := 1, status := .active }, { versionNumber := 2, status := .primary }] }
  getKey n := .ok (.aes (keyOf (if n = 1 then 1 else 2)))

theorem getKey_twoKeys : ∃ z, Keyczar.new .plain isAcceptablePurpose twoKeys = .ok z ∧
    z.getKey ((keyOf 2).hash .plain) = [keyOf 1, keyOf 2].map .aes :=
  ⟨_, rfl, rfl⟩

theorem onlyOwn_twoKeys {iv : Bytes} (hiv : iv.length = 16) (plain : Bytes) :
    OnlyOwn .plain (message .plain (keyOf 2) hiv plain) (keyOf 2) [keyOf 1, keyOf 2] := by
  intro k' hk' htag
  rcases List.mem_pair.mp hk' with rfl | rfl
  · have hne : Primitives.fit 20 (List.replicate 20 (1 : UInt8)) ≠ Primitives.fit 20 (List.replicate 20 2) := by decide
    exact absurd htag hne
  · rfl

/-- A ciphertext is decrypted to its plaintext exactly when no other key comes before its key under the hash, or the plaintext fits
in a chunk and a stream can be made for each key before it. -/
theorem decrypt_eq_ok_iff (P : Primitives) {reader : KeyczarReader} {z : Keyczar}
    (hload : Keyczar.new P isAcceptablePurpose reader = .ok z) {version : KeyVersion}
    (hversion : version ∈ reader.metadata.versions) {k : AesKey} (hkey : reader.getKey version.versionNumber = .ok (.aes k))
    (hmode : k.mode = .cbc) {keys : List AesKey} (hkeys : z.getKey (k.hash P) = keys.map .aes) {ivPreImage plain ct : Bytes}
    (hpre : ivPreImage.length = 16) (hct : Encrypter.encryptWith P k ivPreImage plain = .ok ct)
    (hideal : ∀ k' ∈ keys,
      P.hmacSha1 k'.hmacKey.keyBytes (ct.take (ct.length - HMAC_DIGEST_SIZE)) = ct.drop (ct.length - HMAC_DIGEST_SIZE) → k' = k) :
    decrypt P z ct = .ok plain ↔
      keys.takeWhile (· ≠ k) = [] ∨ plain.length < DECRYPT_CHUNK_SIZE ∧ ∀ k' ∈ keys.takeWhile (· ≠ k), hasStream k' := by
  obtain ⟨hvalid, rfl⟩ := Encrypter.encryptWith_eq_ok hmode hpre hct
  have hmem : k ∈ keys := by
    have hin := Keyczar.mem_getKey_of_new hload hversion hkey (x := k.hash P) List.mem_cons_self
    rw [hkeys] at hin
    obtain ⟨k', hk', heq⟩ := List.mem_map.mp hin
    cases heq
    exact hk'
  have hiv := Encrypter.length_ivOf (P := P) (k := k) hpre
  have hown : OnlyOwn P (message P k hiv plain) k keys := onlyOwn_iff.mpr hideal
  rw [Encrypter.ciphertext, ← bytes_message hiv]
  exact ⟨short_of_decrypt_ok hiv hmode hkeys hown hmem, decrypt_ok_of_short hiv hmode hvalid hkeys hown hmem⟩

theorem decrypt_eq_ok_iff_second_key : ∃ z ct, Keyczar.new .plain isAcceptablePurpose twoKeys = .ok z ∧
    Encrypter.encryptWith .plain (keyOf 2) (List.replicate 16 0) [7, 8, 9] = .ok ct ∧
    (decrypt .plain z ct = .ok [7, 8, 9] ↔ [keyOf 1, keyOf 2].takeWhile (· ≠ keyOf 2) = [] ∨
      [7, 8, 9].length < DECRYPT_CHUNK_SIZE ∧ ∀ k' ∈ [keyOf 1, keyOf 2].takeWhile (· ≠ keyOf 2), hasStream k') := by
  obtain ⟨z, hload, hkeys⟩ := getKey_twoKeys
  have hpre : (List.replicate 16 (0 : UInt8)).length = 16 := List.length_replicate
  have hversion : { versionNumber := 2, status := .primary } ∈ twoKeys.metadata.versions := by decide
  have hct := Encrypter.encryptWith_eq (P := .plain) (k := keyOf 2) rfl rfl hpre
    (show [7, 8, 9].length < 2 ^ 31 - 48 by decide)
  have hiv := Encrypter.length_ivOf (P := .plain) (k := keyOf 2) hpre
  have hideal := onlyOwn_iff.mp (onlyOwn_twoKeys hiv [7, 8, 9])
  exact ⟨z, _, hload, hct, decrypt_eq_ok_iff .plain hload hversion rfl rfl hkeys hpre hct hideal⟩

/-- A plaintext of one chunk, encrypted with the second key, is not returned. -/
theorem chunk_of_second_key_is_lost : ∃ z ct, Keyczar.new .plain isAcceptablePurpose twoKeys = .ok z ∧
    z.getKey ((keyOf 2).hash .plain) = [.aes (keyOf 1), .aes (keyOf 2)] ∧
    Encrypter.encryptWith .plain (keyOf 2) (List.replicate 16 0) (List.replicate 1024 7) = .ok ct ∧
    (∀ k' ∈ [keyOf 1, keyOf 2], Primitives.plain.hmacSha1 k'.hmacKey.keyBytes (ct.take (ct.length - HMAC_DIGEST_SIZE)) =
      ct.drop (ct.length - HMAC_DIGEST_SIZE) → k' = keyOf 2) ∧
    decrypt .plain z ct ≠ .ok (List.replicate 1024 7) := by
  obtain ⟨z, hload, hkeys⟩ := getKey_twoKeys
  have hpre : (List.replicate 16 (0 : UInt8)).length = 16 := List.length_replicate
  have hct := Encrypter.encryptWith_eq (P := .plain) (k := keyOf 2) rfl rfl hpre
    (show (List.replicate 1024 7).length < 2 ^ 31 - 48 by rw [List.length_replicate]; decide)
  have hiv := Encrypter.length_ivOf (P := .plain) (k := keyOf 2) hpre
  have hown := onlyOwn_twoKeys hiv (List.replicate 1024 7)
  rw [Encrypter.ciphertext, ← bytes_message hiv] at hct
  refine ⟨z, _, hload, hkeys, hct, onlyOwn_iff.mp hown, fun hrun => ?_⟩
  rcases short_of_decrypt_ok hiv rfl hkeys hown (by decide) hrun with hfirst | ⟨hshort, _⟩
  · revert hfirst
    decide
  · rw [List.length_replicate] at hshort
    exact absurd hshort (Nat.lt_irrefl _)

end Crypter

end Java
