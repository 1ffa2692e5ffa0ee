import Keyczar.Python.Stream

/-!
# Runs of the decrypting stream reader

What a reader has consumed, decrypted and delivered after any reads of any sizes, whatever pieces its stream came in. One read is
followed through its parts; each part says that it raises for a reason, or that the reader goes on reading, or that its stream has
ended.
-/

namespace Python

open Bytes

namespace DecryptingStreamReader

/-! ## What is decrypted in one turn -/

/-- While there may be more data, whole blocks are decrypted that leave at least a block and a signature. -/
theorem dataToDecrypt_true (buffer : Bytes) : dataToDecrypt buffer true = buffer.take ((buffer.length - 36) / 16 * 16) := by
  have h36 : sliceTo buffer (-((HLEN + AesKey.blockSize : Nat) : Int)) = buffer.take (buffer.length - 36) :=
    sliceTo_neg buffer (by decide)
  have hdiv := Nat.div_add_mod (buffer.length - 36) 16
  simp only [dataToDecrypt, if_true, h36]
  simp only [List.length_take, AesKey.blockSize]
  rw [Nat.min_eq_left (Nat.sub_le _ _)]
  split
  · rename_i hne
    rw [sliceTo_neg _ (Nat.pos_of_ne_zero hne), List.take_take, List.length_take]
    congr 1
    omega
  · congr 1
    omega

/-- At the end of the data all is decrypted but the signature. -/
theorem dataToDecrypt_false (buffer : Bytes) : dataToDecrypt buffer false = buffer.take (buffer.length - 20) := by
  have h20 : sliceTo buffer (-((HLEN : Nat) : Int)) = buffer.take (buffer.length - 20) := sliceTo_neg buffer (by decide)
  simp [dataToDecrypt, h20]

theorem length_lt_of_dataToDecrypt_true {buffer : Bytes} (h : dataToDecrypt buffer true = []) : buffer.length < 52 := by
  rw [dataToDecrypt_true] at h
  have := congrArg List.length h
  rw [List.length_take, List.length_nil] at this
  omega

/-- What the collecting loop ends with. -/
structure CollectSpec (buffer : Bytes) (s : InputStream) (buffer' : Bytes) (more : Bool) (s' : InputStream) : Prop where
  content_eq : ∃ new, buffer' = buffer ++ new ∧ s.content = new ++ s'.content
  more_data : more = true → s'.remaining < s.remaining ∧ dataToDecrypt buffer' true ≠ []
  ended : more = false → s'.pieces = []
  endsInNone : s.EndsInNone → s'.EndsInNone
  length_lt : s.EndsInNone → more = false → buffer.length < 52 → buffer'.length < 52

theorem collect_spec (buffer : Bytes) (s : InputStream) :
    CollectSpec buffer s (collect buffer s).1.1 (collect buffer s).1.2 (collect buffer s).2 := by
  induction hn : s.remaining using Nat.strong_induction_on generalizing s buffer with
  | _ n ih =>
    subst hn
    rw [collect]
    have h := readBytes_spec AesKey.blockSize false (by decide) s
    obtain ⟨new, hnew, hc⟩ := h.content_eq
    rw [List.nil_append] at hnew
    generalize readBytes AesKey.blockSize false s = out at h hnew hc
    obtain ⟨⟨bytes, more⟩, s'⟩ := out
    cases hnew
    dsimp only at h hc ⊢
    split
    · rename_i hcond
      obtain ⟨rfl, hnil⟩ := hcond
      have h' := ih s'.remaining (h.remaining_lt rfl) (buffer ++ bytes) s' rfl
      obtain ⟨new', h1, h2⟩ := h'.content_eq
      refine ⟨⟨bytes ++ new', by rw [h1, List.append_assoc], by rw [hc, h2, List.append_assoc]⟩, ?_, h'.ended,
        fun he => h'.endsInNone (h.endsInNone he), ?_⟩
      · intro hm
        exact ⟨Nat.lt_trans (h'.more_data hm).1 (h.remaining_lt rfl), (h'.more_data hm).2⟩
      · intro he hm _
        exact h'.length_lt (h.endsInNone he) hm (length_lt_of_dataToDecrypt_true hnil)
    · rename_i hcond
      refine ⟨⟨bytes, rfl, hc⟩, ?_, fun hm => (h.ended hm).1, h.endsInNone, ?_⟩
      · rintro rfl
        exact ⟨h.remaining_lt rfl, fun hnil => hcond ⟨rfl, hnil⟩⟩
      · intro he hm hlt
        rw [(h.bytes_eq rfl he hm).2, List.append_nil]
        exact hlt

theorem collect_of_nil {buffer : Bytes} {s : InputStream} (h : s.pieces = []) : collect buffer s = ((buffer, false), s) := by
  rw [collect, readBytes_of_nil h]
  simp

/-! ## What a reader has seen -/

variable (P : Primitives) (ks : Keyczar AesKey) (b : Bytes) (q : Prop) (out : Bytes)

/-- What holds of a reader throughout: its key set, that it is open, and, where `q` is assumed, that its stream says that nothing is
there yet before it ends. -/
structure Going (r : DecryptingStreamReader) : Prop where
  keySet_eq : r.keySet = ks
  closed_eq : r.closed = false
  endsInNone : q → r.inputStream.EndsInNone

/-- The reader waits for the header. -/
structure AtHeader (r : DecryptingStreamReader) : Prop extends Going ks q r where
  key_eq : r.key = none
  cipher_eq : r.cipher = none
  length_lt : r.encryptedBuffer.length < 5
  seen_eq : b = r.encryptedBuffer ++ r.inputStream.content
  out_eq : out ++ r.decryptedBuffer = []

/-- The reader has the key and waits for the initial vector. -/
structure AtIv (key : AesKey) (hdr : Bytes) (r : DecryptingStreamReader) : Prop extends Going ks q r where
  key_eq : r.key = some key
  cipher_eq : r.cipher = none
  hmac_eq : r.hmacStream = some { hmacKey := key.hmacKey, data := hdr }
  length_hdr : hdr.length = 5
  parse_eq : ks.parseHeader hdr = .ok key
  length_lt : r.encryptedBuffer.length < 16
  seen_eq : b = hdr ++ r.encryptedBuffer ++ r.inputStream.content
  out_eq : out ++ r.decryptedBuffer = []

/-- The reader has decrypted the blocks `dec` of the payload, and holds back at least a block and a signature once it has
decrypted any. -/
structure AtBody (key : AesKey) (hdr iv dec : Bytes) (r : DecryptingStreamReader) : Prop extends Going ks q r where
  key_eq : r.key = some key
  valid_key : validKeyLength key.keyBytes.length = true
  cipher_eq : r.cipher = some { key := key.keyBytes, chain := Cbc.lastBlock iv dec }
  hmac_eq : r.hmacStream = some { hmacKey := key.hmacKey, data := hdr ++ iv ++ dec }
  length_hdr : hdr.length = 5
  length_iv : iv.length = 16
  parse_eq : ks.parseHeader hdr = .ok key
  dvd_dec : 16 ∣ dec.length
  length_lt : r.encryptedBuffer.length < 52
  le_length : dec ≠ [] → 36 ≤ r.encryptedBuffer.length
  seen_eq : b = hdr ++ iv ++ dec ++ r.encryptedBuffer ++ r.inputStream.content
  out_eq : out ++ r.decryptedBuffer = Cbc.decrypt (P.aes key.keyBytes) iv dec

/-- The reader has decrypted the payload and checked the signature. The last blocks were decrypted and unpadded together. -/
structure AtEnd (key : AesKey) (hdr iv dec last sig tail : Bytes) (r : DecryptingStreamReader) : Prop extends Going ks q r where
  key_eq : r.key = some key
  valid_key : validKeyLength key.keyBytes.length = true
  cipher_ne : r.cipher ≠ none
  length_hdr : hdr.length = 5
  length_iv : iv.length = 16
  length_sig : sig.length = 20
  parse_eq : ks.parseHeader hdr = .ok key
  dvd_dec : 16 ∣ dec.length
  dvd_last : 16 ∣ last.length
  last_ne : last ≠ []
  last_one : q → last.length = 16
  seen_eq : b = hdr ++ iv ++ (dec ++ last) ++ sig
  sign_eq : key.hmacKey.sign P (hdr ++ iv ++ (dec ++ last)) = sig
  unPad_eq : AesKey.unPad (Cbc.decrypt (P.aes key.keyBytes) (Cbc.lastBlock iv dec) last) = .ok tail
  buffer_eq : r.encryptedBuffer = []
  pieces_eq : r.inputStream.pieces = []
  out_eq : out ++ r.decryptedBuffer = Cbc.decrypt (P.aes key.keyBytes) iv dec ++ tail

/-- Where a reader of `b` is that has delivered `out`. -/
def Reading (r : DecryptingStreamReader) : Prop :=
  AtHeader ks b q out r ∨ (∃ key hdr, AtIv ks b q out key hdr r) ∨ (∃ key hdr iv dec, AtBody P ks b q out key hdr iv dec r) ∨
    ∃ key hdr iv dec last sig tail, AtEnd P ks b q out key hdr iv dec last sig tail r

/-- The stream is exhausted, and there is nothing left that the reader could still decrypt. -/
def Ended (r : DecryptingStreamReader) : Prop :=
  r.inputStream.pieces = [] ∧ (r.key = none ∨ r.cipher = none ∨ r.encryptedBuffer.length ≤ 20)

/-- Why a read may raise: the header is refused; or the key cannot be used, which shows once there is an initial vector; or there is
a payload, and `Decrypt` refuses it. -/
def RaisesFor : Prop :=
  5 ≤ b.length ∧ ∀ key, ks.parseHeader (b.take 5) = .ok key →
    if validKeyLength key.keyBytes.length then 42 ≤ b.length ∧ ∀ p, key.decrypt P b ≠ .ok p else 21 ≤ b.length

/-- What a read raises, and why. -/
inductive ReadError (e : PyError) : Prop where
  | header (length_ge : 5 ≤ b.length) (refused : ks.parseHeader (b.take 5) = .error e)
  | badKey {key : AesKey} (length_ge : 21 ≤ b.length) (found : ks.parseHeader (b.take 5) = .ok key)
      (invalid : ¬ validKeyLength key.keyBytes.length = true) (raises : e = .valueError)
  | partialBlock {key : AesKey} (length_ge : 42 ≤ b.length) (found : ks.parseHeader (b.take 5) = .ok key)
      (valid : validKeyLength key.keyBytes.length = true) (left_over : ¬ (AesKey.payload b).length % 16 = 0)
      (raises : e = .valueError)
  | badSignature {key : AesKey} (length_ge : 42 ≤ b.length) (found : ks.parseHeader (b.take 5) = .ok key)
      (valid : validKeyLength key.keyBytes.length = true) (whole : (AesKey.payload b).length % 16 = 0)
      (differs : key.hmacKey.sign P (b.take (b.length - 20)) ≠ b.drop (b.length - 20)) (raises : e = .invalidSignatureError)

variable {P ks b q out}

theorem ReadError.raisesFor {e : PyError} (h : ReadError P ks b e) : RaisesFor P ks b := by
  have hkey : ∀ {key : AesKey}, ks.parseHeader (b.take 5) = .ok key → 42 ≤ b.length →
      validKeyLength key.keyBytes.length = true → (∀ p, key.decrypt P b ≠ .ok p) → RaisesFor P ks b := by
    intro key hfound hlen hvalid hno
    refine ⟨by omega, fun key' hkey' => ?_⟩
    cases hfound.symm.trans hkey'
    rw [if_pos hvalid]
    exact ⟨hlen, hno⟩
  cases h with
  | header hlen hrefused =>
    refine ⟨hlen, fun key hkey => ?_⟩
    cases hrefused.symm.trans hkey
  | badKey hlen hfound hinvalid =>
    refine ⟨by omega, fun key hkey => ?_⟩
    cases hfound.symm.trans hkey
    rw [if_neg hinvalid]
    exact hlen
  | partialBlock hlen hfound hvalid hleft =>
    refine hkey hfound hlen hvalid fun p hp => ?_
    rw [AesKey.decrypt_eq, if_neg (by omega), if_neg (not_not_intro hvalid), if_pos hleft] at hp
    split at hp
    · cases hp
    · cases hp
  | badSignature hlen hfound hvalid _ hdiffers =>
    refine hkey hfound hlen hvalid fun p hp => ?_
    rw [AesKey.decrypt_eq, if_neg (by omega), if_pos hdiffers] at hp
    cases hp

/-! ## One step -/

theorem Going.of_eq {r r' : DecryptingStreamReader} (h : Going ks q r) (hk : r'.keySet = r.keySet) (hc : r'.closed = r.closed)
    (he : r.inputStream.EndsInNone → r'.inputStream.EndsInNone) : Going ks q r' :=
  ⟨hk.trans h.keySet_eq, hc.trans h.closed_eq, fun hq => he (h.endsInNone hq)⟩

/-- The header is complete: the key is looked up. -/
theorem createKey_of_le {r : DecryptingStreamReader} {bytes : Bytes} {more : Bool} {s' : InputStream} (hk : r.key = none)
    (hread : readBytes (HEADER_SIZE - r.encryptedBuffer.length) true r.inputStream = ((bytes, more), s'))
    (h : HEADER_SIZE ≤ (r.encryptedBuffer ++ bytes).length) :
    r.createKey = (r.keySet.parseHeader ((r.encryptedBuffer ++ bytes).take HEADER_SIZE)).map fun key =>
      (more, { r with
        inputStream := s'
        bufferSize := if 0 ≤ r.bufferSize then AesKey.noPadBufferSize r.bufferSize else r.bufferSize
        key := some key
        hmacStream := some { hmacKey := key.hmacKey, data := (r.encryptedBuffer ++ bytes).take HEADER_SIZE }
        encryptedBuffer := (r.encryptedBuffer ++ bytes).drop HEADER_SIZE }) := by
  unfold createKey
  rw [hk]
  dsimp only
  rw [hread]
  dsimp only
  rw [if_pos h, sliceTo_nat, sliceFrom_nat]
  cases r.keySet.parseHeader ((r.encryptedBuffer ++ bytes).take HEADER_SIZE) with
  | error e => rfl
  | ok key => rfl

theorem createKey_of_lt {r : DecryptingStreamReader} {bytes : Bytes} {more : Bool} {s' : InputStream} (hk : r.key = none)
    (hread : readBytes (HEADER_SIZE - r.encryptedBuffer.length) true r.inputStream = ((bytes, more), s'))
    (h : (r.encryptedBuffer ++ bytes).length < HEADER_SIZE) :
    r.createKey = .ok (more, { r with inputStream := s', encryptedBuffer := r.encryptedBuffer ++ bytes }) := by
  unfold createKey
  rw [hk]
  dsimp only
  rw [hread]
  dsimp only
  rw [if_neg (Nat.not_le_of_lt h)]

/-- Waiting for the header: the header is refused, or there is a key, or the stream has ended. -/
theorem createKey_spec {r : DecryptingStreamReader} (h : AtHeader ks b q out r) :
    (∃ e, r.createKey = .error e ∧ ReadError P ks b e) ∨
    (∃ key hdr r', r.createKey = .ok (true, r') ∧ AtIv ks b q out key hdr r' ∧
      r'.inputStream.remaining < r.inputStream.remaining) ∨
    (∃ r', r.createKey = .ok (false, r') ∧ AtHeader ks b q out r' ∧ Ended r') := by
  have h5 : HEADER_SIZE = 5 := rfl
  obtain ⟨bytes, more, s', hread, hc, hends, hlong, hcases⟩ := @readBytes_missing HEADER_SIZE _ h.length_lt r.inputStream
  have hb : b = r.encryptedBuffer ++ bytes ++ s'.content := by
    rw [h.seen_eq, hc, List.append_assoc]
  rcases hcases with ⟨hfull, rfl, hremaining⟩ | ⟨hshort, rfl, hnil⟩
  · have htake : b.take 5 = (r.encryptedBuffer ++ bytes).take 5 := by
      rw [hb, List.take_append_of_le_length (by omega)]
    rw [createKey_of_le h.key_eq hread hfull, h.keySet_eq]
    cases hp : ks.parseHeader ((r.encryptedBuffer ++ bytes).take HEADER_SIZE) with
    | error e =>
      refine Or.inl ⟨e, rfl, .header ?_ ?_⟩
      · rw [hb, List.length_append]
        omega
      · rw [htake]
        exact hp
    | ok key =>
      refine Or.inr (Or.inl ⟨key, (r.encryptedBuffer ++ bytes).take HEADER_SIZE, _, rfl, ?_, hremaining⟩)
      refine ⟨h.toGoing.of_eq h.keySet_eq.symm rfl hends, rfl, h.cipher_eq, rfl, ?_, hp, ?_, ?_, h.out_eq⟩
      · rw [List.length_take]
        omega
      · show ((r.encryptedBuffer ++ bytes).drop HEADER_SIZE).length < 16
        rw [List.length_drop]
        omega
      · rw [List.take_append_drop]
        exact hb
  · rw [createKey_of_lt h.key_eq hread hshort]
    refine Or.inr (Or.inr ⟨_, rfl, ?_, hnil, Or.inl h.key_eq⟩)
    exact ⟨h.toGoing.of_eq rfl rfl hends, h.key_eq, h.cipher_eq, hshort, hb, h.out_eq⟩

/-- The header of what was seen is the header the key was found by. -/
theorem take_five {hdr rest : Bytes} (h : hdr.length = 5) : (hdr ++ rest).take 5 = hdr := List.take_left' h

/-- The initial vector is complete: the cipher is made. -/
theorem createCipher_of_le {r : DecryptingStreamReader} {key : AesKey} {bytes : Bytes} {more : Bool} {s' : InputStream}
    (hk : r.cipher = none)
    (hread : readBytes (AesKey.blockSize - r.encryptedBuffer.length) true r.inputStream = ((bytes, more), s'))
    (h : AesKey.blockSize ≤ (r.encryptedBuffer ++ bytes).length) :
    r.createCipher key = (AesCipher.new key.keyBytes ((r.encryptedBuffer ++ bytes).take AesKey.blockSize)).map fun cipher =>
      (more, { r with
        inputStream := s'
        cipher := some cipher
        hmacStream := r.hmacStream.map (·.update ((r.encryptedBuffer ++ bytes).take AesKey.blockSize))
        encryptedBuffer := (r.encryptedBuffer ++ bytes).drop AesKey.blockSize }) := by
  unfold createCipher
  rw [hk]
  dsimp only
  rw [hread]
  dsimp only
  rw [if_pos h, sliceTo_nat, sliceFrom_nat]
  cases AesCipher.new key.keyBytes ((r.encryptedBuffer ++ bytes).take AesKey.blockSize) with
  | error e => rfl
  | ok key => rfl

theorem createCipher_of_lt {r : DecryptingStreamReader} {key : AesKey} {bytes : Bytes} {more : Bool} {s' : InputStream}
    (hk : r.cipher = none)
    (hread : readBytes (AesKey.blockSize - r.encryptedBuffer.length) true r.inputStream = ((bytes, more), s'))
    (h : (r.encryptedBuffer ++ bytes).length < AesKey.blockSize) :
    r.createCipher key = .ok (more, { r with inputStream := s', encryptedBuffer := r.encryptedBuffer ++ bytes }) := by
  unfold createCipher
  rw [hk]
  dsimp only
  rw [hread]
  dsimp only
  rw [if_neg (Nat.not_le_of_lt h)]

/-- Waiting for the initial vector: the key cannot be used, or there is a cipher, or the stream has ended. -/
theorem createCipher_spec {key : AesKey} {hdr : Bytes} {r : DecryptingStreamReader} (h : AtIv ks b q out key hdr r) :
    (∃ e, r.createCipher key = .error e ∧ ReadError P ks b e) ∨
    (∃ iv r', r.createCipher key = .ok (true, r') ∧ AtBody P ks b q out key hdr iv [] r' ∧
      r'.inputStream.remaining < r.inputStream.remaining) ∨
    (∃ r', r.createCipher key = .ok (false, r') ∧ AtIv ks b q out key hdr r' ∧ Ended r') := by
  have h16 : AesKey.blockSize = 16 := rfl
  obtain ⟨bytes, more, s', hread, hc, hends, hlong, hcases⟩ := @readBytes_missing AesKey.blockSize _ h.length_lt r.inputStream
  have hb : b = hdr ++ (r.encryptedBuffer ++ bytes) ++ s'.content := by
    rw [h.seen_eq, hc]
    simp only [List.append_assoc]
  rcases hcases with ⟨hfull, rfl, hremaining⟩ | ⟨hshort, rfl, hnil⟩
  · rw [createCipher_of_le h.cipher_eq hread hfull, AesCipher.new]
    by_cases hk : validKeyLength key.keyBytes.length = true
    · rw [if_pos hk]
      refine Or.inr (Or.inl ⟨(r.encryptedBuffer ++ bytes).take AesKey.blockSize, _, rfl, ?_, hremaining⟩)
      refine ⟨h.toGoing.of_eq rfl rfl hends, h.key_eq, hk, by simp, ?_, h.length_hdr, ?_, h.parse_eq, by simp, ?_,
        fun hne => absurd rfl hne, ?_, ?_⟩
      · show r.hmacStream.map _ = _
        rw [h.hmac_eq]
        simp [HmacKeyStream.update]
      · rw [List.length_take]
        omega
      · show ((r.encryptedBuffer ++ bytes).drop AesKey.blockSize).length < 52
        rw [List.length_drop]
        omega
      · show b = hdr ++ (r.encryptedBuffer ++ bytes).take AesKey.blockSize ++ [] ++
          (r.encryptedBuffer ++ bytes).drop AesKey.blockSize ++ s'.content
        rw [List.append_nil, List.append_assoc hdr, List.take_append_drop]
        exact hb
      · rw [Cbc.decrypt_nil]
        exact h.out_eq
    · rw [if_neg hk]
      have hlenb : 21 ≤ b.length := by
        rw [hb, List.length_append, List.length_append, h.length_hdr]
        omega
      refine Or.inl ⟨_, rfl, .badKey hlenb ?_ hk rfl⟩
      rw [hb, List.append_assoc, take_five h.length_hdr]
      exact h.parse_eq
  · rw [createCipher_of_lt h.cipher_eq hread hshort]
    refine Or.inr (Or.inr ⟨_, rfl, ?_, hnil, Or.inr (Or.inl h.cipher_eq)⟩)
    exact ⟨h.toGoing.of_eq rfl rfl hends, h.key_eq, h.cipher_eq, h.hmac_eq, h.length_hdr, h.parse_eq, hshort, hb, h.out_eq⟩

/-! ### Decrypting -/

theorem decryptCollected_of_nil {r : DecryptingStreamReader} {cipher : AesCipher} {more : Bool}
    (h : dataToDecrypt r.encryptedBuffer more = []) : decryptCollected P r cipher more = .ok r := by
  unfold decryptCollected
  rw [h]
  rfl

/-- Whole blocks, with more to come. -/
theorem decryptCollected_more {r : DecryptingStreamReader} {cipher : AesCipher} {data : Bytes}
    (hd : dataToDecrypt r.encryptedBuffer true = data) (hne : data ≠ []) (hdvd : 16 ∣ data.length) :
    decryptCollected P r cipher true =
      .ok { r with
        hmacStream := r.hmacStream.map (·.update data)
        cipher := some { cipher with chain := Cbc.lastBlock cipher.chain data }
        encryptedBuffer := r.encryptedBuffer.drop data.length
        decryptedBuffer := r.decryptedBuffer ++ Cbc.decrypt (P.aes cipher.key) cipher.chain data } := by
  unfold decryptCollected
  rw [hd]
  dsimp only
  rw [if_neg hne, AesCipher.decrypt_of_dvd P hdvd, sliceFrom_nat]
  rfl

/-- The last blocks. -/
theorem decryptCollected_end {r : DecryptingStreamReader} (cipher : AesCipher) {data : Bytes} {hmac : HmacKeyStream}
    (hd : dataToDecrypt r.encryptedBuffer false = data) (hne : data ≠ []) (hh : r.hmacStream = some hmac)
    (hsig : (r.encryptedBuffer.drop data.length).length = 20) :
    decryptCollected P r cipher false =
      if ¬ 16 ∣ data.length then .error .valueError
      else if (hmac.update data).sign P ≠ r.encryptedBuffer.drop data.length then .error .invalidSignatureError
      else (AesKey.unPad (Cbc.decrypt (P.aes cipher.key) cipher.chain data)).map fun plain =>
        { r with
          hmacStream := some (hmac.update data)
          cipher := some { cipher with chain := Cbc.lastBlock cipher.chain data }
          encryptedBuffer := []
          decryptedBuffer := r.decryptedBuffer ++ plain } := by
  unfold decryptCollected
  rw [hd, hh]
  dsimp only
  rw [if_neg hne, sliceFrom_nat]
  by_cases hdvd : 16 ∣ data.length
  · rw [AesCipher.decrypt_of_dvd P hdvd, if_neg (not_not_intro hdvd)]
    have hlen : ¬ (r.encryptedBuffer.drop data.length).length ≠ HLEN := not_not_intro hsig
    simp only [bind, Except.bind, Bool.false_eq_true, if_false, if_neg hlen, Option.map_some, pure, Except.pure]
    by_cases hv : (hmac.update data).sign P = r.encryptedBuffer.drop data.length
    · have hv' : HmacKey.verifySignedData ((hmac.update data).sign P) (r.encryptedBuffer.drop data.length) = true :=
        (constantTimeEq_iff _ _).mpr hv
      rw [if_neg (not_not_intro hv), hv']
      cases AesKey.unPad (Cbc.decrypt (P.aes cipher.key) cipher.chain data) with
      | error e => rfl
      | ok plain => rfl
    · have hv' : HmacKey.verifySignedData ((hmac.update data).sign P) (r.encryptedBuffer.drop data.length) = false := by
        rw [← Bool.not_eq_true]
        exact fun h => hv ((constantTimeEq_iff _ _).mp h)
      rw [if_pos hv, hv']
      rfl
  · rw [AesCipher.decrypt_of_not_dvd P hdvd, if_pos hdvd]
    rfl

/-- Something that is not empty is unpadded. -/
theorem unPad_of_ne_nil {s : Bytes} (h : s ≠ []) : ∃ t, AesKey.unPad s = .ok t := by
  unfold AesKey.unPad
  cases hl : s.getLast? with
  | none => exact absurd (List.getLast?_eq_none_iff.mp hl) h
  | some p => exact ⟨_, rfl⟩

/-- What was collected is the next part of the ciphertext. -/
theorem AtBody.seen_append {key : AesKey} {hdr iv dec : Bytes} {r : DecryptingStreamReader}
    (h : AtBody P ks b q out key hdr iv dec r) {buffer : Bytes} {more : Bool} {s' : InputStream}
    (hc : CollectSpec r.encryptedBuffer r.inputStream buffer more s') : b = hdr ++ iv ++ dec ++ buffer ++ s'.content := by
  obtain ⟨new, hnew, hcontent⟩ := hc.content_eq
  rw [h.seen_eq, hcontent, hnew]
  simp only [List.append_assoc]

/-- With more data to come, the blocks before the last three are decrypted. -/
theorem decryptCollected_spec_more {key : AesKey} {hdr iv dec : Bytes} {r : DecryptingStreamReader}
    (h : AtBody P ks b q out key hdr iv dec r) {buffer : Bytes} {s' : InputStream}
    (hc : CollectSpec r.encryptedBuffer r.inputStream buffer true s') :
    ∃ r', decryptCollected P { r with inputStream := s', encryptedBuffer := buffer }
        { key := key.keyBytes, chain := Cbc.lastBlock iv dec } true = .ok r' ∧ Reading P ks b q out r' ∧
      r'.inputStream.remaining < r.inputStream.remaining := by
  have hiv := h.length_iv
  have hhdr := h.length_hdr
  obtain ⟨hrem, hne⟩ := hc.more_data rfl
  have hlen : (dataToDecrypt buffer true).length = (buffer.length - 36) / 16 * 16 := by
    rw [dataToDecrypt_true, List.length_take]
    omega
  have hpos : 0 < (dataToDecrypt buffer true).length := List.length_pos_iff.mpr hne
  have hdvd : 16 ∣ (dataToDecrypt buffer true).length := by
    rw [hlen]
    exact Nat.dvd_mul_left _ _
  have hrest : (buffer.drop (dataToDecrypt buffer true).length).length = buffer.length - (dataToDecrypt buffer true).length :=
    List.length_drop ..
  have hsplit : dataToDecrypt buffer true ++ buffer.drop (dataToDecrypt buffer true).length = buffer := by
    conv_lhs => rw [hlen, dataToDecrypt_true]
    exact List.take_append_drop _ _
  refine ⟨_, decryptCollected_more (r := { r with inputStream := s', encryptedBuffer := buffer }) rfl hne hdvd, ?_, hrem⟩
  refine Or.inr (Or.inr (Or.inl ⟨key, hdr, iv, dec ++ dataToDecrypt buffer true, ?_⟩))
  refine ⟨h.toGoing.of_eq rfl rfl hc.endsInNone, h.key_eq, h.valid_key, ?_, ?_, hhdr, hiv, h.parse_eq, ?_, ?_, ?_, ?_, ?_⟩
  · rw [Cbc.lastBlock_append]
  · show r.hmacStream.map _ = _
    rw [h.hmac_eq, ← List.append_assoc]
    rfl
  · rw [List.length_append]
    exact Nat.dvd_add h.dvd_dec hdvd
  · show (buffer.drop (dataToDecrypt buffer true).length).length < 52
    omega
  · intro _
    show 36 ≤ (buffer.drop (dataToDecrypt buffer true).length).length
    omega
  · show b = hdr ++ iv ++ (dec ++ dataToDecrypt buffer true) ++ buffer.drop (dataToDecrypt buffer true).length ++ s'.content
    conv_lhs => rw [h.seen_append hc, ← hsplit]
    simp only [List.append_assoc]
  · show out ++ (r.decryptedBuffer ++ _) = _
    rw [← List.append_assoc, h.out_eq, Cbc.decrypt_append hiv h.dvd_dec]

/-- At the end of the stream there may be no block left. -/
theorem decryptCollected_spec_short {key : AesKey} {hdr iv dec : Bytes} {r : DecryptingStreamReader}
    (h : AtBody P ks b q out key hdr iv dec r) {buffer : Bytes} {s' : InputStream}
    (hc : CollectSpec r.encryptedBuffer r.inputStream buffer false s') (hshort : buffer.length ≤ 20) :
    ∃ r', decryptCollected P { r with inputStream := s', encryptedBuffer := buffer }
        { key := key.keyBytes, chain := Cbc.lastBlock iv dec } false = .ok r' ∧ Reading P ks b q out r' ∧ Ended r' := by
  obtain ⟨new, hnew, -⟩ := hc.content_eq
  have hiv := h.length_iv
  have hhdr := h.length_hdr
  have hnil := hc.ended rfl
  have hempty : dataToDecrypt buffer false = [] := by
    rw [dataToDecrypt_false, Nat.sub_eq_zero_of_le hshort, List.take_zero]
  refine ⟨_, decryptCollected_of_nil (r := { r with inputStream := s', encryptedBuffer := buffer }) hempty, ?_,
    hnil, Or.inr (Or.inr hshort)⟩
  refine Or.inr (Or.inr (Or.inl ⟨key, hdr, iv, dec, ?_⟩))
  refine ⟨h.toGoing.of_eq rfl rfl hc.endsInNone, h.key_eq, h.valid_key, h.cipher_eq, h.hmac_eq, hhdr, hiv, h.parse_eq,
    h.dvd_dec, ?_, ?_, h.seen_append hc, h.out_eq⟩
  · show buffer.length < 52
    omega
  · intro hne
    have := h.le_length hne
    rw [hnew, List.length_append] at hshort
    omega

/-- What is left otherwise is the last blocks and the signature. -/
theorem decryptCollected_spec_end {key : AesKey} {hdr iv dec : Bytes} {r : DecryptingStreamReader}
    (h : AtBody P ks b q out key hdr iv dec r) {buffer : Bytes} {s' : InputStream}
    (hc : CollectSpec r.encryptedBuffer r.inputStream buffer false s') (hshort : ¬ buffer.length ≤ 20) :
    (∃ e, decryptCollected P { r with inputStream := s', encryptedBuffer := buffer }
        { key := key.keyBytes, chain := Cbc.lastBlock iv dec } false = .error e ∧ ReadError P ks b e) ∨
    (∃ r', decryptCollected P { r with inputStream := s', encryptedBuffer := buffer }
        { key := key.keyBytes, chain := Cbc.lastBlock iv dec } false = .ok r' ∧ Reading P ks b q out r' ∧ Ended r') := by
  have hiv := h.length_iv
  have hhdr := h.length_hdr
  have hnil := hc.ended rfl
  have hb' : b = hdr ++ iv ++ dec ++ buffer := by
    rw [h.seen_append hc, InputStream.content_of_nil hnil, List.append_nil]
  have hdata : dataToDecrypt buffer false = buffer.take (buffer.length - 20) := dataToDecrypt_false buffer
  have hlen : (dataToDecrypt buffer false).length = buffer.length - 20 := by
    rw [hdata, List.length_take]
    omega
  have hne : dataToDecrypt buffer false ≠ [] := by
    intro hnil
    rw [hnil, List.length_nil] at hlen
    omega
  generalize hlast : dataToDecrypt buffer false = last at hlen hne
  have hsig : (buffer.drop last.length).length = 20 := by
    rw [List.length_drop]
    omega
  have hsplit : last ++ buffer.drop last.length = buffer := by
    rw [hlen, ← hlast, hdata]
    exact List.take_append_drop _ _
  generalize hsigEq : buffer.drop last.length = sig at hsig hsplit
  have hparts : b = hdr ++ iv ++ (dec ++ last) ++ sig := by
    rw [hb', ← hsplit]
    simp only [List.append_assoc]
  obtain ⟨hblen, htake, -, hpay, hsigned, htail⟩ := AesKey.parts_of_layout hparts hhdr hiv hsig
  have hblong : 42 ≤ b.length := by
    have := List.length_pos_iff.mpr hne
    rw [List.length_append] at hblen
    omega
  have hfound : ks.parseHeader (b.take 5) = .ok key := htake ▸ h.parse_eq
  have hmod : (AesKey.payload b).length % 16 = 0 ↔ 16 ∣ last.length := by
    rw [hpay, List.length_append, ← Nat.dvd_iff_mod_eq_zero, Nat.dvd_add_right h.dvd_dec]
  have heq := decryptCollected_end (P := P) (r := { r with inputStream := s', encryptedBuffer := buffer })
    { key := key.keyBytes, chain := Cbc.lastBlock iv dec } hlast hne h.hmac_eq (by rw [hsigEq]; exact hsig)
  have hsign : (({ hmacKey := key.hmacKey, data := hdr ++ iv ++ dec } : HmacKeyStream).update last).sign P =
      key.hmacKey.sign P (hdr ++ iv ++ (dec ++ last)) := by
    rw [← List.append_assoc]
    rfl
  rw [heq, hsign]
  by_cases hdvd : 16 ∣ last.length
  · rw [if_neg (not_not_intro hdvd)]
    by_cases hv : key.hmacKey.sign P (hdr ++ iv ++ (dec ++ last)) = sig
    · have hplain : Cbc.decrypt (P.aes key.keyBytes) (Cbc.lastBlock iv dec) last ≠ [] := by
        intro hnil'
        have hchain : (Cbc.lastBlock iv dec).length = 16 := by rw [Cbc.length_lastBlock, hiv]
        have := Cbc.length_decrypt (c := P.aes key.keyBytes) hchain hdvd
        rw [hnil', List.length_nil] at this
        exact hne (List.length_eq_zero_iff.mp this.symm)
      obtain ⟨tail, htail⟩ := unPad_of_ne_nil hplain
      right
      rw [if_neg (by rw [hsigEq]; exact not_not_intro hv), htail]
      refine ⟨_, rfl, ?_, hnil, Or.inr (Or.inr (Nat.zero_le _))⟩
      refine Or.inr (Or.inr (Or.inr ⟨key, hdr, iv, dec, last, sig, tail, ?_⟩))
      refine ⟨h.toGoing.of_eq rfl rfl hc.endsInNone, h.key_eq, h.valid_key, nofun, hhdr, hiv, hsig, h.parse_eq, h.dvd_dec,
        hdvd, hne, ?_, hparts, hv, htail, rfl, hnil, ?_⟩
      · intro hq
        have hlt := hc.length_lt (h.endsInNone hq) rfl h.length_lt
        have hpos := List.length_pos_iff.mpr hne
        obtain ⟨n, hn⟩ := hdvd
        omega
      · show out ++ (r.decryptedBuffer ++ tail) = _
        rw [← List.append_assoc, h.out_eq]
    · left
      rw [if_pos (by rw [hsigEq]; exact hv)]
      refine ⟨_, rfl, .badSignature hblong hfound h.valid_key (hmod.mpr hdvd) ?_ rfl⟩
      rw [hsigned, htail]
      exact hv
  · left
    rw [if_pos hdvd]
    exact ⟨_, rfl, .partialBlock hblong hfound h.valid_key (fun h => hdvd (hmod.mp h)) rfl⟩

/-- One turn of decryption: `Decrypt` refuses the bytes, or blocks were decrypted and there may be more, or the stream has ended. -/
theorem decryptCollected_spec {key : AesKey} {hdr iv dec : Bytes} {r : DecryptingStreamReader}
    (h : AtBody P ks b q out key hdr iv dec r) {buffer : Bytes} {more : Bool} {s' : InputStream}
    (hc : CollectSpec r.encryptedBuffer r.inputStream buffer more s') :
    (∃ e, decryptCollected P { r with inputStream := s', encryptedBuffer := buffer }
        { key := key.keyBytes, chain := Cbc.lastBlock iv dec } more = .error e ∧ ReadError P ks b e) ∨
    (∃ r', decryptCollected P { r with inputStream := s', encryptedBuffer := buffer }
        { key := key.keyBytes, chain := Cbc.lastBlock iv dec } more = .ok r' ∧ Reading P ks b q out r' ∧
      (more = true → r'.inputStream.remaining < r.inputStream.remaining) ∧ (more = false → Ended r')) := by
  cases more with
  | true =>
    obtain ⟨r', hrun, hreading, hlt⟩ := decryptCollected_spec_more h hc
    exact Or.inr ⟨r', hrun, hreading, fun _ => hlt, nofun⟩
  | false =>
    by_cases hshort : buffer.length ≤ 20
    · obtain ⟨r', hrun, hreading, hended⟩ := decryptCollected_spec_short h hc hshort
      exact Or.inr ⟨r', hrun, hreading, nofun, fun _ => hended⟩
    · rcases decryptCollected_spec_end h hc hshort with hrefused | ⟨r', hrun, hreading, hended⟩
      · exact Or.inl hrefused
      · exact Or.inr ⟨r', hrun, hreading, nofun, fun _ => hended⟩

/-! ## One read -/

variable (P ks b q out) in
/-- How the parts of a read may end, for a reader that began it with `n` still to come. -/
def Outcome (n : Nat) (x : Except PyError (Bool × DecryptingStreamReader)) : Prop :=
  (∃ e, x = .error e ∧ ReadError P ks b e) ∨
  ∃ more r, x = .ok (more, r) ∧ Reading P ks b q out r ∧ (more = true → r.inputStream.remaining < n) ∧ (more = false → Ended r)

theorem Outcome.mono {m n : Nat} {x : Except PyError (Bool × DecryptingStreamReader)} (h : Outcome P ks b q out m x)
    (hmn : m ≤ n) : Outcome P ks b q out n x := by
  rcases h with h | ⟨more, r, h1, h2, h3, h4⟩
  · exact Or.inl h
  · exact Or.inr ⟨more, r, h1, h2, fun hm => Nat.lt_of_lt_of_le (h3 hm) hmn, h4⟩

/-- With a cipher, data is collected and decrypted. -/
theorem decryptAvailable_eq {r : DecryptingStreamReader} {key : AesKey} {cipher : AesCipher} (hkey : r.key = some key)
    (hcipher : r.cipher = some cipher) {buffer : Bytes} {more : Bool} {s' : InputStream}
    (hc : collect r.encryptedBuffer r.inputStream = ((buffer, more), s')) :
    decryptAvailable P true r =
      (decryptCollected P { r with inputStream := s', encryptedBuffer := buffer } cipher more).map fun r' => (more, r') := by
  simp only [decryptAvailable, hkey, hcipher, hc]
  cases decryptCollected P _ cipher more with
  | error e => rfl
  | ok r' => rfl

theorem ensureCipher_of_some {r : DecryptingStreamReader} {cipher : AesCipher} (hcipher : r.cipher = some cipher) :
    ensureCipher true r = .ok (true, r) := by
  unfold ensureCipher
  rw [hcipher]
  cases r.key with
  | none => rfl
  | some key => rfl

/-- With a key, what is left of a read is to make sure of the cipher and to decrypt. -/
theorem advance_of_key {r : DecryptingStreamReader} {key : AesKey} (hclosed : r.closed = false) (hkey : r.key = some key) :
    advance P r = (do
      let (isDataAvail, r) ← ensureCipher true r
      decryptAvailable P isDataAvail r) := by
  unfold advance
  rw [hclosed, hkey]
  rfl

theorem decryptAvailable_outcome {key : AesKey} {hdr iv dec : Bytes} {r : DecryptingStreamReader}
    (h : AtBody P ks b q out key hdr iv dec r) :
    Outcome P ks b q out r.inputStream.remaining (decryptAvailable P true r) := by
  have hc := collect_spec r.encryptedBuffer r.inputStream
  rcases hout : collect r.encryptedBuffer r.inputStream with ⟨⟨buffer, more⟩, s'⟩
  rw [hout] at hc
  rw [decryptAvailable_eq h.key_eq h.cipher_eq hout]
  rcases decryptCollected_spec h hc with ⟨e, heq, hraise⟩ | ⟨r', heq, hread, hmore, hend⟩
  · rw [heq]
    exact Or.inl ⟨e, rfl, hraise⟩
  · rw [heq]
    exact Or.inr ⟨more, r', rfl, hread, hmore, hend⟩

theorem ensureCipher_outcome {key : AesKey} {hdr : Bytes} {r : DecryptingStreamReader} (h : AtIv ks b q out key hdr r) :
    Outcome P ks b q out r.inputStream.remaining (do
      let (isDataAvail, r) ← ensureCipher true r
      decryptAvailable P isDataAvail r) := by
  have heq : ensureCipher true r = r.createCipher key := by
    unfold ensureCipher
    rw [h.key_eq, h.cipher_eq]
  rw [heq]
  rcases createCipher_spec (P := P) h with ⟨e, he, hraise⟩ | ⟨iv, r', he, hbody, hlt⟩ | ⟨r', he, hiv, hend⟩
  · rw [he]
    exact Or.inl ⟨e, rfl, hraise⟩
  · rw [he]
    exact (decryptAvailable_outcome hbody).mono (Nat.le_of_lt hlt)
  · rw [he]
    exact Or.inr ⟨false, r', rfl, Or.inr (Or.inl ⟨key, hdr, hiv⟩), nofun, fun _ => hend⟩

/-- With a cipher and nothing left to decrypt, a reader whose stream has ended stays as it is. -/
theorem advance_of_nothing_left {r : DecryptingStreamReader} {key : AesKey} {cipher : AesCipher} (hclosed : r.closed = false)
    (hkey : r.key = some key) (hcipher : r.cipher = some cipher) (hnil : r.inputStream.pieces = [])
    (hshort : r.encryptedBuffer.length ≤ 20) : advance P r = .ok (false, r) := by
  have hdata : dataToDecrypt r.encryptedBuffer false = [] := by
    rw [dataToDecrypt_false, Nat.sub_eq_zero_of_le hshort, List.take_zero]
  rw [advance_of_key hclosed hkey, ensureCipher_of_some hcipher]
  show decryptAvailable P true r = .ok (false, r)
  rw [decryptAvailable_eq hkey hcipher (collect_of_nil hnil), decryptCollected_of_nil hdata]
  rfl

/-- A reader whose stream has ended stays as it is. -/
theorem advance_of_ended {r : DecryptingStreamReader} (h : Reading P ks b q out r) (he : Ended r) :
    advance P r = .ok (false, r) := by
  obtain ⟨hnil, hwait⟩ := he
  rcases h with h | ⟨key, hdr, h⟩ | ⟨key, hdr, iv, dec, h⟩ | ⟨key, hdr, iv, dec, last, sig, tail, h⟩
  · have hcreate : r.createKey = .ok (false, r) := by
      have hlt : (r.encryptedBuffer ++ []).length < HEADER_SIZE := by
        rw [List.append_nil]
        exact h.length_lt
      rw [createKey_of_lt h.key_eq (readBytes_of_nil hnil) hlt, List.append_nil]
    unfold advance
    rw [h.closed_eq, h.key_eq]
    simp only [Bool.false_eq_true, if_false, Option.isNone_none, if_true, bind, Except.bind, hcreate, ensureCipher,
      decryptAvailable, pure, Except.pure]
  · have hcreate : r.createCipher key = .ok (false, r) := by
      have hlt : (r.encryptedBuffer ++ []).length < AesKey.blockSize := by
        rw [List.append_nil]
        exact h.length_lt
      rw [createCipher_of_lt h.cipher_eq (readBytes_of_nil hnil) hlt, List.append_nil]
    have hensure : ensureCipher true r = .ok (false, r) := by
      unfold ensureCipher
      rw [h.key_eq, h.cipher_eq]
      exact hcreate
    rw [advance_of_key h.closed_eq h.key_eq, hensure]
    rfl
  · have hshort : r.encryptedBuffer.length ≤ 20 := by
      rcases hwait with hwait | hwait | hwait
      · rw [h.key_eq] at hwait; cases hwait
      · rw [h.cipher_eq] at hwait; cases hwait
      · exact hwait
    exact advance_of_nothing_left h.closed_eq h.key_eq h.cipher_eq hnil hshort
  · cases hcipher : r.cipher with
    | none => exact absurd hcipher h.cipher_ne
    | some cipher =>
      exact advance_of_nothing_left h.closed_eq h.key_eq hcipher hnil (by rw [h.buffer_eq]; exact Nat.zero_le _)

/-- Everything up to where a read takes its result: it raises for a reason, or the reader goes on reading, or its stream has
ended. -/
theorem advance_outcome {r : DecryptingStreamReader} (h : Reading P ks b q out r) :
    Outcome P ks b q out r.inputStream.remaining (advance P r) := by
  rcases h with h | ⟨key, hdr, h⟩ | ⟨key, hdr, iv, dec, h⟩ | ⟨key, hdr, iv, dec, last, sig, tail, h⟩
  · have heq : advance P r = (do
        let (isDataAvail, r) ← r.createKey
        let (isDataAvail, r) ← ensureCipher isDataAvail r
        decryptAvailable P isDataAvail r) := by
      unfold advance
      rw [h.closed_eq, h.key_eq]
      rfl
    rw [heq]
    rcases createKey_spec (P := P) h with ⟨e, he, hraise⟩ | ⟨key, hdr, r', he, hiv, hlt⟩ | ⟨r', he, hhdr, hend⟩
    · rw [he]
      exact Or.inl ⟨e, rfl, hraise⟩
    · rw [he]
      exact (ensureCipher_outcome hiv).mono (Nat.le_of_lt hlt)
    · rw [he]
      exact Or.inr ⟨false, r', rfl, Or.inl hhdr, nofun, fun _ => hend⟩
  · rw [advance_of_key h.closed_eq h.key_eq]
    exact ensureCipher_outcome h
  · rw [advance_of_key h.closed_eq h.key_eq, ensureCipher_of_some h.cipher_eq]
    exact decryptAvailable_outcome h
  · have hread : Reading P ks b q out r := Or.inr (Or.inr (Or.inr ⟨key, hdr, iv, dec, last, sig, tail, h⟩))
    have hend : Ended r := ⟨h.pieces_eq, Or.inr (Or.inr (by rw [h.buffer_eq]; exact Nat.zero_le _))⟩
    exact Or.inr ⟨false, r, advance_of_ended hread hend, hread, nofun, fun _ => hend⟩

/-! ### Delivering -/

/-- Taking a result out of the decrypted data moves it to what was delivered. -/
theorem Reading.deliver {r : DecryptingStreamReader} (h : Reading P ks b q out r) {out' rest : Bytes}
    (heq : out' ++ rest = out ++ r.decryptedBuffer) : Reading P ks b q out' { r with decryptedBuffer := rest } := by
  rcases h with h | ⟨key, hdr, h⟩ | ⟨key, hdr, iv, dec, h⟩ | ⟨key, hdr, iv, dec, last, sig, tail, h⟩
  · exact Or.inl { h with out_eq := heq.trans h.out_eq }
  · exact Or.inr (Or.inl ⟨key, hdr, { h with out_eq := heq.trans h.out_eq }⟩)
  · exact Or.inr (Or.inr (Or.inl ⟨key, hdr, iv, dec, { h with out_eq := heq.trans h.out_eq }⟩))
  · exact Or.inr (Or.inr (Or.inr ⟨key, hdr, iv, dec, last, sig, tail, { h with out_eq := heq.trans h.out_eq }⟩))

/-- The result of a read and what it leaves. -/
def taken (chars : Int) (buffer : Bytes) : Bytes := if chars < 0 then buffer else sliceTo buffer chars

def left (chars : Int) (buffer : Bytes) : Bytes := if chars < 0 then [] else sliceFrom buffer chars

theorem taken_append_left (chars : Int) (buffer : Bytes) : taken chars buffer ++ left chars buffer = buffer := by
  unfold taken left
  by_cases h : chars < 0
  · simp [h]
  · obtain ⟨n, rfl⟩ := Int.eq_ofNat_of_zero_le (Int.not_lt.mp h)
    rw [if_neg h, if_neg h, sliceTo_nat, sliceFrom_nat, List.take_append_drop]

/-- A read of a size other than zero takes nothing only when there is nothing. -/
theorem eq_nil_of_taken {chars : Int} {buffer : Bytes} (h : chars ≠ 0) (ht : taken chars buffer = []) : buffer = [] := by
  unfold taken at ht
  by_cases hneg : chars < 0
  · rwa [if_pos hneg] at ht
  · obtain ⟨n, rfl⟩ := Int.eq_ofNat_of_zero_le (Int.not_lt.mp hneg)
    rw [if_neg hneg, sliceTo_nat, List.take_eq_nil_iff] at ht
    rcases ht with ht | ht
    · subst ht
      exact absurd rfl h
    · exact ht

/-- A read takes its result after everything else. -/
theorem read_of_advance {r r' : DecryptingStreamReader} {more : Bool} (h : advance P r = .ok (more, r')) (chars : Int) :
    read P r chars =
      .ok (if taken chars r'.decryptedBuffer = [] ∧ more = true then none else some (taken chars r'.decryptedBuffer),
        { r' with decryptedBuffer := left chars r'.decryptedBuffer }) := by
  unfold read
  rw [h]
  simp only [bind, Except.bind, pure, Except.pure]
  show (if taken chars r'.decryptedBuffer = [] ∧ more = true then _ else _) = _
  split
  · rfl
  · rfl

/-- Nothing is left to be read. -/
def Exhausted (r : DecryptingStreamReader) : Prop := Ended r ∧ r.decryptedBuffer = []

/-- One read: it raises for a reason; or it delivers its result, and then it has consumed some of the stream or the stream has
ended, which it says by an empty result of a size other than zero. -/
theorem read_spec {r : DecryptingStreamReader} (h : Reading P ks b q out r) (chars : Int) :
    (∃ e, read P r chars = .error e ∧ ReadError P ks b e) ∨
    ∃ result r', read P r chars = .ok (result, r') ∧ Reading P ks b q (out ++ result.getD []) r' ∧
      (r'.inputStream.remaining < r.inputStream.remaining ∨ Ended r') ∧
      (result = some [] → chars ≠ 0 → Exhausted r') ∧ (chars < 0 → r'.decryptedBuffer = []) := by
  rcases advance_outcome h with ⟨e, he, hraise⟩ | ⟨more, r', he, hread, hmore, hend⟩
  · left
    refine ⟨e, ?_, hraise⟩
    unfold read
    rw [he]
    rfl
  · right
    refine ⟨_, _, read_of_advance he chars, hread.deliver ?_, ?_, ?_, ?_⟩
    · have hres : (if taken chars r'.decryptedBuffer = [] ∧ more = true then none
          else some (taken chars r'.decryptedBuffer)).getD [] = taken chars r'.decryptedBuffer := by
        split
        · rename_i hnil
          exact hnil.1.symm
        · rfl
      rw [hres, List.append_assoc, taken_append_left]
    · cases more with
      | true => exact Or.inl (hmore rfl)
      | false => exact Or.inr (hend rfl)
    · intro hres hchars
      split at hres
      · cases hres
      · rename_i hnot
        have hnil := Option.some.inj hres
        have hbuf := eq_nil_of_taken hchars hnil
        cases more with
        | true => exact absurd ⟨hnil, rfl⟩ hnot
        | false =>
          refine ⟨hend rfl, ?_⟩
          have happ := taken_append_left chars r'.decryptedBuffer
          rw [hnil, hbuf] at happ
          show left chars r'.decryptedBuffer = []
          rw [hbuf]
          exact happ
    · intro hneg
      show left chars r'.decryptedBuffer = []
      exact if_pos hneg

/-- Reading on from an exhausted reader delivers nothing and changes nothing. -/
theorem read_of_exhausted {r : DecryptingStreamReader} (h : Reading P ks b q out r) (he : Exhausted r) (chars : Int) :
    read P r chars = .ok (some [], r) := by
  have htaken : taken chars r.decryptedBuffer = [] := by
    have := taken_append_left chars r.decryptedBuffer
    rw [he.2] at this ⊢
    exact (List.append_eq_nil_iff.mp this).1
  have hleft : left chars r.decryptedBuffer = [] := by
    have := taken_append_left chars r.decryptedBuffer
    rw [he.2] at this ⊢
    exact (List.append_eq_nil_iff.mp this).2
  have hself : { r with decryptedBuffer := ([] : Bytes) } = r := by rw [← he.2]
  rw [read_of_advance (advance_of_ended h he.1) chars, htaken, hleft, hself]
  simp

/-! ## Runs of reads -/

/-- A run of reads that all return: their sizes and results, and the reader after them. -/
inductive Reads (P : Primitives) (r₀ : DecryptingStreamReader) : List (Int × Option Bytes) → DecryptingStreamReader → Prop where
  | start : Reads P r₀ [] r₀
  | read {trace : List (Int × Option Bytes)} {r r' : DecryptingStreamReader} {chars : Int} {result : Option Bytes}
      (before : Reads P r₀ trace r) (returns : read P r chars = .ok (result, r')) : Reads P r₀ (trace ++ [(chars, result)]) r'

/-- The concatenation of the results; `None` adds nothing. -/
def delivered (trace : List (Int × Option Bytes)) : Bytes := (trace.map fun e => e.2.getD []).flatten

/-- The end of the stream was reached: a read of a size other than zero returned the empty string. -/
def SawEnd (trace : List (Int × Option Bytes)) : Prop := ∃ e ∈ trace, e.1 ≠ 0 ∧ e.2 = some []

theorem delivered_append (trace : List (Int × Option Bytes)) (chars : Int) (result : Option Bytes) :
    delivered (trace ++ [(chars, result)]) = delivered trace ++ result.getD [] := by
  simp [delivered]

/-- What holds after every run of reads. -/
theorem reading_of_reads {r₀ r : DecryptingStreamReader} {trace : List (Int × Option Bytes)} (h₀ : Reading P ks b q [] r₀)
    (h : Reads P r₀ trace r) : Reading P ks b q (delivered trace) r ∧ (SawEnd trace → Exhausted r) := by
  induction h with
  | start => exact ⟨h₀, nofun⟩
  | @read trace r r' chars result before returns ih =>
    obtain ⟨hread, hend⟩ := ih
    rw [delivered_append]
    rcases read_spec hread chars with ⟨e, he, _⟩ | ⟨result', r'', he, hread', _, hex, _⟩
    · rw [he] at returns
      cases returns
    · rw [he] at returns
      cases returns
      refine ⟨hread', ?_⟩
      rintro ⟨e, hmem, hsize, hres⟩
      rcases List.mem_append.mp hmem with hmem | hmem
      · have hdone := hend ⟨e, hmem, hsize, hres⟩
        rw [read_of_exhausted hread hdone chars] at he
        cases he
        exact hdone
      · cases List.mem_singleton.mp hmem
        exact hex hres hsize

/-- Reading on and on reaches the end of the stream or raises. -/
theorem exists_reads_to_end {r₀ r : DecryptingStreamReader} {trace : List (Int × Option Bytes)} (h₀ : Reading P ks b q [] r₀)
    (h : Reads P r₀ trace r) :
    ∃ trace' r', Reads P r₀ trace' r' ∧ (SawEnd trace' ∨ ∃ e, read P r' (-1) = .error e) := by
  induction hn : r.inputStream.remaining using Nat.strong_induction_on generalizing r trace with
  | _ n ih =>
    subst hn
    obtain ⟨hread, _⟩ := reading_of_reads h₀ h
    rcases read_spec hread (-1) with ⟨e, he, _⟩ | ⟨result, r', he, hread', hlt | hend, _, hbuf⟩
    · exact ⟨trace, r, h, Or.inr ⟨e, he⟩⟩
    · exact ih r'.inputStream.remaining hlt (h.read he) rfl
    · -- the stream has ended and all is delivered: one more read returns the empty string
      have hmore := h.read he
      have hlast := read_of_exhausted hread' ⟨hend, hbuf (by decide)⟩ (-1)
      exact ⟨_, _, hmore.read hlast, Or.inl ⟨(-1, some []), by simp, by decide, rfl⟩⟩

/-- A reader as it is constructed. -/
def create (ks : Keyczar AesKey) (stream : InputStream) (bufferSize : Int) : DecryptingStreamReader :=
  { keySet := ks, inputStream := stream, bufferSize }

theorem reading_create {stream : InputStream} {bufferSize : Int} (hb : stream.content = b) (hq : q → stream.EndsInNone) :
    Reading P ks b q [] (create ks stream bufferSize) :=
  Or.inl ⟨⟨rfl, rfl, hq⟩, rfl, rfl, by simp [create], by simp [create, hb], rfl⟩

end DecryptingStreamReader

end Python
