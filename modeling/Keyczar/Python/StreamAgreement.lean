import Keyczar.Python.StreamRuns

/-!
# Stream decryption against whole-buffer decryption

For which ciphertexts reading to the end of the stream agrees with `Crypter.Decrypt`.
-/

namespace Python

open Bytes

namespace DecryptingStreamReader

variable {P : Primitives} {ks : Keyczar AesKey} {b : Bytes} {q : Prop} {out : Bytes}

/-! ## When stream decryption agrees with `Decrypt` -/

variable (P ks b) in
/-- Reading `b` to the end of the stream agrees with `Decrypt`, however the stream is cut into pieces and whatever is read: when
`Decrypt` returns a plaintext no read raises, and what is delivered by the end of the stream is the plaintext; when `Decrypt` raises
the end of the stream is not reached, but a read raises. -/
def StreamAgrees : Prop :=
  ∀ (stream : InputStream) (bufferSize : Int), stream.content = b → ∀ trace r, Reads P (create ks stream bufferSize) trace r →
    (∀ p, Crypter.decrypt (aesKeys P) ks b none = .ok p →
      (∀ chars e, read P r chars ≠ .error e) ∧ (SawEnd trace → delivered trace = p)) ∧
    (∀ e, Crypter.decrypt (aesKeys P) ks b none = .error e → ¬ SawEnd trace ∧
      ∃ trace' r', Reads P (create ks stream bufferSize) trace' r' ∧ ∃ e', read P r' (-1) = .error e')

variable (P ks b) in
/-- The ciphertexts that reading a stream treats as `Decrypt` does. A header that is refused needs to be there; a key that cannot be
used needs an initial vector to show; otherwise there has to be some payload before the signature, and a payload that is whole blocks
with the right signature is one block, or ends in a byte between one and the block size once it is decrypted. -/
def StreamSafe : Prop :=
  5 ≤ b.length ∧ ∀ key, ks.parseHeader (b.take 5) = .ok key →
    if validKeyLength key.keyBytes.length then
      42 ≤ b.length ∧
        (key.hmacKey.sign P (b.take (b.length - 20)) = b.drop (b.length - 20) → (AesKey.payload b).length % 16 = 0 →
          (AesKey.payload b).length = 16 ∨
          ∃ pad, (Cbc.decrypt (P.aes key.keyBytes) (AesKey.iv b) (AesKey.payload b)).getLast? = some pad ∧
            1 ≤ pad.toNat ∧ pad.toNat ≤ 16)
    else 21 ≤ b.length

/-- `Decrypt` in terms of the key that the header leads to. -/
theorem decrypt_of_le (hb : 5 ≤ b.length) :
    Crypter.decrypt (aesKeys P) ks b none = (ks.parseHeader (b.take 5)).bind fun key => key.decrypt P b := by
  unfold Crypter.decrypt decodeWith
  have hlen : ¬ b.length < HEADER_SIZE := Nat.not_lt_of_le hb
  simp only [bind, Except.bind, sliceTo_nat, if_neg hlen]
  rfl

theorem decrypt_of_lt (hb : b.length < 5) :
    Crypter.decrypt (aesKeys P) ks b none = .error (.shortCiphertextError b.length) := by
  unfold Crypter.decrypt decodeWith
  have hlen : b.length < HEADER_SIZE := hb
  simp only [bind, Except.bind, if_pos hlen]
  rfl

/-- A key that cannot be used decrypts nothing. -/
theorem decrypt_ne_ok_of_not_valid {key : AesKey} (hk : ¬ validKeyLength key.keyBytes.length = true) (p : Bytes) :
    key.decrypt P b ≠ .ok p := by
  rw [AesKey.decrypt_eq, if_pos hk]
  split
  · exact nofun
  · split
    · exact nofun
    · exact nofun

/-- Bytes for which a read may raise are refused by `Decrypt`. -/
theorem RaisesFor.decrypt_ne_ok (h : RaisesFor P ks b) (p : Bytes) : Crypter.decrypt (aesKeys P) ks b none ≠ .ok p := by
  obtain ⟨hlen, hkey⟩ := h
  rw [decrypt_of_le hlen]
  cases hp : ks.parseHeader (b.take 5) with
  | error e => exact nofun
  | ok key =>
    have := hkey key hp
    by_cases hk : validKeyLength key.keyBytes.length = true
    · rw [if_pos hk] at this
      exact this.2 p
    · exact decrypt_ne_ok_of_not_valid hk p

/-- Bytes for which a read may raise are treated as `Decrypt` does. -/
theorem RaisesFor.streamSafe (h : RaisesFor P ks b) : StreamSafe P ks b := by
  refine ⟨h.1, ?_⟩
  intro key hp
  have hkey := h.2 key hp
  by_cases hk : validKeyLength key.keyBytes.length = true
  · rw [if_pos hk] at hkey ⊢
    obtain ⟨hlen, hno⟩ := hkey
    refine ⟨hlen, ?_⟩
    intro hsign hmod
    exfalso
    have hpay : AesKey.payload b ≠ [] := by
      intro hnil
      have := AesKey.length_payload b
      rw [hnil, List.length_nil] at this
      omega
    have hplain : Cbc.decrypt (P.aes key.keyBytes) (AesKey.iv b) (AesKey.payload b) ≠ [] := by
      intro hnil
      have := Cbc.length_decrypt (c := P.aes key.keyBytes) (AesKey.length_iv (by omega : 41 ≤ b.length))
        (Nat.dvd_of_mod_eq_zero hmod)
      rw [hnil, List.length_nil] at this
      exact hpay (List.length_eq_zero_iff.mp this.symm)
    obtain ⟨t, ht⟩ := unPad_of_ne_nil hplain
    refine hno t ?_
    rw [AesKey.decrypt_eq, if_neg (by omega), if_neg (not_not_intro hsign), if_neg (not_not_intro hk),
      if_neg (not_not_intro hmod), ht]
  · rw [if_neg hk] at hkey ⊢
    exact hkey

/-- Where a reader is that has delivered everything: too little came for a header, an initial vector or a payload, or the payload was
decrypted and its signature checked. -/
theorem exhausted_cases {r : DecryptingStreamReader} (h : Reading P ks b q out r) (he : Exhausted r) :
    b.length < 5 ∨
    (5 ≤ b.length ∧ b.length < 21 ∧ ∃ key, ks.parseHeader (b.take 5) = .ok key) ∨
    (5 ≤ b.length ∧ b.length ≤ 41 ∧ ∃ key, ks.parseHeader (b.take 5) = .ok key ∧ validKeyLength key.keyBytes.length = true) ∨
    ∃ key hdr iv dec last sig tail, AtEnd P ks b q out key hdr iv dec last sig tail r := by
  obtain ⟨⟨hnil, hwait⟩, _⟩ := he
  have hcontent := InputStream.content_of_nil hnil
  rcases h with h | ⟨key, hdr, h⟩ | ⟨key, hdr, iv, dec, h⟩ | h
  · left
    rw [h.seen_eq, hcontent, List.append_nil]
    exact h.length_lt
  · right
    left
    have hb : b = hdr ++ r.encryptedBuffer := by rw [h.seen_eq, hcontent, List.append_nil]
    have hlen : b.length = 5 + r.encryptedBuffer.length := by rw [hb, List.length_append, h.length_hdr]
    have hlt := h.length_lt
    refine ⟨by omega, by omega, key, ?_⟩
    rw [hb, take_five h.length_hdr]
    exact h.parse_eq
  · right
    right
    left
    have hshort : r.encryptedBuffer.length ≤ 20 := by
      rcases hwait with hwait | hwait | hwait
      · rw [h.key_eq] at hwait; cases hwait
      · rw [h.cipher_eq] at hwait; cases hwait
      · exact hwait
    have hdec : dec = [] := by
      by_contra hne
      have := h.le_length hne
      omega
    have hb : b = hdr ++ (iv ++ r.encryptedBuffer) := by
      rw [h.seen_eq, hcontent, hdec, List.append_nil, List.append_nil, List.append_assoc]
    have hlen : b.length = 21 + r.encryptedBuffer.length := by
      rw [hb, List.length_append, List.length_append, h.length_hdr, h.length_iv]
      omega
    refine ⟨by omega, by omega, key, ?_, h.valid_key⟩
    rw [hb, take_five h.length_hdr]
    exact h.parse_eq
  · exact Or.inr (Or.inr (Or.inr h))

/-- Too short a string is refused by `Decrypt`. -/
theorem decrypt_eq_error_of_short {key : AesKey} (h5 : 5 ≤ b.length) (hlen : b.length ≤ 41)
    (hp : ks.parseHeader (b.take 5) = .ok key) : ∃ e, Crypter.decrypt (aesKeys P) ks b none = .error e := by
  rw [decrypt_of_le h5, hp]
  show ∃ e, key.decrypt P b = .error e
  have hpay : (AesKey.payload b) = [] := by
    apply List.eq_nil_of_length_eq_zero
    rw [AesKey.length_payload]
    omega
  rw [AesKey.decrypt_eq, hpay]
  split
  · exact ⟨_, rfl⟩
  · split
    · exact ⟨_, rfl⟩
    · split
      · exact ⟨_, rfl⟩
      · rw [Cbc.decrypt_nil]
        exact ⟨_, rfl⟩

/-- The parts that a reader at the end has seen, in terms of the whole. -/
theorem AtEnd.parts {key : AesKey} {hdr iv dec last sig tail : Bytes} {r : DecryptingStreamReader}
    (h : AtEnd P ks b q out key hdr iv dec last sig tail r) :
    b.length = 41 + (dec ++ last).length ∧ ks.parseHeader (b.take 5) = .ok key ∧ AesKey.iv b = iv ∧
      AesKey.payload b = dec ++ last ∧ (dec ++ last).length % 16 = 0 ∧
      key.hmacKey.sign P (b.take (b.length - 20)) = b.drop (b.length - 20) ∧
      Crypter.decrypt (aesKeys P) ks b none = AesKey.unPad (Cbc.decrypt (P.aes key.keyBytes) iv (dec ++ last)) := by
  have hhdr := h.length_hdr
  have hiv := h.length_iv
  have hsig := h.length_sig
  obtain ⟨hlen, htake, hivEq, hpay, hsigned, htail⟩ := AesKey.parts_of_layout h.seen_eq hhdr hiv hsig
  have hparse : ks.parseHeader (b.take 5) = .ok key := htake ▸ h.parse_eq
  have hmod : (dec ++ last).length % 16 = 0 := by
    rw [List.length_append]
    exact Nat.mod_eq_zero_of_dvd (Nat.dvd_add h.dvd_dec h.dvd_last)
  refine ⟨hlen, hparse, hivEq, hpay, hmod, ?_, ?_⟩
  · rw [hsigned, htail]
    exact h.sign_eq
  · have hparts := AesKey.decrypt_parts P key hdr iv (dec ++ last) sig hhdr hiv hsig
    rw [← h.seen_eq, if_neg (not_not_intro h.sign_eq), if_neg (not_not_intro h.valid_key), if_neg (not_not_intro hmod)]
      at hparts
    rw [decrypt_of_le (by omega), hparse]
    exact hparts

/-- Unpadding in terms of the last byte of what is unpadded. -/
theorem unPad_append {s t : Bytes} {p : UInt8} (ht : t.getLast? = some p) :
    AesKey.unPad (s ++ t) = .ok (if p = 0 then [] else (s ++ t).take ((s ++ t).length - p.toNat)) := by
  have hl : (s ++ t).getLast? = some p := by
    rw [List.getLast?_append, ht]
    rfl
  unfold AesKey.unPad
  rw [hl]
  dsimp only
  rw [AesKey.sliceTo_neg_toNat]

/-- What a reader has delivered at the end, and what `Decrypt` returns: the first unpads the plaintext of the last decrypted part alone,
the second the whole plaintext. -/
theorem AtEnd.unpaddings {key : AesKey} {hdr iv dec last sig tail : Bytes} {r : DecryptingStreamReader}
    (h : AtEnd P ks b q out key hdr iv dec last sig tail r) (hnil : r.decryptedBuffer = []) :
    ∃ (plain : Bytes) (p : UInt8), plain.getLast? = some p ∧ plain.length = last.length ∧
      Cbc.decrypt (P.aes key.keyBytes) (AesKey.iv b) (AesKey.payload b) = Cbc.decrypt (P.aes key.keyBytes) iv dec ++ plain ∧
      out = Cbc.decrypt (P.aes key.keyBytes) iv dec ++ (if p = 0 then [] else plain.take (plain.length - p.toNat)) ∧
      Crypter.decrypt (aesKeys P) ks b none = .ok (if p = 0 then [] else
        (Cbc.decrypt (P.aes key.keyBytes) iv dec ++ plain).take
          ((Cbc.decrypt (P.aes key.keyBytes) iv dec ++ plain).length - p.toNat)) := by
  obtain ⟨_, _, hivEq, hpay, _, _, hdecrypt⟩ := h.parts
  have hout := h.out_eq
  rw [hnil, List.append_nil] at hout
  have hsplit := Cbc.decrypt_append (c := P.aes key.keyBytes) h.length_iv h.dvd_dec (y := last)
  have hlast16 : 16 ≤ last.length := Nat.le_of_dvd (List.length_pos_iff.mpr h.last_ne) h.dvd_last
  have hlen : (Cbc.decrypt (P.aes key.keyBytes) (Cbc.lastBlock iv dec) last).length = last.length :=
    Cbc.length_decrypt (by rw [Cbc.length_lastBlock, h.length_iv]) h.dvd_last
  have htail := h.unPad_eq
  rw [hsplit] at hdecrypt
  rw [hivEq, hpay, hsplit]
  generalize Cbc.decrypt (P.aes key.keyBytes) (Cbc.lastBlock iv dec) last = plain at hlen htail hdecrypt
  cases hp : plain.getLast? with
  | none =>
    rw [List.getLast?_eq_none_iff.mp hp, List.length_nil] at hlen
    omega
  | some p =>
    have hunpad := unPad_append (s := []) hp
    rw [List.nil_append, htail] at hunpad
    rw [Except.ok.inj hunpad] at hout
    exact ⟨plain, p, hp, hlen, rfl, hout, hdecrypt.trans (unPad_append hp)⟩

/-- A reader that has delivered everything has delivered what `Decrypt` returns, when the payload is one block or its last byte is the
length of a padding. -/
theorem AtEnd.delivered_eq {key : AesKey} {hdr iv dec last sig tail : Bytes} {r : DecryptingStreamReader}
    (h : AtEnd P ks b q out key hdr iv dec last sig tail r) (hnil : r.decryptedBuffer = [])
    (hpad : (AesKey.payload b).length = 16 ∨
      ∃ pad, (Cbc.decrypt (P.aes key.keyBytes) (AesKey.iv b) (AesKey.payload b)).getLast? = some pad ∧
        1 ≤ pad.toNat ∧ pad.toNat ≤ 16) :
    Crypter.decrypt (aesKeys P) ks b none = .ok out := by
  obtain ⟨_, _, _, hpay, _⟩ := h.parts
  obtain ⟨plain, p, hp, hlen, hsplit, hout, hdecrypt⟩ := h.unpaddings hnil
  have hlast16 : 16 ≤ last.length := Nat.le_of_dvd (List.length_pos_iff.mpr h.last_ne) h.dvd_last
  rw [hdecrypt, hout]
  rcases hpad with hone | ⟨pad, hlast, hpos, hle⟩
  · have hdec : dec = [] := by
      rw [hpay, List.length_append] at hone
      apply List.eq_nil_of_length_eq_zero
      omega
    rw [hdec, Cbc.decrypt_nil]
    rfl
  · have hpp : pad = p := by
      rw [hsplit, List.getLast?_append, hp] at hlast
      exact (Option.some.inj hlast).symm
    subst hpp
    have hne : pad ≠ 0 := by
      rintro rfl
      exact absurd hpos (by decide)
    have hcut : ∀ A : Bytes, (A ++ plain).take ((A ++ plain).length - pad.toNat) =
        A ++ plain.take (plain.length - pad.toNat) := by
      intro A
      rw [List.length_append, Nat.add_sub_assoc (by omega), List.take_length_add_append]
    rw [if_neg hne, if_neg hne, hcut]

/-- When the last block was decrypted on its own and what was delivered is what `Decrypt` returns, the payload is one block or its
last byte is the length of a padding. -/
theorem AtEnd.pad_of_delivered {key : AesKey} {hdr iv dec last sig tail : Bytes} {r : DecryptingStreamReader}
    (h : AtEnd P ks b q out key hdr iv dec last sig tail r) (hone : last.length = 16) (hnil : r.decryptedBuffer = [])
    (hout : Crypter.decrypt (aesKeys P) ks b none = .ok out) :
    (AesKey.payload b).length = 16 ∨
      ∃ pad, (Cbc.decrypt (P.aes key.keyBytes) (AesKey.iv b) (AesKey.payload b)).getLast? = some pad ∧
        1 ≤ pad.toNat ∧ pad.toNat ≤ 16 := by
  obtain ⟨_, _, _, hpay, _⟩ := h.parts
  obtain ⟨plain, p, hp, hlen, hsplit, hdelivered, hdecrypt⟩ := h.unpaddings hnil
  have hdlen : (Cbc.decrypt (P.aes key.keyBytes) iv dec).length = dec.length := Cbc.length_decrypt h.length_iv h.dvd_dec
  rw [hdecrypt, hdelivered] at hout
  have hlens := congrArg List.length (Except.ok.inj hout)
  by_cases hgood : 1 ≤ p.toNat ∧ p.toNat ≤ 16
  · exact Or.inr ⟨p, by rw [hsplit, List.getLast?_append, hp]; rfl, hgood.1, hgood.2⟩
  · left
    -- with another last byte, unpadding the last block alone cuts off all of it and nothing before it
    have hdec : dec.length = 0 := by
      by_cases h0 : p = 0
      · rw [if_pos h0, if_pos h0, List.append_nil, List.length_nil] at hlens
        omega
      · have hp0 : p.toNat ≠ 0 := fun h => h0 (UInt8.toNat_inj.mp h)
        rw [if_neg h0, if_neg h0] at hlens
        simp only [List.length_append, List.length_take] at hlens
        omega
    rw [hpay, List.length_append]
    omega

/-- A stream that delivers everything at once, and says that nothing is there yet before it ends. -/
def wholeStream (b : Bytes) : InputStream where
  pieces := if b = [] then [none] else [some b, none]
  ne_nil := by
    intro piece h
    split at h
    · cases List.mem_singleton.mp h
    · rename_i hb
      rcases List.mem_cons.mp h with h | h
      · cases Option.some.inj h
        exact hb
      · cases List.mem_singleton.mp h

theorem content_wholeStream (b : Bytes) : (wholeStream b).content = b := by
  unfold InputStream.content wholeStream
  by_cases hb : b = []
  · simp [hb]
  · simp [hb]

theorem endsInNone_wholeStream (b : Bytes) : (wholeStream b).EndsInNone := by
  right
  unfold wholeStream
  split
  · rfl
  · rfl

/-- When a safe ciphertext is read to the end, `Decrypt` returns what was delivered. -/
theorem decrypt_of_exhausted (hsafe : StreamSafe P ks b) {r : DecryptingStreamReader} (h : Reading P ks b q out r)
    (he : Exhausted r) : Crypter.decrypt (aesKeys P) ks b none = .ok out := by
  obtain ⟨h5, hkey⟩ := hsafe
  rcases exhausted_cases h he with hlt | ⟨_, hlt, key, hp⟩ | ⟨_, hle, key, hp, hk⟩ | ⟨key, _, _, _, _, _, _, hat⟩
  · omega
  · have := hkey key hp
    split at this
    · omega
    · omega
  · have := hkey key hp
    rw [if_pos hk] at this
    omega
  · obtain ⟨_, hp, _, hpay, hmod, hsign, _⟩ := hat.parts
    have hpad := hkey key hp
    rw [if_pos hat.valid_key] at hpad
    exact hat.delivered_eq he.2 (hpad.2 hsign (by rw [hpay]; exact hmod))

/-- Ciphertexts that are safe to read as a stream are read as `Decrypt` decrypts them. -/
theorem streamAgrees_of_streamSafe (hsafe : StreamSafe P ks b) : StreamAgrees P ks b := by
  intro stream bufferSize hcontent trace r hreads
  have h₀ : Reading P ks b False [] (create ks stream bufferSize) := reading_create hcontent False.elim
  have hend : ∀ trace' r', Reads P (create ks stream bufferSize) trace' r' → SawEnd trace' →
      Crypter.decrypt (aesKeys P) ks b none = .ok (delivered trace') := by
    intro trace' r' hreads' hsaw
    obtain ⟨hread', hex'⟩ := reading_of_reads h₀ hreads'
    exact decrypt_of_exhausted hsafe hread' (hex' hsaw)
  constructor
  · intro p hp
    refine ⟨?_, ?_⟩
    · intro chars e he
      rcases read_spec (reading_of_reads h₀ hreads).1 chars with ⟨e', _, hraise⟩ | ⟨result, r', he', _⟩
      · exact hraise.raisesFor.decrypt_ne_ok p hp
      · rw [he'] at he
        cases he
    · intro hsaw
      rw [hend trace r hreads hsaw] at hp
      exact Except.ok.inj hp
  · intro e he
    have hno : ∀ trace' r', Reads P (create ks stream bufferSize) trace' r' → ¬ SawEnd trace' := by
      intro trace' r' hreads' hsaw
      rw [hend trace' r' hreads' hsaw] at he
      cases he
    refine ⟨hno trace r hreads, ?_⟩
    obtain ⟨trace', r', hreads', hsaw | hraise⟩ := exists_reads_to_end h₀ hreads
    · exact absurd hsaw (hno trace' r' hreads')
    · exact ⟨trace', r', hreads', hraise⟩

/-- Only such ciphertexts are: the others are told apart by a stream that delivers everything at once. -/
theorem streamSafe_of_streamAgrees (h : StreamAgrees P ks b) : StreamSafe P ks b := by
  have h₀ : Reading P ks b True [] (create ks (wholeStream b) 0) :=
    reading_create (content_wholeStream b) fun _ => endsInNone_wholeStream b
  obtain ⟨trace, r, hreads, hsaw | ⟨e, he⟩⟩ := exists_reads_to_end h₀ Reads.start
  · obtain ⟨hread, hex⟩ := reading_of_reads h₀ hreads
    obtain ⟨hok, herror⟩ := h (wholeStream b) 0 (content_wholeStream b) trace r hreads
    have hne : ∀ e, Crypter.decrypt (aesKeys P) ks b none ≠ .error e := fun e he => (herror e he).1 hsaw
    rcases exhausted_cases hread (hex hsaw) with hlt | ⟨h5, hlt, key, hp⟩ | ⟨h5, hle, key, hp, _⟩ |
      ⟨key, _, _, _, _, _, _, hat⟩
    · exact absurd (decrypt_of_lt hlt) (hne _)
    · obtain ⟨e, he⟩ := decrypt_eq_error_of_short (P := P) h5 (by omega) hp
      exact absurd he (hne e)
    · obtain ⟨e, he⟩ := decrypt_eq_error_of_short (P := P) h5 hle hp
      exact absurd he (hne e)
    · obtain ⟨hlen, hp, _⟩ := hat.parts
      have hlast := hat.last_one trivial
      rw [List.length_append] at hlen
      refine ⟨by omega, ?_⟩
      intro key' hp'
      cases Except.ok.inj (hp.symm.trans hp')
      rw [if_pos hat.valid_key]
      refine ⟨by omega, fun _ _ => ?_⟩
      cases hd : Crypter.decrypt (aesKeys P) ks b none with
      | error e => exact absurd hd (hne e)
      | ok p =>
        have hp := (hok p hd).2 hsaw
        exact hat.pad_of_delivered hlast (hex hsaw).2 (by rw [hp]; exact hd)
  · rcases read_spec (reading_of_reads h₀ hreads).1 (-1) with ⟨_, _, hraise⟩ | ⟨result, r', he', _⟩
    · exact hraise.raisesFor.streamSafe
    · rw [he'] at he
      cases he

/-- Reading a ciphertext as a stream agrees with `Decrypt`, for all ways its stream is cut and all reads, exactly when it is safe. -/
theorem streamAgrees_iff_streamSafe (P : Primitives) (ks : Keyczar AesKey) (b : Bytes) :
    StreamAgrees P ks b ↔ StreamSafe P ks b :=
  ⟨streamSafe_of_streamAgrees, streamAgrees_of_streamSafe⟩

/-- `Decrypt` refuses the empty ciphertext, but a read of it returns the empty string: its end is reached and nothing is raised. -/
theorem empty_stream_reaches_end :
    Crypter.decrypt (aesKeys Primitives.plain) collidingSet [] none = .error (.shortCiphertextError 0) ∧
    (∃ r, read Primitives.plain (create collidingSet ⟨[], nofun⟩ 4096) (-1) = .ok (some [], r) ∧
      Reads Primitives.plain (create collidingSet ⟨[], nofun⟩ 4096) [(-1, some [])] r ∧ SawEnd [(-1, some [])]) ∧
    ¬ StreamAgrees Primitives.plain collidingSet [] := by
  have h₀ : Reading Primitives.plain collidingSet [] False [] (create collidingSet ⟨[], nofun⟩ 4096) :=
    reading_create rfl False.elim
  have hread := read_of_exhausted h₀ ⟨⟨rfl, Or.inl rfl⟩, rfl⟩ (-1)
  refine ⟨decrypt_of_lt (by decide), ⟨_, hread, Reads.start.read hread, (-1, some []), by simp, by decide, rfl⟩, ?_⟩
  intro hagrees
  exact absurd (streamSafe_of_streamAgrees hagrees).1 (by decide)

end DecryptingStreamReader

end Python
