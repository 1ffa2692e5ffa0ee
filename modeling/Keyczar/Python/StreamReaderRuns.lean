import Keyczar.Python.StreamReader

/-!
# Runs of the incremental base 64 reader

Where each cut behind a multiple of four characters is a cut between two groups of base 64, or has only blanks behind it, the reader
gives what `Base64WSDecode` gives, however the stream is split and however much is asked for.
-/

namespace Python

open Bytes Base64Scan

/-! ## Cuts -/

/-- What was read ends between two groups of base 64. -/
def BetweenGroups (p : Bytes) : Prop :=
  (killWhitespace p).length % 4 = 0 ∧ (scan base64Table {} (killWhitespace p)).2 = some {}

instance (p : Bytes) : Decidable (BetweenGroups p) := inferInstanceAs (Decidable (_ ∧ _))

/-- Only blanks. -/
def Blank (s : Bytes) : Prop := ∀ c ∈ s, isBlank c = true

instance (s : Bytes) : Decidable (Blank s) := inferInstanceAs (Decidable (∀ c ∈ s, isBlank c = true))

/-- A cut that does no harm. -/
def CleanCut (s : Bytes) (n : Nat) : Prop := BetweenGroups (s.take n) ∨ Blank (s.drop n)

instance (s : Bytes) (n : Nat) : Decidable (CleanCut s n) := inferInstanceAs (Decidable (_ ∨ _))

/-- No cut behind a multiple of four characters does harm. -/
def Aligned (s : Bytes) : Prop := ∀ n < s.length + 1, 4 ∣ n → CleanCut s n

instance (s : Bytes) : Decidable (Aligned s) := inferInstanceAs (Decidable (∀ n < s.length + 1, 4 ∣ n → CleanCut s n))

theorem killWhitespace_append (p q : Bytes) : killWhitespace (p ++ q) = killWhitespace p ++ killWhitespace q := List.filter_append ..

theorem killWhitespace_of_blank {s : Bytes} (h : Blank s) : killWhitespace s = [] :=
  List.filter_eq_nil_iff.mpr fun c hc => by simp [h c hc]

theorem base64WSDecode_of_killWhitespace {p q : Bytes} (h : killWhitespace p = killWhitespace q) :
    base64WSDecode p = base64WSDecode q := by
  unfold base64WSDecode
  rw [h]

theorem base64WSDecode_nil : base64WSDecode [] = .ok [] := rfl

theorem orDecodingError_map (front : Bytes) (decoded : Option Bytes) :
    (match decoded.map (front ++ ·) with
      | none => Except.error PyError.base64DecodingError
      | some bytes => Except.ok bytes) =
      (match decoded with
        | none => Except.error PyError.base64DecodingError
        | some bytes => Except.ok bytes).map (front ++ ·) := by
  cases decoded with
  | none => rfl
  | some bytes => rfl

/-- Up to a cut between two groups, the string is decoded by itself. -/
theorem base64WSDecode_append {x : Bytes} (h : BetweenGroups x) (y : Bytes) :
    ∃ bytes, base64WSDecode x = .ok bytes ∧ base64WSDecode (x ++ y) = (base64WSDecode y).map (bytes ++ ·) := by
  obtain ⟨hlength, hscan⟩ := h
  have hdecode := decode_append (T := base64Table) (p := killWhitespace x) (Prod.ext rfl hscan)
  refine ⟨(scan base64Table {} (killWhitespace x)).1, ?_, ?_⟩
  · simp only [base64WSDecode, hlength, urlsafeB64decode]
    rw [if_neg (by decide), if_neg (by decide), if_neg (by decide), (hdecode []).1]
  · have hmod : (killWhitespace (x ++ y)).length % 4 = (killWhitespace y).length % 4 := by
      rw [killWhitespace_append, List.length_append]
      omega
    simp only [base64WSDecode, hmod]
    rw [killWhitespace_append]
    by_cases h1 : (killWhitespace y).length % 4 = 1
    · rw [if_pos h1, if_pos h1]
      rfl
    · rw [if_neg h1, if_neg h1]
      have hend : ∀ pads : Bytes, urlsafeB64decode (killWhitespace x ++ killWhitespace y ++ pads) =
          (urlsafeB64decode (killWhitespace y ++ pads)).map ((scan base64Table {} (killWhitespace x)).1 ++ ·) := by
        intro pads
        unfold urlsafeB64decode
        rw [List.append_assoc, (hdecode (killWhitespace y ++ pads)).2]
      by_cases h2 : (killWhitespace y).length % 4 = 2
      · rw [if_pos h2, if_pos h2, hend]
        exact orDecodingError_map _ _
      · rw [if_neg h2, if_neg h2]
        by_cases h3 : (killWhitespace y).length % 4 = 3
        · rw [if_pos h3, if_pos h3, hend]
          exact orDecodingError_map _ _
        · rw [if_neg h3, if_neg h3]
          have hnone := hend []
          rw [List.append_nil, List.append_nil] at hnone
          rw [hnone]
          exact orDecodingError_map _ _

/-- From one cut to the next: what is between them cannot be decoded, and the rest cannot either, or it is decoded by itself. -/
theorem CleanCut.step {s x rest : Bytes} {n : Nat} (h : CleanCut s n) (hx : s.drop n = x ++ rest) (h' : CleanCut s (n + x.length)) :
    (∃ e, base64WSDecode x = .error e ∧ base64WSDecode (x ++ rest) = .error e) ∨
    ∃ bytes, base64WSDecode x = .ok bytes ∧ base64WSDecode (x ++ rest) = (base64WSDecode rest).map (bytes ++ ·) := by
  have hrest : s.drop (n + x.length) = rest := by
    rw [← List.drop_drop, hx, List.drop_left]
  have htake : s.take (n + x.length) = s.take n ++ x := by
    rw [List.take_add, hx, List.take_left]
  -- with blanks only behind the second cut
  have hblank : Blank rest →
      (∃ e, base64WSDecode x = .error e ∧ base64WSDecode (x ++ rest) = .error e) ∨
      ∃ bytes, base64WSDecode x = .ok bytes ∧ base64WSDecode (x ++ rest) = (base64WSDecode rest).map (bytes ++ ·) := by
    intro hb
    have hnil := killWhitespace_of_blank hb
    have hsame : base64WSDecode (x ++ rest) = base64WSDecode x :=
      base64WSDecode_of_killWhitespace (by rw [killWhitespace_append, hnil, List.append_nil])
    have hrest' : base64WSDecode rest = .ok [] := (base64WSDecode_of_killWhitespace (q := []) hnil).trans base64WSDecode_nil
    rw [hsame, hrest']
    cases base64WSDecode x with
    | error e => exact Or.inl ⟨e, rfl, rfl⟩
    | ok bytes => exact Or.inr ⟨bytes, rfl, by simp only [Except.map, List.append_nil]⟩
  rcases h' with hnext | hb
  · rcases h with hcut | hb
    · right
      rw [htake] at hnext
      obtain ⟨hlength, hscan⟩ := hnext
      rw [killWhitespace_append] at hlength hscan
      rw [scan_append (Prod.ext rfl hcut.2)] at hscan
      have hlength' := hcut.1
      rw [List.length_append] at hlength
      exact base64WSDecode_append ⟨by omega, hscan⟩ rest
    · refine hblank fun c hc => hb c ?_
      rw [hx]
      exact List.mem_append_right x hc
  · rw [hrest] at hb
    exact hblank hb

/-- What is decoded is no longer than what it is decoded from. -/
theorem length_le_of_base64WSDecode {s bytes : Bytes} (h : base64WSDecode s = .ok bytes) : bytes.length ≤ s.length := by
  have hpads : ∀ pads : Bytes, (pads.filter fun c => (base64Table.value c).isSome) = [] →
      ∀ bytes, urlsafeB64decode (killWhitespace s ++ pads) = some bytes → bytes.length ≤ s.length := by
    intro pads hnil bytes hdecode
    have hle := length_le_of_decode hdecode
    rw [List.filter_append, hnil, List.append_nil] at hle
    exact hle.trans ((List.length_filter_le ..).trans (List.length_filter_le ..))
  simp only [base64WSDecode] at h
  split at h
  · cases h
  · split at h
    · cases h
    · rename_i bytes' hdecode
      cases h
      split at hdecode
      · exact hpads _ rfl _ hdecode
      · split at hdecode
        · exact hpads _ rfl _ hdecode
        · refine hpads [] rfl _ ?_
          rw [List.append_nil]
          exact hdecode

/-! ## The stream -/

/-- Sizes that a caller may ask for: a positive number, or none. -/
def Positive (size : Option Nat) : Prop := ∀ n ∈ size, 0 < n

/-- What a read gives: the empty string at the end of the stream, nothing yet, or the next bytes. -/
theorem InputStream.readSome_cases (s : InputStream) {size : Option Nat} (hsize : Positive size) :
    (s.pieces = [] ∧ s.readSome size = (some [], s)) ∨
    (∃ s', s.pieces ≠ [] ∧ s.readSome size = (none, s') ∧ s.content = s'.content ∧ s'.remaining < s.remaining) ∨
    (∃ bytes s', s.pieces ≠ [] ∧ s.readSome size = (some bytes, s') ∧ bytes ≠ [] ∧ s.content = bytes ++ s'.content ∧
      s'.remaining < s.remaining) := by
  cases size with
  | some n =>
    rcases s.read_cases (hsize n rfl) with ⟨hp, heq⟩ | ⟨s', hp, heq, hc, hlt, -⟩ | ⟨bytes, s', hp, heq, hne, -, hc, hlt, -⟩
    · exact Or.inl ⟨hp, heq⟩
    · exact Or.inr (Or.inl ⟨s', hp, heq, hc, hlt⟩)
    · exact Or.inr (Or.inr ⟨bytes, s', hp, heq, hne, hc, hlt⟩)
  | none =>
    unfold InputStream.readSome
    cases hp : s.pieces with
    | nil => exact Or.inl ⟨rfl, rfl⟩
    | cons piece rest =>
      have hcontent := InputStream.content_of_cons hp
      have hlt := InputStream.remaining_tail_lt hp
      cases piece with
      | none => exact Or.inr (Or.inl ⟨s.tail, List.cons_ne_nil _ _, rfl, hcontent, hlt⟩)
      | some bytes =>
        have hne : bytes ≠ [] := s.ne_nil bytes (by rw [hp]; exact List.mem_cons_self)
        exact Or.inr (Or.inr ⟨bytes, s.tail, List.cons_ne_nil _ _, rfl, hne, hcontent, hlt⟩)

/-! ## The reader -/

namespace IncrementalBase64WSStreamReader

/-- A reader of a string that has given some results. From the place `n` on the string was not decoded yet. -/
structure Sound (s given : Bytes) (n : Nat) (r : IncrementalBase64WSStreamReader) : Prop where
  bytebuffer_eq : r.bytebuffer = []
  rest_eq : s.drop n = r.decoder.buffer ++ r.stream.content
  cleanCut : CleanCut s n
  decode_eq : base64WSDecode s = (base64WSDecode (s.drop n)).map (given ++ r.charbuffer ++ ·)
  length_lt : r.decoder.buffer.length < 4
  dvd : r.stream.pieces ≠ [] → 4 ∣ n

/-- How much a reader holds and has still to read. -/
def size (r : IncrementalBase64WSStreamReader) : Nat := r.charbuffer.length + r.decoder.buffer.length + r.stream.content.length

variable {s given : Bytes} {n : Nat} {r : IncrementalBase64WSStreamReader} {size chars : Option Nat}

/-- With an error in what is left there is one in the whole. -/
theorem Sound.error (h : Sound s given n r) {e : PyError} (he : base64WSDecode (s.drop n) = .error e) : base64WSDecode s = .error e := by
  rw [h.decode_eq, he]
  rfl

/-- A read of the stream raises what decoding the string raises, or decodes on. -/
theorem Sound.pull (haligned : Aligned s) (h : Sound s given n r) (hsize : Positive size) :
    (∃ e, pull size r = .error e ∧ base64WSDecode s = .error e) ∨
    ∃ newdata r' n', pull size r = .ok (newdata, r') ∧ Sound s given n' r' ∧ r'.size ≤ r.size ∧
      (newdata = some [] → r'.stream.pieces = []) ∧ (newdata ≠ some [] → r'.stream.remaining < r.stream.remaining) := by
  unfold IncrementalBase64WSStreamReader.pull
  rcases r.stream.readSome_cases hsize with ⟨hp, heq⟩ | ⟨stream, hp, heq, hc, hlt⟩ | ⟨bytes, stream, hp, heq, hne, hc, hlt⟩
  · right
    rw [heq]
    have hzero : 4 * (r.decoder.buffer.length / 4) = 0 := by
      have hlength := h.length_lt
      omega
    simp only [BufferedIncrementalBase64WSDecoder.decode, BufferedIncrementalBase64WSDecoder.bufferDecode, h.bytebuffer_eq,
      List.append_nil, hzero, List.take_zero, base64WSDecode_nil, Bool.false_eq_true, if_false]
    refine ⟨some [], _, n, rfl, ⟨rfl, h.rest_eq, h.cleanCut, ?_, h.length_lt, h.dvd⟩, ?_, fun _ => hp, fun hcontra => absurd rfl hcontra⟩
    · rw [h.decode_eq]
      simp only [List.append_nil]
    · simp only [IncrementalBase64WSStreamReader.size, List.append_nil, List.drop_zero, Nat.le_refl]
  · right
    rw [heq]
    refine ⟨none, _, n, rfl, ⟨h.bytebuffer_eq, ?_, h.cleanCut, h.decode_eq, h.length_lt, fun _ => h.dvd hp⟩, ?_, nofun, fun _ => hlt⟩
    · rw [h.rest_eq, hc]
    · simp only [IncrementalBase64WSStreamReader.size, hc, Nat.le_refl]
  · rw [heq]
    -- the groups of four characters are cut off, and decoded
    obtain ⟨m, hm⟩ : ∃ m, m = 4 * ((r.decoder.buffer ++ bytes).length / 4) := ⟨_, rfl⟩
    have hle : m ≤ (r.decoder.buffer ++ bytes).length := by omega
    have hdata : s.drop n = (r.decoder.buffer ++ bytes).take m ++ ((r.decoder.buffer ++ bytes).drop m ++ stream.content) := by
      rw [← List.append_assoc, List.take_append_drop, h.rest_eq, hc, List.append_assoc]
    have hlength : ((r.decoder.buffer ++ bytes).take m).length = m := List.length_take_of_le hle
    have hbound : n + m < s.length + 1 := by
      have hsum := congrArg List.length h.rest_eq
      rw [hc, List.length_drop, List.length_append, List.length_append] at hsum
      have hbytes := List.length_pos_of_ne_nil hne
      rw [List.length_append] at hle
      omega
    have hdvd : 4 ∣ n + m := Nat.dvd_add (h.dvd hp) (hm ▸ Nat.dvd_mul_right 4 _)
    have hcut : CleanCut s (n + ((r.decoder.buffer ++ bytes).take m).length) := by
      rw [hlength]
      exact haligned _ hbound hdvd
    have hdrop : s.drop (n + m) = (r.decoder.buffer ++ bytes).drop m ++ stream.content := by
      rw [← List.drop_drop, hdata, List.drop_left' hlength]
    simp only [BufferedIncrementalBase64WSDecoder.decode, BufferedIncrementalBase64WSDecoder.bufferDecode, ← hm, h.bytebuffer_eq,
      Bool.false_eq_true, if_false, List.nil_append]
    rcases h.cleanCut.step hdata hcut with ⟨e, hx, hwhole⟩ | ⟨out, hx, hwhole⟩
    · left
      rw [hx]
      exact ⟨e, rfl, h.error (hdata ▸ hwhole)⟩
    · right
      rw [hx]
      refine ⟨some bytes, _, n + m, rfl, ⟨List.drop_length, hdrop, hlength ▸ hcut, ?_, ?_, fun _ => hdvd⟩, ?_, ?_, fun _ => hlt⟩
      · rw [h.decode_eq, hdata, hwhole, hdrop]
        cases base64WSDecode ((r.decoder.buffer ++ bytes).drop m ++ stream.content) with
        | error e => rfl
        | ok rest => simp only [Except.map, List.append_assoc]
      · rw [List.length_drop]
        omega
      · have hout := length_le_of_base64WSDecode hx
        rw [hlength] at hout
        simp only [IncrementalBase64WSStreamReader.size, hc, List.length_append, List.length_drop]
        rw [List.length_append] at hle
        omega
      · intro hcontra
        exact absurd (Option.some.inj hcontra) hne

variable (chars) in
/-- The loop of a read ends when there is enough to give, or at the end of the stream. -/
theorem Sound.readLoop (haligned : Aligned s) (hsize : Positive size) {fuel : Nat} (h : Sound s given n r)
    (hfuel : r.stream.remaining < fuel) (newdata : Option Bytes) :
    (∃ e, readLoop size chars fuel newdata r = .error e ∧ base64WSDecode s = .error e) ∨
    ∃ newdata' r' n', readLoop size chars fuel newdata r = .ok (newdata', r') ∧ Sound s given n' r' ∧ r'.size ≤ r.size ∧
      (satisfied size chars r'.charbuffer = true ∨ newdata' = some [] ∧ r'.stream.pieces = []) := by
  induction fuel generalizing newdata n r with
  | zero => exact absurd hfuel (Nat.not_lt_zero _)
  | succ fuel ih =>
    unfold IncrementalBase64WSStreamReader.readLoop
    by_cases henough : satisfied size chars r.charbuffer = true
    · rw [if_pos henough]
      exact Or.inr ⟨newdata, r, n, rfl, h, Nat.le_refl _, Or.inl henough⟩
    · rw [if_neg henough]
      rcases h.pull haligned hsize with ⟨e, hpull, herror⟩ | ⟨newdata', r', n', hpull, hsound, hle, hend, hmore⟩
      · left
        rw [hpull]
        exact ⟨e, rfl, herror⟩
      · rw [hpull]
        by_cases hnil : newdata' = some []
        · right
          refine ⟨newdata', r', n', if_pos hnil, hsound, hle, Or.inr ⟨hnil, hend hnil⟩⟩
        · have hlt := hmore hnil
          simp only [bind, Except.bind, if_neg hnil]
          rcases ih hsound (by omega) newdata' with ⟨e, hrun, herror⟩ | ⟨last, r'', n'', hrun, hsound', hle', hend'⟩
          · exact Or.inl ⟨e, hrun, herror⟩
          · exact Or.inr ⟨last, r'', n'', hrun, hsound', hle'.trans hle, hend'⟩

/-- What is taken out of the characters that are there. -/
theorem Sound.give (h : Sound s given n r) {result charbuffer : Bytes} (hsplit : r.charbuffer = result ++ charbuffer) :
    Sound s (given ++ result) n { r with charbuffer } where
  bytebuffer_eq := h.bytebuffer_eq
  rest_eq := h.rest_eq
  cleanCut := h.cleanCut
  decode_eq := by
    rw [h.decode_eq, hsplit]
    simp only [List.append_assoc]
  length_lt := h.length_lt
  dvd := h.dvd

/-- What is returned stands in front of what is kept, and is nothing only when there is nothing. -/
theorem splitChars_spec (hchars : Positive chars) (buffer : Bytes) :
    ∃ result charbuffer, splitChars chars buffer = (result, charbuffer) ∧ buffer = result ++ charbuffer ∧
      (result = [] → buffer = []) := by
  cases chars with
  | none => exact ⟨buffer, [], rfl, (List.append_nil _).symm, id⟩
  | some c =>
    refine ⟨_, _, rfl, (List.take_append_drop c buffer).symm, fun htake => ?_⟩
    exact (List.take_eq_nil_iff.mp htake).resolve_left (Nat.pos_iff_ne_zero.mp (hchars c rfl))

/-- What satisfies a request is not nothing. -/
theorem ne_nil_of_satisfied (hsize : Positive size) (hchars : Positive chars) {buffer : Bytes}
    (h : satisfied size chars buffer = true) : buffer ≠ [] := by
  rintro rfl
  unfold satisfied at h
  cases chars with
  | some c =>
    have hpos := hchars c rfl
    simp only [List.length_nil, decide_eq_true_eq] at h
    omega
  | none =>
    cases size with
    | none => simp at h
    | some n =>
      have hpos := hsize n rfl
      simp only [List.length_nil, decide_eq_true_eq] at h
      omega

/-- A read raises what decoding the string raises, or gives the next part of it. It gives nothing when all was given. -/
theorem Sound.read (haligned : Aligned s) (hsize : Positive size) (hchars : Positive chars) (h : Sound s given n r) :
    (∃ e, read size chars r = .error e ∧ base64WSDecode s = .error e) ∨
    ∃ result r' n', read size chars r = .ok (some result, r') ∧ Sound s (given ++ result) n' r' ∧
      (result = [] → base64WSDecode s = .ok given) ∧ (result ≠ [] → r'.size < r.size) := by
  unfold IncrementalBase64WSStreamReader.read
  rcases h.readLoop chars haligned hsize (Nat.lt_succ_self _) (some []) with
    ⟨e, hrun, herror⟩ | ⟨newdata, r', n', hrun, hsound, hle, hend⟩
  · left
    rw [hrun]
    exact ⟨e, rfl, herror⟩
  · rw [hrun]
    obtain ⟨result, charbuffer, hresult, hsplit, hnil⟩ := splitChars_spec hchars r'.charbuffer
    have hzero : chars ≠ some 0 := fun hcontra => absurd (hchars 0 hcontra) (Nat.lt_irrefl 0)
    have hgive := hsound.give hsplit
    simp only [bind, Except.bind, hresult]
    by_cases hempty : result = []
    · have hchar := hnil hempty
      -- nothing is there although the loop has ended, so the stream has ended
      obtain ⟨hlast, hpieces⟩ := hend.resolve_left fun henough => ne_nil_of_satisfied hsize hchars henough hchar
      have hrest : s.drop n' = r'.decoder.buffer := by
        rw [hsound.rest_eq, InputStream.content_of_nil hpieces, List.append_nil]
      have hdecode : base64WSDecode s = (base64WSDecode r'.decoder.buffer).map (given ++ ·) := by
        have hgiven := hsound.decode_eq
        rw [hrest, hchar, List.append_nil] at hgiven
        exact hgiven
      have hcharbuffer : charbuffer = [] := by
        rw [hempty, hchar, List.nil_append] at hsplit
        exact hsplit.symm
      rw [if_neg (by rw [hlast]; exact fun hcontra => nomatch hcontra.2), if_pos ⟨hempty, hlast, hzero⟩]
      unfold BufferedIncrementalBase64WSDecoder.flush
      by_cases hbuffer : r'.decoder.buffer = []
      · right
        rw [hbuffer, base64WSDecode_nil] at hdecode
        refine ⟨[], { r' with charbuffer }, n', ?_, ?_, fun _ => ?_, fun hcontra => absurd rfl hcontra⟩
        · rw [if_pos hbuffer]
          rfl
        · rw [hempty] at hgive
          exact hgive
        · rw [hdecode, Except.map, List.append_nil]
      · rw [if_neg hbuffer]
        simp only [BufferedIncrementalBase64WSDecoder.bufferDecode, if_true, List.take_length]
        cases hflush : base64WSDecode r'.decoder.buffer with
        | error e =>
          left
          rw [hflush] at hdecode
          exact ⟨e, rfl, hdecode⟩
        | ok bytes =>
          right
          rw [hflush] at hdecode
          have hnone : s.drop s.length = [] := List.drop_length
          refine ⟨bytes, _, s.length, rfl, ⟨hsound.bytebuffer_eq, ?_, Or.inr ?_, ?_, ?_, fun hne => absurd hpieces hne⟩, ?_, fun _ => ?_⟩
          · rw [hnone, InputStream.content_of_nil hpieces]
            rfl
          · rw [hnone]
            exact nofun
          · rw [hnone, hdecode, base64WSDecode_nil, hcharbuffer]
            simp only [Except.map, List.append_nil]
          · exact Nat.zero_lt_succ 3
          · rintro rfl
            rw [hdecode, Except.map, List.append_nil]
          · have hpos := List.length_pos_of_ne_nil hbuffer
            simp only [IncrementalBase64WSStreamReader.size, hcharbuffer, List.length_nil] at hle ⊢
            omega
    · right
      refine ⟨result, { r' with charbuffer }, n', ?_, hgive, fun hcontra => absurd hcontra hempty, fun _ => ?_⟩
      · rw [if_neg (fun hcontra => hempty hcontra.1), if_neg (fun hcontra => hempty hcontra.1)]
        rfl
      · have hpos := List.length_pos_of_ne_nil hempty
        have hlength := congrArg List.length hsplit
        rw [List.length_append] at hlength
        simp only [IncrementalBase64WSStreamReader.size] at hle ⊢
        omega

/-- Reading on to the end gives the rest of what the string is decoded to. -/
theorem Sound.readToEnd (haligned : Aligned s) {fuel : Nat} (h : Sound s given n r) (hfuel : r.size < fuel)
    {sizes : Nat → Option Nat × Option Nat} (hsizes : ∀ i, Positive (sizes i).1 ∧ Positive (sizes i).2) :
    ∃ rest, readToEnd fuel sizes r = some rest ∧ base64WSDecode s = rest.map (given ++ ·) := by
  induction fuel generalizing given n r sizes with
  | zero => exact absurd hfuel (Nat.not_lt_zero _)
  | succ fuel ih =>
    unfold IncrementalBase64WSStreamReader.readToEnd
    rcases h.read haligned (hsizes 0).1 (hsizes 0).2 with ⟨e, hrun, herror⟩ | ⟨result, r', n', hrun, hsound, hend, hmore⟩
    · rw [hrun]
      exact ⟨.error e, rfl, herror⟩
    · rw [hrun]
      cases result with
      | nil => exact ⟨.ok [], rfl, by rw [hend rfl, Except.map, List.append_nil]⟩
      | cons b bytes =>
        have hlt := hmore (List.cons_ne_nil b bytes)
        obtain ⟨rest, hrest, hdecode⟩ := ih hsound (by omega) fun i => hsizes (i + 1)
        refine ⟨rest.map (b :: bytes ++ ·), ?_, ?_⟩
        · dsimp only
          rw [hrest]
          rfl
        · rw [hdecode]
          cases rest with
          | error e => rfl
          | ok rest => simp only [Except.map, List.append_assoc]

/-- A new reader has given nothing yet. -/
theorem sound_new (stream : InputStream) : Sound stream.content [] 0 { stream } where
  bytebuffer_eq := rfl
  rest_eq := rfl
  cleanCut := Or.inl ⟨rfl, rfl⟩
  decode_eq := by
    rw [List.drop_zero]
    cases base64WSDecode stream.content <;> rfl
  length_lt := Nat.zero_lt_succ 3
  dvd _ := Nat.dvd_zero 4

/-- With a stream whose content is aligned, the reader gives what `Base64WSDecode` gives for the content, or raises what it raises,
however the stream is split and however much each read asks for. -/
theorem readToEnd_eq_decode (stream : InputStream) (haligned : Aligned stream.content) (sizes : Nat → Option Nat × Option Nat)
    (hsizes : ∀ i, Positive (sizes i).1 ∧ Positive (sizes i).2) (fuel : Nat) (hfuel : stream.content.length < fuel) :
    readToEnd fuel sizes { stream } = some (base64WSDecode stream.content) := by
  have hsize : IncrementalBase64WSStreamReader.size { stream } < fuel := by
    simpa [IncrementalBase64WSStreamReader.size] using hfuel
  obtain ⟨rest, hrest, hdecode⟩ := (sound_new stream).readToEnd haligned hsize hsizes
  have hsame : rest.map ([] ++ ·) = rest := by cases rest <;> rfl
  rw [hrest, hdecode, hsame]

/-- A stream of two pieces: `QUJ`, and `DREU=` with a line end behind it. -/
def twoPieces : InputStream where
  pieces := [some [81, 85, 74], some [68, 82, 69, 85, 61, 10]]
  ne_nil := by simp

theorem readToEnd_eq_decode_two_pieces :
    readToEnd 10 (fun i => (some (i + 1), some 2)) { stream := twoPieces } = some (.ok [65, 66, 67, 68, 69]) :=
  readToEnd_eq_decode twoPieces (by decide +kernel) (fun i => (some (i + 1), some 2))
    (fun i => ⟨by rintro _ ⟨⟩; exact Nat.succ_pos i, by rintro _ ⟨⟩; decide⟩) 10 (by decide)

/-- A stream of one piece: `QUJDREVG` with a space in the first group. -/
def spaceInside : InputStream where
  pieces := [some [81, 85, 32, 74, 68, 82, 69, 86, 71]]
  ne_nil := by simp

/-- `Base64WSDecode` reads `ABCDEF`, and the reader raises. -/
theorem space_inside_is_not_ignored :
    base64WSDecode spaceInside.content = .ok [65, 66, 67, 68, 69, 70] ∧
      readToEnd 10 (fun _ => (some 4096, none)) { stream := spaceInside } = some (.error .base64DecodingError) := by
  decide

end IncrementalBase64WSStreamReader

end Python
