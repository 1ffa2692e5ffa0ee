import Keyczar.Python.Crypter

/-!
# The decrypting stream reader

`DecryptingStreamReader` over a stream that delivers its bytes in pieces of its own choosing. The reader collects the header and
the initial vector, then decrypts whole blocks as they come, keeping back as many bytes as may be the signature and the padding;
it checks the signature and removes the padding when its stream is exhausted.
-/

namespace Python

open Bytes

/-! ## The underlying stream -/

/-- A stream that is read in pieces: each piece is some bytes, or `None` when nothing is there yet. The end of the stream is the end
of the list. -/
structure InputStream where
  pieces : List (Option Bytes)
  ne_nil : ∀ piece, some piece ∈ pieces → piece ≠ []

namespace InputStream

/-- The bytes that are still to come. -/
def content (s : InputStream) : Bytes := (s.pieces.map (Option.getD · [])).flatten

/-- How much there is to come, in pieces and bytes. -/
def remaining (s : InputStream) : Nat := s.pieces.length + s.content.length

/-- The stream after its first piece. -/
def tail (s : InputStream) : InputStream := ⟨s.pieces.tail, fun piece h => s.ne_nil piece (List.mem_of_mem_tail h)⟩

/-- The stream with its first piece cut to what a read of `size` bytes leaves of it. -/
def cut (s : InputStream) (piece : Bytes) (size : Nat) (h : size < piece.length) : InputStream :=
  ⟨some (piece.drop size) :: s.pieces.tail, by
    intro piece' h'
    rcases List.mem_cons.mp h' with h' | h'
    · cases Option.some.inj h'
      intro hnil
      have := congrArg List.length hnil
      rw [List.length_drop, List.length_nil] at this
      omega
    · exact s.ne_nil piece' (List.mem_of_mem_tail h')⟩

/-- `read(size)`: at most `size` bytes of the next piece, the empty string at the end of the stream. -/
def read (s : InputStream) (size : Nat) : Option Bytes × InputStream :=
  match s.pieces with
  | [] => (some [], s)
  | none :: _ => (none, s.tail)
  | some piece :: _ =>
    if h : size < piece.length then (some (piece.take size), s.cut piece size h) else (some piece, s.tail)

/-- The stream says that nothing is there yet before it says that it has ended. -/
def EndsInNone (s : InputStream) : Prop := s.pieces = [] ∨ s.pieces.getLast? = some none

theorem content_of_nil {s : InputStream} (h : s.pieces = []) : s.content = [] := by
  simp [content, h]

theorem content_of_cons {s : InputStream} {piece : Option Bytes} {rest : List (Option Bytes)} (h : s.pieces = piece :: rest) :
    s.content = piece.getD [] ++ s.tail.content := by
  simp [content, tail, h]

theorem remaining_tail_lt {s : InputStream} {piece : Option Bytes} {rest : List (Option Bytes)}
    (h : s.pieces = piece :: rest) : s.tail.remaining < s.remaining := by
  have hp : s.tail.pieces = rest := by simp [tail, h]
  rw [remaining, remaining, content_of_cons h, hp, h, List.length_cons, List.length_append]
  omega

theorem endsInNone_tail {s : InputStream} (h : s.EndsInNone) : s.tail.EndsInNone := by
  show s.pieces.tail = [] ∨ s.pieces.tail.getLast? = some none
  rcases h with h | h
  · left
    rw [h]
    rfl
  · cases hp : s.pieces with
    | nil => exact Or.inl rfl
    | cons piece rest =>
      rw [hp] at h
      cases rest with
      | nil => exact Or.inl rfl
      | cons piece' rest => exact Or.inr (by simpa [List.getLast?_cons_cons] using h)

/-- A stream that ends in nothing yet has a piece left after each piece of bytes. -/
theorem tail_ne_nil_of_endsInNone {s : InputStream} {bytes : Bytes} {rest : List (Option Bytes)}
    (hp : s.pieces = some bytes :: rest) (h : s.EndsInNone) : rest ≠ [] := by
  rintro rfl
  rcases h with h | h
  · rw [hp] at h
    cases h
  · rw [hp] at h
    cases h

/-- How a read ends: at the end of the stream, with nothing yet, or with the next bytes. -/
theorem read_cases (s : InputStream) {size : Nat} (hsize : 0 < size) :
    (s.pieces = [] ∧ s.read size = (some [], s)) ∨
    (∃ s', s.pieces ≠ [] ∧ s.read size = (none, s') ∧ s.content = s'.content ∧ s'.remaining < s.remaining ∧
      (s.EndsInNone → s'.EndsInNone)) ∨
    (∃ bytes s', s.pieces ≠ [] ∧ s.read size = (some bytes, s') ∧ bytes ≠ [] ∧ bytes.length ≤ size ∧
      s.content = bytes ++ s'.content ∧ s'.remaining < s.remaining ∧ (s.EndsInNone → s'.EndsInNone ∧ s'.pieces ≠ [])) := by
  unfold read
  split
  · rename_i hp
    exact Or.inl ⟨hp, rfl⟩
  · rename_i rest hp
    refine Or.inr (Or.inl ⟨s.tail, by rw [hp]; exact nofun, rfl, ?_, remaining_tail_lt hp, endsInNone_tail⟩)
    rw [content_of_cons hp]
    rfl
  · rename_i piece rest hp
    have hne : piece ≠ [] := s.ne_nil piece (by rw [hp]; exact List.mem_cons_self ..)
    have hcontent : s.content = piece ++ s.tail.content := content_of_cons hp
    split
    · rename_i h
      have hcut : (s.cut piece size h).content = piece.drop size ++ s.tail.content :=
        content_of_cons (s := s.cut piece size h) rfl
      have hlen : (s.cut piece size h).pieces.length = s.pieces.length := by simp [cut, hp]
      refine Or.inr (Or.inr ⟨_, _, by rw [hp]; exact nofun, rfl, ?_, by simp, ?_, ?_, ?_⟩)
      · intro hnil
        have := congrArg List.length hnil
        rw [List.length_take, List.length_nil] at this
        omega
      · rw [hcut, ← List.append_assoc, List.take_append_drop, hcontent]
      · rw [remaining, remaining, hlen, hcut, hcontent, List.length_append, List.length_append, List.length_drop]
        omega
      · intro hends
        refine ⟨Or.inr ?_, nofun⟩
        show (some (piece.drop size) :: s.pieces.tail).getLast? = some none
        have hrest := tail_ne_nil_of_endsInNone hp hends
        rcases hends with hends | hends
        · rw [hp] at hends
          cases hends
        · rw [hp] at hends ⊢
          cases rest with
          | nil => exact absurd rfl hrest
          | cons p rest => simpa [List.getLast?_cons_cons] using hends
    · rename_i h
      refine Or.inr (Or.inr ⟨piece, s.tail, by rw [hp]; exact nofun, rfl, hne, by omega, hcontent, remaining_tail_lt hp, ?_⟩)
      intro hends
      refine ⟨endsInNone_tail hends, ?_⟩
      have := tail_ne_nil_of_endsInNone hp hends
      simpa [tail, hp] using this

end InputStream

/-! ## `__ReadBytes` -/

/-- The loop of `__ReadBytes`, with what was read so far: the bytes, and whether there may be more. -/
def readBytesLoop (size : Nat) (block : Bool) (result : Bytes) (s : InputStream) : (Bytes × Bool) × InputStream :=
  match h : s.read size with
  | (some [], s') => ((result, false), s')
  | (some (b :: bytes), s') =>
    if (result ++ b :: bytes).length < size then readBytesLoop size block (result ++ b :: bytes) s'
    else ((result ++ b :: bytes, true), s')
  | (none, s') =>
    if !block then ((result, true), s')
    else if result.length < size then readBytesLoop size block result s'
    else ((result, true), s')
termination_by s.remaining
decreasing_by
  · obtain rfl | hsize := Nat.eq_zero_or_pos size
    · rename_i hlt
      cases Nat.not_lt_zero _ hlt
    · rcases s.read_cases hsize with ⟨_, heq⟩ | ⟨_, _, heq, _⟩ | ⟨_, _, _, heq, _, _, _, hlt, _⟩
      · rw [heq] at h; cases h
      · rw [heq] at h; cases h
      · rw [heq] at h; cases h; exact hlt
  · rename_i hlt
    rcases s.read_cases (Nat.lt_of_le_of_lt (Nat.zero_le _) hlt) with ⟨_, heq⟩ | ⟨_, _, heq, _, hlt, _⟩ | ⟨_, _, _, heq, _⟩
    · rw [heq] at h; cases h
    · rw [heq] at h; cases h; exact hlt
    · rw [heq] at h; cases h

/-- `__ReadBytes`. -/
def readBytes (size : Nat) (block : Bool) (s : InputStream) : (Bytes × Bool) × InputStream := readBytesLoop size block [] s

/-- What `__ReadBytes` returns: the next bytes of the stream, fewer than twice the size; all that is left when there is no more. -/
structure ReadBytesSpec (size : Nat) (block : Bool) (result : Bytes) (s : InputStream) (bytes : Bytes) (more : Bool)
    (s' : InputStream) : Prop where
  content_eq : ∃ new, bytes = result ++ new ∧ s.content = new ++ s'.content
  length_lt : bytes.length < 2 * size
  remaining_lt : more = true → s'.remaining < s.remaining
  le_length : block = true → more = true → size ≤ bytes.length
  ended : more = false → s'.pieces = [] ∧ bytes.length < size
  endsInNone : s.EndsInNone → s'.EndsInNone
  bytes_eq : block = false → s.EndsInNone → more = false → s.pieces = [] ∧ bytes = result

theorem readBytesLoop_spec {size : Nat} {block : Bool} (hsize : 0 < size) (result : Bytes) (s : InputStream)
    (hr : result.length < size) :
    ReadBytesSpec size block result s (readBytesLoop size block result s).1.1 (readBytesLoop size block result s).1.2
      (readBytesLoop size block result s).2 := by
  induction hn : s.remaining using Nat.strong_induction_on generalizing s result with
  | _ n ih =>
    subst hn
    rw [readBytesLoop]
    rcases s.read_cases hsize with ⟨hp, heq⟩ | ⟨s', hp, heq, hc, hlt, hends⟩ | ⟨bytes, s', hp, heq, hne, hle, hc, hlt, hends⟩
    · rw [heq]
      have hlen : result.length < 2 * size := by omega
      exact ⟨⟨[], by simp, by simp⟩, hlen, nofun, fun _ => nofun, fun _ => ⟨hp, hr⟩, id, fun _ _ _ => ⟨hp, rfl⟩⟩
    · rw [heq]
      cases block with
      | false =>
        exact ⟨⟨[], by simp, by simpa using hc⟩, by simp; omega, fun _ => hlt, nofun, nofun, hends, fun _ _ => nofun⟩
      | true =>
        simp only [Bool.not_true, Bool.false_eq_true, if_false, if_pos hr]
        have h := ih s'.remaining hlt result s' hr rfl
        refine ⟨?_, h.length_lt, fun hm => Nat.lt_trans (h.remaining_lt hm) hlt, h.le_length, h.ended,
          fun he => h.endsInNone (hends he), nofun⟩
        obtain ⟨new, h1, h2⟩ := h.content_eq
        exact ⟨new, h1, hc.trans h2⟩
    · rw [heq]
      cases bytes with
      | nil => exact absurd rfl hne
      | cons b bytes =>
        dsimp only
        split
        · rename_i hshort
          have h := ih s'.remaining hlt (result ++ b :: bytes) s' hshort rfl
          refine ⟨?_, h.length_lt, fun hm => Nat.lt_trans (h.remaining_lt hm) hlt, h.le_length, h.ended,
            fun he => h.endsInNone (hends he).1, ?_⟩
          · obtain ⟨new, h1, h2⟩ := h.content_eq
            exact ⟨b :: bytes ++ new, by rw [h1, List.append_assoc], by rw [hc, h2, List.append_assoc]⟩
          · intro hb he hm
            exact absurd (h.bytes_eq hb (hends he).1 hm).1 (hends he).2
        · rename_i hlong
          have hlen : (result ++ b :: bytes).length < 2 * size := by
            rw [List.length_append]
            omega
          exact ⟨⟨b :: bytes, rfl, hc⟩, hlen, fun _ => hlt, fun _ _ => Nat.le_of_not_lt hlong, nofun,
            fun he => (hends he).1, fun _ _ => nofun⟩

theorem readBytes_spec (size : Nat) (block : Bool) (hsize : 0 < size) (s : InputStream) :
    ReadBytesSpec size block [] s (readBytes size block s).1.1 (readBytes size block s).1.2 (readBytes size block s).2 :=
  readBytesLoop_spec hsize [] s (by simpa using hsize)

/-- Reading what a buffer lacks of a field: the field is complete, and less is left of the stream; or the stream has ended before. -/
theorem readBytes_missing {size : Nat} {buffer : Bytes} (hlt : buffer.length < size) (s : InputStream) :
    ∃ bytes more s', readBytes (size - buffer.length) true s = ((bytes, more), s') ∧ s.content = bytes ++ s'.content ∧
      (s.EndsInNone → s'.EndsInNone) ∧ (buffer ++ bytes).length < 2 * size ∧
      ((size ≤ (buffer ++ bytes).length ∧ more = true ∧ s'.remaining < s.remaining) ∨
        ((buffer ++ bytes).length < size ∧ more = false ∧ s'.pieces = [])) := by
  have hspec := readBytes_spec (size - buffer.length) true (by omega) s
  obtain ⟨new, hnew, hc⟩ := hspec.content_eq
  rw [List.nil_append] at hnew
  rcases hread : readBytes (size - buffer.length) true s with ⟨⟨bytes, more⟩, s'⟩
  rw [hread] at hspec hnew hc
  cases hnew
  dsimp only at hspec hc
  have hlen : (buffer ++ bytes).length = buffer.length + bytes.length := List.length_append
  have hshort := hspec.length_lt
  refine ⟨bytes, more, s', rfl, hc, hspec.endsInNone, by omega, ?_⟩
  cases more with
  | true =>
    have hle := hspec.le_length rfl rfl
    exact Or.inl ⟨by omega, rfl, hspec.remaining_lt rfl⟩
  | false =>
    obtain ⟨hnil, hend⟩ := hspec.ended rfl
    exact Or.inr ⟨by omega, rfl, hnil⟩

/-- At the end of the stream nothing is read. -/
theorem readBytes_of_nil {size : Nat} {block : Bool} {s : InputStream} (h : s.pieces = []) :
    readBytes size block s = (([], false), s) := by
  have hread : s.read size = (some [], s) := by
    unfold InputStream.read
    split
    · rfl
    · rename_i hp; rw [h] at hp; cases hp
    · rename_i hp; rw [h] at hp; cases hp
  rw [readBytes, readBytesLoop, hread]

/-! ## The reader -/

/-- The attributes of a reader. -/
structure DecryptingStreamReader where
  keySet : Keyczar AesKey
  inputStream : InputStream
  bufferSize : Int
  key : Option AesKey := none
  cipher : Option AesCipher := none
  hmacStream : Option HmacKeyStream := none
  encryptedBuffer : Bytes := []
  decryptedBuffer : Bytes := []
  closed : Bool := false

namespace DecryptingStreamReader

/-- `__CreateKey`: whether there may be more data. -/
def createKey (r : DecryptingStreamReader) : Except PyError (Bool × DecryptingStreamReader) :=
  match r.key with
  | some _ => .ok (true, r)
  | none =>
    let ((bytes, isDataAvail), inputStream) := readBytes (HEADER_SIZE - r.encryptedBuffer.length) true r.inputStream
    let buffer := r.encryptedBuffer ++ bytes
    if HEADER_SIZE ≤ buffer.length then do
      let hdrBytes := sliceTo buffer HEADER_SIZE
      let key ← r.keySet.parseHeader hdrBytes
      let hmacStream := ({ hmacKey := key.hmacKey } : HmacKeyStream).update hdrBytes
      let bufferSize := if 0 ≤ r.bufferSize then AesKey.noPadBufferSize r.bufferSize else r.bufferSize
      return (isDataAvail, { r with
        inputStream, bufferSize, key := some key, hmacStream := some hmacStream
        encryptedBuffer := sliceFrom buffer HEADER_SIZE })
    else .ok (isDataAvail, { r with inputStream, encryptedBuffer := buffer })

/-- `__CreateCipher` with the reader's key. -/
def createCipher (r : DecryptingStreamReader) (key : AesKey) : Except PyError (Bool × DecryptingStreamReader) :=
  match r.cipher with
  | some _ => .ok (true, r)
  | none =>
    let ((bytes, isDataAvail), inputStream) := readBytes (AesKey.blockSize - r.encryptedBuffer.length) true r.inputStream
    let buffer := r.encryptedBuffer ++ bytes
    if AesKey.blockSize ≤ buffer.length then do
      let ivBytes := sliceTo buffer AesKey.blockSize
      let cipher ← AesCipher.new key.keyBytes ivBytes
      return (isDataAvail, { r with
        inputStream, cipher := some cipher, hmacStream := r.hmacStream.map (·.update ivBytes)
        encryptedBuffer := sliceFrom buffer AesKey.blockSize })
    else .ok (isDataAvail, { r with inputStream, encryptedBuffer := buffer })

/-- What of a buffer can be decrypted: all but the signature, and while there may be more data all but another block and what does
not fill a block. -/
def dataToDecrypt (buffer : Bytes) (isDataAvail : Bool) : Bytes :=
  let reservedDataLen := if isDataAvail then HLEN + AesKey.blockSize else HLEN
  let availableData := sliceTo buffer (-(reservedDataLen : Int))
  let noDecryptLen := if isDataAvail then availableData.length % AesKey.blockSize else 0
  if noDecryptLen ≠ 0 then sliceTo availableData (-(noDecryptLen : Int)) else availableData

/-- The loop of `read` that collects data until some of it can be decrypted or there is no more: the buffer, and whether there may be
more. -/
def collect (buffer : Bytes) (s : InputStream) : (Bytes × Bool) × InputStream :=
  match h : readBytes AesKey.blockSize false s with
  | ((bytes, isDataAvail), s') =>
    if isDataAvail = true ∧ dataToDecrypt (buffer ++ bytes) isDataAvail = [] then collect (buffer ++ bytes) s'
    else ((buffer ++ bytes, isDataAvail), s')
termination_by s.remaining
decreasing_by
  rename_i hmore
  have hspec := (readBytes_spec AesKey.blockSize false (by decide) s).remaining_lt
  rw [h] at hspec
  exact hspec hmore.1

/-- Decrypt what the loop has collected; at the end of the data check the signature and remove the padding. -/
def decryptCollected (P : Primitives) (r : DecryptingStreamReader) (cipher : AesCipher) (isDataAvail : Bool) :
    Except PyError DecryptingStreamReader := do
  let data := dataToDecrypt r.encryptedBuffer isDataAvail
  if data = [] then return r
  let hmacStream := r.hmacStream.map (·.update data)
  let buffer := sliceFrom r.encryptedBuffer data.length
  let (decryptedData, cipher) ← cipher.decrypt P data
  if isDataAvail then
    return { r with
      hmacStream, cipher := some cipher, encryptedBuffer := buffer, decryptedBuffer := r.decryptedBuffer ++ decryptedData }
  else
    if buffer.length ≠ HLEN then throw (.shortCiphertextError buffer.length)
    let currentSigBytes ← match hmacStream with
      | some hmacStream => pure (hmacStream.sign P)
      | none => throw .attributeError
    if !HmacKey.verifySignedData currentSigBytes buffer then throw .invalidSignatureError
    let decryptedData ← AesKey.unPad decryptedData
    return { r with
      hmacStream, cipher := some cipher, encryptedBuffer := [], decryptedBuffer := r.decryptedBuffer ++ decryptedData }

/-- The part of `read` that makes sure of the cipher. -/
def ensureCipher (isDataAvail : Bool) (r : DecryptingStreamReader) : Except PyError (Bool × DecryptingStreamReader) :=
  match isDataAvail, r.key, r.cipher with
  | true, some key, none => r.createCipher key
  | _, _, _ => .ok (isDataAvail, r)

/-- The part of `read` that collects and decrypts data. -/
def decryptAvailable (P : Primitives) (isDataAvail : Bool) (r : DecryptingStreamReader) :
    Except PyError (Bool × DecryptingStreamReader) :=
  match isDataAvail, r.key, r.cipher with
  | true, some _, some cipher => do
    let ((buffer, isDataAvail), inputStream) := collect r.encryptedBuffer r.inputStream
    let r ← decryptCollected P { r with inputStream, encryptedBuffer := buffer } cipher isDataAvail
    return (isDataAvail, r)
  | _, _, _ => .ok (isDataAvail, r)

/-- `read` up to where it takes its result out of the decrypted data: whether there may be more data. -/
def advance (P : Primitives) (r : DecryptingStreamReader) : Except PyError (Bool × DecryptingStreamReader) := do
  if r.closed then throw .valueError
  let (isDataAvail, r) ← if r.key.isNone then r.createKey else pure (true, r)
  let (isDataAvail, r) ← ensureCipher isDataAvail r
  decryptAvailable P isDataAvail r

/-- `read(chars)`: at most `chars` characters, all that are there when `chars` is negative; `None` when there are none yet. -/
def read (P : Primitives) (r : DecryptingStreamReader) (chars : Int) :
    Except PyError (Option Bytes × DecryptingStreamReader) := do
  let (isDataAvail, r) ← advance P r
  let result := if chars < 0 then r.decryptedBuffer else sliceTo r.decryptedBuffer chars
  let rest := if chars < 0 then [] else sliceFrom r.decryptedBuffer chars
  let r := { r with decryptedBuffer := rest }
  if result = [] ∧ isDataAvail = true then return (none, r)
  else return (some result, r)

end DecryptingStreamReader

end Python
