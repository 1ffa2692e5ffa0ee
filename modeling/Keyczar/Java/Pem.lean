import Keyczar.Java.Base64Encoding

/-!
# PEM files of the Java library

`KeyczarKey.convertDerToPem` writes a key as one padded base 64 text that is cut into lines, and `PkcsKeyReader.convertPemToDer` decodes
it line by line. Both work because sixty-four characters are whole groups: every line is the padded text of its own bytes.
-/

namespace Java

namespace Pem

open Bytes Base64Strings

/-! ## `KeyczarKey` -/

/-- `-----BEGIN `. -/
def PEM_HEADER_BEGIN : Text := [45, 45, 45, 45, 45, 66, 69, 71, 73, 78, 32]

/-- `-----END `. -/
def PEM_FOOTER_BEGIN : Text := [45, 45, 45, 45, 45, 69, 78, 68, 32]

/-- Five dashes and a line feed. -/
def PEM_LINE_ENDING : Text := [45, 45, 45, 45, 45, 10]

/-- `ENCRYPTED PRIVATE KEY`, or the name of the algorithm and ` PUBLIC KEY`. -/
def getPemType (isSecret : Bool) (algorithm : Text) : Text :=
  if isSecret then [69, 78, 67, 82, 89, 80, 84, 69, 68, 32, 80, 82, 73, 86, 65, 84, 69, 32, 75, 69, 89]
  else algorithm ++ [32, 80, 85, 66, 76, 73, 67, 32, 75, 69, 89]

/-- `substring`. -/
def substring (s : Text) (beginIndex endIndex : Int) : Except Thrown Text :=
  if beginIndex < 0 ∨ s.length < endIndex ∨ endIndex < beginIndex then .error (.runtime .indexOutOfBounds)
  else .ok ((s.take endIndex.toNat).drop beginIndex.toNat)

/-- The loop of `split` from an index on. Each pass is over one character at least. -/
def splitLoop (s : Text) (chunkSize : Nat) : Nat → Int → Except Thrown (List Text)
  | 0, _ => .ok []
  | passes + 1, i =>
    if i < s.length then do
      let chunk ← substring s i (min s.length (toInt32 (i + chunkSize)))
      let chunks ← splitLoop s chunkSize passes (toInt32 (i + chunkSize))
      return chunk :: chunks
    else .ok []

/-- `Util.split`. -/
def split (s : Text) (chunkSize : Nat) : Except Thrown (List Text) := splitLoop s chunkSize s.length 0

/-- `append`, of several strings in turn, to a `StringBuffer`. -/
def append (result : Text) (strings : List Text) : Except Thrown Text := strings.foldlM concat result

/-- `convertDerToPem`, with what `getPemType` returns. -/
def convertDerToPem (pemType : Text) (keyData : Bytes) : Except Thrown Text := do
  let base64Key ← encodeMime keyData true
  let result ← append [] [PEM_HEADER_BEGIN, pemType, PEM_LINE_ENDING]
  let lines ← split base64Key 64
  let result ← lines.foldlM (fun result line => append result [line, [10]]) result
  append result [PEM_FOOTER_BEGIN, pemType, PEM_LINE_ENDING]

/-! ## `PkcsKeyReader` -/

/-- What reading throws: `invalidPemFile` and the exception of the decoder are `KeyczarException`s. -/
inductive PemException where
  | invalidPemFile
  | nullPointer
  | thrown (e : Thrown)
  deriving DecidableEq, Repr

/-- A capital letter or a blank. -/
def isTypeChar (c : UInt16) : Bool := (65 ≤ c && c ≤ 90) || c = 32

/-- `matches`, of a pattern that is some text, a group of capital letters and blanks, and five dashes: the group. -/
def matchGroup (start line : Text) : Option Text :=
  if start <+: line then
    let group := (line.drop start.length).takeWhile isTypeChar
    if group ≠ [] ∧ (line.drop start.length).dropWhile isTypeChar = [45, 45, 45, 45, 45] then some group else none
  else none

/-- `readLine`: the characters up to a line feed, a carriage return or both, and what follows. -/
def readLine (s : Text) : Option (Text × Text) :=
  if s = [] then none
  else
    let line := s.takeWhile fun c => c ≠ 10 ∧ c ≠ 13
    match s.dropWhile fun c => c ≠ 10 ∧ c ≠ 13 with
    | [] => some (line, [])
    | c :: rest => if c = 13 ∧ rest.head? = some 10 then some (line, rest.tail) else some (line, rest)

/-- A line is not empty with its end. -/
theorem length_of_readLine {s line rest : Text} (h : readLine s = some (line, rest)) : rest.length < s.length := by
  unfold readLine at h
  split at h
  · cases h
  · rename_i hne
    have hpos := List.length_pos_iff.mpr hne
    have hle := (List.dropWhile_suffix (l := s) fun c => decide (c ≠ 10 ∧ c ≠ 13)).length_le
    dsimp only at h
    split at h
    · cases h
      exact hpos
    · rename_i hdrop
      rw [hdrop, List.length_cons] at hle
      split at h
      · cases h
        rw [List.length_tail]
        omega
      · cases h
        omega

/-- `decodeBase64`. -/
def decodeBase64 (inputStream expectedFooter : Text) (tempStream : Bytes) : Except PemException Bytes :=
  match _hread : readLine inputStream with
  | none => .error .invalidPemFile
  | some (line, rest) =>
    match matchGroup PEM_FOOTER_BEGIN line with
    | none =>
      match decodeMime line with
      | .error e => .error (.thrown e)
      | .ok bytes => decodeBase64 rest expectedFooter (tempStream ++ bytes)
    | some footer => if footer = expectedFooter then .ok tempStream else .error .invalidPemFile
  termination_by inputStream.length
  decreasing_by exact length_of_readLine _hread

/-- `convertPemToDer`, with the decoder of the default charset. -/
def convertPemToDer (charset : Bytes → Text) (data : Bytes) : Except PemException Bytes :=
  match readLine (charset data) with
  | none => .error .nullPointer
  | some (firstLine, bis) =>
    match matchGroup PEM_HEADER_BEGIN firstLine with
    | none => .ok data
    | some header => decodeBase64 bis header []

/-! ## Padded texts -/

/-- The padded text of bytes. -/
def padded (b : Bytes) : Text := mimeText b ++ padding (mimeText b).length

theorem length_padded (b : Bytes) : (padded b).length = (b.length + 2) / 3 * 4 := by
  have hone : (b.length * 4 + 2) / 3 % 4 ≠ 1 := by omega
  have hlength : (b.length * 4 + 2) / 3 ≤ (b.length + 2) / 3 * 4 := by omega
  have hlength' : (b.length + 2) / 3 * 4 < (b.length * 4 + 2) / 3 + 3 := by omega
  rw [padded, List.length_append, length_mimeText]
  unfold padding
  split
  · simp only [List.length_cons, List.length_nil]
    omega
  · split <;> simp only [List.length_cons, List.length_nil] <;> omega

theorem padded_eq_mimeText {b : Bytes} (h : b.length % 3 = 0) : padded b = mimeText b := by
  have hpadding : padding (mimeText b).length = [] := by
    rw [length_mimeText, padding, if_neg (by omega), if_neg (by omega)]
  rw [padded, hpadding, List.append_nil]

/-- Behind whole groups of three bytes the text starts again. -/
theorem padded_append {a : Bytes} (h : a.length % 3 = 0) (b : Bytes) : padded (a ++ b) = padded a ++ padded b := by
  have htext : mimeText (a ++ b) = mimeText a ++ mimeText b := by
    simp only [mimeText_eq_map, text, Base64.encode_append Base64.webSafe h, List.map_append]
  have hpadding : padding (mimeText (a ++ b)).length = padding (mimeText b).length := by
    have hlength := length_mimeText a
    have hmod : (mimeText (a ++ b)).length % 4 = (mimeText b).length % 4 := by
      rw [htext, List.length_append]
      omega
    rw [padding, padding, hmod]
  rw [padded_eq_mimeText h, padded, hpadding, htext, List.append_assoc, padded]

/-- The first sixty-four characters are the text of the first forty-eight bytes, and the others are the text of the others. -/
theorem padded_cut (b : Bytes) : (padded b).take 64 = padded (b.take 48) ∧ (padded b).drop 64 = padded (b.drop 48) := by
  rcases Nat.le_total b.length 48 with hshort | hlong
  · have hlength : (padded b).length ≤ 64 := by
      rw [length_padded]
      omega
    rw [List.take_of_length_le hlength, List.take_of_length_le hshort, List.drop_of_length_le hlength, List.drop_of_length_le hshort]
    exact ⟨rfl, rfl⟩
  · have htake : (b.take 48).length = 48 := List.length_take_of_le hlong
    have hsplit := padded_append (a := b.take 48) (by rw [htake]) (b.drop 48)
    have hlength : (padded (b.take 48)).length = 64 := by rw [length_padded, htake]
    rw [List.take_append_drop] at hsplit
    rw [hsplit, List.take_left' hlength, List.drop_left' hlength]
    exact ⟨rfl, rfl⟩

/-- What is in a padded text. -/
theorem mem_padded {b : Bytes} {c : UInt16} (h : c ∈ padded b) : c ≤ 127 ∧ isBlank c = false ∧ c ≠ 45 := by
  have hall : ∀ i < 64, otherChar (ofByte (Base64.webSafe.toChar i)) ≤ 127 ∧
      isBlank (otherChar (ofByte (Base64.webSafe.toChar i))) = false ∧ otherChar (ofByte (Base64.webSafe.toChar i)) ≠ 45 := by decide
  rcases List.mem_append.mp h with htext | hpadding
  · obtain ⟨i, hi, rfl⟩ := mem_mimeText htext
    exact hall i hi
  · obtain ⟨k, -, hk⟩ := padding_cases (mimeText b).length
    rw [hk] at hpadding
    rw [List.eq_of_mem_replicate hpadding]
    decide

/-- The padded text of bytes is decoded to them. -/
theorem decodeMime_padded {b : Bytes} (hb : b ≠ []) : decodeMime (padded b) = .ok b := by
  obtain ⟨hpad, htext⟩ := Coder.mimeText_spec b
  obtain ⟨k, -, hk⟩ := padding_cases (mimeText b).length
  have hunpadded : unpadded (padded b) = mimeText b := by rw [padded, hk, unpadded_append hpad]
  have hdata : data (padded b) = padded b := by
    refine List.filter_eq_self.mpr fun c hc => ?_
    rw [(mem_padded hc).2.1]
    rfl
  have hspaced : Spaced (padded b) (padded b) := by
    right
    rw [hdata, hunpadded, padded]
  refine (Coder.mime.decode_spaced (by rw [hunpadded, htext]) hspaced).mpr ⟨?_, ?_⟩
  · intro hnil
    have hlength := length_padded b
    have hpos := List.length_pos_iff.mpr hb
    rw [hnil, List.length_nil] at hlength
    omega
  · rintro ⟨c, hc, hblank⟩
    rw [(mem_padded (List.dropWhile_subset _ hc)).2.1] at hblank
    cases hblank

/-! ## Lines -/

theorem toInt32_of_natCast {n : Nat} (h : n < 2 ^ 32) : toInt32 n = n ∧ n < 2 ^ 31 ∨ toInt32 n < 0 ∧ 2 ^ 31 ≤ n := by
  rcases Nat.lt_or_ge n (2 ^ 31) with hlt | hge
  · exact Or.inl ⟨toInt32_of_lt hlt, hlt⟩
  · exact Or.inr ⟨toInt32_neg hge h, hge⟩

/-- A pass of the loop takes the next sixty-four characters; near the greatest index it throws. -/
theorem splitLoop_succ {s : Text} (passes : Nat) {i : Nat} (hi : i < s.length) (hs : s.length < 2 ^ 31) :
    (i + 64 < 2 ^ 31 ∧ splitLoop s 64 (passes + 1) i =
      (splitLoop s 64 passes ((i + 64 : Nat) : Int) >>= fun chunks => .ok ((s.drop i).take 64 :: chunks))) ∨
    (2 ^ 31 ≤ i + 64 ∧ splitLoop s 64 (passes + 1) i = .error (.runtime .indexOutOfBounds)) := by
  have hsum : (i : Int) + (64 : Nat) = ((i + 64 : Nat) : Int) := by omega
  rw [splitLoop, if_pos (by omega), hsum]
  rcases toInt32_of_natCast (n := i + 64) (by omega) with ⟨hint, hlt⟩ | ⟨hneg, hge⟩
  · left
    refine ⟨hlt, ?_⟩
    have hchunk : substring s i (min s.length ((i + 64 : Nat) : Int)) = .ok ((s.drop i).take 64) := by
      have hend : (min (s.length : Int) ((i + 64 : Nat) : Int)).toNat = min s.length (i + 64) := by omega
      rw [substring, if_neg (by omega), hend, Int.toNat_natCast, List.drop_take]
      refine congrArg Except.ok (List.take_eq_take_iff.mpr ?_)
      rw [List.length_drop]
      omega
    rw [hint, hchunk, Throwing.ok_bind]
    rfl
  · right
    refine ⟨hge, ?_⟩
    rw [substring, if_pos (by omega)]
    rfl

/-- No bytes are left where the text ends. -/
theorem eq_nil_of_end {s : Text} {i : Nat} {der : Bytes} (hdrop : s.drop i = padded der) (hend : s.length ≤ i) : der = [] := by
  have hlength := congrArg List.length hdrop
  rw [List.length_drop, length_padded] at hlength
  exact List.eq_nil_of_length_eq_zero (by omega)

/-- The lines of a padded text are the padded texts of blocks of up to forty-eight bytes. -/
theorem splitLoop_padded {s : Text} (hs : s.length < 2 ^ 31) {passes i : Nat} {der : Bytes} (hdrop : s.drop i = padded der)
    (hpasses : s.length ≤ i + passes) {lines : List Text} (h : splitLoop s 64 passes i = .ok lines) :
    ∃ blocks : List Bytes, blocks.flatten = der ∧ (∀ b ∈ blocks, b ≠ []) ∧ blocks.length = (der.length + 47) / 48 ∧
      lines = blocks.map padded ∧ lines.flatten = padded der := by
  induction passes generalizing i der lines with
  | zero =>
    cases h
    obtain rfl := eq_nil_of_end hdrop hpasses
    exact ⟨[], rfl, by simp, rfl, rfl, rfl⟩
  | succ passes ih =>
    rcases Nat.lt_or_ge i s.length with hi | hend
    · rcases splitLoop_succ passes hi hs with ⟨-, hloop⟩ | ⟨-, hloop⟩
      · rw [hloop] at h
        obtain ⟨chunks, hchunks, hlines⟩ := Throwing.ok_of_bind h
        cases hlines
        have hlength := congrArg List.length hdrop
        rw [List.length_drop, length_padded] at hlength
        obtain ⟨hcut, hcut'⟩ := padded_cut der
        obtain ⟨blocks, hflatten, hne, hcount, rfl, htext⟩ := ih (by rw [← List.drop_drop, hdrop, hcut']) (by omega) hchunks
        refine ⟨der.take 48 :: blocks, ?_, ?_, ?_, ?_, ?_⟩
        · rw [List.flatten_cons, hflatten, List.take_append_drop]
        · refine List.forall_mem_cons.mpr ⟨fun hnil => ?_, hne⟩
          have htake := congrArg List.length hnil
          rw [List.length_take, List.length_nil] at htake
          omega
        · rw [List.length_cons, hcount, List.length_drop]
          omega
        · rw [hdrop, hcut, List.map_cons]
        · rw [List.flatten_cons, htext, hdrop, ← hcut', List.take_append_drop]
      · rw [hloop] at h
        cases h
    · rw [splitLoop, if_neg (by omega)] at h
      cases h
      obtain rfl := eq_nil_of_end hdrop hend
      exact ⟨[], rfl, by simp, rfl, rfl, rfl⟩

/-- Below the greatest indices nothing is thrown. -/
theorem splitLoop_of_lt {s : Text} (hs : s.length + 64 < 2 ^ 31) (passes i : Nat) : ∃ lines, splitLoop s 64 passes i = .ok lines := by
  induction passes generalizing i with
  | zero => exact ⟨[], rfl⟩
  | succ passes ih =>
    rcases Nat.lt_or_ge i s.length with hi | hend
    · rcases splitLoop_succ passes hi (by omega) with ⟨-, hloop⟩ | ⟨hge, -⟩
      · obtain ⟨chunks, hchunks⟩ := ih (i + 64)
        exact ⟨_, by rw [hloop, hchunks]; rfl⟩
      · omega
    · exact ⟨[], by rw [splitLoop, if_neg (by omega)]⟩

/-! ## The text of a key -/

theorem append_eq_ok_iff {result text : Text} {strings : List Text} (hresult : result.length < 2 ^ 31) :
    append result strings = .ok text ↔ text = result ++ strings.flatten ∧ text.length < 2 ^ 31 := by
  induction strings generalizing result with
  | nil =>
    rw [List.flatten_nil, List.append_nil]
    constructor
    · intro h
      cases h
      exact ⟨rfl, hresult⟩
    · rintro ⟨rfl, -⟩
      rfl
  | cons s strings ih =>
    rw [append, List.foldlM_cons, concat, List.flatten_cons]
    split
    · rename_i hlt
      rw [Throwing.ok_bind, ← List.append_assoc]
      exact ih (by rw [List.length_append]; exact hlt)
    · rename_i hge
      constructor
      · intro h
        cases h
      · rintro ⟨rfl, hlt⟩
        simp only [List.length_append] at hlt
        omega

theorem append_append (result : Text) (strings strings' : List Text) :
    append result (strings ++ strings') = append result strings >>= fun result => append result strings' := List.foldlM_append

theorem appendLines_eq (result : Text) (lines : List Text) :
    lines.foldlM (fun result line => append result [line, [10]]) result = append result (lines.flatMap fun line => [line, [10]]) := by
  induction lines generalizing result with
  | nil => rfl
  | cons line lines ih =>
    rw [List.foldlM_cons, List.flatMap_cons, append_append]
    exact congrArg _ (funext ih)

/-- Lines with a line feed behind each. -/
def ended (lines : List Text) : Text := (lines.flatMap fun line => [line, [10]]).flatten

@[simp] theorem ended_nil : ended [] = [] := rfl

@[simp] theorem ended_cons (line : Text) (lines : List Text) : ended (line :: lines) = line ++ 10 :: ended lines := by simp [ended]

/-- The text of a key, with its lines. -/
def pemText (pemType : Text) (lines : List Text) : Text :=
  PEM_HEADER_BEGIN ++ pemType ++ PEM_LINE_ENDING ++ ended lines ++ PEM_FOOTER_BEGIN ++ pemType ++ PEM_LINE_ENDING

/-- The text, when its base 64 text and its lines are there, as far as the length of a string goes. -/
theorem convertDerToPem_eq_ok_iff {pemType text base64Key : Text} {der : Bytes} {lines : List Text}
    (hencode : encodeMime der true = .ok base64Key) (hlines : split base64Key 64 = .ok lines) :
    convertDerToPem pemType der = .ok text ↔ text = pemText pemType lines ∧ text.length < 2 ^ 31 := by
  have hall : convertDerToPem pemType der =
      append [] ([PEM_HEADER_BEGIN, pemType, PEM_LINE_ENDING] ++ (lines.flatMap fun line => [line, [10]]) ++
        [PEM_FOOTER_BEGIN, pemType, PEM_LINE_ENDING]) := by
    simp only [convertDerToPem, hencode, hlines, Throwing.ok_bind, appendLines_eq, append_append, bind_assoc]
  have hflatten : [] ++ ([PEM_HEADER_BEGIN, pemType, PEM_LINE_ENDING] ++ (lines.flatMap fun line => [line, [10]]) ++
      [PEM_FOOTER_BEGIN, pemType, PEM_LINE_ENDING]).flatten = pemText pemType lines := by
    simp [pemText, ended]
  rw [hall, append_eq_ok_iff (by decide), hflatten]

/-- The length of the text of a key. -/
def pemLength (pemType : Text) (n : Nat) : Nat := 2 * pemType.length + 32 + (n + 2) / 3 * 4 + (n + 47) / 48

theorem length_ended (blocks : List Bytes) :
    (ended (blocks.map padded)).length = ((blocks.map padded).flatten).length + blocks.length := by
  induction blocks with
  | nil => rfl
  | cons b blocks ih =>
    simp only [List.map_cons, ended_cons, List.length_append, List.length_cons, ih, List.flatten_cons]
    omega

/-- The base 64 text is padded, as far as the length of a string goes. -/
theorem encodeMime_eq_ok_iff {der : Bytes} (hder : der.length < 2 ^ 31) {base64Key : Text} :
    encodeMime der true = .ok base64Key ↔ base64Key = padded der ∧ (padded der).length < 2 ^ 31 := by
  rcases Nat.lt_or_ge der.length (3 * 2 ^ 29) with hlt | hge
  · rw [encodeMime_of_lt hlt, concat, padded, List.length_append]
    split
    · rename_i hfits
      constructor
      · intro h
        cases h
        exact ⟨rfl, hfits⟩
      · rintro ⟨rfl, -⟩
        rfl
    · rename_i hlong
      constructor
      · intro h
        cases h
      · intro h
        exact absurd h.2 hlong
  · rw [encodeMime_of_ge hge hder, length_padded]
    constructor
    · intro h
      cases h
    · intro h
      omega

/-- What is exported: the lines are the padded texts of the blocks of the key. -/
theorem lines_of_convertDerToPem {pemType text : Text} {der : Bytes} (hder : der.length < 2 ^ 31)
    (h : convertDerToPem pemType der = .ok text) :
    pemLength pemType der.length < 2 ^ 31 ∧
    ∃ blocks : List Bytes, blocks.flatten = der ∧ (∀ b ∈ blocks, b ≠ []) ∧ text = pemText pemType (blocks.map padded) := by
  obtain ⟨base64Key, hencode, hrest⟩ := Throwing.ok_of_bind h
  obtain ⟨_, _, hrest⟩ := Throwing.ok_of_bind hrest
  obtain ⟨lines, hlines, _⟩ := Throwing.ok_of_bind hrest
  obtain ⟨htext, hlength⟩ := (convertDerToPem_eq_ok_iff hencode hlines).mp h
  obtain ⟨rfl, hfits⟩ := (encodeMime_eq_ok_iff hder).mp hencode
  obtain ⟨blocks, hflatten, hne, hcount, rfl, hlinesText⟩ := splitLoop_padded hfits (i := 0) rfl (by omega) hlines
  refine ⟨?_, blocks, hflatten, hne, htext⟩
  have hended := length_ended blocks
  rw [hlinesText, length_padded, hcount] at hended
  rw [htext, pemText] at hlength
  simp only [List.length_append, hended, PEM_HEADER_BEGIN, PEM_FOOTER_BEGIN, PEM_LINE_ENDING, List.length_cons, List.length_nil]
    at hlength
  rw [pemLength]
  omega

/-- A key is exported when its text is not too long for a string. -/
theorem convertDerToPem_of_lt {pemType : Text} {der : Bytes} (hder : der.length < 2 ^ 31) (h : pemLength pemType der.length < 2 ^ 31) :
    ∃ text, convertDerToPem pemType der = .ok text := by
  have hlength := length_padded der
  have hroom : (padded der).length + 64 < 2 ^ 31 := by
    rw [pemLength] at h
    omega
  have hfits : (padded der).length < 2 ^ 31 := by omega
  have hencode : encodeMime der true = .ok (padded der) := (encodeMime_eq_ok_iff hder).mpr ⟨rfl, hfits⟩
  obtain ⟨lines, hlines⟩ := splitLoop_of_lt hroom (padded der).length 0
  obtain ⟨blocks, -, -, hcount, rfl, hlinesText⟩ := splitLoop_padded hfits (i := 0) rfl (by omega) hlines
  refine ⟨_, (convertDerToPem_eq_ok_iff hencode hlines).mpr ⟨rfl, ?_⟩⟩
  have hended := length_ended blocks
  rw [hlinesText, length_padded, hcount] at hended
  rw [pemText]
  simp only [List.length_append, hended, PEM_HEADER_BEGIN, PEM_FOOTER_BEGIN, PEM_LINE_ENDING, List.length_cons, List.length_nil]
  rw [pemLength] at h
  omega

/-! ## Reading it -/

/-- Up to the line feed. -/
theorem readLine_append {line : Text} (h : ∀ c ∈ line, c ≠ 10 ∧ c ≠ 13) (rest : Text) : readLine (line ++ 10 :: rest) = some (line, rest) := by
  have hline : ∀ c ∈ line, (decide (c ≠ 10 ∧ c ≠ 13)) = true := fun c hc => decide_eq_true (h c hc)
  rw [readLine, if_neg (by simp), List.takeWhile_append_of_pos hline, List.dropWhile_append_of_pos hline]
  simp

theorem matchGroup_of_not_mem {start line : Text} (hstart : 45 ∈ start) (hline : 45 ∉ line) : matchGroup start line = none := by
  refine if_neg fun h => ?_
  exact hline (h.subset hstart)

/-- A PEM type: capital letters and blanks. -/
def PemType (pemType : Text) : Prop := pemType ≠ [] ∧ ∀ c ∈ pemType, isTypeChar c = true

theorem matchGroup_append (start : Text) {pemType : Text} (h : PemType pemType) :
    matchGroup start (start ++ pemType ++ [45, 45, 45, 45, 45]) = some pemType := by
  have htake : (pemType ++ [45, 45, 45, 45, 45]).takeWhile isTypeChar = pemType := by
    rw [List.takeWhile_append_of_pos h.2]
    simp [isTypeChar]
  have hdrop : (pemType ++ [45, 45, 45, 45, 45]).dropWhile isTypeChar = [45, 45, 45, 45, 45] := by
    rw [List.dropWhile_append_of_pos h.2]
    decide
  rw [List.append_assoc, matchGroup, if_pos (List.prefix_append _ _), List.drop_left, htake, hdrop, if_pos ⟨h.1, rfl⟩]

/-- A turn of the loop. -/
theorem decodeBase64_of_readLine {s line rest : Text} (hread : readLine s = some (line, rest)) (expectedFooter : Text)
    (tempStream : Bytes) :
    decodeBase64 s expectedFooter tempStream =
      match matchGroup PEM_FOOTER_BEGIN line with
      | none =>
        match decodeMime line with
        | .error e => .error (.thrown e)
        | .ok bytes => decodeBase64 rest expectedFooter (tempStream ++ bytes)
      | some footer => if footer = expectedFooter then .ok tempStream else .error .invalidPemFile := by
  rw [decodeBase64]
  split
  · rename_i hnone
    rw [hread] at hnone
    cases hnone
  · rename_i line' rest' hsome
    rw [hread] at hsome
    cases hsome
    rfl

/-- A line that is no footer is decoded, and written behind what was decoded. -/
theorem decodeBase64_of_body {s line rest expectedFooter : Text} {tempStream bytes : Bytes} (hread : readLine s = some (line, rest))
    (hfooter : matchGroup PEM_FOOTER_BEGIN line = none) (hdecode : decodeMime line = .ok bytes) :
    decodeBase64 s expectedFooter tempStream = decodeBase64 rest expectedFooter (tempStream ++ bytes) := by
  rw [decodeBase64_of_readLine hread, hfooter]
  dsimp only
  rw [hdecode]

/-- The expected footer ends the loop. -/
theorem decodeBase64_of_footer {s line rest expectedFooter : Text} {tempStream : Bytes} (hread : readLine s = some (line, rest))
    (hfooter : matchGroup PEM_FOOTER_BEGIN line = some expectedFooter) : decodeBase64 s expectedFooter tempStream = .ok tempStream := by
  rw [decodeBase64_of_readLine hread, hfooter]
  exact if_pos rfl

/-- No line of a text with no line ends in it is cut. -/
theorem lineEnd_not_mem {start pemType : Text} (hstart : ∀ c ∈ start, c ≠ 10 ∧ c ≠ 13) (h : PemType pemType) :
    ∀ c ∈ start ++ pemType ++ [45, 45, 45, 45, 45], c ≠ 10 ∧ c ≠ 13 := by
  intro c hc
  rw [List.append_assoc, List.mem_append, List.mem_append] at hc
  rcases hc with hc | hc | hc
  · exact hstart c hc
  · have htype := h.2 c hc
    constructor
    · rintro rfl
      cases htype
    · rintro rfl
      cases htype
  · have hdashes : ∀ c ∈ ([45, 45, 45, 45, 45] : Text), c ≠ 10 ∧ c ≠ 13 := by simp
    exact hdashes c hc

theorem lineEnd_not_mem_padded {b : Bytes} : ∀ c ∈ padded b, c ≠ 10 ∧ c ≠ 13 := by
  intro c hc
  have hblank := (mem_padded hc).2.1
  constructor
  · rintro rfl
    cases hblank
  · rintro rfl
    cases hblank

/-- The body is decoded block by block, and the footer ends it. -/
theorem decodeBase64_lines {pemType : Text} (h : PemType pemType) {blocks : List Bytes} (hblocks : ∀ b ∈ blocks, b ≠ [])
    (tempStream : Bytes) :
    decodeBase64 (ended (blocks.map padded) ++ (PEM_FOOTER_BEGIN ++ pemType ++ PEM_LINE_ENDING)) pemType tempStream =
      .ok (tempStream ++ blocks.flatten) := by
  induction blocks generalizing tempStream with
  | nil =>
    have hline : PEM_FOOTER_BEGIN ++ pemType ++ PEM_LINE_ENDING = (PEM_FOOTER_BEGIN ++ pemType ++ [45, 45, 45, 45, 45]) ++ 10 :: [] := by
      simp [PEM_LINE_ENDING]
    rw [List.map_nil, ended_nil, List.nil_append, List.flatten_nil, List.append_nil, hline]
    exact decodeBase64_of_footer (readLine_append (lineEnd_not_mem (by simp [PEM_FOOTER_BEGIN]) h) []) (matchGroup_append _ h)
  | cons b blocks ih =>
    have hfooter : matchGroup PEM_FOOTER_BEGIN (padded b) = none :=
      matchGroup_of_not_mem (by decide) fun hmem => (mem_padded hmem).2.2 rfl
    rw [List.map_cons, ended_cons, List.append_assoc, List.cons_append,
      decodeBase64_of_body (readLine_append lineEnd_not_mem_padded _) hfooter (decodeMime_padded (hblocks b List.mem_cons_self)),
      ih (fun c hc => hblocks c (List.mem_cons_of_mem b hc)), List.flatten_cons, List.append_assoc]

/-- What a charset makes of ASCII. -/
def Ascii (charset : Bytes → Text) : Prop := ∀ s : Bytes, (∀ c ∈ s, c ≤ 127) → charset s = s.map ofByte

/-- The bytes of a text of ASCII. -/
def toBytes (text : Text) : Bytes := text.map UInt16.toUInt8

theorem charset_toBytes {charset : Bytes → Text} (hcharset : Ascii charset) {text : Text} (h : ∀ c ∈ text, c ≤ 127) :
    charset (toBytes text) = text := by
  have hback : ∀ c ∈ text, ofByte c.toUInt8 = c := by
    intro c hc
    refine forall_of_le (P := fun c => ofByte c.toUInt8 = c) ?_ (h c hc)
    decide
  have hle : ∀ c ∈ toBytes text, c ≤ 127 := by
    intro c hc
    obtain ⟨d, hd, rfl⟩ := List.mem_map.mp hc
    rw [← ofByte_le_iff, hback d hd]
    exact h d hd
  rw [hcharset _ hle, toBytes, List.map_map]
  exact (List.map_congr_left hback).trans (List.map_id _)

theorem le_of_isTypeChar {c : UInt16} (h : isTypeChar c = true) : c ≤ 127 := by
  simp only [isTypeChar, Bool.or_eq_true, Bool.and_eq_true, decide_eq_true_eq] at h
  rcases h with ⟨-, hle⟩ | rfl
  · exact UInt16.le_trans hle (by decide)
  · decide

theorem mem_ended {blocks : List Bytes} {c : UInt16} (h : c ∈ ended (blocks.map padded)) : c = 10 ∨ ∃ b, c ∈ padded b := by
  induction blocks with
  | nil => cases h
  | cons b blocks ih =>
    rw [List.map_cons, ended_cons, List.mem_append, List.mem_cons] at h
    rcases h with h | h | h
    · exact Or.inr ⟨b, h⟩
    · exact Or.inl h
    · exact ih h

theorem le_of_mem_pemText {pemType : Text} (h : PemType pemType) (blocks : List Bytes) :
    ∀ c ∈ pemText pemType (blocks.map padded), c ≤ 127 := by
  have hheader : ∀ c ∈ PEM_HEADER_BEGIN, c ≤ 127 := by simp [PEM_HEADER_BEGIN]
  have hfooter : ∀ c ∈ PEM_FOOTER_BEGIN, c ≤ 127 := by simp [PEM_FOOTER_BEGIN]
  have hending : ∀ c ∈ PEM_LINE_ENDING, c ≤ 127 := by simp [PEM_LINE_ENDING]
  have htype : ∀ c ∈ pemType, c ≤ 127 := fun c hc => le_of_isTypeChar (h.2 c hc)
  intro c hc
  simp only [pemText, List.mem_append] at hc
  rcases hc with (((((hc | hc) | hc) | hc) | hc) | hc) | hc
  · exact hheader c hc
  · exact htype c hc
  · exact hending c hc
  · rcases mem_ended hc with rfl | ⟨b, hb⟩
    · decide
    · exact (mem_padded hb).1
  · exact hfooter c hc
  · exact htype c hc
  · exact hending c hc

/-- The types of the library are PEM types: the one of secret keys, and those of algorithms with a name of capital letters. -/
theorem pemType_getPemType {isSecret : Bool} {algorithm : Text} (h : isSecret = false → ∀ c ∈ algorithm, isTypeChar c = true) :
    PemType (getPemType isSecret algorithm) := by
  cases isSecret with
  | true =>
    refine ⟨List.cons_ne_nil _ _, ?_⟩
    show ∀ c ∈ ([69, 78, 67, 82, 89, 80, 84, 69, 68, 32, 80, 82, 73, 86, 65, 84, 69, 32, 75, 69, 89] : Text), isTypeChar c = true
    simp [isTypeChar]
  | false =>
    have hend : ∀ c ∈ ([32, 80, 85, 66, 76, 73, 67, 32, 75, 69, 89] : Text), isTypeChar c = true := by simp [isTypeChar]
    refine ⟨List.append_ne_nil_of_right_ne_nil _ (by decide), fun c hc => ?_⟩
    rcases List.mem_append.mp hc with hc | hc
    · exact h rfl c hc
    · exact hend c hc

/-- What is exported is imported again: a key is exported exactly when its text is not too long for a string, and reading the text gives
the key back. -/
theorem convertPemToDer_convertDerToPem {charset : Bytes → Text} (hcharset : Ascii charset) {pemType : Text} (htype : PemType pemType)
    {der : Bytes} (hder : der.length < 2 ^ 31) :
    ((∃ text, convertDerToPem pemType der = .ok text) ↔ pemLength pemType der.length < 2 ^ 31) ∧
    ∀ text, convertDerToPem pemType der = .ok text → convertPemToDer charset (toBytes text) = .ok der := by
  refine ⟨⟨?_, convertDerToPem_of_lt hder⟩, ?_⟩
  · rintro ⟨text, h⟩
    exact (lines_of_convertDerToPem hder h).1
  · intro text h
    obtain ⟨-, blocks, rfl, hblocks, rfl⟩ := lines_of_convertDerToPem hder h
    have hline : pemText pemType (blocks.map padded) = (PEM_HEADER_BEGIN ++ pemType ++ [45, 45, 45, 45, 45]) ++
        10 :: (ended (blocks.map padded) ++ (PEM_FOOTER_BEGIN ++ pemType ++ PEM_LINE_ENDING)) := by
      simp [pemText, PEM_LINE_ENDING]
    have hread := readLine_append (lineEnd_not_mem (show ∀ c ∈ PEM_HEADER_BEGIN, c ≠ 10 ∧ c ≠ 13 by simp [PEM_HEADER_BEGIN]) htype)
      (ended (blocks.map padded) ++ (PEM_FOOTER_BEGIN ++ pemType ++ PEM_LINE_ENDING))
    unfold convertPemToDer
    rw [charset_toBytes hcharset (le_of_mem_pemText htype blocks), hline, hread]
    dsimp only
    rw [matchGroup_append _ htype]
    exact decodeBase64_lines htype hblocks []

/-- The public key of one byte of an algorithm named `RSA`. -/
theorem convertPemToDer_convertDerToPem_one :
    ∃ text, convertDerToPem (getPemType false [82, 83, 65]) [7] = .ok text ∧ convertPemToDer (List.map ofByte) (toBytes text) = .ok [7] := by
  have hascii : Ascii (List.map ofByte) := fun _ _ => rfl
  have htype : PemType (getPemType false [82, 83, 65]) := pemType_getPemType fun _ => by simp [isTypeChar]
  obtain ⟨hiff, hread⟩ := convertPemToDer_convertDerToPem hascii htype (show ([7] : Bytes).length < 2 ^ 31 by decide)
  obtain ⟨text, htext⟩ := hiff.mpr (by decide)
  exact ⟨text, htext, hread text htext⟩

end Pem

end Java
