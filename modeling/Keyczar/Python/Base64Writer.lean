import Keyczar.Python.Util

/-!
# Writing base 64 in steps

`IncrementalBase64WSStreamWriter` encodes what is written to it in groups of three bytes and keeps the rest for the next write, until it is
flushed. However a string is cut into writes, the text is that of `Base64WSEncode`.
-/

namespace Python

/-! ## The classes of `codecs` -/

/-- `codecs.BufferedIncrementalEncoder`. -/
structure BufferedIncrementalEncoder where
  buffer : Bytes := []
  deriving DecidableEq, Repr

/-- `encode`, for what the subclass returns as `_buffer_encode`: the input behind the buffer is encoded, and what was not consumed of it is
the new buffer. -/
def BufferedIncrementalEncoder.encode (bufferEncode : Bytes → Bool → Bytes × Nat) (e : BufferedIncrementalEncoder) (input : Bytes)
    (final : Bool) : Bytes × BufferedIncrementalEncoder :=
  let data := e.buffer ++ input
  let (result, consumed) := bufferEncode data final
  (result, { e with buffer := data.drop consumed })

/-! ## `BufferedIncrementalBase64WSEncoder` -/

namespace BufferedIncrementalBase64WSEncoder

/-- `_buffer_encode`. -/
def bufferEncode (input : Bytes) (final : Bool) : Bytes × Nat :=
  let lenToWrite := if final then input.length else 3 * (input.length / 3)
  (base64WSEncode (input.take lenToWrite), lenToWrite)

/-- `encode`. The second component is the length of the input without that of the new buffer. -/
def encode (e : BufferedIncrementalEncoder) (input : Bytes) (final : Bool) : (Bytes × Int) × BufferedIncrementalEncoder :=
  let (result, e) := e.encode bufferEncode input final
  ((result, input.length - e.buffer.length), e)

/-- `flush`. -/
def flush (e : BufferedIncrementalEncoder) : Bytes × BufferedIncrementalEncoder :=
  if e.buffer ≠ [] then ((bufferEncode e.buffer true).1, { e with buffer := [] }) else ([], e)

end BufferedIncrementalBase64WSEncoder

/-! ## `IncrementalBase64WSStreamWriter` -/

/-- The attributes of a writer; of its stream, the text that was written to it. -/
structure IncrementalBase64WSStreamWriter where
  stream : Bytes := []
  encoder : BufferedIncrementalEncoder := {}
  deriving DecidableEq, Repr

namespace IncrementalBase64WSStreamWriter

/-- `encode`. -/
def encode (w : IncrementalBase64WSStreamWriter) (input : Bytes) : (Bytes × Int) × IncrementalBase64WSStreamWriter :=
  let (result, encoder) := BufferedIncrementalBase64WSEncoder.encode w.encoder input false
  (result, { w with encoder })

/-- `codecs.StreamWriter.write`: the first component of what `encode` returns is written. -/
def write (w : IncrementalBase64WSStreamWriter) (object : Bytes) : IncrementalBase64WSStreamWriter :=
  let ((data, _), w) := w.encode object
  { w with stream := w.stream ++ data }

/-- `flush`. -/
def flush (w : IncrementalBase64WSStreamWriter) : IncrementalBase64WSStreamWriter :=
  let (result, encoder) := BufferedIncrementalBase64WSEncoder.flush w.encoder
  if result ≠ [] then { w with encoder, stream := w.stream ++ result } else { w with encoder }

/-- The text that is written when a string is written in pieces and then flushed so many times. -/
def textOf (pieces : List Bytes) (n : Nat) : Bytes := (flush^[n] (pieces.foldl write {})).stream

/-! ## What was written -/

/-- A writer was given `seen`: the text of its whole groups of three bytes is written, and fewer than three bytes are kept back. -/
structure Written (seen : Bytes) (w : IncrementalBase64WSStreamWriter) : Prop where
  stream_eq : w.stream = base64WSEncode (seen.take (3 * (seen.length / 3)))
  buffer_eq : w.encoder.buffer = seen.drop (3 * (seen.length / 3))

theorem written_nil : Written [] {} := ⟨rfl, rfl⟩

/-- Encoding goes on behind whole groups. -/
theorem base64WSEncode_take_append {s : Bytes} {k : Nat} (h : 3 * k ≤ s.length) (t : Bytes) :
    base64WSEncode (s.take (3 * k) ++ t) = base64WSEncode (s.take (3 * k)) ++ base64WSEncode t :=
  Base64.encode_append _ (by rw [List.length_take_of_le h, Nat.mul_mod_right]) t

/-- A write encodes the next whole groups. -/
theorem Written.write {seen : Bytes} {w : IncrementalBase64WSStreamWriter} (h : Written seen w) (object : Bytes) :
    Written (seen ++ object) (w.write object) := by
  have hle : 3 * (seen.length / 3) ≤ seen.length := Nat.mul_div_le seen.length 3
  have hdata : w.encoder.buffer ++ object = (seen ++ object).drop (3 * (seen.length / 3)) := by
    rw [h.buffer_eq, List.drop_append_of_le_length hle]
  have hwhole : 3 * (seen.length / 3) + 3 * ((w.encoder.buffer ++ object).length / 3) = 3 * ((seen ++ object).length / 3) := by
    rw [hdata, List.length_drop, List.length_append]
    omega
  have hwrite : w.write object =
      { stream := w.stream ++ base64WSEncode ((w.encoder.buffer ++ object).take (3 * ((w.encoder.buffer ++ object).length / 3)))
        encoder := { buffer := (w.encoder.buffer ++ object).drop (3 * ((w.encoder.buffer ++ object).length / 3)) } } := rfl
  rw [hwrite]
  constructor
  · dsimp only
    have htake : seen.take (3 * (seen.length / 3)) = (seen ++ object).take (3 * (seen.length / 3)) :=
      (List.take_append_of_le_length hle).symm
    rw [h.stream_eq, htake, ← base64WSEncode_take_append (by rw [List.length_append]; omega), ← hwhole, List.take_add, ← hdata]
  · dsimp only
    rw [← hwhole, ← List.drop_drop, ← hdata]

/-- Writing the pieces of a string one after another. -/
theorem Written.writes {seen : Bytes} {w : IncrementalBase64WSStreamWriter} (h : Written seen w) (pieces : List Bytes) :
    Written (seen ++ pieces.flatten) (pieces.foldl IncrementalBase64WSStreamWriter.write w) := by
  induction pieces generalizing seen w with
  | nil => simpa using h
  | cons piece pieces ih =>
    rw [List.flatten_cons, ← List.append_assoc]
    exact ih (h.write piece)

/-- A flush writes what was kept back. -/
theorem Written.flush {seen : Bytes} {w : IncrementalBase64WSStreamWriter} (h : Written seen w) :
    w.flush = { stream := base64WSEncode seen, encoder := {} } := by
  have hsplit : w.stream ++ base64WSEncode w.encoder.buffer = base64WSEncode seen := by
    rw [h.stream_eq, h.buffer_eq, ← base64WSEncode_take_append (Nat.mul_div_le seen.length 3), List.take_append_drop]
  obtain ⟨stream, ⟨buffer⟩⟩ := w
  by_cases hbuffer : buffer = []
  · subst hbuffer
    rw [← hsplit]
    exact congrArg (IncrementalBase64WSStreamWriter.mk · {}) (List.append_nil stream).symm
  · rw [IncrementalBase64WSStreamWriter.flush, BufferedIncrementalBase64WSEncoder.flush, if_pos hbuffer]
    simp only [BufferedIncrementalBase64WSEncoder.bufferEncode, if_true, List.take_length]
    split
    · rw [← hsplit]
    · rename_i hresult
      rw [← hsplit, not_not.mp hresult, List.append_nil]

/-- With nothing kept back there is nothing to flush. -/
theorem flush_empty (text : Bytes) : flush { stream := text, encoder := {} } = { stream := text, encoder := {} } := rfl

/-- A string that is written in any pieces and flushed, once or more often, is written as the text that it is encoded to at once; before
that, the text of its whole groups of three bytes is written. -/
theorem textOf_eq (pieces : List Bytes) :
    (∀ n, textOf pieces (n + 1) = base64WSEncode pieces.flatten) ∧
    textOf pieces 0 = base64WSEncode (pieces.flatten.take (3 * (pieces.flatten.length / 3))) := by
  have hwritten := written_nil.writes pieces
  rw [List.nil_append] at hwritten
  refine ⟨fun n => ?_, hwritten.stream_eq⟩
  rw [textOf, Function.iterate_succ_apply, hwritten.flush, Function.iterate_fixed (flush_empty _)]

/-- One byte that was not flushed. -/
theorem unflushed_text_is_not_all : textOf [[97]] 0 ≠ base64WSEncode [97] := by decide

/-- Seven bytes in pieces of two, none, four and one, flushed twice. -/
example : textOf [[1, 2], [], [3, 4, 5, 6], [7]] 2 = base64WSEncode [1, 2, 3, 4, 5, 6, 7] := by decide

end IncrementalBase64WSStreamWriter

end Python
