import Keyczar.Lib.Bytes

/-!
# Byte buffers

`java.nio.ByteBuffer`: an array with a position, a limit and sometimes a mark, in this order. Each call that the library documents
to throw returns the exception in its place. `Wrote` is all that a call which only puts bytes can have done to a buffer.
-/

namespace Java

/-! ## Exceptions -/

/-- The checked exceptions of the library; `generalSecurity` is one that wraps a `GeneralSecurityException`, `attachedSignature` the
one that says that an attached signature failed to verify. -/
inductive KeyczarException where
  | shortCiphertext (len : Nat)
  | badVersion (version : UInt8)
  | keyNotFound (hash : Bytes)
  | invalidSignature
  | shortBuffer
  | generalSecurity
  | noPrimaryKey
  | unacceptablePurpose
  | needEncryptedReader
  | singlePrimary
  | noSuchVersion (versionNumber : Int)
  | cantPromotePrimary
  | cantDemoteScheduled
  | cantRevoke
  | fileError (versionNumber : Int)
  | shortSignature (len : Nat)
  | attachedSignature
  deriving DecidableEq, Repr

/-- The unchecked exceptions of the platform. -/
inductive RuntimeException where
  | bufferUnderflow | bufferOverflow | illegalArgument | invalidMark | classCast | nullPointer | negativeArraySize | indexOutOfBounds
  | readOnlyBuffer | unsupportedOperation
  deriving DecidableEq, Repr

inductive Exception where
  | keyczar (e : KeyczarException)
  | runtime (e : RuntimeException)
  deriving DecidableEq, Repr

/-! ## Buffers -/

/-- A buffer: its mark is not after its position, its position not after its limit, and its limit is in the array. -/
@[ext] structure ByteBuffer where
  content : Bytes
  position : Nat
  limit : Nat
  mark : Option Nat
  position_le : position ≤ limit
  limit_le : limit ≤ content.length
  mark_le : ∀ m ∈ mark, m ≤ position
  deriving DecidableEq, Repr

namespace ByteBuffer

def capacity (b : ByteBuffer) : Nat := b.content.length

/-- `wrap`. -/
def wrap (array : Bytes) : ByteBuffer where
  content := array
  position := 0
  limit := array.length
  mark := none
  position_le := Nat.zero_le _
  limit_le := Nat.le_refl _
  mark_le := nofun

/-- `allocate`, of a size that is not negative. -/
def allocate (n : Nat) : ByteBuffer := wrap (List.replicate n 0)

def remaining (b : ByteBuffer) : Nat := b.limit - b.position

/-- The bytes between the position and the limit. -/
def rest (b : ByteBuffer) : Bytes := (b.content.take b.limit).drop b.position

/-- `asReadOnlyBuffer`: the same array with a position, limit and mark of its own. -/
def asReadOnlyBuffer (b : ByteBuffer) : ByteBuffer := b

/-- `position(n)`: a mark after it is dropped. -/
def setPosition (b : ByteBuffer) (n : Nat) : Except RuntimeException ByteBuffer :=
  if h : n ≤ b.limit then
    .ok { b with
      position := n
      mark := b.mark.filter (· ≤ n)
      position_le := h
      mark_le := by simp }
  else .error .illegalArgument

/-- `limit(n)`: a position after it is moved to it, and a mark after it is dropped. -/
def setLimit (b : ByteBuffer) (n : Nat) : Except RuntimeException ByteBuffer :=
  if h : n ≤ b.content.length then
    .ok { b with
      position := min b.position n
      limit := n
      mark := b.mark.filter (· ≤ n)
      position_le := Nat.min_le_right _ _
      limit_le := h
      mark_le := by
        intro m hm
        have hm' := Option.mem_filter_iff.mp hm
        have := b.mark_le m hm'.1
        simp only [decide_eq_true_eq] at hm'
        omega }
  else .error .illegalArgument

/-- `limit(position())`. -/
def limitHere (b : ByteBuffer) : ByteBuffer :=
  { b with limit := b.position, position_le := Nat.le_refl _, limit_le := Nat.le_trans b.position_le b.limit_le }

/-- `mark()`. -/
def setMark (b : ByteBuffer) : ByteBuffer :=
  { b with mark := some b.position, mark_le := by simp }

/-- `reset()`. -/
def reset (b : ByteBuffer) : Except RuntimeException ByteBuffer :=
  match h : b.mark with
  | none => .error .invalidMark
  | some m =>
    .ok { b with
      position := m
      position_le := Nat.le_trans (b.mark_le m h) b.position_le
      mark_le := fun _ h' => Nat.le_of_eq (Option.some.inj (h'.symm.trans h)) }

/-- `rewind()`. -/
def rewind (b : ByteBuffer) : ByteBuffer :=
  { b with position := 0, mark := none, position_le := Nat.zero_le _, mark_le := nofun }

/-- `slice()`. -/
def slice (b : ByteBuffer) : ByteBuffer := wrap b.rest

/-- `get(byte[])` of `n` bytes. -/
def get (b : ByteBuffer) (n : Nat) : Except RuntimeException (Bytes × ByteBuffer) :=
  if h : n ≤ b.limit - b.position then
    .ok (b.rest.take n, { b with
      position := b.position + n
      position_le := by have := b.position_le; omega
      mark_le := fun m hm => Nat.le_trans (b.mark_le m hm) (Nat.le_add_right _ _) })
  else .error .bufferUnderflow

/-- `put(byte[])`. -/
def put (b : ByteBuffer) (w : Bytes) : Except RuntimeException ByteBuffer :=
  if h : w.length ≤ b.limit - b.position then
    .ok { b with
      content := Bytes.overwrite b.content b.position w
      position := b.position + w.length
      position_le := by have := b.position_le; omega
      limit_le := by
        have h1 := b.position_le
        have h2 := b.limit_le
        rw [Bytes.length_overwrite (by omega)]
        exact h2
      mark_le := fun m hm => Nat.le_trans (b.mark_le m hm) (Nat.le_add_right _ _) }
  else .error .bufferOverflow

/-- The buffer with everything read. -/
def atEnd (b : ByteBuffer) : ByteBuffer :=
  { b with
    position := b.limit
    position_le := Nat.le_refl _
    mark_le := fun m hm => Nat.le_trans (b.mark_le m hm) b.position_le }

/-! ### What the calls do -/

@[simp] theorem length_rest (b : ByteBuffer) : b.rest.length = b.remaining := by
  have := b.limit_le
  simp [rest, remaining]
  omega

@[simp] theorem rest_wrap (s : Bytes) : (wrap s).rest = s := by
  simp [rest, wrap]

@[simp] theorem remaining_wrap (s : Bytes) : (wrap s).remaining = s.length := by
  simp [remaining, wrap]

theorem remaining_eq (b : ByteBuffer) : b.remaining = b.limit - b.position := rfl

/-- A position up to the limit is accepted, and a mark that is not after it is kept. -/
theorem setPosition_ok {b : ByteBuffer} {n : Nat} (h : n ≤ b.limit) :
    ∃ b', b.setPosition n = .ok b' ∧ b'.content = b.content ∧ b'.position = n ∧ b'.limit = b.limit ∧
      b'.mark = b.mark.filter (· ≤ n) :=
  ⟨_, dif_pos h, rfl, rfl, rfl, rfl⟩

/-- A limit in the array is accepted. -/
theorem setLimit_ok {b : ByteBuffer} {n : Nat} (h : n ≤ b.content.length) :
    ∃ b', b.setLimit n = .ok b' ∧ b'.content = b.content ∧ b'.position = min b.position n ∧ b'.limit = n ∧
      b'.mark = b.mark.filter (· ≤ n) :=
  ⟨_, dif_pos h, rfl, rfl, rfl, rfl⟩

/-- A limit behind the array is refused. -/
theorem setLimit_error {b : ByteBuffer} {n : Nat} (h : b.content.length < n) : b.setLimit n = .error .illegalArgument :=
  dif_neg (Nat.not_le.mpr h)

/-- With a mark, the position goes back to it. -/
theorem reset_ok {b : ByteBuffer} {m : Nat} (h : b.mark = some m) :
    ∃ b', b.reset = .ok b' ∧ b'.content = b.content ∧ b'.position = m ∧ b'.limit = b.limit ∧ b'.mark = b.mark := by
  unfold reset
  split
  · rename_i hnone
    rw [hnone] at h
    cases h
  · rename_i m' hsome
    rw [hsome] at h
    cases h
    exact ⟨_, rfl, rfl, rfl, rfl, hsome.symm ▸ rfl⟩

/-- As many bytes as remain can be read. -/
theorem get_ok {b : ByteBuffer} {n : Nat} (h : n ≤ b.remaining) :
    ∃ b', b.get n = .ok (b.rest.take n, b') ∧ b'.content = b.content ∧ b'.position = b.position + n ∧ b'.limit = b.limit ∧
      b'.mark = b.mark :=
  ⟨_, dif_pos h, rfl, rfl, rfl, rfl⟩

/-- More bytes than remain cannot be read. -/
theorem get_error {b : ByteBuffer} {n : Nat} (h : b.remaining < n) : b.get n = .error .bufferUnderflow :=
  dif_neg (Nat.not_le.mpr h)

/-- Advancing drops what was passed over. -/
theorem rest_drop {a b : ByteBuffer} {n : Nat} (hc : b.content = a.content) (hp : b.position = a.position + n)
    (hl : b.limit = a.limit) : b.rest = a.rest.drop n := by
  simp only [rest, hc, hp, hl, List.drop_drop]

/-- Reading the first part of what is left leaves the second. -/
theorem get_append {b : ByteBuffer} {x y : Bytes} (h : b.rest = x ++ y) {n : Nat} (hn : x.length = n) :
    ∃ b', b.get n = .ok (x, b') ∧ b'.rest = y := by
  have hremaining : b.remaining = x.length + y.length := by rw [← length_rest, h, List.length_append]
  obtain ⟨b', hget, hc, hp, hl, -⟩ := get_ok (b := b) (n := n) (by omega)
  refine ⟨b', ?_, ?_⟩
  · rw [hget, h, List.take_left' hn]
  · rw [rest_drop hc hp hl, h, List.drop_left' hn]

/-- What was read and what is left make up what was left before. -/
theorem get_eq_ok {b b' : ByteBuffer} {n : Nat} {bytes : Bytes} (h : b.get n = .ok (bytes, b')) :
    bytes = b.rest.take n ∧ b'.rest = b.rest.drop n ∧ n ≤ b.remaining := by
  by_cases hn : n ≤ b.remaining
  · obtain ⟨b'', hget, hc, hp, hl, -⟩ := get_ok hn
    rw [hget] at h
    cases h
    exact ⟨rfl, rest_drop hc hp hl, hn⟩
  · rw [get_error (Nat.lt_of_not_le hn)] at h
    cases h

/-- A mark is not after the position, so it survives where the position stays. -/
theorem filter_mark {b : ByteBuffer} {n : Nat} (h : b.position ≤ n) : b.mark.filter (· ≤ n) = b.mark := by
  cases hm : b.mark with
  | none => rfl
  | some m =>
    have hle : m ≤ n := Nat.le_trans (b.mark_le m hm) h
    simp [hle]

@[simp] theorem setPosition_self (b : ByteBuffer) : b.setPosition b.position = .ok b := by
  obtain ⟨b', hb, hc, hp, hl, hm⟩ := setPosition_ok b.position_le
  rw [hb, ByteBuffer.ext hc hp hl (hm.trans (filter_mark (Nat.le_refl _)))]

/-- The start of what is left as a buffer of its own. -/
theorem slice_ok {b : ByteBuffer} {n : Nat} (h : n ≤ b.remaining) :
    ∃ chunk, b.slice.setLimit n = .ok chunk ∧ chunk.remaining = n ∧ chunk.rest = b.rest.take n ∧
      chunk.rewind.rest = b.rest.take n := by
  have hlen : b.slice.content.length = b.remaining := b.length_rest
  obtain ⟨chunk, hchunk, hc, hp, hl, _⟩ := setLimit_ok (h.trans_eq hlen.symm)
  have hp0 : chunk.position = 0 := by rw [hp]; exact Nat.zero_min _
  refine ⟨chunk, hchunk, ?_, ?_, ?_⟩
  · rw [remaining, hp0, hl, Nat.sub_zero]
  · rw [rest, hc, hl, hp0]
    rfl
  · rw [rest, rewind]
    simp only [hc, hl]
    rfl

/-! ### Puts -/

/-- `w` was put into the buffer `a`, which is now `b`; the mark may have been set. -/
structure Wrote (a : ByteBuffer) (w : Bytes) (b : ByteBuffer) : Prop where
  content_eq : b.content = Bytes.overwrite a.content a.position w
  position_eq : b.position = a.position + w.length
  limit_eq : b.limit = a.limit

theorem wrote_nil {a b : ByteBuffer} (hc : b.content = a.content) (hp : b.position = a.position) (hl : b.limit = a.limit) :
    Wrote a [] b :=
  ⟨by simp [hc], hp, hl⟩

theorem wrote_refl (a : ByteBuffer) : Wrote a [] a := wrote_nil rfl rfl rfl

theorem Wrote.fits {a b : ByteBuffer} {w : Bytes} (h : Wrote a w b) : a.position + w.length ≤ a.content.length := by
  have h1 := b.position_le
  rw [h.position_eq, h.limit_eq] at h1
  exact Nat.le_trans h1 a.limit_le

/-- What was put takes up room. -/
theorem Wrote.remaining_eq {a b : ByteBuffer} {w : Bytes} (h : Wrote a w b) : b.remaining = a.remaining - w.length := by
  simp only [remaining, h.position_eq, h.limit_eq]
  omega

theorem Wrote.length_le {a b : ByteBuffer} {w : Bytes} (h : Wrote a w b) : w.length ≤ a.remaining := by
  have h1 := b.position_le
  rw [h.position_eq, h.limit_eq] at h1
  simp only [remaining]
  omega

theorem Wrote.trans {a b c : ByteBuffer} {v w : Bytes} (h : Wrote a v b) (h' : Wrote b w c) : Wrote a (v ++ w) c := by
  refine ⟨?_, ?_, h'.limit_eq.trans h.limit_eq⟩
  · rw [h'.content_eq, h.content_eq, h.position_eq, Bytes.overwrite_overwrite h.fits]
  · rw [h'.position_eq, h.position_eq, List.length_append, Nat.add_assoc]

/-- Nothing is put at the limit or behind it. -/
theorem Wrote.drop_limit {a b : ByteBuffer} {w : Bytes} (h : Wrote a w b) : b.content.drop a.limit = a.content.drop a.limit := by
  have hle := h.length_le
  have hp := a.position_le
  rw [ByteBuffer.remaining_eq] at hle
  have hsum : a.limit = a.position + w.length + (a.limit - (a.position + w.length)) := by omega
  rw [h.content_eq, hsum, ← List.drop_drop, Bytes.drop_overwrite h.fits, List.drop_drop]

/-- All that is before the position, once `w` was put. -/
theorem Wrote.take_position {a b : ByteBuffer} {w : Bytes} (h : Wrote a w b) :
    b.content.take b.position = a.content.take a.position ++ w := by
  rw [h.content_eq, h.position_eq, Bytes.take_overwrite_end h.fits]

/-- What is in front of the position, read back from the start. -/
theorem Wrote.rest_rewind {a b : ByteBuffer} {w : Bytes} (h : Wrote a w b) (h0 : a.position = 0) : b.limitHere.rewind.rest = w := by
  show (b.content.take b.position).drop 0 = w
  rw [h.take_position, h0, List.take_zero, List.nil_append, List.drop_zero]

/-- What was put fits. -/
theorem put_ok {b : ByteBuffer} {w : Bytes} (h : w.length ≤ b.remaining) : ∃ b', b.put w = .ok b' ∧ Wrote b w b' :=
  ⟨_, dif_pos h, rfl, rfl, rfl⟩

/-- What was put does not fit. -/
theorem put_error {b : ByteBuffer} {w : Bytes} (h : b.remaining < w.length) : b.put w = .error .bufferOverflow :=
  dif_neg (Nat.not_le.mpr h)

theorem wrote_of_put {b b' : ByteBuffer} {w : Bytes} (h : b.put w = .ok b') : Wrote b w b' := by
  unfold put at h
  split at h
  · cases h
    exact ⟨rfl, rfl, rfl⟩
  · cases h

theorem mark_of_put {b b' : ByteBuffer} {w : Bytes} (h : b.put w = .ok b') : b'.mark = b.mark := by
  unfold put at h
  split at h
  · cases h
    rfl
  · cases h

/-- What was put behind the mark, up to the limit, is what is read back. -/
theorem get_of_reset {output o : ByteBuffer} {w : Bytes} (h0 : output.position = 0)
    (hc : o.content = Bytes.overwrite output.content output.position w) (hp : o.position = output.position + w.length)
    (hl : o.limit = o.position) (hm : o.mark = some output.position) :
    ∃ o' o'', o.reset = .ok o' ∧ o'.get o'.remaining = .ok (w, o'') := by
  obtain ⟨o', ho', hc', hp', hl', _⟩ := reset_ok hm
  obtain ⟨o'', ho'', _⟩ := get_ok (Nat.le_refl o'.remaining)
  have hlimit : o'.limit = w.length := by
    rw [hl', hl, hp, h0, Nat.zero_add]
  have hrest : o'.rest = w := by
    rw [rest, hc', hc, hlimit, hp', h0, Bytes.overwrite, List.take_zero, List.nil_append, List.take_left, List.drop_zero]
  refine ⟨o', o'', ho', ?_⟩
  rw [ho'', ← o'.length_rest, List.take_length, hrest]

end ByteBuffer

end Java
