import Bitstream.Header.Reader

/-!
# The ideal cursor

What a reader is for: a position in the bits of a buffer that moves forward. A cursor has no cache;
a call reads the bits at the position in the order the call names, most significant bit of each
byte first or least significant bit first, and says where the position goes. Checked calls and
their unchecked variants mean the same.
-/

set_option autoImplicit false
set_option relaxedAutoImplicit false

namespace Bitstream.Reading

open Foundation Header

/-- A position in the bits of a buffer. -/
@[ext] structure Cursor where
  buffer : List (BitVec 8)
  pos : ℕ
  pos_le : pos ≤ 8 * buffer.length

namespace Cursor

/-- The cursor before the first bit. -/
def start (buffer : List (BitVec 8)) : Cursor := ⟨buffer, 0, Nat.zero_le _⟩

/-- The number of bits from the position to the end. -/
def left (c : Cursor) : ℕ := 8 * c.buffer.length - c.pos

/-- The bits from the position to the end, in one bit order. -/
def rest (order : BitOrder) (c : Cursor) : List Bool := (stream order c.buffer).drop c.pos

/-- The number that the next `n` bits stand for, 0 when there are fewer. -/
def peek (order : BitOrder) (n : ℕ) (c : Cursor) : BitVec 32 :=
  if n ≤ c.left then BitVec.ofNat 32 (fieldValue order ((c.rest order).take n)) else 0

/-- A move past `n` bits that are there. -/
def advance (c : Cursor) (n : ℕ) (h : n ≤ c.left) : Cursor where
  buffer := c.buffer
  pos := c.pos + n
  pos_le := by
    have hpos := c.pos_le
    unfold left at h
    omega

/-- The cursor after a read of `n` bits: a read that fails does not move. -/
def read (c : Cursor) (n : ℕ) : Cursor := if h : n ≤ c.left then c.advance n h else c

/-- The cursor after a skip of `n` bits, clipped at the end. -/
def skip (c : Cursor) (n : ℕ) : Cursor where
  buffer := c.buffer
  pos := min (c.pos + n) (8 * c.buffer.length)
  pos_le := Nat.min_le_right _ _

/-- The cursor at the next multiple of 8. -/
def align (c : Cursor) : Cursor where
  buffer := c.buffer
  pos := 8 * ((c.pos + 7) / 8)
  pos_le := by
    have hpos := c.pos_le
    omega

/-- A copy of whole bytes needs a position between two bytes and enough bytes after it. -/
def readBytes (c : Cursor) (dst : List (BitVec 8)) (nBytes : ℕ) :
    (Bool × List (BitVec 8)) × Cursor :=
  if h : c.pos % 8 = 0 ∧ 8 * nBytes ≤ c.left then
    ((true, (c.buffer.drop (c.pos / 8)).take nBytes ++ dst.drop nBytes), c.advance _ h.2)
  else ((false, dst), c)

/-- One call on the cursor. -/
def step : ReaderCall → Cursor → ReaderReply × Cursor
  | .readBit, c => (.bit ((c.peek .msb 1).setWidth 8), c.read 1)
  | .readBits order n, c => (.field (c.peek order n), c.read n)
  | .peekBits order n, c => (.field (c.peek order n), c)
  | .skipBits _ n, c => (.done, c.skip n)
  | .readBitsUnchecked order n, c => (.field (c.peek order n), c.read n)
  | .peekBitsUnchecked order n, c => (.field (c.peek order n), c)
  | .skipBitsUnchecked _ n, c => (.done, c.skip n)
  | .align _, c => (.done, c.align)
  | .readBytes dst nBytes, c =>
    let read := c.readBytes dst nBytes
    (.block read.1.1 read.1.2, read.2)

/-- What a caller of the ideal cursor sees: the reply, the bits left, and whether none is left. -/
def observation (entry : ReaderReply × Cursor) : ReaderReply × ℕ × Bool :=
  (entry.1, entry.2.left, entry.2.pos = 8 * entry.2.buffer.length)

/-- The same, with the bits left counted in `size_t`. -/
def countedObservation (sizeT : SizeT) (entry : ReaderReply × Cursor) : ReaderReply × ℕ × Bool :=
  (entry.1, entry.2.left % 2 ^ sizeT.bits, entry.2.pos = 8 * entry.2.buffer.length)

@[simp] theorem left_start (buffer : List (BitVec 8)) :
    (start buffer).left = 8 * buffer.length := Nat.sub_zero _

@[simp] theorem advance_buffer (c : Cursor) (n : ℕ) (h : n ≤ c.left) :
    (c.advance n h).buffer = c.buffer := rfl

@[simp] theorem advance_pos (c : Cursor) (n : ℕ) (h : n ≤ c.left) :
    (c.advance n h).pos = c.pos + n := rfl

@[simp] theorem skip_buffer (c : Cursor) (n : ℕ) : (c.skip n).buffer = c.buffer := rfl

theorem read_of_le {c : Cursor} {n : ℕ} (h : n ≤ c.left) : c.read n = c.advance n h := dif_pos h

theorem read_of_lt {c : Cursor} {n : ℕ} (h : c.left < n) : c.read n = c := dif_neg (by omega)

@[simp] theorem read_zero (c : Cursor) : c.read 0 = c := by
  rw [read_of_le (Nat.zero_le _)]
  exact Cursor.ext rfl (Nat.add_zero _)

@[simp] theorem peek_zero (order : BitOrder) (c : Cursor) : c.peek order 0 = 0 := by
  cases order <;> simp [peek, fieldValue, bigEndian, littleEndian]

theorem peek_of_lt {order : BitOrder} {c : Cursor} {n : ℕ} (h : c.left < n) :
    c.peek order n = 0 := if_neg (by omega)

/-- Where the bits are there, a skip moves as a read does. -/
theorem skip_of_le {c : Cursor} {n : ℕ} (h : n ≤ c.left) : c.skip n = c.advance n h := by
  have hpos := c.pos_le
  unfold left at h
  exact Cursor.ext rfl (Nat.min_eq_left (by omega))

/-- Where the bits are not there, a skip moves to the end. -/
theorem skip_pos_of_lt {c : Cursor} {n : ℕ} (h : c.left < n) :
    (c.skip n).pos = 8 * c.buffer.length := by
  have hpos := c.pos_le
  unfold left at h
  exact Nat.min_eq_right (by omega)

/-- What is left of a moved cursor is left of the cursor behind the bits passed. -/
theorem advance_rest (order : BitOrder) (c : Cursor) (n : ℕ) (h : n ≤ c.left) :
    (c.advance n h).rest order = (c.rest order).drop n := by
  rw [rest, rest, advance_buffer, advance_pos, List.drop_drop]

@[simp] theorem length_rest (order : BitOrder) (c : Cursor) : (c.rest order).length = c.left := by
  rw [rest, List.length_drop, length_stream, left]

/-- No call changes the buffer. -/
theorem step_buffer (call : ReaderCall) (c : Cursor) : (c.step call).2.buffer = c.buffer := by
  have hread (n : ℕ) : (c.read n).buffer = c.buffer := by
    unfold read
    split_ifs <;> rfl
  cases call with
  | readBit => exact hread 1
  | readBits order n => exact hread n
  | readBitsUnchecked order n => exact hread n
  | readBytes dst nBytes =>
    show (c.readBytes dst nBytes).2.buffer = c.buffer
    unfold readBytes
    split_ifs <;> rfl
  | peekBits | skipBits | peekBitsUnchecked | skipBitsUnchecked | align => rfl

/-- No run of calls changes the buffer. -/
theorem final_step_buffer (calls : List ReaderCall) (c : Cursor) :
    (final step calls c).buffer = c.buffer := by
  induction calls generalizing c with
  | nil => rfl
  | cons call calls ih => exact (ih _).trans (step_buffer call c)

end Cursor

end Bitstream.Reading
