import Bitstream.Header.Writer

/-!
# The ideal sink

What a writer is for: the calls of one order produce a bit string that only grows, and the buffer
shows its complete bytes as far as they fit. A sink has no cache and no capacity; `sinkOutput` says
what a buffer of some capacity shows of the bits.
-/

set_option autoImplicit false
set_option relaxedAutoImplicit false

namespace Bitstream.Writing

open Foundation Header

/-- One call on the ideal sink: a write appends the low bits of its value, align and flush complete
the last byte with zeros. -/
def emit (order : BitOrder) : WriterCall → List Bool → Unit × List Bool
  | .writeBit value, bits => ((), bits ++ fieldBits order 1 value.toNat)
  | .writeBits _ value n, bits => ((), bits ++ fieldBits order n value.toNat)
  | .writeBitsUnchecked _ value n, bits => ((), bits ++ fieldBits order n value.toNat)
  | .align _, bits => ((), padded 8 bits)
  | .flush _, bits => ((), padded 8 bits)
  | .writeBytes src, bits => ((), bits ++ stream order src)

/-- The bytes written, the buffer and the overflow flag that a writer shows. -/
def writerOutput (bs : BsWriter) : ℕ × List (BitVec 8) × Bool :=
  (bsWriterBytesWritten bs, bs.buffer, bs.overflow)

/-- The bytes written, the buffer and the overflow flag that a bit string leads to, in a buffer with
some initial content: the complete bytes as far as they fit, the initial content behind them, and
whether a complete byte did not fit. -/
def sinkOutput (order : BitOrder) (initial : List (BitVec 8)) (bits : List Bool) :
    ℕ × List (BitVec 8) × Bool :=
  (min initial.length (bits.length / 8),
    (packWords 8 order bits).take initial.length ++ initial.drop (bits.length / 8),
    decide (initial.length < bits.length / 8))

/-- The bits of a sink only grow. -/
theorem prefix_emit (order : BitOrder) (call : WriterCall) (bits : List Bool) :
    bits <+: (emit order call bits).2 := by
  cases call <;> exact List.prefix_append _ _

/-- The output of bits whose complete bytes all fit. -/
theorem sinkOutput_of_le (order : BitOrder) {initial bytes : List (BitVec 8)} {rest : List Bool}
    (hfit : bytes.length ≤ initial.length) (hrest : rest.length < 8) :
    sinkOutput order initial (stream order bytes ++ rest) =
      (bytes.length, bytes ++ initial.drop bytes.length, false) := by
  have hcount : (stream order bytes ++ rest).length / 8 = bytes.length := by
    rw [List.length_append, length_stream]
    omega
  rw [sinkOutput, hcount, packWords_stream_append order bytes hrest, List.take_of_length_le hfit,
    Nat.min_eq_right hfit, decide_eq_false (by omega)]

/-- The output of bits with a complete byte more than fits. -/
theorem sinkOutput_of_lt (order : BitOrder) {initial bytes : List (BitVec 8)} {bits : List Bool}
    (hfull : bytes.length = initial.length) (hbytes : stream order bytes <+: bits)
    (hmore : 8 * initial.length + 8 ≤ bits.length) :
    sinkOutput order initial bits = (initial.length, bytes, true) := by
  obtain ⟨rest, rfl⟩ := hbytes
  have hcount : initial.length < (stream order bytes ++ rest).length / 8 := by omega
  have htake : (packWords 8 order (stream order bytes ++ rest)).take initial.length = bytes := by
    rw [← hfull]
    exact take_packWords_stream_append order (by norm_num) bytes rest
  rw [sinkOutput, htake, List.drop_eq_nil_of_le hcount.le, List.append_nil,
    Nat.min_eq_left hcount.le, decide_eq_true hcount]

end Bitstream.Writing
