import Bitstream.Reading.CursorRefinement

/-!
# When the count of bits left is exact

`bs_reader_bits_left` multiplies the bytes left by 8 in `size_t`. In every state that a run of one
order reaches, its value is the number of unread bits modulo `2 ^ w` (`Tracks.bitsLeft_eq`), so it
is the number of unread bits exactly when that number is below `2 ^ w` (`countsExactly_iff`). A
buffer of `2 ^ (w - 3)` bytes or more can be held in memory and given to `bs_reader_init`, and at
its beginning the count wraps: with 512 MiB and a 32-bit `size_t` it is 0
(`bits_left_of_half_gibibyte`).
-/

set_option autoImplicit false
set_option relaxedAutoImplicit false

namespace Bitstream.Reading

open Foundation Header

variable {order : BitOrder} {bs : BsReader} {c : Cursor}

/-- The count of bits left is 8 bits a byte less the bits consumed, and 0 exactly at the end. -/
def CountsExactly (sizeT : SizeT) (bs : BsReader) (consumed : ℕ) : Prop :=
  bsReaderBitsLeft sizeT bs = 8 * bs.size - consumed ∧
    (bsReaderBitsLeft sizeT bs = 0 ↔ bsReaderEof bs = true)

theorem Tracks.size_sub_pos (h : Tracks order bs c) : 8 * bs.size - c.pos = c.left := by
  rw [h.size_eq, h.buffer_eq, Cursor.left]

theorem Tracks.countsExactly_iff_lt (sizeT : SizeT) (h : Tracks order bs c) :
    CountsExactly sizeT bs c.pos ↔ 8 * bs.size - c.pos < 2 ^ sizeT.bits := by
  rw [CountsExactly, h.bitsLeft_eq sizeT, h.eof_eq, h.size_sub_pos, decide_eq_true_eq]
  have hwrapped : c.left % 2 ^ sizeT.bits < 2 ^ sizeT.bits := Nat.mod_lt _ (Nat.two_pow_pos _)
  constructor
  · intro ⟨hexact, _⟩
    omega
  · intro hfit
    have hpos := c.pos_le
    rw [Nat.mod_eq_of_lt hfit]
    refine ⟨rfl, ?_⟩
    unfold Cursor.left
    omega

/-- In every state that a run of one order reaches, the count of bits left is exact, and 0 exactly
at the end of the stream, if and only if the number of unread bits fits in `size_t`. The bits
consumed are those that the cursor has passed. Assumes: the documented condition of each call in the
state where it is made. -/
theorem countsExactly_iff (sizeT : SizeT) (order : BitOrder) (buffer : List (BitVec 8))
    (issued : List (Overshift × ReaderCall))
    (hallowed : Along (readerAct sizeT) (AllowedCall sizeT order) issued
      (bsReaderInit buffer buffer.length)) :
    CountsExactly sizeT (final (readerAct sizeT) issued (bsReaderInit buffer buffer.length))
        (final Cursor.step (issued.map Prod.snd) (.start buffer)).pos ↔
      8 * buffer.length - (final Cursor.step (issued.map Prod.snd) (.start buffer)).pos <
        2 ^ sizeT.bits := by
  obtain ⟨_, htracks⟩ := run_tracks sizeT (tracks_init order buffer) hallowed
  have hsize : (final (readerAct sizeT) issued (bsReaderInit buffer buffer.length)).size =
      buffer.length := by
    rw [htracks.size_eq, htracks.buffer_eq]
    exact congrArg List.length (Cursor.final_step_buffer _ (.start buffer))
  rw [htracks.countsExactly_iff_lt sizeT, hsize]

/-- A run that reads, aligns, copies a byte and fails. -/
theorem countsExactly_iff_three_bytes :
    CountsExactly sizeT64
        (final (readerAct sizeT64)
          ([.readBits .lsb 5, .align .lsb, .readBytes [0] 1, .readBits .lsb 32].map
            (Prod.mk Overshift.masked)) (bsReaderInit [0xA5, 0x3C, 0x0F] 3))
        (final Cursor.step
          (([.readBits .lsb 5, .align .lsb, .readBytes [0] 1, .readBits .lsb 32].map
            (Prod.mk Overshift.masked)).map Prod.snd) (.start [0xA5, 0x3C, 0x0F])).pos ↔
      8 * [0xA5, 0x3C, 0x0F].length - (final Cursor.step
          (([.readBits .lsb 5, .align .lsb, .readBytes [0] 1, .readBits .lsb 32].map
            (Prod.mk Overshift.masked)).map Prod.snd) (.start [0xA5, 0x3C, 0x0F])).pos <
        2 ^ sizeT64.bits :=
  countsExactly_iff sizeT64 .lsb [0xA5, 0x3C, 0x0F] _ (by decide)

/-- A fresh reader on 512 MiB, with a 32-bit `size_t`: the size fits, nothing is consumed, the count
is 0, and the reader is not at the end. -/
theorem bits_left_of_half_gibibyte :
    let buffer := List.replicate (2 ^ 29) 0#8
    buffer.length < 2 ^ sizeT32.bits ∧
      bsReaderBitsLeft sizeT32 (bsReaderInit buffer buffer.length) = 0 ∧
      bsReaderEof (bsReaderInit buffer buffer.length) = false ∧
      ¬ CountsExactly sizeT32 (bsReaderInit buffer buffer.length) 0 := by
  intro buffer
  have htracks := tracks_init .msb buffer
  have hlength : buffer.length = 2 ^ 29 := List.length_replicate
  have hsize : (bsReaderInit buffer buffer.length).size = 2 ^ 29 := hlength
  have hbits : sizeT32.bits = 32 := rfl
  have hleft : (Cursor.start buffer).left = 2 ^ 32 := by
    rw [Cursor.left_start, hlength]
    norm_num
  refine ⟨?_, ?_, ?_, ?_⟩
  · rw [hlength, hbits]
    norm_num
  · rw [htracks.bitsLeft_eq, hleft, hbits, Nat.mod_self]
  · rw [htracks.eof_eq, Cursor.start, hlength]
    norm_num
  · intro hexact
    have hfit : 8 * (bsReaderInit buffer buffer.length).size - 0 < 2 ^ sizeT32.bits :=
      (htracks.countsExactly_iff_lt sizeT32).mp hexact
    rw [hsize, hbits] at hfit
    omega

end Bitstream.Reading
