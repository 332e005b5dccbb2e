import Bitstream.Reading.Mirror
import Bitstream.Writing.Mirror

/-!
# The two bit orders are mirror images

The library keeps a copy of its functions for each bit order. The copies are mirror images:
reversing the bits of every byte of the buffers and of every field exchanges them, for readers and
for writers, after every call of every run (`orders_mirror`).
-/

set_option autoImplicit false
set_option relaxedAutoImplicit false

namespace Bitstream.Format

open Foundation Header Reading Writing

/-- Readers: on a buffer and on the buffer with the bits of each byte reversed, the most significant
first and the least significant first functions reply with reversed fields and reversed blocks, and
agree on the byte position, the bits in the cache, the bits left and the end of the stream after
every call. Writers: given a field and the reversed field, in buffers of any capacity and content
and its reverse, they leave reversed bytes and agree on the byte position, the bits in the cache and
overflow after every call, whatever undefined shifts yield in either run. Assumes: the calls are
reads, peeks and skips with widths of at most 32, aligns and bulk reads, and writes with widths of
at most 32, aligns and flushes. -/
theorem orders_mirror (sizeT : SizeT) :
    (∀ (buffer : List (BitVec 8)) (issued image : List (Overshift × ReaderCall)),
      (∀ call ∈ issued, Reading.Mirrorable call.2) →
        image.map Prod.snd = issued.map (fun call ↦ Reading.mirrorCall call.2) →
          List.zipWith
              (fun call entry ↦ (mirrorReply call.2 entry.1, readerCounters sizeT entry.2)) issued
              (trace (readerAct sizeT) issued (bsReaderInit buffer buffer.length)) =
            (trace (readerAct sizeT) image (bsReaderInit (buffer.map BitVec.reverse)
              (buffer.map BitVec.reverse).length)).map
                fun entry ↦ (entry.1, readerCounters sizeT entry.2)) ∧
    (∀ (initial : List (BitVec 8)) (issued image : List (Overshift × WriterCall)),
      (∀ call ∈ issued, Writing.Mirrorable call.2) →
        image.map Prod.snd = issued.map (fun call ↦ Writing.mirrorCall call.2) →
          (trace (writerAct sizeT) issued (bsWriterInit initial initial.length)).map
              (fun entry ↦ writerView (entry.2.buffer.map BitVec.reverse) entry.2) =
            (trace (writerAct sizeT) image (bsWriterInit (initial.map BitVec.reverse)
              (initial.map BitVec.reverse).length)).map
                fun entry ↦ writerView entry.2.buffer entry.2) :=
  ⟨fun buffer _ _ ↦ reader_mirror sizeT buffer, fun initial _ _ ↦ writer_mirror sizeT initial⟩

/-- A run over three bytes with a failing and a successful bulk read, and a run that overflows one
byte. -/
theorem orders_mirror_example :
    List.zipWith
        (fun call entry ↦ (mirrorReply call.2 entry.1, readerCounters sizeT64 entry.2))
        ([.readBits .msb 3, .peekBits .msb 9, .readBytes [7] 1, .align .msb, .readBytes [7] 1,
          .skipBits .msb 12].map (Prod.mk Overshift.masked))
        (trace (readerAct sizeT64)
          ([.readBits .msb 3, .peekBits .msb 9, .readBytes [7] 1, .align .msb, .readBytes [7] 1,
            .skipBits .msb 12].map (Prod.mk Overshift.masked))
          (bsReaderInit [0xA5, 0x3C, 0x0F] 3)) =
      (trace (readerAct sizeT64)
        ([.readBits .lsb 3, .peekBits .lsb 9, .readBytes [0xE0] 1, .align .lsb,
          .readBytes [0xE0] 1, .skipBits .lsb 12].map (Prod.mk Overshift.masked))
        (bsReaderInit [0xA5, 0x3C, 0xF0] 3)).map
          (fun entry ↦ (entry.1, readerCounters sizeT64 entry.2)) ∧
    (trace (writerAct sizeT64)
        ([.writeBits .msb 5 3, .writeBits .msb 0x2C1 12, .flush .msb].map
          (Prod.mk Overshift.masked)) (bsWriterInit [0x01] 1)).map
        (fun entry ↦ writerView (entry.2.buffer.map BitVec.reverse) entry.2) =
      (trace (writerAct sizeT64)
        ([.writeBits .lsb 5 3, .writeBits .lsb 0x834 12, .flush .lsb].map
          (Prod.mk Overshift.masked)) (bsWriterInit [0x80] 1)).map
        (fun entry ↦ writerView entry.2.buffer entry.2) :=
  ⟨(orders_mirror sizeT64).1 [0xA5, 0x3C, 0x0F] _ _ (by decide) (by decide),
    (orders_mirror sizeT64).2 [0x01] _ _ (by decide) (by decide)⟩

end Bitstream.Format
