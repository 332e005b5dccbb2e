import Bitstream.Header.Writer

/-!
# The writing functions of an order

The two copies of the writer functions, as one family indexed by the bit order. Besides the dump
they differ only in how a clean field enters the cache (`push`), so that a write is one sequence of
steps in both orders (`write_eq`), and what holds of the steps in both orders is stated and proved
once.
-/

set_option autoImplicit false
set_option relaxedAutoImplicit false

namespace Bitstream.Writing

open Foundation Header

/-! ### The parts -/

/-- How the next byte leaves the cache in an order. -/
def pop : BitOrder → BsWriter → Eval (BitVec 8 × BitVec 64)
  | .msb => popByte
  | .lsb => popByteLsb

/-- The dump function of an order. -/
def dump : BitOrder → BsWriter → Eval BsWriter
  | .msb => bsWriterDump
  | .lsb => bsWriterDumpLsb

/-- The cache after a clean field of `n` bits has entered it. -/
def push : BitOrder → BsWriter → BitVec 64 → ℕ → Eval (BitVec 64)
  | .msb, bs, clean, n => (· ||| clean) <$> Eval.shiftLeft bs.bitCache n
  | .lsb, bs, clean, _ => (bs.bitCache ||| ·) <$> Eval.shiftLeft clean bs.bitsInCache

def write : BitOrder → BsWriter → BitVec 32 → ℕ → Eval BsWriter
  | .msb => bsWriteBits
  | .lsb => bsWriteBitsLsb

def writeUnchecked : BitOrder → BsWriter → BitVec 32 → ℕ → Eval BsWriter
  | .msb => bsWriteBitsUnchecked
  | .lsb => bsWriteBitsLsbUnchecked

/-! ### The functions from their parts -/

theorem write_eq (order : BitOrder) (bs : BsWriter) (value : BitVec 32) (n : ℕ) :
    write order bs value n =
      if n = 0 then pure bs
      else (do
        let clean ← cleanValue value n
        let bitCache ← push order bs clean n
        queueBits (dump order) bs bitCache n) := by
  cases order <;> rfl

theorem writeUnchecked_eq (order : BitOrder) (bs : BsWriter) (value : BitVec 32) (n : ℕ) :
    writeUnchecked order bs value n = (do
      let bitCache ← push order bs (value.setWidth 64) n
      queueBits (dump order) bs bitCache n) := by
  cases order <;> rfl

/-- `bs_write_bit` is most significant bit first. -/
theorem bsWriteBit_eq (bs : BsWriter) (value : BitVec 8) :
    bsWriteBit bs value = (do
      let bitCache ← push .msb bs ((value &&& 1#8).setWidth 64) 1
      queueBits (dump .msb) bs bitCache 1) := rfl

theorem writerStep_writeBits (sizeT : SizeT) (order : BitOrder) (value : BitVec 32) (n : ℕ)
    (bs : BsWriter) :
    writerStep sizeT (.writeBits order value n) bs = (none, ·) <$> write order bs value n := by
  cases order <;> rfl

theorem writerStep_writeBitsUnchecked (sizeT : SizeT) (order : BitOrder) (value : BitVec 32)
    (n : ℕ) (bs : BsWriter) :
    writerStep sizeT (.writeBitsUnchecked order value n) bs =
      (none, ·) <$> writeUnchecked order bs value n := by
  cases order <;> rfl

theorem writerStep_align (sizeT : SizeT) (order : BitOrder) (bs : BsWriter) :
    writerStep sizeT (.align order) bs = (none, ·) <$> align (write order) bs := by
  cases order <;> rfl

theorem writerStep_flush (sizeT : SizeT) (order : BitOrder) (bs : BsWriter) :
    writerStep sizeT (.flush order) bs = (none, ·) <$> flush (dump order) (write order) bs := by
  cases order <;> rfl

end Bitstream.Writing
