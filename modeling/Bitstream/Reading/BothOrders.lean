import Bitstream.Header.Reader

/-!
# The functions of an order

The two copies of the reader functions, as one family indexed by the bit order. A call is the frame
`checked` or `unchecked` around the parts of its order (`readerStep_readBits` and the others), so
that what holds of the parts in both orders is stated and proved once.
-/

set_option autoImplicit false
set_option relaxedAutoImplicit false

namespace Bitstream.Reading

open Foundation Header

/-! ### The parts -/

/-- How the next byte enters the cache. -/
def push : BitOrder → BsReader → BitVec 8 → Eval (BitVec 64)
  | .msb => pushByte
  | .lsb => pushByteLsb

def refill : BitOrder → BsReader → Eval BsReader
  | .msb => bsReaderRefill
  | .lsb => bsReaderRefillLsb

/-- How a field leaves the cache. -/
def take : BitOrder → BsReader → ℕ → Eval (BitVec 32 × BsReader)
  | .msb => takeBits
  | .lsb => takeBitsLsb

/-- How a field is shown. -/
def peek : BitOrder → BsReader → ℕ → Eval (BitVec 32 × BsReader)
  | .msb => showBits
  | .lsb => showBitsLsb

/-- How a skip that the cache covers moves. -/
def drop : BitOrder → BsReader → ℕ → Eval BsReader
  | .msb => dropBits
  | .lsb => dropBitsLsb

/-- How a skip that the cache does not cover empties it. -/
def clear : BitOrder → BsReader → BsReader
  | .msb, bs => { bs with bitsInCache := 0 }
  | .lsb, bs => { bs with bitsInCache := 0, bitCache := 0 }

def skip : BitOrder → BsReader → ℕ → Eval BsReader
  | .msb => bsSkipBits
  | .lsb => bsSkipBitsLsb

def align : BitOrder → BsReader → Eval BsReader
  | .msb => bsReaderAlign
  | .lsb => bsReaderAlignLsb

/-! ### The functions from their parts -/

theorem refill_eq (order : BitOrder) (bs : BsReader) :
    refill order bs = refillLoop (push order) 8 bs := by
  cases order <;> rfl

theorem skip_eq (order : BitOrder) (bs : BsReader) (n : ℕ) :
    skip order bs n = checked (refill order) id (clear order) (drop order) bs n := by
  cases order <;> rfl

theorem align_eq (order : BitOrder) (bs : BsReader) :
    align order bs =
      if bs.bitsInCache % 8 > 0 then drop order bs (bs.bitsInCache % 8) else pure bs := by
  cases order <;> rfl

theorem readerStep_readBits (sizeT : SizeT) (order : BitOrder) (n : ℕ) (bs : BsReader) :
    readerStep sizeT (.readBits order n) bs =
      fieldReply <$> checked (refill order) (0, ·) (0, ·) (take order) bs n := by
  cases order <;> rfl

theorem readerStep_peekBits (sizeT : SizeT) (order : BitOrder) (n : ℕ) (bs : BsReader) :
    readerStep sizeT (.peekBits order n) bs =
      fieldReply <$> checked (refill order) (0, ·) (0, ·) (peek order) bs n := by
  cases order <;> rfl

theorem readerStep_skipBits (sizeT : SizeT) (order : BitOrder) (n : ℕ) (bs : BsReader) :
    readerStep sizeT (.skipBits order n) bs = (ReaderReply.done, ·) <$> skip order bs n := by
  cases order <;> rfl

theorem readerStep_readBitsUnchecked (sizeT : SizeT) (order : BitOrder) (n : ℕ) (bs : BsReader) :
    readerStep sizeT (.readBitsUnchecked order n) bs =
      fieldReply <$> unchecked (refill order) (take order) bs n := by
  cases order <;> rfl

theorem readerStep_peekBitsUnchecked (sizeT : SizeT) (order : BitOrder) (n : ℕ) (bs : BsReader) :
    readerStep sizeT (.peekBitsUnchecked order n) bs =
      fieldReply <$> unchecked (refill order) (peek order) bs n := by
  cases order <;> rfl

theorem readerStep_skipBitsUnchecked (sizeT : SizeT) (order : BitOrder) (n : ℕ) (bs : BsReader) :
    readerStep sizeT (.skipBitsUnchecked order n) bs =
      (ReaderReply.done, ·) <$> drop order bs n := by
  cases order <;> rfl

theorem readerStep_align (sizeT : SizeT) (order : BitOrder) (bs : BsReader) :
    readerStep sizeT (.align order) bs = (ReaderReply.done, ·) <$> align order bs := by
  cases order <;> rfl

/-- The calls of both orders that check what they do. -/
def CheckedCall : ReaderCall → Prop
  | .readBit | .readBits _ _ | .peekBits _ _ | .skipBits _ _ | .align _ | .readBytes _ _ => True
  | .readBitsUnchecked _ _ | .peekBitsUnchecked _ _ | .skipBitsUnchecked _ _ => False

instance : DecidablePred CheckedCall
  | .readBit | .readBits _ _ | .peekBits _ _ | .skipBits _ _ | .align _ | .readBytes _ _ =>
    .isTrue trivial
  | .readBitsUnchecked _ _ | .peekBitsUnchecked _ _ | .skipBitsUnchecked _ _ => .isFalse id

end Bitstream.Reading
