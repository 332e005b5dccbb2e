import Bitstream.Header.Reader

/-!
# The writer of `bitstream.h`

The writer functions, statement by statement, in the manner of the reader. Every function that
writes bits ends in the same way: the bits are queued in the cache, and when a byte is complete
the cache is drained into the buffer. `overflow` is raised by the two drains and by
`bs_write_bytes`; the flush functions raise it again when a drain left eight bits or more.

`WriterCall` is the public interface as data and `writerStep` runs one call.
-/

set_option autoImplicit false
set_option relaxedAutoImplicit false

namespace Bitstream.Header

open Foundation

/-- The context `bs_writer_t`. -/
structure BsWriter where
  buffer : List (BitVec 8)
  size : ℕ
  bytePos : ℕ
  bitCache : BitVec 64
  bitsInCache : ℕ
  overflow : Bool
  deriving DecidableEq, Repr

def bsWriterInit (data : List (BitVec 8)) (size : ℕ) : BsWriter where
  buffer := data
  size := size
  bytePos := 0
  bitCache := 0
  bitsInCache := 0
  overflow := false

def bsWriterBytesWritten (bs : BsWriter) : ℕ := bs.bytePos

/-! ### Draining the cache -/

/-- At most `passes` passes of the loop of the dump functions, which differ in the byte they take
from the cache and in what they leave of it. -/
def dumpLoop (pop : BsWriter → Eval (BitVec 8 × BitVec 64)) : ℕ → BsWriter → Eval BsWriter
  | 0, bs => pure bs
  | passes + 1, bs =>
    if bs.bitsInCache ≥ 8 then
      if bs.bytePos ≥ bs.size then pure { bs with overflow := true }
      else do
        let popped ← pop bs
        let buffer ← Eval.store bs.buffer bs.size bs.bytePos popped.1
        let bitsInCache ← Eval.sub 32 bs.bitsInCache 8
        dumpLoop pop passes
          { bs with
            buffer := buffer
            bytePos := bs.bytePos + 1
            bitCache := popped.2
            bitsInCache := bitsInCache }
    else pure bs

/-- The byte `(bs->bit_cache >> shift_amount) & 0xFF`, with the cache unchanged. -/
def popByte (bs : BsWriter) : Eval (BitVec 8 × BitVec 64) := do
  let shiftAmount ← Eval.sub 32 bs.bitsInCache 8
  let shifted ← Eval.shiftRight bs.bitCache shiftAmount
  pure ((shifted &&& 0xFF#64).setWidth 8, bs.bitCache)

/-- A pass that does not leave the loop takes 8 from the count, so the loop ends within
`bits_in_cache / 8` passes. -/
def bsWriterDump (bs : BsWriter) : Eval BsWriter := do
  let bs ← dumpLoop popByte (bs.bitsInCache / 8) bs
  let bit ← Eval.shiftLeft 1#64 bs.bitsInCache
  pure { bs with bitCache := bs.bitCache &&& (bit - 1#64) }

/-- The byte `bs->bit_cache & 0xFF`, with the cache shifted down behind it. -/
def popByteLsb (bs : BsWriter) : Eval (BitVec 8 × BitVec 64) := do
  let bitCache ← Eval.shiftRight bs.bitCache 8
  pure ((bs.bitCache &&& 0xFF#64).setWidth 8, bitCache)

def bsWriterDumpLsb (bs : BsWriter) : Eval BsWriter := dumpLoop popByteLsb (bs.bitsInCache / 8) bs

/-! ### The frame of the writing functions -/

/-- `n` bits have entered the cache: count them, and drain when a byte is complete. -/
def queueBits (dump : BsWriter → Eval BsWriter) (bs : BsWriter) (bitCache : BitVec 64) (n : ℕ) :
    Eval BsWriter := do
  let bitsInCache ← Eval.add 32 bs.bitsInCache n
  let bs := { bs with bitCache := bitCache, bitsInCache := bitsInCache }
  if bs.bitsInCache ≥ 8 then dump bs else pure bs

/-- `value & ((1ULL << n) - 1)`. -/
def cleanValue (value : BitVec 32) (n : ℕ) : Eval (BitVec 64) := do
  let bit ← Eval.shiftLeft 1#64 n
  pure (value.setWidth 64 &&& (bit - 1#64))

/-- The flush functions, which differ in the dump and the write they call. -/
def flush (dump : BsWriter → Eval BsWriter) (write : BsWriter → BitVec 32 → ℕ → Eval BsWriter)
    (bs : BsWriter) : Eval BsWriter :=
  let pad (bs : BsWriter) : Eval BsWriter := do
    let paddingBits ← Eval.sub 32 8 bs.bitsInCache
    write bs 0 paddingBits
  if bs.bitsInCache = 0 then pure bs
  else if bs.overflow ∨ bs.bitsInCache ≥ 8 then do
    let bs ← dump bs
    if bs.bitsInCache = 0 then pure bs
    else if bs.bitsInCache ≥ 8 then pure { bs with overflow := true }
    else pad bs
  else pad bs

/-- The align functions, which differ in the write they call. -/
def align (write : BsWriter → BitVec 32 → ℕ → Eval BsWriter) (bs : BsWriter) : Eval BsWriter :=
  let res := bs.bitsInCache % 8
  if res > 0 then write bs 0 (8 - res) else pure bs

/-! ### Most significant bit first -/

def bsWriteBit (bs : BsWriter) (value : BitVec 8) : Eval BsWriter := do
  let shifted ← Eval.shiftLeft bs.bitCache 1
  queueBits bsWriterDump bs (shifted ||| (value &&& 1#8).setWidth 64) 1

/-- The source asserts `n <= 32` first. -/
def bsWriteBits (bs : BsWriter) (value : BitVec 32) (n : ℕ) : Eval BsWriter :=
  if n = 0 then pure bs
  else do
    let clean ← cleanValue value n
    let shifted ← Eval.shiftLeft bs.bitCache n
    queueBits bsWriterDump bs (shifted ||| clean) n

def bsWriteBitsUnchecked (bs : BsWriter) (value : BitVec 32) (n : ℕ) : Eval BsWriter := do
  let shifted ← Eval.shiftLeft bs.bitCache n
  queueBits bsWriterDump bs (shifted ||| value.setWidth 64) n

def bsWriterFlush (bs : BsWriter) : Eval BsWriter := flush bsWriterDump bsWriteBits bs

def bsWriterAlign (bs : BsWriter) : Eval BsWriter := align bsWriteBits bs

/-! ### Least significant bit first -/

/-- The source asserts `n <= 32` first. -/
def bsWriteBitsLsb (bs : BsWriter) (value : BitVec 32) (n : ℕ) : Eval BsWriter :=
  if n = 0 then pure bs
  else do
    let clean ← cleanValue value n
    let shifted ← Eval.shiftLeft clean bs.bitsInCache
    queueBits bsWriterDumpLsb bs (bs.bitCache ||| shifted) n

def bsWriteBitsLsbUnchecked (bs : BsWriter) (value : BitVec 32) (n : ℕ) : Eval BsWriter := do
  let shifted ← Eval.shiftLeft (value.setWidth 64) bs.bitsInCache
  queueBits bsWriterDumpLsb bs (bs.bitCache ||| shifted) n

def bsWriterFlushLsb (bs : BsWriter) : Eval BsWriter := flush bsWriterDumpLsb bsWriteBitsLsb bs

def bsWriterAlignLsb (bs : BsWriter) : Eval BsWriter := align bsWriteBitsLsb bs

/-! ### Bulk transfer -/

/-- The result is the returned flag and the context. -/
def bsWriteBytes (sizeT : SizeT) (bs : BsWriter) (src : List (BitVec 8)) :
    Eval (Bool × BsWriter) :=
  if bs.bitsInCache ≠ 0 then pure (false, bs)
  else if bs.overflow then pure (false, bs)
  else do
    let available ← Eval.sub sizeT.bits bs.size bs.bytePos
    if src.length > available then pure (false, { bs with overflow := true })
    else do
      let buffer ← Eval.storeBlock bs.buffer bs.size bs.bytePos src
      pure (true, { bs with buffer := buffer, bytePos := bs.bytePos + src.length })

/-! ### Calls and runs -/

/-- A call of the public writer interface. The functions of the two bit orders differ in the
suffix `_lsb`; `bs_write_bit` is most significant bit first. -/
inductive WriterCall
  | writeBit (value : BitVec 8)
  | writeBits (order : BitOrder) (value : BitVec 32) (n : ℕ)
  | writeBitsUnchecked (order : BitOrder) (value : BitVec 32) (n : ℕ)
  | align (order : BitOrder)
  | flush (order : BitOrder)
  | writeBytes (src : List (BitVec 8))
  deriving DecidableEq, Repr

/-- What a writer call returns: `bs_write_bytes` a flag, every other function nothing. -/
abbrev WriterReply := Option Bool

/-- One call. -/
def writerStep (sizeT : SizeT) : WriterCall → BsWriter → Eval (WriterReply × BsWriter)
  | .writeBit value, bs => (none, ·) <$> bsWriteBit bs value
  | .writeBits .msb value n, bs => (none, ·) <$> bsWriteBits bs value n
  | .writeBits .lsb value n, bs => (none, ·) <$> bsWriteBitsLsb bs value n
  | .writeBitsUnchecked .msb value n, bs => (none, ·) <$> bsWriteBitsUnchecked bs value n
  | .writeBitsUnchecked .lsb value n, bs => (none, ·) <$> bsWriteBitsLsbUnchecked bs value n
  | .align .msb, bs => (none, ·) <$> bsWriterAlign bs
  | .align .lsb, bs => (none, ·) <$> bsWriterAlignLsb bs
  | .flush .msb, bs => (none, ·) <$> bsWriterFlush bs
  | .flush .lsb, bs => (none, ·) <$> bsWriterFlushLsb bs
  | .writeBytes src, bs => do
    let written ← bsWriteBytes sizeT bs src
    pure (some written.1, written.2)

/-- The reply and the state after a call issued with what undefined shifts yield during it. -/
def writerAct (sizeT : SizeT) (issued : Overshift × WriterCall) (bs : BsWriter) :
    WriterReply × BsWriter := (writerStep sizeT issued.2 bs).value issued.1

end Bitstream.Header
