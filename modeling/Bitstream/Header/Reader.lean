import Bitstream.Foundation.BitString
import Bitstream.Foundation.CheckedEvaluation
import Bitstream.Foundation.CallTrace

/-!
# The reader of `bitstream.h`

The reader functions, statement by statement. A context is a `BsReader`; a function takes the
context it is called on and returns its result together with the context it leaves. The counters
`bits_in_cache` and `n` are 32-bit unsigned numbers, `byte_pos` and `size` are numbers of type
`size_t`, whose width is a parameter. Increments that a comparison just before keeps below `size`
are exact and written as plain sums.

`ReaderCall` is the public interface as data: `readerStep` runs one call, and a run is a list of
calls, each issued with what shifts by 64 or more would yield during it.
-/

set_option autoImplicit false
set_option relaxedAutoImplicit false

namespace Bitstream.Header

open Foundation

/-- The type `size_t` of a platform. C99 asks for at least 16 bits. -/
structure SizeT where
  bits : ℕ
  sixteen_le : 16 ≤ bits

/-- The 64-bit `size_t`. -/
def sizeT64 : SizeT := ⟨64, by decide⟩

/-- The 32-bit `size_t`. -/
def sizeT32 : SizeT := ⟨32, by decide⟩

/-- The context `bs_reader_t`. -/
structure BsReader where
  buffer : List (BitVec 8)
  size : ℕ
  bytePos : ℕ
  bitCache : BitVec 64
  bitsInCache : ℕ
  deriving DecidableEq, Repr

def bsReaderInit (data : List (BitVec 8)) (size : ℕ) : BsReader where
  buffer := data
  size := size
  bytePos := 0
  bitCache := 0
  bitsInCache := 0

/-! ### Status -/

def bsReaderEof (bs : BsReader) : Bool := bs.bytePos ≥ bs.size ∧ bs.bitsInCache = 0

def bsReaderBitsLeft (sizeT : SizeT) (bs : BsReader) : ℕ :=
  if bs.bytePos ≥ bs.size then bs.bitsInCache % 2 ^ sizeT.bits
  else
    let bytesLeft := bs.size - bs.bytePos
    ((bytesLeft * 8) % 2 ^ sizeT.bits + bs.bitsInCache) % 2 ^ sizeT.bits

/-! ### Refilling the cache -/

/-- At most `passes` passes of the loop of the refill functions, which differ in how the next byte
enters the cache. -/
def refillLoop (push : BsReader → BitVec 8 → Eval (BitVec 64)) : ℕ → BsReader → Eval BsReader
  | 0, bs => pure bs
  | passes + 1, bs =>
    if bs.bitsInCache ≤ 56 then
      if bs.bytePos ≥ bs.size then pure bs
      else do
        let nextByte ← Eval.load bs.buffer bs.size bs.bytePos
        let bitCache ← push bs nextByte
        let bitsInCache ← Eval.add 32 bs.bitsInCache 8
        refillLoop push passes
          { bs with
            bitCache := bitCache
            bitsInCache := bitsInCache
            bytePos := bs.bytePos + 1 }
    else pure bs

/-- `(bs->bit_cache << 8) | next_byte`. -/
def pushByte (bs : BsReader) (nextByte : BitVec 8) : Eval (BitVec 64) := do
  let shifted ← Eval.shiftLeft bs.bitCache 8
  pure (shifted ||| nextByte.setWidth 64)

/-- A pass that does not leave the loop adds 8 to a count of at most 56, so the loop ends within
eight passes. -/
def bsReaderRefill (bs : BsReader) : Eval BsReader := refillLoop pushByte 8 bs

/-- `bs->bit_cache | ((uint64_t)next_byte << bs->bits_in_cache)`. -/
def pushByteLsb (bs : BsReader) (nextByte : BitVec 8) : Eval (BitVec 64) := do
  let shifted ← Eval.shiftLeft (nextByte.setWidth 64) bs.bitsInCache
  pure (bs.bitCache ||| shifted)

def bsReaderRefillLsb (bs : BsReader) : Eval BsReader := refillLoop pushByteLsb 8 bs

/-! ### The frame of the checked functions -/

/-- A checked function does nothing for `n == 0`. It refills the cache; `short` is what it does
when the cache then holds fewer than `n` bits, and `act` what it does otherwise. -/
def checked {α : Type} (refill : BsReader → Eval BsReader) (zero short : BsReader → α)
    (act : BsReader → ℕ → Eval α) (bs : BsReader) (n : ℕ) : Eval α :=
  if n = 0 then pure (zero bs)
  else do
    let bs ← refill bs
    if bs.bitsInCache < n then pure (short bs) else act bs n

/-- An unchecked function refills the cache and acts. -/
def unchecked {α : Type} (refill : BsReader → Eval BsReader) (act : BsReader → ℕ → Eval α)
    (bs : BsReader) (n : ℕ) : Eval α := do
  let bs ← refill bs
  act bs n

/-- `(uint32_t)(word & ((1ULL << n) - 1))`. -/
def lowField (word : BitVec 64) (n : ℕ) : Eval (BitVec 32) := do
  let bit ← Eval.shiftLeft 1#64 n
  pure ((word &&& (bit - 1#64)).setWidth 32)

/-! ### Most significant bit first -/

/-- `bits_in_cache -= n`, and the field just above the bits that stay. -/
def takeBits (bs : BsReader) (n : ℕ) : Eval (BitVec 32 × BsReader) := do
  let bitsInCache ← Eval.sub 32 bs.bitsInCache n
  let shifted ← Eval.shiftRight bs.bitCache bitsInCache
  let result ← lowField shifted n
  pure (result, { bs with bitsInCache := bitsInCache })

/-- The same field, with nothing consumed. -/
def showBits (bs : BsReader) (n : ℕ) : Eval (BitVec 32 × BsReader) := do
  let above ← Eval.sub 32 bs.bitsInCache n
  let shifted ← Eval.shiftRight bs.bitCache above
  let result ← lowField shifted n
  pure (result, bs)

/-- `bits_in_cache -= n`. -/
def dropBits (bs : BsReader) (n : ℕ) : Eval BsReader := do
  let bitsInCache ← Eval.sub 32 bs.bitsInCache n
  pure { bs with bitsInCache := bitsInCache }

def bsReadBits (bs : BsReader) (n : ℕ) : Eval (BitVec 32 × BsReader) :=
  checked bsReaderRefill (0, ·) (0, ·) takeBits bs n

def bsReadBit (bs : BsReader) : Eval (BitVec 8 × BsReader) := do
  let read ← bsReadBits bs 1
  pure (read.1.setWidth 8, read.2)

def bsPeekBits (bs : BsReader) (n : ℕ) : Eval (BitVec 32 × BsReader) :=
  checked bsReaderRefill (0, ·) (0, ·) showBits bs n

def bsSkipBits (bs : BsReader) (n : ℕ) : Eval BsReader :=
  checked bsReaderRefill id (fun bs ↦ { bs with bitsInCache := 0 }) dropBits bs n

def bsReadBitsUnchecked (bs : BsReader) (n : ℕ) : Eval (BitVec 32 × BsReader) :=
  unchecked bsReaderRefill takeBits bs n

def bsPeekBitsUnchecked (bs : BsReader) (n : ℕ) : Eval (BitVec 32 × BsReader) :=
  unchecked bsReaderRefill showBits bs n

def bsSkipBitsUnchecked (bs : BsReader) (n : ℕ) : Eval BsReader := dropBits bs n

def bsReaderAlign (bs : BsReader) : Eval BsReader :=
  let res := bs.bitsInCache % 8
  if res > 0 then dropBits bs res else pure bs

/-! ### Least significant bit first -/

/-- The lowest field, and the cache shifted down behind it. -/
def takeBitsLsb (bs : BsReader) (n : ℕ) : Eval (BitVec 32 × BsReader) := do
  let result ← lowField bs.bitCache n
  let bitCache ← Eval.shiftRight bs.bitCache n
  let bitsInCache ← Eval.sub 32 bs.bitsInCache n
  pure (result, { bs with bitCache := bitCache, bitsInCache := bitsInCache })

/-- The same field, with nothing consumed. -/
def showBitsLsb (bs : BsReader) (n : ℕ) : Eval (BitVec 32 × BsReader) := do
  let result ← lowField bs.bitCache n
  pure (result, bs)

/-- `bit_cache >>= n; bits_in_cache -= n`. -/
def dropBitsLsb (bs : BsReader) (n : ℕ) : Eval BsReader := do
  let bitCache ← Eval.shiftRight bs.bitCache n
  let bitsInCache ← Eval.sub 32 bs.bitsInCache n
  pure { bs with bitCache := bitCache, bitsInCache := bitsInCache }

def bsReadBitsLsb (bs : BsReader) (n : ℕ) : Eval (BitVec 32 × BsReader) :=
  checked bsReaderRefillLsb (0, ·) (0, ·) takeBitsLsb bs n

def bsPeekBitsLsb (bs : BsReader) (n : ℕ) : Eval (BitVec 32 × BsReader) :=
  checked bsReaderRefillLsb (0, ·) (0, ·) showBitsLsb bs n

def bsSkipBitsLsb (bs : BsReader) (n : ℕ) : Eval BsReader :=
  checked bsReaderRefillLsb id (fun bs ↦ { bs with bitsInCache := 0, bitCache := 0 }) dropBitsLsb
    bs n

def bsReadBitsLsbUnchecked (bs : BsReader) (n : ℕ) : Eval (BitVec 32 × BsReader) :=
  unchecked bsReaderRefillLsb takeBitsLsb bs n

def bsPeekBitsLsbUnchecked (bs : BsReader) (n : ℕ) : Eval (BitVec 32 × BsReader) :=
  unchecked bsReaderRefillLsb showBitsLsb bs n

def bsSkipBitsLsbUnchecked (bs : BsReader) (n : ℕ) : Eval BsReader := dropBitsLsb bs n

def bsReaderAlignLsb (bs : BsReader) : Eval BsReader :=
  let res := bs.bitsInCache % 8
  if res > 0 then dropBitsLsb bs res else pure bs

/-! ### Bulk transfer -/

/-- The result is the returned flag and the destination buffer after the call. -/
def bsReadBytes (sizeT : SizeT) (bs : BsReader) (dst : List (BitVec 8)) (nBytes : ℕ) :
    Eval ((Bool × List (BitVec 8)) × BsReader) :=
  if bs.bitsInCache % 8 ≠ 0 then pure ((false, dst), bs)
  else do
    let bytePos ← Eval.sub sizeT.bits bs.bytePos (bs.bitsInCache / 8)
    let bs := { bs with bytePos := bytePos, bitsInCache := 0, bitCache := 0 }
    let availableBytes ← Eval.sub sizeT.bits bs.size bs.bytePos
    if nBytes > availableBytes then pure ((false, dst), bs)
    else do
      let block ← Eval.loadBlock bs.buffer bs.size bs.bytePos nBytes
      pure ((true, block ++ dst.drop nBytes), { bs with bytePos := bs.bytePos + nBytes })

/-! ### Calls and runs -/

/-- A call of the public reader interface. The functions of the two bit orders differ in the
suffix `_lsb`; `bs_read_bit` is most significant bit first. -/
inductive ReaderCall
  | readBit
  | readBits (order : BitOrder) (n : ℕ)
  | peekBits (order : BitOrder) (n : ℕ)
  | skipBits (order : BitOrder) (n : ℕ)
  | readBitsUnchecked (order : BitOrder) (n : ℕ)
  | peekBitsUnchecked (order : BitOrder) (n : ℕ)
  | skipBitsUnchecked (order : BitOrder) (n : ℕ)
  | align (order : BitOrder)
  | readBytes (dst : List (BitVec 8)) (nBytes : ℕ)
  deriving DecidableEq, Repr

/-- What a reader call returns. -/
inductive ReaderReply
  | done
  | bit (value : BitVec 8)
  | field (value : BitVec 32)
  | block (ok : Bool) (dst : List (BitVec 8))
  deriving DecidableEq, Repr

/-- The reply to a call that returns a field. -/
def fieldReply (read : BitVec 32 × BsReader) : ReaderReply × BsReader := (.field read.1, read.2)

/-- One call. -/
def readerStep (sizeT : SizeT) : ReaderCall → BsReader → Eval (ReaderReply × BsReader)
  | .readBit, bs => do
    let read ← bsReadBit bs
    pure (.bit read.1, read.2)
  | .readBits .msb n, bs => fieldReply <$> bsReadBits bs n
  | .readBits .lsb n, bs => fieldReply <$> bsReadBitsLsb bs n
  | .peekBits .msb n, bs => fieldReply <$> bsPeekBits bs n
  | .peekBits .lsb n, bs => fieldReply <$> bsPeekBitsLsb bs n
  | .skipBits .msb n, bs => (ReaderReply.done, ·) <$> bsSkipBits bs n
  | .skipBits .lsb n, bs => (ReaderReply.done, ·) <$> bsSkipBitsLsb bs n
  | .readBitsUnchecked .msb n, bs => fieldReply <$> bsReadBitsUnchecked bs n
  | .readBitsUnchecked .lsb n, bs => fieldReply <$> bsReadBitsLsbUnchecked bs n
  | .peekBitsUnchecked .msb n, bs => fieldReply <$> bsPeekBitsUnchecked bs n
  | .peekBitsUnchecked .lsb n, bs => fieldReply <$> bsPeekBitsLsbUnchecked bs n
  | .skipBitsUnchecked .msb n, bs => (ReaderReply.done, ·) <$> bsSkipBitsUnchecked bs n
  | .skipBitsUnchecked .lsb n, bs => (ReaderReply.done, ·) <$> bsSkipBitsLsbUnchecked bs n
  | .align .msb, bs => (ReaderReply.done, ·) <$> bsReaderAlign bs
  | .align .lsb, bs => (ReaderReply.done, ·) <$> bsReaderAlignLsb bs
  | .readBytes dst nBytes, bs => do
    let read ← bsReadBytes sizeT bs dst nBytes
    pure (.block read.1.1 read.1.2, read.2)

/-- The reply and the state after a call issued with what undefined shifts yield during it. -/
def readerAct (sizeT : SizeT) (issued : Overshift × ReaderCall) (bs : BsReader) :
    ReaderReply × BsReader := (readerStep sizeT issued.2 bs).value issued.1

/-- What a caller sees of a reader: its reply and the two status functions. -/
def readerObservation (sizeT : SizeT) (entry : ReaderReply × BsReader) : ReaderReply × ℕ × Bool :=
  (entry.1, bsReaderBitsLeft sizeT entry.2, bsReaderEof entry.2)

end Bitstream.Header
