import Bitstream.Examples.Codes
import Bitstream.Reading.BitSource

/-!
# The program `deflate_block.c`

Stored blocks of DEFLATE: three bits of header, an align, the length and its complement as bytes,
and the literal data. A `Block` is what such a block says and `Block.bytes` its layout. The encoder
writes the layout of every block that fits (`deflateEncodeStoredBlock_returns`); it queues 40 bits
and copies the rest, so it is defined for every capacity. The decoder accepts exactly the inputs
that begin with a block, whatever the padding bits of the header are
(`deflateDecodeStoredBlock_accepts`), and copies its data into an array of 256 bytes without looking
at the length: it is defined exactly if the accepted block has no more.

A failing assertion ends the program; a function that asserts returns none then.
-/

set_option autoImplicit false
set_option relaxedAutoImplicit false

namespace Bitstream.Examples.DeflateBlock

open Foundation Header Reading Writing

/-! ### The format -/

/-- What a stored block says. -/
structure Block where
  isFinal : Bool
  literal : List (BitVec 8)
  length_lt : literal.length < 2 ^ 16

def lowByte (x : BitVec 16) : BitVec 8 := x.setWidth 8

def highByte (x : BitVec 16) : BitVec 8 := (x >>> 8).setWidth 8

namespace Block

/-- The field `LEN`. -/
def len (b : Block) : BitVec 16 := BitVec.ofNat 16 b.literal.length

/-- The header bits, with zeros above them. -/
def header (b : Block) : BitVec 8 := if b.isFinal then 1 else 0

/-- What comes behind the header: the fields `LEN` and `NLEN`, and the literal data. -/
def body (b : Block) : List (BitVec 8) :=
  [lowByte b.len, highByte b.len, lowByte (~~~ b.len), highByte (~~~ b.len)] ++ b.literal

def bytes (b : Block) : List (BitVec 8) := b.header :: b.body

/-- The input begins with the block; the five bits above the header bits are padding. -/
def Begins (b : Block) (input : List (BitVec 8)) : Prop :=
  ∃ first rest, input = first :: (b.body ++ rest) ∧ first &&& 7 = b.header

theorem length_body (b : Block) : b.body.length = 4 + b.literal.length := by
  rw [body, List.length_append]
  rfl

theorem toNat_len (b : Block) : b.len.toNat = b.literal.length := by
  rw [len, BitVec.toNat_ofNat, Nat.mod_eq_of_lt b.length_lt]

end Block

/-! ### The functions -/

/-- `(x >> shift) & 0xFF`. -/
def fieldByte (x : BitVec 16) (shift : ℕ) : BitVec 32 := (x.setWidth 32 >>> shift) &&& 0xFF

/-- The header bits `BFINAL` and `BTYPE`, and the align behind them. -/
def writeHeader (bw : BsWriter) (isFinal : BitVec 32) : Eval BsWriter := do
  let bw ← bsWriteBitsLsb bw (if isFinal ≠ 0 then 1 else 0) 1
  let bw ← bsWriteBitsLsb bw 0 2
  bsWriterAlignLsb bw

/-- The fields `LEN` and `NLEN`. -/
def writeLengths (bw : BsWriter) (len : BitVec 16) : Eval BsWriter := do
  let nlen := ~~~ len
  let bw ← bsWriteBitsLsb bw (fieldByte len 0) 8
  let bw ← bsWriteBitsLsb bw (fieldByte len 8) 8
  let bw ← bsWriteBitsLsb bw (fieldByte nlen 0) 8
  bsWriteBitsLsb bw (fieldByte nlen 8) 8

/-- The result is the number of bytes and the buffer. The encoder reads the first `len` bytes of
`literal`. -/
def deflateEncodeStoredBlock (sizeT : SizeT) (literal : List (BitVec 8)) (len : BitVec 16)
    (isFinal : BitVec 32) (out : List (BitVec 8)) (outSize : ℕ) :
    Eval (Option (ℕ × List (BitVec 8))) := do
  let bw ← writeHeader (bsWriterInit out outSize) isFinal
  let bw ← writeLengths bw len
  let written ← bsWriteBytes sizeT bw (literal.take len.toNat)
  pure (if written.1 = false ∨ written.2.overflow then none
    else some (bsWriterBytesWritten written.2, written.2.buffer))

/-- The type `stored_block_t`. -/
structure StoredBlock where
  isFinal : BitVec 32
  len : BitVec 16
  data : List (BitVec 8)
  deriving DecidableEq

/-- `(uint16_t)(lo | (hi << 8))`. -/
def joinBytes (lo hi : BitVec 32) : BitVec 16 := (lo ||| hi <<< 8).setWidth 16

/-- The array `uint8_t data[256]`, zeroed. -/
def zeroData : List (BitVec 8) := List.replicate 256 0

theorem length_zeroData : zeroData.length = 256 := List.length_replicate

/-- A block as the decoder returns it. -/
def Block.decoded (b : Block) : StoredBlock where
  isFinal := if b.isFinal then 1 else 0
  len := b.len
  data := b.literal ++ zeroData.drop b.literal.length

/-- The header bits `BFINAL` and `BTYPE`. -/
def readHeader (br : BsReader) : Eval ((BitVec 32 × BitVec 32) × BsReader) := do
  let isFinal ← bsReadBitsLsb br 1
  let btype ← bsReadBitsLsb isFinal.2 2
  pure ((isFinal.1, btype.1), btype.2)

/-- The fields `LEN` and `NLEN`. -/
def readLengths (br : BsReader) : Eval ((BitVec 16 × BitVec 16) × BsReader) := do
  let lenLo ← bsReadBitsLsb br 8
  let lenHi ← bsReadBitsLsb lenLo.2 8
  let nlenLo ← bsReadBitsLsb lenHi.2 8
  let nlenHi ← bsReadBitsLsb nlenLo.2 8
  pure ((joinBytes lenLo.1 lenHi.1, joinBytes nlenLo.1 nlenHi.1), nlenHi.2)

/-- The copy that `bs_read_bytes` makes is recorded as an access to `data`, whose size it does not
know. -/
def deflateDecodeStoredBlock (sizeT : SizeT) (input : List (BitVec 8)) (inSize : ℕ) :
    Eval (Option StoredBlock) := do
  let header ← readHeader (bsReaderInit input inSize)
  if header.1.2 = 0 then do
    let br ← bsReaderAlignLsb header.2
    let lengths ← readLengths br
    if lengths.1.1 ^^^ lengths.1.2 = 0xFFFF then do
      let read ← bsReadBytes sizeT lengths.2 zeroData lengths.1.1.toNat
      if read.1.1 then do
        let data ← Eval.storeBlock zeroData zeroData.length 0 (read.1.2.take lengths.1.1.toNat)
        pure (some ⟨header.1.1, lengths.1.1, data⟩)
      else pure none
    else pure none
  else pure none

/-- The exit code, with the array `wire`. The payload is the message without its terminator. -/
def main (sizeT : SizeT) (message : CString) (wire : List (BitVec 8)) : Eval (Option ℕ) := do
  let payloadLen := BitVec.ofNat 16 message.chars.length
  match ← deflateEncodeStoredBlock sizeT (message.chars ++ [0]) payloadLen 1 wire wire.length with
  | none => pure none
  | some (wireLen, wire) => do
    match ← deflateDecodeStoredBlock sizeT (wire.take wireLen) wireLen with
    | none => pure none
    | some block =>
      pure (if block.isFinal = 1 ∧ block.len = payloadLen ∧
          block.data.take payloadLen.toNat = (message.chars ++ [0]).take payloadLen.toNat
        then some 0 else none)

/-! ### Bytes of a length -/

theorem fieldBits_fieldByte (x : BitVec 16) (shift : ℕ) :
    fieldBits .lsb 8 (fieldByte x shift).toNat = wordBits .lsb ((x >>> shift).setWidth 8) := by
  have hvalue : (fieldByte x shift).toNat = ((x >>> shift).setWidth 8).toNat := by
    have hsmall : x.toNat < 2 ^ 32 := x.isLt.trans (by norm_num)
    rw [fieldByte, BitVec.toNat_and, BitVec.toNat_ushiftRight, BitVec.toNat_setWidth,
      Nat.mod_eq_of_lt hsmall, BitVec.toNat_setWidth, BitVec.toNat_ushiftRight]
    exact Nat.and_two_pow_sub_one_eq_mod _ 8
  rw [hvalue, wordBits]

theorem toNat_append_bytes (lo hi : BitVec 8) :
    (hi ++ lo : BitVec 16).toNat = hi.toNat * 256 + lo.toNat := by
  have happend : (hi ++ lo : BitVec 16).toNat = hi.toNat <<< 8 ||| lo.toNat :=
    BitVec.toNat_append hi lo
  rw [happend, ← Nat.shiftLeft_add_eq_or_of_lt lo.isLt, Nat.shiftLeft_eq]

theorem lowByte_append (lo hi : BitVec 8) : lowByte (hi ++ lo) = lo := by
  have hlo := lo.isLt
  refine BitVec.eq_of_toNat_eq ?_
  rw [lowByte, BitVec.toNat_setWidth, toNat_append_bytes]
  omega

theorem highByte_append (lo hi : BitVec 8) : highByte (hi ++ lo) = hi := by
  have hlo := lo.isLt
  have hhi := hi.isLt
  refine BitVec.eq_of_toNat_eq ?_
  rw [highByte, BitVec.toNat_setWidth, BitVec.toNat_ushiftRight, toNat_append_bytes,
    Nat.shiftRight_eq_div_pow]
  omega

theorem append_lowByte (x : BitVec 16) : (highByte x ++ lowByte x : BitVec 16) = x := by
  have hx := x.isLt
  refine BitVec.eq_of_toNat_eq ?_
  rw [toNat_append_bytes, highByte, lowByte, BitVec.toNat_setWidth, BitVec.toNat_setWidth,
    BitVec.toNat_ushiftRight, Nat.shiftRight_eq_div_pow]
  omega

theorem joinBytes_eq (lo hi : BitVec 8) :
    joinBytes (lo.setWidth 32) (hi.setWidth 32) = (hi ++ lo : BitVec 16) := by
  have hlo := lo.isLt
  have hhi := hi.isLt
  refine BitVec.eq_of_toNat_eq ?_
  have hlo32 : (lo.setWidth 32).toNat = lo.toNat := by
    rw [BitVec.toNat_setWidth]
    omega
  have hhi32 : (hi.setWidth 32 <<< 8).toNat = hi.toNat <<< 8 := by
    rw [BitVec.toNat_shiftLeft, BitVec.toNat_setWidth, Nat.shiftLeft_eq, Nat.shiftLeft_eq]
    omega
  rw [toNat_append_bytes, joinBytes, BitVec.toNat_setWidth, BitVec.toNat_or, hlo32, hhi32,
    Nat.or_comm, ← Nat.shiftLeft_add_eq_or_of_lt lo.isLt, Nat.shiftLeft_eq]
  omega

/-- Two numbers whose exclusive or has only ones are complements. -/
theorem xor_eq_ones_iff (x y : BitVec 16) : x ^^^ y = 0xFFFF ↔ y = ~~~ x := by
  have hones : (0xFFFF : BitVec 16) = BitVec.allOnes 16 := by decide
  rw [hones]
  constructor
  · intro h
    rw [← BitVec.xor_allOnes, ← h, ← BitVec.xor_assoc, BitVec.xor_self, BitVec.zero_xor]
  · rintro rfl
    rw [← BitVec.xor_allOnes, ← BitVec.xor_assoc, BitVec.xor_self, BitVec.zero_xor]

/-! ### Encoding -/

section Encoding

variable {mode : Overshift} {out : List (BitVec 8)} {bw : BsWriter}

/-- The header bits and the align leave the header byte. -/
theorem writeHeader_ensures (mode : Overshift) (b : Block) {isFinal : BitVec 32}
    (hfinal : b.isFinal = decide (isFinal ≠ 0)) (out : List (BitVec 8)) :
    Eval.Ensures mode (writeHeader (bsWriterInit out out.length) isFinal) fun after ↦
      EmittedInRange .lsb out after (stream .lsb [b.header]) := by
  have hflag : (if isFinal ≠ 0 then 1 else 0 : BitVec 32) = if b.isFinal then 1 else 0 := by
    by_cases hzero : isFinal = 0 <;> simp [hfinal, hzero]
  have hbit : Eval.Ensures mode (bsWriteBitsLsb (bsWriterInit out out.length) _ 1) _ :=
    (emittedInRange_init .lsb out).write_ensures (if b.isFinal then 1 else 0) (by norm_num)
      (Nat.zero_le _)
  rw [writeHeader, hflag]
  refine hbit.bind fun bw hbw ↦ ?_
  have hfirst : Takes .lsb out.length
      ([] ++ fieldBits .lsb 1 (if b.isFinal then 1 else 0 : BitVec 32).toNat).length 2 := by
    rw [List.nil_append, length_fieldBits]
    exact Nat.le_add_left_of_le (by norm_num)
  have htype : Eval.Ensures mode (bsWriteBitsLsb bw 0 2) _ :=
    hbw.write_ensures 0 (by norm_num) hfirst
  refine htype.bind fun bw hbw ↦ ?_
  have hbyte : stream .lsb [b.header] = padded 8 ([] ++
      fieldBits .lsb 1 (if b.isFinal then 1 else 0 : BitVec 32).toNat ++
        fieldBits .lsb 2 (0 : BitVec 32).toNat) := by
    unfold Block.header
    cases b.isFinal <;> decide
  rw [hbyte]
  refine hbw.align_ensures ?_
  rw [List.nil_append, List.length_append, length_fieldBits, length_fieldBits]
  exact Nat.le_add_left_of_le (by norm_num)

/-- A byte of a length behind a few whole bytes. -/
theorem writeByte_ensures {bytes : List (BitVec 8)}
    (h : EmittedInRange .lsb out bw (stream .lsb bytes)) (x : BitVec 16) (shift : ℕ)
    (hfew : bytes.length ≤ 7) :
    Eval.Ensures mode (bsWriteBitsLsb bw (fieldByte x shift) 8) fun after ↦
      EmittedInRange .lsb out after (stream .lsb (bytes ++ [(x >>> shift).setWidth 8])) := by
  have htakes : Takes .lsb out.length (stream .lsb bytes).length 8 := by
    rw [length_stream]
    exact Nat.le_add_left_of_le (by omega)
  have hwrite : Eval.Ensures mode (bsWriteBitsLsb bw (fieldByte x shift) 8) _ :=
    h.write_ensures (fieldByte x shift) (by norm_num) htakes
  refine hwrite.mono fun after hafter ↦ ?_
  rwa [fieldBits_fieldByte, ← List.append_nil (wordBits .lsb _), ← stream_nil (w := 8) .lsb,
    ← stream_cons, ← stream_append] at hafter

theorem writeLengths_ensures (b : Block) (h : EmittedInRange .lsb out bw (stream .lsb [b.header])) :
    Eval.Ensures mode (writeLengths bw b.len) fun after ↦
      EmittedInRange .lsb out after (stream .lsb (b.header :: [lowByte b.len, highByte b.len,
        lowByte (~~~ b.len), highByte (~~~ b.len)])) := by
  refine (writeByte_ensures h b.len 0 (by simp)).bind fun bw hbw ↦ ?_
  refine (writeByte_ensures hbw b.len 8 (by simp)).bind fun bw hbw ↦ ?_
  refine (writeByte_ensures hbw (~~~ b.len) 0 (by simp)).bind fun bw hbw ↦ ?_
  refine (writeByte_ensures hbw (~~~ b.len) 8 (by simp)).mono fun after hafter ↦ ?_
  rwa [BitVec.ushiftRight_zero, BitVec.ushiftRight_zero] at hafter

/-- The encoder for every block and every capacity: it returns the layout of the block if it fits,
and an assertion fails otherwise. Every operation is defined, since only the header is queued bit by
bit. Assumes: the literal data begins with the data of the block, and the flag tells whether it is
final. -/
theorem deflateEncodeStoredBlock_returns (sizeT : SizeT) (mode : Overshift) (b : Block)
    (more : List (BitVec 8)) {isFinal : BitVec 32} (hfinal : b.isFinal = decide (isFinal ≠ 0))
    (out : List (BitVec 8)) :
    Eval.Ensures mode
      (deflateEncodeStoredBlock sizeT (b.literal ++ more) b.len isFinal out out.length)
      fun result ↦ result =
        if b.bytes.length ≤ out.length then
          some (b.bytes.length, b.bytes ++ out.drop b.bytes.length)
        else none := by
  refine (writeHeader_ensures mode b hfinal out).bind fun bw hbw ↦ ?_
  refine (writeLengths_ensures b hbw).bind fun bw hbw ↦ ?_
  rw [b.toNat_len, List.take_left' rfl]
  refine (hbw.writeBytes_ensures sizeT b.literal).bind fun written hwritten ↦ Eval.ensures_pure ?_
  obtain ⟨hok, hemitted⟩ := hwritten
  have hbytes : b.bytes.length = 5 + b.literal.length := by
    rw [Block.bytes, List.length_cons, b.length_body]
    omega
  by_cases hfit : b.bytes.length ≤ out.length
  · have htrue : written.1 = true := hok.mpr (hbytes.symm.trans_le hfit)
    have hstored : Emitted .lsb out written.2 (stream .lsb b.bytes) := hemitted htrue
    obtain ⟨hopen, hcount, hbuffer⟩ := hstored.stored hfit
    rw [htrue, hopen, hcount, hbuffer, if_neg (by decide), if_pos hfit]
  · have hfalse : written.1 = false := by
      rw [← Bool.not_eq_true, hok]
      exact fun hroom ↦ hfit (hbytes.trans_le hroom)
    rw [if_pos (.inl hfalse), if_neg hfit]

/-- A block of one byte, and no room at all. -/
theorem deflateEncodeStoredBlock_returns_no_room :
    Eval.Ensures .masked
      (deflateEncodeStoredBlock sizeT64 ([0x48] ++ []) (Block.len ⟨true, [0x48], by decide⟩) 1 [] 0)
      fun result ↦ result =
        if (Block.bytes ⟨true, [0x48], by decide⟩).length ≤ 0 then
          some ((Block.bytes ⟨true, [0x48], by decide⟩).length,
            Block.bytes ⟨true, [0x48], by decide⟩ ++
              [].drop (Block.bytes ⟨true, [0x48], by decide⟩).length)
        else none :=
  deflateEncodeStoredBlock_returns sizeT64 .masked ⟨true, [0x48], by decide⟩ [] (by decide) []

end Encoding

/-! ### Decoding -/

section Decoding

variable {mode : Overshift} {br : BsReader} {bytes input : List (BitVec 8)}

/-- A byte of the stream, 0 behind its end. -/
theorem readByte_ensures (h : Delivers .lsb br (stream .lsb bytes)) :
    Eval.Ensures mode (bsReadBitsLsb br 8) fun read ↦
      read.1 = (bytes.headD 0).setWidth 32 ∧ Delivers .lsb read.2 (stream .lsb bytes.tail) := by
  have hread : Eval.Ensures mode (bsReadBitsLsb br 8) _ := h.read_ensures (by norm_num)
  refine hread.mono fun read hread ↦ ?_
  cases bytes with
  | nil => exact hread
  | cons byte rest =>
    have hlength : 8 ≤ (stream .lsb (byte :: rest)).length := by
      rw [length_stream, List.length_cons]
      omega
    rw [if_pos hlength, stream_cons, List.drop_left' (length_wordBits .lsb byte), wordBits,
      leadingField_append] at hread
    refine ⟨hread.1.trans ?_, hread.2⟩
    rw [Nat.mod_eq_of_lt byte.isLt]
    exact BitVec.ofNat_toNat 32 byte

theorem readLengths_ensures (h : Delivers .lsb br (stream .lsb bytes)) :
    Eval.Ensures mode (readLengths br) fun read ↦
      read.1 = (bytes.getD 1 0 ++ bytes.getD 0 0, bytes.getD 3 0 ++ bytes.getD 2 0) ∧
        Delivers .lsb read.2 (stream .lsb (bytes.drop 4)) := by
  refine (readByte_ensures h).bind fun lenLo hlenLo ↦ ?_
  refine (readByte_ensures hlenLo.2).bind fun lenHi hlenHi ↦ ?_
  refine (readByte_ensures hlenHi.2).bind fun nlenLo hnlenLo ↦ ?_
  refine (readByte_ensures hnlenLo.2).bind fun nlenHi hnlenHi ↦ Eval.ensures_pure ?_
  rw [hlenLo.1, hlenHi.1, hnlenLo.1, hnlenHi.1, joinBytes_eq, joinBytes_eq]
  rcases bytes with _ | ⟨lenLo, _ | ⟨lenHi, _ | ⟨nlenLo, _ | ⟨nlenHi, rest⟩⟩⟩⟩ <;>
    exact ⟨rfl, hnlenHi.2⟩

/-- The bits of the header byte, cut behind the header bits. -/
theorem wordBits_header (first : BitVec 8) :
    wordBits .lsb first = fieldBits .lsb 1 first.toNat ++
      (fieldBits .lsb 2 (first.toNat >>> 1) ++ fieldBits .lsb 5 (first.toNat >>> 1 >>> 2)) := by
  rw [wordBits, ← fieldBits_lsb_add, ← fieldBits_lsb_add]

/-- The header bits of the first byte; 0 if there is none. -/
theorem readHeader_ensures (mode : Overshift) (input : List (BitVec 8)) :
    Eval.Ensures mode (readHeader (bsReaderInit input input.length)) fun read ↦
      read.1 = (BitVec.ofNat 32 ((input.getD 0 0).toNat % 2),
        BitVec.ofNat 32 ((input.getD 0 0).toNat >>> 1 % 4)) ∧
          Delivers .lsb read.2 ((stream .lsb input).drop 3) := by
  have hflag : Eval.Ensures mode (bsReadBitsLsb (bsReaderInit input input.length) 1) _ :=
    (delivers_init .lsb input).read_ensures (by norm_num)
  refine hflag.bind fun isFinal hfinal ↦ ?_
  have htype : Eval.Ensures mode (bsReadBitsLsb isFinal.2 2) _ :=
    hfinal.2.read_ensures (by norm_num)
  refine htype.bind fun btype hbtype ↦ Eval.ensures_pure ?_
  cases input with
  | nil => exact ⟨Prod.ext hfinal.1 hbtype.1, hbtype.2⟩
  | cons first rest =>
    have hlength : (stream .lsb (first :: rest)).length = 8 * (rest.length + 1) := by
      rw [length_stream, List.length_cons]
    have hone : 1 ≤ (stream .lsb (first :: rest)).length := by omega
    have htwo : 2 ≤ ((stream .lsb (first :: rest)).drop 1).length := by
      rw [List.length_drop]
      omega
    rw [if_pos hone, if_pos htwo, List.drop_drop] at hbtype
    refine ⟨Prod.ext ?_ ?_, hbtype.2⟩
    · rw [stream_cons, wordBits_header, List.append_assoc, leadingField_append] at hfinal
      exact hfinal.1
    · rw [stream_cons, wordBits_header, List.append_assoc,
        List.drop_left' (length_fieldBits .lsb 1 _), List.append_assoc, leadingField_append]
        at hbtype
      exact hbtype.1

/-- The align behind the header bits. -/
theorem alignHeader_ensures (h : Delivers .lsb br ((stream .lsb input).drop 3)) :
    Eval.Ensures mode (bsReaderAlignLsb br) fun after ↦
      Delivers .lsb after (stream .lsb input.tail) := by
  have halign : Eval.Ensures mode (bsReaderAlignLsb br) _ := h.align_ensures
  refine halign.mono fun after hafter ↦ ?_
  cases input with
  | nil => exact hafter
  | cons first rest =>
    have hpadding : ((stream .lsb (first :: rest)).drop 3).length % 8 = 5 := by
      rw [List.length_drop, length_stream, List.length_cons]
      omega
    rw [hpadding, List.drop_drop, stream_cons, List.drop_left' (length_wordBits .lsb first)]
      at hafter
    exact hafter

/-- The field `LEN` of an input, with zeros behind its end. -/
def lenOf (input : List (BitVec 8)) : BitVec 16 := input.getD 2 0 ++ input.getD 1 0

/-- The field `NLEN` of an input, with zeros behind its end. -/
def nlenOf (input : List (BitVec 8)) : BitVec 16 := input.getD 4 0 ++ input.getD 3 0

/-- No assertion of the decoder fails. -/
def Accepted (input : List (BitVec 8)) : Prop :=
  (input.getD 0 0).toNat >>> 1 % 4 = 0 ∧ nlenOf input = ~~~ lenOf input ∧
    (lenOf input).toNat ≤ (input.drop 5).length

instance (input : List (BitVec 8)) : Decidable (Accepted input) :=
  inferInstanceAs (Decidable (_ ∧ _ ∧ _))

/-- The block that the decoder returns. -/
def blockOf (input : List (BitVec 8)) : StoredBlock where
  isFinal := BitVec.ofNat 32 ((input.getD 0 0).toNat % 2)
  len := lenOf input
  data := (input.drop 5).take (lenOf input).toNat ++ zeroData.drop (lenOf input).toNat

theorem definedIff_rejected (h : ¬ Accepted input) :
    Eval.DefinedIff (Accepted input → (lenOf input).toNat ≤ 256) mode
      (pure none : Eval (Option StoredBlock)) fun result ↦
      result = if Accepted input then some (blockOf input) else none :=
  ⟨iff_of_true (Eval.defined_pure mode none) fun haccepted ↦ absurd haccepted h, (if_neg h).symm⟩

/-- What the decoder makes of any input: it returns if no assertion fails, and it is defined if the
data then fits the array. -/
theorem decode_definedIff (sizeT : SizeT) (mode : Overshift) (input : List (BitVec 8)) :
    Eval.DefinedIff (Accepted input → (lenOf input).toNat ≤ 256) mode
      (deflateDecodeStoredBlock sizeT input input.length) fun result ↦
      result = if Accepted input then some (blockOf input) else none := by
  refine (readHeader_ensures mode input).bind_definedIff fun header hheader ↦ ?_
  rw [hheader.1]
  by_cases htype : (input.getD 0 0).toNat >>> 1 % 4 = 0
  · have hzero : BitVec.ofNat 32 ((input.getD 0 0).toNat >>> 1 % 4) = 0 := by
      rw [htype]
      rfl
    rw [if_pos hzero]
    refine (alignHeader_ensures hheader.2).bind_definedIff fun br hbr ↦ ?_
    refine (readLengths_ensures hbr).bind_definedIff fun lengths hlengths ↦ ?_
    have hfields : lengths.1 = (lenOf input, nlenOf input) := by
      rw [hlengths.1]
      cases input <;> rfl
    have hrest : input.tail.drop 4 = input.drop 5 := by
      cases input <;> rfl
    have hbytes := hlengths.2
    have hones := xor_eq_ones_iff (lenOf input) (nlenOf input)
    rw [hfields]
    rw [hrest] at hbytes
    by_cases hcomplement : nlenOf input = ~~~ lenOf input
    · rw [if_pos (hones.mpr hcomplement)]
      refine (hbytes.readBytes_ensures sizeT zeroData (lenOf input).toNat).bind_definedIff
        fun read hread ↦ ?_
      by_cases hlength : (lenOf input).toNat ≤ (input.drop 5).length
      · have haccepted : Accepted input := ⟨htype, hcomplement, hlength⟩
        have hcopied : ((input.drop 5).take (lenOf input).toNat).length = (lenOf input).toNat := by
          rw [List.length_take, Nat.min_eq_left hlength]
        rw [if_pos hlength] at hread
        rw [hread.1, if_pos rfl, List.take_left' hcopied, if_pos haccepted]
        have hfits : 0 + ((input.drop 5).take (lenOf input).toNat).length ≤ zeroData.length ↔
            (Accepted input → (lenOf input).toNat ≤ 256) := by
          rw [hcopied, Nat.zero_add, length_zeroData]
          exact ⟨fun h _ ↦ h, fun h ↦ h haccepted⟩
        refine Eval.DefinedIff.bind_ensures (Eval.definedIff_storeBlock.congr hfits fun _ h ↦ h)
          fun data hdata ↦ Eval.ensures_pure ?_
        rw [hdata, hcopied, Nat.zero_add]
        rfl
      · rw [if_neg hlength] at hread
        rw [hread.1, if_neg Bool.false_ne_true]
        exact definedIff_rejected fun h ↦ hlength h.2.2
    · rw [if_neg (mt hones.mp hcomplement)]
      exact definedIff_rejected fun h ↦ hcomplement h.2.1
  · have hpositive : BitVec.ofNat 32 ((input.getD 0 0).toNat >>> 1 % 4) ≠ 0 := by
      intro hzero
      have hnat := congrArg BitVec.toNat hzero
      rw [BitVec.toNat_ofNat] at hnat
      change (input.getD 0 0).toNat >>> 1 % 4 % 2 ^ 32 = 0 at hnat
      omega
    rw [if_neg hpositive]
    exact definedIff_rejected fun h ↦ htype h.1

/-! ### What is accepted -/

theorem and_seven_eq_header_iff (first : BitVec 8) (b : Block) :
    first &&& 7 = b.header ↔ first.toNat >>> 1 % 4 = 0 ∧
      BitVec.ofNat 32 (first.toNat % 2) = if b.isFinal then 1 else 0 := by
  have hmask : (first &&& 7).toNat = first.toNat % 8 := Nat.and_two_pow_sub_one_eq_mod _ 3
  have hvalue : (BitVec.ofNat 32 (first.toNat % 2)).toNat = first.toNat % 2 := by
    rw [BitVec.toNat_ofNat]
    omega
  rw [← BitVec.toNat_inj, ← BitVec.toNat_inj, hmask, hvalue, Block.header,
    Nat.shiftRight_eq_div_pow]
  cases b.isFinal
  · show first.toNat % 8 = 0 ↔ _ ∧ first.toNat % 2 = 0
    omega
  · show first.toNat % 8 = 1 ↔ _ ∧ first.toNat % 2 = 1
    omega

theorem Block.Begins.accepted {b : Block} (h : b.Begins input) :
    Accepted input ∧ blockOf input = b.decoded := by
  obtain ⟨first, rest, rfl, hfirst⟩ := h
  obtain ⟨htype, hfinal⟩ := (and_seven_eq_header_iff first b).mp hfirst
  have hlen : lenOf (first :: (b.body ++ rest)) = b.len := append_lowByte b.len
  have hnlen : nlenOf (first :: (b.body ++ rest)) = ~~~ b.len := append_lowByte (~~~ b.len)
  have hdata : (first :: (b.body ++ rest)).drop 5 = b.literal ++ rest := rfl
  refine ⟨⟨htype, hnlen.trans (by rw [hlen]), ?_⟩, ?_⟩
  · rw [hlen, b.toNat_len, hdata, List.length_append]
    exact Nat.le_add_right _ _
  · rw [blockOf, hlen, hdata, b.toNat_len, List.take_left' rfl]
    exact congrArg (StoredBlock.mk · _ _) hfinal

/-- Behind the end of the input the complement of the length would be missing. -/
theorem five_le_of_accepted (h : Accepted input) : 5 ≤ input.length := by
  obtain ⟨_, hcomplement, hlength⟩ := h
  by_contra hshort
  rw [List.length_drop] at hlength
  have hzero : lenOf input = 0 := BitVec.eq_of_toNat_eq (by
    show (lenOf input).toNat = 0
    omega)
  have hnlen : (nlenOf input).toNat = 65535 := by
    rw [hcomplement, hzero]
    rfl
  have hbyte := (input.getD 3 0).isLt
  rw [nlenOf, List.getD_eq_default _ _ (by omega : input.length ≤ 4), toNat_append_bytes] at hnlen
  change 0 * 256 + (input.getD 3 0).toNat = 65535 at hnlen
  omega

theorem exists_begins (h : Accepted input) : ∃ b : Block, b.Begins input := by
  have hfive := five_le_of_accepted h
  obtain ⟨htype, hcomplement, hlength⟩ := h
  rcases input with _ | ⟨first, _ | ⟨lenLo, _ | ⟨lenHi, _ | ⟨nlenLo, _ | ⟨nlenHi, rest⟩⟩⟩⟩⟩
  case cons.cons.cons.cons.cons =>
    have hlen : (lenHi ++ lenLo : BitVec 16).toNat ≤ rest.length := hlength
    have hnlen : (nlenHi ++ nlenLo : BitVec 16) = ~~~ (lenHi ++ lenLo) := hcomplement
    have hcopied : (rest.take (lenHi ++ lenLo : BitVec 16).toNat).length =
        (lenHi ++ lenLo : BitVec 16).toNat := by
      rw [List.length_take, Nat.min_eq_left hlen]
    obtain ⟨b, hfinal, hliteral⟩ : ∃ b : Block, b.isFinal = decide (first.toNat % 2 = 1) ∧
        b.literal = rest.take (lenHi ++ lenLo : BitVec 16).toNat :=
      ⟨⟨_, _, hcopied.trans_lt (BitVec.isLt _)⟩, rfl, rfl⟩
    have hfield : b.len = lenHi ++ lenLo := by
      rw [Block.len, hliteral, hcopied, BitVec.ofNat_toNat, BitVec.setWidth_eq]
    refine ⟨b, first, rest.drop (lenHi ++ lenLo : BitVec 16).toNat, ?_, ?_⟩
    · rw [Block.body, hliteral, hfield, ← hnlen, lowByte_append, highByte_append, lowByte_append,
        highByte_append, List.append_assoc, List.take_append_drop]
      rfl
    · refine (and_seven_eq_header_iff first b).mpr ⟨htype, ?_⟩
      rw [hfinal]
      rcases Nat.mod_two_eq_zero_or_one first.toNat with hbit | hbit <;> rw [hbit] <;> rfl
  all_goals
    simp at hfive

/-- The decoder accepts exactly the inputs that begin with a block, whatever the padding of the
header is, and returns the block. It is defined exactly if a block that it accepts has at most the
256 bytes of its array. -/
theorem deflateDecodeStoredBlock_accepts (sizeT : SizeT) (mode : Overshift)
    (input : List (BitVec 8)) :
    (∀ b : Block, b.Begins input →
      Eval.DefinedIff (b.literal.length ≤ 256) mode
        (deflateDecodeStoredBlock sizeT input input.length) fun result ↦
          result = some b.decoded) ∧
      ((∀ b : Block, ¬ b.Begins input) →
        Eval.Ensures mode (deflateDecodeStoredBlock sizeT input input.length) fun result ↦
          result = none) := by
  have hdecode := decode_definedIff sizeT mode input
  constructor
  · intro b hb
    obtain ⟨haccepted, hblock⟩ := hb.accepted
    have hlen : lenOf input = b.len := congrArg StoredBlock.len hblock
    rw [if_pos haccepted, hblock, hlen, b.toNat_len] at hdecode
    exact hdecode.congr ⟨fun h ↦ h haccepted, fun h _ ↦ h⟩ fun _ h ↦ h
  · intro hnone
    have hrejected : ¬ Accepted input := fun h ↦ by
      obtain ⟨b, hb⟩ := exists_begins h
      exact hnone b hb
    rw [if_neg hrejected] at hdecode
    exact hdecode.ensures fun h ↦ absurd h hrejected

end Decoding

/-! ### The round trip -/

theorem Block.begins_bytes (b : Block) (more : List (BitVec 8)) : b.Begins (b.bytes ++ more) := by
  refine ⟨b.header, more, rfl, ?_⟩
  unfold header
  cases b.isFinal <;> decide

theorem Block.length_bytes (b : Block) : b.bytes.length = 5 + b.literal.length := by
  rw [bytes, List.length_cons, b.length_body]
  omega

/-- The program for every message: the number of its bytes modulo `2 ^ 16` is sent. The assertions
hold exactly if the block fits the wire, and the program is then defined exactly if the block has at
most 256 bytes of data. -/
theorem main_verifies_block (sizeT : SizeT) (mode : Overshift) (message : CString)
    (wire : List (BitVec 8)) :
    Eval.DefinedIff
      (5 + message.chars.length % 2 ^ 16 ≤ wire.length → message.chars.length % 2 ^ 16 ≤ 256) mode
      (main sizeT message wire) fun result ↦ result =
        if 5 + message.chars.length % 2 ^ 16 ≤ wire.length then some 0 else none := by
  have hle := Nat.mod_le message.chars.length (2 ^ 16)
  obtain ⟨b, hfinal, hliteral⟩ : ∃ b : Block, b.isFinal = true ∧
      b.literal = message.chars.take (message.chars.length % 2 ^ 16) := by
    refine ⟨⟨true, _, ?_⟩, rfl, rfl⟩
    rw [List.length_take]
    omega
  have hlength : b.literal.length = message.chars.length % 2 ^ 16 := by
    rw [hliteral, List.length_take, Nat.min_eq_left hle]
  have hlen : BitVec.ofNat 16 message.chars.length = b.len := by
    refine BitVec.eq_of_toNat_eq ?_
    rw [b.toNat_len, hlength, BitVec.toNat_ofNat]
  have hsplit : message.chars ++ [0] = b.literal ++
      (message.chars.drop (message.chars.length % 2 ^ 16) ++ [0]) := by
    rw [← List.append_assoc, hliteral, List.take_append_drop]
  rw [← hlength, ← b.length_bytes]
  have hflag : b.isFinal = decide ((1 : BitVec 32) ≠ 0) := hfinal
  have hencode := deflateEncodeStoredBlock_returns sizeT mode b
    (message.chars.drop (message.chars.length % 2 ^ 16) ++ [0]) hflag wire
  rw [main, hlen, hsplit]
  refine hencode.bind_definedIff fun result hresult ↦ ?_
  by_cases hfit : b.bytes.length ≤ wire.length
  · rw [if_pos hfit] at hresult ⊢
    subst hresult
    have hdecode := (deflateDecodeStoredBlock_accepts sizeT mode b.bytes).1 b
      (by have hbegins := b.begins_bytes []; rwa [List.append_nil] at hbegins)
    simp only [List.take_left' rfl]
    have hfits : b.literal.length ≤ 256 ↔
        (b.bytes.length ≤ wire.length → b.literal.length ≤ 256) :=
      ⟨fun h _ ↦ h, fun h ↦ h hfit⟩
    refine (hdecode.congr hfits fun _ h ↦ h).bind_ensures fun result hresult ↦ ?_
    subst hresult
    refine Eval.ensures_pure (if_pos ⟨?_, rfl, ?_⟩)
    · rw [Block.decoded, hfinal]
      rfl
    · rw [b.toNat_len, Block.decoded, List.take_left' rfl, List.take_left' rfl]
  · rw [if_neg hfit] at hresult ⊢
    subst hresult
    exact (Eval.ensures_pure rfl).definedIff fun h ↦ absurd h hfit

/-- The block of an input, encoded again. -/
def reencode (sizeT : SizeT) (input out : List (BitVec 8)) :
    Eval (Option (ℕ × List (BitVec 8))) := do
  match ← deflateDecodeStoredBlock sizeT input input.length with
  | none => pure none
  | some block =>
    deflateEncodeStoredBlock sizeT block.data block.len block.isFinal out out.length

/-- Encoding undoes decoding: an accepted block, written again, is the beginning of the input with
the padding of its header cleared. Assumes: the data of the block fits the array of the decoder, and
the block the buffer of the encoder. -/
theorem reencoded_block (sizeT : SizeT) (mode : Overshift) {b : Block} {input : List (BitVec 8)}
    (hbegins : b.Begins input) (hdata : b.literal.length ≤ 256) (out : List (BitVec 8))
    (hout : 5 + b.literal.length ≤ out.length) :
    Eval.Ensures mode (reencode sizeT input out) fun result ↦
      result = some (5 + b.literal.length,
        (input.getD 0 0 &&& 7) :: (input.drop 1).take (4 + b.literal.length) ++
          out.drop (5 + b.literal.length)) := by
  have hdecode := ((deflateDecodeStoredBlock_accepts sizeT mode input).1 b hbegins).ensures hdata
  have hflag : b.isFinal = decide (b.decoded.isFinal ≠ 0) := by
    have hfield : b.decoded.isFinal = if b.isFinal then 1 else 0 := rfl
    rw [hfield]
    cases b.isFinal <;> decide
  have hencode := deflateEncodeStoredBlock_returns sizeT mode b
    (zeroData.drop b.literal.length) hflag out
  rw [← b.length_bytes] at hout
  rw [if_pos hout] at hencode
  refine hdecode.bind_eq ?_
  obtain ⟨first, rest, rfl, hfirst⟩ := hbegins
  have hbody : (b.body ++ rest).take (4 + b.literal.length) = b.body :=
    List.take_left' b.length_body
  refine hencode.mono fun result hresult ↦ ?_
  rw [hresult, ← b.length_bytes, Block.bytes, ← hfirst, List.drop_one, List.tail_cons, hbody]
  rfl

/-- A block with padding bits, of one byte, in front of another byte. -/
theorem reencoded_block_one_byte :
    Eval.Ensures .masked
      (reencode sizeT64 [0xF9, 0x01, 0x00, 0xFE, 0xFF, 0x48, 0x55] (List.replicate 8 0))
      fun result ↦ result = some (5 + 1,
        ([0xF9#8, 0x01, 0x00, 0xFE, 0xFF, 0x48, 0x55].getD 0 0 &&& 7) ::
          ([0xF9#8, 0x01, 0x00, 0xFE, 0xFF, 0x48, 0x55].drop 1).take (4 + 1) ++
            (List.replicate 8 0#8).drop (5 + 1)) :=
  reencoded_block sizeT64 .masked (b := ⟨true, [0x48], by decide⟩)
    ⟨0xF9, [0x55], by decide, by decide⟩ (by decide) (List.replicate 8 0) (by decide)

end Bitstream.Examples.DeflateBlock
