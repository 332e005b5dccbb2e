import Bitstream.Examples.FastDecode
import Bitstream.Foundation.BitQueue

/-!
# The program `deflate_codes.c`

The code of the other text programs, least significant bit first. The encoder reports an unknown
character and a buffer that is too small by the result 0; the decoder looks how many bits are left
before it peeks, and never reads behind them. What is printed is left out.

`encode_returns` is the result and the buffer for every text and every capacity, and
`encode_mirrors_huffmanEncode` compares the bytes with those of `fast_decode.c`.
The decoder converts the number of bits left to an `unsigned int`, so it sees the data modulo
`2 ^ 32` bits, or modulo those of a narrower `size_t`. `decode_reads` says that it stores exactly
the words of what it sees, and `main_exit_code` is the program as a whole.
-/

set_option autoImplicit false
set_option relaxedAutoImplicit false

namespace Bitstream.Examples.DeflateCodes

open Foundation Header Reading Writing

/-- The entry `code_entry_t`. -/
structure CodeEntry where
  symbol : BitVec 8
  code : BitVec 32
  length : ℕ

/-- The table `CODE_TABLE`. -/
def codeTable : List CodeEntry := [
  ⟨ascii 'e', 0x00, 1⟩,
  ⟨ascii 't', 0x01, 2⟩,
  ⟨ascii 'a', 0x03, 3⟩,
  ⟨ascii ' ', 0x07, 4⟩,
  ⟨ascii 'h', 0x0F, 5⟩,
  ⟨ascii 'r', 0x1F, 6⟩,
  ⟨0, 0x3F, 6⟩]

/-- The body of the loop over the message. The flag is `found`. -/
def putSymbol : BsWriter → BitVec 8 → Eval (Bool × BsWriter) :=
  putCode bsWriteBitsLsb (fun c ↦ codeTable.find? fun e ↦ e.symbol = c) CodeEntry.code
    CodeEntry.length

/-- The result is the number of bytes, 0 in case of an error, and the buffer. -/
def encode (message : CString) (out : List (BitVec 8)) (outSize : ℕ) :
    Eval (ℕ × List (BitVec 8)) := do
  let written ← writeMessage putSymbol (fun bw ↦ (true, ·) <$> bsWriteBitsLsb bw 0x3F 6)
    bsWriterFlushLsb message (bsWriterInit out outSize)
  pure (if written.1 = false ∨ written.2.overflow then 0 else bsWriterBytesWritten written.2,
    written.2.buffer)

/-- `CODE_TABLE[i].length <= peek_len && (window & mask) == CODE_TABLE[i].code`. -/
def fitsMask (window : BitVec 32) (peekLen : ℕ) (code : BitVec 32) (length : ℕ) : Eval Bool := do
  let bit ← Eval.shiftLeft 1#32 length
  let mask := bit - 1#32
  pure (length ≤ peekLen ∧ window &&& mask = code)

/-- One pass of the loop. The branch of the end of the stream stores the terminator and returns,
which is what comes behind the loop after a `break`. -/
def decodePass (sizeT : SizeT) (outSize : ℕ) (s : DecodeState) : Eval (Pass DecodeState) := do
  let available := bsReaderBitsLeft sizeT s.br % 2 ^ 32
  if available = 0 then pure (.leave s)
  else do
    let peekLen := if available < 6 then available else 6
    let peeked ← bsPeekBitsLsb s.br peekLen
    match ← firstMatch (fun e ↦ fitsMask peeked.1 peekLen e.code e.length) codeTable with
    | none => pure (.leave { s with br := peeked.2 })
    | some e => do
      let br ← bsSkipBitsLsb peeked.2 e.length
      if e.symbol = 0 then pure (.leave { s with br := br })
      else do
        let out ← Eval.store s.out outSize s.idx e.symbol
        pure (.next { br := br, out := out, idx := s.idx + 1 })

/-- A pass that does not leave the loop adds 1 to `idx`, so the loop ends within `out_size - 1`
passes. -/
def decode (sizeT : SizeT) (data : List (BitVec 8)) (size : ℕ) (out : List (BitVec 8))
    (outSize : ℕ) : Eval (List (BitVec 8)) := do
  let last ← Eval.sub sizeT.bits outSize 1
  let s ← whileLoop (fun s : DecodeState ↦ s.idx < last) (decodePass sizeT outSize) last
    { br := bsReaderInit data size, out := out, idx := 0 }
  Eval.store s.out outSize s.idx 0

/-- The exit code, with the arrays `wire` and `decoded`. -/
def main (sizeT : SizeT) (message : Message) (wire decoded : List (BitVec 8)) : Eval ℕ := do
  let encoded ← encode message wire wire.length
  let decoded ← decode sizeT (encoded.2.take encoded.1) encoded.1 decoded decoded.length
  pure (if message.chars = stringAt decoded then 0 else 1)

theorem codeTable_spells :
    Spells .lsb codeTable CodeEntry.symbol CodeEntry.code CodeEntry.length where
  entries_eq := by decide
  code_lt := by decide
  length_le := by decide

variable {mode : Overshift}

/-! ### Encoding -/

theorem putSymbol_puts (mode : Overshift) : Puts .lsb mode putSymbol :=
  codeTable_spells.putCode_puts mode

theorem sentinel_putsEnd (mode : Overshift) :
    PutsEnd .lsb mode fun bw ↦ (true, ·) <$> bsWriteBitsLsb bw 0x3F 6 := by
  intro initial bw bits fits h hfit
  have hwrite : MeetsIf fits mode (bsWriteBitsLsb bw 0x3F 6) _ :=
    h.write_meetsIf 0x3F (by norm_num) hfit
  exact Eval.Meets.map (hwrite.mono fun after hafter ↦ ⟨rfl, hafter⟩)

/-- The encoder for every text and every capacity. The result is the number of bytes of the message
if every character has a code and the bytes fit, and 0 otherwise; the buffer holds what was written
of the message, as far as it fits, in front of what it held. Where the message fits, every operation
is defined. -/
theorem encode_returns (mode : Overshift) (message : CString) (out : List (BitVec 8)) :
    MeetsIf ((messageBits message).length / 8 ≤ out.length) mode (encode message out out.length)
      fun result ↦ result =
        (if Writable message ∧ (wireBytes .lsb message).length ≤ out.length then
          (wireBytes .lsb message).length else 0,
        (packWords 8 .lsb (sentBits message)).take out.length ++
          out.drop ((sentBits message).length / 8)) := by
  have hmessage : MeetsIf _ mode (writeMessage _ _ bsWriterFlushLsb message _) _ :=
    writeMessage_meetsIf (putSymbol_puts mode) (sentinel_putsEnd mode) message out id
  refine Eval.Meets.bind hmessage fun written hwritten ↦ ?_
  obtain ⟨hknown, hemitted⟩ := hwritten
  refine Eval.meets_pure (Prod.ext ?_ hemitted.buffer_eq)
  by_cases hwritable : Writable message
  · rw [decide_eq_true hwritable] at hknown
    rw [sentBits, if_pos hwritable] at hemitted
    by_cases hfit : (wireBytes .lsb message).length ≤ out.length
    · obtain ⟨hopen, hcount, _⟩ := wire_of_emitted hemitted hfit
      simp only [hknown, hopen, hcount, hwritable, hfit]
      rfl
    · have hoverflow := hemitted.overflow_eq
      rw [← length_wireBytes .lsb, decide_eq_true (by omega)] at hoverflow
      simp only [hoverflow, hfit, or_true, and_false, if_true, if_false]
  · rw [decide_eq_false hwritable] at hknown
    simp only [hknown, hwritable, true_or, false_and, if_true, if_false]

/-- What a message that was sent leaves on the wire. -/
theorem encode_wire (mode : Overshift) {message : CString} {out : List (BitVec 8)}
    (h : Writable message ∧ (wireBytes .lsb message).length ≤ out.length) :
    (encode message out out.length).value mode =
      ((wireBytes .lsb message).length,
        wireBytes .lsb message ++ out.drop (wireBytes .lsb message).length) := by
  have hsent : packWords 8 .lsb (sentBits message) = wireBytes .lsb message := by
    rw [sentBits, if_pos h.1, wireBytes]
  have hlength : (sentBits message).length / 8 = (wireBytes .lsb message).length := by
    rw [← hsent, length_packWords]
  rw [(encode_returns mode message out).post, if_pos h, hsent, hlength,
    List.take_of_length_le h.2]

/-- The encoders of the two orders on one buffer: either both report an error, or both return the
same number of bytes, and the bytes of one are those of the other with their bits reversed. -/
theorem encode_mirrors_huffmanEncode (mode other : Overshift) (message : CString)
    (out : List (BitVec 8)) :
    (((encode message out out.length).value mode).1 = 0 ∧
        (FastDecode.huffmanEncode message out out.length).value other = none) ∨
      ∃ n buffer, (FastDecode.huffmanEncode message out out.length).value other =
          some (n, buffer) ∧
        ((encode message out out.length).value mode).1 = n ∧
          ((encode message out out.length).value mode).2.take n =
            (buffer.take n).map BitVec.reverse := by
  have hlength : (wireBytes .lsb message).length = (wireBytes .msb message).length := by
    rw [wireBytes_lsb, List.length_map]
  rw [(FastDecode.huffmanEncode_returns other message out).post, ← hlength]
  by_cases hsent : Writable message ∧ (wireBytes .lsb message).length ≤ out.length
  · rw [if_pos hsent, encode_wire mode hsent]
    refine .inr ⟨_, _, rfl, rfl, ?_⟩
    rw [List.take_left' rfl, List.take_left' hlength.symm, wireBytes_lsb]
  · rw [if_neg hsent, (encode_returns mode message out).post, if_neg hsent]
    exact .inl ⟨rfl, rfl⟩

/-! ### Decoding -/

variable {code : BitVec 32} {length : ℕ} {bits : List Bool}

/-- The comparison asks whether the bits begin with the word. -/
theorem fitsMask_ensures (mode : Overshift) (hcode : code.toNat < 2 ^ length)
    (hlength : length ≤ 6) (bits : List Bool) :
    Eval.Ensures mode
      (fitsMask (leadingField .lsb (min bits.length 6) bits) (min bits.length 6) code length)
      fun passes ↦ passes = decide (fieldBits .lsb length code.toNat <+: bits) := by
  refine (Eval.ensures_shiftLeft (by omega)).bind_eq ?_
  apply Eval.ensures_pure
  rw [decide_eq_decide]
  by_cases hbits : length ≤ bits.length
  · have hpeek : length ≤ min bits.length 6 := by omega
    have hsplit : bits.take (min bits.length 6) =
        bits.take length ++ (bits.drop length).take (min bits.length 6 - length) := by
      rw [← List.take_add, Nat.add_sub_cancel' hpeek]
    have hfirst : (bits.take length).length = length := by
      rw [List.length_take, Nat.min_eq_left hbits]
    have hmask := toNat_and_lowMask (leadingField .lsb (min bits.length 6) bits)
      (by omega : length < 32)
    rw [toNat_leadingField .lsb (by omega) (by omega), hsplit] at hmask
    have hlow := fieldValue_lsb_append_mod (bits.take length)
      ((bits.drop length).take (min bits.length 6 - length))
    rw [hfirst] at hlow
    rw [fieldBits_prefix_iff .lsb hcode hbits, ← BitVec.toNat_inj, ← hlow, ← hmask]
    exact and_iff_right hpeek
  · have hlong : ¬ fieldBits .lsb length code.toNat <+: bits := by
      intro hbegins
      have hle := hbegins.length_le
      rw [length_fieldBits] at hle
      exact hbits hle
    exact iff_of_false (fun h ↦ hbits (h.1.trans (by omega))) hlong

/-- What the decoder sees of the bits left: it counts them in a `size_t` and converts the number to
an `unsigned int`. -/
def seen (sizeT : SizeT) (bits : List Bool) : List Bool := countedBits (min sizeT.bits 32) bits

variable {sizeT : SizeT} {out text : List (BitVec 8)} {room : ℕ} {s : DecodeState}

/-- The number that the decoder looks at. -/
theorem available_eq (sizeT : SizeT) {br : BsReader} (h : Delivers .lsb br bits) :
    bsReaderBitsLeft sizeT br % 2 ^ 32 = (seen sizeT bits).length := by
  rw [h.bitsLeft_eq, seen, length_countedBits]
  rcases Nat.le_total sizeT.bits 32 with hnarrow | hwide
  · have hlt : bits.length % 2 ^ sizeT.bits < 2 ^ 32 :=
      (Nat.mod_lt _ (Nat.two_pow_pos _)).trans_le (Nat.pow_le_pow_right (by norm_num) hnarrow)
    rw [Nat.min_eq_left hnarrow, Nat.mod_eq_of_lt hlt]
  · rw [Nat.min_eq_right hwide, Nat.mod_mod_of_dvd _ (Nat.pow_dvd_pow 2 hwide)]

/-- The words of what is seen. -/
def seenWords (sizeT : SizeT) (room : ℕ) (bits : List Bool) : List (BitVec 8) :=
  words 0 room (seen sizeT bits)

theorem seenWords_succ {c : BitVec 8} {word : List Bool}
    (hscan : textCode.scan (seen sizeT bits) = some (c, word)) (hstop : c ≠ 0) (room : ℕ) :
    seenWords sizeT (room + 1) bits = c :: seenWords sizeT room (bits.drop word.length) := by
  have hdrop : seen sizeT (bits.drop word.length) = (seen sizeT bits).drop word.length :=
    countedBits_drop_word hscan
  rw [seenWords, seenWords, words_succ (Nat.zero_le _) hscan hstop, hdrop]

/-- One pass of the loop. -/
theorem decodePass_ensures (mode : Overshift)
    (h : Decoding .lsb (seenWords sizeT) out text (room + 1) s bits) :
    Eval.Ensures mode (decodePass sizeT out.length s)
      (Pass.Ends (fun t ↦ ∃ n, Decoding .lsb (seenWords sizeT) out text room t (bits.drop n))
        fun t ↦ Stored out text t.out t.idx) := by
  have hroom := h.room_eq
  unfold decodePass
  rw [available_eq sizeT h.delivers]
  by_cases hempty : (seen sizeT bits).length = 0
  · have hends : textCode.Ends 0 0 (seen sizeT bits) := by
      rw [List.length_eq_zero_iff.mp hempty]
      exact .inr (.inl (by decide))
    rw [if_pos hempty]
    exact Eval.ensures_pure (h.finish (words_of_ends hends _))
  · have hpeekLen : (if (seen sizeT bits).length < 6 then (seen sizeT bits).length else 6) =
        min (seen sizeT bits).length 6 := by
      split_ifs <;> omega
    have hpeek : Eval.Ensures mode (bsPeekBitsLsb s.br (min (seen sizeT bits).length 6)) _ :=
      h.delivers.peek_ensures (by omega)
    have hwindow : leadingField .lsb (min (seen sizeT bits).length 6) (seen sizeT bits) =
        leadingField .lsb (min (seen sizeT bits).length 6) bits :=
      leadingField_countedBits .lsb (Nat.min_le_left _ _)
    rw [if_neg hempty, hpeekLen]
    refine hpeek.bind fun peeked hpeeked ↦ ?_
    rw [hpeeked.1, ← hwindow]
    have hscan := codeTable_spells.scan_eq (seen sizeT bits)
    refine Eval.Ensures.bind_eq (firstMatch_ensures fun e he ↦ fitsMask_ensures mode
      (codeTable_spells.code_lt e he) (codeTable_spells.length_le e he) (seen sizeT bits)) ?_
    cases hfind : codeTable.find? fun e ↦
      decide (fieldBits .lsb e.length e.code.toNat <+: seen sizeT bits) with
    | none =>
      rw [hfind] at hscan
      exact Eval.ensures_pure (h.finish (words_of_ends (.inr (.inl hscan)) _))
    | some e =>
      rw [hfind] at hscan
      have hlength := codeTable_spells.length_le e (List.mem_of_find?_eq_some hfind)
      have hskip : Eval.Ensures mode (bsSkipBitsLsb peeked.2 e.length) _ :=
        hpeeked.2.skip_ensures (by omega)
      refine hskip.bind fun br hbr ↦ ?_
      by_cases hstop : e.symbol = 0
      · have hends : textCode.Ends 0 0 (seen sizeT bits) :=
          .inr (.inr ⟨_, hscan.trans (by rw [← hstop]; rfl)⟩)
        rw [if_pos hstop]
        exact Eval.ensures_pure (h.finish (words_of_ends hends _))
      · have hfound := seenWords_succ hscan hstop room
        rw [length_fieldBits] at hfound
        have hidx : s.idx < out.length := by omega
        rw [if_neg hstop]
        refine (Eval.ensures_store hidx).bind_eq ?_
        exact Eval.ensures_pure ⟨e.length, h.push hfound hbr⟩

/-- The decoder stores the words of what it sees with their terminator. -/
theorem decode_stores (sizeT : SizeT) (mode : Overshift) (data : List (BitVec 8))
    (hout : room + 1 = out.length) :
    Eval.Ensures mode (decode sizeT data data.length out out.length) fun result ↦
      result = terminated out (seenWords sizeT room (stream .lsb data)) := by
  have hlast : Eval.Ensures mode (Eval.sub sizeT.bits out.length 1) fun last ↦ last = room :=
    (Eval.ensures_sub sizeT.bits (by omega)).mono fun last hlast ↦ by omega
  refine hlast.bind_eq ?_
  have hloop : Eval.Ensures mode
      (whileLoop (fun s : DecodeState ↦ s.idx < room) (decodePass sizeT out.length) room
        { br := bsReaderInit data data.length, out := out, idx := 0 })
      fun s ↦ Stored out (seenWords sizeT room (stream .lsb data)) s.out s.idx := by
    refine whileLoop_ensures
      (fun left s ↦ ∃ bits, Decoding .lsb (seenWords sizeT) out
        (seenWords sizeT room (stream .lsb data)) left s bits)
      ?_ ?_ ?_ ⟨_, Decoding.init .lsb (seenWords sizeT) data hout⟩
    · rintro left s ⟨bits, h⟩ hguard
      have hroom := h.room_eq
      obtain rfl : left = 0 := by omega
      exact h.finish rfl
    · rintro s ⟨bits, h⟩ hguard
      have hroom := h.room_eq
      omega
    · rintro left s ⟨bits, h⟩ hguard
      refine (decodePass_ensures mode h).mono fun after hafter ↦ ?_
      cases after with
      | next t =>
        obtain ⟨n, hnext⟩ := hafter
        exact ⟨bits.drop n, hnext⟩
      | leave t => exact hafter
  exact hloop.bind fun s hs ↦ hs.terminate_ensures

/-- The decoder on any bytes is defined, and stores with their terminator the characters whose words
the bits that it sees begin with, up to their end, to the first bits without a word, or as far as
there is room. It sees all bits if their number is both one of type `size_t` and one of type
`unsigned int`. Assumes: the array is not empty. -/
theorem decode_reads (sizeT : SizeT) (mode : Overshift) (data out : List (BitVec 8))
    (hout : out ≠ []) :
    ∃ read, (∀ other, textCode.Reads 0 0 (out.length - 1) (seen sizeT (stream .lsb data)) other ↔
        other = read) ∧
      Eval.Ensures mode (decode sizeT data data.length out out.length) fun result ↦
        result = terminated out read.1 :=
  ⟨_, fun _ ↦ CodeTable.reads_iff, decode_stores sizeT mode data
    (Nat.sub_add_cancel (List.length_pos_iff.mpr hout))⟩

/-- One byte, and room for three characters. -/
theorem decode_reads_one_byte :
    ∃ read, (∀ other, textCode.Reads 0 0 3 (seen sizeT64 (stream .lsb [0xDA#8])) other ↔
        other = read) ∧
      Eval.Ensures .masked (decode sizeT64 [0xDA] 1 [0, 0, 0, 0] 4) fun result ↦
        result = terminated [0, 0, 0, 0] read.1 :=
  decode_reads sizeT64 .masked [0xDA] [0, 0, 0, 0] (by decide)

/-! ### The round trip -/

/-- The decoder on a wire: it finds the message exactly if it sees all bits and there is room for
the text. -/
theorem decode_wire (sizeT : SizeT) (mode : Overshift) {message : CString} (h : Writable message)
    (hout : room + 1 = out.length) :
    Eval.Ensures mode (decode sizeT (wireBytes .lsb message) (wireBytes .lsb message).length out
        out.length) fun result ↦
      message.chars = stringAt result ↔
        8 * (wireBytes .lsb message).length < 2 ^ min sizeT.bits 32 ∧
          message.chars.length ≤ room := by
  refine (decode_stores sizeT mode _ hout).mono fun result hresult ↦ ?_
  have hwidth : 4 ≤ min sizeT.bits 32 :=
    le_min (le_trans (by norm_num) sizeT.sixteen_le) (by norm_num)
  rw [hresult, seenWords, seen, stringAt_terminated (nul_not_mem_words _ _ _), eq_comm]
  exact words_countedBits_eq_iff .lsb h (Nat.zero_le 6) hwidth room

/-- The exit code for every message and every array. The program finds its message again exactly if
every character has a code, the bytes fit the wire, the decoder can count their bits, and the text
fits the array with its terminator; where the encoder reports an error, the decoder reads no byte
and the program notices. Assumes: the array for the text is not empty. Where the message fits the
wire, every operation is defined. -/
theorem main_exit_code (sizeT : SizeT) (mode : Overshift) (message : Message)
    (wire decoded : List (BitVec 8)) (hdecoded : decoded ≠ []) :
    MeetsIf ((messageBits message).length / 8 ≤ wire.length) mode (main sizeT message wire decoded)
      fun code ↦ code =
        if (Writable message ∧ (wireBytes .lsb message).length ≤ wire.length) ∧
          8 * (wireBytes .lsb message).length < 2 ^ min sizeT.bits 32 ∧
          message.chars.length < decoded.length then 0 else 1 := by
  have hroom : decoded.length - 1 + 1 = decoded.length :=
    Nat.sub_add_cancel (List.length_pos_iff.mpr hdecoded)
  refine Eval.Meets.bind (encode_returns mode message wire) fun encoded hencoded ↦ ?_
  by_cases hsent : Writable message ∧ (wireBytes .lsb message).length ≤ wire.length
  · have hwire := encode_wire mode hsent
    rw [(encode_returns mode message wire).post, ← hencoded] at hwire
    subst hwire
    refine Eval.Ensures.meets ?_ fun o ho _ ↦ ho
    simp only [List.take_left' rfl]
    refine (decode_wire sizeT mode hsent.1 hroom).bind fun result hread ↦ Eval.ensures_pure ?_
    refine if_congr (hread.trans ⟨fun h ↦ ⟨hsent, h.1, ?_⟩, fun h ↦ ⟨h.2.1, ?_⟩⟩) rfl rfl
    · have hfits := h.2
      omega
    · have hfits := h.2.2
      omega
  · have hnothing : encoded.1 = 0 := by rw [hencoded, if_neg hsent]
    have hdecode := decode_stores sizeT mode [] hroom
    have hnone : seenWords sizeT (decoded.length - 1) [] = [] := by
      rw [seenWords, seen, countedBits, List.take_nil]
      exact words_of_ends (.inr (.inl (by decide))) _
    rw [stream_nil, hnone] at hdecode
    refine Eval.Ensures.meets ?_ fun o ho _ ↦ ho
    rw [hnothing, List.take_zero]
    refine hdecode.bind_eq (Eval.ensures_pure ?_)
    rw [stringAt_terminated List.not_mem_nil, if_neg message.chars_ne_nil,
      if_neg fun h ↦ hsent h.1]

/-- The text is longer than the room for it. -/
theorem main_exit_code_tea :
    MeetsIf ((messageBits ⟨[ascii 't', ascii 'e', ascii 'a'], by decide⟩).length / 8 ≤ 4) .masked
      (main sizeT64 ⟨⟨[ascii 't', ascii 'e', ascii 'a'], by decide⟩, by decide⟩ (List.replicate 4 0)
        (List.replicate 3 0)) fun code ↦ code =
        if (Writable ⟨[ascii 't', ascii 'e', ascii 'a'], by decide⟩ ∧
            (wireBytes .lsb ⟨[ascii 't', ascii 'e', ascii 'a'], by decide⟩).length ≤ 4) ∧
          8 * (wireBytes .lsb ⟨[ascii 't', ascii 'e', ascii 'a'], by decide⟩).length < 2 ^ 32 ∧
          3 < 3 then 0 else 1 :=
  main_exit_code sizeT64 .masked ⟨⟨[ascii 't', ascii 'e', ascii 'a'], by decide⟩, by decide⟩
    (List.replicate 4 0) (List.replicate 3 0) (by decide)

end Bitstream.Examples.DeflateCodes
