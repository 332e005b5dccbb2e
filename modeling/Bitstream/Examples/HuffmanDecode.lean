import Bitstream.Examples.TextDecoding

/-!
# The program `huffman_decode.c`

Encodes a text most significant bit first and decodes it through peeks of six bits, with the whole
program in `main`; the message and the arrays, constants of the source, are parameters.

`decode_finds_words` says what the decoder makes of any bytes: the words in front of the sentinel,
and where fewer than six bits are left before a sentinel was read, one `'e'` for every bit, because
the peek then answers 0. The branch that reports an unrecognized code is never taken.
`main_finds_message` is the round trip of the program.
-/

set_option autoImplicit false
set_option relaxedAutoImplicit false

namespace Bitstream.Examples.HuffmanDecode

open Foundation Header Reading Writing

/-- The entry `huffman_entry_t`. -/
structure HuffmanEntry where
  code : BitVec 8
  bits : ℕ
  symbol : BitVec 8

def codebook : List HuffmanEntry := [
  ⟨0x00, 1, ascii 'e'⟩,
  ⟨0x02, 2, ascii 't'⟩,
  ⟨0x06, 3, ascii 'a'⟩,
  ⟨0x0E, 4, ascii ' '⟩,
  ⟨0x1E, 5, ascii 'h'⟩,
  ⟨0x3E, 6, ascii 'r'⟩,
  ⟨0x3F, 6, 0⟩]

/-- The result is the returned flag and the context. -/
def encodeSymbol : BsWriter → BitVec 8 → Eval (Bool × BsWriter) :=
  putCode bsWriteBits (fun ch ↦ codebook.find? fun e ↦ e.symbol = ch) (fun e ↦ e.code.setWidth 32)
    HuffmanEntry.bits

/-- An unrecognized code is reported on the standard error stream, and one bit is skipped. -/
def decodeSymbol (br : BsReader) : Eval (BitVec 8 × BsReader) := do
  let peeked ← bsPeekBits br 6
  let found ← firstMatch (fun e ↦ fitsWindow peeked.1 (e.code.setWidth 32) e.bits) codebook
  match found with
  | some e => do
    let br ← bsSkipBits peeked.2 e.bits
    pure (e.symbol, br)
  | none => do
    let br ← bsSkipBits peeked.2 1
    pure (ascii '?', br)

/-- The encoding part of `main`. The flag is false where `main` returns because of a character
without a code; the flag of the sentinel is not looked at. -/
def encode (message : CString) (wire : List (BitVec 8)) : Eval (Bool × BsWriter) :=
  writeMessage encodeSymbol (fun bw ↦ (true, ·.2) <$> encodeSymbol bw 0) bsWriterFlush message
    (bsWriterInit wire wire.length)

/-- One pass of the decoding loop of `main`, whose array is `char decoded[256]`. -/
def decodePass (s : DecodeState) : Eval (Pass DecodeState) := do
  let read ← decodeSymbol s.br
  if read.1 = 0 then pure (.leave { s with br := read.2 })
  else do
    let decoded ← Eval.store s.out 256 s.idx read.1
    pure (.next { br := read.2, out := decoded, idx := s.idx + 1 })

/-- The decoding part of `main`. A pass that does not leave the loop adds 1 to `idx`, so the loop
ends within 255 passes. -/
def decode (data : List (BitVec 8)) (size : ℕ) (decoded : List (BitVec 8)) :
    Eval (List (BitVec 8)) := do
  let s ← whileLoop (fun s : DecodeState ↦ bsReaderEof s.br = false ∧ s.idx < 255) decodePass 255
    { br := bsReaderInit data size, out := decoded, idx := 0 }
  Eval.store s.out 256 s.idx 0

/-- The exit code. A reader of `bytes` bytes at `wire` sees the first `bytes` bytes. -/
def main (message : Message) (wire decoded : List (BitVec 8)) : Eval ℕ := do
  let written ← encode message wire
  if written.1 then do
    let bytes := bsWriterBytesWritten written.2
    let decoded ← decode (written.2.buffer.take bytes) bytes decoded
    pure (if stringAt decoded = message.chars then 0 else 1)
  else pure 1

theorem codebook_spells :
    Spells .msb codebook HuffmanEntry.symbol (fun e ↦ e.code.setWidth 32) HuffmanEntry.bits where
  entries_eq := by decide
  code_lt := by decide
  length_le := by decide

variable {mode : Overshift} {br : BsReader} {bits : List Bool}

/-! ### Encoding -/

theorem encodeSymbol_puts (mode : Overshift) : Puts .msb mode encodeSymbol :=
  codebook_spells.putCode_puts mode

theorem sentinel_putsEnd (mode : Overshift) :
    PutsEnd .msb mode fun bw ↦ (true, ·.2) <$> encodeSymbol bw 0 := by
  intro initial bw bits fits h hfit
  have hput : MeetsIf fits mode (encodeSymbol bw 0) _ := encodeSymbol_puts mode 0 h hfit
  refine Eval.Meets.map (hput.mono fun written hwritten ↦ ?_)
  exact ⟨rfl, hwritten.2⟩

theorem encode_meetsIf (mode : Overshift) (message : CString) (wire : List (BitVec 8)) {fits : Prop}
    (hfit : fits → (messageBits message).length / 8 ≤ wire.length) :
    MeetsIf fits mode (encode message wire) fun written ↦
      written.1 = decide (Writable message) ∧ Emitted .msb wire written.2 (sentBits message) :=
  writeMessage_meetsIf (encodeSymbol_puts mode) (sentinel_putsEnd mode) message wire hfit

/-! ### Decoding -/

/-- One symbol: the word that the six bits shown begin with. The error branch is not reached. -/
theorem decodeSymbol_ensures (mode : Overshift) (h : Delivers .msb br bits) :
    ∃ s word, textCode.scan (window bits) = some (s, word) ∧
      Eval.Ensures mode (decodeSymbol br) fun read ↦
        read.1 = s ∧ Delivers .msb read.2 (bits.drop word.length) := by
  obtain ⟨e, he, hscan, hmatch⟩ := codebook_spells.firstMatch_ensures mode bits
  refine ⟨e.symbol, _, hscan, ?_⟩
  have hpeek : Eval.Ensures mode (bsPeekBits br 6) _ := h.peek_ensures (by norm_num)
  refine hpeek.bind fun peeked hpeeked ↦ ?_
  rw [hpeeked.1]
  refine hmatch.bind_eq ?_
  have hlength := codebook_spells.length_le e he
  have hskip : Eval.Ensures mode (bsSkipBits peeked.2 e.bits) _ :=
    hpeeked.2.skip_ensures (hlength.trans (by norm_num))
  refine hskip.bind fun after hafter ↦ ?_
  rw [length_fieldBits]
  exact Eval.ensures_pure ⟨rfl, hafter⟩

variable {decoded text : List (BitVec 8)} {room : ℕ} {s : DecodeState}

/-- The loop ends at the end of the data or when the array is full. -/
theorem exit_stored (hdecoded : decoded.length = 256)
    (h : Decoding .msb (readText min) decoded text room s bits)
    (hguard : ¬ (bsReaderEof s.br = false ∧ s.idx < 255)) : Stored decoded text s.out s.idx := by
  have hroom := h.room_eq
  rw [hdecoded] at hroom
  apply h.finish
  by_cases hzero : room = 0
  · rw [hzero, readText_zero Nat.min_zero]
  · have heof : bsReaderEof s.br = true := by
      by_contra hmore
      exact hguard ⟨Bool.not_eq_true _ ▸ hmore, by omega⟩
    rw [h.delivers.eof_eq, decide_eq_true_iff] at heof
    rw [heof, readText_short min _ (by norm_num), List.length_nil, Nat.zero_min]
    rfl

/-- One pass of the loop. -/
theorem decodePass_ensures (h : Decoding .msb (readText min) decoded text (room + 1) s bits)
    (hguard : bsReaderEof s.br = false ∧ s.idx < 255) :
    Eval.Ensures mode (decodePass s)
      (Pass.Ends (fun t ↦ ∃ bits, Decoding .msb (readText min) decoded text room t bits)
        fun t ↦ Stored decoded text t.out t.idx) := by
  have hmore : bits ≠ [] := by
    have heof := hguard.1
    rwa [h.delivers.eof_eq, decide_eq_false_iff_not] at heof
  have hpos := List.length_pos_iff.mpr hmore
  obtain ⟨c, word, hscan, hsymbol⟩ := decodeSymbol_ensures mode h.delivers
  have hfound := readText_succ min room (fun _ ↦ by omega) hscan
  refine hsymbol.bind fun read hread ↦ ?_
  rw [hread.1]
  by_cases hstop : c = 0
  · rw [if_pos hstop] at hfound ⊢
    exact Eval.ensures_pure (h.finish hfound)
  · rw [if_neg hstop] at hfound ⊢
    have hroom : s.idx < 256 := by omega
    refine (Eval.ensures_store hroom).bind_eq ?_
    exact Eval.ensures_pure ⟨_, h.push hfound hread.2⟩

/-- The decoder on any bytes is defined, and stores the text that is found with its terminator. -/
theorem decode_stores (mode : Overshift) (data : List (BitVec 8))
    (hdecoded : decoded.length = 256) :
    Eval.Ensures mode (decode data data.length decoded) fun out ↦
      out = terminated decoded (readText min 255 (stream .msb data)) := by
  have hinit := Decoding.init .msb (readText min) data (by omega : 255 + 1 = decoded.length)
  have hloop : Eval.Ensures mode (whileLoop _ decodePass 255 _) _ :=
    whileLoop_ensures
      (fun room s ↦ ∃ bits, Decoding .msb (readText min) decoded
        (readText min 255 (stream .msb data)) room s bits)
      (fun room s h hguard ↦ exit_stored hdecoded h.choose_spec hguard)
      (fun s h hguard ↦ by
        have hroom := h.choose_spec.room_eq
        omega)
      (fun room s h hguard ↦ decodePass_ensures h.choose_spec hguard) ⟨_, hinit⟩
  refine hloop.bind fun s hs ↦ ?_
  rw [← hdecoded]
  exact hs.terminate_ensures

/-- What the decoder makes of any bytes, which have one reading. It is defined, never takes a code
for unrecognized, and stores with their terminator the characters whose words the bits begin with,
up to the sentinel or 255 of them; if fewer than six bits are left in front of a sentinel, an `'e'`
for each of them. Assumes: the array has its 256 characters. -/
theorem decode_finds_words (mode : Overshift) (data decoded : List (BitVec 8))
    (hdecoded : decoded.length = 256) :
    ∃ read, (∀ other, textCode.Reads 6 0 255 (stream .msb data) other ↔ other = read) ∧
      Eval.Ensures mode (decode data data.length decoded) fun out ↦
        out = terminated decoded (read.1 ++
          if read.2.length < 6 then
            List.replicate (min read.2.length (255 - read.1.length)) (ascii 'e')
          else []) :=
  ⟨_, fun _ ↦ CodeTable.reads_iff, decode_stores mode data hdecoded⟩

/-- A byte that ends in the middle of a word. -/
theorem decode_finds_words_one_byte :
    ∃ read, (∀ other, textCode.Reads 6 0 255 (stream .msb [0x5B#8]) other ↔ other = read) ∧
      Eval.Ensures .masked (decode [0x5B] 1 (List.replicate 256 0)) fun out ↦
        out = terminated (List.replicate 256 0) (read.1 ++
          if read.2.length < 6 then
            List.replicate (min read.2.length (255 - read.1.length)) (ascii 'e')
          else []) :=
  decode_finds_words .masked [0x5B] (List.replicate 256 0) List.length_replicate

/-! ### The round trip -/

/-- The program finds its message again exactly if every character has a code and the message fits
the array; it then exits with 0, and with 1 otherwise. Assumes: the bytes of the message fit the
wire, and the array has its 256 characters. -/
theorem main_finds_message (mode : Overshift) (message : Message) (wire decoded : List (BitVec 8))
    (hwire : (wireBytes .msb message).length ≤ wire.length) (hdecoded : decoded.length = 256) :
    Eval.Ensures mode (main message wire decoded) fun code ↦
      code = if Writable message ∧ message.chars.length ≤ 255 then 0 else 1 := by
  have hfit := (length_messageBits_div_le .msb message).trans hwire
  have hencode := (encode_meetsIf mode message wire fun _ : True ↦ hfit).ensures trivial
  refine hencode.bind fun written hwritten ↦ ?_
  obtain ⟨hknown, hemitted⟩ := hwritten
  by_cases hwritable : Writable message
  · rw [decide_eq_true hwritable] at hknown
    rw [sentBits, if_pos hwritable] at hemitted
    rw [if_pos hknown]
    obtain ⟨_, hcount, hbuffer⟩ := wire_of_emitted hemitted hwire
    have htaken : written.2.buffer.take (bsWriterBytesWritten written.2) =
        wireBytes .msb message := by
      rw [hbuffer, hcount, List.take_left' rfl]
    have hdecode : Eval.Ensures mode
        (decode (written.2.buffer.take (bsWriterBytesWritten written.2))
          (bsWriterBytesWritten written.2) decoded)
        fun out ↦ out = terminated decoded (message.chars.take 255) := by
      rw [htaken, hcount, ← readText_wireBytes min .msb hwritable]
      exact decode_stores mode _ hdecoded
    refine hdecode.bind fun out hout ↦ Eval.ensures_pure ?_
    have hnul : 0 ∉ message.chars.take 255 := fun hin ↦ message.no_nul (List.mem_of_mem_take hin)
    rw [hout, stringAt_terminated hnul]
    simp only [List.take_eq_self_iff, hwritable, true_and]
  · rw [decide_eq_false hwritable] at hknown
    rw [if_neg (by rw [hknown]; exact Bool.false_ne_true), if_neg fun h ↦ hwritable h.1]
    exact Eval.ensures_pure rfl

/-- The last word of the message of the program. -/
theorem main_finds_message_tea :
    Eval.Ensures .masked
      (main ⟨⟨[ascii 't', ascii 'e', ascii 'a'], by decide⟩, by decide⟩ (List.replicate 64 0)
        (List.replicate 256 0)) fun code ↦
      code = if Writable ⟨[ascii 't', ascii 'e', ascii 'a'], by decide⟩ ∧
        [ascii 't', ascii 'e', ascii 'a'].length ≤ 255 then 0 else 1 :=
  main_finds_message .masked ⟨⟨[ascii 't', ascii 'e', ascii 'a'], by decide⟩, by decide⟩
    (List.replicate 64 0) (List.replicate 256 0) (by decide) List.length_replicate

end Bitstream.Examples.HuffmanDecode
