import Bitstream.Examples.TextDecoding

/-!
# The program `fast_decode.c`

The same code as in `huffman_decode.c`, with two decoders: one checks every call, the other peeks
and skips unchecked behind an assertion that six bits are left. A failing assertion ends the
program; a function that asserts returns none then. What is printed is left out.

The encoder returns exactly for the texts that have codes and fit (`huffmanEncode_returns`). The
checked decoder returns on all data (`huffmanDecodeSafe_reads`). The unchecked one counts the bits
left in a `size_t`, which wraps from `2 ^ w` bits on; it fails exactly when fewer than six of the
bits that it counts are left while there is room for more, and where it returns it agrees with the
checked one (`huffmanDecodeFast_agrees`). `main_verifies` is the round trip through both.
-/

set_option autoImplicit false
set_option relaxedAutoImplicit false

namespace Bitstream.Examples.FastDecode

open Foundation Header Reading Writing

/-- The entry `huff_entry_t`. -/
structure HuffEntry where
  symbol : BitVec 8
  code : BitVec 32
  bits : ℕ

/-- The table `HUFF_TABLE`. -/
def huffTable : List HuffEntry := [
  ⟨ascii 'e', 0x00, 1⟩,
  ⟨ascii 't', 0x02, 2⟩,
  ⟨ascii 'a', 0x06, 3⟩,
  ⟨ascii ' ', 0x0E, 4⟩,
  ⟨ascii 'h', 0x1E, 5⟩,
  ⟨ascii 'r', 0x3E, 6⟩,
  ⟨0, 0x3F, 6⟩]

def huffFind (symbol : BitVec 8) : Option HuffEntry := huffTable.find? fun e ↦ e.symbol = symbol

def huffMatch (window : BitVec 32) : Eval (Option HuffEntry) :=
  firstMatch (fun e ↦ fitsWindow window e.code e.bits) huffTable

/-- The body of the loop of the encoder. The flag is the assertion that the character was found. -/
def putSymbol : BsWriter → BitVec 8 → Eval (Bool × BsWriter) :=
  putCode bsWriteBits huffFind HuffEntry.code HuffEntry.bits

def putSentinel (bw : BsWriter) : Eval (Bool × BsWriter) := putSymbol bw 0

/-- The result is the number of bytes and the buffer. -/
def huffmanEncode (msg : CString) (out : List (BitVec 8)) (outSize : ℕ) :
    Eval (Option (ℕ × List (BitVec 8))) := do
  let written ← writeMessage putSymbol putSentinel bsWriterFlush msg (bsWriterInit out outSize)
  pure (if written.1 = false ∨ written.2.overflow then none
    else some (bsWriterBytesWritten written.2, written.2.buffer))

/-- One pass of the loop of the checked decoder. -/
def safePass (outSize : ℕ) (s : DecodeState) : Eval (Option (Pass DecodeState)) := do
  let peeked ← bsPeekBits s.br 6
  match ← huffMatch peeked.1 with
  | none => pure none
  | some e =>
    if e.symbol = 0 then do
      let br ← bsSkipBits peeked.2 e.bits
      pure (some (.leave { s with br := br }))
    else do
      let out ← Eval.store s.out outSize s.idx e.symbol
      let br ← bsSkipBits peeked.2 e.bits
      pure (some (.next { br := br, out := out, idx := s.idx + 1 }))

/-- One pass of the loop of the unchecked decoder. -/
def fastPass (sizeT : SizeT) (outSize : ℕ) (s : DecodeState) :
    Eval (Option (Pass DecodeState)) :=
  if bsReaderBitsLeft sizeT s.br ≥ 6 then do
    let peeked ← bsPeekBitsUnchecked s.br 6
    match ← huffMatch peeked.1 with
    | none => pure none
    | some e =>
      if e.symbol = 0 then do
        let br ← bsSkipBitsUnchecked peeked.2 e.bits
        pure (some (.leave { s with br := br }))
      else do
        let out ← Eval.store s.out outSize s.idx e.symbol
        let br ← bsSkipBitsUnchecked peeked.2 e.bits
        pure (some (.next { br := br, out := out, idx := s.idx + 1 }))
  else pure none

/-- The two decoders, which differ in the body of the loop. A pass that does not leave the loop adds
1 to `pos`, so the loop ends within `out_size - 1` passes. -/
def decodeWith (pass : DecodeState → Eval (Option (Pass DecodeState))) (sizeT : SizeT)
    (data : List (BitVec 8)) (len : ℕ) (out : List (BitVec 8)) (outSize : ℕ) :
    Eval (Option (List (BitVec 8))) := do
  let last ← Eval.sub sizeT.bits outSize 1
  match ← assertingLoop (fun s : DecodeState ↦ s.idx < last) pass last
      { br := bsReaderInit data len, out := out, idx := 0 } with
  | none => pure none
  | some s => some <$> Eval.store s.out outSize s.idx 0

def huffmanDecodeSafe (sizeT : SizeT) (data : List (BitVec 8)) (len : ℕ) (out : List (BitVec 8))
    (outSize : ℕ) : Eval (Option (List (BitVec 8))) :=
  decodeWith (safePass outSize) sizeT data len out outSize

def huffmanDecodeFast (sizeT : SizeT) (data : List (BitVec 8)) (len : ℕ) (out : List (BitVec 8))
    (outSize : ℕ) : Eval (Option (List (BitVec 8))) :=
  decodeWith (fastPass sizeT outSize) sizeT data len out outSize

/-- The exit code, with the arrays `wire`, `decoded_safe` and `decoded_fast`. -/
def main (sizeT : SizeT) (message : Message) (wire decodedSafe decodedFast : List (BitVec 8)) :
    Eval (Option ℕ) := do
  match ← huffmanEncode message wire wire.length with
  | none => pure none
  | some (wireLen, wire) => do
    match ← huffmanDecodeSafe sizeT (wire.take wireLen) wireLen decodedSafe decodedSafe.length with
    | none => pure none
    | some safe => do
      match ← huffmanDecodeFast sizeT (wire.take wireLen) wireLen decodedFast
          decodedFast.length with
      | none => pure none
      | some fast =>
        pure (if stringAt safe = message.chars ∧ stringAt fast = message.chars ∧
          stringAt safe = stringAt fast then some 0 else none)

theorem huffTable_spells :
    Spells .msb huffTable HuffEntry.symbol HuffEntry.code HuffEntry.bits where
  entries_eq := by decide
  code_lt := by decide
  length_le := by decide

variable {mode : Overshift}

/-! ### Encoding -/

theorem putSymbol_puts (mode : Overshift) : Puts .msb mode putSymbol :=
  huffTable_spells.putCode_puts mode

theorem putSentinel_putsEnd (mode : Overshift) : PutsEnd .msb mode putSentinel :=
  fun h hfit ↦ putSymbol_puts mode 0 h hfit

/-- The encoder for every capacity: it returns exactly if every character has a code and the bytes
of the message fit, and what it returns are these bytes. Where the message fits, every operation is
defined. -/
theorem huffmanEncode_returns (mode : Overshift) (msg : CString) (out : List (BitVec 8)) :
    MeetsIf ((messageBits msg).length / 8 ≤ out.length) mode (huffmanEncode msg out out.length)
      fun result ↦ result =
        if Writable msg ∧ (wireBytes .msb msg).length ≤ out.length then
          some ((wireBytes .msb msg).length,
            wireBytes .msb msg ++ out.drop (wireBytes .msb msg).length)
        else none := by
  have hmessage : MeetsIf _ mode (writeMessage _ _ bsWriterFlush msg _) _ :=
    writeMessage_meetsIf (putSymbol_puts mode) (putSentinel_putsEnd mode) msg out id
  refine Eval.Meets.bind hmessage fun written hwritten ↦ ?_
  obtain ⟨hknown, hemitted⟩ := hwritten
  apply Eval.meets_pure
  by_cases hwritable : Writable msg
  · rw [decide_eq_true hwritable] at hknown
    rw [sentBits, if_pos hwritable] at hemitted
    by_cases hfit : (wireBytes .msb msg).length ≤ out.length
    · obtain ⟨hopen, hcount, hbuffer⟩ := wire_of_emitted hemitted hfit
      rw [hknown, hopen, hcount, hbuffer, if_neg (by decide), if_pos ⟨hwritable, hfit⟩]
    · have hoverflow := hemitted.overflow_eq
      rw [← length_wireBytes .msb, decide_eq_true (by omega)] at hoverflow
      rw [if_pos (.inr hoverflow), if_neg fun h ↦ hfit h.2]
  · rw [decide_eq_false hwritable] at hknown
    rw [if_pos (.inl hknown), if_neg fun h ↦ hwritable h.1]

/-! ### Decoding -/

variable {data out text : List (BitVec 8)} {bits : List Bool} {room : ℕ} {s : DecodeState}

/-- The words end with fewer than six bits left and room for more. -/
def EndsShort (room : ℕ) (bits : List Bool) : Prop :=
  (textCode.parse 6 0 room bits).2.length < 6 ∧ (words 6 room bits).length < room

instance (room : ℕ) (bits : List Bool) : Decidable (EndsShort room bits) :=
  inferInstanceAs (Decidable (_ ∧ _))

theorem endsShort_of_ends {bits : List Bool} (h : textCode.Ends 6 0 bits) (room : ℕ) :
    EndsShort room bits ↔ bits.length < 6 ∧ 0 < room := by
  rw [EndsShort, words, CodeTable.parse_ends h]
  rfl

theorem endsShort_succ {c : BitVec 8} {word : List Bool} (hdepth : 6 ≤ bits.length)
    (hscan : textCode.scan bits = some (c, word)) (hstop : c ≠ 0) (room : ℕ) :
    EndsShort (room + 1) bits ↔ EndsShort room (bits.drop word.length) := by
  rw [EndsShort, EndsShort, words_succ hdepth hscan hstop,
    CodeTable.parse_symbol hdepth hscan hstop, List.length_cons, Nat.add_lt_add_iff_right]

/-- A pass that finds its part of a text, or fails: it stores a character and skips its word, or it
has found all. -/
def PassFinds (mode : Overshift) (found : ℕ → List Bool → List (BitVec 8))
    (failed : ℕ → List Bool → Prop) (outSize : ℕ)
    (pass : DecodeState → Eval (Option (Pass DecodeState))) : Prop :=
  ∀ (s : DecodeState) (bits : List Bool) (room : ℕ), Delivers .msb s.br bits →
    s.idx < outSize →
      Eval.Ensures mode (pass s) (Pass.EndsOr (failed (room + 1) bits)
        (fun t ↦ ∃ c br n, t = { br := br, out := s.out.set s.idx c, idx := s.idx + 1 } ∧
          Delivers .msb br (bits.drop n) ∧
            found (room + 1) bits = c :: found room (bits.drop n) ∧
              (failed (room + 1) bits ↔ failed room (bits.drop n)))
        fun t ↦ t.out = s.out ∧ t.idx = s.idx ∧ found (room + 1) bits = [] ∧
          ¬ failed (room + 1) bits)

/-- The loop of the two decoders stores what its passes find, unless one of them fails. -/
theorem decodeLoop_ensures {pass : DecodeState → Eval (Option (Pass DecodeState))}
    {found : ℕ → List Bool → List (BitVec 8)} {failed : ℕ → List Bool → Prop}
    (hzero : ∀ bits, found 0 bits = [] ∧ ¬ failed 0 bits) (data : List (BitVec 8))
    (hout : room + 1 = out.length)
    (hpass : PassFinds mode found failed out.length pass) :
    Eval.Ensures mode
      (assertingLoop (fun s : DecodeState ↦ s.idx < room) pass room
        { br := bsReaderInit data data.length, out := out, idx := 0 }) fun result ↦
      (failed room (stream .msb data) ∧ result = none) ∨
        ∃ s, result = some s ∧ ¬ failed room (stream .msb data) ∧
          Stored out (found room (stream .msb data)) s.out s.idx := by
  refine assertingLoop_ensures
    (fun left s ↦ ∃ bits, Decoding .msb found out (found room (stream .msb data)) left s bits ∧
      (failed room (stream .msb data) ↔ failed left bits))
    ?_ ?_ ?_ ⟨_, Decoding.init .msb found data hout, Iff.rfl⟩
  · rintro left s ⟨bits, h, hfailed⟩ hguard
    have hroom := h.room_eq
    obtain rfl : left = 0 := by omega
    exact .inr ⟨s, rfl, mt hfailed.mp (hzero bits).2, h.finish (hzero bits).1⟩
  · rintro s ⟨bits, h, _⟩ hguard
    have hroom := h.room_eq
    omega
  · rintro left s ⟨bits, h, hfailed⟩ hguard
    refine (hpass s bits left h.delivers (by omega)).mono fun result hresult ↦ ?_
    cases result with
    | none => exact .inl ⟨hfailed.mpr hresult, rfl⟩
    | some after =>
      cases after with
      | next t =>
        obtain ⟨c, br, n, rfl, hbr, hfound, hrest⟩ := hresult
        exact ⟨bits.drop n, h.push hfound hbr, hfailed.trans hrest⟩
      | leave t =>
        obtain ⟨hsame, hidx, hnone, hmore⟩ := hresult
        refine .inr ⟨t, rfl, mt hfailed.mp hmore, ?_⟩
        rw [hsame, hidx]
        exact h.finish hnone

/-- What the passes find is stored with its terminator, unless one of them fails. -/
theorem decodeWith_ensures {pass : DecodeState → Eval (Option (Pass DecodeState))} (sizeT : SizeT)
    {found : ℕ → List Bool → List (BitVec 8)} {failed : ℕ → List Bool → Prop}
    (hzero : ∀ bits, found 0 bits = [] ∧ ¬ failed 0 bits) (data : List (BitVec 8))
    (hout : room + 1 = out.length)
    (hpass : PassFinds mode found failed out.length pass) :
    Eval.Ensures mode (decodeWith pass sizeT data data.length out out.length) fun result ↦
      (failed room (stream .msb data) ∧ result = none) ∨
        ¬ failed room (stream .msb data) ∧
          result = some (terminated out (found room (stream .msb data))) := by
  have hlast : Eval.Ensures mode (Eval.sub sizeT.bits out.length 1) fun last ↦ last = room :=
    (Eval.ensures_sub sizeT.bits (by omega)).mono fun last hlast ↦ by omega
  refine hlast.bind_eq ?_
  refine (decodeLoop_ensures hzero data hout hpass).bind fun result hresult ↦ ?_
  rcases hresult with ⟨hfailed, rfl⟩ | ⟨s, rfl, hreads, hstored⟩
  · exact Eval.ensures_pure (.inl ⟨hfailed, rfl⟩)
  · refine Eval.Ensures.map (hstored.terminate_ensures.mono fun array harray ↦ ?_)
    exact .inr ⟨hreads, congrArg some harray⟩

/-! ### One pass -/

/-- A checked pass finds its character on all data: behind the last whole window, an `'e'`. -/
theorem safePass_finds (mode : Overshift) (outSize : ℕ) :
    PassFinds mode (readText fun _ room ↦ room) (fun _ _ ↦ False) outSize
      (safePass outSize) := by
  intro s bits room h hidx
  obtain ⟨e, he, hscan, hmatch⟩ := huffTable_spells.firstMatch_ensures mode bits
  have hlength := huffTable_spells.length_le e he
  have hfound := readText_succ (fun _ room ↦ room) room (fun _ ↦ rfl) hscan
  have hpeek : Eval.Ensures mode (bsPeekBits s.br 6) _ := h.peek_ensures (by norm_num)
  refine hpeek.bind fun peeked hpeeked ↦ ?_
  rw [hpeeked.1]
  refine hmatch.bind_eq ?_
  have hskip : Eval.Ensures mode (bsSkipBits peeked.2 e.bits) _ :=
    hpeeked.2.skip_ensures (hlength.trans (by norm_num))
  show Eval.Ensures mode (if e.symbol = 0 then _ else _) _
  by_cases hstop : e.symbol = 0
  · rw [if_pos hstop] at hfound ⊢
    exact hskip.bind fun br _ ↦ Eval.ensures_pure ⟨rfl, rfl, hfound, id⟩
  · rw [if_neg hstop] at hfound ⊢
    refine (Eval.ensures_store hidx).bind_eq ?_
    refine hskip.bind fun br hbr ↦ Eval.ensures_pure ?_
    rw [length_fieldBits] at hfound
    exact ⟨e.symbol, br, _, rfl, hbr, hfound, Iff.rfl⟩

/-- A pass that counts six bits or more finds its character unchecked. What it finds are the words
of the bits that are counted, since the count does not wrap on the way. -/
theorem fastPass_finds (mode : Overshift) (sizeT : SizeT) (outSize : ℕ) :
    PassFinds mode (fun room bits ↦ words 6 room (countedBits sizeT.bits bits))
      (fun room bits ↦ EndsShort room (countedBits sizeT.bits bits)) outSize
      (fastPass sizeT outSize) := by
  intro s bits room h hidx
  have hleft := h.bitsLeft_eq sizeT
  rw [← length_countedBits] at hleft
  unfold fastPass
  by_cases hsix : (countedBits sizeT.bits bits).length ≥ 6
  · have hthere : 6 ≤ bits.length := hsix.trans (countedBits_begins _ _).length_le
    rw [hleft, if_pos hsix]
    obtain ⟨e, he, hscan, hmatch⟩ :=
      huffTable_spells.firstMatch_ensures mode (countedBits sizeT.bits bits)
    have hlength := huffTable_spells.length_le e he
    rw [window_of_le hsix] at hscan
    rw [leadingField_countedBits .msb hsix] at hmatch
    have hpeek : Eval.Ensures mode (bsPeekBitsUnchecked s.br 6) _ :=
      h.peekUnchecked_ensures (by norm_num) (by norm_num) hthere
    refine hpeek.bind fun peeked hpeeked ↦ ?_
    rw [hpeeked.1]
    refine hmatch.bind_eq ?_
    have hskip : Eval.Ensures mode (bsSkipBitsUnchecked peeked.2 e.bits) _ :=
      hpeeked.2.1.skipUnchecked_ensures (by omega) (hlength.trans hpeeked.2.2)
    show Eval.Ensures mode (if e.symbol = 0 then _ else _) _
    by_cases hstop : e.symbol = 0
    · have hends : textCode.Ends 6 0 (countedBits sizeT.bits bits) :=
        .inr (.inr ⟨_, by rw [hscan, hstop]⟩)
      have hread : ¬ EndsShort (room + 1) (countedBits sizeT.bits bits) := by
        rw [endsShort_of_ends hends]
        omega
      rw [if_pos hstop]
      exact hskip.bind fun br _ ↦ Eval.ensures_pure ⟨rfl, rfl, words_of_ends hends _, hread⟩
    · have hfound := words_succ hsix hscan hstop room
      have hfailed := endsShort_succ hsix hscan hstop room
      rw [← countedBits_drop_word hscan, length_fieldBits] at hfound hfailed
      rw [if_neg hstop]
      refine (Eval.ensures_store hidx).bind_eq ?_
      refine hskip.bind fun br hbr ↦ Eval.ensures_pure ?_
      exact ⟨e.symbol, br, _, rfl, hbr, hfound, hfailed⟩
  · have hends : textCode.Ends 6 0 (countedBits sizeT.bits bits) := .inl (by omega)
    rw [hleft, if_neg hsix]
    refine Eval.ensures_pure ?_
    show EndsShort (room + 1) (countedBits sizeT.bits bits)
    rw [endsShort_of_ends hends]
    omega

/-! ### The decoders -/

theorem huffmanDecodeSafe_stores (sizeT : SizeT) (mode : Overshift) (data : List (BitVec 8))
    (hout : room + 1 = out.length) :
    Eval.Ensures mode (huffmanDecodeSafe sizeT data data.length out out.length) fun result ↦
      result = some (terminated out (readText (fun _ room ↦ room) room (stream .msb data))) := by
  refine (decodeWith_ensures sizeT (fun bits ↦ ⟨readText_zero (fun _ ↦ rfl) bits, id⟩) data hout
    (safePass_finds mode _)).mono fun result hresult ↦ ?_
  exact (hresult.resolve_left fun h ↦ h.1).2

theorem huffmanDecodeFast_stores (sizeT : SizeT) (mode : Overshift) (data : List (BitVec 8))
    (hout : room + 1 = out.length) :
    Eval.Ensures mode (huffmanDecodeFast sizeT data data.length out out.length) fun result ↦
      result = if EndsShort room (countedBits sizeT.bits (stream .msb data)) then none
        else some (terminated out (words 6 room (countedBits sizeT.bits (stream .msb data)))) := by
  refine (decodeWith_ensures sizeT (fun bits ↦ ⟨rfl, fun h ↦ Nat.not_lt_zero _ h.2⟩) data hout
    (fastPass_finds mode sizeT _)).mono fun result hresult ↦ ?_
  rcases hresult with ⟨hshort, rfl⟩ | ⟨hreads, rfl⟩
  · rw [if_pos hshort]
  · rw [if_neg hreads]

/-- The checked decoder, which reads all bits, finds the words of those in front unless they end
short. -/
theorem readText_append {bits : List Bool} (h : ¬ EndsShort room bits) (more : List Bool) :
    readText (fun _ room ↦ room) room (bits ++ more) = words 6 room bits := by
  have hreads := (CodeTable.parse_reads textCode 6 0 room bits).append textCode_complete h more
  rw [readText, ← hreads.eq_parse]
  dsimp only
  split_ifs with hshort
  · have hless : (textCode.parse 6 0 room bits).2.length < 6 := by
      rw [List.length_append] at hshort
      omega
    have hfull : room - (textCode.parse 6 0 room bits).1.length = 0 :=
      Nat.sub_eq_zero_of_le (not_lt.mp fun hroom ↦ h ⟨hless, hroom⟩)
    rw [hfull, List.replicate_zero, List.append_nil]
    rfl
  · exact List.append_nil _

/-- The checked decoder returns on all data. It stores with their terminator the characters whose
words the bits begin with, up to the sentinel or as far as there is room; if fewer than six bits are
left in front of a sentinel, it fills the array with `'e'`. Assumes: the array is not empty. -/
theorem huffmanDecodeSafe_reads (sizeT : SizeT) (mode : Overshift) (data out : List (BitVec 8))
    (hout : out ≠ []) :
    ∃ read, (∀ other, textCode.Reads 6 0 (out.length - 1) (stream .msb data) other ↔ other = read) ∧
      Eval.Ensures mode (huffmanDecodeSafe sizeT data data.length out out.length) fun result ↦
        result = some (terminated out (read.1 ++
          if read.2.length < 6 then
            List.replicate (out.length - 1 - read.1.length) (ascii 'e')
          else [])) :=
  ⟨_, fun _ ↦ CodeTable.reads_iff,
    huffmanDecodeSafe_stores sizeT mode data (Nat.sub_add_cancel (List.length_pos_iff.mpr hout))⟩

/-- One byte, and room for three characters. -/
theorem huffmanDecodeSafe_reads_one_byte :
    ∃ read, (∀ other, textCode.Reads 6 0 3 (stream .msb [0x5B#8]) other ↔ other = read) ∧
      Eval.Ensures .masked (huffmanDecodeSafe sizeT64 [0x5B] 1 [0, 0, 0, 0] 4) fun result ↦
        result = some (terminated [0, 0, 0, 0] (read.1 ++
          if read.2.length < 6 then List.replicate (3 - read.1.length) (ascii 'e') else [])) :=
  huffmanDecodeSafe_reads sizeT64 .masked [0x5B] [0, 0, 0, 0] (by decide)

/-- The unchecked decoder against the checked one, on all data. Its assertions fail exactly if fewer
than six of the bits that it counts are left in front of a sentinel while there is room for more;
otherwise it returns what the checked decoder returns, with every operation defined. It counts all
bits if their number is one of type `size_t`. Assumes: the array is not empty. -/
theorem huffmanDecodeFast_agrees (sizeT : SizeT) (mode other : Overshift)
    (data out : List (BitVec 8)) (hout : out ≠ []) :
    ∃ read, (∀ other, textCode.Reads 6 0 (out.length - 1)
        (countedBits sizeT.bits (stream .msb data)) other ↔ other = read) ∧
      Eval.Ensures mode (huffmanDecodeFast sizeT data data.length out out.length) fun result ↦
        result = if read.2.length < 6 ∧ read.1.length < out.length - 1 then none
          else (huffmanDecodeSafe sizeT data data.length out out.length).value other := by
  have hroom : out.length - 1 + 1 = out.length :=
    Nat.sub_add_cancel (List.length_pos_iff.mpr hout)
  refine ⟨_, fun _ ↦ CodeTable.reads_iff, ?_⟩
  refine (huffmanDecodeFast_stores sizeT mode data hroom).mono fun result hresult ↦ ?_
  rw [(huffmanDecodeSafe_stores sizeT other data hroom).post, hresult]
  obtain ⟨more, hmore⟩ := countedBits_begins sizeT.bits (stream .msb data)
  by_cases hshort : EndsShort (out.length - 1) (countedBits sizeT.bits (stream .msb data))
  · rw [if_pos hshort]
    exact (if_pos hshort).symm
  · have htext := readText_append hshort more
    rw [hmore] at htext
    rw [if_neg hshort, htext]
    exact (if_neg hshort).symm

/-- One byte, and room for three characters. -/
theorem huffmanDecodeFast_agrees_one_byte :
    ∃ read, (∀ other, textCode.Reads 6 0 3 (countedBits 64 (stream .msb [0x5B#8])) other ↔
        other = read) ∧
      Eval.Ensures .masked (huffmanDecodeFast sizeT64 [0x5B] 1 [0, 0, 0, 0] 4) fun result ↦
        result = if read.2.length < 6 ∧ read.1.length < 3 then none
          else (huffmanDecodeSafe sizeT64 [0x5B] 1 [0, 0, 0, 0] 4).value .masked :=
  huffmanDecodeFast_agrees sizeT64 .masked .masked [0x5B] [0, 0, 0, 0] (by decide)

/-! ### The round trip -/

/-- On a wire the words do not end short. -/
theorem not_endsShort_wireBytes {message : CString} (h : Writable message) (room : ℕ) :
    ¬ EndsShort room (stream .msb (wireBytes .msb message)) := by
  rw [EndsShort, parse_wireBytes .msb h le_rfl]
  intro hshort
  simp only [List.length_append, List.length_replicate] at hshort
  omega

/-- The unchecked decoder on a wire: it returns the message exactly if it counts all bits and there
is room for the text. -/
theorem huffmanDecodeFast_wire (sizeT : SizeT) (mode : Overshift) {message : CString}
    (h : Writable message) (hout : room + 1 = out.length) :
    Eval.Ensures mode (huffmanDecodeFast sizeT (wireBytes .msb message)
        (wireBytes .msb message).length out out.length) fun result ↦
      result.map stringAt = some message.chars ↔
        8 * (wireBytes .msb message).length < 2 ^ sizeT.bits ∧ message.chars.length ≤ room := by
  have hwidth : 4 ≤ sizeT.bits := le_trans (by norm_num) sizeT.sixteen_le
  refine (huffmanDecodeFast_stores sizeT mode _ hout).mono fun result hresult ↦ ?_
  rw [hresult]
  by_cases hshort : EndsShort room (countedBits sizeT.bits (stream .msb (wireBytes .msb message)))
  · rw [if_pos hshort]
    refine iff_of_false nofun fun hread ↦ ?_
    rw [countedBits_of_lt (by rw [length_stream]; exact hread.1)] at hshort
    exact not_endsShort_wireBytes h room hshort
  · rw [if_neg hshort, Option.map_some, stringAt_terminated (nul_not_mem_words _ _ _),
      Option.some.injEq]
    exact words_countedBits_eq_iff .msb h le_rfl hwidth room

/-- The program verifies its message exactly if every character has a code, the bytes of the message
fit the wire, their bits can be counted in a `size_t`, and the text with its terminator fits both
arrays; otherwise an assertion fails. Assumes: the arrays for the text are not empty. Where the
message fits the wire, every operation is defined. -/
theorem main_verifies (sizeT : SizeT) (mode : Overshift) (message : Message)
    (wire decodedSafe decodedFast : List (BitVec 8)) (hsafe : decodedSafe ≠ [])
    (hfast : decodedFast ≠ []) :
    MeetsIf ((messageBits message).length / 8 ≤ wire.length) mode
      (main sizeT message wire decodedSafe decodedFast) fun result ↦ result =
        if (Writable message ∧ (wireBytes .msb message).length ≤ wire.length) ∧
          8 * (wireBytes .msb message).length < 2 ^ sizeT.bits ∧
          message.chars.length < decodedSafe.length ∧ message.chars.length < decodedFast.length
        then some 0 else none := by
  have hsafe' : decodedSafe.length - 1 + 1 = decodedSafe.length :=
    Nat.sub_add_cancel (List.length_pos_iff.mpr hsafe)
  have hfast' : decodedFast.length - 1 + 1 = decodedFast.length :=
    Nat.sub_add_cancel (List.length_pos_iff.mpr hfast)
  refine Eval.Meets.bind (huffmanEncode_returns mode message wire) fun result hresult ↦ ?_
  by_cases hreturns : Writable message ∧ (wireBytes .msb message).length ≤ wire.length
  · rw [if_pos hreturns] at hresult
    subst hresult
    have htaken : (wireBytes .msb message ++ wire.drop (wireBytes .msb message).length).take
        (wireBytes .msb message).length = wireBytes .msb message := List.take_left' rfl
    have hdecodeSafe := huffmanDecodeSafe_stores sizeT mode (wireBytes .msb message) hsafe'
    have hdecodeFast := huffmanDecodeFast_wire sizeT mode hreturns.1 hfast'
    have hnul : 0 ∉ message.chars.take (decodedSafe.length - 1) := fun hin ↦
      message.no_nul (List.mem_of_mem_take hin)
    rw [readText_wireBytes _ .msb hreturns.1] at hdecodeSafe
    refine Eval.Ensures.meets ?_ fun o ho _ ↦ ho
    simp only [htaken]
    refine hdecodeSafe.bind_eq (hdecodeFast.bind fun fast hread ↦ ?_)
    cases fast with
    | none =>
      refine Eval.ensures_pure (if_neg fun hall ↦ ?_).symm
      exact nomatch hread.mpr ⟨hall.2.1, by omega⟩
    | some fast =>
      refine Eval.ensures_pure (if_congr ?_ rfl rfl)
      rw [Option.map_some, Option.some.injEq] at hread
      rw [stringAt_terminated hnul, List.take_eq_self_iff, hread]
      constructor
      · rintro ⟨hfits, ⟨hcount, hfits'⟩, _⟩
        exact ⟨hreturns, hcount, by omega, by omega⟩
      · rintro ⟨_, hcount, hfits, hfits'⟩
        have hread' := hread.mpr ⟨hcount, by omega⟩
        refine ⟨by omega, ⟨hcount, by omega⟩, ?_⟩
        rw [hread', List.take_of_length_le (by omega)]
  · rw [if_neg hreturns] at hresult
    rw [hresult, if_neg fun h ↦ hreturns h.1]
    exact Eval.meets_pure rfl

/-- A text and arrays of eight characters. -/
theorem main_verifies_tea :
    MeetsIf ((messageBits ⟨[ascii 't', ascii 'e', ascii 'a'], by decide⟩).length / 8 ≤ 4) .masked
      (main sizeT64 ⟨⟨[ascii 't', ascii 'e', ascii 'a'], by decide⟩, by decide⟩ (List.replicate 4 0)
        (List.replicate 8 0) (List.replicate 8 0)) fun result ↦ result =
        if (Writable ⟨[ascii 't', ascii 'e', ascii 'a'], by decide⟩ ∧
            (wireBytes .msb ⟨[ascii 't', ascii 'e', ascii 'a'], by decide⟩).length ≤ 4) ∧
          8 * (wireBytes .msb ⟨[ascii 't', ascii 'e', ascii 'a'], by decide⟩).length < 2 ^ 64 ∧
          3 < 8 ∧ 3 < 8 then some 0 else none :=
  main_verifies sizeT64 .masked ⟨⟨[ascii 't', ascii 'e', ascii 'a'], by decide⟩, by decide⟩
    (List.replicate 4 0) (List.replicate 8 0) (List.replicate 8 0) (by decide) (by decide)

end Bitstream.Examples.FastDecode
