import Bitstream.Format.Reencoding
import Bitstream.Foundation.FixedFormat
import Bitstream.Reading.BitSource
import Bitstream.Writing.FieldWriting

/-!
# Records of fixed width

An encoder writes a record with a few calls, a decoder reads it with as many. `Encodes` and
`Decodes` say of one record which format the calls follow, and the loops over many records, in both
directions, are derived from that once for every format. What was encoded is decoded
(`Encodes.writeRecords_ensures` with `Decodes.readRecords_ensures`), and what was decoded is encoded
as it was, up to the padding of the last byte (`reencodeRecords_ensures`).
-/

set_option autoImplicit false
set_option relaxedAutoImplicit false

namespace Bitstream.Format

open Foundation Header Reading Writing

variable {α ρ : Type} {order : BitOrder} {f : FixedFormat α} {mode : Overshift}
  {initial data : List (BitVec 8)} {bw : BsWriter} {br : BsReader} {bits more : List Bool}

/-- The function writes the record of a value, `pack` of it, as long as there is room. -/
def Encodes (order : BitOrder) (mode : Overshift) (f : FixedFormat α) (pack : ρ → α)
    (enc : BsWriter → ρ → Eval BsWriter) : Prop :=
  ∀ (initial : List (BitVec 8)) (bw : BsWriter) (bits : List Bool) (r : ρ),
    Emitted order initial bw bits → (bits.length + f.width) / 8 ≤ initial.length →
      Eval.Ensures mode (enc bw r) fun after ↦ Emitted order initial after (bits ++ f.bits (pack r))

/-- The function reads a record that is there, and returns `unpack` of it. -/
def Decodes (order : BitOrder) (mode : Overshift) (f : FixedFormat α) (unpack : α → ρ)
    (dec : BsReader → Eval (ρ × BsReader)) : Prop :=
  ∀ (br : BsReader) (a : α) (more : List Bool), Delivers order br (f.bits a ++ more) →
    Eval.Ensures mode (dec br) fun read ↦ read.1 = unpack a ∧ Delivers order read.2 more

/-! ### One field -/

/-- A write in front of a field of its width. -/
theorem writeBits_ensures (h : Emitted .msb initial bw bits) (value : BitVec 32) {n : ℕ}
    (hn : n ≤ 32) (hroom : bits.length / 8 ≤ initial.length) :
    Eval.Ensures mode (bsWriteBits bw value n) fun after ↦
      Emitted .msb initial after (bits ++ fieldBits .msb n value.toNat) :=
  (h.write_meetsIf value hn fun _ ↦ hroom).ensures trivial

/-- The low bits of a word that is wider than its field. -/
theorem fieldBits_setWidth (order : BitOrder) {n m : ℕ} (word : BitVec m) (hm : m ≤ 32) :
    fieldBits order n (word.setWidth 32).toNat = wordBits order (word.setWidth n) := by
  have hlt : word.toNat < 2 ^ 32 := word.isLt.trans_le (Nat.pow_le_pow_right (by norm_num) hm)
  rw [wordBits, BitVec.toNat_setWidth, BitVec.toNat_setWidth, Nat.mod_eq_of_lt hlt]
  refine fieldBits_congr order fun i hi ↦ ?_
  rw [Nat.testBit_mod_two_pow, decide_eq_true hi, Bool.true_and]

/-- A read in front of a word of its width. -/
theorem readBits_ensures {n : ℕ} {word : BitVec n}
    (h : Delivers .msb br (wordBits .msb word ++ more)) (hn : n ≤ 32) :
    Eval.Ensures mode (bsReadBits br n) fun read ↦
      read.1 = word.setWidth 32 ∧ Delivers .msb read.2 more := by
  have hread : Eval.Ensures mode (bsReadBits br n) _ := h.read_ensures hn
  have hlength : n ≤ (wordBits .msb word ++ more).length := by
    rw [List.length_append, length_wordBits]
    omega
  rw [wordBits, leadingField_append, ← wordBits, if_pos hlength,
    List.drop_left' (length_wordBits .msb word)] at hread
  refine hread.mono fun read hread ↦ ⟨hread.1.trans (BitVec.eq_of_toNat_eq ?_), hread.2⟩
  rw [BitVec.toNat_ofNat, BitVec.toNat_setWidth, Nat.mod_eq_of_lt word.isLt]

/-! ### Loops -/

/-- The records of a list, and the flush behind them. -/
def writeRecords (order : BitOrder) (enc : BsWriter → ρ → Eval BsWriter) (records : List ρ)
    (out : List (BitVec 8)) : Eval BsWriter := do
  let bw ← records.foldlM enc (bsWriterInit out out.length)
  flush (dump order) (write order) bw

/-- The next `count` records. -/
def readRecords (dec : BsReader → Eval (ρ × BsReader)) : ℕ → BsReader → Eval (List ρ × BsReader)
  | 0, br => pure ([], br)
  | count + 1, br => do
    let first ← dec br
    let later ← readRecords dec count first.2
    pure (first.1 :: later.1, later.2)

/-- The bytes of records, the last one padded. -/
def recordBytes (order : BitOrder) (f : FixedFormat α) (values : List α) : List (BitVec 8) :=
  packWords 8 order (padded 8 (f.layout values))

theorem stream_recordBytes (order : BitOrder) (f : FixedFormat α) (values : List α) :
    stream order (recordBytes order f values) = padded 8 (f.layout values) := by
  have hwhole := Nat.mul_div_cancel' (dvd_length_padded (Nat.succ_pos 7) (f.layout values))
  rw [recordBytes, stream_packWords, hwhole, List.take_length]

theorem length_recordBytes (order : BitOrder) (f : FixedFormat α) (values : List α) :
    (recordBytes order f values).length = (f.width * values.length + 7) / 8 := by
  rw [recordBytes, length_packWords, padded, List.length_append, List.length_replicate,
    f.length_layout]
  unfold padding
  omega

/-- The loop over the records of a list, by induction on the list. -/
theorem Encodes.foldlM_ensures {pack : ρ → α} {enc : BsWriter → ρ → Eval BsWriter}
    (henc : Encodes order mode f pack enc) (records : List ρ) (h : Emitted order initial bw bits)
    (hroom : (bits.length + f.width * records.length) / 8 ≤ initial.length) :
    Eval.Ensures mode (records.foldlM enc bw) fun after ↦
      Emitted order initial after (bits ++ f.layout (records.map pack)) := by
  induction records generalizing bw bits with
  | nil =>
    refine Eval.ensures_pure ?_
    rwa [List.map_nil, FixedFormat.layout, List.flatMap_nil, List.append_nil]
  | cons r records ih =>
    rw [List.length_cons, Nat.mul_succ] at hroom
    rw [List.foldlM_cons]
    refine (henc initial bw bits r h (by omega)).bind fun after hafter ↦ ?_
    have hlater := ih hafter (by
      rw [List.length_append, f.length_bits]
      omega)
    rw [List.append_assoc] at hlater
    exact hlater

/-- Records that fit the buffer leave their bytes. -/
theorem Encodes.writeRecords_ensures {pack : ρ → α} {enc : BsWriter → ρ → Eval BsWriter}
    (henc : Encodes order mode f pack enc) (records : List ρ) (out : List (BitVec 8))
    (hroom : (f.width * records.length + 7) / 8 ≤ out.length) :
    Eval.Ensures mode (writeRecords order enc records out) fun bw ↦
      bw.overflow = false ∧
        bsWriterBytesWritten bw = (recordBytes order f (records.map pack)).length ∧
        bw.buffer = recordBytes order f (records.map pack) ++
          out.drop (recordBytes order f (records.map pack)).length := by
  have hbits := f.length_layout (records.map pack)
  have hbytes := length_recordBytes order f (records.map pack)
  rw [List.length_map] at hbits hbytes
  refine (henc.foldlM_ensures records (emitted_init order out) ?_).bind fun bw hbw ↦ ?_
  · rw [List.length_nil]
    omega
  · rw [List.nil_append] at hbw
    have hflush : MeetsIf True mode (flush (dump order) (write order) bw) _ :=
      hbw.flush_meetsIf fun _ ↦ by omega
    refine (hflush.ensures trivial).mono fun after hafter ↦ ?_
    rw [← stream_recordBytes order] at hafter
    exact hafter.stored (by omega)

/-- The loop that reads records, by induction on the records that are there. -/
theorem Decodes.readRecords_ensures {unpack : α → ρ} {dec : BsReader → Eval (ρ × BsReader)}
    (hdec : Decodes order mode f unpack dec) (values : List α)
    (h : Delivers order br (f.layout values ++ more)) :
    Eval.Ensures mode (readRecords dec values.length br) fun read ↦
      read.1 = values.map unpack ∧ Delivers order read.2 more := by
  induction values generalizing br with
  | nil => exact Eval.ensures_pure ⟨rfl, h⟩
  | cons a values ih =>
    rw [FixedFormat.layout_cons, List.append_assoc] at h
    refine (hdec br a _ h).bind fun first hfirst ↦ ?_
    refine (ih hfirst.2).bind fun later hlater ↦ Eval.ensures_pure ⟨?_, hlater.2⟩
    rw [hfirst.1, hlater.1, List.map_cons]

/-- Any buffer that is long enough is read as the records that it is cut into. -/
theorem Decodes.readRecords_items {unpack : α → ρ} {dec : BsReader → Eval (ρ × BsReader)}
    (hdec : Decodes order mode f unpack dec) {count : ℕ}
    (hdata : f.width * count ≤ 8 * data.length) :
    Eval.Ensures mode (readRecords dec count (bsReaderInit data data.length)) fun read ↦
      read.1 = (f.items count (stream order data)).map unpack := by
  have hlength : f.width * count ≤ (stream order data).length := by rwa [length_stream]
  have hdelivers := delivers_init order data
  rw [← List.take_append_drop (f.width * count) (stream order data), ← f.layout_items hlength]
    at hdelivers
  have hread := hdec.readRecords_ensures _ hdelivers
  rw [f.length_items] at hread
  exact hread.mono fun _ h ↦ h.1

/-- The first `count` records of a buffer, encoded again. -/
def reencodeRecords (order : BitOrder) (enc : BsWriter → ρ → Eval BsWriter)
    (dec : BsReader → Eval (ρ × BsReader)) (count : ℕ) (data out : List (BitVec 8)) :
    Eval BsWriter := do
  let read ← readRecords dec count (bsReaderInit data data.length)
  writeRecords order enc read.1 out

theorem reencodeRecords_ensures {pack : ρ → α} {unpack : α → ρ}
    {enc : BsWriter → ρ → Eval BsWriter} {dec : BsReader → Eval (ρ × BsReader)}
    (henc : Encodes order mode f pack enc) (hdec : Decodes order mode f unpack dec)
    (hinverse : ∀ a, pack (unpack a) = a) {count : ℕ} {out : List (BitVec 8)}
    (hdata : f.width * count ≤ 8 * data.length)
    (hroom : (f.width * count + 7) / 8 ≤ out.length) :
    Eval.Ensures mode (reencodeRecords order enc dec count data out) fun bw ↦
      bw.overflow = false ∧ writtenBytes bw = keptBytes order (f.width * count) data := by
  have hpacked : ((f.items count (stream order data)).map unpack).map pack =
      f.items count (stream order data) := by
    rw [List.map_map]
    exact (List.map_congr_left fun a _ ↦ hinverse a).trans (List.map_id _)
  have hbytes : recordBytes order f (f.items count (stream order data)) =
      keptBytes order (f.width * count) data := by
    apply stream_injective order (Nat.succ_pos 7)
    rw [stream_recordBytes, f.layout_items (by rwa [length_stream]), stream_keptBytes order hdata]
  refine (hdec.readRecords_items hdata).bind fun read hread ↦ ?_
  have hwrite := henc.writeRecords_ensures read.1 out (by
    rwa [hread, List.length_map, f.length_items])
  rw [hread, hpacked, hbytes] at hwrite
  rw [hread]
  refine hwrite.mono fun bw hbw ↦ ⟨hbw.1, ?_⟩
  rw [writtenBytes, hbw.2.1, hbw.2.2, List.take_left' rfl]

end Bitstream.Format
