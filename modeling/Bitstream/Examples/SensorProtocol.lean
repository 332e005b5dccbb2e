import Bitstream.Format.Records
import Bitstream.Writing.AppendOnly

/-!
# The program `sensor_protocol.c`

Readings of sensors, each in 23 bits. A `SensorReading` is what the program keeps in the types of
C, a `Packet` what it sends: the fields of a reading that are wider than those of the packet are
cut. A reading whose fields fit those of a packet comes back as it was (`sent_eq_iff`), so that the
program, which sends some readings and compares what it receives, stops at the first that does not
fit (`main_stops_at_first_mismatch`); on a wire that is too short it still keeps inside its arrays
(`main_stays_in_wire`). In the other direction nothing is lost: any bytes decode to readings that
fit a packet, and the readings are encoded to the same bytes (`reencoded_readings`).

The conversion of a temperature into its raw value is done in floating point; readings are given
with the raw value here. What is printed besides the readings is left out.
-/

set_option autoImplicit false
set_option relaxedAutoImplicit false

namespace Bitstream.Examples.SensorProtocol

open Foundation Header Reading Writing Format

/-! ### The format -/

/-- The type `sensor_reading_t`. -/
structure SensorReading where
  deviceId : BitVec 8
  batteryLow : Bool
  tempRaw : BitVec 16
  humidity : BitVec 8
  alert : Bool
  deriving DecidableEq

/-- What is sent of a reading. -/
structure Packet where
  deviceId : BitVec 4
  batteryLow : Bool
  tempRaw : BitVec 10
  humidity : BitVec 7
  alert : Bool

namespace Packet

/-- The fields of a packet in the order in which they are sent. -/
def fields : Packet ≃ BitVec 4 × Bool × BitVec 10 × BitVec 7 × Bool where
  toFun := fun p ↦ (p.deviceId, p.batteryLow, p.tempRaw, p.humidity, p.alert)
  invFun := fun t ↦ ⟨t.1, t.2.1, t.2.2.1, t.2.2.2.1, t.2.2.2.2⟩
  left_inv := fun _ ↦ rfl
  right_inv := fun _ ↦ rfl

def format : FixedFormat Packet :=
  ((FixedFormat.word .msb 4).pair (FixedFormat.flag.pair ((FixedFormat.word .msb 10).pair
    ((FixedFormat.word .msb 7).pair FixedFormat.flag)))).ofEquiv fields

theorem width_format : format.width = 23 := rfl

theorem bits_format (p : Packet) :
    format.bits p = wordBits .msb p.deviceId ++ (wordBits .msb (BitVec.ofBool p.batteryLow) ++
      (wordBits .msb p.tempRaw ++ (wordBits .msb p.humidity ++
        wordBits .msb (BitVec.ofBool p.alert)))) := by
  have hflag (b : Bool) : wordBits .msb (BitVec.ofBool b) = [b] := by
    cases b <;> rfl
  rw [hflag, hflag]
  rfl

/-- A packet as the receiver keeps it. -/
def reading (p : Packet) : SensorReading where
  deviceId := p.deviceId.setWidth 8
  batteryLow := p.batteryLow
  tempRaw := p.tempRaw.setWidth 16
  humidity := p.humidity.setWidth 8
  alert := p.alert

end Packet

namespace SensorReading

def packet (r : SensorReading) : Packet where
  deviceId := r.deviceId.setWidth 4
  batteryLow := r.batteryLow
  tempRaw := r.tempRaw.setWidth 10
  humidity := r.humidity.setWidth 7
  alert := r.alert

/-- The fields of the reading fit those of a packet. This is less than what the source says of them:
a humidity of 101 to 127 % fits the seven bits for it, too. -/
def FitsPacket (r : SensorReading) : Prop :=
  r.deviceId.toNat < 2 ^ 4 ∧ r.tempRaw.toNat < 2 ^ 10 ∧ r.humidity.toNat < 2 ^ 7

instance (r : SensorReading) : Decidable r.FitsPacket := inferInstanceAs (Decidable (_ ∧ _ ∧ _))

/-- What the receiver of a reading keeps of it. -/
def sent (r : SensorReading) : SensorReading := r.packet.reading

end SensorReading

theorem Packet.packet_reading (p : Packet) : p.reading.packet = p := by
  have hkept {n m : ℕ} (x : BitVec n) (h : n ≤ m) : (x.setWidth m).setWidth n = x := by
    rw [BitVec.setWidth_setWidth_of_le x h, BitVec.setWidth_eq]
  show Packet.mk _ _ _ _ _ = p
  rw [Packet.reading, hkept _ (by norm_num), hkept _ (by norm_num), hkept _ (by norm_num)]

theorem setWidth_setWidth_eq_iff {n m : ℕ} (h : n ≤ m) (x : BitVec m) :
    (x.setWidth n).setWidth m = x ↔ x.toNat < 2 ^ n := by
  have hpow : 2 ^ n ≤ 2 ^ m := Nat.pow_le_pow_right (by norm_num) h
  have hmod := Nat.mod_lt x.toNat (Nat.two_pow_pos n)
  rw [← BitVec.toNat_inj, BitVec.toNat_setWidth, BitVec.toNat_setWidth,
    Nat.mod_eq_of_lt (by omega : x.toNat % 2 ^ n < 2 ^ m)]
  exact ⟨fun heq ↦ heq ▸ hmod, Nat.mod_eq_of_lt⟩

namespace SensorReading

/-- Exactly the readings that fit a packet come back as they were. -/
theorem sent_eq_iff (r : SensorReading) : r.sent = r ↔ r.FitsPacket := by
  obtain ⟨deviceId, batteryLow, tempRaw, humidity, alert⟩ := r
  simp only [sent, packet, Packet.reading, FitsPacket, mk.injEq, true_and, and_true,
    setWidth_setWidth_eq_iff (by norm_num : 4 ≤ 8),
    setWidth_setWidth_eq_iff (by norm_num : 10 ≤ 16),
    setWidth_setWidth_eq_iff (by norm_num : 7 ≤ 8)]

theorem fitsPacket_reading (p : Packet) : p.reading.FitsPacket := by
  rw [← sent_eq_iff, sent, p.packet_reading]

end SensorReading

/-! ### The functions -/

/-- A `bool` as an argument of an integer type. -/
def flagWord (b : Bool) : BitVec 32 := if b then 1 else 0

def encodeReading (bw : BsWriter) (r : SensorReading) : Eval BsWriter := do
  let bw ← bsWriteBits bw (r.deviceId.setWidth 32) 4
  let bw ← bsWriteBits bw (flagWord r.batteryLow) 1
  let bw ← bsWriteBits bw (r.tempRaw.setWidth 32) 10
  let bw ← bsWriteBits bw (r.humidity.setWidth 32) 7
  bsWriteBits bw (flagWord r.alert) 1

def decodeReading (br : BsReader) : Eval (SensorReading × BsReader) := do
  let deviceId ← bsReadBits br 4
  let batteryLow ← bsReadBits deviceId.2 1
  let tempRaw ← bsReadBits batteryLow.2 10
  let humidity ← bsReadBits tempRaw.2 7
  let alert ← bsReadBits humidity.2 1
  pure (⟨deviceId.1.setWidth 8, batteryLow.1 ≠ 0, tempRaw.1.setWidth 16, humidity.1.setWidth 8,
    alert.1 ≠ 0⟩, alert.2)

/-- The comparison of a decoded reading with the one that was sent. -/
def Mismatch (r reading : SensorReading) : Prop :=
  r.deviceId ≠ reading.deviceId ∨ r.batteryLow ≠ reading.batteryLow ∨
    r.tempRaw ≠ reading.tempRaw ∨ r.humidity ≠ reading.humidity ∨ r.alert ≠ reading.alert

instance (r reading : SensorReading) : Decidable (Mismatch r reading) :=
  inferInstanceAs (Decidable (_ ∨ _ ∨ _ ∨ _ ∨ _))

/-- The loop that decodes, prints and compares. The result is the exit code and the readings
printed. -/
def checkReadings (br : BsReader) : List SensorReading → Eval (ℕ × List SensorReading)
  | [] => pure (0, [])
  | reading :: readings => do
    let r ← decodeReading br
    if Mismatch r.1 reading then pure (1, [r.1])
    else do
      let later ← checkReadings r.2 readings
      pure (later.1, r.1 :: later.2)

/-- What a run of the program shows. -/
structure Run where
  exitCode : ℕ
  bytesOnWire : ℕ
  printed : List SensorReading
  deriving DecidableEq

/-- The program with the arrays `readings` and `wire`. -/
def main (readings : List SensorReading) (wire : List (BitVec 8)) : Eval Run := do
  let bw ← readings.foldlM encodeReading (bsWriterInit wire wire.length)
  let bw ← bsWriterFlush bw
  let bytesOnWire := bsWriterBytesWritten bw
  let check ← checkReadings (bsReaderInit (bw.buffer.take bytesOnWire) bytesOnWire) readings
  pure ⟨check.1, bytesOnWire, check.2⟩

/-! ### One reading -/

section OneReading

variable {mode : Overshift}

theorem fieldBits_flagWord (b : Bool) :
    fieldBits .msb 1 (flagWord b).toNat = wordBits .msb (BitVec.ofBool b) := by
  cases b <;> rfl

theorem flagWord_eq_setWidth (b : Bool) : (BitVec.ofBool b).setWidth 32 = flagWord b := by
  cases b <;> rfl

theorem decide_flagWord_ne_zero (b : Bool) : decide (flagWord b ≠ 0) = b := by
  cases b <;> decide

/-- The encoder writes the packet of a reading. -/
theorem encodeReading_encodes (mode : Overshift) :
    Encodes .msb mode Packet.format SensorReading.packet encodeReading := by
  intro initial bw bits r h hroom
  rw [Packet.width_format] at hroom
  refine (writeBits_ensures h _ (by norm_num) (by omega)).bind fun bw h ↦ ?_
  refine (writeBits_ensures h _ (by norm_num) ?_).bind fun bw h ↦ ?_
  · rw [List.length_append, length_fieldBits]
    omega
  refine (writeBits_ensures h _ (by norm_num) ?_).bind fun bw h ↦ ?_
  · simp only [List.length_append, length_fieldBits]
    omega
  refine (writeBits_ensures h _ (by norm_num) ?_).bind fun bw h ↦ ?_
  · simp only [List.length_append, length_fieldBits]
    omega
  refine (writeBits_ensures h _ (by norm_num) ?_).mono fun after hafter ↦ ?_
  · simp only [List.length_append, length_fieldBits]
    omega
  rw [fieldBits_setWidth .msb r.deviceId (by norm_num), fieldBits_flagWord,
    fieldBits_setWidth .msb r.tempRaw (by norm_num),
    fieldBits_setWidth .msb r.humidity (by norm_num), fieldBits_flagWord] at hafter
  rw [Packet.bits_format]
  simp only [List.append_assoc] at hafter
  exact hafter

/-- The decoder reads a packet. -/
theorem decodeReading_decodes (mode : Overshift) :
    Decodes .msb mode Packet.format Packet.reading decodeReading := by
  intro br p more h
  rw [Packet.bits_format] at h
  simp only [List.append_assoc] at h
  refine (readBits_ensures h (by norm_num)).bind ?_
  rintro deviceId ⟨hdeviceId, h⟩
  refine (readBits_ensures h (by norm_num)).bind ?_
  rintro batteryLow ⟨hbatteryLow, h⟩
  refine (readBits_ensures h (by norm_num)).bind ?_
  rintro tempRaw ⟨htempRaw, h⟩
  refine (readBits_ensures h (by norm_num)).bind ?_
  rintro humidity ⟨hhumidity, h⟩
  refine (readBits_ensures h (by norm_num)).bind ?_
  rintro alert ⟨halert, h⟩
  refine Eval.ensures_pure ⟨?_, h⟩
  rw [hdeviceId, hbatteryLow, htempRaw, hhumidity, halert, flagWord_eq_setWidth,
    flagWord_eq_setWidth, decide_flagWord_ne_zero, decide_flagWord_ne_zero,
    BitVec.setWidth_setWidth_of_le _ (by norm_num : 8 ≤ 32),
    BitVec.setWidth_setWidth_of_le _ (by norm_num : 16 ≤ 32),
    BitVec.setWidth_setWidth_of_le _ (by norm_num : 8 ≤ 32)]
  rfl

end OneReading

/-! ### The program -/

theorem mismatch_iff (r reading : SensorReading) : Mismatch r reading ↔ r ≠ reading := by
  obtain ⟨deviceId, batteryLow, tempRaw, humidity, alert⟩ := r
  obtain ⟨deviceId', batteryLow', tempRaw', humidity', alert'⟩ := reading
  simp only [Mismatch, ne_eq, SensorReading.mk.injEq, not_and_or]

/-- The readings that are printed: those received, up to the first that does not fit a packet. -/
def printed (readings : List SensorReading) : List SensorReading :=
  (readings.map SensorReading.sent).take ((readings.takeWhile (·.FitsPacket)).length + 1)

/-- The exit code: whether all readings fit a packet. -/
def verdict (readings : List SensorReading) : ℕ := if ∀ r ∈ readings, r.FitsPacket then 0 else 1

/-- The loop over the received readings, by induction on those that were sent. -/
theorem checkReadings_ensures (mode : Overshift) (readings : List SensorReading) {br : BsReader}
    {more : List Bool}
    (h : Delivers .msb br (Packet.format.layout (readings.map SensorReading.packet) ++ more)) :
    Eval.Ensures mode (checkReadings br readings) fun check ↦
      check = (verdict readings, printed readings) := by
  induction readings generalizing br with
  | nil => exact Eval.ensures_pure rfl
  | cons reading readings ih =>
    rw [List.map_cons, FixedFormat.layout_cons, List.append_assoc] at h
    refine (decodeReading_decodes mode br _ _ h).bind ?_
    rintro r ⟨hr, h⟩
    have hsent : r.1 = reading.sent := hr
    have hmismatch : Mismatch r.1 reading ↔ ¬ reading.FitsPacket := by
      rw [hsent, mismatch_iff, ne_eq, SensorReading.sent_eq_iff]
    by_cases hrange : reading.FitsPacket
    · rw [if_neg (mt hmismatch.mp (not_not_intro hrange))]
      refine (ih h).bind_eq (Eval.ensures_pure (Prod.ext ?_ ?_))
      · simp only [verdict, List.forall_mem_cons, hrange, true_and]
      · simp only [printed, hsent, List.map_cons, List.takeWhile_cons, hrange, decide_true, if_true,
          List.length_cons, List.take_succ_cons]
    · rw [if_pos (hmismatch.mpr hrange)]
      refine Eval.ensures_pure (Prod.ext ?_ ?_)
      · simp only [verdict, List.forall_mem_cons, hrange, false_and, if_false]
      · simp only [printed, hsent, List.map_cons, List.takeWhile_cons, hrange, decide_false,
          Bool.false_eq_true, if_false, List.length_nil, List.take_succ_cons, List.take_zero]

/-- The program for any readings: it stops at the first that does not fit a packet. Assumes: a wire
that all of them fit. -/
theorem main_stops_at_first_mismatch (mode : Overshift) (readings : List SensorReading)
    (wire : List (BitVec 8)) (hwire : (23 * readings.length + 7) / 8 ≤ wire.length) :
    Eval.Ensures mode (main readings wire) fun run ↦
      run = ⟨verdict readings, (23 * readings.length + 7) / 8, printed readings⟩ := by
  have hwrite : Eval.Ensures mode (writeRecords .msb encodeReading readings wire) _ :=
    (encodeReading_encodes mode).writeRecords_ensures readings wire hwire
  have hlength := length_recordBytes .msb Packet.format (readings.map SensorReading.packet)
  have hstream := stream_recordBytes .msb Packet.format (readings.map SensorReading.packet)
  rw [List.length_map, Packet.width_format] at hlength
  have hmain : main readings wire = (do
      let bw ← writeRecords .msb encodeReading readings wire
      let bytesOnWire := bsWriterBytesWritten bw
      let check ← checkReadings (bsReaderInit (bw.buffer.take bytesOnWire) bytesOnWire) readings
      pure ⟨check.1, bytesOnWire, check.2⟩) := (Eval.bind_assoc _ _ _).symm
  rw [hmain]
  refine hwrite.bind ?_
  rintro bw ⟨_, hcount, hbuffer⟩
  have hdelivers := delivers_init .msb
    (recordBytes .msb Packet.format (readings.map SensorReading.packet))
  rw [hstream] at hdelivers
  have hcheck := checkReadings_ensures mode readings hdelivers
  simp only [hcount, hbuffer, List.take_left' rfl]
  refine hcheck.bind_eq (Eval.ensures_pure ?_)
  rw [hlength]

/-- A humidity above 127 in the second of two readings. -/
theorem main_stops_at_first_mismatch_humidity :
    Eval.Ensures .masked
      (main [⟨1, false, 625, 45, false⟩, ⟨2, true, 297, 200, true⟩] (List.replicate 32 0))
      fun run ↦ run = ⟨1, 6, [⟨1, false, 625, 45, false⟩, ⟨2, true, 297, 72, true⟩]⟩ :=
  main_stops_at_first_mismatch .masked
    [⟨1, false, 625, 45, false⟩, ⟨2, true, 297, 200, true⟩] (List.replicate 32 0) (by decide)

/-! ### Any wire -/

/-- Whatever is left to read, the decoder returns a reading that fits a packet. -/
theorem decodeReading_fitsPacket {mode : Overshift} {br : BsReader} {bits : List Bool}
    (h : Delivers .msb br bits) :
    Eval.Ensures mode (decodeReading br) fun read ↦
      read.1.FitsPacket ∧ ∃ rest, Delivers .msb read.2 rest := by
  have hread {n : ℕ} (hn : n ≤ 32) {br : BsReader} {bits : List Bool} (h : Delivers .msb br bits) :
      Eval.Ensures mode (bsReadBits br n) fun read ↦
        read.1.toNat < 2 ^ n ∧ ∃ rest, Delivers .msb read.2 rest := by
    have htake : Eval.Ensures mode (bsReadBits br n) _ := h.read_ensures hn
    exact htake.mono fun read ⟨hvalue, hrest⟩ ↦ ⟨hvalue ▸ leadingField_lt .msb hn bits, _, hrest⟩
  refine (hread (by norm_num) h).bind ?_
  rintro deviceId ⟨hdeviceId, _, h⟩
  refine (hread (by norm_num) h).bind ?_
  rintro batteryLow ⟨_, _, h⟩
  refine (hread (by norm_num) h).bind ?_
  rintro tempRaw ⟨htempRaw, _, h⟩
  refine (hread (by norm_num) h).bind ?_
  rintro humidity ⟨hhumidity, _, h⟩
  refine (hread (by norm_num) h).bind ?_
  rintro alert ⟨_, hrest⟩
  refine Eval.ensures_pure ⟨⟨?_, ?_, ?_⟩, hrest⟩
  all_goals
    rw [BitVec.toNat_setWidth]
    exact (Nat.mod_le _ _).trans_lt ‹_›

theorem checkReadings_fitsPacket {mode : Overshift} (readings : List SensorReading) {br : BsReader}
    {bits : List Bool} (h : Delivers .msb br bits) :
    Eval.Ensures mode (checkReadings br readings) fun check ↦
      (∀ r ∈ check.2, r.FitsPacket) ∧ (check.1 = 0 → check.2 = readings) := by
  induction readings generalizing br bits with
  | nil => exact Eval.ensures_pure ⟨nofun, fun _ ↦ rfl⟩
  | cons reading readings ih =>
    refine (decodeReading_fitsPacket h).bind ?_
    rintro r ⟨hrange, rest, hrest⟩
    by_cases hmismatch : Mismatch r.1 reading
    · rw [if_pos hmismatch]
      exact Eval.ensures_pure ⟨List.forall_mem_singleton.mpr hrange, fun h ↦ absurd h one_ne_zero⟩
    · rw [if_neg hmismatch]
      refine (ih hrest).bind ?_
      rintro later ⟨hall, hsame⟩
      refine Eval.ensures_pure ⟨List.forall_mem_cons.mpr ⟨hrange, hall⟩, fun hzero ↦ ?_⟩
      rw [not_not.mp (mt (mismatch_iff _ _).mpr hmismatch), hsame hzero]

/-- The loop that encodes stays in its buffer, by induction on the readings. -/
theorem encodeReadings_appending {mode : Overshift} (readings : List SensorReading) {bw : BsWriter}
    (h : Fits bw) : Appending mode bw (readings.foldlM encodeReading bw) := by
  induction readings generalizing bw with
  | nil => exact appending_pure h
  | cons r readings ih =>
    rw [List.foldlM_cons]
    refine Appending.bind ?_ fun after hafter ↦ ih hafter
    refine Appending.bind (write_appending .msb h _ 4) fun bw h ↦ ?_
    refine Appending.bind (write_appending .msb h _ 1) fun bw h ↦ ?_
    refine Appending.bind (write_appending .msb h _ 10) fun bw h ↦ ?_
    refine Appending.bind (write_appending .msb h _ 7) fun bw h ↦ ?_
    exact write_appending .msb h _ 1

/-- The program on a wire of any size, also one that the readings do not fit: every access stays in
its array, only readings that fit a packet are printed, and the exit code is 0 only if they are
those that were to be sent. -/
theorem main_stays_in_wire (mode : Overshift) (readings : List SensorReading)
    (wire : List (BitVec 8)) :
    (main readings wire).Meets Obligation.InBounds mode fun run ↦
      run.bytesOnWire ≤ wire.length ∧ (∀ r ∈ run.printed, r.FitsPacket) ∧
        (run.exitCode = 0 → run.printed = readings) := by
  have hinit : Fits (bsWriterInit wire wire.length) := ⟨rfl, Nat.zero_le _⟩
  have hwrite : Appending mode (bsWriterInit wire wire.length)
      (readings.foldlM encodeReading (bsWriterInit wire wire.length) >>= bsWriterFlush) :=
    (encodeReadings_appending readings hinit).bind fun bw hbw ↦ flush_appending .msb hbw
  rw [main, ← Eval.bind_assoc]
  refine Eval.Meets.bind hwrite ?_
  rintro bw ⟨hfits, happends⟩
  have hcount : bsWriterBytesWritten bw ≤ wire.length :=
    hfits.bytePos_le.trans happends.size_eq.le
  have hlength : (bw.buffer.take (bsWriterBytesWritten bw)).length = bsWriterBytesWritten bw := by
    have hbuffer : bw.buffer.length = wire.length := happends.length_eq
    rw [List.length_take, hbuffer, Nat.min_eq_left hcount]
  have hdelivers := delivers_init .msb (bw.buffer.take (bsWriterBytesWritten bw))
  rw [hlength] at hdelivers
  have hcheck : Eval.Ensures mode _ _ := checkReadings_fitsPacket readings hdelivers
  refine (hcheck.meets fun _ ho ↦ ho.inBounds).bind ?_
  rintro check ⟨hrange, hsame⟩
  exact Eval.meets_pure ⟨hcount, hrange, hsame⟩

/-! ### Decoding and encoding again -/

/-- Any bytes decode to readings that fit a packet, and these are encoded to the same bytes, with
the padding of the last byte cleared. Assumes: bytes enough for the readings, and room for them. -/
theorem reencoded_readings (mode : Overshift) {count : ℕ} {data out : List (BitVec 8)}
    (hdata : 23 * count ≤ 8 * data.length) (hout : (23 * count + 7) / 8 ≤ out.length) :
    Eval.Ensures mode (readRecords decodeReading count (bsReaderInit data data.length))
        (fun read ↦ read.1.length = count ∧ ∀ r ∈ read.1, r.FitsPacket) ∧
      Eval.Ensures mode (reencodeRecords .msb encodeReading decodeReading count data out)
        fun bw ↦ bw.overflow = false ∧ writtenBytes bw = keptBytes .msb (23 * count) data := by
  have hdec := decodeReading_decodes mode
  refine ⟨(hdec.readRecords_items hdata).mono fun read hread ↦ ?_,
    reencodeRecords_ensures (encodeReading_encodes mode) hdec Packet.packet_reading hdata hout⟩
  rw [hread, List.length_map, FixedFormat.length_items]
  refine ⟨rfl, fun r hr ↦ ?_⟩
  obtain ⟨p, _, rfl⟩ := List.mem_map.mp hr
  exact SensorReading.fitsPacket_reading p

/-- Two readings in front of two bits of padding and another byte. -/
theorem reencoded_readings_six_bytes :
    Eval.Ensures .masked
        (readRecords decodeReading 2
          (bsReaderInit [0x12, 0x71, 0x68, 0x51, 0x4B, 0x2F, 0x55] 7))
        (fun read ↦ read.1.length = 2 ∧ ∀ r ∈ read.1, r.FitsPacket) ∧
      Eval.Ensures .masked
        (reencodeRecords .msb encodeReading decodeReading 2
          [0x12, 0x71, 0x68, 0x51, 0x4B, 0x2F, 0x55] (List.replicate 6 0))
        fun bw ↦ bw.overflow = false ∧
          writtenBytes bw = [0x12, 0x71, 0x68, 0x51, 0x4B, 0x2C] :=
  reencoded_readings .masked (by decide) (by decide)

end Bitstream.Examples.SensorProtocol
