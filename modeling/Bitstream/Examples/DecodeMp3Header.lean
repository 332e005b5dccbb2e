import Bitstream.Format.Records
import Mathlib.Data.List.Nodup

/-!
# The program `decode_mp3_header.c`

The header of an MP3 frame is 32 bits in 13 fields. Every four bytes are one header
(`existsUnique_begins`), and the program prints a report on it if its synchronization word is right
(`main_reports_header`): no index leaves its table, and no bit is left of four bytes. The report
tells every field, except that it shows the reserved version and the reserved layer as others
(`same_report_iff`).
-/

set_option autoImplicit false
set_option relaxedAutoImplicit false

namespace Bitstream.Examples.DecodeMp3Header

open Foundation Header Reading Format

/-! ### The format -/

/-- The header of a frame. -/
structure FrameHeader where
  sync : BitVec 11
  version : BitVec 2
  layer : BitVec 2
  protection : BitVec 1
  bitrateIdx : BitVec 4
  srateIdx : BitVec 2
  padding : BitVec 1
  privateBit : BitVec 1
  channel : BitVec 2
  modeExt : BitVec 2
  copyright : BitVec 1
  original : BitVec 1
  emphasis : BitVec 2
  deriving DecidableEq

namespace FrameHeader

/-- The fields in the order in which they stand in the header. -/
def fields : FrameHeader ≃ BitVec 11 × BitVec 2 × BitVec 2 × BitVec 1 × BitVec 4 × BitVec 2 ×
    BitVec 1 × BitVec 1 × BitVec 2 × BitVec 2 × BitVec 1 × BitVec 1 × BitVec 2 where
  toFun := fun h ↦ (h.sync, h.version, h.layer, h.protection, h.bitrateIdx, h.srateIdx, h.padding,
    h.privateBit, h.channel, h.modeExt, h.copyright, h.original, h.emphasis)
  invFun := fun ⟨sync, version, layer, protection, bitrateIdx, srateIdx, padding, privateBit,
      channel, modeExt, copyright, original, emphasis⟩ ↦
    ⟨sync, version, layer, protection, bitrateIdx, srateIdx, padding, privateBit, channel, modeExt,
      copyright, original, emphasis⟩
  left_inv := fun _ ↦ rfl
  right_inv := fun _ ↦ rfl

def format : FixedFormat FrameHeader :=
  have word := FixedFormat.word .msb
  ((word 11).pair ((word 2).pair ((word 2).pair ((word 1).pair ((word 4).pair ((word 2).pair
    ((word 1).pair ((word 1).pair ((word 2).pair ((word 2).pair ((word 1).pair ((word 1).pair
      (word 2))))))))))))).ofEquiv fields

theorem bits_format (h : FrameHeader) :
    format.bits h = wordBits .msb h.sync ++ (wordBits .msb h.version ++ (wordBits .msb h.layer ++
      (wordBits .msb h.protection ++ (wordBits .msb h.bitrateIdx ++ (wordBits .msb h.srateIdx ++
        (wordBits .msb h.padding ++ (wordBits .msb h.privateBit ++ (wordBits .msb h.channel ++
          (wordBits .msb h.modeExt ++ (wordBits .msb h.copyright ++ (wordBits .msb h.original ++
            wordBits .msb h.emphasis))))))))))) :=
  rfl

/-- The input begins with the header. -/
def Begins (h : FrameHeader) (input : List (BitVec 8)) : Prop :=
  ∃ more, stream .msb input = format.bits h ++ more

/-- Four bytes are one header. -/
theorem existsUnique_begins {input : List (BitVec 8)} (hinput : 4 ≤ input.length) :
    ∃! h : FrameHeader, h.Begins input := by
  have hlength : format.width ≤ (stream .msb input).length := by
    rw [length_stream]
    show 32 ≤ 8 * input.length
    omega
  obtain ⟨h, more, hbits⟩ := format.exists_bits hlength
  refine ⟨h, ⟨more, hbits⟩, fun other ⟨rest, hother⟩ ↦ ?_⟩
  exact format.bits_append_inj (hother.symm.trans hbits)

end FrameHeader

/-! ### The functions -/

def bitrateTable : List ℤ :=
  [0, 32, 40, 48, 56, 64, 80, 96, 112, 128, 160, 192, 224, 256, 320, -1]

def samplerateTable : List ℤ := [44100, 48000, 32000, -1]

def channelModes : List String := ["Stereo", "Joint Stereo", "Dual Channel", "Mono"]

def emphasisModes : List String := ["None", "50/15 ms", "reserved", "CCIT J.17"]

/-- The fields as the program reads them. -/
structure Fields where
  sync : BitVec 32
  version : BitVec 32
  layer : BitVec 32
  protection : BitVec 32
  bitrateIdx : BitVec 32
  srateIdx : BitVec 32
  padding : BitVec 32
  privateBit : BitVec 32
  channel : BitVec 32
  modeExt : BitVec 32
  copyright : BitVec 32
  original : BitVec 32
  emphasis : BitVec 32

/-- Each field in order. -/
def parseFields (bs : BsReader) : Eval (Fields × BsReader) := do
  let sync ← bsReadBits bs 11
  let version ← bsReadBits sync.2 2
  let layer ← bsReadBits version.2 2
  let protection ← bsReadBits layer.2 1
  let bitrateIdx ← bsReadBits protection.2 4
  let srateIdx ← bsReadBits bitrateIdx.2 2
  let padding ← bsReadBits srateIdx.2 1
  let privateBit ← bsReadBits padding.2 1
  let channel ← bsReadBits privateBit.2 2
  let modeExt ← bsReadBits channel.2 2
  let copyright ← bsReadBits modeExt.2 1
  let original ← bsReadBits copyright.2 1
  let emphasis ← bsReadBits original.2 2
  pure (⟨sync.1, version.1, layer.1, protection.1, bitrateIdx.1, srateIdx.1, padding.1,
    privateBit.1, channel.1, modeExt.1, copyright.1, original.1, emphasis.1⟩, emphasis.2)

/-- The words and numbers that are printed behind the raw bytes. -/
structure Report where
  version : String
  layer : String
  crcProtected : String
  bitrate : ℤ
  sampleRate : ℤ
  padding : String
  privateBit : BitVec 32
  channelMode : String
  modeExtension : BitVec 32
  copyright : String
  original : String
  emphasis : String
  bitsRemaining : ℕ
  deriving DecidableEq

def yesNo (field : BitVec 32) : String := if field ≠ 0 then "Yes" else "No"

def versionName (version : BitVec 32) : String :=
  if version = 3 then "MPEG1" else if version = 2 then "MPEG2" else "MPEG2.5"

def layerName (layer : BitVec 32) : String :=
  if layer = 1 then "Layer III" else if layer = 2 then "Layer II" else "Layer I"

def describe (sizeT : SizeT) (fields : Fields) (bs : BsReader) : Eval Report := do
  let bitrate ← Eval.load bitrateTable bitrateTable.length fields.bitrateIdx.toNat
  let sampleRate ← Eval.load samplerateTable samplerateTable.length fields.srateIdx.toNat
  let channelMode ← Eval.load channelModes channelModes.length fields.channel.toNat
  let emphasis ← Eval.load emphasisModes emphasisModes.length fields.emphasis.toNat
  pure
    { version := versionName fields.version
      layer := layerName fields.layer
      crcProtected := if fields.protection ≠ 0 then "No" else "Yes"
      bitrate := bitrate
      sampleRate := sampleRate
      padding := yesNo fields.padding
      privateBit := fields.privateBit
      channelMode := channelMode
      modeExtension := fields.modeExt
      copyright := yesNo fields.copyright
      original := yesNo fields.original
      emphasis := emphasis
      bitsRemaining := bsReaderBitsLeft sizeT bs }

/-- What the program prints. -/
inductive Output
  | invalidSync (sync : BitVec 32)
  | header (raw : List (BitVec 8)) (report : Report)
  deriving DecidableEq

/-- The exit code and the output, with the array `rawHeader`. -/
def main (sizeT : SizeT) (rawHeader : List (BitVec 8)) : Eval (ℕ × Output) := do
  let read ← parseFields (bsReaderInit rawHeader rawHeader.length)
  if read.1.sync ≠ 0x7FF then pure (1, .invalidSync read.1.sync)
  else do
    let byte0 ← Eval.load rawHeader rawHeader.length 0
    let byte1 ← Eval.load rawHeader rawHeader.length 1
    let byte2 ← Eval.load rawHeader rawHeader.length 2
    let byte3 ← Eval.load rawHeader rawHeader.length 3
    let report ← describe sizeT read.1 read.2
    pure (0, .header [byte0, byte1, byte2, byte3] report)

/-! ### Parsing -/

namespace FrameHeader

/-- A header as the program reads it. -/
def parsed (h : FrameHeader) : Fields where
  sync := h.sync.setWidth 32
  version := h.version.setWidth 32
  layer := h.layer.setWidth 32
  protection := h.protection.setWidth 32
  bitrateIdx := h.bitrateIdx.setWidth 32
  srateIdx := h.srateIdx.setWidth 32
  padding := h.padding.setWidth 32
  privateBit := h.privateBit.setWidth 32
  channel := h.channel.setWidth 32
  modeExt := h.modeExt.setWidth 32
  copyright := h.copyright.setWidth 32
  original := h.original.setWidth 32
  emphasis := h.emphasis.setWidth 32

/-- The report on a header in front of `left` bits. -/
def report (h : FrameHeader) (left : ℕ) : Report where
  version := versionName (h.version.setWidth 32)
  layer := layerName (h.layer.setWidth 32)
  crcProtected := if h.protection.setWidth 32 ≠ (0 : BitVec 32) then "No" else "Yes"
  bitrate := bitrateTable.getD h.bitrateIdx.toNat default
  sampleRate := samplerateTable.getD h.srateIdx.toNat default
  padding := yesNo (h.padding.setWidth 32)
  privateBit := h.privateBit.setWidth 32
  channelMode := channelModes.getD h.channel.toNat default
  modeExtension := h.modeExt.setWidth 32
  copyright := yesNo (h.copyright.setWidth 32)
  original := yesNo (h.original.setWidth 32)
  emphasis := emphasisModes.getD h.emphasis.toNat default
  bitsRemaining := left

end FrameHeader

section Parsing

variable {mode : Overshift} {bs : BsReader} {more : List Bool}

theorem parseFields_ensures (h : FrameHeader)
    (hbs : Delivers .msb bs (FrameHeader.format.bits h ++ more)) :
    Eval.Ensures mode (parseFields bs) fun read ↦
      read.1 = h.parsed ∧ Delivers .msb read.2 more := by
  rw [FrameHeader.bits_format] at hbs
  simp only [List.append_assoc] at hbs
  refine (readBits_ensures hbs (by norm_num)).bind ?_
  rintro sync ⟨hsync, hbs⟩
  refine (readBits_ensures hbs (by norm_num)).bind ?_
  rintro version ⟨hversion, hbs⟩
  refine (readBits_ensures hbs (by norm_num)).bind ?_
  rintro layer ⟨hlayer, hbs⟩
  refine (readBits_ensures hbs (by norm_num)).bind ?_
  rintro protection ⟨hprotection, hbs⟩
  refine (readBits_ensures hbs (by norm_num)).bind ?_
  rintro bitrateIdx ⟨hbitrateIdx, hbs⟩
  refine (readBits_ensures hbs (by norm_num)).bind ?_
  rintro srateIdx ⟨hsrateIdx, hbs⟩
  refine (readBits_ensures hbs (by norm_num)).bind ?_
  rintro padding ⟨hpadding, hbs⟩
  refine (readBits_ensures hbs (by norm_num)).bind ?_
  rintro privateBit ⟨hprivateBit, hbs⟩
  refine (readBits_ensures hbs (by norm_num)).bind ?_
  rintro channel ⟨hchannel, hbs⟩
  refine (readBits_ensures hbs (by norm_num)).bind ?_
  rintro modeExt ⟨hmodeExt, hbs⟩
  refine (readBits_ensures hbs (by norm_num)).bind ?_
  rintro copyright ⟨hcopyright, hbs⟩
  refine (readBits_ensures hbs (by norm_num)).bind ?_
  rintro original ⟨horiginal, hbs⟩
  refine (readBits_ensures hbs (by norm_num)).bind ?_
  rintro emphasis ⟨hemphasis, hbs⟩
  refine Eval.ensures_pure ⟨?_, hbs⟩
  rw [hsync, hversion, hlayer, hprotection, hbitrateIdx, hsrateIdx, hpadding, hprivateBit, hchannel,
    hmodeExt, hcopyright, horiginal, hemphasis]
  rfl

/-- An index that is a field of `n` bits stays in a table of `2 ^ n` elements. -/
theorem load_ensures {β : Type} [Inhabited β] {n : ℕ} (hn : n ≤ 32) (table : List β)
    (htable : table.length = 2 ^ n) (index : BitVec n) :
    Eval.Ensures mode (Eval.load table table.length (index.setWidth 32).toNat) fun element ↦
      element = table.getD index.toNat default := by
  have hindex : (index.setWidth 32).toNat = index.toNat := by
    rw [BitVec.toNat_setWidth]
    exact Nat.mod_eq_of_lt (index.isLt.trans_le (Nat.pow_le_pow_right (by norm_num) hn))
  rw [hindex]
  exact Eval.ensures_load (by rw [htable]; exact index.isLt)

theorem describe_ensures (sizeT : SizeT) (h : FrameHeader) (hbs : Delivers .msb bs more) :
    Eval.Ensures mode (describe sizeT h.parsed bs) fun report ↦
      report = h.report (more.length % 2 ^ sizeT.bits) := by
  refine (load_ensures (by norm_num) bitrateTable rfl h.bitrateIdx).bind_eq ?_
  refine (load_ensures (by norm_num) samplerateTable rfl h.srateIdx).bind_eq ?_
  refine (load_ensures (by norm_num) channelModes rfl h.channel).bind_eq ?_
  refine (load_ensures (by norm_num) emphasisModes rfl h.emphasis).bind_eq (Eval.ensures_pure ?_)
  rw [hbs.bitsLeft_eq]
  rfl

end Parsing

/-! ### The program -/

/-- The first four bytes of an input, as the program loads them for printing. -/
theorem loadRaw_ensures {mode : Overshift} {input : List (BitVec 8)} {index : ℕ}
    (hindex : index < 4) (hinput : 4 ≤ input.length) :
    Eval.Ensures mode (Eval.load input input.length index) fun byte ↦
      byte = (input.take 4).getD index default := by
  refine (Eval.ensures_load (by omega)).mono fun byte hbyte ↦ ?_
  rw [hbyte, List.getD_eq_getElem _ _ (by omega), List.getD_eq_getElem _ _ (by simp; omega),
    List.getElem_take]

theorem setWidth_eq_sync_iff (sync : BitVec 11) : sync.setWidth 32 = (0x7FF : BitVec 32) ↔
    sync = 0x7FF := by
  constructor
  · intro h
    have hwidth := congrArg (BitVec.setWidth 11) h
    rwa [BitVec.setWidth_setWidth_of_le _ (by norm_num : 11 ≤ 32), BitVec.setWidth_eq] at hwidth
  · rintro rfl
    rfl

/-- The program on an input that begins with a header. -/
theorem main_ensures (sizeT : SizeT) (mode : Overshift) {h : FrameHeader}
    {input : List (BitVec 8)} (hbegins : h.Begins input) :
    Eval.Ensures mode (main sizeT input) fun result ↦ result =
      if h.sync = 0x7FF then
        (0, .header (input.take 4) (h.report (8 * (input.length - 4) % 2 ^ sizeT.bits)))
      else (1, .invalidSync (h.sync.setWidth 32)) := by
  obtain ⟨more, hbits⟩ := hbegins
  have hlength : 8 * input.length = 32 + more.length := by
    rw [← length_stream .msb, hbits, List.length_append, FrameHeader.format.length_bits]
    rfl
  have hmore : more.length = 8 * (input.length - 4) := by omega
  have hinput : 4 ≤ input.length := by omega
  have hdelivers := delivers_init .msb input
  rw [hbits] at hdelivers
  refine (parseFields_ensures h hdelivers).bind ?_
  rintro read ⟨hread, hrest⟩
  have hsync : read.1.sync ≠ 0x7FF ↔ h.sync ≠ 0x7FF := by
    rw [hread]
    exact not_congr (setWidth_eq_sync_iff h.sync)
  by_cases hvalid : h.sync = 0x7FF
  · rw [if_neg (mt hsync.mp (not_not_intro hvalid)), if_pos hvalid, hread, ← hmore]
    refine (loadRaw_ensures (by norm_num) hinput).bind_eq ?_
    refine (loadRaw_ensures (by norm_num) hinput).bind_eq ?_
    refine (loadRaw_ensures (by norm_num) hinput).bind_eq ?_
    refine (loadRaw_ensures (by norm_num) hinput).bind_eq ?_
    refine (describe_ensures sizeT h hrest).bind_eq (Eval.ensures_pure ?_)
    rcases input with _ | ⟨_, _ | ⟨_, _ | ⟨_, _ | ⟨_, _⟩⟩⟩⟩
    case cons.cons.cons.cons => rfl
    all_goals
      simp at hinput
  · rw [if_pos (hsync.mpr hvalid), if_neg hvalid, hread]
    exact Eval.ensures_pure rfl

/-- Every input of four bytes or more begins with one header, and the program reports that header,
without leaving a table or its buffer, exactly if its synchronization word is right. Of four bytes
no bit is left. -/
theorem main_reports_header (sizeT : SizeT) (mode : Overshift) {input : List (BitVec 8)}
    (hinput : 4 ≤ input.length) :
    ∃ h : FrameHeader, (∀ other : FrameHeader, other.Begins input ↔ other = h) ∧
      Eval.Ensures mode (main sizeT input) fun result ↦ result =
        if h.sync = 0x7FF then
          (0, .header (input.take 4) (h.report (8 * (input.length - 4) % 2 ^ sizeT.bits)))
        else (1, .invalidSync (h.sync.setWidth 32)) := by
  obtain ⟨h, hbegins, hunique⟩ := FrameHeader.existsUnique_begins hinput
  refine ⟨h, fun other ↦ ⟨hunique other, ?_⟩, main_ensures sizeT mode hbegins⟩
  rintro rfl
  exact hbegins

/-- A header without a synchronization word, in front of another byte. -/
theorem main_reports_header_five_bytes :
    ∃ h : FrameHeader,
      (∀ other : FrameHeader, other.Begins [0xFE, 0xFB, 0x90, 0x44, 0x00] ↔ other = h) ∧
        Eval.Ensures .masked (main sizeT32 [0xFE, 0xFB, 0x90, 0x44, 0x00]) fun result ↦ result =
          if h.sync = 0x7FF then
            (0, .header [0xFE, 0xFB, 0x90, 0x44] (h.report (8 * (5 - 4) % 2 ^ 32)))
          else (1, .invalidSync (h.sync.setWidth 32)) :=
  main_reports_header sizeT32 .masked (by decide)

/-- The header of the program. -/
example : (main sizeT64 [0xFF, 0xFB, 0x90, 0x44]).value .masked =
    (0, .header [0xFF, 0xFB, 0x90, 0x44]
      ⟨"MPEG1", "Layer III", "No", 128, 44100, "No", 0, "Joint Stereo", 0, "No", "Yes", "None",
        0⟩) := by
  rfl

/-! ### What a report tells -/

/-- The header with its reserved version and its reserved layer as the program shows them. -/
def FrameHeader.shown (h : FrameHeader) : FrameHeader :=
  { h with
    version := if h.version = 1 then 0 else h.version
    layer := if h.layer = 0 then 3 else h.layer }

/-- Two indices into a table without repetitions. -/
theorem getD_eq_iff {β : Type} [Inhabited β] (n : ℕ) (table : List β) (htable : table.Nodup)
    (hlength : table.length = 2 ^ n) (a b : BitVec n) :
    table.getD a.toNat default = table.getD b.toNat default ↔ a = b := by
  have ha := a.isLt
  have hb := b.isLt
  rw [← hlength] at ha hb
  rw [List.getD_eq_getElem _ _ ha, List.getD_eq_getElem _ _ hb, List.Nodup.getElem_inj_iff htable,
    BitVec.toNat_inj]

/-- Two reports are the same exactly if their headers are, as far as they are shown. -/
theorem report_eq_iff {first second : FrameHeader} (hsync : first.sync = second.sync) (left : ℕ) :
    first.report left = second.report left ↔ first.shown = second.shown := by
  have hversion : ∀ a b : BitVec 2, versionName (a.setWidth 32) = versionName (b.setWidth 32) ↔
      (if a = 1 then 0 else a) = if b = 1 then 0 else b := by decide
  have hlayer : ∀ a b : BitVec 2, layerName (a.setWidth 32) = layerName (b.setWidth 32) ↔
      (if a = 0 then 3 else a) = if b = 0 then 3 else b := by decide
  have hcrc : ∀ a b : BitVec 1, ((if a.setWidth 32 ≠ (0 : BitVec 32) then "No" else "Yes") =
      if b.setWidth 32 ≠ (0 : BitVec 32) then "No" else "Yes") ↔ a = b := by decide
  have hflag : ∀ a b : BitVec 1, yesNo (a.setWidth 32) = yesNo (b.setWidth 32) ↔ a = b := by decide
  have hbit : ∀ a b : BitVec 1, a.setWidth 32 = b.setWidth 32 ↔ a = b := by decide
  have hmode : ∀ a b : BitVec 2, a.setWidth 32 = b.setWidth 32 ↔ a = b := by decide
  have hbitrate := getD_eq_iff 4 bitrateTable (by decide) rfl
  have hrate := getD_eq_iff 2 samplerateTable (by decide) rfl
  have hchannel := getD_eq_iff 2 channelModes (by decide) rfl
  have hemphasis := getD_eq_iff 2 emphasisModes (by decide) rfl
  simp only [FrameHeader.report, Report.mk.injEq, FrameHeader.shown, FrameHeader.mk.injEq, hversion,
    hlayer, hcrc, hflag, hbit, hmode, hbitrate, hrate, hchannel, hemphasis, hsync, true_and,
    and_true]

/-- The report that is printed, if any. -/
def Output.report? : Output → Option Report
  | .invalidSync _ => none
  | .header _ report => some report

/-- Two inputs of one length with headers whose synchronization words are right: the program reports
the same exactly if the headers are the same, apart from the reserved version, which is shown as
2.5, and the reserved layer, which is shown as I. -/
theorem same_report_iff (sizeT : SizeT) (mode : Overshift) {first second : FrameHeader}
    {input other : List (BitVec 8)} (hfirst : first.Begins input) (hsecond : second.Begins other)
    (hvalid : first.sync = 0x7FF) (hvalid' : second.sync = 0x7FF)
    (hlength : input.length = other.length) :
    ((main sizeT input).value mode).2.report? = ((main sizeT other).value mode).2.report? ↔
      first.shown = second.shown := by
  rw [(main_ensures sizeT mode hfirst).post, (main_ensures sizeT mode hsecond).post, if_pos hvalid,
    if_pos hvalid', hlength]
  exact (Option.some_inj).trans (report_eq_iff (hvalid.trans hvalid'.symm) _)

/-- Headers that differ in the version alone, reserved in the second. -/
theorem same_report_iff_reserved :
    ((main sizeT64 [0xFF, 0xE3, 0x90, 0x44]).value .masked).2.report? =
        ((main sizeT64 [0xFF, 0xEB, 0x90, 0x44]).value .masked).2.report? ↔
      FrameHeader.shown ⟨0x7FF, 0, 1, 1, 9, 0, 0, 0, 1, 0, 0, 1, 0⟩ =
        FrameHeader.shown ⟨0x7FF, 1, 1, 1, 9, 0, 0, 0, 1, 0, 0, 1, 0⟩ :=
  same_report_iff sizeT64 .masked ⟨[], by decide⟩ ⟨[], by decide⟩ rfl rfl rfl

end Bitstream.Examples.DecodeMp3Header
