import Bitstream.Foundation.AccessSafety
import Bitstream.Writing.BulkWriting
import Bitstream.Writing.ShiftBounds

/-!
# A writer as the bits it has taken

An encoder on top of a writer needs no counters: what matters is the list of bits it has written
(`Emitted`), for every capacity. Each lemma is the specification of one writer function in these
terms. The value holds however small the buffer is and whatever shifts by 64 or more yield; the
obligations hold if the bits fit, which is left as a proposition `fits` so that an encoder is proved
once for both (`MeetsIf`). An encoder of few bits needs no room for them: `EmittedInRange` keeps the
count that bounds the shifts, and every operation is defined while it does (`Takes`).
-/

set_option autoImplicit false
set_option relaxedAutoImplicit false

namespace Bitstream.Writing

open Foundation Header

variable {mode : Overshift} {order : BitOrder} {initial : List (BitVec 8)} {bs after : BsWriter}
  {bits : List Bool} {n : ℕ} {fits : Prop}

/-- The value satisfies `post` in any case, and every obligation holds if `fits` does. -/
def MeetsIf {α : Type} (fits : Prop) (mode : Overshift) (x : Eval α) (post : α → Prop) : Prop :=
  x.Meets (fun o ↦ fits → o.Holds) mode post

theorem MeetsIf.ensures {α : Type} {x : Eval α} {post : α → Prop} (h : MeetsIf fits mode x post)
    (hfits : fits) : Eval.Ensures mode x post := ⟨fun o ho ↦ h.1 o ho hfits, h.2⟩

theorem MeetsIf.post {α : Type} {x : Eval α} {post : α → Prop} (h : MeetsIf fits mode x post) :
    post (x.value mode) := h.2

/-- An append to the writer is an append to its bits. -/
theorem Emitted.appends {field : List Bool} (h : Emitted order initial bs bits)
    (hfield : field.length ≤ 32) (happends : Appends order field bs after) :
    Emitted order initial after (bits ++ field) where
  toWritesInto := h.toWritesInto.appends happends
  live_or_full := by
    rcases h.live_or_full with hlive | hfull
    · exact hlive.appends h.toWriterInv hfield happends
    · exact .inr (hfull.appends h.toWriterInv happends (List.prefix_append _ _))

theorem Emitted.overflow_eq (h : Emitted order initial bs bits) :
    bs.overflow = decide (initial.length < bits.length / 8) :=
  congrArg (fun output ↦ output.2.2) h.output_eq

theorem Emitted.open_of_le (h : Emitted order initial bs bits)
    (hfit : bits.length / 8 ≤ initial.length) : bs.overflow = false := by
  rw [h.overflow_eq, decide_eq_false (by omega)]

theorem Emitted.bytesWritten_eq (h : Emitted order initial bs bits) :
    bsWriterBytesWritten bs = min initial.length (bits.length / 8) :=
  congrArg Prod.fst h.output_eq

theorem Emitted.buffer_eq (h : Emitted order initial bs bits) :
    bs.buffer =
      (packWords 8 order bits).take initial.length ++ initial.drop (bits.length / 8) :=
  congrArg (fun output ↦ output.2.1) h.output_eq

/-- What a writer shows that has taken whole bytes and had room for them. -/
theorem Emitted.stored {bytes : List (BitVec 8)} (h : Emitted order initial bs (stream order bytes))
    (hfit : bytes.length ≤ initial.length) :
    bs.overflow = false ∧ bsWriterBytesWritten bs = bytes.length ∧
      bs.buffer = bytes ++ initial.drop bytes.length := by
  have hcount : (stream order bytes).length / 8 = bytes.length := by
    rw [length_stream]
    omega
  have hpack : packWords 8 order (stream order bytes) = bytes := by
    have happend := packWords_stream_append order bytes (List.length_nil.trans_lt (Nat.succ_pos 7))
    rwa [List.append_nil] at happend
  refine ⟨h.open_of_le (by rwa [hcount]), ?_, ?_⟩
  · rw [h.bytesWritten_eq, hcount, Nat.min_eq_right hfit]
  · rw [h.buffer_eq, hcount, hpack, List.take_of_length_le hfit]

/-- Before an overflow every field can be queued. -/
theorem takes_of_open (order : BitOrder) (h : WriterInv bs) (hopen : bs.overflow = false)
    (hn : n ≤ 32) : bs.bitsInCache < 8 ∧ Takes order bs.size (taken bs) n := by
  have hbits : bs.bitsInCache < 8 :=
    h.drained.resolve_right fun hfull ↦ Bool.false_ne_true (hopen.symm.trans hfull.2)
  have hle := h.bytePos_le
  refine ⟨hbits, ?_⟩
  unfold Takes taken
  cases order <;> simp only <;> omega

/-! ### The functions -/

theorem Emitted.write_meetsIf (h : Emitted order initial bs bits) (value : BitVec 32) (hn : n ≤ 32)
    (hfit : fits → bits.length / 8 ≤ initial.length) :
    MeetsIf fits mode (write order bs value n) fun after ↦
      Emitted order initial after (bits ++ fieldBits order n value.toNat) := by
  constructor
  · intro o ho hfits
    obtain ⟨hbits, htakes⟩ := takes_of_open order h.toWriterInv (h.open_of_le (hfit hfits)) hn
    exact (write_writeDefined order mode value h.toWriterInv (by omega) hn).mpr (.inr htakes) o ho
  · have happends := write_writes order mode value h.toWriterInv hn
    exact h.appends (by rwa [length_fieldBits]) happends

theorem Emitted.flush_meetsIf (h : Emitted order initial bs bits)
    (hfit : fits → bits.length / 8 ≤ initial.length) :
    MeetsIf fits mode (flush (dump order) (write order) bs) fun after ↦
      Emitted order initial after (padded 8 bits) := by
  have hpadding : padding 8 bs.bitsInCache < 8 := padding_lt (by norm_num) bs.bitsInCache
  have hstep : Emitted order initial (writerAct sizeT64 (mode, .flush order) bs).2 _ :=
    h.step sizeT64 rfl
  rw [writerAct, writerStep_flush] at hstep
  refine ⟨fun o ho hfits ↦ ?_, hstep⟩
  obtain ⟨hbits, htakes⟩ := takes_of_open order h.toWriterInv (h.open_of_le (hfit hfits))
    (by omega : padding 8 bs.bitsInCache ≤ 32)
  refine (flush_defined_iff (dump_dumps order mode) (write_writeDefined order mode) h.toWriterInv
    (by omega) fun _ ↦ by omega).mpr (.inr ?_) o ho
  rwa [if_neg (by omega)]

/-! ### Few bits in any room -/

/-- The writer has taken these bits with every shift in range, whether or not they fit. -/
structure EmittedInRange (order : BitOrder) (initial : List (BitVec 8)) (bs : BsWriter)
    (bits : List Bool) : Prop extends Emitted order initial bs bits where
  counts : Counts order initial.length bs bits.length

theorem emittedInRange_init (order : BitOrder) (initial : List (BitVec 8)) :
    EmittedInRange order initial (bsWriterInit initial initial.length) [] where
  toEmitted := emitted_init order initial
  counts := counts_init order initial

/-- A call with its shifts in range is defined, and leaves them so. Assumes: the call appends as
many bits as are counted for it, which a flush of a full buffer does not. -/
theorem EmittedInRange.step {call : WriterCall} (h : EmittedInRange order initial bs bits)
    (mode : Overshift) (hcall : BitCall order call)
    (hrange : ShiftsInRange order initial.length call bits.length)
    (hcount : (emit order call bits).2.length =
      (queueTotal initial.length call bits.length).2) :
    CallDefined sizeT64 (mode, call) bs ∧
      EmittedInRange order initial (writerAct sizeT64 (mode, call) bs).2
        (emit order call bits).2 := by
  have hcounts : Counts order initial.length (writerAct sizeT64 (mode, call) bs).2
      (queueTotal initial.length call bits.length).2 := h.counts.step sizeT64 hcall hrange
  rw [← hcount] at hcounts
  exact ⟨(h.counts.defined_iff sizeT64 hcall).mpr hrange, h.toEmitted.step sizeT64 hcall, hcounts⟩

theorem EmittedInRange.write_ensures (h : EmittedInRange order initial bs bits)
    (value : BitVec 32) (hn : n ≤ 32) (htakes : Takes order initial.length bits.length n) :
    Eval.Ensures mode (write order bs value n) fun after ↦
      EmittedInRange order initial after (bits ++ fieldBits order n value.toNat) := by
  have hcall : BitCall order (.writeBits order value n) := ⟨rfl, hn⟩
  have hcount : (emit order (.writeBits order value n) bits).2.length = bits.length + n := by
    rw [emit, List.length_append, length_fieldBits]
  obtain ⟨hdefined, hnext⟩ := h.step mode hcall (.inr htakes) hcount
  rw [CallDefined, writerStep_writeBits, Eval.defined_map] at hdefined
  rw [writerAct, writerStep_writeBits] at hnext
  exact ⟨hdefined, hnext⟩

/-- What is left in the cache needs the padding of all the bits. -/
theorem padding_cachedBits (size total : ℕ) :
    padding 8 (cachedBits size total) = padding 8 total := by
  unfold padding cachedBits
  omega

theorem EmittedInRange.align_ensures (h : EmittedInRange order initial bs bits)
    (htakes : Takes order initial.length bits.length (padding 8 bits.length)) :
    Eval.Ensures mode (align (write order) bs) fun after ↦
      EmittedInRange order initial after (padded 8 bits) := by
  have hcall : BitCall order (.align order) := rfl
  have hrange : ShiftsInRange order initial.length (.align order) bits.length := by
    rw [ShiftsInRange, queuedCount, padding_cachedBits]
    exact .inr htakes
  have hcount : (emit order (.align order) bits).2.length =
      (queueTotal initial.length (.align order) bits.length).2 := by
    rw [emit, queueTotal, queuedCount, padding_cachedBits, padded, List.length_append,
      List.length_replicate]
  obtain ⟨hdefined, hnext⟩ := h.step mode hcall hrange hcount
  rw [CallDefined, writerStep_align, Eval.defined_map] at hdefined
  rw [writerAct, writerStep_align] at hnext
  exact ⟨hdefined, hnext⟩

/-! ### Blocks -/

/-- A block behind whole bytes is taken exactly if it fits. -/
theorem Emitted.writeBytes_ensures (sizeT : SizeT) {bytes : List (BitVec 8)}
    (h : Emitted order initial bs (stream order bytes)) (src : List (BitVec 8)) :
    Eval.Ensures mode (bsWriteBytes sizeT bs src) fun written ↦
      (written.1 = true ↔ bytes.length + src.length ≤ initial.length) ∧
        (written.1 = true → Emitted order initial written.2 (stream order (bytes ++ src))) := by
  refine (bsWriteBytes_ensures mode sizeT h.toFits src).mono fun written hwrite ↦ ?_
  have hcapacity := h.capacity_eq
  have hoverflow := h.overflow_eq
  have hwritten := h.bytesWritten_eq
  rw [length_stream] at hoverflow hwritten
  have hcount : 8 * bytes.length / 8 = bytes.length := by omega
  rw [hcount] at hoverflow hwritten
  have hpos : bs.bytePos = min initial.length bytes.length := hwritten
  cases hwrite with
  | rejected hbusy =>
    have hflag : bs.overflow = true := by
      rcases h.live_or_full with hlive | hfull
      · have hlength := hlive.length_eq h.toWriterInv
        have hbits := hlive.bits_lt
        rw [length_stream] at hlength
        exact hbusy.resolve_left (by omega)
      · exact hfull.overflow_eq
    rw [hoverflow, decide_eq_true_iff] at hflag
    exact ⟨iff_of_false Bool.false_ne_true (by omega), fun hok ↦ absurd hok Bool.false_ne_true⟩
  | refused haligned hopen hlong =>
    rw [hoverflow, decide_eq_false_iff_not] at hopen
    exact ⟨iff_of_false Bool.false_ne_true (by omega), fun hok ↦ absurd hok Bool.false_ne_true⟩
  | stored haligned hopen hfit =>
    have hlive := h.live hopen
    have htidy : TidyWriter bs := ⟨h.toWriterInv, fun _ ↦ hlive.clean⟩
    have hblock := (BlockWrite.stored haligned hopen hfit).emitted htidy order
    rw [hlive.content_eq, ← stream_append] at hblock
    rw [hoverflow, decide_eq_false_iff_not] at hopen
    refine ⟨iff_of_true rfl (by omega), fun _ ↦ ⟨⟨hblock.toWriterInv, hcapacity, ?_⟩,
      hblock.live_or_full⟩⟩
    have htail := congrArg (List.drop src.length) h.tail_eq
    rw [List.drop_drop, List.drop_drop] at htail
    exact hblock.tail_eq.trans htail

end Bitstream.Writing
