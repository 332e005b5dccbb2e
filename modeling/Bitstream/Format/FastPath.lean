import Bitstream.Reading.CursorRefinement
import Bitstream.Writing.ShiftBounds

/-!
# The fast path agrees with the safe path

The unchecked functions skip a test and, for the skips, the refill; the unchecked writes skip the
mask. Where their documented conditions hold, a run that uses them shows what the run with the
checked functions in their places shows. For the readers the two runs drift into different fill
levels and byte positions: what they share is the cursor both track. For the writers the states
themselves are the same, as long as no shift is undefined, which the absence of overflow ensures.
-/

set_option autoImplicit false
set_option relaxedAutoImplicit false

namespace Bitstream.Format

open Foundation Header Reading Writing

variable {order : BitOrder} {mode other : Overshift}

/-! ### Readers -/

/-- The checked variant of an unchecked call. -/
def checkedReaderCall : ReaderCall → ReaderCall
  | .readBitsUnchecked order n => .readBits order n
  | .peekBitsUnchecked order n => .peekBits order n
  | .skipBitsUnchecked order n => .skipBits order n
  | call => call

/-- A call and its checked variant mean the same. -/
theorem step_checkedReaderCall (call : ReaderCall) (c : Cursor) :
    c.step (checkedReaderCall call) = c.step call := by
  cases call <;> rfl

/-- The checked variant of an allowed call is allowed in every state. -/
theorem allowedCall_checked {sizeT : SizeT} {bs bs' : BsReader} {fast safe : Overshift × ReaderCall}
    (hsafe : safe.2 = checkedReaderCall fast.2) (h : AllowedCall sizeT order fast bs) :
    AllowedCall sizeT order safe bs' := by
  obtain ⟨mode, call⟩ := fast
  obtain ⟨other, _⟩ := safe
  cases hsafe
  obtain ⟨horder, hallowed⟩ := h
  cases call with
  | readBitsUnchecked | peekBitsUnchecked | skipBitsUnchecked => exact ⟨horder, hallowed.2.1⟩
  | readBit | readBits | peekBits | skipBits | align | readBytes => exact ⟨horder, hallowed⟩

/-- Two readers that track one cursor answer a call and its checked variant alike. -/
theorem reader_fast_step (sizeT : SizeT) {fast safe : Overshift × ReaderCall} {bs bs' : BsReader}
    (hsafe : safe.2 = checkedReaderCall fast.2)
    (htracks : ∃ c, Tracks order bs c ∧ Tracks order bs' c)
    (hallowed : AllowedCall sizeT order fast bs) :
    readerObservation sizeT (readerAct sizeT fast bs) =
        readerObservation sizeT (readerAct sizeT safe bs') ∧
      ∃ c, Tracks order (readerAct sizeT fast bs).2 c ∧
        Tracks order (readerAct sizeT safe bs').2 c := by
  obtain ⟨c, hfast, hslow⟩ := htracks
  obtain ⟨hreply, hnext⟩ := readerAct_tracks sizeT hfast hallowed
  obtain ⟨hreply', hnext'⟩ := readerAct_tracks sizeT hslow (allowedCall_checked hsafe hallowed)
  rw [hsafe, step_checkedReaderCall] at hreply' hnext'
  refine ⟨?_, _, hnext, hnext'⟩
  rw [readerObservation, readerObservation, hreply, hreply', hnext.bitsLeft_eq sizeT,
    hnext'.bitsLeft_eq sizeT, hnext.eof_eq, hnext'.eof_eq]

/-! ### Writers -/

section Determined

variable {bs : BsWriter}

theorem pop_determined (order : BitOrder) (bs : BsWriter) : (pop order bs).Determined := by
  cases order with
  | msb =>
    refine (Eval.determined_sub _ _ _).bind fun shiftAmount ↦ ?_
    exact (Eval.determined_shiftRight _ _).bind fun shifted ↦ Eval.determined_pure _
  | lsb => exact (Eval.determined_shiftRight _ _).bind fun bitCache ↦ Eval.determined_pure _

theorem dumpLoop_determined (order : BitOrder) (passes : ℕ) (bs : BsWriter) :
    (dumpLoop (pop order) passes bs).Determined := by
  induction passes generalizing bs with
  | zero => exact Eval.determined_pure bs
  | succ passes ih =>
    refine .ite (fun _ ↦ .ite (fun _ ↦ Eval.determined_pure _) fun _ ↦ ?_)
      fun _ ↦ Eval.determined_pure _
    refine (pop_determined order bs).bind fun popped ↦ ?_
    refine (Eval.determined_store _ _ _ _).bind fun buffer ↦ ?_
    exact (Eval.determined_sub _ _ _).bind fun bitsInCache ↦ ih _

theorem dump_determined (order : BitOrder) (bs : BsWriter) : (dump order bs).Determined := by
  cases order with
  | msb =>
    refine (dumpLoop_determined .msb _ bs).bind fun after ↦ ?_
    exact (Eval.determined_shiftLeft _ _).bind fun bit ↦ Eval.determined_pure _
  | lsb => exact dumpLoop_determined .lsb _ bs

theorem push_determined (order : BitOrder) (bs : BsWriter) (clean : BitVec 64) (n : ℕ) :
    (Writing.push order bs clean n).Determined := by
  cases order with
  | msb => exact (Eval.determined_shiftLeft _ _).map
  | lsb => exact (Eval.determined_shiftLeft _ _).map

theorem queueBits_determined (order : BitOrder) (bs : BsWriter) (bitCache : BitVec 64) (n : ℕ) :
    (queueBits (dump order) bs bitCache n).Determined := by
  refine (Eval.determined_add _ _ _).bind fun bitsInCache ↦ ?_
  exact .ite (fun _ ↦ dump_determined order _) fun _ ↦ Eval.determined_pure _

theorem cleanValue_determined (value : BitVec 32) (n : ℕ) : (cleanValue value n).Determined :=
  (Eval.determined_shiftLeft _ _).bind fun _ ↦ Eval.determined_pure _

theorem bsWriteBit_determined (bs : BsWriter) (value : BitVec 8) :
    (bsWriteBit bs value).Determined :=
  (push_determined .msb bs _ 1).bind fun bitCache ↦ queueBits_determined .msb bs bitCache 1

theorem write_determined (order : BitOrder) (bs : BsWriter) (value : BitVec 32) (n : ℕ) :
    (write order bs value n).Determined := by
  rw [write_eq]
  refine .ite (fun _ ↦ Eval.determined_pure _) fun _ ↦ ?_
  refine (cleanValue_determined value n).bind fun clean ↦ ?_
  exact (push_determined order bs clean n).bind fun bitCache ↦ queueBits_determined order bs _ n

theorem writeUnchecked_determined (order : BitOrder) (bs : BsWriter) (value : BitVec 32) (n : ℕ) :
    (writeUnchecked order bs value n).Determined := by
  rw [writeUnchecked_eq]
  exact (push_determined order bs _ n).bind fun bitCache ↦ queueBits_determined order bs _ n

theorem align_determined (order : BitOrder) (bs : BsWriter) :
    (Header.align (write order) bs).Determined :=
  .ite (fun _ ↦ write_determined order _ _ _) fun _ ↦ Eval.determined_pure _

theorem flush_determined (order : BitOrder) (bs : BsWriter) :
    (flush (dump order) (write order) bs).Determined := by
  have hpad (bs : BsWriter) : (do
      let paddingBits ← Eval.sub 32 8 bs.bitsInCache
      write order bs 0 paddingBits : Eval BsWriter).Determined :=
    (Eval.determined_sub _ _ _).bind fun _ ↦ write_determined order _ _ _
  refine .ite (fun _ ↦ Eval.determined_pure _) fun _ ↦ .ite (fun _ ↦ ?_) fun _ ↦ hpad bs
  refine (dump_determined order bs).bind fun after ↦ ?_
  refine .ite (fun _ ↦ Eval.determined_pure _) fun _ ↦ ?_
  exact .ite (fun _ ↦ Eval.determined_pure _) fun _ ↦ hpad after

theorem bsWriteBytes_determined (sizeT : SizeT) (bs : BsWriter) (src : List (BitVec 8)) :
    (bsWriteBytes sizeT bs src).Determined := by
  refine .ite (fun _ ↦ Eval.determined_pure _) fun _ ↦ ?_
  refine .ite (fun _ ↦ Eval.determined_pure _) fun _ ↦ ?_
  refine (Eval.determined_sub _ _ _).bind fun available ↦ ?_
  refine .ite (fun _ ↦ Eval.determined_pure _) fun _ ↦ ?_
  exact (Eval.determined_storeBlock _ _ _ _).bind fun buffer ↦ Eval.determined_pure _

/-- Where a call is defined, it does not depend on what undefined shifts yield. -/
theorem writerStep_determined (sizeT : SizeT) (call : WriterCall) (bs : BsWriter) :
    (writerStep sizeT call bs).Determined := by
  cases call with
  | writeBit => exact (bsWriteBit_determined _ _).map
  | writeBits order value n =>
    rw [writerStep_writeBits]
    exact (write_determined order bs value n).map
  | writeBitsUnchecked order value n =>
    rw [writerStep_writeBitsUnchecked]
    exact (writeUnchecked_determined order bs value n).map
  | align order =>
    rw [writerStep_align]
    exact (align_determined order bs).map
  | flush order =>
    rw [writerStep_flush]
    exact (flush_determined order bs).map
  | writeBytes src =>
    exact (bsWriteBytes_determined sizeT bs src).bind fun _ ↦ Eval.determined_pure _

end Determined

/-- The checked variant of an unchecked write. -/
def checkedWriterCall : WriterCall → WriterCall
  | .writeBitsUnchecked order value n => .writeBits order value n
  | call => call

/-- The functions of a writer call belong to a bit order; a bulk write belongs to both. -/
def WriterInOrder (order : BitOrder) : WriterCall → Prop
  | .writeBit _ => order = .msb
  | .writeBits o _ _ | .writeBitsUnchecked o _ _ => o = order
  | .align o | .flush o => o = order
  | .writeBytes _ => True

/-- The documented conditions of a writer call: a width of at most 32 and, for an unchecked write, a
width of at least 1 and a value without bits above it. -/
def WriterAllowed : WriterCall → Prop
  | .writeBits _ _ n => n ≤ 32
  | .writeBitsUnchecked _ value n => 1 ≤ n ∧ n ≤ 32 ∧ value.toNat < 2 ^ n
  | .writeBit _ | .align _ | .flush _ | .writeBytes _ => True

instance (order : BitOrder) : DecidablePred (WriterInOrder order)
  | .writeBit _ => inferInstanceAs (Decidable (order = .msb))
  | .writeBits o _ _ | .writeBitsUnchecked o _ _ | .align o | .flush o =>
    inferInstanceAs (Decidable (o = order))
  | .writeBytes _ => .isTrue trivial

instance : DecidablePred WriterAllowed
  | .writeBits _ _ n => inferInstanceAs (Decidable (n ≤ 32))
  | .writeBitsUnchecked _ value n =>
    inferInstanceAs (Decidable (1 ≤ n ∧ n ≤ 32 ∧ value.toNat < 2 ^ n))
  | .writeBit _ | .align _ | .flush _ | .writeBytes _ => .isTrue trivial

/-- The call is of one order, its documented conditions hold, and nothing has overflowed before
it. -/
def FastWrite (order : BitOrder) (issued : Overshift × WriterCall) (bs : BsWriter) : Prop :=
  WriterInOrder order issued.2 ∧ WriterAllowed issued.2 ∧ bs.overflow = false

instance (order : BitOrder) (issued : Overshift × WriterCall) (bs : BsWriter) :
    Decidable (FastWrite order issued bs) := inferInstanceAs (Decidable (_ ∧ _ ∧ _))

/-- A value without bits above its width is clean already. -/
theorem value_cleanValue_of_lt (mode : Overshift) {value : BitVec 32} {n : ℕ} (hn : n ≤ 32)
    (hvalue : value.toNat < 2 ^ n) : (cleanValue value n).value mode = value.setWidth 64 := by
  have hclean := (cleanValue_ensures mode value hn).post
  apply BitVec.eq_of_toNat_eq
  rw [hclean, Nat.mod_eq_of_lt hvalue, BitVec.toNat_setWidth,
    Nat.mod_eq_of_lt (value.isLt.trans (by norm_num))]

/-- Under its documented conditions an unchecked write does what the checked one does. -/
theorem writerAct_checkedWriterCall (sizeT : SizeT) (mode : Overshift) {call : WriterCall}
    (h : WriterAllowed call) (bs : BsWriter) :
    writerAct sizeT (mode, checkedWriterCall call) bs = writerAct sizeT (mode, call) bs := by
  cases call with
  | writeBitsUnchecked order value n =>
    obtain ⟨hpos, hn, hvalue⟩ := h
    have hzero : n ≠ 0 := by omega
    have hwrite :
        (write order bs value n).value mode = (writeUnchecked order bs value n).value mode := by
      rw [write_eq, writeUnchecked_eq, if_neg hzero, Eval.value_bind,
        value_cleanValue_of_lt mode hn hvalue]
    rw [checkedWriterCall, writerAct, writerAct, writerStep_writeBits,
      writerStep_writeBitsUnchecked]
    exact congrArg (Prod.mk none) hwrite
  | writeBit | writeBits | align | flush | writeBytes => rfl

/-- Before an overflow a bit-level call is defined. -/
theorem callDefined_of_open (sizeT : SizeT) {issued : Overshift × WriterCall} {bs : BsWriter}
    (h : WriterInv bs) (hopen : bs.overflow = false) (hcall : Writing.BitCall order issued.2) :
    Writing.CallDefined sizeT issued bs := by
  have hbits : bs.bitsInCache < 8 := by
    refine h.drained.resolve_right fun hfull ↦ ?_
    rw [hopen] at hfull
    exact Bool.false_ne_true hfull.2
  have hle := h.bytePos_le
  have hqueued := queuedCount_le hcall bs.bitsInCache
  refine (callDefined_iff sizeT h hcall (by omega) fun _ ↦ by omega).mpr (.inr ?_)
  cases order with
  | msb =>
    show 8 * bs.bytePos + bs.bitsInCache + queuedCount bs.bitsInCache issued.2 ≤ 8 * bs.size + 63
    omega
  | lsb =>
    show 8 * bs.bytePos + bs.bitsInCache ≤ 8 * bs.size + 63
    omega

/-- Before an overflow the checked variant of a call is defined and leaves a writer between two
calls. -/
theorem checkedWriterCall_defined (sizeT : SizeT) (mode : Overshift) {call : WriterCall}
    {bs : BsWriter} (h : WriterInv bs) (hopen : bs.overflow = false)
    (horder : WriterInOrder order call) (hallowed : WriterAllowed call) :
    Writing.CallDefined sizeT (mode, checkedWriterCall call) bs ∧
      WriterInv (writerAct sizeT (mode, checkedWriterCall call) bs).2 := by
  have hbit (hcall : Writing.BitCall order (checkedWriterCall call)) :
      Writing.CallDefined sizeT (mode, checkedWriterCall call) bs ∧
        WriterInv (writerAct sizeT (mode, checkedWriterCall call) bs).2 := by
    have happends : Appends order _ bs (writerAct sizeT (mode, checkedWriterCall call) bs).2 :=
      writerAct_appends sizeT hcall h
    exact ⟨callDefined_of_open sizeT h hopen hcall, happends.inv h⟩
  cases call with
  | writeBit => exact hbit horder
  | writeBits => exact hbit ⟨horder, hallowed⟩
  | writeBitsUnchecked => exact hbit ⟨horder, hallowed.2.1⟩
  | align => exact hbit horder
  | flush => exact hbit horder
  | writeBytes src =>
    have hwrite := bsWriteBytes_ensures mode sizeT h.toFits src
    refine ⟨?_, hwrite.post.inv h⟩
    exact (Eval.defined_bind mode _ _).mpr ⟨hwrite.defined, Eval.defined_pure mode _⟩

/-- One writer, called with an unchecked function or with its checked variant: the reply and the
state are the same. -/
theorem writer_fast_step (sizeT : SizeT) {fast safe : Overshift × WriterCall} {bs : BsWriter}
    (hsafe : safe.2 = checkedWriterCall fast.2) (h : WriterInv bs)
    (hfast : FastWrite order fast bs) :
    writerAct sizeT fast bs = writerAct sizeT safe bs ∧ WriterInv (writerAct sizeT fast bs).2 := by
  obtain ⟨mode, call⟩ := fast
  obtain ⟨other, safeCall⟩ := safe
  obtain rfl : safeCall = checkedWriterCall call := hsafe
  obtain ⟨horder, hallowed, hopen⟩ := hfast
  obtain ⟨hdefined, hinv⟩ := checkedWriterCall_defined sizeT mode h hopen horder hallowed
  have hchecked := writerAct_checkedWriterCall sizeT mode hallowed bs
  have hmachine : writerAct sizeT (other, checkedWriterCall call) bs =
      writerAct sizeT (mode, checkedWriterCall call) bs :=
    congrArg Outcome.value (writerStep_determined sizeT _ bs mode other hdefined)
  rw [hmachine, ← hchecked]
  exact ⟨rfl, hinv⟩

/-! ### Runs -/

/-- The fast path agrees with the safe path. Reader: a run of one order with unchecked calls where
their documented conditions hold shows the replies, the bits left and the end-of-stream test of the
run with the checked calls in their places. Writer: a run of one order with unchecked writes where
their documented conditions hold has, up to the first overflow, the replies and the states of the
run with the checked writes in their places. -/
theorem fast_path_agrees (sizeT : SizeT) (order : BitOrder) :
    (∀ (buffer : List (BitVec 8)) (fast safe : List (Overshift × ReaderCall)),
      List.Forall₂ (fun f s ↦ s.2 = checkedReaderCall f.2) fast safe →
      Along (readerAct sizeT) (AllowedCall sizeT order) fast (bsReaderInit buffer buffer.length) →
        (trace (readerAct sizeT) fast (bsReaderInit buffer buffer.length)).map
            (readerObservation sizeT) =
          (trace (readerAct sizeT) safe (bsReaderInit buffer buffer.length)).map
            (readerObservation sizeT)) ∧
    (∀ (initial : List (BitVec 8)) (fast safe : List (Overshift × WriterCall)),
      List.Forall₂ (fun f s ↦ s.2 = checkedWriterCall f.2) fast safe →
      Along (writerAct sizeT) (FastWrite order) fast (bsWriterInit initial initial.length) →
        trace (writerAct sizeT) fast (bsWriterInit initial initial.length) =
          trace (writerAct sizeT) safe (bsWriterInit initial initial.length)) := by
  constructor
  · intro buffer fast safe hsafe hallowed
    have hinit := tracks_init order buffer
    refine map_trace_eq_of_forall₂ (R := fun bs bs' ↦ ∃ c, Tracks order bs c ∧ Tracks order bs' c)
      (fun f s bs bs' hcall htracks hfast ↦ ?_) hsafe hallowed ⟨_, hinit, hinit⟩
    exact reader_fast_step sizeT hcall htracks hfast
  · intro initial fast safe hsafe hfast
    rw [← List.map_id (trace _ fast _), ← List.map_id (trace _ safe _)]
    refine map_trace_eq_of_forall₂ (R := fun bs bs' ↦ bs' = bs ∧ WriterInv bs)
      (fun f s bs bs' hcall hrel hcond ↦ ?_) hsafe hfast ⟨rfl, writerInv_init initial⟩
    obtain ⟨rfl, hinv⟩ := hrel
    obtain ⟨hsame, hnext⟩ := writer_fast_step sizeT hcall hinv hcond
    exact ⟨hsame, (congrArg Prod.snd hsame).symm, hnext⟩

/-- A reader run that skips in the cache without a refill, and a writer run that fills its
buffer. -/
theorem fast_path_agrees_example :
    ((trace (readerAct sizeT64)
        ([.peekBitsUnchecked .lsb 4, .skipBitsUnchecked .lsb 4, .readBitsUnchecked .lsb 11,
          .readBits .lsb 5].map (Prod.mk .masked)) (bsReaderInit [0xA5, 0x3C] 2)).map
        (readerObservation sizeT64) =
      (trace (readerAct sizeT64)
        ([.peekBits .lsb 4, .skipBits .lsb 4, .readBits .lsb 11,
          .readBits .lsb 5].map (Prod.mk .masked)) (bsReaderInit [0xA5, 0x3C] 2)).map
        (readerObservation sizeT64)) ∧
    trace (writerAct sizeT64)
        ([.writeBitsUnchecked .lsb 5 3, .writeBits .lsb 0xFF 4,
          .writeBitsUnchecked .lsb 0x1FF 9].map (Prod.mk .masked)) (bsWriterInit [0] 1) =
      trace (writerAct sizeT64)
        ([.writeBits .lsb 5 3, .writeBits .lsb 0xFF 4, .writeBits .lsb 0x1FF 9].map
          (Prod.mk .masked)) (bsWriterInit [0] 1) := by
  constructor
  · exact (fast_path_agrees sizeT64 .lsb).1 [0xA5, 0x3C] _ _
      (.cons rfl (.cons rfl (.cons rfl (.cons rfl .nil)))) (by decide)
  · exact (fast_path_agrees sizeT64 .lsb).2 [0] _ _
      (.cons rfl (.cons rfl (.cons rfl .nil))) (by decide)

end Bitstream.Format
