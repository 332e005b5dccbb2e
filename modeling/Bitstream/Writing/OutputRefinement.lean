import Bitstream.Writing.Appending
import Bitstream.Writing.Sink

/-!
# The writer refines the sink

A run of bit-level calls of one order shows, after every call, what the sink shows of its bits.
While the writer is `Live`, the bytes written and the cached bits are those of the sink. Once a
complete byte did not fit it is `Full`: the buffer holds the beginning of the bits, nothing is
written any more, and what the cache then holds no longer matters, whatever shifts by 64 or more
yield.
-/

set_option autoImplicit false
set_option relaxedAutoImplicit false

namespace Bitstream.Writing

open Foundation Header

variable {order : BitOrder} {initial : List (BitVec 8)} {bs after : BsWriter}
  {bits more : List Bool}

/-- The writer works in a buffer with some initial content, which is still there behind the bytes
written. -/
structure WritesInto (initial : List (BitVec 8)) (bs : BsWriter) : Prop extends WriterInv bs where
  capacity_eq : bs.size = initial.length
  tail_eq : bs.buffer.drop bs.bytePos = initial.drop bs.bytePos

/-- No complete byte is missing: what the writer holds is the bits of the sink. -/
structure Live (order : BitOrder) (bs : BsWriter) (bits : List Bool) : Prop where
  overflow_eq : bs.overflow = false
  bits_lt : bs.bitsInCache < 8
  clean : Clean bs
  content_eq : content order bs = bits

/-- A complete byte did not fit: the buffer is full of the first bits of the sink. -/
structure Full (order : BitOrder) (bs : BsWriter) (bits : List Bool) : Prop where
  overflow_eq : bs.overflow = true
  bytePos_eq : bs.bytePos = bs.size
  prefix_bits : stream order bs.buffer <+: bits
  more_bits : 8 * bs.size + 8 ≤ bits.length

/-- The writer and the sink after the same calls. -/
structure Emitted (order : BitOrder) (initial : List (BitVec 8)) (bs : BsWriter)
    (bits : List Bool) : Prop extends WritesInto initial bs where
  live_or_full : Live order bs bits ∨ Full order bs bits

theorem live_init (order : BitOrder) (initial : List (BitVec 8)) :
    Live order (bsWriterInit initial initial.length) [] where
  overflow_eq := rfl
  bits_lt := Nat.zero_lt_succ 7
  clean := Nat.zero_lt_one
  content_eq := by simp [content, bsWriterInit]

theorem writesInto_init (initial : List (BitVec 8)) :
    WritesInto initial (bsWriterInit initial initial.length) where
  toWriterInv := writerInv_init initial
  capacity_eq := rfl
  tail_eq := rfl

/-- Bytes written into the buffer leave the initial content behind them. -/
theorem WritesInto.appends {field : List Bool} (h : WritesInto initial bs)
    (happends : Appends order field bs after) : WritesInto initial after where
  toWriterInv := happends.inv h.toWriterInv
  capacity_eq := happends.size_eq.trans h.capacity_eq
  tail_eq := by
    have hle := happends.bytePos_le
    have htail := congrArg (List.drop (after.bytePos - bs.bytePos)) h.tail_eq
    rw [List.drop_drop, List.drop_drop, Nat.add_sub_cancel' hle] at htail
    exact happends.rest_eq.trans htail

theorem Live.length_eq (h : Live order bs bits) (hinv : WriterInv bs) :
    bits.length = 8 * bs.bytePos + bs.bitsInCache := by
  rw [← h.content_eq, length_content hinv.toFits]

/-- A live writer that appends a field stays live until a complete byte does not fit. -/
theorem Live.appends {field : List Bool} (h : Live order bs bits) (hinv : WriterInv bs)
    (hfield : field.length ≤ 32) (happends : Appends order field bs after) :
    Live order after (bits ++ field) ∨ Full order after (bits ++ field) := by
  have hlt := h.bits_lt
  have hfew : bs.bitsInCache + field.length < 64 := by omega
  have hcontent : content order after = bits ++ field := by
    rw [happends.content_eq h.clean hfew, h.content_eq]
  have hafter := happends.inv hinv
  have hoverflow := happends.overflow_eq
  rw [h.overflow_eq, Bool.false_or] at hoverflow
  by_cases hbyte : 8 ≤ after.bitsInCache
  · obtain ⟨hfull, hflag⟩ := hafter.bytePos_eq hbyte
    have hall : after.buffer.take after.bytePos = after.buffer := by
      rw [hfull, hafter.size_eq, List.take_length]
    refine .inr ⟨hflag, hfull, ?_, ?_⟩
    · rw [← hcontent, content, hall]
      exact List.prefix_append _ _
    · rw [← hcontent, length_content hafter.toFits, hfull]
      omega
  · refine .inl ⟨?_, by omega, happends.clean h.clean hfew, hcontent⟩
    rw [hoverflow, decide_eq_false hbyte]

/-- A full writer stays full. -/
theorem Full.appends {field : List Bool} (h : Full order bs bits) (hinv : WriterInv bs)
    (happends : Appends order field bs after) (hmore : bits <+: more) : Full order after more := by
  have hsize := happends.size_eq
  have hpos : after.bytePos = after.size := by
    have hfull := h.bytePos_eq
    have hle := happends.bytePos_le
    have hroom := (happends.inv hinv).bytePos_le
    omega
  refine ⟨?_, hpos, ?_, ?_⟩
  · rw [happends.overflow_eq, h.overflow_eq, Bool.true_or]
  · rw [happends.buffer_eq (by rw [hpos, hsize, h.bytePos_eq])]
    exact h.prefix_bits.trans hmore
  · rw [hsize]
    exact h.more_bits.trans hmore.length_le

/-- The bits of the sink grow by the field that the writer appends. -/
theorem emit_eq_append {call : WriterCall} (hcall : BitCall order call) {count : ℕ}
    (hcount : count < 8) (hlength : bits.length % 8 = count) :
    (emit order call bits).2 = bits ++ appendedField order count call := by
  have hpadding : padding 8 bits.length = padding 8 count := by
    rw [padding, padding, hlength, Nat.mod_eq_of_lt hcount]
  cases call with
  | writeBit | writeBits | writeBitsUnchecked => rfl
  | align => rw [emit, padded, appendedField, hpadding]
  | flush => rw [emit, padded, appendedField, if_neg (by omega), hpadding]
  | writeBytes => exact hcall.elim

/-- One call on the writer and on the sink, with any content in the buffer. -/
theorem live_or_full_step (sizeT : SizeT) {issued : Overshift × WriterCall} (hinv : WriterInv bs)
    (h : Live order bs bits ∨ Full order bs bits) (hcall : BitCall order issued.2) :
    Live order (writerAct sizeT issued bs).2 (emit order issued.2 bits).2 ∨
      Full order (writerAct sizeT issued bs).2 (emit order issued.2 bits).2 := by
  have happends := writerAct_appends sizeT hcall hinv
  rcases h with hlive | hfull
  · have hlength := hlive.length_eq hinv
    have hlt := hlive.bits_lt
    rw [emit_eq_append hcall hlt (by omega)]
    exact hlive.appends hinv (length_appendedField_le hcall _) happends
  · exact .inr (hfull.appends hinv happends (prefix_emit order issued.2 bits))

/-- A run of calls on the writer and on the sink, with any content in the buffer. -/
theorem live_or_full_run (sizeT : SizeT) (hinv : WriterInv bs)
    (h : Live order bs bits ∨ Full order bs bits) {issued : List (Overshift × WriterCall)}
    (hcalls : ∀ call ∈ issued, BitCall order call.2) :
    WriterInv (final (writerAct sizeT) issued bs) ∧
      (Live order (final (writerAct sizeT) issued bs)
          (final (emit order) (issued.map Prod.snd) bits) ∨
        Full order (final (writerAct sizeT) issued bs)
          (final (emit order) (issued.map Prod.snd) bits)) := by
  have halong : Along (writerAct sizeT) (fun call _ ↦ BitCall order call.2) issued bs :=
    .of_calls hcalls _
  refine final_related (R := fun s t ↦ WriterInv s ∧ (Live order s t ∨ Full order s t)) Prod.snd
    (fun call s t hrel hcall ↦ ?_) halong ⟨hinv, h⟩
  have hnext := live_or_full_step sizeT hrel.1 hrel.2 hcall
  exact ⟨(writerAct_appends sizeT hcall hrel.1).inv hrel.1, hnext⟩

/-- One call on the writer and on the sink. -/
theorem Emitted.step (sizeT : SizeT) (h : Emitted order initial bs bits)
    {issued : Overshift × WriterCall} (hcall : BitCall order issued.2) :
    Emitted order initial (writerAct sizeT issued bs).2 (emit order issued.2 bits).2 where
  toWritesInto := h.toWritesInto.appends (writerAct_appends sizeT hcall h.toWriterInv)
  live_or_full := live_or_full_step sizeT h.toWriterInv h.live_or_full hcall

/-- What the writer shows is what the sink shows. -/
theorem Emitted.output_eq (h : Emitted order initial bs bits) :
    writerOutput bs = sinkOutput order initial bits := by
  have hle := h.bytePos_le
  have hsize := h.size_eq
  have hcapacity := h.capacity_eq
  rcases h.live_or_full with hlive | hfull
  · have hlength : (bs.buffer.take bs.bytePos).length = bs.bytePos := by
      rw [List.length_take, Nat.min_eq_left (by omega)]
    have hlt := hlive.bits_lt
    rw [← hlive.content_eq, content, sinkOutput_of_le order (by omega) (by rwa [length_queued]),
      hlength, ← h.tail_eq, List.take_append_drop, ← hlive.overflow_eq]
    rfl
  · have hmore := hfull.more_bits
    rw [sinkOutput_of_lt order (by omega) hfull.prefix_bits (by omega), ← hcapacity,
      ← hfull.bytePos_eq, ← hfull.overflow_eq]
    rfl

theorem emitted_init (order : BitOrder) (initial : List (BitVec 8)) :
    Emitted order initial (bsWriterInit initial initial.length) [] where
  toWritesInto := writesInto_init initial
  live_or_full := .inl (live_init order initial)

/-- At the end of any run of the bit-level calls of one order, the writer shows what the sink
shows. -/
theorem final_refines_sink (sizeT : SizeT) (order : BitOrder) (initial : List (BitVec 8))
    {issued : List (Overshift × WriterCall)} (hcalls : ∀ call ∈ issued, BitCall order call.2) :
    writerOutput (final (writerAct sizeT) issued (bsWriterInit initial initial.length)) =
      sinkOutput order initial (final (emit order) (issued.map Prod.snd) []) := by
  have halong : Along (writerAct sizeT) (fun call _ ↦ BitCall order call.2) issued
      (bsWriterInit initial initial.length) :=
    .of_calls hcalls _
  have hend := final_related (R := Emitted order initial) Prod.snd
    (fun call s bits h hcall ↦ h.step sizeT hcall) halong (emitted_init order initial)
  exact hend.output_eq

/-- After every call of such a run, the writer shows what the sink shows. -/
theorem trace_refines_sink (sizeT : SizeT) (order : BitOrder) (initial : List (BitVec 8))
    {issued : List (Overshift × WriterCall)} (hcalls : ∀ call ∈ issued, BitCall order call.2) :
    (trace (writerAct sizeT) issued (bsWriterInit initial initial.length)).map
        (fun entry ↦ writerOutput entry.2) =
      (trace (emit order) (issued.map Prod.snd) []).map
        (fun entry ↦ sinkOutput order initial entry.2) := by
  have halong : Along (writerAct sizeT) (fun call _ ↦ BitCall order call.2) issued
      (bsWriterInit initial initial.length) :=
    .of_calls hcalls _
  refine map_trace_eq Prod.snd (fun call s bits h hcall ↦ ?_) halong (emitted_init order initial)
  have hnext := h.step sizeT hcall
  exact ⟨hnext.output_eq, hnext⟩

/-- The output of the most significant first writer is exact for every capacity, after every call:
the complete bytes of the ideal bits as far as they fit, each byte's bit 7 first, the initial
content behind them, and overflow exactly when a complete byte did not fit. Assumes: the calls are
`bs_write_bit`, `bs_write_bits` with widths of at most 32, `bs_writer_align` and
`bs_writer_flush`. -/
theorem msb_writer_refines_sink (sizeT : SizeT) (initial : List (BitVec 8))
    (issued : List (Overshift × WriterCall)) (hcalls : ∀ call ∈ issued, BitCall .msb call.2) :
    (trace (writerAct sizeT) issued (bsWriterInit initial initial.length)).map
        (fun entry ↦ writerOutput entry.2) =
      (trace (emit .msb) (issued.map Prod.snd) []).map
        (fun entry ↦ sinkOutput .msb initial entry.2) :=
  trace_refines_sink sizeT .msb initial hcalls

/-- A run that fills one byte inside a field, and goes on. -/
theorem msb_writer_refines_sink_one_byte :
    (trace (writerAct sizeT64)
        ([.writeBits .msb 5 3, .writeBits .msb 0xABC 12, .align .msb, .writeBit 1, .flush .msb,
          .writeBits .msb 0xFFFFFFFF 32, .writeBits .msb 7 32].map (Prod.mk Overshift.masked))
        (bsWriterInit [0x55] 1)).map (fun entry ↦ writerOutput entry.2) =
      (trace (emit .msb)
        (([.writeBits .msb 5 3, .writeBits .msb 0xABC 12, .align .msb, .writeBit 1, .flush .msb,
          .writeBits .msb 0xFFFFFFFF 32, .writeBits .msb 7 32].map
            (Prod.mk Overshift.masked)).map Prod.snd) []).map
        (fun entry ↦ sinkOutput .msb [0x55] entry.2) :=
  msb_writer_refines_sink sizeT64 [0x55] _ (by decide)

/-- The output of the least significant first writer is exact for every capacity, after every call:
the complete bytes of the ideal bits as far as they fit, each byte's bit 0 first, the initial
content behind them, and overflow exactly when a complete byte did not fit. Assumes: the calls are
`bs_write_bits_lsb` with widths of at most 32, `bs_writer_align_lsb` and `bs_writer_flush_lsb`. -/
theorem lsb_writer_refines_sink (sizeT : SizeT) (initial : List (BitVec 8))
    (issued : List (Overshift × WriterCall)) (hcalls : ∀ call ∈ issued, BitCall .lsb call.2) :
    (trace (writerAct sizeT) issued (bsWriterInit initial initial.length)).map
        (fun entry ↦ writerOutput entry.2) =
      (trace (emit .lsb) (issued.map Prod.snd) []).map
        (fun entry ↦ sinkOutput .lsb initial entry.2) :=
  trace_refines_sink sizeT .lsb initial hcalls

/-- The same in the other order, with a cache offset beyond 64. -/
theorem lsb_writer_refines_sink_one_byte :
    (trace (writerAct sizeT64)
        ([.writeBits .lsb 5 3, .writeBits .lsb 0xABC 12, .align .lsb, .flush .lsb,
          .writeBits .lsb 0xFFFFFFFF 32, .writeBits .lsb 7 32, .writeBits .lsb 7 32].map
            (Prod.mk Overshift.masked))
        (bsWriterInit [0x55] 1)).map (fun entry ↦ writerOutput entry.2) =
      (trace (emit .lsb)
        (([.writeBits .lsb 5 3, .writeBits .lsb 0xABC 12, .align .lsb, .flush .lsb,
          .writeBits .lsb 0xFFFFFFFF 32, .writeBits .lsb 7 32, .writeBits .lsb 7 32].map
            (Prod.mk Overshift.masked)).map Prod.snd) []).map
        (fun entry ↦ sinkOutput .lsb [0x55] entry.2) :=
  lsb_writer_refines_sink sizeT64 [0x55] _ (by decide)

end Bitstream.Writing
