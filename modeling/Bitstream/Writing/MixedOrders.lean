import Bitstream.Writing.BulkWriting

/-!
# A writer of both orders

What a writer is for when a format mixes the two bit orders and whole blocks: a bounded list of
bytes and the bits of an incomplete one. A `ByteSink` completes a byte in the order its bits were
written in, takes a block only between two bytes, and keeps no cache. `ByteSink.closed` and
`ByteSink.overflow` are two things: a block that does not fit raises overflow and loses nothing, so
bits written after it are still taken, while a byte that does not fit closes the sink.

`writer_refines_byteSink`: along every run in which the order changes only between two bytes
(`InTurn`), refused blocks and overflow included, the writer answers and shows what the sink does.
-/

set_option autoImplicit false
set_option relaxedAutoImplicit false

namespace Bitstream.Writing

open Foundation Header

/-- The complete bytes written, and the bits of the incomplete one. -/
structure ByteSink where
  bytes : List (BitVec 8)
  /-- The order that the pending bits were written in. -/
  order : BitOrder
  pending : List Bool
  pending_lt : pending.length < 8
  /-- A block or a byte did not fit. -/
  overflow : Bool
  /-- A byte did not fit. -/
  closed : Bool

namespace ByteSink

/-- The sink before the first call. -/
def empty : ByteSink where
  bytes := []
  order := .msb
  pending := []
  pending_lt := by simp
  overflow := false
  closed := false

theorem length_incomplete_lt (bits : List Bool) :
    (bits.drop (8 * (bits.length / 8))).length < 8 := by
  rw [List.length_drop]
  omega

/-- Bits join the pending ones. The bytes they complete are written as far as the capacity allows;
when one of them does not fit the sink closes, and a closed sink takes nothing. -/
def append (capacity : ℕ) (order : BitOrder) (field : List Bool) (sink : ByteSink) : ByteSink :=
  let bits := sink.pending ++ field
  let bytes := sink.bytes ++ packWords 8 order bits
  if sink.closed then sink
  else if bytes.length ≤ capacity then
    { sink with
      bytes := bytes
      order := order
      pending := bits.drop (8 * (bits.length / 8))
      pending_lt := length_incomplete_lt bits }
  else
    { bytes := bytes.take capacity
      order := order
      pending := []
      pending_lt := by simp
      overflow := true
      closed := true }

/-- The bits that a call appends. -/
def field (sink : ByteSink) (order : BitOrder) : WriterCall → List Bool
  | .writeBit value => fieldBits order 1 value.toNat
  | .writeBits _ value n | .writeBitsUnchecked _ value n => fieldBits order n value.toNat
  | .align _ | .flush _ => List.replicate (padding 8 sink.pending.length) false
  | .writeBytes _ => []

/-- A block is taken between two bytes, unless overflow is up. -/
def appendBlock (capacity : ℕ) (src : List (BitVec 8)) (sink : ByteSink) :
    WriterReply × ByteSink :=
  if sink.pending ≠ [] ∨ sink.overflow then (some false, sink)
  else if sink.bytes.length + src.length ≤ capacity then
    (some true, { sink with bytes := sink.bytes ++ src })
  else (some false, { sink with overflow := true })

/-- One call. -/
def step (capacity : ℕ) (call : WriterCall) (sink : ByteSink) : WriterReply × ByteSink :=
  match call with
  | .writeBit _ => (none, sink.append capacity .msb (sink.field .msb call))
  | .writeBits order _ _ | .writeBitsUnchecked order _ _ | .align order | .flush order =>
    (none, sink.append capacity order (sink.field order call))
  | .writeBytes src => sink.appendBlock capacity src

/-- The bytes written, the buffer and the overflow flag that a sink leads to, in a buffer with some
initial content. -/
def output (initial : List (BitVec 8)) (sink : ByteSink) : ℕ × List (BitVec 8) × Bool :=
  (sink.bytes.length, sink.bytes ++ initial.drop sink.bytes.length, sink.overflow)

/-- The order of a call that writes bits. -/
def callOrder : WriterCall → Option BitOrder
  | .writeBit _ => some .msb
  | .writeBits order _ _ | .writeBitsUnchecked order _ _ | .align order | .flush order => some order
  | .writeBytes _ => none

/-- A checked call, of widths of at most 32, that changes the order only between two bytes; a closed
sink takes nothing in any order. -/
def InTurn (call : WriterCall) (sink : ByteSink) : Prop :=
  Operation call ∧ (sink.closed = true ∨ sink.pending = [] ∨
    callOrder call = none ∨ callOrder call = some sink.order)

instance (call : WriterCall) (sink : ByteSink) : Decidable (InTurn call sink) :=
  inferInstanceAs (Decidable (_ ∧ (_ ∨ _ ∨ _ ∨ _)))

/-- A call that writes bits appends them in its order. -/
theorem step_of_callOrder {call : WriterCall} {order : BitOrder} (h : callOrder call = some order)
    (capacity : ℕ) (sink : ByteSink) :
    step capacity call sink = (none, sink.append capacity order (sink.field order call)) := by
  cases call with
  | writeBytes => exact nomatch h
  | writeBit | writeBits | writeBitsUnchecked | align | flush =>
    obtain rfl := Option.some.inj h
    rfl

end ByteSink

theorem BitCall.callOrder_eq {order : BitOrder} {call : WriterCall} (h : BitCall order call) :
    ByteSink.callOrder call = some order := by
  cases call with
  | writeBit => exact congrArg some h.symm
  | writeBits => exact congrArg some h.1
  | align | flush => exact congrArg some h
  | writeBitsUnchecked | writeBytes => exact h.elim

/-- A bit-level call answers nothing. -/
theorem BitCall.reply_eq {order : BitOrder} {issued : Overshift × WriterCall}
    (h : BitCall order issued.2) (sizeT : SizeT) (bs : BsWriter) :
    (writerAct sizeT issued bs).1 = none := by
  obtain ⟨mode, call⟩ := issued
  cases call with
  | writeBit => rfl
  | writeBits o | align o | flush o => cases o <;> rfl
  | writeBitsUnchecked | writeBytes => exact h.elim

/-! ### The writer of a sink -/

variable {order : BitOrder} {initial : List (BitVec 8)} {bs after : BsWriter} {sink : ByteSink}

/-- The cache holds the bits of an incomplete byte and nothing else. -/
structure Pends (order : BitOrder) (bs : BsWriter) (pending : List Bool) : Prop where
  bits_lt : bs.bitsInCache < 8
  clean : Clean bs
  queued_eq : queued order bs.bitsInCache bs.bitCache = pending

/-- The writer and the sink after the same calls. While no byte is lost, the cache holds the pending
bits; behind a lost byte the buffer is full and the cache no longer matters. -/
structure Represents (initial : List (BitVec 8)) (bs : BsWriter) (sink : ByteSink) : Prop
    extends WritesInto initial bs where
  bytes_eq : bs.buffer.take bs.bytePos = sink.bytes
  overflow_eq : bs.overflow = sink.overflow
  pends : sink.closed = false → Pends sink.order bs sink.pending
  full : sink.closed = true → bs.bytePos = bs.size ∧ bs.overflow = true

theorem represents_init (initial : List (BitVec 8)) :
    Represents initial (bsWriterInit initial initial.length) .empty where
  toWritesInto := writesInto_init initial
  bytes_eq := rfl
  overflow_eq := rfl
  pends := fun _ ↦ ⟨Nat.zero_lt_succ 7, Nat.zero_lt_one, queued_zero _ _⟩
  full := fun hclosed ↦ nomatch hclosed

theorem Pends.length_eq {pending : List Bool} (h : Pends order bs pending) :
    pending.length = bs.bitsInCache := by
  rw [← h.queued_eq, length_queued]

/-- Between two bytes no bit is pending in either order. -/
theorem Pends.in_turn {pending : List Bool} {last : BitOrder} (h : Pends last bs pending)
    (hturn : pending = [] ∨ last = order) : Pends order bs pending := by
  rcases hturn with rfl | rfl
  · have hbits : 0 = bs.bitsInCache := h.length_eq
    exact ⟨h.bits_lt, h.clean, by rw [← hbits, queued_zero]⟩
  · exact h

/-- What the writer appends is what the sink does. -/
theorem Pends.field_eq (h : Pends sink.order bs sink.pending) (order : BitOrder)
    (call : WriterCall) :
    appendedField order bs.bitsInCache call = sink.field order call := by
  have hlt := h.bits_lt
  have hlength := h.length_eq
  cases call with
  | flush => rw [appendedField, if_neg (by omega), ByteSink.field, hlength]
  | align => rw [appendedField, ByteSink.field, hlength]
  | writeBit | writeBits | writeBitsUnchecked | writeBytes => rfl

namespace Represents

theorem length_bytes (h : Represents initial bs sink) : sink.bytes.length = bs.bytePos := by
  have hle := h.bytePos_le
  have hsize := h.size_eq
  rw [← h.bytes_eq, List.length_take, Nat.min_eq_left (by omega)]

/-- The writer shows what the sink shows. -/
theorem output_eq (h : Represents initial bs sink) :
    writerOutput bs = sink.output initial := by
  rw [ByteSink.output, h.length_bytes, ← h.tail_eq, ← h.bytes_eq, List.take_append_drop,
    ← h.overflow_eq]
  rfl

/-- Behind a lost byte nothing changes. -/
theorem append_of_closed {field other : List Bool} (h : Represents initial bs sink)
    (hclosed : sink.closed = true) (happends : Appends order field bs after) :
    Represents initial after (sink.append initial.length order other) := by
  obtain ⟨hpos, hflag⟩ := h.full hclosed
  have hinto := h.toWritesInto.appends happends
  have hsize := happends.size_eq
  have hle := happends.bytePos_le
  have hroom := hinto.bytePos_le
  have hsame : after.bytePos = bs.bytePos := by omega
  have hraised := happends.overflow_of hflag
  rw [ByteSink.append, if_pos hclosed]
  refine ⟨hinto, ?_, ?_, fun hopen ↦ ?_, fun _ ↦ ⟨by omega, hraised⟩⟩
  · rw [hsame, happends.buffer_eq hsame, h.bytes_eq]
  · rw [hraised, ← h.overflow_eq, hflag]
  · exact absurd (hopen.symm.trans hclosed) Bool.false_ne_true

/-- Bits that join the pending ones complete the same bytes in the writer and in the sink. -/
theorem append_of_open {field : List Bool} (h : Represents initial bs sink)
    (hopen : sink.closed = false) (hturn : sink.pending = [] ∨ sink.order = order)
    (hfield : field.length ≤ 32) (happends : Appends order field bs after) :
    Represents initial after (sink.append initial.length order field) := by
  have hpends := (h.pends hopen).in_turn hturn
  have hbits := hpends.bits_lt
  have hinto := h.toWritesInto.appends happends
  have hcapacity := hinto.capacity_eq
  have hsize := hinto.size_eq
  have hle := hinto.bytePos_le
  have hfew : bs.bitsInCache + field.length < 64 := by omega
  have hoverflow := happends.overflow_eq
  have hcontent : stream order (after.buffer.take after.bytePos) ++
      queued order after.bitsInCache after.bitCache =
        stream order sink.bytes ++ (sink.pending ++ field) := by
    have hafter := happends.content_eq hpends.clean hfew
    rw [content, content, h.bytes_eq, hpends.queued_eq] at hafter
    rw [hafter, List.append_assoc]
  have hwritten : (after.buffer.take after.bytePos).length = after.bytePos := by
    rw [List.length_take]
    omega
  rw [ByteSink.append, if_neg (by rw [hopen]; exact Bool.false_ne_true)]
  by_cases hlt : after.bitsInCache < 8
  · obtain ⟨hbytes, hpending⟩ := packWords_append order (by rwa [length_queued]) hcontent
    have hfit : (sink.bytes ++ packWords 8 order (sink.pending ++ field)).length ≤
        initial.length := by
      rw [← hbytes, hwritten]
      omega
    rw [if_pos hfit]
    refine ⟨hinto, hbytes, ?_, fun _ ↦ ⟨hlt, happends.clean hpends.clean hfew, hpending⟩, ?_⟩
    · rw [hoverflow, h.overflow_eq, decide_eq_false (by omega), Bool.or_false]
    · intro hclosed
      exact absurd (hopen.symm.trans hclosed) Bool.false_ne_true
  · obtain ⟨hfull, hflag⟩ := hinto.bytePos_eq (by omega)
    have hwhole : after.buffer.take after.bytePos = after.buffer :=
      List.take_of_length_le (by omega)
    -- The bytes in the buffer are the first of those that the bits complete.
    have hbytes : after.buffer =
        (sink.bytes ++ packWords 8 order (sink.pending ++ field)).take initial.length := by
      have hfirst := eq_take_packWords order (by norm_num) hcontent
      rwa [hwritten, hwhole, hfull, hcapacity] at hfirst
    have hmore : ¬ (sink.bytes ++ packWords 8 order (sink.pending ++ field)).length ≤
        initial.length := by
      have hlength := congrArg List.length hcontent
      simp only [List.length_append, length_stream, length_queued, hwritten] at hlength
      rw [List.length_append, length_packWords, List.length_append]
      omega
    rw [if_neg hmore]
    exact ⟨hinto, hwhole.trans hbytes, hflag,
      fun hclosed ↦ absurd hclosed.symm Bool.false_ne_true, fun _ ↦ ⟨hfull, hflag⟩⟩

/-- A writer between two bytes without overflow is that of an open sink with nothing pending. -/
theorem of_aligned (h : Represents initial bs sink) (haligned : bs.bitsInCache = 0)
    (hopen : bs.overflow = false) :
    sink.closed = false ∧ sink.pending = [] ∧ sink.overflow = false := by
  have hclosed : sink.closed = false := by
    by_contra hclosed
    have hflag := (h.full (Bool.not_eq_false _ ▸ hclosed)).2
    exact Bool.false_ne_true (hopen.symm.trans hflag)
  refine ⟨hclosed, List.eq_nil_of_length_eq_zero ?_, h.overflow_eq.symm.trans hopen⟩
  rw [(h.pends hclosed).length_eq, haligned]

/-- A block is answered alike. -/
theorem appendBlock {src : List (BitVec 8)} {written : Bool × BsWriter}
    (h : Represents initial bs sink) (hwrite : BlockWrite bs src written) :
    some written.1 = (sink.appendBlock initial.length src).1 ∧
      Represents initial written.2 (sink.appendBlock initial.length src).2 := by
  have hlength := h.length_bytes
  have hcapacity := h.capacity_eq
  have hsize := h.size_eq
  have hle := h.bytePos_le
  have hinv := hwrite.inv h.toWriterInv
  unfold ByteSink.appendBlock
  cases hwrite with
  | rejected hbusy =>
    have hrejected : sink.pending ≠ [] ∨ sink.overflow = true := by
      cases hclosed : sink.closed with
      | true => exact .inr (h.overflow_eq.symm.trans (h.full hclosed).2)
      | false =>
        refine hbusy.imp (fun hbits hnone ↦ hbits ?_) h.overflow_eq.symm.trans
        rw [← (h.pends hclosed).length_eq, hnone, List.length_nil]
    rw [if_pos hrejected]
    exact ⟨rfl, h⟩
  | refused haligned hopen hlong =>
    obtain ⟨hclosed, hnone, hflag⟩ := h.of_aligned haligned hopen
    rw [if_neg (by simp [hnone, hflag]), if_neg (by omega)]
    have hpends := h.pends hclosed
    exact ⟨rfl, ⟨hinv, hcapacity, h.tail_eq⟩, h.bytes_eq, rfl,
      fun _ ↦ ⟨hpends.bits_lt, hpends.clean, hpends.queued_eq⟩,
      fun hfull ↦ absurd (hclosed.symm.trans hfull) Bool.false_ne_true⟩
  | stored haligned hopen hfit =>
    obtain ⟨hclosed, hnone, hflag⟩ := h.of_aligned haligned hopen
    rw [if_neg (by simp [hnone, hflag]), if_pos (by omega)]
    have hpends := h.pends hclosed
    have hblock : (bs.buffer.take bs.bytePos ++ src).length = bs.bytePos + src.length := by
      rw [List.length_append, List.length_take]
      omega
    have htail := congrArg (List.drop src.length) h.tail_eq
    rw [List.drop_drop, List.drop_drop] at htail
    refine ⟨rfl, ⟨hinv, hcapacity, ?_⟩, ?_, h.overflow_eq,
      fun _ ↦ ⟨hpends.bits_lt, hpends.clean, hpends.queued_eq⟩,
      fun hfull ↦ absurd (hclosed.symm.trans hfull) Bool.false_ne_true⟩
    · exact (List.drop_left' hblock).trans htail
    · exact (List.take_left' hblock).trans (congrArg (· ++ src) h.bytes_eq)

/-- The step lemma: a call in turn is answered alike, and leads to the same state. -/
theorem step (sizeT : SizeT) (issued : Overshift × WriterCall) (h : Represents initial bs sink)
    (hturn : ByteSink.InTurn issued.2 sink) :
    (writerAct sizeT issued bs).1 = (ByteSink.step initial.length issued.2 sink).1 ∧
      Represents initial (writerAct sizeT issued bs).2
        (ByteSink.step initial.length issued.2 sink).2 := by
  obtain ⟨hoperation, hturn⟩ := hturn
  rcases hoperation.bit_or_block with ⟨order, hbit⟩ | ⟨src, hblock⟩
  · have horder := hbit.callOrder_eq
    have happends := writerAct_appends sizeT hbit h.toWriterInv
    rw [horder] at hturn
    rw [ByteSink.step_of_callOrder horder, hbit.reply_eq]
    refine ⟨rfl, ?_⟩
    cases hclosed : sink.closed with
    | true => exact h.append_of_closed hclosed happends
    | false =>
      have hpends := h.pends hclosed
      rw [hpends.field_eq order issued.2] at happends
      have hfield := length_appendedField_le hbit bs.bitsInCache
      rw [hpends.field_eq order issued.2] at hfield
      refine h.append_of_open hclosed ?_ hfield happends
      simpa [hclosed, eq_comm] using hturn
  · obtain ⟨mode, call⟩ := issued
    cases hblock
    exact h.appendBlock (bsWriteBytes_ensures mode sizeT h.toFits src).post

end Represents

/-- A writer used in both orders, for every capacity, after every call: each `bs_write_bytes` is
answered as the sink answers it, and the bytes written, the buffer and the overflow flag are those
of the sink. Assumes: the calls are `bs_write_bit`, writes of both orders with widths of at most 32,
aligns, flushes and bulk writes, and the order changes only while no bit is pending, or after a byte
has been lost. -/
theorem writer_refines_byteSink (sizeT : SizeT) (initial : List (BitVec 8))
    (issued : List (Overshift × WriterCall))
    (hturn : Along (ByteSink.step initial.length) ByteSink.InTurn (issued.map Prod.snd)
      ByteSink.empty) :
    (trace (writerAct sizeT) issued (bsWriterInit initial initial.length)).map
        (fun entry ↦ (entry.1, writerOutput entry.2)) =
      (trace (ByteSink.step initial.length) (issued.map Prod.snd) .empty).map
        (fun entry ↦ (entry.1, entry.2.output initial)) := by
  refine map_trace_eq_of_along Prod.snd (fun call bs sink h hcall ↦ ?_) hturn
    (represents_init initial)
  obtain ⟨hreply, hnext⟩ := h.step sizeT call hcall
  exact ⟨Prod.ext hreply hnext.output_eq, hnext⟩

/-- A run that changes the order behind an align, has a block refused, goes on writing into the room
left, and loses a byte. -/
theorem writer_refines_byteSink_four_bytes :
    (trace (writerAct sizeT64)
        ([.writeBits .msb 5 3, .align .msb, .writeBits .lsb 9 4, .flush .lsb, .writeBytes [1, 2, 3],
          .writeBits .msb 0xABC 12, .writeBits .msb 0xFFFF 16, .writeBits .lsb 1 5,
          .writeBytes []].map (Prod.mk Overshift.masked))
        (bsWriterInit [0, 0, 0, 0x77] 4)).map (fun entry ↦ (entry.1, writerOutput entry.2)) =
      (trace (ByteSink.step 4)
        (([.writeBits .msb 5 3, .align .msb, .writeBits .lsb 9 4, .flush .lsb,
          .writeBytes [1, 2, 3], .writeBits .msb 0xABC 12, .writeBits .msb 0xFFFF 16,
          .writeBits .lsb 1 5, .writeBytes []].map
            (Prod.mk Overshift.masked)).map Prod.snd) .empty).map
        (fun entry ↦ (entry.1, entry.2.output [0, 0, 0, 0x77])) :=
  writer_refines_byteSink sizeT64 [0, 0, 0, 0x77] _ (by decide)

end Bitstream.Writing
