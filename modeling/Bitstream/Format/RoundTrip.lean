import Bitstream.Format.Script
import Bitstream.Reading.CursorRefinement
import Bitstream.Writing.OutputRefinement

/-!
# Scripts round trip

A writer that runs a script without overflow has written exactly the bytes of the script
(`body_written`, `segment_written`), and a reader over these bytes that runs the mirrored calls gets
the script back (`body_read`, `segment_read`). Between two segments both sides stand at a byte: the
cache of the writer is empty and clean (`AtByte`), and the reader has just dropped its cache, so it
tracks the cursor in both bit orders, and the next segment may use either.
-/

set_option autoImplicit false
set_option relaxedAutoImplicit false

namespace Bitstream.Format

open Foundation Header Reading Writing

variable {order : BitOrder} {bytes : List (BitVec 8)}

/-! ### Writing a script -/

/-- The writer stands behind a byte, and nothing has overflowed. -/
structure AtByte (bs : BsWriter) (bytes : List (BitVec 8)) : Prop extends WriterInv bs where
  overflow_eq : bs.overflow = false
  bits_eq : bs.bitsInCache = 0
  clean : Clean bs
  bytes_eq : bs.buffer.take bs.bytePos = bytes

theorem atByte_init (initial : List (BitVec 8)) :
    AtByte (bsWriterInit initial initial.length) [] where
  toWriterInv := writerInv_init initial
  overflow_eq := rfl
  bits_eq := rfl
  clean := Nat.zero_lt_one
  bytes_eq := rfl

/-- At a byte, a writer is live in both orders. -/
theorem AtByte.live {bs : BsWriter} (h : AtByte bs bytes) (order : BitOrder) :
    Live order bs (stream order bytes) where
  overflow_eq := h.overflow_eq
  bits_lt := by
    rw [h.bits_eq]
    norm_num
  clean := h.clean
  content_eq := by rw [content, h.bits_eq, queued_zero, List.append_nil, h.bytes_eq]

/-- A live writer that holds whole bytes stands at a byte. -/
theorem atByte_of_live {bs : BsWriter} (h : Live order bs (stream order bytes))
    (hinv : WriterInv bs) : AtByte bs bytes := by
  have hlength := h.length_eq hinv
  have hlt := h.bits_lt
  rw [length_stream] at hlength
  have hbits : bs.bitsInCache = 0 := by omega
  refine ⟨hinv, h.overflow_eq, hbits, h.clean, stream_injective order (by norm_num) ?_⟩
  have hcontent := h.content_eq
  rwa [content, hbits, queued_zero, List.append_nil] at hcontent

/-- The call that completes a segment. -/
def Closes (segment : Segment) (call : WriterCall) : Prop :=
  call = .align segment.order ∨ call = .flush segment.order

theorem segment_writerCall (segment : Segment) {close : WriterCall}
    (hclose : Closes segment close) :
    ∀ call ∈ segment.writerCalls ++ [close], Writing.BitCall segment.order call := by
  intro call hcall
  rcases List.mem_append.mp hcall with hitem | hend
  · obtain ⟨item, _, rfl⟩ := List.mem_map.mp hitem
    cases item with
    | field value width => exact ⟨rfl, Nat.le_of_lt_succ width.isLt⟩
    | align => exact rfl
  · obtain rfl := List.mem_singleton.mp hend
    rcases hclose with rfl | rfl <;> exact rfl

/-- A closed segment on a writer at a byte: what is written is live, unless the writer is full. -/
theorem segment_run (sizeT : SizeT) (segment : Segment) {close : WriterCall}
    (hclose : Closes segment close) {bs : BsWriter} (h : AtByte bs bytes)
    {issued : List (Overshift × WriterCall)}
    (hissued : issued.map Prod.snd = segment.writerCalls ++ [close]) :
    WriterInv (final (writerAct sizeT) issued bs) ∧
      (Live segment.order (final (writerAct sizeT) issued bs)
          (stream segment.order (segment.appendTo bytes)) ∨
        Full segment.order (final (writerAct sizeT) issued bs)
          (stream segment.order (segment.appendTo bytes))) := by
  have hcalls := segment_writerCall segment hclose
  rw [← hissued, List.forall_mem_map] at hcalls
  have hrun := live_or_full_run sizeT h.toWriterInv (.inl (h.live segment.order)) hcalls
  have hpadded : final (emit segment.order) (segment.writerCalls ++ [close])
      (stream segment.order bytes) = stream segment.order (segment.appendTo bytes) := by
    rw [final_append, segment.stream_appendTo]
    rcases hclose with rfl | rfl <;> rfl
  rwa [hissued, hpadded] at hrun

/-- A closed segment without overflow leaves the writer at a byte. -/
theorem segment_written (sizeT : SizeT) (segment : Segment) {close : WriterCall}
    (hclose : Closes segment close) {bs : BsWriter} (h : AtByte bs bytes)
    {issued : List (Overshift × WriterCall)}
    (hissued : issued.map Prod.snd = segment.writerCalls ++ [close])
    (hopen : (final (writerAct sizeT) issued bs).overflow = false) :
    AtByte (final (writerAct sizeT) issued bs) (segment.appendTo bytes) := by
  obtain ⟨hinv, hlive | hfull⟩ := segment_run sizeT segment hclose h hissued
  · exact atByte_of_live hlive hinv
  · exact absurd (hopen.symm.trans hfull.overflow_eq) Bool.false_ne_true

/-- A block that was accepted was written at a byte. -/
theorem block_written {bs : BsWriter} {src : List (BitVec 8)} {written : Bool × BsWriter}
    (hwrite : BlockWrite bs src written) (hinv : WriterInv bs) (haccepted : written.1 ≠ false) :
    bs.overflow = false ∧ (AtByte bs bytes → AtByte written.2 (bytes ++ src)) := by
  have hnext := hwrite.inv hinv
  cases hwrite with
  | rejected => exact absurd rfl haccepted
  | refused => exact absurd rfl haccepted
  | stored haligned hopen hfit =>
    refine ⟨hopen, fun h ↦ ⟨hnext, h.overflow_eq, h.bits_eq, h.clean, ?_⟩⟩
    have hsize := hinv.size_eq
    have hlength : (bs.buffer.take bs.bytePos ++ src).length = bs.bytePos + src.length := by
      rw [List.length_append, List.length_take]
      omega
    show (bs.buffer.take bs.bytePos ++ src ++ _).take (bs.bytePos + src.length) = bytes ++ src
    rw [List.take_left' hlength, h.bytes_eq]

/-- The body of a script, by induction on its segments. -/
theorem body_written (sizeT : SizeT) (body : List (Segment × Block)) {bs : BsWriter}
    (h : AtByte bs bytes) {issued : List (Overshift × WriterCall)}
    (hissued : issued.map Prod.snd = bodyWriterCalls body)
    (hblocks : ∀ entry ∈ trace (writerAct sizeT) issued bs, entry.1 ≠ some false) :
    AtByte (final (writerAct sizeT) issued bs) (encodeBody body bytes) := by
  induction body generalizing bs bytes issued with
  | nil =>
    obtain rfl := List.map_eq_nil_iff.mp hissued
    exact h
  | cons entry body ih =>
    obtain ⟨segment, block⟩ := entry
    obtain ⟨first, rest, rfl, hfirst, hrest⟩ := List.map_eq_append_iff.mp hissued
    obtain ⟨⟨mode, call⟩, later, rfl, hcall, hlater⟩ := List.map_eq_cons_iff.mp hrest
    obtain rfl : call = .writeBytes block.bytes := hcall
    rw [trace_append] at hblocks
    rw [final_append]
    obtain ⟨hinv, _⟩ := segment_run sizeT segment (.inl rfl) h hfirst
    have hwrite := (bsWriteBytes_ensures mode sizeT hinv.toFits block.bytes).post
    -- The reply to the block says that it was accepted, so the segment before it did not overflow.
    have haccepted : ((bsWriteBytes sizeT (final (writerAct sizeT) first bs)
        block.bytes).value mode).1 ≠ false := by
      intro hrefused
      exact hblocks _ (List.mem_append_right _ List.mem_cons_self) (congrArg some hrefused)
    obtain ⟨hopen, hblock⟩ := block_written hwrite hinv haccepted
    have hsegment := segment_written sizeT segment (.inl rfl) h hfirst hopen
    exact ih (hblock hsegment) hlater fun entry hentry ↦
      hblocks entry (List.mem_append_right _ (List.mem_cons_of_mem _ hentry))

/-- The bytes that a writer reports as written. -/
def writtenBytes (bs : BsWriter) : List (BitVec 8) := bs.buffer.take (bsWriterBytesWritten bs)

/-- A script written without overflow gives its bytes. -/
theorem script_written (sizeT : SizeT) (script : Script) (initial : List (BitVec 8))
    {issued : List (Overshift × WriterCall)}
    (hissued : issued.map Prod.snd = script.writerCalls)
    (hblocks : ∀ entry ∈ trace (writerAct sizeT) issued (bsWriterInit initial initial.length),
      entry.1 ≠ some false)
    (hopen : (final (writerAct sizeT) issued (bsWriterInit initial initial.length)).overflow =
      false) :
    writtenBytes (final (writerAct sizeT) issued (bsWriterInit initial initial.length)) =
      script.encode := by
  obtain ⟨first, rest, rfl, hfirst, hrest⟩ := List.map_eq_append_iff.mp hissued
  rw [trace_append] at hblocks
  rw [final_append] at hopen ⊢
  have hbody := body_written sizeT script.body (atByte_init initial) hfirst fun entry hentry ↦
    hblocks entry (List.mem_append_left _ hentry)
  exact (segment_written sizeT script.last (.inr rfl) hbody hrest hopen).bytes_eq

/-! ### Reading it back -/

/-- A run of calls of one order with widths of at most 32 replies as the cursor does. -/
theorem reader_run (sizeT : SizeT) {bs : BsReader} {c : Cursor} (h : Tracks order bs c)
    {issued : List (Overshift × ReaderCall)}
    (hcalls : ∀ call ∈ issued, Reading.BitCall order call.2) :
    (trace (readerAct sizeT) issued bs).map Prod.fst =
        (trace Cursor.step (issued.map Prod.snd) c).map Prod.fst ∧
      Tracks order (final (readerAct sizeT) issued bs)
        (final Cursor.step (issued.map Prod.snd) c) :=
  run_tracks sizeT h (.of_forall (fun call hcall s ↦ (hcalls call hcall).allowed sizeT s) bs)

theorem segment_readerCall (segment : Segment) :
    ∀ call ∈ segment.readerCalls, Reading.BitCall segment.order call := by
  intro call hcall
  obtain ⟨item, _, rfl⟩ := List.mem_map.mp hcall
  cases item with
  | field value width => exact ⟨rfl, Nat.le_of_lt_succ width.isLt⟩
  | align => exact rfl

/-- A cursor behind bytes that begin its buffer has passed their bits. -/
theorem passedBits_eq (order : BitOrder) {c : Cursor} (hpos : c.pos = 8 * bytes.length)
    (hbytes : bytes <+: c.buffer) : passedBits order c = stream order bytes := by
  obtain ⟨more, hmore⟩ := hbytes
  rw [passedBits, hpos, ← hmore, stream_append, List.take_left' (length_stream order bytes)]

/-- A block that begins what is left of the buffer is copied. -/
theorem block_read {c : Cursor} (hpos : c.pos = 8 * bytes.length) (block : Block)
    (hbytes : bytes ++ block.bytes <+: c.buffer) :
    (c.step (.readBytes block.target block.bytes.length)).1 =
        .block true (block.bytes ++ block.target.drop block.bytes.length) ∧
      (c.step (.readBytes block.target block.bytes.length)).2.pos =
        8 * (bytes ++ block.bytes).length := by
  have hlength := hbytes.length_le
  obtain ⟨more, hmore⟩ := hbytes
  rw [List.length_append] at hlength ⊢
  have hroom : c.pos % 8 = 0 ∧ 8 * block.bytes.length ≤ c.left := by
    unfold Cursor.left
    omega
  have hcopied : (c.buffer.drop (c.pos / 8)).take block.bytes.length = block.bytes := by
    have hdiv : c.pos / 8 = bytes.length := by omega
    rw [hdiv, ← hmore, List.append_assoc, List.drop_left' rfl, List.take_left' rfl]
  have hstep : c.readBytes block.target block.bytes.length =
      ((true, block.bytes ++ block.target.drop block.bytes.length), c.advance _ hroom.2) := by
    rw [Cursor.readBytes, dif_pos hroom, hcopied]
  rw [Cursor.step, hstep]
  refine ⟨rfl, ?_⟩
  show c.pos + 8 * block.bytes.length = _
  omega

/-- A block read at a byte leaves a reader that tracks the cursor in both orders. -/
theorem readBytes_tracks (sizeT : SizeT) (mode : Overshift) {bs : BsReader} {c : Cursor}
    (h : Tracks order bs c) (hpos : c.pos % 8 = 0) (dst : List (BitVec 8)) (nBytes : ℕ) :
    (readerAct sizeT (mode, .readBytes dst nBytes) bs).1 = (c.step (.readBytes dst nBytes)).1 ∧
      ∀ other, Tracks other (readerAct sizeT (mode, .readBytes dst nBytes) bs).2
        (c.step (.readBytes dst nBytes)).2 := by
  have hread : Eval.Ensures mode (bsReadBytes sizeT bs dst nBytes) _ :=
    bsReadBytes_ensures sizeT h dst nBytes
  have hallowed : AllowedCall sizeT order (mode, .readBytes dst nBytes) bs := ⟨trivial, trivial⟩
  exact ⟨(readerAct_tracks sizeT h hallowed).1, hread.post.2.2 hpos⟩

/-- The entries of a segment give their replies, over bytes that go on with the segment. -/
theorem segment_read (sizeT : SizeT) (segment : Segment) {bs : BsReader} {c : Cursor}
    (h : Tracks segment.order bs c) (hpos : c.pos = 8 * bytes.length)
    (hbytes : segment.appendTo bytes <+: c.buffer) {issued : List (Overshift × ReaderCall)}
    (hissued : issued.map Prod.snd = segment.readerCalls) :
    (trace (readerAct sizeT) issued bs).map Prod.fst = segment.replies ∧
      ∃ c', Tracks segment.order (final (readerAct sizeT) issued bs) c' ∧ c'.buffer = c.buffer ∧
        passedBits segment.order c' = segment.emitted (stream segment.order bytes) := by
  have hcalls := segment_readerCall segment
  rw [← hissued, List.forall_mem_map] at hcalls
  have hstart := passedBits_eq segment.order hpos ((segment.prefix_appendTo bytes).trans hbytes)
  have hnext : segment.emitted (passedBits segment.order c) <+: stream segment.order c.buffer := by
    obtain ⟨more, hmore⟩ := hbytes
    rw [hstart, ← hmore, stream_append, segment.stream_appendTo, padded, List.append_assoc]
    exact List.prefix_append _ _
  obtain ⟨hreplies, hpassed⟩ := items_read_back segment.order segment.items hnext
  obtain ⟨hrun, htracks⟩ := reader_run sizeT h hcalls
  rw [hissued] at hrun htracks
  refine ⟨hrun.trans hreplies, _, htracks, Cursor.final_step_buffer _ c, ?_⟩
  rw [← hstart]
  exact hpassed

/-- The body of a script, by induction on its segments. -/
theorem body_read (sizeT : SizeT) (body : List (Segment × Block)) {bs : BsReader} {c : Cursor}
    (h : ∀ order, Tracks order bs c) (hpos : c.pos = 8 * bytes.length)
    (hbytes : encodeBody body bytes <+: c.buffer) {issued : List (Overshift × ReaderCall)}
    (hissued : issued.map Prod.snd = bodyReaderCalls body) :
    (trace (readerAct sizeT) issued bs).map Prod.fst = bodyReplies body ∧
      ∃ c', (∀ order, Tracks order (final (readerAct sizeT) issued bs) c') ∧
        c'.buffer = c.buffer ∧ c'.pos = 8 * (encodeBody body bytes).length := by
  induction body generalizing bs c bytes issued with
  | nil =>
    obtain rfl := List.map_eq_nil_iff.mp hissued
    exact ⟨rfl, c, h, rfl, hpos⟩
  | cons entry body ih =>
    obtain ⟨segment, block⟩ := entry
    obtain ⟨first, rest, rfl, hfirst, hrest⟩ := List.map_eq_append_iff.mp hissued
    obtain ⟨⟨mode, call⟩, later, rfl, hcall, hlater⟩ := List.map_eq_cons_iff.mp hrest
    obtain rfl : call = .readBytes block.target block.bytes.length := hcall
    have hblock : segment.appendTo bytes ++ block.bytes <+: c.buffer :=
      (prefix_encodeBody body _).trans hbytes
    have haligned : segment.aligned.appendTo bytes <+: c.buffer := by
      rw [segment.aligned_appendTo]
      exact (List.prefix_append _ _).trans hblock
    have hcalls : first.map Prod.snd = segment.aligned.readerCalls := by
      rw [hfirst, Segment.readerCalls, Segment.readerCalls, Segment.aligned, List.map_append]
      rfl
    obtain ⟨hreplies, c₁, htracks, hbuffer, hpassed⟩ :=
      segment_read sizeT segment.aligned (h segment.order) hpos haligned hcalls
    have hpos₁ : c₁.pos = 8 * (segment.appendTo bytes).length := by
      have hemitted : passedBits segment.order c₁ = stream segment.order (segment.appendTo bytes) :=
        (hpassed.trans (segment.aligned_emitted _)).trans (segment.stream_appendTo bytes).symm
      rw [← length_passedBits segment.order, hemitted, length_stream]
    obtain ⟨hcopied, hpos₂⟩ := block_read hpos₁ block (by rwa [hbuffer])
    obtain ⟨hreply, hboth⟩ := readBytes_tracks sizeT mode htracks (by omega) block.target
      block.bytes.length
    have hbuffer₂ := Cursor.step_buffer (.readBytes block.target block.bytes.length) c₁
    obtain ⟨hlaterReplies, c', hfinal, hbuffer', hpos'⟩ :=
      ih hboth hpos₂ (by rw [hbuffer₂, hbuffer]; exact hbytes) hlater
    refine ⟨?_, c', ?_, hbuffer'.trans (hbuffer₂.trans hbuffer), hpos'⟩
    · rw [trace_append, List.map_append, hreplies]
      show segment.aligned.replies ++ (readerAct sizeT _ _).1 :: _ = _
      rw [hreply, hcopied, hlaterReplies, Segment.replies, Segment.aligned, List.map_append]
      rfl
    · rw [final_append]
      exact hfinal

/-- The replies of a mirrored script over its bytes, and the padding that is left: fewer than eight
bits, all of them zero. -/
theorem script_read (sizeT : SizeT) (script : Script) {issued : List (Overshift × ReaderCall)}
    (hissued : issued.map Prod.snd = script.readerCalls) :
    (trace (readerAct sizeT) issued (bsReaderInit script.encode script.encode.length)).map
        Prod.fst = script.replies ∧
      ∃ c, Tracks script.last.order
          (final (readerAct sizeT) issued (bsReaderInit script.encode script.encode.length)) c ∧
        c.left < 8 ∧ c.rest script.last.order = List.replicate c.left false := by
  obtain ⟨first, rest, rfl, hfirst, hrest⟩ := List.map_eq_append_iff.mp hissued
  have hinit (order : BitOrder) := tracks_init order script.encode
  have hstart : (Cursor.start script.encode).pos = 8 * ([] : List (BitVec 8)).length := rfl
  have hlast := script.last.prefix_appendTo (encodeBody script.body [])
  obtain ⟨hreplies, c₁, htracks, hbuffer, hpos⟩ :=
    body_read sizeT script.body hinit hstart hlast hfirst
  obtain ⟨hlastReplies, c, hfinal, hbuffer', hpassed⟩ :=
    segment_read sizeT script.last (htracks script.last.order) hpos
      (by rw [hbuffer]; exact List.prefix_refl _) hrest
  have hstream : stream script.last.order c.buffer =
      padded 8 (script.last.emitted
        (stream script.last.order (encodeBody script.body []))) := by
    rw [hbuffer', hbuffer]
    exact script.last.stream_appendTo _
  have hzeros : c.rest script.last.order = List.replicate
      (padding 8 (script.last.emitted
        (stream script.last.order (encodeBody script.body []))).length) false := by
    have hlength := length_passedBits script.last.order c
    rw [hpassed] at hlength
    rw [Cursor.rest, hstream, padded, List.drop_left' hlength]
  have hleft := congrArg List.length hzeros
  rw [Cursor.length_rest, List.length_replicate] at hleft
  refine ⟨?_, c, ?_, ?_, ?_⟩
  · rw [trace_append, List.map_append, hreplies, hlastReplies]
    rfl
  · rw [final_append]
    exact hfinal
  · rw [hleft]
    exact padding_lt (by norm_num) _
  · rw [hleft]
    exact hzeros

/-! ### The round trip -/

/-- A reader with zeros before the end of its buffer reads them as 0 and is then at the end. -/
theorem read_padding (sizeT : SizeT) (mode : Overshift) {bs : BsReader} {c : Cursor}
    (h : Tracks order bs c) (hfew : c.left < 8)
    (hzeros : c.rest order = List.replicate c.left false) :
    bsReaderBitsLeft sizeT bs = c.left ∧
      (readerAct sizeT (mode, .readBits order c.left) bs).1 = .field 0 ∧
      bsReaderEof (readerAct sizeT (mode, .readBits order c.left) bs).2 = true := by
  have hwidth : 2 ^ 16 ≤ 2 ^ sizeT.bits := Nat.pow_le_pow_right (by norm_num) sizeT.sixteen_le
  have hallowed : AllowedCall sizeT order (mode, .readBits order c.left) bs :=
    ⟨rfl, (by omega : c.left ≤ 32)⟩
  obtain ⟨hreply, hnext⟩ := readerAct_tracks sizeT h hallowed
  refine ⟨?_, ?_, ?_⟩
  · rw [h.bitsLeft_eq sizeT, Nat.mod_eq_of_lt (by omega)]
  · rw [hreply]
    show ReaderReply.field (c.peek order c.left) = .field 0
    rw [Cursor.peek, if_pos le_rfl, hzeros, List.take_replicate, Nat.min_self,
      fieldValue_replicate_false]
    rfl
  · rw [hnext.eof_eq]
    have hend : (c.read c.left).pos = 8 * (c.read c.left).buffer.length := by
      have hle := c.pos_le
      rw [Cursor.read_of_le le_rfl, Cursor.advance_pos, Cursor.advance_buffer, Cursor.left]
      omega
    exact decide_eq_true hend

/-- Every script round trips, for every capacity: if every block was accepted and nothing has
overflowed at the end, a fresh reader over the bytes written that runs the mirrored calls gets every
field back modulo its width and every block byte for byte, and what is left is fewer than eight
bits, all zero, after which the reader is at the end. Assumes: the calls of the writer and of the
reader are those of the script, every `bs_write_bytes` returned true, and `overflow` is false at the
end. -/
theorem script_round_trip (sizeT : SizeT) (script : Script) (initial : List (BitVec 8))
    (written : List (Overshift × WriterCall)) (hwritten : written.map Prod.snd = script.writerCalls)
    (hblocks : ∀ entry ∈ trace (writerAct sizeT) written (bsWriterInit initial initial.length),
      entry.1 ≠ some false)
    (hopen : (final (writerAct sizeT) written (bsWriterInit initial initial.length)).overflow =
      false)
    (bytes : List (BitVec 8))
    (hbytes : bytes =
      writtenBytes (final (writerAct sizeT) written (bsWriterInit initial initial.length)))
    (read : List (Overshift × ReaderCall)) (hread : read.map Prod.snd = script.readerCalls) :
    (trace (readerAct sizeT) read (bsReaderInit bytes bytes.length)).map Prod.fst =
        script.replies ∧
      ∃ n < 8, bsReaderBitsLeft sizeT
          (final (readerAct sizeT) read (bsReaderInit bytes bytes.length)) = n ∧
        ∀ mode : Overshift,
          (readerAct sizeT (mode, .readBits script.last.order n)
            (final (readerAct sizeT) read (bsReaderInit bytes bytes.length))).1 = .field 0 ∧
          bsReaderEof (readerAct sizeT (mode, .readBits script.last.order n)
            (final (readerAct sizeT) read (bsReaderInit bytes bytes.length))).2 = true := by
  have hencode := script_written sizeT script initial hwritten hblocks hopen
  rw [hencode] at hbytes
  cases hbytes
  obtain ⟨hreplies, c, htracks, hfew, hzeros⟩ := script_read sizeT script hread
  have hpadding (mode : Overshift) := read_padding sizeT mode htracks hfew hzeros
  exact ⟨hreplies, c.left, hfew, (hpadding .masked).1, fun mode ↦ (hpadding mode).2⟩

/-- A script that changes the order around a block, in a buffer with one byte to spare. -/
def exampleScript : Script where
  body := [(⟨.msb, [.field 0x2A5 7, .align, .field 0xFFFFFFFF 32, .field 1 3]⟩,
    ⟨[0xDE, 0xAD], [0, 0, 0x77], by decide⟩)]
  last := ⟨.lsb, [.field 0x1234 13, .field 9 0, .field 3 2]⟩

theorem script_round_trip_example :
    (trace (readerAct sizeT64) (exampleScript.readerCalls.map (Prod.mk .masked))
        (bsReaderInit [0x4A, 0xFF, 0xFF, 0xFF, 0xFF, 0x20, 0xDE, 0xAD, 0x34, 0x72] 10)).map
          Prod.fst = exampleScript.replies ∧
      ∃ n < 8, bsReaderBitsLeft sizeT64
          (final (readerAct sizeT64) (exampleScript.readerCalls.map (Prod.mk .masked))
            (bsReaderInit [0x4A, 0xFF, 0xFF, 0xFF, 0xFF, 0x20, 0xDE, 0xAD, 0x34, 0x72] 10)) = n ∧
        ∀ mode : Overshift,
          (readerAct sizeT64 (mode, .readBits exampleScript.last.order n)
            (final (readerAct sizeT64) (exampleScript.readerCalls.map (Prod.mk .masked))
              (bsReaderInit [0x4A, 0xFF, 0xFF, 0xFF, 0xFF, 0x20, 0xDE, 0xAD, 0x34, 0x72]
                10))).1 = .field 0 ∧
          bsReaderEof (readerAct sizeT64 (mode, .readBits exampleScript.last.order n)
            (final (readerAct sizeT64) (exampleScript.readerCalls.map (Prod.mk .masked))
              (bsReaderInit [0x4A, 0xFF, 0xFF, 0xFF, 0xFF, 0x20, 0xDE, 0xAD, 0x34, 0x72]
                10))).2 = true :=
  script_round_trip sizeT64 exampleScript (List.replicate 11 0x55)
    (exampleScript.writerCalls.map (Prod.mk .masked)) (by decide) (by decide) (by decide) _
    (by decide) _ (by decide)

end Bitstream.Format
