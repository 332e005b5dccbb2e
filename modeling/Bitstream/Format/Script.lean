import Bitstream.Foundation.CallTrace
import Bitstream.Reading.Cursor
import Bitstream.Writing.Sink

/-!
# Scripts

A script is a format that a program writes and reads back: segments of one bit order each, with
fields and alignments, and byte blocks between them. It determines the calls of the writer
(`Script.writerCalls`), the mirrored calls of the reader (`Script.readerCalls`), the replies that
the reader should get (`Script.replies`), and the bytes in between (`Script.encode`). On the ideal
sink and the ideal cursor the two sides fit together: a cursor over bytes that begin with what a
segment emits gets the replies of the segment back (`items_read_back`).
-/

set_option autoImplicit false
set_option relaxedAutoImplicit false

namespace Bitstream.Format

open Foundation Header Reading Writing

/-! ### Syntax and calls -/

/-- One entry of a segment: a field of at most 32 bits with its value, or an alignment. -/
inductive Item
  | field (value : BitVec 32) (width : Fin 33)
  | align
  deriving DecidableEq, Repr

/-- Entries in one bit order. -/
structure Segment where
  order : BitOrder
  items : List Item
  deriving DecidableEq, Repr

/-- The bytes of a block, and the array that the reader copies them to. -/
structure Block where
  bytes : List (BitVec 8)
  target : List (BitVec 8)
  bytes_le : bytes.length ≤ target.length
  deriving DecidableEq, Repr

/-- Segments, each but the last followed by a block. -/
structure Script where
  body : List (Segment × Block)
  last : Segment
  deriving DecidableEq, Repr

def Item.writerCall (order : BitOrder) : Item → WriterCall
  | field value width => .writeBits order value width
  | align => .align order

def Item.readerCall (order : BitOrder) : Item → ReaderCall
  | field _ width => .readBits order width
  | align => .align order

/-- A field is read back modulo its width. -/
def Item.reply : Item → ReaderReply
  | field value width => .field (BitVec.ofNat 32 (value.toNat % 2 ^ (width : ℕ)))
  | align => .done

def Segment.writerCalls (segment : Segment) : List WriterCall :=
  segment.items.map (Item.writerCall segment.order)

def Segment.readerCalls (segment : Segment) : List ReaderCall :=
  segment.items.map (Item.readerCall segment.order)

def Segment.replies (segment : Segment) : List ReaderReply := segment.items.map Item.reply

/-- A segment in the body is aligned and followed by its block. -/
def bodyWriterCalls : List (Segment × Block) → List WriterCall
  | [] => []
  | (segment, block) :: body =>
    (segment.writerCalls ++ [.align segment.order]) ++
      .writeBytes block.bytes :: bodyWriterCalls body

def bodyReaderCalls : List (Segment × Block) → List ReaderCall
  | [] => []
  | (segment, block) :: body =>
    (segment.readerCalls ++ [.align segment.order]) ++
      .readBytes block.target block.bytes.length :: bodyReaderCalls body

/-- The block replaces the beginning of the target. -/
def bodyReplies : List (Segment × Block) → List ReaderReply
  | [] => []
  | (segment, block) :: body =>
    (segment.replies ++ [.done]) ++
      .block true (block.bytes ++ block.target.drop block.bytes.length) :: bodyReplies body

/-- The last segment is flushed. -/
def Script.writerCalls (script : Script) : List WriterCall :=
  bodyWriterCalls script.body ++ (script.last.writerCalls ++ [.flush script.last.order])

def Script.readerCalls (script : Script) : List ReaderCall :=
  bodyReaderCalls script.body ++ script.last.readerCalls

def Script.replies (script : Script) : List ReaderReply :=
  bodyReplies script.body ++ script.last.replies

/-! ### The encoding -/

/-- The segment with an alignment at its end. -/
def Segment.aligned (segment : Segment) : Segment := ⟨segment.order, segment.items ++ [.align]⟩

/-- The bits of a sink after the entries of a segment. -/
def Segment.emitted (segment : Segment) (bits : List Bool) : List Bool :=
  final (emit segment.order) segment.writerCalls bits

/-- Bytes with a segment behind them, completed to whole bytes. -/
def Segment.appendTo (segment : Segment) (bytes : List (BitVec 8)) : List (BitVec 8) :=
  packWords 8 segment.order (padded 8 (segment.emitted (stream segment.order bytes)))

/-- Bytes with a body behind them. -/
def encodeBody : List (Segment × Block) → List (BitVec 8) → List (BitVec 8)
  | [], bytes => bytes
  | (segment, block) :: body, bytes => encodeBody body (segment.appendTo bytes ++ block.bytes)

/-- The bytes of a script. -/
def Script.encode (script : Script) : List (BitVec 8) :=
  script.last.appendTo (encodeBody script.body [])

/-- A run of calls only appends to the bits of a sink. -/
theorem prefix_final_emit (order : BitOrder) (calls : List WriterCall) (bits : List Bool) :
    bits <+: final (emit order) calls bits := by
  induction calls generalizing bits with
  | nil => exact List.prefix_refl bits
  | cons call calls ih => exact (prefix_emit order call bits).trans (ih _)

theorem Segment.stream_prefix_emitted (segment : Segment) (bytes : List (BitVec 8)) :
    stream segment.order bytes <+: segment.emitted (stream segment.order bytes) :=
  prefix_final_emit segment.order _ _

/-- The bits of the appended bytes are the padded bits of the segment. -/
theorem Segment.stream_appendTo (segment : Segment) (bytes : List (BitVec 8)) :
    stream segment.order (segment.appendTo bytes) =
      padded 8 (segment.emitted (stream segment.order bytes)) := by
  have hwhole : 8 ∣ (padded 8 (segment.emitted (stream segment.order bytes))).length :=
    dvd_length_padded (by norm_num) _
  rw [appendTo, stream_packWords, Nat.mul_div_cancel' hwhole, List.take_length]

theorem padded_padded (bits : List Bool) : padded 8 (padded 8 bits) = padded 8 bits := by
  have hwhole : 8 ∣ (padded 8 bits).length := dvd_length_padded (by norm_num) bits
  have hnone := (padding_eq_zero_iff (w := 8) (by norm_num) _).mpr (Nat.mod_eq_zero_of_dvd hwhole)
  rw [padded, hnone, List.replicate_zero, List.append_nil]

theorem Segment.aligned_emitted (segment : Segment) (bits : List Bool) :
    segment.aligned.emitted bits = padded 8 (segment.emitted bits) := by
  rw [emitted, writerCalls, aligned, List.map_append, final_append]
  rfl

/-- An alignment at the end of a segment does not change its bytes. -/
theorem Segment.aligned_appendTo (segment : Segment) (bytes : List (BitVec 8)) :
    segment.aligned.appendTo bytes = segment.appendTo bytes := by
  rw [appendTo, segment.aligned_emitted, padded_padded]
  rfl

/-- Bytes whose bits begin another byte string are its beginning. -/
theorem prefix_of_stream_prefix (order : BitOrder) {bytes more : List (BitVec 8)}
    (h : stream order bytes <+: stream order more) : bytes <+: more := by
  have hlength := h.length_le
  rw [length_stream, length_stream] at hlength
  have htake : stream order (more.take bytes.length) = stream order bytes := by
    rw [stream_take, ← length_stream order bytes]
    exact (List.prefix_iff_eq_take.mp h).symm
  rw [List.prefix_iff_eq_take]
  exact (stream_injective order (by norm_num) htake).symm

theorem Segment.prefix_appendTo (segment : Segment) (bytes : List (BitVec 8)) :
    bytes <+: segment.appendTo bytes := by
  apply prefix_of_stream_prefix segment.order
  rw [segment.stream_appendTo]
  exact (segment.stream_prefix_emitted bytes).trans (List.prefix_append _ _)

theorem prefix_encodeBody (body : List (Segment × Block)) (bytes : List (BitVec 8)) :
    bytes <+: encodeBody body bytes := by
  induction body generalizing bytes with
  | nil => exact List.prefix_refl bytes
  | cons entry body ih =>
    obtain ⟨segment, block⟩ := entry
    have hsegment := segment.prefix_appendTo bytes
    exact (hsegment.trans (List.prefix_append _ block.bytes)).trans (ih _)

/-! ### Reading back on the cursor -/

/-- The bits that a cursor has passed. -/
def passedBits (order : BitOrder) (c : Cursor) : List Bool := (stream order c.buffer).take c.pos

theorem length_passedBits (order : BitOrder) (c : Cursor) :
    (passedBits order c).length = c.pos := by
  rw [passedBits, List.length_take, length_stream, Nat.min_eq_left c.pos_le]

/-- If the next bits of the buffer complete what was passed to `bits`, they are there, and a cursor
behind them has passed `bits`. -/
theorem passed_next {order : BitOrder} {c : Cursor} {field bits : List Bool}
    (hbits : bits = passedBits order c ++ field) (hnext : bits <+: stream order c.buffer) :
    field.length ≤ c.left ∧ (c.rest order).take field.length = field ∧
      ∀ c' : Cursor, c'.buffer = c.buffer → c'.pos = c.pos + field.length →
        passedBits order c' = bits := by
  obtain ⟨more, hmore⟩ := hnext
  have hlength := length_passedBits order c
  have hrest : c.rest order = field ++ more := by
    rw [Cursor.rest, ← hmore, hbits, List.append_assoc, List.drop_left' hlength]
  refine ⟨?_, ?_, fun c' hbuffer hpos ↦ ?_⟩
  · rw [← Cursor.length_rest order, hrest, List.length_append]
    exact Nat.le_add_right _ _
  · rw [hrest, List.take_left' rfl]
  · have hcount : bits.length = c.pos + field.length := by
      rw [hbits, List.length_append, hlength]
    rw [passedBits, hbuffer, hpos, ← hcount, ← hmore, List.take_left' rfl]

/-- The next multiple of 8 is reached by the padding. -/
theorem align_pos (pos : ℕ) : 8 * ((pos + 7) / 8) = pos + padding 8 pos := by
  by_cases h : pos % 8 = 0
  · rw [(padding_eq_zero_iff (by norm_num) pos).mpr h]
    omega
  · rw [padding_of_mod_ne_zero (by norm_num) h]
    omega

/-- One entry: over bytes that go on with what the sink emits for it, the cursor gives its reply. -/
theorem item_read_back (order : BitOrder) (item : Item) {c : Cursor}
    (hnext : (emit order (item.writerCall order) (passedBits order c)).2 <+:
      stream order c.buffer) :
    (c.step (item.readerCall order)).1 = item.reply ∧
      passedBits order (c.step (item.readerCall order)).2 =
        (emit order (item.writerCall order) (passedBits order c)).2 := by
  cases item with
  | field value width =>
    obtain ⟨hleft, htake, hpassed⟩ := passed_next rfl hnext
    rw [length_fieldBits] at hleft htake hpassed
    constructor
    · show ReaderReply.field (c.peek order width) = _
      rw [Cursor.peek, if_pos hleft, htake, fieldValue_fieldBits]
      rfl
    · show passedBits order (c.read width) = _
      rw [Cursor.read_of_le hleft]
      exact hpassed _ rfl rfl
  | align =>
    have hzeros := length_passedBits order c
    obtain ⟨_, _, hpassed⟩ := passed_next rfl hnext
    rw [List.length_replicate, hzeros] at hpassed
    refine ⟨rfl, ?_⟩
    show passedBits order c.align = padded 8 (passedBits order c)
    rw [padded, hzeros]
    exact hpassed c.align rfl (align_pos c.pos)

/-- The entries of a segment, by induction: the replies come back, and the cursor has passed what
the sink emitted. -/
theorem items_read_back (order : BitOrder) (items : List Item) {c : Cursor}
    (hnext : final (emit order) (items.map (Item.writerCall order)) (passedBits order c) <+:
      stream order c.buffer) :
    (trace Cursor.step (items.map (Item.readerCall order)) c).map Prod.fst =
        items.map Item.reply ∧
      passedBits order (final Cursor.step (items.map (Item.readerCall order)) c) =
        final (emit order) (items.map (Item.writerCall order)) (passedBits order c) := by
  induction items generalizing c with
  | nil => exact ⟨rfl, rfl⟩
  | cons item items ih =>
    have hrest := prefix_final_emit order (items.map (Item.writerCall order))
      (emit order (item.writerCall order) (passedBits order c)).2
    obtain ⟨hreply, hpassed⟩ := item_read_back order item (hrest.trans hnext)
    have hbuffer := Cursor.step_buffer (item.readerCall order) c
    have hmore : final (emit order) (items.map (Item.writerCall order))
        (passedBits order (c.step (item.readerCall order)).2) <+:
          stream order (c.step (item.readerCall order)).2.buffer := by
      rw [hpassed, hbuffer]
      exact hnext
    obtain ⟨hreplies, hfinal⟩ := ih hmore
    rw [hpassed] at hfinal
    refine ⟨?_, hfinal⟩
    show (c.step (item.readerCall order)).1 :: _ = item.reply :: _
    rw [hreply, hreplies]

end Bitstream.Format
