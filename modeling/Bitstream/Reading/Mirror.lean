import Bitstream.Foundation.BitReversal
import Bitstream.Reading.Refilling

/-!
# The two readers are mirror images

A most significant first reader on a buffer and a least significant first reader on the buffer with
the bits of each byte reversed, called alike, track the same position: their replies are reversed
fields and blocks, and their counters agree after every call (`reader_mirror`). The counters agree
because they do not depend on the order: the byte position after a call is determined by the
counters before it (`readerAct_bytePos`), and the bits in the cache by the two positions.
-/

set_option autoImplicit false
set_option relaxedAutoImplicit false

namespace Bitstream.Reading

open Foundation Header

variable {sizeT : SizeT} {order : BitOrder} {mode : Overshift} {bs s s' : BsReader} {c : Cursor}
  {n : ℕ}

/-! ### Mirrored calls and replies -/

/-- The most significant first calls that have a mirror image, with widths of at most 32. -/
def Mirrorable : ReaderCall → Prop
  | .readBits o n | .peekBits o n | .skipBits o n => o = .msb ∧ n ≤ 32
  | .align o => o = .msb
  | .readBytes _ _ => True
  | .readBit | .readBitsUnchecked _ _ | .peekBitsUnchecked _ _ | .skipBitsUnchecked _ _ => False

instance : DecidablePred Mirrorable
  | .readBits o n | .peekBits o n | .skipBits o n =>
    inferInstanceAs (Decidable (o = .msb ∧ n ≤ 32))
  | .align o => inferInstanceAs (Decidable (o = .msb))
  | .readBytes _ _ => .isTrue trivial
  | .readBit | .readBitsUnchecked _ _ | .peekBitsUnchecked _ _ | .skipBitsUnchecked _ _ =>
    .isFalse id

/-- The least significant first function of a call, on the mirrored destination. -/
def mirrorCall : ReaderCall → ReaderCall
  | .readBit => .readBits .lsb 1
  | .readBits _ n => .readBits .lsb n
  | .peekBits _ n => .peekBits .lsb n
  | .skipBits _ n => .skipBits .lsb n
  | .readBitsUnchecked _ n => .readBitsUnchecked .lsb n
  | .peekBitsUnchecked _ n => .peekBitsUnchecked .lsb n
  | .skipBitsUnchecked _ n => .skipBitsUnchecked .lsb n
  | .align _ => .align .lsb
  | .readBytes dst nBytes => .readBytes (dst.map BitVec.reverse) nBytes

/-- The reply with its field reversed in the width of the call, or with the bits of each byte of its
block reversed. -/
def mirrorReply : ReaderCall → ReaderReply → ReaderReply
  | .readBits _ n, .field value | .peekBits _ n, .field value => .field (reverseField n value)
  | .readBytes _ _, .block ok dst => .block ok (dst.map BitVec.reverse)
  | _, reply => reply

theorem Mirrorable.inOrder {call : ReaderCall} (h : Mirrorable call) :
    InOrder .msb call ∧ InOrder .lsb (mirrorCall call) := by
  cases call with
  | readBits | peekBits | skipBits => exact ⟨h.1, rfl⟩
  | align => exact ⟨h, rfl⟩
  | readBytes => exact ⟨trivial, trivial⟩
  | readBit | readBitsUnchecked | peekBitsUnchecked | skipBitsUnchecked => exact h.elim

theorem Mirrorable.allowed {call : ReaderCall} (h : Mirrorable call) (sizeT : SizeT)
    (s s' : BsReader) : Allowed sizeT s call ∧ Allowed sizeT s' (mirrorCall call) := by
  cases call with
  | readBits | peekBits | skipBits => exact ⟨h.2, h.2⟩
  | align | readBytes => exact ⟨trivial, trivial⟩
  | readBit | readBitsUnchecked | peekBitsUnchecked | skipBitsUnchecked => exact h.elim

theorem Mirrorable.checked {call : ReaderCall} (h : Mirrorable call) :
    CheckedCall call ∧ CheckedCall (mirrorCall call) := by
  cases call with
  | readBits | peekBits | skipBits | align | readBytes => exact ⟨trivial, trivial⟩
  | readBit | readBitsUnchecked | peekBitsUnchecked | skipBitsUnchecked => exact h.elim

/-! ### The mirrored cursor -/

namespace Cursor

/-- The cursor on the buffer with the bits of each byte reversed. -/
def mirror (c : Cursor) : Cursor where
  buffer := c.buffer.map BitVec.reverse
  pos := c.pos
  pos_le := by
    rw [List.length_map]
    exact c.pos_le

@[simp] theorem mirror_buffer (c : Cursor) : c.mirror.buffer = c.buffer.map BitVec.reverse := rfl

@[simp] theorem mirror_pos (c : Cursor) : c.mirror.pos = c.pos := rfl

@[simp] theorem mirror_left (c : Cursor) : c.mirror.left = c.left := by
  rw [left, left, mirror_buffer, List.length_map, mirror_pos]

theorem mirror_rest (c : Cursor) : c.mirror.rest .lsb = c.rest .msb := by
  rw [rest, rest, mirror_buffer, stream_lsb_map_reverse, mirror_pos]

theorem mirror_peek (c : Cursor) (hn : n ≤ 32) :
    c.mirror.peek .lsb n = reverseField n (c.peek .msb n) := by
  rw [peek, peek, mirror_left, mirror_rest]
  by_cases hleft : n ≤ c.left
  · have hlength : ((c.rest .msb).take n).length = n := by
      rw [List.length_take, length_rest, Nat.min_eq_left hleft]
    rw [if_pos hleft, if_pos hleft, reverseField_ofNat hn hlength]
  · rw [if_neg hleft, if_neg hleft, reverseField_zero hn]

theorem mirror_read (c : Cursor) (n : ℕ) : c.mirror.read n = (c.read n).mirror := by
  by_cases hleft : n ≤ c.left
  · rw [read_of_le hleft, read_of_le (by rwa [mirror_left])]
    rfl
  · have hless : c.mirror.left < n := by
      rw [mirror_left]
      omega
    rw [read_of_lt hless, read_of_lt (by omega)]

theorem mirror_skip (c : Cursor) (n : ℕ) : c.mirror.skip n = (c.skip n).mirror := by
  refine Cursor.ext rfl ?_
  show min (c.pos + n) (8 * (c.buffer.map BitVec.reverse).length) = _
  rw [List.length_map]
  rfl

theorem mirror_readBytes (c : Cursor) (dst : List (BitVec 8)) (nBytes : ℕ) :
    c.mirror.readBytes (dst.map BitVec.reverse) nBytes =
      (((c.readBytes dst nBytes).1.1, (c.readBytes dst nBytes).1.2.map BitVec.reverse),
        (c.readBytes dst nBytes).2.mirror) := by
  unfold readBytes
  by_cases hroom : c.pos % 8 = 0 ∧ 8 * nBytes ≤ c.left
  · rw [dif_pos hroom, dif_pos (by rwa [mirror_left, mirror_pos])]
    simp only [mirror_buffer, mirror_pos, List.map_append, List.map_take, List.map_drop]
    rfl
  · rw [dif_neg hroom, dif_neg (by rwa [mirror_left, mirror_pos])]

/-- A mirrored call on the mirrored cursor gives the mirrored reply and moves alike. -/
theorem mirror_step {call : ReaderCall} (h : Mirrorable call) (c : Cursor) :
    c.mirror.step (mirrorCall call) =
      (mirrorReply call (c.step call).1, (c.step call).2.mirror) := by
  cases call with
  | readBits o n =>
    obtain ⟨rfl, hn⟩ := h
    show (ReaderReply.field (c.mirror.peek .lsb n), c.mirror.read n) = _
    rw [mirror_peek c hn, mirror_read]
    rfl
  | peekBits o n =>
    obtain ⟨rfl, hn⟩ := h
    show (ReaderReply.field (c.mirror.peek .lsb n), c.mirror) = _
    rw [mirror_peek c hn]
    rfl
  | skipBits o n =>
    show (ReaderReply.done, c.mirror.skip n) = _
    rw [mirror_skip]
    rfl
  | align o => rfl
  | readBytes dst nBytes =>
    show (ReaderReply.block _ _, _) = _
    rw [mirror_readBytes]
    rfl
  | readBit | readBitsUnchecked | peekBitsUnchecked | skipBitsUnchecked => exact h.elim

end Cursor

/-! ### The byte position after a call -/

/-- The bytes that a checked call of a width fetches. -/
def fetchedFor (n : ℕ) (bs : BsReader) : ℕ := if n = 0 then 0 else fetched bs

/-- The byte position after a checked call, from the counters before it. -/
def nextBytePos : ReaderCall → BsReader → ℕ
  | .readBit, bs => bs.bytePos + fetchedFor 1 bs
  | .readBits _ n, bs | .peekBits _ n, bs | .skipBits _ n, bs => bs.bytePos + fetchedFor n bs
  | .readBytes _ nBytes, bs =>
    if bs.bitsInCache % 8 ≠ 0 then bs.bytePos
    else if bs.size < (rewound bs).bytePos + nBytes then (rewound bs).bytePos
    else (rewound bs).bytePos + nBytes
  | .align _, bs | .readBitsUnchecked _ _, bs | .peekBitsUnchecked _ _, bs
  | .skipBitsUnchecked _ _, bs => bs.bytePos

/-- Where the parts of a checked function do not move the byte position, only its refill does. -/
theorem checked_bytePos {α : Type} {zero short : BsReader → α} {act : BsReader → ℕ → Eval α}
    (position : α → ℕ) (h : ReaderInv order bs) (hzero : position (zero bs) = bs.bytePos)
    (hshort : ∀ s, position (short s) = s.bytePos)
    (hact : ∀ s, position ((act s n).value mode) = s.bytePos) :
    position ((checked (refill order) zero short act bs n).value mode) =
      bs.bytePos + fetchedFor n bs := by
  unfold checked fetchedFor
  by_cases hn : n = 0
  · rw [if_pos hn, if_pos hn]
    exact hzero
  · obtain ⟨hrefills, hfull⟩ := (refill_refills mode h).post
    rw [if_neg hn, if_neg hn, Eval.value_bind, Eval.value_ite, ← hrefills.bytePos_eq h hfull]
    split_ifs
    · exact hshort _
    · exact hact _

/-- A checked read or peek moves the byte position by its refill. -/
theorem checked_field_bytePos {act : BsReader → ℕ → Eval (BitVec 32 × BsReader)}
    (h : ReaderInv order bs) (hact : ∀ s, ((act s n).value mode).2.bytePos = s.bytePos) :
    ((checked (refill order) (0, ·) (0, ·) act bs n).value mode).2.bytePos =
      bs.bytePos + fetchedFor n bs :=
  checked_bytePos (fun read : BitVec 32 × BsReader ↦ read.2.bytePos) h rfl (fun _ ↦ rfl) hact

theorem take_bytePos (order : BitOrder) (n : ℕ) (s : BsReader) :
    ((take order s n).value mode).2.bytePos = s.bytePos := by
  cases order <;> rfl

theorem peek_bytePos (order : BitOrder) (n : ℕ) (s : BsReader) :
    ((peek order s n).value mode).2.bytePos = s.bytePos := by
  cases order <;> rfl

theorem drop_bytePos (order : BitOrder) (n : ℕ) (s : BsReader) :
    ((drop order s n).value mode).bytePos = s.bytePos := by
  cases order <;> rfl

theorem clear_bytePos (order : BitOrder) (s : BsReader) : (clear order s).bytePos = s.bytePos := by
  cases order <;> rfl

theorem align_bytePos (order : BitOrder) (s : BsReader) :
    ((align order s).value mode).bytePos = s.bytePos := by
  rw [align_eq, Eval.value_ite]
  split_ifs
  · exact drop_bytePos order _ s
  · rfl

theorem BlockRead.bytePos_eq {dst : List (BitVec 8)} {nBytes : ℕ}
    {read : (Bool × List (BitVec 8)) × BsReader} (hread : BlockRead bs dst nBytes read) :
    read.2.bytePos = nextBytePos (.readBytes dst nBytes) bs := by
  rw [nextBytePos]
  cases hread with
  | misaligned hinside => rw [if_pos hinside]
  | short haligned hshort => rw [if_neg (by omega), if_pos hshort]
  | copied haligned hfit => rw [if_neg (by omega), if_neg (by omega)]

/-- The byte position after a checked call does not depend on the order. -/
theorem readerAct_bytePos (sizeT : SizeT) {issued : Overshift × ReaderCall}
    (h : Tracks order bs c) (horder : InOrder order issued.2) (hcall : CheckedCall issued.2) :
    (readerAct sizeT issued bs).2.bytePos = nextBytePos issued.2 bs := by
  obtain ⟨mode, call⟩ := issued
  unfold readerAct
  cases call with
  | readBit =>
    cases horder
    exact checked_field_bytePos h.toReaderInv (take_bytePos .msb 1)
  | readBits o n =>
    cases horder
    rw [readerStep_readBits]
    exact checked_field_bytePos h.toReaderInv (take_bytePos order n)
  | peekBits o n =>
    cases horder
    rw [readerStep_peekBits]
    exact checked_field_bytePos h.toReaderInv (peek_bytePos order n)
  | skipBits o n =>
    cases horder
    rw [readerStep_skipBits, skip_eq]
    exact checked_bytePos BsReader.bytePos h.toReaderInv rfl (clear_bytePos order)
      (drop_bytePos order n)
  | align o =>
    cases horder
    rw [readerStep_align]
    exact align_bytePos order bs
  | readBytes dst nBytes =>
    have hpos := h.pos_add
    exact (bsReadBytes_reads mode sizeT h.bytePos_le (by omega) dst nBytes).post.bytePos_eq
  | readBitsUnchecked | peekBitsUnchecked | skipBitsUnchecked => exact hcall.elim

/-! ### Two runs -/

/-- Readers of the two orders at the same position, with the same bytes fetched. -/
structure Mirrors (s s' : BsReader) (c : Cursor) : Prop where
  msb : Tracks .msb s c
  lsb : Tracks .lsb s' c.mirror
  bytePos_eq : s'.bytePos = s.bytePos

theorem mirrors_init (buffer : List (BitVec 8)) :
    Mirrors (bsReaderInit buffer buffer.length)
      (bsReaderInit (buffer.map BitVec.reverse) (buffer.map BitVec.reverse).length)
      (.start buffer) where
  msb := tracks_init .msb buffer
  lsb := tracks_init .lsb (buffer.map BitVec.reverse)
  bytePos_eq := rfl

theorem Mirrors.bits_eq (h : Mirrors s s' c) : s'.bitsInCache = s.bitsInCache := by
  have hmsb := h.msb.pos_add
  have hlsb := h.lsb.pos_add
  have hbytes := h.bytePos_eq
  rw [Cursor.mirror_pos] at hlsb
  omega

theorem Mirrors.size_eq (h : Mirrors s s' c) : s'.size = s.size := by
  rw [h.lsb.size_eq, h.lsb.buffer_eq, Cursor.mirror_buffer, List.length_map, h.msb.size_eq,
    h.msb.buffer_eq]

theorem Mirrors.nextBytePos_eq (h : Mirrors s s' c) {call : ReaderCall} (hcall : Mirrorable call) :
    nextBytePos (mirrorCall call) s' = nextBytePos call s := by
  have hfetched : fetched s' = fetched s := by
    rw [fetched, fetched, h.size_eq, h.bytePos_eq, h.bits_eq]
  have hrewound : (rewound s').bytePos = (rewound s).bytePos := by
    rw [rewound, rewound, h.bytePos_eq, h.bits_eq]
  cases call with
  | readBits | peekBits | skipBits =>
    rw [mirrorCall, nextBytePos, nextBytePos, fetchedFor, fetchedFor, hfetched, h.bytePos_eq]
  | align => exact h.bytePos_eq
  | readBytes =>
    rw [mirrorCall, nextBytePos, nextBytePos, hrewound, h.bytePos_eq, h.bits_eq, h.size_eq]
  | readBit | readBitsUnchecked | peekBitsUnchecked | skipBitsUnchecked => exact hcall.elim

/-- What the two runs have equal besides the replies. -/
def readerCounters (sizeT : SizeT) (bs : BsReader) : ℕ × ℕ × ℕ × Bool :=
  (bs.bytePos, bs.bitsInCache, bsReaderBitsLeft sizeT bs, bsReaderEof bs)

theorem Mirrors.counters_eq (sizeT : SizeT) (h : Mirrors s s' c) :
    readerCounters sizeT s' = readerCounters sizeT s := by
  have heof : bsReaderEof s' = bsReaderEof s := by
    rw [bsReaderEof, bsReaderEof, h.bytePos_eq, h.size_eq, h.bits_eq]
  rw [readerCounters, readerCounters, h.bytePos_eq, h.bits_eq, h.lsb.bitsLeft_eq,
    h.msb.bitsLeft_eq, Cursor.mirror_left, heof]

/-- One call on both readers. -/
theorem Mirrors.step (sizeT : SizeT) (h : Mirrors s s' c) {issued image : Overshift × ReaderCall}
    (hcall : Mirrorable issued.2) (himage : image.2 = mirrorCall issued.2) :
    mirrorReply issued.2 (readerAct sizeT issued s).1 = (readerAct sizeT image s').1 ∧
      Mirrors (readerAct sizeT issued s).2 (readerAct sizeT image s').2 (c.step issued.2).2 := by
  obtain ⟨hmsb, hlsb⟩ := hcall.inOrder
  obtain ⟨hallowed, hallowed'⟩ := hcall.allowed sizeT s s'
  rw [← himage] at hlsb hallowed'
  obtain ⟨hreply, htracks⟩ := readerAct_tracks sizeT h.msb ⟨hmsb, hallowed⟩
  obtain ⟨hreply', htracks'⟩ := readerAct_tracks sizeT h.lsb ⟨hlsb, hallowed'⟩
  have hpos := readerAct_bytePos sizeT h.msb hmsb hcall.checked.1
  have hpos' := readerAct_bytePos sizeT h.lsb hlsb (himage ▸ hcall.checked.2)
  rw [himage, Cursor.mirror_step hcall c] at hreply' htracks'
  rw [himage, h.nextBytePos_eq hcall] at hpos'
  exact ⟨(congrArg _ hreply).trans hreply'.symm, htracks, htracks', hpos'.trans hpos.symm⟩

/-- A run of the most significant first functions and its mirrored run, with whatever undefined
shifts yield in either, have mirrored replies and equal counters after every call. -/
theorem reader_mirror (sizeT : SizeT) (buffer : List (BitVec 8))
    {issued image : List (Overshift × ReaderCall)} (hcalls : ∀ call ∈ issued, Mirrorable call.2)
    (himage : image.map Prod.snd = issued.map fun call ↦ mirrorCall call.2) :
    List.zipWith
        (fun call entry ↦ (mirrorReply call.2 entry.1, readerCounters sizeT entry.2)) issued
        (trace (readerAct sizeT) issued (bsReaderInit buffer buffer.length)) =
      (trace (readerAct sizeT) image
          (bsReaderInit (buffer.map BitVec.reverse) (buffer.map BitVec.reverse).length)).map
        fun entry ↦ (entry.1, readerCounters sizeT entry.2) := by
  have halong : Along (readerAct sizeT) (fun call _ ↦ Mirrorable call.2) issued
      (bsReaderInit buffer buffer.length) :=
    .of_calls hcalls _
  refine zipWith_trace_eq (R := fun s s' ↦ ∃ c, Mirrors s s' c)
    (fun call other s s' hother hrel hcall ↦ ?_) (forall₂_of_map_eq himage) halong
    ⟨_, mirrors_init buffer⟩
  obtain ⟨c, hmirrors⟩ := hrel
  obtain ⟨hreply, hnext⟩ := hmirrors.step sizeT hcall hother
  exact ⟨Prod.ext hreply (hnext.counters_eq sizeT).symm, _, hnext⟩

end Bitstream.Reading
