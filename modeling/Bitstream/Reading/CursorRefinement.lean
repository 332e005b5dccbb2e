import Bitstream.Reading.BothOrders
import Bitstream.Reading.Tracking

/-!
# The reader refines the cursor

Each reader function, called on a reader that tracks a cursor, answers as the cursor does and
leaves a reader that tracks the moved cursor; along the way every shift, difference and access is
defined. The two bit orders share one proof: `ImplementsOrder` lists what the refill, the field
extraction and the consumption of an order must do, and the checked and unchecked functions follow
from it. `readerStep_ensures` is the step lemma for all calls, and `trace_refines_cursor` the
induction over a run: the reply, the count of bits left and the end-of-stream test agree with the
cursor after every call.
-/

set_option autoImplicit false
set_option relaxedAutoImplicit false

namespace Bitstream.Reading

open Foundation Header

variable {mode : Overshift} {order : BitOrder} {bs : BsReader} {c : Cursor} {n : ℕ}

/-! ### Readers at the end or with an empty cache -/

/-- A reader with an empty cache tracks the cursor at its byte position, in both orders. -/
theorem tracks_of_empty_cache (order : BitOrder) (hsize : bs.size = bs.buffer.length)
    (hle : bs.bytePos ≤ bs.size) (hbits : bs.bitsInCache = 0) (hcache : bs.bitCache = 0)
    (hbuffer : bs.buffer = c.buffer) (hpos : c.pos = 8 * bs.bytePos) : Tracks order bs c where
  size_eq := hsize
  bytePos_le := hle
  bits_le := by omega
  clean := fun _ ↦ by simp [hcache, hbits]
  buffer_eq := hbuffer
  pos_add := by omega
  unread_eq := by
    rw [unread, hbits, queued_zero, List.nil_append, stream_drop, Cursor.rest, hpos, hbuffer]

/-- A skip past the end of a fully fetched buffer empties the cache. -/
theorem Tracks.clear {bitCache : BitVec 64} (h : Tracks order bs c) (hend : bs.bytePos = bs.size)
    (hshort : c.left < n) (hclean : order = .lsb → bitCache = 0) :
    Tracks order { bs with bitCache := bitCache, bitsInCache := 0 } (c.skip n) where
  size_eq := h.size_eq
  bytePos_le := h.bytePos_le
  bits_le := Nat.zero_le _
  clean := fun hlsb ↦ by simp [hclean hlsb]
  buffer_eq := h.buffer_eq
  pos_add := by
    show (c.skip n).pos + 0 = 8 * bs.bytePos
    rw [Cursor.skip_pos_of_lt hshort, hend, h.size_eq, h.buffer_eq, Nat.add_zero]
  unread_eq := by
    have hnone : bs.buffer.drop bs.bytePos = [] := by
      rw [hend, h.size_eq, List.drop_length]
    have hrest : (c.skip n).rest order = [] := by
      rw [Cursor.rest, Cursor.skip_pos_of_lt hshort, Cursor.skip_buffer,
        List.drop_eq_nil_of_le (by rw [length_stream])]
    rw [hrest, unread, queued_zero]
    show [] ++ stream order (bs.buffer.drop bs.bytePos) = []
    rw [hnone]
    rfl

/-! ### What a bit order implements -/

/-- The parts that differ between the bit orders, and what they do on a reader that tracks a
cursor. -/
structure ImplementsOrder (order : BitOrder) (mode : Overshift)
    (refill : BsReader → Eval BsReader) (take peek : BsReader → ℕ → Eval (BitVec 32 × BsReader))
    (drop : BsReader → ℕ → Eval BsReader) (clear : BsReader → BsReader) : Prop where
  refill {bs : BsReader} : ReaderInv order bs →
    Eval.Ensures mode (refill bs) fun after ↦ Refills order bs after ∧ Refilled after
  take {bs : BsReader} {c : Cursor} {n : ℕ} : Tracks order bs c → 1 ≤ n → n ≤ 32 →
    n ≤ bs.bitsInCache → Eval.Ensures mode (take bs n) fun read ↦
      read.1 = c.peek order n ∧ Tracks order read.2 (c.read n)
  peek {bs : BsReader} {c : Cursor} {n : ℕ} : Tracks order bs c → 1 ≤ n → n ≤ 32 →
    n ≤ bs.bitsInCache → Eval.Ensures mode (peek bs n) fun read ↦
      read.1 = c.peek order n ∧ Tracks order read.2 c
  drop {bs : BsReader} {c : Cursor} {n : ℕ} : Tracks order bs c → n < 64 →
    n ≤ bs.bitsInCache → Eval.Ensures mode (drop bs n) fun after ↦ Tracks order after (c.skip n)
  clear {bs : BsReader} {c : Cursor} {n : ℕ} : Tracks order bs c → bs.bytePos = bs.size →
    c.left < n → Tracks order (clear bs) (c.skip n)

/-- The field that the code extracts is the field queued in the low bits of the word. -/
theorem lowField_ensures (order : BitOrder) (word : BitVec 64) (hn : n ≤ 32) :
    Eval.Ensures mode (lowField word n) fun result ↦
      result = BitVec.ofNat 32 (fieldValue order (queued order n word)) := by
  refine (Eval.ensures_shiftLeft (by omega)).bind_eq ?_
  refine Eval.ensures_pure (BitVec.eq_of_toNat_eq ?_)
  have hmask := toNat_and_lowMask word (n := n) (by omega)
  rw [lowMask] at hmask
  rw [BitVec.toNat_setWidth, hmask, queued, fieldValue_fieldBits, BitVec.toNat_ofNat]

theorem msb_implementsOrder (mode : Overshift) :
    ImplementsOrder .msb mode bsReaderRefill takeBits showBits dropBits
      (fun bs ↦ { bs with bitsInCache := 0 }) where
  refill := bsReaderRefill_refills
  take := by
    intro bs c n h hpos hn hbits
    have hrange := h.bits_le
    refine (Eval.ensures_sub 32 hbits).bind_eq ?_
    refine (Eval.ensures_shiftRight (by omega)).bind_eq ?_
    refine (lowField_ensures .msb _ hn).bind_eq ?_
    refine Eval.ensures_pure ⟨(h.peek_msb hbits).symm, ?_⟩
    rw [Cursor.read_of_le (h.le_left hbits)]
    exact h.advance_msb hbits
  peek := by
    intro bs c n h hpos hn hbits
    have hrange := h.bits_le
    refine (Eval.ensures_sub 32 hbits).bind_eq ?_
    refine (Eval.ensures_shiftRight (by omega)).bind_eq ?_
    refine (lowField_ensures .msb _ hn).bind_eq ?_
    exact Eval.ensures_pure ⟨(h.peek_msb hbits).symm, h⟩
  drop := by
    intro bs c n h _ hbits
    refine (Eval.ensures_sub 32 hbits).bind_eq ?_
    apply Eval.ensures_pure
    rw [Cursor.skip_of_le (h.le_left hbits)]
    exact h.advance_msb hbits
  clear := fun h hend hshort ↦ h.clear hend hshort fun hlsb ↦ nomatch hlsb

theorem lsb_implementsOrder (mode : Overshift) :
    ImplementsOrder .lsb mode bsReaderRefillLsb takeBitsLsb showBitsLsb dropBitsLsb
      (fun bs ↦ { bs with bitsInCache := 0, bitCache := 0 }) where
  refill := bsReaderRefillLsb_refills
  take := by
    intro bs c n h _ hn hbits
    refine (lowField_ensures .lsb _ hn).bind_eq ?_
    refine (Eval.ensures_shiftRight (by omega)).bind_eq ?_
    refine (Eval.ensures_sub 32 hbits).bind_eq ?_
    refine Eval.ensures_pure ⟨(h.peek_lsb hbits).symm, ?_⟩
    rw [Cursor.read_of_le (h.le_left hbits)]
    exact h.advance_lsb hbits
  peek := by
    intro bs c n h _ hn hbits
    refine (lowField_ensures .lsb _ hn).bind_eq ?_
    exact Eval.ensures_pure ⟨(h.peek_lsb hbits).symm, h⟩
  drop := by
    intro bs c n h hn hbits
    refine (Eval.ensures_shiftRight hn).bind_eq ?_
    refine (Eval.ensures_sub 32 hbits).bind_eq ?_
    apply Eval.ensures_pure
    rw [Cursor.skip_of_le (h.le_left hbits)]
    exact h.advance_lsb hbits
  clear := fun h hend hshort ↦ h.clear hend hshort fun _ ↦ rfl

theorem implementsOrder (order : BitOrder) (mode : Overshift) :
    ImplementsOrder order mode (refill order) (take order) (peek order) (drop order)
      (clear order) := by
  cases order with
  | msb => exact msb_implementsOrder mode
  | lsb => exact lsb_implementsOrder mode

/-! ### The functions of an order -/

section Functions

variable {refill : BsReader → Eval BsReader}
  {take peek : BsReader → ℕ → Eval (BitVec 32 × BsReader)}
  {drop : BsReader → ℕ → Eval BsReader} {clear : BsReader → BsReader}

/-- The frame of the checked functions: after the refill either the field is cached, or the stream
is shorter than the field and fully fetched. -/
theorem checked_ensures {α : Type} {zero short : BsReader → α} {act : BsReader → ℕ → Eval α}
    {post : α → Prop} (himpl : ImplementsOrder order mode refill take peek drop clear)
    (h : Tracks order bs c) (hn : n ≤ 32) (hzero : n = 0 → post (zero bs))
    (hshort : ∀ after, Tracks order after c → after.bytePos = after.size → c.left < n →
      post (short after))
    (hact : ∀ after, Tracks order after c → 1 ≤ n → n ≤ after.bitsInCache →
      Eval.Ensures mode (act after n) post) :
    Eval.Ensures mode (checked refill zero short act bs n) post := by
  unfold checked
  by_cases hn0 : n = 0
  · rw [if_pos hn0]
    exact Eval.ensures_pure (hzero hn0)
  · rw [if_neg hn0]
    refine (himpl.refill h.toReaderInv).bind fun after ⟨hrefills, hfull⟩ ↦ ?_
    have hafter := h.refills hrefills
    by_cases hbits : after.bitsInCache < n
    · rw [if_pos hbits]
      obtain ⟨hend, hleft⟩ := hafter.left_eq_of_short hfull hn hbits
      exact Eval.ensures_pure (hshort after hafter hend (by omega))
    · rw [if_neg hbits]
      exact hact after hafter (by omega) (by omega)

theorem checked_take_ensures (himpl : ImplementsOrder order mode refill take peek drop clear)
    (h : Tracks order bs c) (hn : n ≤ 32) :
    Eval.Ensures mode (checked refill (0, ·) (0, ·) take bs n) fun read ↦
      read.1 = c.peek order n ∧ Tracks order read.2 (c.read n) := by
  refine checked_ensures himpl h hn (fun hzero ↦ ?_) (fun after hafter _ hleft ↦ ?_)
    fun after hafter hpos hbits ↦ himpl.take hafter hpos hn hbits
  · rw [hzero, Cursor.peek_zero, Cursor.read_zero]
    exact ⟨rfl, h⟩
  · rw [Cursor.peek_of_lt hleft, Cursor.read_of_lt hleft]
    exact ⟨rfl, hafter⟩

theorem checked_peek_ensures (himpl : ImplementsOrder order mode refill take peek drop clear)
    (h : Tracks order bs c) (hn : n ≤ 32) :
    Eval.Ensures mode (checked refill (0, ·) (0, ·) peek bs n) fun read ↦
      read.1 = c.peek order n ∧ Tracks order read.2 c := by
  refine checked_ensures himpl h hn (fun hzero ↦ ?_) (fun after hafter _ hleft ↦ ?_)
    fun after hafter hpos hbits ↦ himpl.peek hafter hpos hn hbits
  · rw [hzero, Cursor.peek_zero]
    exact ⟨rfl, h⟩
  · rw [Cursor.peek_of_lt hleft]
    exact ⟨rfl, hafter⟩

theorem checked_drop_ensures (himpl : ImplementsOrder order mode refill take peek drop clear)
    (h : Tracks order bs c) (hn : n ≤ 32) :
    Eval.Ensures mode (checked refill id clear drop bs n) fun after ↦
      Tracks order after (c.skip n) := by
  refine checked_ensures himpl h hn (fun hzero ↦ ?_)
    (fun after hafter hend hleft ↦ himpl.clear hafter hend hleft)
    fun after hafter _ hbits ↦ himpl.drop hafter (by omega) hbits
  rw [hzero, Cursor.skip_of_le (Nat.zero_le _)]
  exact h

/-- An unchecked function whose bits are in the stream finds them in the refilled cache. -/
theorem unchecked_ensures {α : Type} {act : BsReader → ℕ → Eval α} {post : α → Prop}
    (himpl : ImplementsOrder order mode refill take peek drop clear) (h : Tracks order bs c)
    (hn : n ≤ 32) (hleft : n ≤ c.left)
    (hact : ∀ after, Tracks order after c → n ≤ after.bitsInCache →
      Eval.Ensures mode (act after n) post) :
    Eval.Ensures mode (unchecked refill act bs n) post := by
  refine (himpl.refill h.toReaderInv).bind fun after ⟨hrefills, hfull⟩ ↦ ?_
  have hafter := h.refills hrefills
  exact hact after hafter (hafter.le_bits_of_refilled hfull hn hleft)

theorem align_ensures (himpl : ImplementsOrder order mode refill take peek drop clear)
    (h : Tracks order bs c) :
    Eval.Ensures mode (if bs.bitsInCache % 8 > 0 then drop bs (bs.bitsInCache % 8) else pure bs)
      fun after ↦ Tracks order after c.align := by
  have hpos := h.pos_add
  by_cases hres : bs.bitsInCache % 8 > 0
  · rw [if_pos hres]
    have hle : bs.bitsInCache % 8 ≤ bs.bitsInCache := Nat.mod_le _ _
    have hmoved : c.skip (bs.bitsInCache % 8) = c.align := by
      rw [Cursor.skip_of_le (h.le_left hle)]
      refine Cursor.ext rfl ?_
      show c.pos + bs.bitsInCache % 8 = 8 * ((c.pos + 7) / 8)
      omega
    rw [← hmoved]
    exact himpl.drop h (by omega) hle
  · rw [if_neg hres]
    have hstay : c.align = c := by
      refine Cursor.ext rfl ?_
      show 8 * ((c.pos + 7) / 8) = c.pos
      omega
    rw [hstay]
    exact Eval.ensures_pure h

end Functions

theorem bsReadBit_ensures (h : Tracks .msb bs c) :
    Eval.Ensures mode (bsReadBit bs) fun read ↦
      read.1 = (c.peek .msb 1).setWidth 8 ∧ Tracks .msb read.2 (c.read 1) := by
  refine (checked_take_ensures (msb_implementsOrder mode) h (by norm_num)).bind ?_
  intro read ⟨hvalue, htracks⟩
  exact Eval.ensures_pure ⟨congrArg (BitVec.setWidth 8) hvalue, htracks⟩

/-- The reader with its cached bytes given back. -/
def rewound (bs : BsReader) : BsReader :=
  { bs with bytePos := bs.bytePos - bs.bitsInCache / 8, bitsInCache := 0, bitCache := 0 }

/-- The three ways in which `bs_read_bytes` ends. -/
inductive BlockRead (bs : BsReader) (dst : List (BitVec 8)) (nBytes : ℕ) :
    (Bool × List (BitVec 8)) × BsReader → Prop
  /-- The position is inside a byte: nothing happens. -/
  | misaligned (h : bs.bitsInCache % 8 ≠ 0) : BlockRead bs dst nBytes ((false, dst), bs)
  /-- The block is not there: the cached bytes are given back. -/
  | short (haligned : bs.bitsInCache % 8 = 0) (hshort : bs.size < (rewound bs).bytePos + nBytes) :
    BlockRead bs dst nBytes ((false, dst), rewound bs)
  /-- The block is copied. -/
  | copied (haligned : bs.bitsInCache % 8 = 0) (hfit : (rewound bs).bytePos + nBytes ≤ bs.size) :
    BlockRead bs dst nBytes
      ((true, (bs.buffer.drop (rewound bs).bytePos).take nBytes ++ dst.drop nBytes),
        { rewound bs with bytePos := (rewound bs).bytePos + nBytes })

theorem bsReadBytes_reads (mode : Overshift) (sizeT : SizeT) (hle : bs.bytePos ≤ bs.size)
    (hfetched : bs.bitsInCache ≤ 8 * bs.bytePos) (dst : List (BitVec 8)) (nBytes : ℕ) :
    Eval.Ensures mode (bsReadBytes sizeT bs dst nBytes) (BlockRead bs dst nBytes) := by
  unfold bsReadBytes
  by_cases haligned : bs.bitsInCache % 8 ≠ 0
  · rw [if_pos haligned]
    exact Eval.ensures_pure (.misaligned haligned)
  · rw [if_neg haligned]
    refine (Eval.ensures_sub _ (by omega)).bind_eq ?_
    refine (Eval.ensures_sub _ ((Nat.sub_le _ _).trans hle)).bind_eq ?_
    by_cases hmany : nBytes > bs.size - (bs.bytePos - bs.bitsInCache / 8)
    · have hshort : bs.size < (rewound bs).bytePos + nBytes := by
        show bs.size < bs.bytePos - bs.bitsInCache / 8 + nBytes
        omega
      rw [if_pos hmany]
      exact Eval.ensures_pure (.short (by omega) hshort)
    · have hfit : (rewound bs).bytePos + nBytes ≤ bs.size := by
        show bs.bytePos - bs.bitsInCache / 8 + nBytes ≤ bs.size
        omega
      rw [if_neg hmany]
      refine (Eval.ensures_loadBlock hfit).bind_eq ?_
      exact Eval.ensures_pure (.copied (by omega) hfit)

/-- A reader between two bytes tracks its cursor with its cached bytes given back, in both orders.
-/
theorem tracks_rewound (h : Tracks order bs c) (haligned : bs.bitsInCache % 8 = 0)
    (other : BitOrder) : Tracks other (rewound bs) c := by
  have hpos := h.pos_add
  refine tracks_of_empty_cache other h.size_eq ((Nat.sub_le _ _).trans h.bytePos_le) rfl rfl
    h.buffer_eq ?_
  show c.pos = 8 * (bs.bytePos - bs.bitsInCache / 8)
  omega

/-- A bulk copy from an aligned position rewinds the fetched bytes and leaves an empty cache, which
serves both orders. -/
theorem bsReadBytes_ensures (sizeT : SizeT) (h : Tracks order bs c) (dst : List (BitVec 8))
    (nBytes : ℕ) :
    Eval.Ensures mode (bsReadBytes sizeT bs dst nBytes) fun read ↦
      read.1 = (c.readBytes dst nBytes).1 ∧ Tracks order read.2 (c.readBytes dst nBytes).2 ∧
        (c.pos % 8 = 0 → ∀ other, Tracks other read.2 (c.readBytes dst nBytes).2) := by
  have hpos := h.pos_add
  have hle := h.bytePos_le
  have hleft := h.left_eq
  have hbyte : (rewound bs).bytePos = bs.bytePos - bs.bitsInCache / 8 := rfl
  refine (bsReadBytes_reads mode sizeT hle (by omega) dst nBytes).mono fun read hread ↦ ?_
  unfold Cursor.readBytes
  cases hread with
  | misaligned haligned =>
    rw [dif_neg (by omega)]
    exact ⟨rfl, h, fun hzero ↦ absurd hzero (by omega)⟩
  | short haligned hshort =>
    rw [dif_neg (by omega)]
    exact ⟨rfl, tracks_rewound h haligned order, fun _ ↦ tracks_rewound h haligned⟩
  | copied haligned hfit =>
    have hroom : c.pos % 8 = 0 ∧ 8 * nBytes ≤ c.left := by omega
    have hdiv : (rewound bs).bytePos = c.pos / 8 := by omega
    rw [dif_pos hroom]
    have hcopied (other : BitOrder) : Tracks other
        { rewound bs with bytePos := (rewound bs).bytePos + nBytes }
        (c.advance _ hroom.2) :=
      tracks_of_empty_cache other h.size_eq hfit rfl rfl h.buffer_eq
        (by
          show c.pos + 8 * nBytes = 8 * ((rewound bs).bytePos + nBytes)
          omega)
    refine ⟨?_, hcopied order, fun _ ↦ hcopied⟩
    rw [hdiv, h.buffer_eq]

/-! ### Status -/

theorem Tracks.bitsLeft_eq (sizeT : SizeT) (h : Tracks order bs c) :
    bsReaderBitsLeft sizeT bs = c.left % 2 ^ sizeT.bits := by
  have hle := h.bytePos_le
  rw [h.left_eq, bsReaderBitsLeft]
  by_cases hend : bs.bytePos ≥ bs.size
  · rw [if_pos hend, Nat.sub_eq_zero_of_le hend, Nat.mul_zero, Nat.add_zero]
  · rw [if_neg hend]
    show ((bs.size - bs.bytePos) * 8 % 2 ^ sizeT.bits + bs.bitsInCache) % 2 ^ sizeT.bits = _
    rw [Nat.mod_add_mod, Nat.mul_comm, Nat.add_comm]

theorem Tracks.bitsLeft_le (sizeT : SizeT) (h : Tracks order bs c) :
    bsReaderBitsLeft sizeT bs ≤ c.left := by
  rw [h.bitsLeft_eq sizeT]
  exact Nat.mod_le _ _

theorem Tracks.eof_eq (h : Tracks order bs c) :
    bsReaderEof bs = decide (c.pos = 8 * c.buffer.length) := by
  have hpos := h.pos_add
  have hle := h.bytePos_le
  have hsize := h.size_eq
  rw [h.buffer_eq] at hsize
  rw [bsReaderEof, decide_eq_decide]
  omega

/-! ### Steps and runs -/

/-- The functions of a call belong to a bit order; a bulk copy belongs to both. -/
def InOrder (order : BitOrder) : ReaderCall → Prop
  | .readBit => order = .msb
  | .readBits o _ | .peekBits o _ | .skipBits o _ => o = order
  | .readBitsUnchecked o _ | .peekBitsUnchecked o _ | .skipBitsUnchecked o _ => o = order
  | .align o => o = order
  | .readBytes _ _ => True

/-- The documented conditions of a call: a width of at most 32 and, for an unchecked call, a width
of at least 1 with the bits in the stream, or in the cache for a skip. -/
def Allowed (sizeT : SizeT) (bs : BsReader) : ReaderCall → Prop
  | .readBits _ n | .peekBits _ n | .skipBits _ n => n ≤ 32
  | .readBitsUnchecked _ n | .peekBitsUnchecked _ n =>
    1 ≤ n ∧ n ≤ 32 ∧ n ≤ bsReaderBitsLeft sizeT bs
  | .skipBitsUnchecked _ n => 1 ≤ n ∧ n ≤ 32 ∧ n ≤ bs.bitsInCache
  | .readBit | .align _ | .readBytes _ _ => True

instance (order : BitOrder) : DecidablePred (InOrder order)
  | .readBit => inferInstanceAs (Decidable (order = .msb))
  | .readBits o _ | .peekBits o _ | .skipBits o _ | .readBitsUnchecked o _
  | .peekBitsUnchecked o _ | .skipBitsUnchecked o _ | .align o =>
    inferInstanceAs (Decidable (o = order))
  | .readBytes _ _ => .isTrue trivial

instance (sizeT : SizeT) (bs : BsReader) : DecidablePred (Allowed sizeT bs)
  | .readBits _ n | .peekBits _ n | .skipBits _ n => inferInstanceAs (Decidable (n ≤ 32))
  | .readBitsUnchecked _ n | .peekBitsUnchecked _ n =>
    inferInstanceAs (Decidable (1 ≤ n ∧ n ≤ 32 ∧ n ≤ bsReaderBitsLeft sizeT bs))
  | .skipBitsUnchecked _ n => inferInstanceAs (Decidable (1 ≤ n ∧ n ≤ 32 ∧ n ≤ bs.bitsInCache))
  | .readBit | .align _ | .readBytes _ _ => .isTrue trivial

theorem fieldReply_ensures {x : Eval (BitVec 32 × BsReader)} {value : BitVec 32}
    (hx : Eval.Ensures mode x fun read ↦ read.1 = value ∧ Tracks order read.2 c) :
    Eval.Ensures mode (fieldReply <$> x) fun entry ↦
      entry.1 = .field value ∧ Tracks order entry.2 c :=
  (hx.mono fun _ ⟨hvalue, htracks⟩ ↦ ⟨congrArg ReaderReply.field hvalue, htracks⟩).map

theorem doneReply_ensures {x : Eval BsReader}
    (hx : Eval.Ensures mode x fun after ↦ Tracks order after c) :
    Eval.Ensures mode ((ReaderReply.done, ·) <$> x) fun entry ↦
      entry.1 = .done ∧ Tracks order entry.2 c :=
  (hx.mono fun _ htracks ↦ ⟨rfl, htracks⟩).map

/-- The step lemma: on a reader that tracks a cursor, an allowed call of its order is defined,
answers as the cursor does, and leaves a reader that tracks the moved cursor. -/
theorem readerStep_ensures (sizeT : SizeT) (mode : Overshift) {call : ReaderCall}
    (h : Tracks order bs c) (horder : InOrder order call) (hallowed : Allowed sizeT bs call) :
    Eval.Ensures mode (readerStep sizeT call bs) fun entry ↦
      entry.1 = (c.step call).1 ∧ Tracks order entry.2 (c.step call).2 := by
  have himpl := implementsOrder order mode
  cases call with
  | readBit =>
    cases horder
    refine (bsReadBit_ensures h).bind fun read ⟨hvalue, htracks⟩ ↦ ?_
    exact Eval.ensures_pure ⟨congrArg ReaderReply.bit hvalue, htracks⟩
  | readBits o n =>
    cases horder
    rw [readerStep_readBits]
    exact fieldReply_ensures (checked_take_ensures himpl h hallowed)
  | peekBits o n =>
    cases horder
    rw [readerStep_peekBits]
    exact fieldReply_ensures (checked_peek_ensures himpl h hallowed)
  | skipBits o n =>
    cases horder
    rw [readerStep_skipBits, skip_eq]
    exact doneReply_ensures (checked_drop_ensures himpl h hallowed)
  | readBitsUnchecked o n =>
    cases horder
    obtain ⟨hpos, hn, hbits⟩ := hallowed
    rw [readerStep_readBitsUnchecked]
    exact fieldReply_ensures (unchecked_ensures himpl h hn (hbits.trans (h.bitsLeft_le sizeT))
      fun after hafter hcached ↦ himpl.take hafter hpos hn hcached)
  | peekBitsUnchecked o n =>
    cases horder
    obtain ⟨hpos, hn, hbits⟩ := hallowed
    rw [readerStep_peekBitsUnchecked]
    exact fieldReply_ensures (unchecked_ensures himpl h hn (hbits.trans (h.bitsLeft_le sizeT))
      fun after hafter hcached ↦ himpl.peek hafter hpos hn hcached)
  | skipBitsUnchecked o n =>
    cases horder
    obtain ⟨_, hn, hcached⟩ := hallowed
    rw [readerStep_skipBitsUnchecked]
    exact doneReply_ensures (himpl.drop h (by omega) hcached)
  | align o =>
    cases horder
    rw [readerStep_align, align_eq]
    exact doneReply_ensures (align_ensures himpl h)
  | readBytes dst nBytes =>
    refine (bsReadBytes_ensures sizeT h dst nBytes).bind fun read ⟨hblock, htracks, _⟩ ↦ ?_
    refine Eval.ensures_pure ⟨?_, htracks⟩
    show ReaderReply.block read.1.1 read.1.2 = .block _ _
    rw [hblock]

/-- The call of a run is of one order and its documented conditions hold where it is made. -/
def AllowedCall (sizeT : SizeT) (order : BitOrder) (issued : Overshift × ReaderCall)
    (bs : BsReader) : Prop := InOrder order issued.2 ∧ Allowed sizeT bs issued.2

instance (sizeT : SizeT) (order : BitOrder) (issued : Overshift × ReaderCall) (bs : BsReader) :
    Decidable (AllowedCall sizeT order issued bs) :=
  inferInstanceAs (Decidable (InOrder order issued.2 ∧ Allowed sizeT bs issued.2))

theorem readerAct_tracks (sizeT : SizeT) {issued : Overshift × ReaderCall} (h : Tracks order bs c)
    (hallowed : AllowedCall sizeT order issued bs) :
    (readerAct sizeT issued bs).1 = (c.step issued.2).1 ∧
      Tracks order (readerAct sizeT issued bs).2 (c.step issued.2).2 :=
  (readerStep_ensures sizeT issued.1 h hallowed.1 hallowed.2).post

/-- A run of allowed calls replies as the cursor does, and ends on a reader that tracks it. -/
theorem run_tracks (sizeT : SizeT) {issued : List (Overshift × ReaderCall)} (h : Tracks order bs c)
    (hallowed : Along (readerAct sizeT) (AllowedCall sizeT order) issued bs) :
    (trace (readerAct sizeT) issued bs).map Prod.fst =
        (trace Cursor.step (issued.map Prod.snd) c).map Prod.fst ∧
      Tracks order (final (readerAct sizeT) issued bs)
        (final Cursor.step (issued.map Prod.snd) c) := by
  constructor
  · exact map_trace_eq Prod.snd (fun call s c' hs hcall ↦ readerAct_tracks sizeT hs hcall)
      hallowed h
  · exact final_related (R := Tracks order) Prod.snd
      (fun call s c' hs hcall ↦ (readerAct_tracks sizeT hs hcall).2) hallowed h

/-- After every call of a run of one order, the reply, the bits left and the end-of-stream test are
those of the cursor; the bits left are counted in `size_t`. -/
theorem trace_refines_cursor (sizeT : SizeT) {issued : List (Overshift × ReaderCall)}
    (h : Tracks order bs c)
    (hallowed : Along (readerAct sizeT) (AllowedCall sizeT order) issued bs) :
    (trace (readerAct sizeT) issued bs).map (readerObservation sizeT) =
      (trace Cursor.step (issued.map Prod.snd) c).map (Cursor.countedObservation sizeT) := by
  refine map_trace_eq Prod.snd (fun call s c' hs hcall ↦ ?_) hallowed h
  obtain ⟨hreply, htracks⟩ := readerAct_tracks sizeT hs hcall
  refine ⟨?_, htracks⟩
  rw [readerObservation, hreply, htracks.bitsLeft_eq sizeT, htracks.eof_eq]
  rfl

/-- Where the bits of the buffer can be counted in `size_t`, every count is exact. -/
theorem countedObservation_eq (sizeT : SizeT) {buffer : List (BitVec 8)}
    (hcount : 8 * buffer.length < 2 ^ sizeT.bits) (calls : List ReaderCall) :
    (trace Cursor.step calls (.start buffer)).map (Cursor.countedObservation sizeT) =
      (trace Cursor.step calls (.start buffer)).map Cursor.observation := by
  have halong : Along Cursor.step (fun _ _ ↦ True) calls (Cursor.start buffer) :=
    .of_forall (fun _ _ _ ↦ trivial) _
  have hkept := halong.invariant (fun c : Cursor ↦ c.buffer = buffer)
    (fun call c hc _ ↦ (Cursor.step_buffer call c).trans hc) rfl
  refine List.map_congr_left fun entry hentry ↦ ?_
  have hbuffer := hkept entry hentry
  have hleft : entry.2.left < 2 ^ sizeT.bits := by
    rw [Cursor.left, hbuffer]
    omega
  rw [Cursor.countedObservation, Nat.mod_eq_of_lt hleft, Cursor.observation]

/-! ### The two readers -/

/-- The checked bit-level calls of one order with widths of at most 32. -/
def BitCall (order : BitOrder) : ReaderCall → Prop
  | .readBit => order = .msb
  | .readBits o n | .peekBits o n | .skipBits o n => o = order ∧ n ≤ 32
  | .align o => o = order
  | .readBitsUnchecked _ _ | .peekBitsUnchecked _ _ | .skipBitsUnchecked _ _ => False
  | .readBytes _ _ => False

instance (order : BitOrder) : DecidablePred (BitCall order)
  | .readBit => inferInstanceAs (Decidable (order = .msb))
  | .readBits o n | .peekBits o n | .skipBits o n =>
    inferInstanceAs (Decidable (o = order ∧ n ≤ 32))
  | .align o => inferInstanceAs (Decidable (o = order))
  | .readBitsUnchecked _ _ | .peekBitsUnchecked _ _ | .skipBitsUnchecked _ _ | .readBytes _ _ =>
    .isFalse id

/-- A checked bit-level call is allowed in every state. -/
theorem BitCall.allowed {call : ReaderCall} (sizeT : SizeT) (h : BitCall order call)
    (bs : BsReader) : InOrder order call ∧ Allowed sizeT bs call := by
  cases call with
  | readBit => exact ⟨h, trivial⟩
  | readBits | peekBits | skipBits => exact h
  | align => exact ⟨h, trivial⟩
  | readBitsUnchecked | peekBitsUnchecked | skipBitsUnchecked | readBytes => exact h.elim

theorem bitCalls_refine_cursor (sizeT : SizeT) (order : BitOrder) {buffer : List (BitVec 8)}
    (hcount : 8 * buffer.length < 2 ^ sizeT.bits) {issued : List (Overshift × ReaderCall)}
    (hcalls : ∀ call ∈ issued, BitCall order call.2) :
    (trace (readerAct sizeT) issued (bsReaderInit buffer buffer.length)).map
        (readerObservation sizeT) =
      (trace Cursor.step (issued.map Prod.snd) (.start buffer)).map Cursor.observation := by
  have hallowed : Along (readerAct sizeT) (AllowedCall sizeT order) issued
      (bsReaderInit buffer buffer.length) :=
    .of_forall (fun call hcall bs ↦ (hcalls call hcall).allowed sizeT bs) _
  rw [trace_refines_cursor sizeT (tracks_init order buffer) hallowed,
    countedObservation_eq sizeT hcount]

/-- The most significant first reader is the cursor over the bits of its buffer, each byte's bit 7
first. Assumes: the bit count of the buffer fits in `size_t`, and the calls are `bs_read_bit`,
`bs_read_bits`, `bs_peek_bits`, `bs_skip_bits` with widths of at most 32 and `bs_reader_align`. -/
theorem msb_reader_refines_cursor (sizeT : SizeT) (buffer : List (BitVec 8))
    (hcount : 8 * buffer.length < 2 ^ sizeT.bits) (issued : List (Overshift × ReaderCall))
    (hcalls : ∀ call ∈ issued, BitCall .msb call.2) :
    (trace (readerAct sizeT) issued (bsReaderInit buffer buffer.length)).map
        (readerObservation sizeT) =
      (trace Cursor.step (issued.map Prod.snd) (.start buffer)).map Cursor.observation :=
  bitCalls_refine_cursor sizeT .msb hcount hcalls

/-- A run over two bytes that peeks, reads across the byte boundary, fails, and clips. -/
theorem msb_reader_refines_cursor_two_bytes :
    (trace (readerAct sizeT64)
        ([.readBit, .peekBits .msb 4, .readBits .msb 9, .readBits .msb 32, .align .msb,
          .skipBits .msb 3].map (Prod.mk .masked)) (bsReaderInit [0xA5, 0x3C] 2)).map
        (readerObservation sizeT64) =
      (trace Cursor.step
        (([.readBit, .peekBits .msb 4, .readBits .msb 9, .readBits .msb 32, .align .msb,
          .skipBits .msb 3].map (Prod.mk Overshift.masked)).map Prod.snd)
        (.start [0xA5, 0x3C])).map Cursor.observation :=
  msb_reader_refines_cursor sizeT64 [0xA5, 0x3C] (by decide) _ (by decide)

/-- The least significant first reader is the cursor over the bits of its buffer, each byte's bit 0
first. Assumes: the bit count of the buffer fits in `size_t`, and the calls are `bs_read_bits_lsb`,
`bs_peek_bits_lsb`, `bs_skip_bits_lsb` with widths of at most 32 and `bs_reader_align_lsb`. -/
theorem lsb_reader_refines_cursor (sizeT : SizeT) (buffer : List (BitVec 8))
    (hcount : 8 * buffer.length < 2 ^ sizeT.bits) (issued : List (Overshift × ReaderCall))
    (hcalls : ∀ call ∈ issued, BitCall .lsb call.2) :
    (trace (readerAct sizeT) issued (bsReaderInit buffer buffer.length)).map
        (readerObservation sizeT) =
      (trace Cursor.step (issued.map Prod.snd) (.start buffer)).map Cursor.observation :=
  bitCalls_refine_cursor sizeT .lsb hcount hcalls

/-- The same run in the other order. -/
theorem lsb_reader_refines_cursor_two_bytes :
    (trace (readerAct sizeT64)
        ([.peekBits .lsb 4, .readBits .lsb 9, .readBits .lsb 32, .align .lsb,
          .skipBits .lsb 3].map (Prod.mk .masked)) (bsReaderInit [0xA5, 0x3C] 2)).map
        (readerObservation sizeT64) =
      (trace Cursor.step
        (([.peekBits .lsb 4, .readBits .lsb 9, .readBits .lsb 32, .align .lsb,
          .skipBits .lsb 3].map (Prod.mk Overshift.masked)).map Prod.snd)
        (.start [0xA5, 0x3C])).map Cursor.observation :=
  lsb_reader_refines_cursor sizeT64 [0xA5, 0x3C] (by decide) _ (by decide)

end Bitstream.Reading
