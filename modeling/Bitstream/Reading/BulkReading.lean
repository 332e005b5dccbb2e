import Bitstream.Reading.Skipping

/-!
# Bulk reads

A bulk read that succeeds copies the bytes that single reads of the order would return, and
synchronises the reader: from then on it is a fresh reader on the rest of the buffer, for calls of
both orders in any sequence. What lies in front of the byte position does not matter to a reader
whose cached bits were fetched (`Ahead`), which every checked call preserves. A bulk read that fails
inside a byte changes nothing, and one that fails for lack of bytes only gives the cached bytes
back. It succeeds exactly when the bytes are there, which the count of bits left tells as long as it
has not wrapped (`bulkReadsExactly_iff`).
-/

set_option autoImplicit false
set_option relaxedAutoImplicit false

namespace Bitstream.Reading

open Foundation Header

variable {sizeT : SizeT} {order : BitOrder} {mode : Overshift} {bs s t : BsReader} {c : Cursor}
  {pre dst : List (BitVec 8)} {k n : ℕ}

/-! ### Bytes in front of a reader -/

/-- The reader with more bytes in front of its buffer, all of them fetched and consumed. -/
def withFront (pre : List (BitVec 8)) (bs : BsReader) : BsReader :=
  { bs with
    buffer := pre ++ bs.buffer
    size := pre.length + bs.size
    bytePos := pre.length + bs.bytePos }

@[simp] theorem withFront_bitsInCache (pre : List (BitVec 8)) (bs : BsReader) :
    (withFront pre bs).bitsInCache = bs.bitsInCache := rfl

theorem withFront_bytePos (pre : List (BitVec 8)) (bs : BsReader) :
    (withFront pre bs).bytePos = pre.length + bs.bytePos := rfl

theorem withFront_size (pre : List (BitVec 8)) (bs : BsReader) :
    (withFront pre bs).size = pre.length + bs.size := rfl

@[simp] theorem withFront_ends_iff (pre : List (BitVec 8)) (bs : BsReader) :
    (withFront pre bs).bytePos ≥ (withFront pre bs).size ↔ bs.bytePos ≥ bs.size :=
  Nat.add_le_add_iff_left

/-- The next byte is the same behind the bytes in front. -/
theorem withFront_next_byte (pre : List (BitVec 8)) (bs : BsReader) :
    (withFront pre bs).buffer.getD (withFront pre bs).bytePos default =
      bs.buffer.getD bs.bytePos default := by
  show (pre ++ bs.buffer).getD (pre.length + bs.bytePos) default = _
  rw [List.getD_append_right _ _ _ _ (Nat.le_add_right _ _), Nat.add_sub_cancel_left]

/-- Two readers that differ in consumed bytes only, with all cached bits fetched from the others. -/
structure Ahead (pre : List (BitVec 8)) (s t : BsReader) : Prop where
  eq_withFront : s = withFront pre t
  fetched : t.bitsInCache ≤ 8 * t.bytePos

theorem Ahead.eof_eq (h : Ahead pre s t) : bsReaderEof s = bsReaderEof t := by
  rw [h.eq_withFront, bsReaderEof, bsReaderEof, decide_eq_decide, withFront_ends_iff,
    withFront_bitsInCache]

theorem Ahead.bitsLeft_eq (sizeT : SizeT) (h : Ahead pre s t) :
    bsReaderBitsLeft sizeT s = bsReaderBitsLeft sizeT t := by
  have hleft : (withFront pre t).size - (withFront pre t).bytePos = t.size - t.bytePos :=
    Nat.add_sub_add_left _ _ _
  rw [h.eq_withFront, bsReaderBitsLeft, bsReaderBitsLeft, hleft, withFront_bitsInCache]
  exact if_congr (withFront_ends_iff pre t) rfl rfl

/-! ### Refilling behind bytes in front -/

theorem refillLoop_ahead {push : BsReader → BitVec 8 → Eval (BitVec 64)}
    (hpush : ∀ bs byte, push (withFront pre bs) byte = push bs byte) (passes : ℕ)
    (h : Ahead pre s t) :
    Ahead pre ((refillLoop push passes s).value mode) ((refillLoop push passes t).value mode) := by
  induction passes generalizing s t with
  | zero => exact h
  | succ passes ih =>
    obtain ⟨rfl, hfetched⟩ := h
    rw [refillLoop, refillLoop, withFront_bitsInCache]
    by_cases hbits : t.bitsInCache ≤ 56
    · by_cases hend : t.bytePos ≥ t.size
      · rw [if_pos hbits, if_pos hbits, if_pos hend,
          if_pos ((withFront_ends_iff pre t).mpr hend)]
        exact ⟨rfl, hfetched⟩
      · rw [if_pos hbits, if_pos hbits, if_neg hend,
          if_neg (mt (withFront_ends_iff pre t).mp hend)]
        simp only [Eval.value_bind, Eval.value_load, Eval.value_add, withFront_next_byte, hpush]
        refine ih ⟨rfl, ?_⟩
        show (t.bitsInCache + 8) % 2 ^ 32 ≤ 8 * (t.bytePos + 1)
        omega
    · rw [if_neg hbits, if_neg hbits]
      exact ⟨rfl, hfetched⟩

theorem refill_ahead (order : BitOrder) (mode : Overshift) (h : Ahead pre s t) :
    Ahead pre ((refill order s).value mode) ((refill order t).value mode) := by
  rw [refill_eq, refill_eq]
  refine refillLoop_ahead (fun bs byte ↦ ?_) 8 h
  cases order <;> rfl

/-- The frame of the checked functions relates what its parts relate. -/
theorem checked_ahead {α : Type} {R : α → α → Prop} {zero short : BsReader → α}
    {act : BsReader → ℕ → Eval α} (order : BitOrder) (h : Ahead pre s t)
    (hzero : R (zero s) (zero t)) (hshort : ∀ s t, Ahead pre s t → R (short s) (short t))
    (hact : ∀ s t, Ahead pre s t → n ≤ t.bitsInCache →
      R ((act s n).value mode) ((act t n).value mode)) :
    R ((checked (refill order) zero short act s n).value mode)
      ((checked (refill order) zero short act t n).value mode) := by
  unfold checked
  by_cases hn : n = 0
  · rw [if_pos hn, if_pos hn]
    exact hzero
  · rw [if_neg hn, if_neg hn, Eval.value_bind, Eval.value_bind]
    have hrefill := refill_ahead order mode h
    generalize (refill order s).value mode = s' at hrefill ⊢
    generalize (refill order t).value mode = t' at hrefill ⊢
    have hbits : s'.bitsInCache = t'.bitsInCache := by
      rw [hrefill.eq_withFront, withFront_bitsInCache]
    rw [hbits]
    by_cases hfew : t'.bitsInCache < n
    · rw [if_pos hfew, if_pos hfew]
      exact hshort _ _ hrefill
    · rw [if_neg hfew, if_neg hfew]
      exact hact _ _ hrefill (by omega)

/-! ### Calls behind bytes in front -/

/-- Two results that agree, on readers that differ in consumed bytes only. -/
def SameAhead {α : Type} (pre : List (BitVec 8)) (x y : α × BsReader) : Prop :=
  x.1 = y.1 ∧ Ahead pre x.2 y.2

/-- What a call does with the cache does not depend on the bytes in front, and takes no more from
the cache than it holds. -/
theorem act_ahead {α : Type} {act : BsReader → ℕ → Eval (α × BsReader)}
    (hact : ∀ bs, (act (withFront pre bs) n).value mode =
      (((act bs n).value mode).1, withFront pre ((act bs n).value mode).2))
    (hpos : ((act t n).value mode).2.bytePos = t.bytePos)
    (hbits : ((act t n).value mode).2.bitsInCache ≤ t.bitsInCache) (h : Ahead pre s t) :
    SameAhead pre ((act s n).value mode) ((act t n).value mode) := by
  obtain ⟨rfl, hfetched⟩ := h
  rw [hact]
  refine ⟨rfl, rfl, ?_⟩
  rw [hpos]
  exact hbits.trans hfetched

theorem sub_le_left (mode : Overshift) {bits : ℕ} (hn : n ≤ bits) :
    (Eval.sub 32 bits n).value mode ≤ bits := by
  rw [Eval.value_sub mode 32 hn]
  exact Nat.sub_le _ _

theorem drop_ahead (order : BitOrder) (mode : Overshift) (h : Ahead pre s t)
    (hn : n ≤ t.bitsInCache) :
    Ahead pre ((drop order s n).value mode) ((drop order t n).value mode) := by
  obtain ⟨rfl, hfetched⟩ := h
  have hbits := (sub_le_left mode hn).trans hfetched
  cases order with
  | msb => exact ⟨rfl, hbits⟩
  | lsb => exact ⟨rfl, hbits⟩

theorem clear_ahead (order : BitOrder) (h : Ahead pre s t) :
    Ahead pre (clear order s) (clear order t) := by
  obtain ⟨rfl, hfetched⟩ := h
  cases order with
  | msb => exact ⟨rfl, Nat.zero_le _⟩
  | lsb => exact ⟨rfl, Nat.zero_le _⟩

theorem withFront_rewound (pre : List (BitVec 8)) (hfetched : t.bitsInCache ≤ 8 * t.bytePos) :
    rewound (withFront pre t) = withFront pre (rewound t) := by
  have hpos : pre.length + t.bytePos - t.bitsInCache / 8 =
      pre.length + (t.bytePos - t.bitsInCache / 8) := Nat.add_sub_assoc (by omega) _
  rw [rewound, withFront_bytePos, withFront_bitsInCache, hpos]
  rfl

/-- A difference does not depend on what is added on both sides. -/
theorem value_sub_add_left (width m left right : ℕ) (mode : Overshift) :
    (Eval.sub width (m + left) (m + right)).value mode =
      (Eval.sub width left right).value mode := by
  show (if m + right ≤ m + left then m + left - (m + right)
      else m + left + 2 ^ width - (m + right)) =
    if right ≤ left then left - right else left + 2 ^ width - right
  split_ifs <;> omega

/-- A bulk read from an aligned position, with the bytes available counted in `size_t`. -/
theorem value_bsReadBytes (sizeT : SizeT) (mode : Overshift)
    (hfetched : t.bitsInCache ≤ 8 * t.bytePos) (haligned : t.bitsInCache % 8 = 0)
    (dst : List (BitVec 8)) (nBytes : ℕ) :
    (bsReadBytes sizeT t dst nBytes).value mode =
      if nBytes > (Eval.sub sizeT.bits t.size (rewound t).bytePos).value mode then
        ((false, dst), rewound t)
      else
        ((true, (t.buffer.drop (rewound t).bytePos).take nBytes ++ dst.drop nBytes),
          { rewound t with bytePos := (rewound t).bytePos + nBytes }) := by
  have haligned' : ¬ t.bitsInCache % 8 ≠ 0 := by omega
  rw [bsReadBytes, if_neg haligned', Eval.value_bind, Eval.value_sub mode _ (by omega)]
  exact Eval.value_ite mode _ _ _

theorem bsReadBytes_ahead (sizeT : SizeT) (mode : Overshift) (h : Ahead pre s t)
    (dst : List (BitVec 8)) (nBytes : ℕ) :
    SameAhead pre ((bsReadBytes sizeT s dst nBytes).value mode)
      ((bsReadBytes sizeT t dst nBytes).value mode) := by
  obtain ⟨rfl, hfetched⟩ := h
  by_cases haligned : t.bitsInCache % 8 = 0
  · have hfetched' : (withFront pre t).bitsInCache ≤ 8 * (withFront pre t).bytePos := by
      rw [withFront_bitsInCache, withFront_bytePos]
      omega
    rw [value_bsReadBytes sizeT mode hfetched haligned,
      value_bsReadBytes sizeT mode hfetched' haligned, withFront_rewound pre hfetched,
      withFront_size, withFront_bytePos, value_sub_add_left]
    by_cases hmany : nBytes > (Eval.sub sizeT.bits t.size (rewound t).bytePos).value mode
    · rw [if_pos hmany, if_pos hmany]
      exact ⟨rfl, rfl, Nat.zero_le _⟩
    · rw [if_neg hmany, if_neg hmany]
      have hblock : (withFront pre t).buffer.drop (pre.length + (rewound t).bytePos) =
          t.buffer.drop (rewound t).bytePos := List.drop_length_add_append _
      rw [hblock, Nat.add_assoc]
      exact ⟨rfl, rfl, Nat.zero_le _⟩
  · have hvalue (bs : BsReader) (hbs : bs.bitsInCache % 8 ≠ 0) :
        (bsReadBytes sizeT bs dst nBytes).value mode = ((false, dst), bs) := by
      rw [bsReadBytes, if_pos hbs]
      rfl
    rw [hvalue t haligned, hvalue (withFront pre t) haligned]
    exact ⟨rfl, rfl, hfetched⟩

theorem take_ahead (order : BitOrder) (mode : Overshift) (h : Ahead pre s t)
    (hn : n ≤ t.bitsInCache) :
    SameAhead pre ((take order s n).value mode) ((take order t n).value mode) := by
  cases order with
  | msb => exact act_ahead (fun _ ↦ rfl) rfl (sub_le_left mode hn) h
  | lsb => exact act_ahead (fun _ ↦ rfl) rfl (sub_le_left mode hn) h

theorem peek_ahead (order : BitOrder) (mode : Overshift) (h : Ahead pre s t) :
    SameAhead pre ((peek order s n).value mode) ((peek order t n).value mode) := by
  cases order with
  | msb => exact act_ahead (fun _ ↦ rfl) rfl le_rfl h
  | lsb => exact act_ahead (fun _ ↦ rfl) rfl le_rfl h

/-- A checked read or peek returns the same field. -/
theorem checked_field_ahead {act : BsReader → ℕ → Eval (BitVec 32 × BsReader)} (order : BitOrder)
    (h : Ahead pre s t) (hact : ∀ s t, Ahead pre s t → n ≤ t.bitsInCache →
      SameAhead pre ((act s n).value mode) ((act t n).value mode)) :
    SameAhead pre ((checked (refill order) (0, ·) (0, ·) act s n).value mode)
      ((checked (refill order) (0, ·) (0, ·) act t n).value mode) :=
  checked_ahead order h ⟨rfl, h⟩ (fun _ _ hst ↦ ⟨rfl, hst⟩) hact

theorem align_ahead (order : BitOrder) (mode : Overshift) (h : Ahead pre s t) :
    Ahead pre ((align order s).value mode) ((align order t).value mode) := by
  have hbits : s.bitsInCache = t.bitsInCache := by
    rw [h.eq_withFront, withFront_bitsInCache]
  rw [align_eq, align_eq, hbits]
  by_cases hres : t.bitsInCache % 8 > 0
  · rw [if_pos hres, if_pos hres]
    exact drop_ahead order mode h (Nat.mod_le _ _)
  · rw [if_neg hres, if_neg hres]
    exact h

/-- The step lemma: a checked call on readers that differ in consumed bytes only is answered alike,
and leaves such readers. -/
theorem readerAct_ahead (sizeT : SizeT) {issued : Overshift × ReaderCall} (h : Ahead pre s t)
    (hcall : CheckedCall issued.2) :
    SameAhead pre (readerAct sizeT issued s) (readerAct sizeT issued t) := by
  obtain ⟨mode, call⟩ := issued
  unfold readerAct
  cases call with
  | readBit =>
    have hread := checked_field_ahead .msb h fun s t hst hn ↦ take_ahead (n := 1) .msb mode hst hn
    exact ⟨congrArg (fun value : BitVec 32 ↦ ReaderReply.bit (value.setWidth 8)) hread.1, hread.2⟩
  | readBits order n =>
    have hread := checked_field_ahead order h fun s t hst hn ↦ take_ahead (n := n) order mode hst hn
    rw [readerStep_readBits, readerStep_readBits]
    exact ⟨congrArg ReaderReply.field hread.1, hread.2⟩
  | peekBits order n =>
    have hread := checked_field_ahead order h fun s t hst _ ↦ peek_ahead (n := n) order mode hst
    rw [readerStep_peekBits, readerStep_peekBits]
    exact ⟨congrArg ReaderReply.field hread.1, hread.2⟩
  | skipBits order n =>
    rw [readerStep_skipBits, readerStep_skipBits, skip_eq, skip_eq]
    exact ⟨rfl, checked_ahead order h h (fun _ _ hst ↦ clear_ahead order hst)
      fun _ _ hst hn ↦ drop_ahead order mode hst hn⟩
  | align order =>
    rw [readerStep_align, readerStep_align]
    exact ⟨rfl, align_ahead order mode h⟩
  | readBytes dst nBytes =>
    obtain ⟨hblock, hnext⟩ := bsReadBytes_ahead sizeT mode h dst nBytes
    exact ⟨congrArg (fun block : Bool × List (BitVec 8) ↦ ReaderReply.block block.1 block.2) hblock,
      hnext⟩
  | readBitsUnchecked | peekBitsUnchecked | skipBitsUnchecked => exact hcall.elim

/-- A reader with an empty cache is a fresh reader on the rest of its buffer, with the bytes passed
in front. -/
theorem ahead_fresh (bs : BsReader) (hsize : bs.size = bs.buffer.length)
    (hle : bs.bytePos ≤ bs.size) (hbits : bs.bitsInCache = 0) (hcache : bs.bitCache = 0) :
    Ahead (bs.buffer.take bs.bytePos) bs
      (bsReaderInit (bs.buffer.drop bs.bytePos) (bs.buffer.drop bs.bytePos).length) where
  eq_withFront := by
    have hlength : (bs.buffer.take bs.bytePos).length = bs.bytePos := by
      rw [List.length_take]
      omega
    have hrest : bs.bytePos + (bs.buffer.drop bs.bytePos).length = bs.size := by
      rw [List.length_drop]
      omega
    rw [withFront, bsReaderInit, List.take_append_drop, hlength, Nat.add_zero, hrest, ← hbits,
      ← hcache]
  fetched := Nat.zero_le _

/-- A run of checked calls shows the same on readers that differ in consumed bytes only. -/
theorem trace_ahead (sizeT : SizeT) (h : Ahead pre s t) {issued : List (Overshift × ReaderCall)}
    (hcalls : ∀ call ∈ issued, CheckedCall call.2) :
    (trace (readerAct sizeT) issued s).map (readerObservation sizeT) =
      (trace (readerAct sizeT) issued t).map (readerObservation sizeT) := by
  have halong : Along (readerAct sizeT) (fun call _ ↦ CheckedCall call.2) issued s :=
    .of_calls hcalls s
  have hrun := map_trace_eq (R := Ahead pre) id (fun call s t hst hcall ↦ by
    obtain ⟨hreply, hnext⟩ := readerAct_ahead sizeT hst hcall
    refine ⟨?_, hnext⟩
    show readerObservation sizeT _ = readerObservation sizeT (readerAct sizeT call t)
    rw [readerObservation, readerObservation, hreply, hnext.bitsLeft_eq, hnext.eof_eq]) halong h
  rwa [List.map_id] at hrun

/-! ### Bytes read one at a time -/

/-- Eight bits between two bytes are the next byte. -/
theorem Cursor.peek_byte (order : BitOrder) (c : Cursor) (haligned : c.pos % 8 = 0)
    (hleft : 8 ≤ c.left) (hlt : c.pos / 8 < c.buffer.length) :
    c.peek order 8 = c.buffer[c.pos / 8].setWidth 32 := by
  have hrest : c.rest order = wordBits order c.buffer[c.pos / 8] ++
      stream order (c.buffer.drop (c.pos / 8 + 1)) := by
    have hpos : c.pos = 8 * (c.pos / 8) := by omega
    rw [Cursor.rest]
    conv_lhs => rw [hpos]
    rw [← stream_drop, List.drop_eq_getElem_cons hlt, stream_cons]
  rw [Cursor.peek, if_pos hleft, hrest, List.take_left' (length_wordBits order _), wordBits,
    fieldValue_fieldBits, Nat.mod_eq_of_lt c.buffer[c.pos / 8].isLt]
  exact BitVec.eq_of_toNat_eq (by rw [BitVec.toNat_ofNat, BitVec.toNat_setWidth])

/-- Reads of eight bits from a position between two bytes return the bytes there. -/
theorem Cursor.read_bytes (order : BitOrder) (k : ℕ) {c : Cursor} (haligned : c.pos % 8 = 0)
    (hleft : 8 * k ≤ c.left) :
    (trace Cursor.step (List.replicate k (.readBits order 8)) c).map Prod.fst =
      ((c.buffer.drop (c.pos / 8)).take k).map fun byte ↦ ReaderReply.field (byte.setWidth 32) := by
  induction k generalizing c with
  | zero => rw [List.take_zero]; rfl
  | succ k ih =>
    have hpos := c.pos_le
    have height : 8 ≤ c.left := by omega
    have hlt : c.pos / 8 < c.buffer.length := by
      unfold Cursor.left at height
      omega
    have hnext := ih (c := c.advance 8 height) (by show (c.pos + 8) % 8 = 0; omega) (by
      show 8 * k ≤ 8 * c.buffer.length - (c.pos + 8)
      unfold Cursor.left at hleft
      omega)
    have hbyte : (c.advance 8 height).pos / 8 = c.pos / 8 + 1 := by
      show (c.pos + 8) / 8 = _
      omega
    rw [hbyte, Cursor.advance_buffer] at hnext
    rw [List.replicate_succ, List.drop_eq_getElem_cons hlt, List.take_succ_cons, List.map_cons,
      ← hnext, ← c.peek_byte order haligned height hlt]
    show _ :: (trace Cursor.step _ (c.read 8)).map Prod.fst = _
    rw [Cursor.read_of_le height]
    rfl

/-! ### The contract -/

/-- What is asked of a bulk read: it succeeds exactly between two bytes with the bytes counted as
left; then the block holds what single reads of the order would have returned, the bytes of the
destination behind it are as before, and every later run of checked calls, of both orders in any
sequence, shows what a fresh reader on the rest of the buffer shows; inside a byte nothing changes;
for lack of bytes the destination is as before, and the count of bits left and later runs of the
order show what they would have shown without it; between two bytes, later runs of either order show
what a cursor shows. The second hypothesis of `short` is about unchecked skips alone, which ask for
bits in the cache that the failed copy has handed back; for all other calls the first implies it. -/
structure BulkReadsExactly (sizeT : SizeT) (order : BitOrder) (bs : BsReader) (c : Cursor)
    (dst : List (BitVec 8)) (k : ℕ) (read : (Bool × List (BitVec 8)) × BsReader) : Prop where
  ok_iff : read.1.1 = true ↔ c.pos % 8 = 0 ∧ 8 * k ≤ bsReaderBitsLeft sizeT bs
  block_eq : read.1.1 = true → ∀ single : List (Overshift × ReaderCall),
    single.map Prod.snd = List.replicate k (.readBits order 8) →
      (trace (readerAct sizeT) single bs).map Prod.fst =
        (read.1.2.take k).map fun byte ↦ ReaderReply.field (byte.setWidth 32)
  behind_eq : read.1.1 = true → read.1.2.drop k = dst.drop k
  fresh : read.1.1 = true → ∀ later : List (Overshift × ReaderCall),
    (∀ call ∈ later, CheckedCall call.2) →
      (trace (readerAct sizeT) later read.2).map (readerObservation sizeT) =
        (trace (readerAct sizeT) later (bsReaderInit (bs.buffer.drop (c.pos / 8 + k))
          (bs.buffer.drop (c.pos / 8 + k)).length)).map (readerObservation sizeT)
  misaligned : c.pos % 8 ≠ 0 → read = ((false, dst), bs)
  short : read.1.1 = false → c.pos % 8 = 0 → read.1.2 = dst ∧
    bsReaderBitsLeft sizeT read.2 = bsReaderBitsLeft sizeT bs ∧
      ∀ later : List (Overshift × ReaderCall),
        Along (readerAct sizeT) (AllowedCall sizeT order) later bs →
          Along (readerAct sizeT) (AllowedCall sizeT order) later read.2 →
            (trace (readerAct sizeT) later read.2).map (readerObservation sizeT) =
              (trace (readerAct sizeT) later bs).map (readerObservation sizeT)
  synchronised : c.pos % 8 = 0 → ∀ (other : BitOrder) (later : List (Overshift × ReaderCall)),
    Along (readerAct sizeT) (AllowedCall sizeT other) later read.2 →
      (trace (readerAct sizeT) later read.2).map (readerObservation sizeT) =
        (trace Cursor.step (later.map Prod.snd) (c.readBytes dst k).2).map
          (Cursor.countedObservation sizeT)

section Ends

variable {read : (Bool × List (BitVec 8)) × BsReader}

theorem BlockRead.ok_iff (hread : BlockRead bs dst k read) (h : Tracks order bs c) :
    read.1.1 = true ↔ c.pos % 8 = 0 ∧ 8 * k ≤ c.left := by
  have hpos := h.pos_add
  have hle := h.bytePos_le
  have hleft := h.left_eq
  have hbyte : (rewound bs).bytePos = bs.bytePos - bs.bitsInCache / 8 := rfl
  cases hread with
  | misaligned hinside => exact iff_of_false Bool.false_ne_true (by omega)
  | short haligned hshort => exact iff_of_false Bool.false_ne_true (by omega)
  | copied haligned hfit => exact iff_of_true rfl (by omega)

/-- A bulk read that succeeds reads from the byte of the position, and stays in the buffer. -/
theorem BlockRead.of_ok (hread : BlockRead bs dst k read) (h : Tracks order bs c)
    (hok : read.1.1 = true) :
    c.pos / 8 + k ≤ bs.size ∧
      read = ((true, (bs.buffer.drop (c.pos / 8)).take k ++ dst.drop k),
        { rewound bs with bytePos := c.pos / 8 + k }) := by
  have hpos := h.pos_add
  cases hread with
  | misaligned | short => exact nomatch hok
  | copied haligned hfit =>
    have hbyte : (rewound bs).bytePos = c.pos / 8 := by
      show bs.bytePos - bs.bitsInCache / 8 = c.pos / 8
      omega
    rw [hbyte] at hfit ⊢
    exact ⟨hfit, rfl⟩

theorem BlockRead.block_eq (hread : BlockRead bs dst k read) (h : Tracks order bs c)
    (hok : read.1.1 = true) :
    read.1.2.take k = (c.buffer.drop (c.pos / 8)).take k ∧ read.1.2.drop k = dst.drop k := by
  obtain ⟨hfit, rfl⟩ := hread.of_ok h hok
  have hsize := h.size_eq
  have hlength : ((bs.buffer.drop (c.pos / 8)).take k).length = k := by
    rw [List.length_take, List.length_drop]
    omega
  rw [← h.buffer_eq]
  exact ⟨List.take_left' hlength, List.drop_left' hlength⟩

theorem BlockRead.ahead (hread : BlockRead bs dst k read) (h : Tracks order bs c)
    (hok : read.1.1 = true) :
    Ahead (bs.buffer.take (c.pos / 8 + k)) read.2
      (bsReaderInit (bs.buffer.drop (c.pos / 8 + k))
        (bs.buffer.drop (c.pos / 8 + k)).length) := by
  obtain ⟨hfit, rfl⟩ := hread.of_ok h hok
  exact ahead_fresh { rewound bs with bytePos := c.pos / 8 + k } h.size_eq hfit rfl rfl

theorem BlockRead.eq_of_misaligned (hread : BlockRead bs dst k read) (h : Tracks order bs c)
    (hinside : c.pos % 8 ≠ 0) : read = ((false, dst), bs) := by
  have hpos := h.pos_add
  cases hread with
  | misaligned => rfl
  | short haligned | copied haligned => omega

/-- A bulk read that fails for lack of bytes gives the cached bytes back. -/
theorem BlockRead.eq_of_short (hread : BlockRead bs dst k read) (h : Tracks order bs c)
    (hfailed : read.1.1 = false) (haligned : c.pos % 8 = 0) :
    read = ((false, dst), rewound bs) := by
  have hpos := h.pos_add
  cases hread with
  | misaligned => omega
  | short => rfl
  | copied => exact nomatch hfailed

end Ends

/-- Single reads of eight bits are allowed in every state. -/
theorem along_single_reads (sizeT : SizeT) (bs : BsReader)
    {single : List (Overshift × ReaderCall)}
    (hsingle : single.map Prod.snd = List.replicate k (.readBits order 8)) :
    Along (readerAct sizeT) (AllowedCall sizeT order) single bs := by
  refine .of_forall (fun call hcall s ↦ ?_) bs
  have hread : call.2 = .readBits order 8 :=
    List.eq_of_mem_replicate (hsingle ▸ List.mem_map_of_mem hcall)
  rw [AllowedCall, hread]
  exact ⟨rfl, (by norm_num : 8 ≤ 32)⟩

/-- The exact condition under which a bulk read does what is asked of it. -/
theorem Tracks.bulkReadsExactly_iff_counted (sizeT : SizeT) (mode : Overshift)
    (h : Tracks order bs c) (dst : List (BitVec 8)) (k : ℕ) :
    BulkReadsExactly sizeT order bs c dst k ((bsReadBytes sizeT bs dst k).value mode) ↔
      c.pos % 8 ≠ 0 ∨ 8 * k ≤ c.left % 2 ^ sizeT.bits ∨ c.left < 8 * k := by
  have hpos := h.pos_add
  have hread : BlockRead bs dst k ((bsReadBytes sizeT bs dst k).value mode) :=
    (bsReadBytes_reads mode sizeT h.bytePos_le (by omega) dst k).post
  have hafter : c.pos % 8 = 0 → ∀ other, Tracks other ((bsReadBytes sizeT bs dst k).value mode).2
      (c.readBytes dst k).2 := (bsReadBytes_ensures sizeT h dst k).post.2.2
  generalize (bsReadBytes sizeT bs dst k).value mode = read at hread hafter ⊢
  have hok := hread.ok_iff h
  have hcounted : c.left % 2 ^ sizeT.bits ≤ c.left := Nat.mod_le _ _
  constructor
  · intro hexact
    have hcount := hexact.ok_iff
    rw [hok, h.bitsLeft_eq sizeT] at hcount
    omega
  · intro hcondition
    refine ⟨?_, fun hcopied single hsingle ↦ ?_, fun hcopied ↦ (hread.block_eq h hcopied).2,
      fun hcopied later hlater ↦ trace_ahead sizeT (hread.ahead h hcopied) hlater,
      hread.eq_of_misaligned h, fun hfailed haligned ↦ ?_,
      fun haligned other later hallowed ↦
        trace_refines_cursor sizeT (hafter haligned other) hallowed⟩
    · rw [hok, h.bitsLeft_eq sizeT]
      omega
    · obtain ⟨haligned, hleft⟩ := hok.mp hcopied
      have hreplies := (run_tracks sizeT h (along_single_reads sizeT bs hsingle)).1
      rw [hreplies, hsingle, Cursor.read_bytes order k haligned hleft,
        (hread.block_eq h hcopied).1]
    · obtain rfl := hread.eq_of_short h hfailed haligned
      have hrewound : Tracks order (rewound bs) c := tracks_rewound h (by omega) order
      refine ⟨rfl, ?_, fun later hbefore hlater ↦ ?_⟩
      · rw [hrewound.bitsLeft_eq, h.bitsLeft_eq]
      · rw [trace_refines_cursor sizeT hrewound hlater, trace_refines_cursor sizeT h hbefore]

/-- In every state that a run of one order reaches, a bulk read of any length does what is asked if
and only if the position is inside a byte, or the bytes are there and the count of bits left has not
wrapped below them, or they are not there. Assumes: the documented condition of each call of the run
in the state where it is made. -/
theorem bulkReadsExactly_iff (sizeT : SizeT) (order : BitOrder) (mode : Overshift)
    (buffer : List (BitVec 8)) (issued : List (Overshift × ReaderCall))
    (hallowed : Along (readerAct sizeT) (AllowedCall sizeT order) issued
      (bsReaderInit buffer buffer.length)) (dst : List (BitVec 8)) (k : ℕ) :
    let bs := final (readerAct sizeT) issued (bsReaderInit buffer buffer.length)
    let c := final Cursor.step (issued.map Prod.snd) (Cursor.start buffer)
    BulkReadsExactly sizeT order bs c dst k ((bsReadBytes sizeT bs dst k).value mode) ↔
      c.pos % 8 ≠ 0 ∨ 8 * k ≤ c.left % 2 ^ sizeT.bits ∨ c.left < 8 * k :=
  (run_tracks sizeT (tracks_init order buffer) hallowed).2.bulkReadsExactly_iff_counted sizeT mode
    dst k

/-- Two bytes after three bits and an align. -/
theorem bulkReadsExactly_iff_four_bytes :
    let issued := [.readBits .lsb 3, .align .lsb].map (Prod.mk Overshift.masked)
    let bs := final (readerAct sizeT64) issued (bsReaderInit [1, 2, 3, 4] 4)
    let c := final Cursor.step (issued.map Prod.snd) (Cursor.start [1, 2, 3, 4])
    BulkReadsExactly sizeT64 .lsb bs c [0, 0, 9] 2
        ((bsReadBytes sizeT64 bs [0, 0, 9] 2).value .masked) ↔
      c.pos % 8 ≠ 0 ∨ 8 * 2 ≤ c.left % 2 ^ sizeT64.bits ∨ c.left < 8 * 2 :=
  bulkReadsExactly_iff sizeT64 .lsb .masked [1, 2, 3, 4] _ (by decide) [0, 0, 9] 2

/-- A fresh reader on 512 MiB, with a 32-bit `size_t`: a bulk read of one byte succeeds, although
the count of bits left is 0. -/
theorem bulk_read_of_half_gibibyte :
    let bs := bsReaderInit (List.replicate (2 ^ 29) 0#8) (List.replicate (2 ^ 29) 0#8).length
    ((bsReadBytes sizeT32 bs [0] 1).value .masked).1.1 = true ∧ bsReaderBitsLeft sizeT32 bs = 0 ∧
      ¬ BulkReadsExactly sizeT32 .msb bs (.start (List.replicate (2 ^ 29) 0#8)) [0] 1
        ((bsReadBytes sizeT32 bs [0] 1).value .masked) := by
  intro bs
  have htracks : Tracks .msb bs (.start (List.replicate (2 ^ 29) 0#8)) := tracks_init .msb _
  have hleft : (Cursor.start (List.replicate (2 ^ 29) 0#8)).left = 2 ^ 32 := by
    rw [Cursor.left_start, List.length_replicate]
    norm_num
  have hbits : bsReaderBitsLeft sizeT32 bs = 0 := by
    rw [htracks.bitsLeft_eq, hleft]
    exact Nat.mod_self _
  have hread : BlockRead bs [0] 1 ((bsReadBytes sizeT32 bs [0] 1).value .masked) :=
    (bsReadBytes_reads .masked sizeT32 (Nat.zero_le _) (Nat.zero_le _) [0] 1).post
  have hok : ((bsReadBytes sizeT32 bs [0] 1).value .masked).1.1 = true :=
    (hread.ok_iff htracks).mpr ⟨rfl, by rw [hleft]; norm_num⟩
  refine ⟨hok, hbits, fun hexact ↦ ?_⟩
  have hcount := (hexact.ok_iff.mp hok).2
  rw [hbits] at hcount
  omega

end Bitstream.Reading
