import Bitstream.Foundation.BitQueue
import Bitstream.Reading.Cursor

/-!
# The invariant of the reader

`ReaderInv` is what every reader function preserves by itself: the counters lie in their ranges and,
in the least significant first order, no bit stands above the cached ones. `unread` is the stream a
reader still holds, the cached bits followed by the bytes not yet fetched. A refill moves bytes
between the two parts and leaves `unread` as it is (`Refills`). `Tracks` ties a reader to a cursor:
what is unread is the part of the buffer from the position on.
-/

set_option autoImplicit false
set_option relaxedAutoImplicit false

namespace Bitstream.Reading

open Foundation Header

/-- The counters are in range, and the least significant first cache is clean above its bits. -/
structure ReaderInv (order : BitOrder) (bs : BsReader) : Prop where
  size_eq : bs.size = bs.buffer.length
  bytePos_le : bs.bytePos ≤ bs.size
  bits_le : bs.bitsInCache ≤ 64
  clean : order = .lsb → bs.bitCache.toNat < 2 ^ bs.bitsInCache

/-- The cached bits followed by the bytes not yet fetched. -/
def unread (order : BitOrder) (bs : BsReader) : List Bool :=
  queued order bs.bitsInCache bs.bitCache ++ stream order (bs.buffer.drop bs.bytePos)

theorem ReaderInv.length_unread {order : BitOrder} {bs : BsReader} (h : ReaderInv order bs) :
    (unread order bs).length = bs.bitsInCache + 8 * (bs.size - bs.bytePos) := by
  rw [unread, List.length_append, length_queued, length_stream, List.length_drop, h.size_eq]

/-! ### Refilling -/

/-- Bytes have moved from the buffer to the cache, and the unread bits are the same. -/
structure Refills (order : BitOrder) (before after : BsReader) : Prop where
  inv : ReaderInv order after
  buffer_eq : after.buffer = before.buffer
  size_eq : after.size = before.size
  bytePos_le : before.bytePos ≤ after.bytePos
  count_eq : after.bitsInCache + 8 * before.bytePos = before.bitsInCache + 8 * after.bytePos
  unread_eq : unread order after = unread order before

theorem Refills.refl {order : BitOrder} {bs : BsReader} (h : ReaderInv order bs) :
    Refills order bs bs := ⟨h, rfl, rfl, le_rfl, rfl, rfl⟩

theorem Refills.trans {order : BitOrder} {first middle last : BsReader}
    (h : Refills order first middle) (k : Refills order middle last) :
    Refills order first last where
  inv := k.inv
  buffer_eq := k.buffer_eq.trans h.buffer_eq
  size_eq := k.size_eq.trans h.size_eq
  bytePos_le := h.bytePos_le.trans k.bytePos_le
  count_eq := by
    have hcount := h.count_eq
    have kcount := k.count_eq
    omega
  unread_eq := k.unread_eq.trans h.unread_eq

theorem toNat_setWidth_byte (b : BitVec 8) : (b.setWidth 64).toNat = b.toNat := by
  rw [BitVec.toNat_setWidth, Nat.mod_eq_of_lt (b.isLt.trans (by norm_num))]

theorem queued_setWidth_byte (order : BitOrder) (b : BitVec 8) :
    queued order 8 (b.setWidth 64) = wordBits order b := by
  rw [queued, toNat_setWidth_byte, wordBits]

/-- The unfetched bytes are the next byte followed by those behind it. -/
theorem stream_drop_bytePos {order : BitOrder} {bs : BsReader} (h : ReaderInv order bs)
    (hmore : bs.bytePos < bs.size) :
    stream order (bs.buffer.drop bs.bytePos) =
      wordBits order (bs.buffer.getD bs.bytePos default) ++
        stream order (bs.buffer.drop (bs.bytePos + 1)) := by
  have hlt : bs.bytePos < bs.buffer.length := h.size_eq ▸ hmore
  rw [List.drop_eq_getElem_cons hlt, stream_cons, List.getD_eq_getElem _ _ hlt]

/-- One pass of the most significant first refill: the byte enters below the cached bits, and the
bits pushed out on top were stale. -/
theorem refills_msb_pass {bs : BsReader} (h : ReaderInv .msb bs) (hbits : bs.bitsInCache ≤ 56)
    (hmore : bs.bytePos < bs.size) :
    Refills .msb bs { bs with
      bitCache := bs.bitCache <<< 8 ||| (bs.buffer.getD bs.bytePos default).setWidth 64
      bitsInCache := bs.bitsInCache + 8
      bytePos := bs.bytePos + 1 } where
  inv := ⟨h.size_eq, hmore, by show bs.bitsInCache + 8 ≤ 64; omega, fun hlsb ↦ nomatch hlsb⟩
  buffer_eq := rfl
  size_eq := rfl
  bytePos_le := Nat.le_succ _
  count_eq := by
    show bs.bitsInCache + 8 + 8 * bs.bytePos = bs.bitsInCache + 8 * (bs.bytePos + 1)
    omega
  unread_eq := by
    have hfield : ((bs.buffer.getD bs.bytePos default).setWidth 64).toNat < 2 ^ 8 := by
      rw [toNat_setWidth_byte]
      exact BitVec.isLt _
    show queued .msb (bs.bitsInCache + 8) _ ++ stream .msb (bs.buffer.drop (bs.bytePos + 1)) = _
    rw [queued_msb_push _ _ (by omega) hfield, queued_setWidth_byte, unread,
      stream_drop_bytePos h hmore, List.append_assoc]

/-- One pass of the least significant first refill: the byte enters above the cached bits, where
the cache is clean. -/
theorem refills_lsb_pass {bs : BsReader} (h : ReaderInv .lsb bs) (hbits : bs.bitsInCache ≤ 56)
    (hmore : bs.bytePos < bs.size) :
    Refills .lsb bs { bs with
      bitCache :=
        bs.bitCache ||| (bs.buffer.getD bs.bytePos default).setWidth 64 <<< bs.bitsInCache
      bitsInCache := bs.bitsInCache + 8
      bytePos := bs.bytePos + 1 } where
  inv := by
    have hfield : ((bs.buffer.getD bs.bytePos default).setWidth 64).toNat < 2 ^ 8 := by
      rw [toNat_setWidth_byte]
      exact BitVec.isLt _
    refine ⟨h.size_eq, hmore, ?_, fun hlsb ↦ ?_⟩
    · show bs.bitsInCache + 8 ≤ 64
      omega
    · exact toNat_lsb_push_lt _ _ (by omega) (h.clean hlsb) hfield
  buffer_eq := rfl
  size_eq := rfl
  bytePos_le := Nat.le_succ _
  count_eq := by
    show bs.bitsInCache + 8 + 8 * bs.bytePos = bs.bitsInCache + 8 * (bs.bytePos + 1)
    omega
  unread_eq := by
    show queued .lsb (bs.bitsInCache + 8) _ ++ stream .lsb (bs.buffer.drop (bs.bytePos + 1)) = _
    rw [queued_lsb_push _ _ (by omega) (h.clean rfl), queued_setWidth_byte, unread,
      stream_drop_bytePos h hmore, List.append_assoc]

/-- A loop of refill passes ends with the loop condition false, with the buffer exhausted, or with
the passes used up. -/
def RefillEnds (passes : ℕ) (before after : BsReader) : Prop :=
  56 < after.bitsInCache ∨ after.size ≤ after.bytePos ∨
    before.bitsInCache + 8 * passes ≤ after.bitsInCache

variable {mode : Overshift}

/-- The byte that a push function adds to the cache is the next one of the unread bits. -/
def PushesNext (order : BitOrder) (mode : Overshift)
    (push : BsReader → BitVec 8 → Eval (BitVec 64)) : Prop :=
  ∀ bs : BsReader, ReaderInv order bs → bs.bitsInCache ≤ 56 → bs.bytePos < bs.size →
    Eval.Ensures mode (push bs (bs.buffer.getD bs.bytePos default)) fun bitCache ↦
      Refills order bs { bs with
        bitCache := bitCache
        bitsInCache := bs.bitsInCache + 8
        bytePos := bs.bytePos + 1 }

theorem pushByte_pushesNext : PushesNext .msb mode pushByte := by
  intro bs h hbits hmore
  refine (Eval.ensures_shiftLeft (by norm_num)).bind_eq ?_
  exact Eval.ensures_pure (refills_msb_pass h hbits hmore)

theorem pushByteLsb_pushesNext : PushesNext .lsb mode pushByteLsb := by
  intro bs h hbits hmore
  refine (Eval.ensures_shiftLeft (by omega)).bind_eq ?_
  exact Eval.ensures_pure (refills_lsb_pass h hbits hmore)

/-- The refill loop, by induction on the passes. -/
theorem refillLoop_refills {order : BitOrder} {push : BsReader → BitVec 8 → Eval (BitVec 64)}
    (hpush : PushesNext order mode push) (passes : ℕ) {bs : BsReader} (h : ReaderInv order bs) :
    Eval.Ensures mode (refillLoop push passes bs) fun after ↦
      Refills order bs after ∧ RefillEnds passes bs after := by
  induction passes generalizing bs with
  | zero => exact Eval.ensures_pure ⟨.refl h, .inr (.inr le_rfl)⟩
  | succ passes ih =>
    unfold refillLoop
    by_cases hbits : bs.bitsInCache ≤ 56
    · by_cases hmore : bs.bytePos ≥ bs.size
      · rw [if_pos hbits, if_pos hmore]
        exact Eval.ensures_pure ⟨.refl h, .inr (.inl hmore)⟩
      · rw [if_pos hbits, if_neg hmore]
        have hlt : bs.bytePos < bs.size := Nat.lt_of_not_le hmore
        refine (Eval.ensures_load hlt).bind_eq ?_
        refine (hpush bs h hbits hlt).bind fun bitCache hpass ↦ ?_
        refine (Eval.ensures_add (by omega)).bind_eq ?_
        refine (ih hpass.inv).mono fun after ⟨hafter, hends⟩ ↦ ⟨hpass.trans hafter, ?_⟩
        rcases hends with hfull | hend | hcount
        · exact .inl hfull
        · exact .inr (.inl hend)
        · refine .inr (.inr ?_)
          change bs.bitsInCache + 8 + 8 * passes ≤ after.bitsInCache at hcount
          omega
    · rw [if_neg hbits]
      exact Eval.ensures_pure ⟨.refl h, .inl (by omega)⟩

/-- After a refill the cache holds more than 56 bits or every byte has been fetched. -/
def Refilled (bs : BsReader) : Prop := 56 < bs.bitsInCache ∨ bs.bytePos = bs.size

theorem RefillEnds.refilled {order : BitOrder} {before after : BsReader}
    (h : RefillEnds 8 before after) (hinv : ReaderInv order after) : Refilled after := by
  rcases h with hfull | hend | hcount
  · exact .inl hfull
  · exact .inr (le_antisymm hinv.bytePos_le hend)
  · exact .inl (by omega)

theorem bsReaderRefill_refills {bs : BsReader} (h : ReaderInv .msb bs) :
    Eval.Ensures mode (bsReaderRefill bs) fun after ↦ Refills .msb bs after ∧ Refilled after :=
  (refillLoop_refills pushByte_pushesNext 8 h).mono fun _ ⟨hafter, hends⟩ ↦
    ⟨hafter, hends.refilled hafter.inv⟩

theorem bsReaderRefillLsb_refills {bs : BsReader} (h : ReaderInv .lsb bs) :
    Eval.Ensures mode (bsReaderRefillLsb bs) fun after ↦ Refills .lsb bs after ∧ Refilled after :=
  (refillLoop_refills pushByteLsb_pushesNext 8 h).mono fun _ ⟨hafter, hends⟩ ↦
    ⟨hafter, hends.refilled hafter.inv⟩

/-! ### The cursor of a reader -/

/-- The unread bits of a reader are the bits of its buffer from the position of a cursor on. -/
structure Tracks (order : BitOrder) (bs : BsReader) (c : Cursor) : Prop
    extends ReaderInv order bs where
  buffer_eq : bs.buffer = c.buffer
  pos_add : c.pos + bs.bitsInCache = 8 * bs.bytePos
  unread_eq : unread order bs = c.rest order

/-- A fresh reader is at the first bit, in both orders. -/
theorem tracks_init (order : BitOrder) (buffer : List (BitVec 8)) :
    Tracks order (bsReaderInit buffer buffer.length) (.start buffer) where
  size_eq := rfl
  bytePos_le := Nat.zero_le _
  bits_le := Nat.zero_le _
  clean := fun _ ↦ Nat.zero_lt_one
  buffer_eq := rfl
  pos_add := rfl
  unread_eq := by simp [unread, bsReaderInit, Cursor.rest, Cursor.start]

namespace Tracks

variable {order : BitOrder} {bs after : BsReader} {c : Cursor} {n : ℕ}

theorem refills (h : Tracks order bs c) (hr : Refills order bs after) : Tracks order after c where
  toReaderInv := hr.inv
  buffer_eq := hr.buffer_eq.trans h.buffer_eq
  pos_add := by
    have hpos := h.pos_add
    have hcount := hr.count_eq
    omega
  unread_eq := hr.unread_eq.trans h.unread_eq

theorem left_eq (h : Tracks order bs c) :
    c.left = bs.bitsInCache + 8 * (bs.size - bs.bytePos) := by
  rw [← Cursor.length_rest order, ← h.unread_eq, h.length_unread]

theorem le_left (h : Tracks order bs c) (hn : n ≤ bs.bitsInCache) : n ≤ c.left := by
  rw [h.left_eq]
  omega

/-- A refilled cache is short of a field only at the end of the buffer. -/
theorem left_eq_of_short (h : Tracks order bs c) (hfull : Refilled bs) (hn : n ≤ 32)
    (hshort : bs.bitsInCache < n) : bs.bytePos = bs.size ∧ c.left = bs.bitsInCache := by
  have hend : bs.bytePos = bs.size := hfull.resolve_left (by omega)
  refine ⟨hend, ?_⟩
  rw [h.left_eq, hend, Nat.sub_self, Nat.mul_zero, Nat.add_zero]

/-- A refilled cache holds every field that the buffer still holds. -/
theorem le_bits_of_refilled (h : Tracks order bs c) (hfull : Refilled bs) (hn : n ≤ 32)
    (hleft : n ≤ c.left) : n ≤ bs.bitsInCache := by
  by_contra hshort
  have hend := (h.left_eq_of_short hfull hn (by omega)).2
  omega

/-- The next bits of the cursor are the oldest cached bits. -/
theorem take_rest (h : Tracks order bs c) (hn : n ≤ bs.bitsInCache) :
    (c.rest order).take n = (queued order bs.bitsInCache bs.bitCache).take n := by
  rw [← h.unread_eq, unread, List.take_append_of_le_length (by rwa [length_queued])]

theorem peek_msb (h : Tracks .msb bs c) (hn : n ≤ bs.bitsInCache) :
    c.peek .msb n =
      BitVec.ofNat 32 (fieldValue .msb (queued .msb n (bs.bitCache >>> (bs.bitsInCache - n)))) := by
  rw [Cursor.peek, if_pos (h.le_left hn), h.take_rest hn, queued_msb_pop bs.bitCache hn,
    List.take_left' (length_queued .msb n _)]

theorem peek_lsb (h : Tracks .lsb bs c) (hn : n ≤ bs.bitsInCache) :
    c.peek .lsb n = BitVec.ofNat 32 (fieldValue .lsb (queued .lsb n bs.bitCache)) := by
  rw [Cursor.peek, if_pos (h.le_left hn), h.take_rest hn, queued_lsb_pop bs.bitCache hn,
    List.take_left' (length_queued .lsb n _)]

/-- Dropping the oldest cached bits moves the cursor past them: the other bits of the queue are
what is left of it. -/
theorem advance {bitCache : BitVec 64} (h : Tracks order bs c) (hn : n ≤ bs.bitsInCache)
    (hqueue : queued order bs.bitsInCache bs.bitCache =
      (queued order bs.bitsInCache bs.bitCache).take n ++
        queued order (bs.bitsInCache - n) bitCache)
    (hclean : order = .lsb → bitCache.toNat < 2 ^ (bs.bitsInCache - n)) :
    Tracks order { bs with bitCache := bitCache, bitsInCache := bs.bitsInCache - n }
      (c.advance n (h.le_left hn)) where
  size_eq := h.size_eq
  bytePos_le := h.bytePos_le
  bits_le := (Nat.sub_le _ _).trans h.bits_le
  clean := hclean
  buffer_eq := h.buffer_eq
  pos_add := by
    have hpos := h.pos_add
    show c.pos + n + (bs.bitsInCache - n) = 8 * bs.bytePos
    omega
  unread_eq := by
    have hlength : ((queued order bs.bitsInCache bs.bitCache).take n).length = n := by
      rw [List.length_take, length_queued, Nat.min_eq_left hn]
    rw [Cursor.advance_rest, ← h.unread_eq, unread, unread, hqueue, List.append_assoc,
      List.drop_left' hlength]

theorem advance_msb (h : Tracks .msb bs c) (hn : n ≤ bs.bitsInCache) :
    Tracks .msb { bs with bitsInCache := bs.bitsInCache - n } (c.advance n (h.le_left hn)) := by
  have hpop := queued_msb_pop bs.bitCache hn
  refine h.advance hn ?_ fun hlsb ↦ nomatch hlsb
  rw [hpop, List.take_left' (length_queued .msb n _)]

theorem advance_lsb (h : Tracks .lsb bs c) (hn : n ≤ bs.bitsInCache) :
    Tracks .lsb { bs with bitCache := bs.bitCache >>> n, bitsInCache := bs.bitsInCache - n }
      (c.advance n (h.le_left hn)) := by
  have hpop := queued_lsb_pop bs.bitCache hn
  refine h.advance hn ?_ fun hlsb ↦ toNat_lsb_pop_lt _ hn (h.clean hlsb)
  rw [hpop, List.take_left' (length_queued .lsb n _)]

end Tracks

end Bitstream.Reading
