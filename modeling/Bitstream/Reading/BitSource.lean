import Mathlib.Data.Nat.ModEq
import Bitstream.Reading.CursorRefinement

/-!
# A reader as the bits it still delivers

A decoder on top of a reader needs no position: what matters is the list of bits that are left, and
every function says what it returns from the front of the list and how much it takes off
(`Delivers`). Each lemma is the specification of one reader function in these terms, with every
operation of the function defined. A program that counts the bits left in a number that wraps sees
the part `countedBits` of them.
-/

set_option autoImplicit false
set_option relaxedAutoImplicit false

namespace Bitstream.Reading

open Foundation Header

variable {mode : Overshift} {order : BitOrder} {bs : BsReader} {bits : List Bool} {n : ℕ}

/-- The bits that are left of a reader in an order. -/
def Delivers (order : BitOrder) (bs : BsReader) (bits : List Bool) : Prop :=
  ∃ c, Tracks order bs c ∧ c.rest order = bits

/-- The number that the first `n` bits stand for, 0 when there are fewer. -/
def leadingField (order : BitOrder) (n : ℕ) (bits : List Bool) : BitVec 32 :=
  if n ≤ bits.length then BitVec.ofNat 32 (fieldValue order (bits.take n)) else 0

theorem delivers_init (order : BitOrder) (data : List (BitVec 8)) :
    Delivers order (bsReaderInit data data.length) (stream order data) :=
  ⟨.start data, tracks_init order data, rfl⟩

/-- The number of a leading field, where its bits are there. -/
theorem toNat_leadingField (order : BitOrder) (hn : n ≤ 32) (hbits : n ≤ bits.length) :
    (leadingField order n bits).toNat = fieldValue order (bits.take n) := by
  have hlt : fieldValue order (bits.take n) < 2 ^ 32 := by
    refine (fieldValue_lt order _).trans_le (Nat.pow_le_pow_right (by norm_num) ?_)
    rw [List.length_take]
    omega
  rw [leadingField, if_pos hbits, BitVec.toNat_ofNat, Nat.mod_eq_of_lt hlt]

theorem leadingField_lt (order : BitOrder) (hn : n ≤ 32) (bits : List Bool) :
    (leadingField order n bits).toNat < 2 ^ n := by
  by_cases hbits : n ≤ bits.length
  · rw [toNat_leadingField order hn hbits]
    refine (fieldValue_lt order _).trans_le (Nat.pow_le_pow_right (by norm_num) ?_)
    exact List.length_take_le n bits
  · rw [leadingField, if_neg hbits]
    exact Nat.two_pow_pos n

/-- The number of a field that leads the bits. -/
theorem leadingField_append (order : BitOrder) (n v : ℕ) (more : List Bool) :
    leadingField order n (fieldBits order n v ++ more) = BitVec.ofNat 32 (v % 2 ^ n) := by
  have hlength : n ≤ (fieldBits order n v ++ more).length := by
    rw [List.length_append, length_fieldBits]
    omega
  rw [leadingField, if_pos hlength, List.take_left' (length_fieldBits order n v),
    fieldValue_fieldBits]

theorem Cursor.peek_eq_leadingField (order : BitOrder) (c : Cursor) (n : ℕ) :
    c.peek order n = leadingField order n (c.rest order) := by
  rw [Cursor.peek, leadingField, Cursor.length_rest]

theorem Cursor.skip_rest (order : BitOrder) (c : Cursor) (n : ℕ) :
    (c.skip n).rest order = (c.rest order).drop n := by
  by_cases hn : n ≤ c.left
  · rw [Cursor.skip_of_le hn, Cursor.advance_rest]
  · have hnone : (c.skip n).rest order = [] := by
      rw [Cursor.rest, Cursor.skip_pos_of_lt (by omega), Cursor.skip_buffer,
        List.drop_eq_nil_of_le (by rw [length_stream])]
    rw [hnone, List.drop_eq_nil_of_le (by rw [Cursor.length_rest]; omega)]

theorem Cursor.read_rest (order : BitOrder) (c : Cursor) (n : ℕ) :
    (c.read n).rest order =
      if n ≤ (c.rest order).length then (c.rest order).drop n else c.rest order := by
  rw [Cursor.length_rest]
  split_ifs with hn
  · rw [Cursor.read_of_le hn, Cursor.advance_rest]
  · rw [Cursor.read_of_lt (by omega)]

/-! ### Status -/

theorem Delivers.eof_eq (h : Delivers order bs bits) : bsReaderEof bs = decide (bits = []) := by
  obtain ⟨c, htracks, rfl⟩ := h
  have hle := c.pos_le
  rw [htracks.eof_eq, decide_eq_decide, ← List.length_eq_zero_iff, Cursor.length_rest, Cursor.left]
  omega

theorem Delivers.bitsLeft_eq (sizeT : SizeT) (h : Delivers order bs bits) :
    bsReaderBitsLeft sizeT bs = bits.length % 2 ^ sizeT.bits := by
  obtain ⟨c, htracks, rfl⟩ := h
  rw [htracks.bitsLeft_eq sizeT, Cursor.length_rest]

/-! ### Where the count wraps -/

/-- The bits that a program sees which counts them modulo `2 ^ width`: of more than there are
numbers, those in front of the last whole multiple. -/
def countedBits (width : ℕ) (bits : List Bool) : List Bool := bits.take (bits.length % 2 ^ width)

variable {width : ℕ}

theorem length_countedBits (width : ℕ) (bits : List Bool) :
    (countedBits width bits).length = bits.length % 2 ^ width := by
  rw [countedBits, List.length_take, Nat.min_eq_left (Nat.mod_le _ _)]

theorem countedBits_begins (width : ℕ) (bits : List Bool) : countedBits width bits <+: bits :=
  List.take_prefix _ _

theorem countedBits_of_lt (h : bits.length < 2 ^ width) : countedBits width bits = bits := by
  rw [countedBits, Nat.mod_eq_of_lt h, List.take_length]

/-- Where the count wraps, at least `2 ^ width` bits are not seen. -/
theorem length_countedBits_add_le (h : 2 ^ width ≤ bits.length) :
    (countedBits width bits).length + 2 ^ width ≤ bits.length := by
  have hsplit := Nat.div_add_mod bits.length (2 ^ width)
  have hwraps : 2 ^ width * 1 ≤ 2 ^ width * (bits.length / 2 ^ width) :=
    Nat.mul_le_mul_left _ (Nat.div_pos h (Nat.two_pow_pos width))
  rw [length_countedBits]
  omega

/-- Bits that are seen are taken off those that are seen: the count does not wrap on the way. -/
theorem countedBits_drop (h : n ≤ (countedBits width bits).length) :
    countedBits width (bits.drop n) = (countedBits width bits).drop n := by
  rw [length_countedBits] at h
  rw [countedBits, countedBits, List.length_drop, List.drop_take, Nat.mod_sub_of_le h]

/-- A field of bits that are seen. -/
theorem leadingField_countedBits (order : BitOrder) (h : n ≤ (countedBits width bits).length) :
    leadingField order n (countedBits width bits) = leadingField order n bits := by
  have hle := h.trans (countedBits_begins width bits).length_le
  have hfirst : (countedBits width bits).take n = bits.take n := by
    rw [length_countedBits] at h
    rw [countedBits, List.take_take, Nat.min_eq_left h]
  rw [leadingField, leadingField, if_pos h, if_pos hle, hfirst]

/-! ### Checked functions -/

theorem Delivers.peek_ensures (h : Delivers order bs bits) (hn : n ≤ 32) :
    Eval.Ensures mode (checked (refill order) (0, ·) (0, ·) (peek order) bs n) fun read ↦
      read.1 = leadingField order n bits ∧ Delivers order read.2 bits := by
  obtain ⟨c, htracks, rfl⟩ := h
  refine (checked_peek_ensures (implementsOrder order mode) htracks hn).mono fun read hread ↦ ?_
  exact ⟨hread.1.trans (c.peek_eq_leadingField order n), c, hread.2, rfl⟩

/-- A read takes the field off, and nothing when the bits are not there. -/
theorem Delivers.read_ensures (h : Delivers order bs bits) (hn : n ≤ 32) :
    Eval.Ensures mode (checked (refill order) (0, ·) (0, ·) (take order) bs n) fun read ↦
      read.1 = leadingField order n bits ∧
        Delivers order read.2 (if n ≤ bits.length then bits.drop n else bits) := by
  obtain ⟨c, htracks, rfl⟩ := h
  refine (checked_take_ensures (implementsOrder order mode) htracks hn).mono fun read hread ↦ ?_
  exact ⟨hread.1.trans (c.peek_eq_leadingField order n), c.read n, hread.2, c.read_rest order n⟩

theorem Delivers.skip_ensures (h : Delivers order bs bits) (hn : n ≤ 32) :
    Eval.Ensures mode (skip order bs n) fun after ↦ Delivers order after (bits.drop n) := by
  obtain ⟨c, htracks, rfl⟩ := h
  rw [skip_eq]
  refine (checked_drop_ensures (implementsOrder order mode) htracks hn).mono fun after hafter ↦ ?_
  exact ⟨c.skip n, hafter, c.skip_rest order n⟩

/-- An align takes off what is left of a byte. -/
theorem Delivers.align_ensures (h : Delivers order bs bits) :
    Eval.Ensures mode (align order bs) fun after ↦
      Delivers order after (bits.drop (bits.length % 8)) := by
  obtain ⟨c, htracks, rfl⟩ := h
  have hle := c.pos_le
  have hmoved : c.align = c.skip (c.left % 8) := by
    refine Cursor.ext rfl ?_
    show 8 * ((c.pos + 7) / 8) = min (c.pos + c.left % 8) (8 * c.buffer.length)
    unfold Cursor.left
    omega
  rw [align_eq]
  refine (Reading.align_ensures (implementsOrder order mode) htracks).mono fun after hafter ↦ ?_
  refine ⟨c.align, hafter, ?_⟩
  rw [hmoved, c.skip_rest order, Cursor.length_rest]

/-! ### Unchecked functions -/

/-- An unchecked peek leaves the field in the cache, for the unchecked skip behind it. -/
theorem Delivers.peekUnchecked_ensures (h : Delivers order bs bits) (hpos : 1 ≤ n) (hn : n ≤ 32)
    (hbits : n ≤ bits.length) :
    Eval.Ensures mode (unchecked (refill order) (peek order) bs n) fun read ↦
      read.1 = leadingField order n bits ∧ Delivers order read.2 bits ∧
        n ≤ read.2.bitsInCache := by
  obtain ⟨c, htracks, rfl⟩ := h
  have himpl := implementsOrder order mode
  rw [Cursor.length_rest] at hbits
  refine unchecked_ensures himpl htracks hn hbits fun after hafter hcached ↦ ?_
  have hpeek := himpl.peek hafter hpos hn hcached
  have hkept : ((peek order after n).value mode).2 = after := by cases order <;> rfl
  refine ⟨hpeek.defined, hpeek.post.1.trans (c.peek_eq_leadingField order n), ?_, ?_⟩
  · exact ⟨c, hpeek.post.2, rfl⟩
  · rw [hkept]
    exact hcached

theorem Delivers.skipUnchecked_ensures (h : Delivers order bs bits) (hn : n < 64)
    (hcached : n ≤ bs.bitsInCache) :
    Eval.Ensures mode (drop order bs n) fun after ↦ Delivers order after (bits.drop n) := by
  obtain ⟨c, htracks, rfl⟩ := h
  refine ((implementsOrder order mode).drop htracks hn hcached).mono fun after hafter ↦ ?_
  exact ⟨c.skip n, hafter, c.skip_rest order n⟩

/-! ### Bulk copies -/

/-- A bulk copy in front of whole bytes. -/
theorem Delivers.readBytes_ensures (sizeT : SizeT) {bytes : List (BitVec 8)}
    (h : Delivers order bs (stream order bytes)) (dst : List (BitVec 8)) (nBytes : ℕ) :
    Eval.Ensures mode (bsReadBytes sizeT bs dst nBytes) fun read ↦
      if nBytes ≤ bytes.length then
        read.1 = (true, bytes.take nBytes ++ dst.drop nBytes) ∧
          Delivers order read.2 (stream order (bytes.drop nBytes))
      else read.1 = (false, dst) ∧ Delivers order read.2 (stream order bytes) := by
  obtain ⟨c, htracks, hrest⟩ := h
  have hle := c.pos_le
  have hleft : c.left = 8 * bytes.length := by
    rw [← Cursor.length_rest order, hrest, length_stream]
  have hpos : c.pos = 8 * (c.pos / 8) := by
    unfold Cursor.left at hleft
    omega
  have hbytes : c.buffer.drop (c.pos / 8) = bytes := by
    apply stream_injective order (by norm_num)
    rw [stream_drop, ← hpos, ← hrest, Cursor.rest]
  refine (bsReadBytes_ensures sizeT htracks dst nBytes).mono fun read hread ↦ ?_
  unfold Cursor.readBytes at hread
  split_ifs with hfit
  · have hroom : c.pos % 8 = 0 ∧ 8 * nBytes ≤ c.left := by omega
    rw [dif_pos hroom, hbytes] at hread
    refine ⟨hread.1, _, hread.2.1, ?_⟩
    rw [Cursor.advance_rest, hrest, stream_drop]
  · rw [dif_neg (by omega)] at hread
    exact ⟨hread.1, c, hread.2.1, hrest⟩

end Bitstream.Reading
