import Bitstream.Foundation.BitString

/-!
# Reversed words and fields

The two bit orders are mirror images: the bits of a word in one order are the bits of the reversed
word in the other (`wordBits_lsb_reverse`), and so for streams (`stream_lsb_map_reverse`), for
packed words (`packWords_lsb`) and for fields of `n` bits in a wider word
(`fieldBits_lsb_reverseField`, `reverseField_ofNat`).
-/

set_option autoImplicit false
set_option relaxedAutoImplicit false

namespace Bitstream.Foundation

variable {w m n : ℕ} {bits : List Bool}

/-! ### Words -/

theorem lowBits_reverse (word : BitVec w) :
    lowBits w word.reverse.toNat = (lowBits w word.toNat).reverse := by
  refine List.ext_getElem (by simp) fun i hi hi' ↦ ?_
  have hlt : i < w := by rwa [length_lowBits] at hi
  simp only [lowBits, List.getElem_reverse, List.getElem_map, List.getElem_range, List.length_map,
    List.length_range, BitVec.testBit_toNat, BitVec.getLsbD_reverse, BitVec.getMsbD_eq_getLsbD, hlt,
    decide_true, Bool.true_and]

/-- The bits of a word, least significant first, are those of its reverse, most significant
first. -/
theorem wordBits_lsb_reverse (word : BitVec w) :
    wordBits .lsb word.reverse = wordBits .msb word := lowBits_reverse word

theorem stream_lsb_map_reverse (words : List (BitVec w)) :
    stream .lsb (words.map BitVec.reverse) = stream .msb words := by
  induction words with
  | nil => rfl
  | cons word words ih => rw [List.map_cons, stream_cons, stream_cons, wordBits_lsb_reverse, ih]

/-- A bit string stands for reversed words in the two orders. -/
theorem wordOf_lsb (h : bits.length = w) : wordOf w .lsb bits = (wordOf w .msb bits).reverse := by
  have hbits : wordBits .lsb (wordOf w .msb bits).reverse = bits := by
    rw [wordBits_lsb_reverse, wordBits_wordOf .msb h]
  rw [← wordOf_wordBits .lsb (wordOf w .msb bits).reverse, hbits]

theorem packFirst_lsb (count : ℕ) (h : w * count ≤ bits.length) :
    packFirst w .lsb count bits = (packFirst w .msb count bits).map BitVec.reverse := by
  induction count generalizing bits with
  | zero => rfl
  | succ count ih =>
    rw [Nat.mul_succ] at h
    have hfirst : (bits.take w).length = w := by
      rw [List.length_take]
      omega
    have hrest : w * count ≤ (bits.drop w).length := by
      rw [List.length_drop]
      omega
    rw [packFirst, packFirst, List.map_cons, wordOf_lsb hfirst, ih hrest]

theorem packWords_lsb (w : ℕ) (bits : List Bool) :
    packWords w .lsb bits = (packWords w .msb bits).map BitVec.reverse :=
  packFirst_lsb _ (Nat.mul_div_le bits.length w)

/-! ### Fields of a word -/

/-- The low `n` bits of a word in reverse order, with zeros above them. -/
def reverseField (n : ℕ) (value : BitVec m) : BitVec m := (value.setWidth n).reverse.setWidth m

/-- A reversed field, least significant bit first, is the field, most significant bit first. -/
theorem fieldBits_lsb_reverseField (hn : n ≤ m) (value : BitVec m) :
    fieldBits .lsb n (reverseField n value).toNat = fieldBits .msb n value.toNat := by
  have hlow : (reverseField n value).toNat = (value.setWidth n).reverse.toNat := by
    rw [reverseField, BitVec.toNat_setWidth, Nat.mod_eq_of_lt]
    exact (BitVec.isLt _).trans_le (Nat.pow_le_pow_right (by norm_num) hn)
  have hfield : fieldBits .msb n value.toNat = fieldBits .msb n (value.setWidth n).toNat := by
    refine fieldBits_congr .msb fun i hi ↦ ?_
    rw [BitVec.toNat_setWidth, Nat.testBit_mod_two_pow, decide_eq_true hi, Bool.true_and]
  rw [hlow, hfield]
  exact wordBits_lsb_reverse (value.setWidth n)

/-- The numbers that a bit string stands for in the two orders are reversed fields. -/
theorem reverseField_ofNat (hn : n ≤ m) (h : bits.length = n) :
    reverseField n (BitVec.ofNat m (fieldValue .msb bits)) =
      BitVec.ofNat m (fieldValue .lsb bits) := by
  have hpow : 2 ^ n ≤ 2 ^ m := Nat.pow_le_pow_right (by norm_num) hn
  have hmsb : fieldValue .msb bits < 2 ^ n := h ▸ fieldValue_lt .msb bits
  have hlsb : fieldValue .lsb bits < 2 ^ n := h ▸ fieldValue_lt .lsb bits
  have hword : (BitVec.ofNat m (fieldValue .msb bits)).setWidth n = wordOf n .msb bits := by
    refine BitVec.eq_of_toNat_eq ?_
    rw [BitVec.toNat_setWidth, BitVec.toNat_ofNat, wordOf, BitVec.toNat_ofNat,
      Nat.mod_eq_of_lt (hmsb.trans_le hpow)]
  rw [reverseField, hword, ← wordOf_lsb h]
  refine BitVec.eq_of_toNat_eq ?_
  rw [BitVec.toNat_setWidth, wordOf, BitVec.toNat_ofNat, BitVec.toNat_ofNat, Nat.mod_eq_of_lt hlsb]

theorem reverseField_zero (hn : n ≤ m) : reverseField n (0 : BitVec m) = 0 := by
  have hzeros := reverseField_ofNat hn (List.length_replicate (n := n) (a := false))
  rwa [fieldValue_replicate_false, fieldValue_replicate_false] at hzeros

end Bitstream.Foundation
