import Mathlib.Data.Nat.Bitwise
import Mathlib.Data.Nat.Size
import Mathlib.Tactic.Ring

/-!
# Bit strings, fields and packed words

A stream of bits is a `List Bool`. A word enters the stream with its most significant bit first
(`BitOrder.msb`) or with its least significant bit first (`BitOrder.lsb`). `fieldBits` cuts the low
bits of a number into the stream and `fieldValue` reads a number back; the two are inverse to each
other on fields of one width (`fieldValue_fieldBits`, `fieldBits_fieldValue`). `stream` lays out a
list of words, and `packWords` collects the complete words of a bit string: packing inverts the
layout up to an incomplete last word (`packWords_stream_append`, `stream_packWords`).

Every statement holds for words of any positive width.
-/

set_option autoImplicit false
set_option relaxedAutoImplicit false

namespace Bitstream.Foundation

/-- The order in which the bits of a word enter a stream. -/
inductive BitOrder
  | msb
  | lsb
  deriving DecidableEq, Repr

/-! ### Fields -/

/-- The low `n` bits of a number, the least significant bit first. -/
def lowBits (n v : ℕ) : List Bool := (List.range n).map v.testBit

/-- The low `n` bits of a number as a field of the stream. -/
def fieldBits : BitOrder → ℕ → ℕ → List Bool
  | .msb, n, v => (lowBits n v).reverse
  | .lsb, n, v => lowBits n v

/-- The number whose bit `i` is the bit at index `i`. -/
def littleEndian (bits : List Bool) : ℕ := bits.foldr Nat.bit 0

/-- The number whose most significant bit is the first bit. -/
def bigEndian (bits : List Bool) : ℕ := bits.foldl (fun value bit ↦ Nat.bit bit value) 0

/-- The number that a field of the stream stands for. -/
def fieldValue : BitOrder → List Bool → ℕ
  | .msb, bits => bigEndian bits
  | .lsb, bits => littleEndian bits

@[simp] theorem length_lowBits (n v : ℕ) : (lowBits n v).length = n := by
  simp [lowBits]

@[simp] theorem length_fieldBits (order : BitOrder) (n v : ℕ) :
    (fieldBits order n v).length = n := by
  cases order <;> simp [fieldBits]

@[simp] theorem lowBits_zero (v : ℕ) : lowBits 0 v = [] := rfl

@[simp] theorem fieldBits_zero (order : BitOrder) (v : ℕ) : fieldBits order 0 v = [] := by
  cases order <;> rfl

/-- Two numbers that agree below bit `n` have the same low bits. -/
theorem lowBits_congr {n v u : ℕ} (h : ∀ i < n, v.testBit i = u.testBit i) :
    lowBits n v = lowBits n u :=
  List.map_congr_left fun i hi ↦ h i (List.mem_range.mp hi)

theorem fieldBits_congr (order : BitOrder) {n v u : ℕ} (h : ∀ i < n, v.testBit i = u.testBit i) :
    fieldBits order n v = fieldBits order n u := by
  cases order <;> simp only [fieldBits, lowBits_congr h]

/-- The low bits split at any position into a lower and an upper part. -/
theorem lowBits_add (m n v : ℕ) :
    lowBits (m + n) v = lowBits m v ++ lowBits n (v >>> m) := by
  simp only [lowBits, List.range_add, List.map_append, List.map_map]
  congr 1
  refine List.map_congr_left fun i _ ↦ ?_
  simp [Nat.testBit_shiftRight]

theorem lowBits_succ (n v : ℕ) : lowBits (n + 1) v = v.testBit 0 :: lowBits n (v >>> 1) := by
  rw [Nat.add_comm, lowBits_add]
  rfl

/-- A field takes its upper bits first in the most significant first order. -/
theorem fieldBits_msb_add (m n v : ℕ) :
    fieldBits .msb (m + n) v = fieldBits .msb m (v >>> n) ++ fieldBits .msb n v := by
  simp only [fieldBits]
  rw [Nat.add_comm, lowBits_add, List.reverse_append]

/-- A field takes its lower bits first in the least significant first order. -/
theorem fieldBits_lsb_add (m n v : ℕ) :
    fieldBits .lsb (m + n) v = fieldBits .lsb m v ++ fieldBits .lsb n (v >>> m) :=
  lowBits_add m n v

@[simp] theorem fieldBits_zero_value (order : BitOrder) (n : ℕ) :
    fieldBits order n 0 = List.replicate n false := by
  have hlow : lowBits n 0 = List.replicate n false := by
    refine List.eq_replicate_iff.mpr ⟨length_lowBits n 0, fun bit hbit ↦ ?_⟩
    obtain ⟨i, _, rfl⟩ := List.mem_map.mp hbit
    exact Nat.zero_testBit i
  cases order <;> simp [fieldBits, hlow]

theorem bigEndian_eq (bits : List Bool) : bigEndian bits = littleEndian bits.reverse := by
  rw [bigEndian, littleEndian, List.foldr_reverse]

@[simp] theorem littleEndian_cons (bit : Bool) (bits : List Bool) :
    littleEndian (bit :: bits) = Nat.bit bit (littleEndian bits) := rfl

theorem littleEndian_lowBits (n v : ℕ) : littleEndian (lowBits n v) = v % 2 ^ n := by
  induction n generalizing v with
  | zero => simp [littleEndian, Nat.mod_one]
  | succ n ih =>
    rw [lowBits_succ, littleEndian_cons, ih, Nat.shiftRight_one, Nat.bit_val, Nat.testBit_zero,
      pow_succ, Nat.mul_comm (2 ^ n) 2, Nat.mod_mul]
    rcases Nat.mod_two_eq_zero_or_one v with h | h
    · simp [h]
    · simp only [h, decide_true, Bool.toNat_true]
      ring

theorem lowBits_littleEndian (bits : List Bool) :
    lowBits bits.length (littleEndian bits) = bits := by
  induction bits with
  | nil => rfl
  | cons bit bits ih =>
    have hhalf : Nat.bit bit (littleEndian bits) >>> 1 = littleEndian bits := by
      rw [Nat.shiftRight_one, ← Nat.div2_val, Nat.div2_bit]
    rw [List.length_cons, littleEndian_cons, lowBits_succ, Nat.testBit_bit_zero, hhalf, ih]

theorem littleEndian_lt (bits : List Bool) : littleEndian bits < 2 ^ bits.length := by
  rw [← lowBits_littleEndian bits, littleEndian_lowBits]
  simp only [length_lowBits]
  exact Nat.mod_lt _ (Nat.two_pow_pos _)

/-- Reading a field back gives the number it was cut from, modulo its width. -/
theorem fieldValue_fieldBits (order : BitOrder) (n v : ℕ) :
    fieldValue order (fieldBits order n v) = v % 2 ^ n := by
  cases order with
  | msb => rw [fieldValue, fieldBits, bigEndian_eq, List.reverse_reverse, littleEndian_lowBits]
  | lsb => exact littleEndian_lowBits n v

/-- Every bit string is the field of the number it stands for. -/
theorem fieldBits_fieldValue (order : BitOrder) {n : ℕ} {bits : List Bool} (h : bits.length = n) :
    fieldBits order n (fieldValue order bits) = bits := by
  subst h
  cases order with
  | msb =>
    have hreverse := lowBits_littleEndian bits.reverse
    rw [List.length_reverse] at hreverse
    rw [fieldValue, fieldBits, bigEndian_eq, hreverse, List.reverse_reverse]
  | lsb => exact lowBits_littleEndian bits

theorem fieldValue_lt (order : BitOrder) (bits : List Bool) :
    fieldValue order bits < 2 ^ bits.length := by
  cases order with
  | msb =>
    rw [fieldValue, bigEndian_eq, ← List.length_reverse]
    exact littleEndian_lt bits.reverse
  | lsb => exact littleEndian_lt bits

/-- Most significant first, the first bits of a field are the upper bits of its number. -/
theorem fieldValue_msb_append_shiftRight (first second : List Bool) :
    fieldValue .msb (first ++ second) >>> second.length = fieldValue .msb first := by
  have hlength : (first ++ second).length = first.length + second.length := List.length_append
  have hbits := fieldBits_fieldValue .msb hlength
  rw [fieldBits_msb_add] at hbits
  have hfirst := List.append_inj_left hbits (length_fieldBits .msb _ _)
  have hlt : fieldValue .msb (first ++ second) >>> second.length < 2 ^ first.length := by
    rw [Nat.shiftRight_eq_div_pow, Nat.div_lt_iff_lt_mul (Nat.two_pow_pos _), ← pow_add,
      ← List.length_append]
    exact fieldValue_lt .msb _
  rw [← Nat.mod_eq_of_lt hlt, ← fieldValue_fieldBits .msb, hfirst]

/-- Least significant first, the first bits of a field are the lower bits of its number. -/
theorem fieldValue_lsb_append_mod (first second : List Bool) :
    fieldValue .lsb (first ++ second) % 2 ^ first.length = fieldValue .lsb first := by
  have hlength : (first ++ second).length = first.length + second.length := List.length_append
  have hbits := fieldBits_fieldValue .lsb hlength
  rw [fieldBits_lsb_add] at hbits
  have hfirst := List.append_inj_left hbits (length_fieldBits .lsb _ _)
  rw [← fieldValue_fieldBits .lsb, hfirst]

/-- A bit string begins with a field exactly when its first bits stand for the number of the field.
-/
theorem fieldBits_prefix_iff (order : BitOrder) {n v : ℕ} {bits : List Bool} (hv : v < 2 ^ n)
    (hn : n ≤ bits.length) :
    fieldBits order n v <+: bits ↔ fieldValue order (bits.take n) = v := by
  have hlength : (bits.take n).length = n := by rw [List.length_take, Nat.min_eq_left hn]
  constructor
  · intro hbegins
    have htake := List.prefix_iff_eq_take.mp hbegins
    rw [length_fieldBits] at htake
    rw [← htake, fieldValue_fieldBits, Nat.mod_eq_of_lt hv]
  · intro hvalue
    rw [← hvalue, fieldBits_fieldValue order hlength]
    exact List.take_prefix n bits

theorem fieldValue_replicate_false (order : BitOrder) (n : ℕ) :
    fieldValue order (List.replicate n false) = 0 := by
  rw [← fieldBits_zero_value order, fieldValue_fieldBits, Nat.zero_mod]

/-! ### Words in a stream -/

variable {w : ℕ}

/-- The bits of a word in stream order. -/
def wordBits (order : BitOrder) (word : BitVec w) : List Bool := fieldBits order w word.toNat

/-- The bits of a list of words in stream order. -/
def stream (order : BitOrder) (words : List (BitVec w)) : List Bool :=
  words.flatMap (wordBits order)

@[simp] theorem length_wordBits (order : BitOrder) (word : BitVec w) :
    (wordBits order word).length = w := length_fieldBits order w _

@[simp] theorem stream_nil (order : BitOrder) : stream order ([] : List (BitVec w)) = [] := rfl

@[simp] theorem stream_cons (order : BitOrder) (word : BitVec w) (words : List (BitVec w)) :
    stream order (word :: words) = wordBits order word ++ stream order words := rfl

@[simp] theorem stream_append (order : BitOrder) (words more : List (BitVec w)) :
    stream order (words ++ more) = stream order words ++ stream order more :=
  List.flatMap_append

@[simp] theorem length_stream (order : BitOrder) (words : List (BitVec w)) :
    (stream order words).length = w * words.length := by
  induction words with
  | nil => rfl
  | cons word words ih =>
    rw [stream_cons, List.length_append, length_wordBits, ih, List.length_cons, Nat.mul_succ,
      Nat.add_comm]

theorem stream_drop (order : BitOrder) (words : List (BitVec w)) (k : ℕ) :
    stream order (words.drop k) = (stream order words).drop (w * k) := by
  by_cases hk : k ≤ words.length
  · conv_rhs => rw [← List.take_append_drop k words, stream_append]
    rw [List.drop_left' (by rw [length_stream, List.length_take, Nat.min_eq_left hk])]
  · have hshort : words.length ≤ k := by omega
    rw [List.drop_eq_nil_of_le hshort, stream_nil, List.drop_eq_nil_of_le]
    rw [length_stream]
    exact Nat.mul_le_mul_left w hshort

theorem stream_take (order : BitOrder) (words : List (BitVec w)) (k : ℕ) :
    stream order (words.take k) = (stream order words).take (w * k) := by
  by_cases hk : k ≤ words.length
  · conv_rhs => rw [← List.take_append_drop k words, stream_append]
    rw [List.take_left' (by rw [length_stream, List.length_take, Nat.min_eq_left hk])]
  · have hshort : words.length ≤ k := by omega
    rw [List.take_of_length_le hshort, List.take_of_length_le]
    rw [length_stream]
    exact Nat.mul_le_mul_left w hshort

/-! ### Packing -/

/-- The word that a bit string of its width stands for. -/
def wordOf (w : ℕ) (order : BitOrder) (bits : List Bool) : BitVec w :=
  BitVec.ofNat w (fieldValue order bits)

/-- The first `count` words of a bit string. -/
def packFirst (w : ℕ) (order : BitOrder) : ℕ → List Bool → List (BitVec w)
  | 0, _ => []
  | count + 1, bits => wordOf w order (bits.take w) :: packFirst w order count (bits.drop w)

/-- The complete words of a bit string. -/
def packWords (w : ℕ) (order : BitOrder) (bits : List Bool) : List (BitVec w) :=
  packFirst w order (bits.length / w) bits

@[simp] theorem length_packWords (order : BitOrder) (bits : List Bool) :
    (packWords w order bits).length = bits.length / w := by
  have hfirst (count : ℕ) (bits : List Bool) : (packFirst w order count bits).length = count := by
    induction count generalizing bits with
    | zero => rfl
    | succ count ih => rw [packFirst, List.length_cons, ih]
  exact hfirst _ bits

theorem wordBits_wordOf (order : BitOrder) {bits : List Bool} (h : bits.length = w) :
    wordBits order (wordOf w order bits) = bits := by
  have hlt : fieldValue order bits < 2 ^ w := by
    rw [← h]
    exact fieldValue_lt order bits
  rw [wordBits, wordOf, BitVec.toNat_ofNat, Nat.mod_eq_of_lt hlt, fieldBits_fieldValue order h]

theorem wordOf_wordBits (order : BitOrder) (word : BitVec w) :
    wordOf w order (wordBits order word) = word := by
  rw [wordOf, wordBits, fieldValue_fieldBits, Nat.mod_eq_of_lt word.isLt, BitVec.ofNat_toNat,
    BitVec.setWidth_eq]

theorem stream_packFirst (order : BitOrder) (count : ℕ) {bits : List Bool}
    (h : w * count ≤ bits.length) :
    stream order (packFirst w order count bits) = bits.take (w * count) := by
  induction count generalizing bits with
  | zero => simp [packFirst]
  | succ count ih =>
    rw [Nat.mul_succ] at h
    have hfirst : (bits.take w).length = w := by
      rw [List.length_take]
      omega
    have hrest : w * count ≤ (bits.drop w).length := by
      rw [List.length_drop]
      omega
    rw [packFirst, stream_cons, wordBits_wordOf order hfirst, ih hrest, Nat.mul_succ,
      Nat.add_comm, List.take_add]

/-- The layout of the packed words is the bit string without its incomplete last word. -/
theorem stream_packWords (order : BitOrder) (bits : List Bool) :
    stream order (packWords w order bits) = bits.take (w * (bits.length / w)) :=
  stream_packFirst order _ (Nat.mul_div_le bits.length w)

theorem packFirst_stream_append (order : BitOrder) (words : List (BitVec w)) (rest : List Bool) :
    packFirst w order words.length (stream order words ++ rest) = words := by
  induction words with
  | nil => rfl
  | cons word words ih =>
    rw [List.length_cons, packFirst, stream_cons, List.append_assoc,
      List.take_left' (length_wordBits order word), wordOf_wordBits,
      List.drop_left' (length_wordBits order word), ih]

/-- Packing a layout followed by an incomplete word gives the words back. -/
theorem packWords_stream_append (order : BitOrder) (words : List (BitVec w)) {rest : List Bool}
    (hrest : rest.length < w) : packWords w order (stream order words ++ rest) = words := by
  have hcount : (stream order words ++ rest).length / w = words.length := by
    rw [List.length_append, length_stream, Nat.mul_add_div (by omega), Nat.div_eq_of_lt hrest,
      Nat.add_zero]
  rw [packWords, hcount, packFirst_stream_append]

theorem packFirst_take (order : BitOrder) (count : ℕ) {more : ℕ} (h : count ≤ more)
    (bits : List Bool) :
    (packFirst w order more bits).take count = packFirst w order count bits := by
  induction count generalizing more bits with
  | zero => simp [packFirst]
  | succ count ih =>
    obtain ⟨more, rfl⟩ : ∃ k, more = k + 1 := ⟨more - 1, by omega⟩
    rw [packFirst, packFirst, List.take_succ_cons, ih (by omega)]

/-- A list of words is the beginning of the packing of every stream that begins with its layout. -/
theorem take_packWords_stream_append (order : BitOrder) (hw : 0 < w) (words : List (BitVec w))
    (rest : List Bool) :
    (packWords w order (stream order words ++ rest)).take words.length = words := by
  have hcount : words.length ≤ (stream order words ++ rest).length / w := by
    rw [Nat.le_div_iff_mul_le hw, List.length_append, length_stream, Nat.mul_comm]
    exact Nat.le_add_right _ _
  rw [packWords, packFirst_take order _ hcount, packFirst_stream_append]

/-- Cutting a bit string behind whole words. -/
theorem packWords_append (order : BitOrder) {words more : List (BitVec w)} {rest bits : List Bool}
    (hrest : rest.length < w) (h : stream order words ++ rest = stream order more ++ bits) :
    words = more ++ packWords w order bits ∧ rest = bits.drop (w * (bits.length / w)) := by
  have hincomplete : (bits.drop (w * (bits.length / w))).length < w := by
    have hdiv := Nat.div_add_mod bits.length w
    have hmod := Nat.mod_lt bits.length (Nat.zero_lt_of_lt hrest)
    rw [List.length_drop]
    omega
  have hbits : stream order words ++ rest =
      stream order (more ++ packWords w order bits) ++ bits.drop (w * (bits.length / w)) := by
    rw [h, stream_append, List.append_assoc, stream_packWords, List.take_append_drop]
  have hwords : words = more ++ packWords w order bits := by
    rw [← packWords_stream_append order words hrest, hbits,
      packWords_stream_append order _ hincomplete]
  refine ⟨hwords, ?_⟩
  rw [hwords] at hbits
  exact List.append_cancel_left hbits

/-- Words that begin a bit string are the first of those it completes. -/
theorem eq_take_packWords (order : BitOrder) (hw : 0 < w) {words more : List (BitVec w)}
    {rest bits : List Bool} (h : stream order words ++ rest = stream order more ++ bits) :
    words = (more ++ packWords w order bits).take words.length := by
  have hsplit : rest = stream order (packWords w order rest) ++
      rest.drop (w * (rest.length / w)) := by
    rw [stream_packWords, List.take_append_drop]
  have hincomplete : (rest.drop (w * (rest.length / w))).length < w := by
    have hdiv := Nat.div_add_mod rest.length w
    have hmod := Nat.mod_lt rest.length hw
    rw [List.length_drop]
    omega
  rw [hsplit, ← List.append_assoc, ← stream_append] at h
  rw [← (packWords_append order hincomplete h).1, List.take_left' rfl]

theorem stream_injective (order : BitOrder) (hw : 0 < w) {first second : List (BitVec w)}
    (h : stream order first = stream order second) : first = second := by
  have hpack (words : List (BitVec w)) : packWords w order (stream order words) = words := by
    have happend := packWords_stream_append order words (List.length_nil.trans_lt hw)
    rwa [List.append_nil] at happend
  rw [← hpack first, h, hpack second]

/-! ### Padding -/

/-- The number of bits that complete the last word of a string of `length` bits. -/
def padding (w length : ℕ) : ℕ := (w - length % w) % w

/-- A bit string with its last word completed by zeros. -/
def padded (w : ℕ) (bits : List Bool) : List Bool :=
  bits ++ List.replicate (padding w bits.length) false

theorem padding_lt (hw : 0 < w) (length : ℕ) : padding w length < w := Nat.mod_lt _ hw

theorem padding_eq_zero_iff (hw : 0 < w) (length : ℕ) : padding w length = 0 ↔ length % w = 0 := by
  have hmod := Nat.mod_lt length hw
  unfold padding
  by_cases h : length % w = 0
  · simp [h]
  · rw [Nat.mod_eq_of_lt (by omega)]
    omega

theorem padding_of_mod_ne_zero (hw : 0 < w) {length : ℕ} (h : length % w ≠ 0) :
    padding w length = w - length % w :=
  Nat.mod_eq_of_lt (by omega)

theorem dvd_length_padded (hw : 0 < w) (bits : List Bool) : w ∣ (padded w bits).length := by
  have hmod := Nat.mod_lt bits.length hw
  have hdiv := Nat.div_add_mod bits.length w
  rw [padded, List.length_append, List.length_replicate]
  by_cases h : bits.length % w = 0
  · rw [(padding_eq_zero_iff hw _).mpr h]
    exact Nat.dvd_of_mod_eq_zero h
  · rw [padding_of_mod_ne_zero hw h]
    refine ⟨bits.length / w + 1, ?_⟩
    rw [Nat.mul_succ]
    omega

end Bitstream.Foundation
