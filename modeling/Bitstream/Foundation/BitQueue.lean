import Bitstream.Foundation.BitString
import Mathlib.Tactic.NormNum

/-!
# Machine words as bit queues

A machine word of `m` bits queues the bits of a stream in its low bits. In the most significant
first order a field is pushed below the queued bits and the oldest bits stand on top
(`queued_msb_push`, `queued_msb_pop`); in the least significant first order a field is pushed above
the queued bits and the oldest bits stand at the bottom (`queued_lsb_push`, `queued_lsb_pop`). The
first order tolerates stale bits above the queue; the second needs them to be zero, which its
pushes and pops preserve. `headMask` masks out the first bits of a word in either order.
-/

set_option autoImplicit false
set_option relaxedAutoImplicit false

namespace Bitstream.Foundation

variable {m : ℕ}

/-- The `n` bits queued in the low bits of a word, oldest first. -/
def queued (order : BitOrder) (n : ℕ) (word : BitVec m) : List Bool :=
  fieldBits order n word.toNat

/-- The word whose `n` low bits are ones, as C programs write it. -/
def lowMask (m n : ℕ) : BitVec m := 1#m <<< n - 1#m

@[simp] theorem length_queued (order : BitOrder) (n : ℕ) (word : BitVec m) :
    (queued order n word).length = n := length_fieldBits order n _

@[simp] theorem queued_zero (order : BitOrder) (word : BitVec m) : queued order 0 word = [] :=
  fieldBits_zero order _

/-- A full word queues its own bits. -/
theorem queued_full (order : BitOrder) (word : BitVec m) :
    queued order m word = wordBits order word := rfl

theorem queued_congr (order : BitOrder) {n k : ℕ} {word : BitVec m} {other : BitVec k}
    (h : ∀ i < n, word.toNat.testBit i = other.toNat.testBit i) :
    queued order n word = queued order n other := fieldBits_congr order h

theorem queued_eq_of_toNat_mod (order : BitOrder) {n k : ℕ} {word : BitVec m} {other : BitVec k}
    (h : word.toNat % 2 ^ n = other.toNat % 2 ^ n) :
    queued order n word = queued order n other := by
  refine queued_congr order fun i hi ↦ ?_
  have hbit := congrArg (fun v ↦ v.testBit i) h
  simpa only [Nat.testBit_mod_two_pow, hi, decide_true, Bool.true_and] using hbit

/-- A word without bits above its queue is the word of its queue. -/
theorem eq_of_queued_eq (order : BitOrder) {n : ℕ} {word other : BitVec m}
    (hword : word.toNat < 2 ^ n) (hother : other.toNat < 2 ^ n)
    (h : queued order n word = queued order n other) : word = other := by
  have hvalue := congrArg (fieldValue order) h
  rw [queued, queued, fieldValue_fieldBits, fieldValue_fieldBits, Nat.mod_eq_of_lt hword,
    Nat.mod_eq_of_lt hother] at hvalue
  exact BitVec.eq_of_toNat_eq hvalue

/-! ### Masks -/

theorem toNat_lowMask {n : ℕ} (h : n < m) : (lowMask m n).toNat = 2 ^ n - 1 := by
  have hone : (1#m).toNat = 1 := by
    rw [BitVec.toNat_ofNat, Nat.mod_eq_of_lt (Nat.one_lt_two_pow (by omega))]
  have hlt : 2 ^ n < 2 ^ m := Nat.pow_lt_pow_right (by norm_num) h
  have hshift : (1#m <<< n).toNat = 2 ^ n := by
    rw [BitVec.toNat_shiftLeft, hone, Nat.one_shiftLeft, Nat.mod_eq_of_lt hlt]
  have hle : 1#m ≤ 1#m <<< n := by
    rw [BitVec.le_def, hone, hshift]
    exact Nat.one_le_two_pow
  rw [lowMask, BitVec.toNat_sub_of_le hle, hone, hshift]

/-- Masking keeps a number modulo the width of the mask. -/
theorem toNat_and_lowMask (word : BitVec m) {n : ℕ} (h : n < m) :
    (word &&& lowMask m n).toNat = word.toNat % 2 ^ n := by
  rw [BitVec.toNat_and, toNat_lowMask h, Nat.and_two_pow_sub_one_eq_mod]

theorem queued_and_lowMask (order : BitOrder) (word : BitVec m) {n : ℕ} (h : n < m) :
    queued order n (word &&& lowMask m n) = queued order n word :=
  queued_eq_of_toNat_mod order (by rw [toNat_and_lowMask word h, Nat.mod_mod])

/-! ### The most significant first queue -/

theorem queued_msb_push (word field : BitVec m) {k n : ℕ} (hroom : k + n ≤ m)
    (hfield : field.toNat < 2 ^ n) :
    queued .msb (k + n) (word <<< n ||| field) =
      queued .msb k word ++ queued .msb n field := by
  rw [queued, fieldBits_msb_add]
  congr 1
  · refine fieldBits_congr .msb fun i hi ↦ ?_
    have hhigh : field.toNat.testBit (n + i) = false :=
      Nat.testBit_lt_two_pow (hfield.trans_le (Nat.pow_le_pow_right (by norm_num) (by omega)))
    have hin : n + i < m := by omega
    simp [Nat.testBit_shiftRight, Nat.testBit_shiftLeft, BitVec.toNat_shiftLeft, hhigh, hin]
  · refine fieldBits_congr .msb fun i hi ↦ ?_
    have hlow : ¬ n ≤ i := by omega
    simp [Nat.testBit_shiftLeft, BitVec.toNat_shiftLeft, hlow]

theorem toNat_msb_push_lt (word field : BitVec m) {k n : ℕ} (hroom : k + n ≤ m)
    (hword : word.toNat < 2 ^ k) (hfield : field.toNat < 2 ^ n) :
    (word <<< n ||| field).toNat < 2 ^ (k + n) := by
  have hshift : word.toNat <<< n < 2 ^ (k + n) := by
    rw [Nat.shiftLeft_eq, pow_add]
    exact Nat.mul_lt_mul_of_pos_right hword (Nat.two_pow_pos n)
  have hin : word.toNat <<< n < 2 ^ m :=
    hshift.trans_le (Nat.pow_le_pow_right (by norm_num) hroom)
  rw [BitVec.toNat_or, BitVec.toNat_shiftLeft, Nat.mod_eq_of_lt hin]
  exact Nat.or_lt_two_pow hshift
    (hfield.trans_le (Nat.pow_le_pow_right (by norm_num) (Nat.le_add_left n k)))

theorem queued_msb_pop (word : BitVec m) {n k : ℕ} (h : n ≤ k) :
    queued .msb k word = queued .msb n (word >>> (k - n)) ++ queued .msb (k - n) word := by
  conv_lhs => rw [← Nat.add_sub_cancel' h, queued, fieldBits_msb_add]
  rw [queued, queued, BitVec.toNat_ushiftRight]

/-! ### The least significant first queue -/

theorem queued_lsb_push (word field : BitVec m) {k n : ℕ} (hroom : k + n ≤ m)
    (hword : word.toNat < 2 ^ k) :
    queued .lsb (k + n) (word ||| field <<< k) =
      queued .lsb k word ++ queued .lsb n field := by
  rw [queued, fieldBits_lsb_add]
  congr 1
  · refine fieldBits_congr .lsb fun i hi ↦ ?_
    have hlow : ¬ k ≤ i := by omega
    simp [Nat.testBit_shiftLeft, BitVec.toNat_shiftLeft, hlow]
  · refine fieldBits_congr .lsb fun i hi ↦ ?_
    have hhigh : word.toNat.testBit (k + i) = false :=
      Nat.testBit_lt_two_pow (hword.trans_le (Nat.pow_le_pow_right (by norm_num) (by omega)))
    have hin : k + i < m := by omega
    simp [Nat.testBit_shiftRight, Nat.testBit_shiftLeft, BitVec.toNat_shiftLeft, hhigh, hin]

theorem toNat_lsb_push_lt (word field : BitVec m) {k n : ℕ} (hroom : k + n ≤ m)
    (hword : word.toNat < 2 ^ k) (hfield : field.toNat < 2 ^ n) :
    (word ||| field <<< k).toNat < 2 ^ (k + n) := by
  rw [Nat.add_comm k n, BitVec.or_comm]
  have hpush := toNat_msb_push_lt field word (k := n) (n := k) (by omega) hfield hword
  exact hpush

theorem queued_lsb_pop (word : BitVec m) {n k : ℕ} (h : n ≤ k) :
    queued .lsb k word = queued .lsb n word ++ queued .lsb (k - n) (word >>> n) := by
  conv_lhs => rw [← Nat.add_sub_cancel' h, queued, fieldBits_lsb_add]
  rw [queued, queued, BitVec.toNat_ushiftRight]

theorem toNat_lsb_pop_lt (word : BitVec m) {n k : ℕ} (h : n ≤ k) (hword : word.toNat < 2 ^ k) :
    (word >>> n).toNat < 2 ^ (k - n) := by
  rw [BitVec.toNat_ushiftRight, Nat.shiftRight_eq_div_pow]
  apply Nat.div_lt_of_lt_mul
  rwa [← pow_add, Nat.add_sub_cancel' h]

/-! ### The first bits of a word -/

/-- The word whose first `n` bits in stream order are ones. -/
def headMask (order : BitOrder) (m n : ℕ) : BitVec m :=
  match order with
  | .msb => BitVec.allOnes m <<< (m - n)
  | .lsb => lowMask m n

/-- Masking keeps the first bits of a word and clears the others. -/
theorem wordBits_and_headMask (order : BitOrder) (word : BitVec m) {n : ℕ} (hn : n < m) :
    wordBits order (word &&& headMask order m n) =
      (wordBits order word).take n ++ List.replicate (m - n) false := by
  cases order with
  | msb =>
    have hword := queued_msb_pop word hn.le
    have hmasked := queued_msb_pop (word &&& headMask .msb m n) hn.le
    have hhead : queued .msb n ((word &&& headMask .msb m n) >>> (m - n)) =
        queued .msb n (word >>> (m - n)) := by
      refine queued_congr .msb fun i hi ↦ ?_
      have him : i < m := by omega
      have hin : m - n + i < m := by omega
      simp [headMask, BitVec.testBit_toNat, him, hin]
    have htail : queued .msb (m - n) (word &&& headMask .msb m n) =
        List.replicate (m - n) false := by
      rw [← fieldBits_zero_value .msb]
      refine fieldBits_congr .msb fun i hi ↦ ?_
      simp [headMask, BitVec.testBit_toNat]
      omega
    rw [← queued_full, ← queued_full, hmasked, hword, hhead, htail,
      List.take_left' (length_queued .msb n _)]
  | lsb =>
    have hword := queued_lsb_pop word hn.le
    have hmasked := queued_lsb_pop (word &&& lowMask m n) hn.le
    have htail : queued .lsb (m - n) ((word &&& lowMask m n) >>> n) =
        List.replicate (m - n) false := by
      have hlow : (word &&& lowMask m n).toNat < 2 ^ n := by
        rw [toNat_and_lowMask word hn]
        exact Nat.mod_lt _ (Nat.two_pow_pos n)
      rw [queued, BitVec.toNat_ushiftRight, Nat.shiftRight_eq_div_pow, Nat.div_eq_of_lt hlow,
        fieldBits_zero_value]
    rw [headMask, ← queued_full, ← queued_full, hmasked, hword, queued_and_lowMask .lsb word hn,
      htail, List.take_left' (length_queued .lsb n _)]

end Bitstream.Foundation
