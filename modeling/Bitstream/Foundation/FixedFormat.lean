import Bitstream.Foundation.BitString
import Mathlib.Logic.Equiv.Defs

/-!
# Formats of fixed width

A `FixedFormat` lays every value out as a bit string of one width, and every bit string of that
width is the layout of one value. Words and flags have a format, pairs take those of their parts one
after the other, and a record takes that of the tuple of its fields (`ofEquiv`). Values are laid out
back to back, and every bit string that is long enough begins with the layout of the values it is
cut into (`layout_items`).
-/

set_option autoImplicit false
set_option relaxedAutoImplicit false

namespace Bitstream.Foundation

/-- A layout of values as bit strings of one width, with its inverse. -/
structure FixedFormat (α : Type*) where
  width : ℕ
  bits : α → List Bool
  ofBits : List Bool → α
  length_bits : ∀ a, (bits a).length = width
  ofBits_bits : ∀ a, ofBits (bits a) = a
  bits_ofBits : ∀ b : List Bool, b.length = width → bits (ofBits b) = b

namespace FixedFormat

variable {α β : Type*}

/-- A word in an order of its bits. -/
def word (order : BitOrder) (n : ℕ) : FixedFormat (BitVec n) where
  width := n
  bits := wordBits order
  ofBits := wordOf n order
  length_bits := length_wordBits order
  ofBits_bits := wordOf_wordBits order
  bits_ofBits := fun _ h ↦ wordBits_wordOf order h

/-- A single bit. -/
def flag : FixedFormat Bool where
  width := 1
  bits := fun b ↦ [b]
  ofBits := fun bits ↦ bits.headD false
  length_bits := fun _ ↦ rfl
  ofBits_bits := fun _ ↦ rfl
  bits_ofBits := fun b h ↦ by
    obtain ⟨bit, rfl⟩ := List.length_eq_one_iff.mp h
    rfl

/-- The first part and behind it the second. -/
def pair (f : FixedFormat α) (g : FixedFormat β) : FixedFormat (α × β) where
  width := f.width + g.width
  bits := fun a ↦ f.bits a.1 ++ g.bits a.2
  ofBits := fun bits ↦ (f.ofBits (bits.take f.width), g.ofBits (bits.drop f.width))
  length_bits := fun a ↦ by rw [List.length_append, f.length_bits, g.length_bits]
  ofBits_bits := fun a ↦ by
    rw [List.take_left' (f.length_bits a.1), List.drop_left' (f.length_bits a.1), f.ofBits_bits,
      g.ofBits_bits]
  bits_ofBits := fun b h ↦ by
    have hfirst : (b.take f.width).length = f.width := by
      rw [List.length_take]
      omega
    have hsecond : (b.drop f.width).length = g.width := by
      rw [List.length_drop]
      omega
    rw [f.bits_ofBits _ hfirst, g.bits_ofBits _ hsecond, List.take_append_drop]

/-- The format of what a value corresponds to. -/
def ofEquiv (f : FixedFormat α) (e : β ≃ α) : FixedFormat β where
  width := f.width
  bits := fun b ↦ f.bits (e b)
  ofBits := fun bits ↦ e.symm (f.ofBits bits)
  length_bits := fun b ↦ f.length_bits (e b)
  ofBits_bits := fun b ↦ by rw [f.ofBits_bits, e.symm_apply_apply]
  bits_ofBits := fun b h ↦ by rw [e.apply_symm_apply, f.bits_ofBits b h]

variable (f : FixedFormat α)

/-- The value that a bit string begins with. -/
theorem exists_bits {bits : List Bool} (h : f.width ≤ bits.length) :
    ∃ a more, bits = f.bits a ++ more := by
  have hfirst : (bits.take f.width).length = f.width := by
    rw [List.length_take, Nat.min_eq_left h]
  refine ⟨f.ofBits (bits.take f.width), bits.drop f.width, ?_⟩
  rw [f.bits_ofBits _ hfirst, List.take_append_drop]

theorem bits_append_inj {a b : α} {more rest : List Bool}
    (h : f.bits a ++ more = f.bits b ++ rest) : a = b := by
  have hbits := (List.append_inj h ((f.length_bits a).trans (f.length_bits b).symm)).1
  rw [← f.ofBits_bits a, hbits, f.ofBits_bits]

/-! ### Values back to back -/

/-- Values laid out one after the other. -/
def layout (values : List α) : List Bool := values.flatMap f.bits

/-- The first `count` values of a bit string. -/
def items : ℕ → List Bool → List α
  | 0, _ => []
  | count + 1, bits => f.ofBits (bits.take f.width) :: items count (bits.drop f.width)

theorem layout_cons (a : α) (values : List α) :
    f.layout (a :: values) = f.bits a ++ f.layout values := rfl

theorem length_layout (values : List α) : (f.layout values).length = f.width * values.length := by
  induction values with
  | nil => rfl
  | cons a values ih =>
    rw [layout_cons, List.length_append, f.length_bits, ih, List.length_cons, Nat.mul_succ,
      Nat.add_comm]

theorem length_items (count : ℕ) (bits : List Bool) : (f.items count bits).length = count := by
  induction count generalizing bits with
  | zero => rfl
  | succ count ih => rw [items, List.length_cons, ih]

/-- The values of a bit string, laid out again, are its beginning. -/
theorem layout_items {count : ℕ} {bits : List Bool} (h : f.width * count ≤ bits.length) :
    f.layout (f.items count bits) = bits.take (f.width * count) := by
  induction count generalizing bits with
  | zero => rw [Nat.mul_zero, List.take_zero]; rfl
  | succ count ih =>
    rw [Nat.mul_succ] at h
    have hfirst : (bits.take f.width).length = f.width := by
      rw [List.length_take]
      omega
    have hrest : f.width * count ≤ (bits.drop f.width).length := by
      rw [List.length_drop]
      omega
    rw [items, layout_cons, f.bits_ofBits _ hfirst, ih hrest, Nat.mul_succ, Nat.add_comm,
      List.take_add]

end FixedFormat

end Bitstream.Foundation
