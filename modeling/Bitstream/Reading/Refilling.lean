import Bitstream.Foundation.WhileLoop
import Bitstream.Reading.CursorRefinement

/-!
# What a refill guarantees

The refill loops of the two bit orders end on every reader, however full the cache is and whatever
stands above the cached bits. They keep what is unread and what a reader of their order requires,
they stop with every byte fetched or with 57 to 64 bits cached, and then have nothing more to do
(`refill_contract`). How far they fetch does not depend on the order (`Refills.bytePos_eq`).
-/

set_option autoImplicit false
set_option relaxedAutoImplicit false

namespace Bitstream.Reading

open Foundation Header

variable {order : BitOrder} {mode : Overshift} {bs after : BsReader}

theorem refill_refills (mode : Overshift) (h : ReaderInv order bs) :
    Eval.Ensures mode (refill order bs) fun after ↦ Refills order bs after ∧ Refilled after :=
  (implementsOrder order mode).refill h

/-! ### Termination -/

/-- The guard of the refill loops. -/
def RefillGuard (bs : BsReader) : Prop := bs.bitsInCache ≤ 56

instance : DecidablePred RefillGuard := fun bs ↦ inferInstanceAs (Decidable (bs.bitsInCache ≤ 56))

/-- The body of the refill loops. -/
def refillPass (push : BsReader → BitVec 8 → Eval (BitVec 64)) (bs : BsReader) :
    Eval (Pass BsReader) :=
  if bs.bytePos ≥ bs.size then pure (.leave bs)
  else do
    let nextByte ← Eval.load bs.buffer bs.size bs.bytePos
    let bitCache ← push bs nextByte
    let bitsInCache ← Eval.add 32 bs.bitsInCache 8
    pure (.next
      { bs with
        bitCache := bitCache
        bitsInCache := bitsInCache
        bytePos := bs.bytePos + 1 })

theorem value_refillLoop (push : BsReader → BitVec 8 → Eval (BitVec 64)) (passes : ℕ)
    (bs : BsReader) :
    (refillLoop push passes bs).value mode =
      (whileLoop RefillGuard (refillPass push) passes bs).value mode := by
  induction passes generalizing bs with
  | zero => rfl
  | succ passes ih =>
    rw [refillLoop, whileLoop]
    by_cases hbits : bs.bitsInCache ≤ 56
    · rw [if_pos hbits, if_pos (show RefillGuard bs from hbits), Eval.value_bind, refillPass]
      by_cases hend : bs.bytePos ≥ bs.size
      · rw [if_pos hend, if_pos hend]
        rfl
      · rw [if_neg hend, if_neg hend]
        exact ih _
    · rw [if_neg hbits, if_neg (show ¬ RefillGuard bs from hbits)]

/-- The refill loop ends, in the state that the refill function returns: a pass that does not leave
the loop adds a byte to the cache. -/
theorem refill_ends (order : BitOrder) (mode : Overshift) (bs : BsReader) :
    WhileEnds RefillGuard (refillPass (push order)) mode bs ((refill order bs).value mode) := by
  rw [refill_eq, value_refillLoop]
  refine whileLoop_ends (fun bs ↦ (64 - bs.bitsInCache) / 8) (fun bs hbits ↦ ?_)
    (fun bs next hbits hpass ↦ ?_) (by omega)
  · unfold RefillGuard at hbits
    omega
  · unfold RefillGuard at hbits
    unfold refillPass at hpass
    by_cases hend : bs.bytePos ≥ bs.size
    · rw [if_pos hend] at hpass
      exact nomatch hpass
    · rw [if_neg hend] at hpass
      have hnext : next.bitsInCache = (bs.bitsInCache + 8) % 2 ^ 32 :=
        congrArg BsReader.bitsInCache (Pass.next.inj hpass).symm
      omega

/-! ### How far a refill fetches -/

/-- The bytes that a refill fetches. -/
def fetched (bs : BsReader) : ℕ := min (bs.size - bs.bytePos) ((64 - bs.bitsInCache) / 8)

/-- A refill stops at a byte position that does not depend on the order. -/
theorem Refills.bytePos_eq (h : Refills order bs after) (hinv : ReaderInv order bs)
    (hfull : Refilled after) : after.bytePos = bs.bytePos + fetched bs := by
  have hcount := h.count_eq
  have hle := h.bytePos_le
  have hsize := h.size_eq
  have hbits := hinv.bits_le
  have hbits' := h.inv.bits_le
  have hend := h.inv.bytePos_le
  unfold Refilled at hfull
  unfold fetched
  omega

/-! ### The contract -/

/-- A reader with nothing to refill stays as it is: its refill loop ends at once. -/
theorem refill_of_refilled (order : BitOrder) (mode : Overshift) (hfull : Refilled bs) :
    (refill order bs).value mode = bs := by
  refine (refill_ends order mode bs).unique ?_
  by_cases hbits : RefillGuard bs
  · have hend : bs.bytePos ≥ bs.size := by
      unfold Refilled at hfull
      unfold RefillGuard at hbits
      omega
    refine .leave hbits ?_
    rw [refillPass, if_pos hend]
    rfl
  · exact .exit hbits

/-- A refill of either order is defined, its loop ends, the unread stream and the buffer stay the
same, the result is a reader of the order again, every byte is fetched or 57 to 64 bits are cached,
and a second refill changes nothing. Assumes: the counters of the reader are in range, and in the
least significant first order no bit stands above the cached ones. -/
theorem refill_contract (order : BitOrder) (mode : Overshift) (bs : BsReader)
    (h : ReaderInv order bs) :
    (refill order bs).Defined mode ∧
      WhileEnds RefillGuard (refillPass (push order)) mode bs ((refill order bs).value mode) ∧
      ReaderInv order ((refill order bs).value mode) ∧
      ((refill order bs).value mode).buffer = bs.buffer ∧
      ((refill order bs).value mode).size = bs.size ∧
      unread order ((refill order bs).value mode) = unread order bs ∧
      (((refill order bs).value mode).bytePos = ((refill order bs).value mode).size ∨
        57 ≤ ((refill order bs).value mode).bitsInCache ∧
          ((refill order bs).value mode).bitsInCache ≤ 64) ∧
      ∀ other : Overshift,
        (refill order ((refill order bs).value mode)).value other =
          (refill order bs).value mode := by
  have hrefill := refill_refills mode h
  obtain ⟨hrefills, hfull⟩ := hrefill.post
  refine ⟨hrefill.defined, refill_ends order mode bs, hrefills.inv, hrefills.buffer_eq,
    hrefills.size_eq, hrefills.unread_eq, ?_, fun other ↦ refill_of_refilled order other hfull⟩
  rcases hfull with hmany | hend
  · exact .inr ⟨hmany, hrefills.inv.bits_le⟩
  · exact .inl hend

/-- A reader with 13 bits cached, stale ones above them, and two bytes left to fetch. -/
theorem refill_contract_two_bytes :
    let bs : BsReader := ⟨[0xA5, 0x3C, 0x99, 0x0F], 4, 2, 0xFFA53C, 13⟩
    (refill .msb bs).Defined .masked ∧
      WhileEnds RefillGuard (refillPass (push .msb)) .masked bs ((refill .msb bs).value .masked) ∧
      ReaderInv .msb ((refill .msb bs).value .masked) ∧
      ((refill .msb bs).value .masked).buffer = bs.buffer ∧
      ((refill .msb bs).value .masked).size = bs.size ∧
      unread .msb ((refill .msb bs).value .masked) = unread .msb bs ∧
      (((refill .msb bs).value .masked).bytePos = ((refill .msb bs).value .masked).size ∨
        57 ≤ ((refill .msb bs).value .masked).bitsInCache ∧
          ((refill .msb bs).value .masked).bitsInCache ≤ 64) ∧
      ∀ other : Overshift,
        (refill .msb ((refill .msb bs).value .masked)).value other =
          (refill .msb bs).value .masked :=
  refill_contract .msb .masked _ ⟨rfl, by decide, by decide, by decide⟩

end Bitstream.Reading
