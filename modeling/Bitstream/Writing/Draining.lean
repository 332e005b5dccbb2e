import Bitstream.Foundation.WhileLoop
import Bitstream.Writing.Drain

/-!
# What a drain guarantees

The drain loops of the two bit orders end on every writer. From at most 63 clean bits a drain writes
as many complete bytes as are cached and as there is room for; these bytes followed by the bits that
stay cached are the bits cached before, the cache is clean again, no other byte of the buffer
changes, and the overflow flag goes up exactly when a complete byte stays behind (`dump_contract`).
-/

set_option autoImplicit false
set_option relaxedAutoImplicit false

namespace Bitstream.Writing

open Foundation Header

variable {order : BitOrder} {mode : Overshift} {bs after : BsWriter}

/-! ### Termination -/

/-- The guard of the dump loops. -/
def DumpGuard (bs : BsWriter) : Prop := bs.bitsInCache ≥ 8

instance : DecidablePred DumpGuard := fun bs ↦ inferInstanceAs (Decidable (bs.bitsInCache ≥ 8))

/-- The body of the dump loops. -/
def dumpPass (pop : BsWriter → Eval (BitVec 8 × BitVec 64)) (bs : BsWriter) :
    Eval (Pass BsWriter) :=
  if bs.bytePos ≥ bs.size then pure (.leave { bs with overflow := true })
  else do
    let popped ← pop bs
    let buffer ← Eval.store bs.buffer bs.size bs.bytePos popped.1
    let bitsInCache ← Eval.sub 32 bs.bitsInCache 8
    pure (.next
      { bs with
        buffer := buffer
        bytePos := bs.bytePos + 1
        bitCache := popped.2
        bitsInCache := bitsInCache })

theorem value_dumpLoop (pop : BsWriter → Eval (BitVec 8 × BitVec 64)) (passes : ℕ)
    (bs : BsWriter) :
    (dumpLoop pop passes bs).value mode =
      (whileLoop DumpGuard (dumpPass pop) passes bs).value mode := by
  induction passes generalizing bs with
  | zero => rfl
  | succ passes ih =>
    rw [dumpLoop, whileLoop]
    by_cases hbits : bs.bitsInCache ≥ 8
    · rw [if_pos hbits, if_pos (show DumpGuard bs from hbits), Eval.value_bind, dumpPass]
      by_cases hfull : bs.bytePos ≥ bs.size
      · rw [if_pos hfull, if_pos hfull]
        rfl
      · rw [if_neg hfull, if_neg hfull]
        exact ih _
    · rw [if_neg hbits, if_neg (show ¬ DumpGuard bs from hbits)]

/-- The dump loop ends within the passes that the dump functions allow: a pass that does not leave
the loop takes a byte from the cache. -/
theorem dump_ends (order : BitOrder) (mode : Overshift) (bs : BsWriter) :
    WhileEnds DumpGuard (dumpPass (pop order)) mode bs
      ((dumpLoop (pop order) (bs.bitsInCache / 8) bs).value mode) := by
  rw [value_dumpLoop]
  refine whileLoop_ends (fun bs ↦ bs.bitsInCache / 8) (fun bs hbits ↦ ?_)
    (fun bs next hbits hpass ↦ ?_) le_rfl
  · unfold DumpGuard at hbits
    omega
  · unfold DumpGuard at hbits
    unfold dumpPass at hpass
    by_cases hfull : bs.bytePos ≥ bs.size
    · rw [if_pos hfull] at hpass
      exact nomatch hpass
    · rw [if_neg hfull] at hpass
      have hnext : next.bitsInCache = (Eval.sub 32 bs.bitsInCache 8).value mode :=
        congrArg BsWriter.bitsInCache (Pass.next.inj hpass).symm
      rw [Eval.value_sub mode 32 hbits] at hnext
      omega

/-! ### The bytes written -/

/-- The bytes that a drain writes. -/
def dumped (bs : BsWriter) : ℕ := min (bs.bitsInCache / 8) (bs.size - bs.bytePos)

theorem Drains.bytePos_eq (h : Drains bs after) (hfits : Fits bs) :
    after.bytePos = bs.bytePos + dumped bs := by
  have hcount := h.count_eq
  have hle := h.bytePos_le
  have hsize := h.size_eq
  have hroom := h.bytePos_le_size
  have hstart := hfits.bytePos_le
  have hends := h.ends
  unfold dumped
  omega

/-- Where a drain keeps the content, the bytes it writes followed by the bits that stay cached are
the bits cached before. -/
theorem Drains.queued_eq (h : Drains bs after) (hfits : Fits bs)
    (hcontent : content order after = content order bs) :
    stream order ((after.buffer.drop bs.bytePos).take (dumped bs)) ++
        queued order after.bitsInCache after.bitCache =
      queued order bs.bitsInCache bs.bitCache := by
  have hpos := h.bytePos_eq hfits
  rw [content, content, hpos, List.take_add, h.written_eq, stream_append, List.append_assoc]
    at hcontent
  exact List.append_cancel_left hcontent

/-! ### The contract -/

/-- A drain of either order is defined and its loop ends; it writes `dumped` bytes at the byte
position, which together with the bits that stay cached are the bits cached before; the cache is
clean again, the rest of the buffer is as before, and overflow is up exactly when it was up before
or eight bits or more stay cached. Assumes: the buffer has the size the writer was given, the byte
position lies in it, and at most 63 bits are cached with no bit above them. -/
theorem dump_contract (order : BitOrder) (mode : Overshift) (bs : BsWriter) (h : Fits bs)
    (hbits : bs.bitsInCache ≤ 63) (hclean : Clean bs) :
    (dump order bs).Defined mode ∧
      WhileEnds DumpGuard (dumpPass (pop order)) mode bs
        ((dumpLoop (pop order) (bs.bitsInCache / 8) bs).value mode) ∧
      ((dump order bs).value mode).size = bs.size ∧
      ((dump order bs).value mode).bytePos =
        bs.bytePos + min (bs.bitsInCache / 8) (bs.size - bs.bytePos) ∧
      stream order ((((dump order bs).value mode).buffer.drop bs.bytePos).take
            (min (bs.bitsInCache / 8) (bs.size - bs.bytePos))) ++
          queued order ((dump order bs).value mode).bitsInCache
            ((dump order bs).value mode).bitCache =
        queued order bs.bitsInCache bs.bitCache ∧
      Clean ((dump order bs).value mode) ∧
      ((dump order bs).value mode).buffer.length = bs.buffer.length ∧
      ((dump order bs).value mode).buffer.take bs.bytePos = bs.buffer.take bs.bytePos ∧
      ((dump order bs).value mode).buffer.drop ((dump order bs).value mode).bytePos =
        bs.buffer.drop ((dump order bs).value mode).bytePos ∧
      (((dump order bs).value mode).overflow = true ↔
        bs.overflow = true ∨ 8 ≤ ((dump order bs).value mode).bitsInCache) := by
  have hdumps := dump_dumps order mode
  have hroom : RoomBounded bs := fun _ ↦ hbits.trans (by norm_num)
  have hdrains := hdumps.drains h hroom
  have hkept : ((dump order bs).value mode).bitsInCache < 64 := by
    have hcount := hdrains.count_eq
    have hle := hdrains.bytePos_le
    omega
  refine ⟨(hdumps.defined_iff h hroom).mpr fun _ ↦ hkept, dump_ends order mode bs,
    hdrains.size_eq, hdrains.bytePos_eq h,
    hdrains.queued_eq h (hdumps.content_eq h hroom hkept), hdumps.clean h hroom hclean hkept,
    hdrains.length_eq, hdrains.written_eq, hdrains.rest_eq, ?_⟩
  rw [hdrains.overflow_eq, Bool.or_eq_true, decide_eq_true_eq]

/-- Twenty bits and room for one byte. -/
theorem dump_contract_one_byte :
    let bs : BsWriter := ⟨[0x11, 0x22], 2, 1, 0xABCDE, 20, false⟩
    (dump .msb bs).Defined .masked ∧
      WhileEnds DumpGuard (dumpPass (pop .msb)) .masked bs
        ((dumpLoop (pop .msb) (bs.bitsInCache / 8) bs).value .masked) ∧
      ((dump .msb bs).value .masked).size = bs.size ∧
      ((dump .msb bs).value .masked).bytePos =
        bs.bytePos + min (bs.bitsInCache / 8) (bs.size - bs.bytePos) ∧
      stream .msb ((((dump .msb bs).value .masked).buffer.drop bs.bytePos).take
            (min (bs.bitsInCache / 8) (bs.size - bs.bytePos))) ++
          queued .msb ((dump .msb bs).value .masked).bitsInCache
            ((dump .msb bs).value .masked).bitCache =
        queued .msb bs.bitsInCache bs.bitCache ∧
      Clean ((dump .msb bs).value .masked) ∧
      ((dump .msb bs).value .masked).buffer.length = bs.buffer.length ∧
      ((dump .msb bs).value .masked).buffer.take bs.bytePos = bs.buffer.take bs.bytePos ∧
      ((dump .msb bs).value .masked).buffer.drop ((dump .msb bs).value .masked).bytePos =
        bs.buffer.drop ((dump .msb bs).value .masked).bytePos ∧
      (((dump .msb bs).value .masked).overflow = true ↔
        bs.overflow = true ∨ 8 ≤ ((dump .msb bs).value .masked).bitsInCache) :=
  dump_contract .msb .masked _ ⟨rfl, by decide⟩ (by decide) (by unfold Clean; decide)

end Bitstream.Writing
