import Bitstream.Foundation.CallTrace
import Bitstream.Writing.Appending

/-!
# When overflow freezes the output

`bs_write_bytes` asks the overflow flag before it writes, the drains do not. A block that does not
fit raises the flag with room left in the buffer, and the next byte that bit writes complete goes
into that room (`refused_block_then_byte`). `DumpsNothing` is the exact condition under which a call
made under the flag writes nothing, and `freezes_iff_dumpsNothing` says that a run freezes its
output exactly when it holds of every call.
-/

set_option autoImplicit false
set_option relaxedAutoImplicit false

namespace Bitstream.Writing

open Foundation Header

variable {mode : Overshift} {order : BitOrder} {bs after : BsWriter} {field : List Bool}

/-- The checked calls of both orders, with widths of at most 32. -/
def Operation : WriterCall → Prop
  | .writeBits _ _ n => n ≤ 32
  | .writeBitsUnchecked _ _ _ => False
  | .writeBit _ | .align _ | .flush _ | .writeBytes _ => True

instance : DecidablePred Operation
  | .writeBits _ _ n => inferInstanceAs (Decidable (n ≤ 32))
  | .writeBitsUnchecked _ _ _ => .isFalse id
  | .writeBit _ | .align _ | .flush _ | .writeBytes _ => .isTrue trivial

/-- An operation is a bit-level call of some order or a bulk write. -/
theorem Operation.bit_or_block {call : WriterCall} (h : Operation call) :
    (∃ order, BitCall order call) ∨ ∃ src, call = .writeBytes src := by
  cases call with
  | writeBit => exact .inl ⟨.msb, rfl⟩
  | writeBits order value n => exact .inl ⟨order, rfl, h⟩
  | writeBitsUnchecked => exact h.elim
  | align order => exact .inl ⟨order, rfl⟩
  | flush order => exact .inl ⟨order, rfl⟩
  | writeBytes src => exact .inr ⟨src, rfl⟩

/-- The bytes reported as written and the buffer. -/
def reported (bs : BsWriter) : ℕ × List (BitVec 8) := (bsWriterBytesWritten bs, bs.buffer)

/-- A call made under the overflow flag finds the buffer full or completes no byte. -/
def DumpsNothing (issued : Overshift × WriterCall) (bs : BsWriter) : Prop :=
  bs.overflow = true →
    bs.bytePos = bs.size ∨ bs.bitsInCache + queuedCount bs.bitsInCache issued.2 < 8

instance (issued : Overshift × WriterCall) (bs : BsWriter) : Decidable (DumpsNothing issued bs) :=
  inferInstanceAs (Decidable (_ → _ ∨ _))

/-- An append raises the flag or keeps it. -/
theorem Appends.overflow_of (h : Appends order field bs after) (hflag : bs.overflow = true) :
    after.overflow = true := by
  rw [h.overflow_eq, hflag, Bool.true_or]

/-- An append leaves the buffer and the bytes written as they are exactly when the buffer is full or
no byte is complete. -/
theorem Appends.reported_eq_iff (h : Appends order field bs after) (hinv : WriterInv bs)
    (hfield : field.length ≤ 32) :
    reported after = reported bs ↔ bs.bytePos = bs.size ∨ bs.bitsInCache + field.length < 8 := by
  have hafter := h.inv hinv
  have hcount := h.count_eq
  have hle := h.bytePos_le
  have hsize := h.size_eq
  have hroom := hafter.bytePos_le
  constructor
  · intro hsame
    have hpos : after.bytePos = bs.bytePos := congrArg Prod.fst hsame
    by_cases hfull : bs.bytePos = bs.size
    · exact .inl hfull
    · have hbits := hinv.bits_lt_of_room (lt_of_le_of_ne hinv.bytePos_le hfull)
      have hexact : (bs.bitsInCache + field.length) % 2 ^ 32 = bs.bitsInCache + field.length :=
        Nat.mod_eq_of_lt (by omega)
      have hless := hafter.bits_lt_of_room (by omega)
      exact .inr (by omega)
  · intro hnone
    have hpos : after.bytePos = bs.bytePos := by
      rcases hnone with hfull | hfew
      · omega
      · have hexact : (bs.bitsInCache + field.length) % 2 ^ 32 = bs.bitsInCache + field.length :=
          Nat.mod_eq_of_lt (by omega)
        omega
    rw [reported, reported, bsWriterBytesWritten, bsWriterBytesWritten, hpos, h.buffer_eq hpos]

/-- One operation: what writers preserve, the flag that stays up, and the condition under which the
flag stops the output. -/
theorem operation_step (sizeT : SizeT) (issued : Overshift × WriterCall)
    (hinv : WriterInv bs) (hcall : Operation issued.2) :
    WriterInv (writerAct sizeT issued bs).2 ∧
      (bs.overflow = true → (writerAct sizeT issued bs).2.overflow = true) ∧
      ((bs.overflow = true → reported (writerAct sizeT issued bs).2 = reported bs) ↔
        DumpsNothing issued bs) := by
  rcases hcall.bit_or_block with ⟨order, hbit⟩ | ⟨src, hblock⟩
  · have happends := writerAct_appends sizeT hbit hinv
    have hfield := length_appendedField_le hbit bs.bitsInCache
    have hiff := happends.reported_eq_iff hinv hfield
    rw [length_appendedField] at hiff
    exact ⟨happends.inv hinv, happends.overflow_of, imp_congr_right fun _ ↦ hiff⟩
  · obtain ⟨mode, call⟩ := issued
    have hwrite := (bsWriteBytes_ensures mode sizeT hinv.toFits src).post
    have hact : (writerAct sizeT (mode, call) bs).2 =
        ((bsWriteBytes sizeT bs src).value mode).2 := by
      cases hblock
      rfl
    rw [hact]
    refine ⟨hwrite.inv hinv, ?_, ?_⟩
    · intro hflag
      rw [hwrite.eq_of_overflow hflag]
      exact hflag
    · constructor
      · intro _ hflag
        cases hblock
        rcases hinv.drained with hbits | ⟨hfull, _⟩
        · exact .inr hbits
        · exact .inl hfull
      · intro _ hflag
        rw [hwrite.eq_of_overflow hflag]

/-- Overflow freezes the output of a run, from the first moment at which the flag is up, exactly
when every call made under the flag finds the buffer full or completes no byte. Assumes: the calls
are checked writes with widths of at most 32, aligns, flushes and bulk writes of any order. -/
theorem freezes_iff_dumpsNothing (sizeT : SizeT) (initial : List (BitVec 8))
    (issued : List (Overshift × WriterCall)) (hcalls : ∀ call ∈ issued, Operation call.2) :
    Freezes (writerAct sizeT) (fun bs ↦ bs.overflow = true) reported issued
        (bsWriterInit initial initial.length) ↔
      Along (writerAct sizeT) DumpsNothing issued (bsWriterInit initial initial.length) := by
  have halong : Along (writerAct sizeT) (fun call _ ↦ Operation call.2) issued
      (bsWriterInit initial initial.length) :=
    .of_calls hcalls _
  have hinit := writerInv_init initial
  have hfreezes := freezes_iff_along (fun bs ↦ bs.overflow = true) reported WriterInv
    (fun call bs hinv hcall ↦
      have hstep := operation_step sizeT call hinv hcall
      ⟨hstep.1, hstep.2.1⟩) halong hinit
  have hsteps := along_iff_along (fun bs bs' ↦ bs' = bs ∧ WriterInv bs) id
    (fun call bs bs' hrel hcall ↦ by
      obtain ⟨rfl, hinv⟩ := hrel
      have hstep := operation_step sizeT call hinv hcall
      exact ⟨hstep.2.2, fun _ ↦ ⟨rfl, hstep.1⟩⟩) halong ⟨rfl, hinit⟩
  rw [List.map_id] at hsteps
  exact hfreezes.trans hsteps

/-- A run whose calls under the flag find the buffer full or leave a byte open. -/
theorem freezes_iff_dumpsNothing_two_bytes :
    Freezes (writerAct sizeT64) (fun bs ↦ bs.overflow = true) reported
        ([.writeBytes [1, 2, 3], .writeBits .msb 5 3, .writeBits .msb 1 4].map
          (Prod.mk Overshift.masked)) (bsWriterInit [0, 0] 2) ↔
      Along (writerAct sizeT64) DumpsNothing
        ([.writeBytes [1, 2, 3], .writeBits .msb 5 3, .writeBits .msb 1 4].map
          (Prod.mk Overshift.masked)) (bsWriterInit [0, 0] 2) :=
  freezes_iff_dumpsNothing sizeT64 [0, 0] _ (by decide)

/-- A block of two bytes is refused in a buffer of one byte, and eight bits written after it still
go into the buffer. -/
theorem refused_block_then_byte :
    ¬ Freezes (writerAct sizeT64) (fun bs ↦ bs.overflow = true) reported
      ([.writeBytes [1, 2], .writeBits .msb 0xAB 8].map (Prod.mk Overshift.masked))
      (bsWriterInit [0] 1) := by
  intro hfreezes
  have hsame := hfreezes [(.masked, .writeBytes [1, 2])] [(.masked, .writeBits .msb 0xAB 8)]
    (List.prefix_refl _) (by decide)
  exact absurd hsame (by decide)

end Bitstream.Writing
