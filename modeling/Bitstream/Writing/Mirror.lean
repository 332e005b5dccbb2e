import Bitstream.Foundation.BitReversal
import Bitstream.Writing.OutputRefinement

/-!
# The two writers are mirror images

A most significant first writer and a least significant first writer that is given the reversed
fields emit the same bits, so what the second shows is what the first shows with the bits of each
byte reversed, and their counters agree after every call, in full buffers too (`writer_mirror`).
-/

set_option autoImplicit false
set_option relaxedAutoImplicit false

namespace Bitstream.Writing

open Foundation Header

variable {initial : List (BitVec 8)} {s s' : BsWriter} {bits : List Bool}

/-! ### Mirrored calls -/

/-- The most significant first calls that have a mirror image, with widths of at most 32. -/
def Mirrorable : WriterCall → Prop
  | .writeBits o _ n => o = .msb ∧ n ≤ 32
  | .align o | .flush o => o = .msb
  | .writeBit _ | .writeBitsUnchecked _ _ _ | .writeBytes _ => False

instance : DecidablePred Mirrorable
  | .writeBits o _ n => inferInstanceAs (Decidable (o = .msb ∧ n ≤ 32))
  | .align o | .flush o => inferInstanceAs (Decidable (o = .msb))
  | .writeBit _ | .writeBitsUnchecked _ _ _ | .writeBytes _ => .isFalse id

/-- The least significant first function of a call, on the reversed field. -/
def mirrorCall : WriterCall → WriterCall
  | .writeBit value => .writeBits .lsb (value.setWidth 32) 1
  | .writeBits _ value n => .writeBits .lsb (reverseField n value) n
  | .writeBitsUnchecked _ value n => .writeBitsUnchecked .lsb (reverseField n value) n
  | .align _ => .align .lsb
  | .flush _ => .flush .lsb
  | .writeBytes src => .writeBytes (src.map BitVec.reverse)

theorem Mirrorable.bitCall {call : WriterCall} (h : Mirrorable call) :
    BitCall .msb call ∧ BitCall .lsb (mirrorCall call) := by
  cases call with
  | writeBits => exact ⟨h, rfl, h.2⟩
  | align | flush => exact ⟨h, rfl⟩
  | writeBit | writeBitsUnchecked | writeBytes => exact h.elim

/-- A mirrored call emits the same bits in the other order. -/
theorem emit_mirrorCall {call : WriterCall} (h : Mirrorable call) (bits : List Bool) :
    emit .lsb (mirrorCall call) bits = emit .msb call bits := by
  cases call with
  | writeBits o value n => rw [mirrorCall, emit, emit, fieldBits_lsb_reverseField h.2]
  | align | flush => rfl
  | writeBit | writeBitsUnchecked | writeBytes => exact h.elim

theorem queuedCount_mirrorCall {call : WriterCall} (h : Mirrorable call) (bitsInCache : ℕ) :
    queuedCount bitsInCache (mirrorCall call) = queuedCount bitsInCache call := by
  cases call with
  | writeBits | align | flush => rfl
  | writeBit | writeBitsUnchecked | writeBytes => exact h.elim

/-- The same bits show reversed bytes in the other order. -/
theorem sinkOutput_lsb (initial : List (BitVec 8)) (bits : List Bool) :
    sinkOutput .lsb (initial.map BitVec.reverse) bits =
      ((sinkOutput .msb initial bits).1, (sinkOutput .msb initial bits).2.1.map BitVec.reverse,
        (sinkOutput .msb initial bits).2.2) := by
  simp only [sinkOutput, packWords_lsb, List.length_map, List.map_append, List.map_take,
    List.map_drop]

/-! ### Two runs -/

/-- Writers of the two orders that have taken the same bits and cache the same number of them. -/
structure Mirrors (initial : List (BitVec 8)) (s s' : BsWriter) (bits : List Bool) : Prop where
  msb : Emitted .msb initial s bits
  lsb : Emitted .lsb (initial.map BitVec.reverse) s' bits
  bits_eq : s'.bitsInCache = s.bitsInCache

theorem mirrors_init (initial : List (BitVec 8)) :
    Mirrors initial (bsWriterInit initial initial.length)
      (bsWriterInit (initial.map BitVec.reverse) (initial.map BitVec.reverse).length) [] where
  msb := emitted_init .msb initial
  lsb := emitted_init .lsb (initial.map BitVec.reverse)
  bits_eq := rfl

/-- What the second writer shows is what the first shows, with reversed bytes. -/
theorem output_mirrored (h : Emitted .msb initial s bits)
    (k : Emitted .lsb (initial.map BitVec.reverse) s' bits) :
    writerOutput s' =
      ((writerOutput s).1, (writerOutput s).2.1.map BitVec.reverse, (writerOutput s).2.2) := by
  rw [k.output_eq, h.output_eq, sinkOutput_lsb]

/-- One call on both writers. -/
theorem Mirrors.step (sizeT : SizeT) (h : Mirrors initial s s' bits)
    {issued image : Overshift × WriterCall} (hcall : Mirrorable issued.2)
    (himage : image.2 = mirrorCall issued.2) :
    Mirrors initial (writerAct sizeT issued s).2 (writerAct sizeT image s').2
      (emit .msb issued.2 bits).2 := by
  obtain ⟨hmsb, hlsb⟩ := hcall.bitCall
  rw [← himage] at hlsb
  have hstep := h.msb.step sizeT hmsb
  have hstep' := h.lsb.step sizeT hlsb
  rw [himage, emit_mirrorCall hcall] at hstep'
  refine ⟨hstep, hstep', ?_⟩
  -- The bits in the cache follow from the byte positions before and after the call.
  have hpos : s'.bytePos = s.bytePos := congrArg Prod.fst (output_mirrored h.msb h.lsb)
  have hpos' : (writerAct sizeT image s').2.bytePos = (writerAct sizeT issued s).2.bytePos :=
    congrArg Prod.fst (output_mirrored hstep hstep')
  have hcount := (writerAct_appends sizeT hmsb h.msb.toWriterInv).count_eq
  have hcount' := (writerAct_appends sizeT hlsb h.lsb.toWriterInv).count_eq
  rw [length_appendedField] at hcount hcount'
  rw [himage, h.bits_eq, queuedCount_mirrorCall hcall, hpos, hpos'] at hcount'
  omega

/-- What the two runs have equal, when one of the buffers has its bytes reversed. -/
def writerView (buffer : List (BitVec 8)) (bs : BsWriter) : List (BitVec 8) × ℕ × ℕ × Bool :=
  (buffer, bs.bytePos, bs.bitsInCache, bs.overflow)

theorem Mirrors.view_eq (h : Mirrors initial s s' bits) :
    writerView (s.buffer.map BitVec.reverse) s = writerView s'.buffer s' := by
  have houtput := output_mirrored h.msb h.lsb
  have hpos : s'.bytePos = s.bytePos := congrArg Prod.fst houtput
  have hbuffer : s'.buffer = s.buffer.map BitVec.reverse :=
    congrArg (fun output ↦ output.2.1) houtput
  have hflag : s'.overflow = s.overflow := congrArg (fun output ↦ output.2.2) houtput
  rw [writerView, writerView, hpos, hbuffer, hflag, h.bits_eq]

/-- A run of the most significant first functions and its mirrored run, with whatever undefined
shifts yield in either, have reversed bytes in their buffers and equal counters after every call. -/
theorem writer_mirror (sizeT : SizeT) (initial : List (BitVec 8))
    {issued image : List (Overshift × WriterCall)} (hcalls : ∀ call ∈ issued, Mirrorable call.2)
    (himage : image.map Prod.snd = issued.map fun call ↦ mirrorCall call.2) :
    (trace (writerAct sizeT) issued (bsWriterInit initial initial.length)).map
        (fun entry ↦ writerView (entry.2.buffer.map BitVec.reverse) entry.2) =
      (trace (writerAct sizeT) image (bsWriterInit (initial.map BitVec.reverse)
          (initial.map BitVec.reverse).length)).map
        (fun entry ↦ writerView entry.2.buffer entry.2) := by
  have halong : Along (writerAct sizeT) (fun call _ ↦ Mirrorable call.2) issued
      (bsWriterInit initial initial.length) :=
    .of_calls hcalls _
  refine map_trace_eq_of_forall₂ (R := fun s s' ↦ ∃ bits, Mirrors initial s s' bits)
    (fun call other s s' hother hrel hcall ↦ ?_) (forall₂_of_map_eq himage) halong
    ⟨_, mirrors_init initial⟩
  obtain ⟨bits, hmirrors⟩ := hrel
  have hnext := hmirrors.step sizeT hcall hother
  exact ⟨hnext.view_eq, _, hnext⟩

end Bitstream.Writing
