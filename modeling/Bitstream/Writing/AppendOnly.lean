import Bitstream.Foundation.AccessSafety
import Bitstream.Writing.BulkWriting

/-!
# The writer only appends

Whatever is called, with whatever arguments, in whichever order, and whatever shifts by 64 or more
yield: a writer stores inside its buffer, keeps the bytes it has written, leaves the bytes behind
its position as they were, and never takes the overflow flag down. The bits themselves may be wrong
in such a run (a width above 32 or an unclean unchecked value spoils the cache); what `OnlyAppends`
says is what no caller can break. `writerStep_onlyAppends` is the step lemma and
`writer_only_appends` the run from it.
-/

set_option autoImplicit false
set_option relaxedAutoImplicit false

namespace Bitstream.Writing

open Foundation Header

variable {mode : Overshift} {bs middle after : BsWriter}

/-- The bytes written before are still there, more may have been written behind them in the same
buffer, what lies behind these is as it was, and a raised flag is still up. -/
structure OnlyAppends (before after : BsWriter) : Prop where
  size_eq : after.size = before.size
  length_eq : after.buffer.length = before.buffer.length
  bytePos_le : before.bytePos ≤ after.bytePos
  written_eq : after.buffer.take before.bytePos = before.buffer.take before.bytePos
  rest_eq : after.buffer.drop after.bytePos = before.buffer.drop after.bytePos
  overflow_of : before.overflow = true → after.overflow = true

namespace OnlyAppends

/-- A change of the cache and of the bits counted writes nothing. -/
theorem of_cache (bitCache : BitVec 64) (bitsInCache : ℕ) :
    OnlyAppends bs { bs with bitCache := bitCache, bitsInCache := bitsInCache } :=
  ⟨rfl, rfl, le_rfl, rfl, rfl, id⟩

theorem refl (bs : BsWriter) : OnlyAppends bs bs := of_cache bs.bitCache bs.bitsInCache

/-- Raising the flag writes nothing. -/
theorem of_raised : OnlyAppends bs { bs with overflow := true } :=
  ⟨rfl, rfl, le_rfl, rfl, rfl, fun _ ↦ rfl⟩

theorem trans (h : OnlyAppends bs middle) (k : OnlyAppends middle after) :
    OnlyAppends bs after where
  size_eq := k.size_eq.trans h.size_eq
  length_eq := k.length_eq.trans h.length_eq
  bytePos_le := h.bytePos_le.trans k.bytePos_le
  written_eq := by
    have hwritten := congrArg (List.take bs.bytePos) k.written_eq
    rw [List.take_take, List.take_take, Nat.min_eq_left h.bytePos_le] at hwritten
    exact hwritten.trans h.written_eq
  rest_eq := by
    have hrest := congrArg (List.drop (after.bytePos - middle.bytePos)) h.rest_eq
    rw [List.drop_drop, List.drop_drop, Nat.add_sub_cancel' k.bytePos_le] at hrest
    exact k.rest_eq.trans hrest
  overflow_of := fun hflag ↦ k.overflow_of (h.overflow_of hflag)

/-- One pass of a drain: a byte goes to the position. -/
theorem of_passed (byte : BitVec 8) (bitCache : BitVec 64) :
    OnlyAppends bs (passed bs byte bitCache) where
  size_eq := rfl
  length_eq := List.length_set
  bytePos_le := Nat.le_succ _
  written_eq := List.take_set_of_le le_rfl
  rest_eq := List.drop_set_of_lt (Nat.lt_succ_self _)
  overflow_of := id

/-- A block goes to the position. -/
theorem of_block {src : List (BitVec 8)} (h : Fits bs)
    (hfit : bs.bytePos + src.length ≤ bs.size) :
    OnlyAppends bs { bs with
      buffer := bs.buffer.take bs.bytePos ++ src ++ bs.buffer.drop (bs.bytePos + src.length)
      bytePos := bs.bytePos + src.length } := by
  have hsize := h.size_eq
  have hlength : (bs.buffer.take bs.bytePos).length = bs.bytePos := by
    rw [List.length_take]
    omega
  refine ⟨rfl, ?_, Nat.le_add_right _ _, ?_, ?_, id⟩
  · simp only [List.length_append, List.length_drop, hlength]
    omega
  · simp only [List.append_assoc]
    exact List.take_left' hlength
  · refine List.drop_left' ?_
    rw [List.length_append, hlength]

end OnlyAppends

/-! ### What every function does -/

/-- From a position in the buffer, the evaluation stores inside the buffer and only appends to it.
-/
def Appending (mode : Overshift) (bs : BsWriter) (x : Eval BsWriter) : Prop :=
  x.Meets Obligation.InBounds mode fun after ↦ Fits after ∧ OnlyAppends bs after

theorem appending_pure (h : Fits bs) : Appending mode bs (pure bs) :=
  Eval.meets_pure ⟨h, .refl bs⟩

/-- What only appends may be followed by what only appends. -/
theorem Appending.bind {x : Eval BsWriter} {f : BsWriter → Eval BsWriter}
    (hx : Appending mode bs x) (hf : ∀ after, Fits after → Appending mode after (f after)) :
    Appending mode bs (x >>= f) := by
  refine Eval.Meets.bind hx fun middle ⟨hfits, hmiddle⟩ ↦ ?_
  exact (hf middle hfits).mono fun after ⟨hafter, hnext⟩ ↦ ⟨hafter, hmiddle.trans hnext⟩

/-- What only appends after a change of the cache only appends. -/
theorem Appending.of_cache (bitCache : BitVec 64) (bitsInCache : ℕ) {x : Eval BsWriter}
    (h : Appending mode { bs with bitCache := bitCache, bitsInCache := bitsInCache } x) :
    Appending mode bs x :=
  h.mono fun _ ⟨hfits, hnext⟩ ↦ ⟨hfits, (OnlyAppends.of_cache bitCache bitsInCache).trans hnext⟩

/-- A pop function takes a byte from the cache, whichever. -/
def PopsSomething (mode : Overshift) (pop : BsWriter → Eval (BitVec 8 × BitVec 64)) : Prop :=
  ∀ bs : BsWriter, (pop bs).Meets Obligation.InBounds mode fun _ ↦ True

theorem pop_popsSomething (order : BitOrder) : PopsSomething mode (pop order) := by
  intro bs
  cases order with
  | msb =>
    refine (Eval.meets_sub 32 trivial).bind fun shiftAmount _ ↦ ?_
    refine (Eval.meets_shiftRight trivial).bind fun shifted _ ↦ ?_
    exact Eval.meets_pure trivial
  | lsb =>
    refine (Eval.meets_shiftRight trivial).bind fun bitCache _ ↦ ?_
    exact Eval.meets_pure trivial

/-- The loop of the dump functions, by induction on its passes: a byte is stored below the size, so
inside the buffer. -/
theorem dumpLoop_appending {pop : BsWriter → Eval (BitVec 8 × BitVec 64)}
    (hpop : PopsSomething mode pop) (passes : ℕ) {bs : BsWriter} (h : Fits bs) :
    Appending mode bs (dumpLoop pop passes bs) := by
  induction passes generalizing bs with
  | zero => exact appending_pure h
  | succ passes ih =>
    unfold dumpLoop
    by_cases hbits : bs.bitsInCache ≥ 8
    · by_cases hfull : bs.bytePos ≥ bs.size
      · rw [if_pos hbits, if_pos hfull]
        exact Eval.meets_pure ⟨⟨h.size_eq, h.bytePos_le⟩, .of_raised⟩
      · rw [if_pos hbits, if_neg hfull]
        have hmore : bs.bytePos < bs.size := Nat.lt_of_not_le hfull
        refine (hpop bs).bind fun popped _ ↦ ?_
        have hstore : Obligation.InBounds (.access bs.bytePos 1 bs.size) := hmore
        refine (Eval.meets_store hstore).bind fun buffer hbuffer ↦ ?_
        refine (Eval.meets_sub 32 trivial).bind fun bitsInCache hcount ↦ ?_
        rw [hbuffer, hcount hbits]
        refine (ih (fits_passed h hmore)).mono fun after hafter ↦ ⟨hafter.1, ?_⟩
        exact (OnlyAppends.of_passed popped.1 popped.2).trans hafter.2
    · rw [if_neg hbits]
      exact appending_pure h

theorem dump_appending (order : BitOrder) (h : Fits bs) : Appending mode bs (dump order bs) := by
  have hloop : Appending mode bs (dumpLoop (pop order) (bs.bitsInCache / 8) bs) :=
    dumpLoop_appending (pop_popsSomething order) _ h
  cases order with
  | msb =>
    refine Appending.bind hloop fun after hafter ↦ ?_
    refine (Eval.meets_shiftLeft trivial).bind fun bit _ ↦ ?_
    exact Eval.meets_pure ⟨⟨hafter.size_eq, hafter.bytePos_le⟩,
      .of_cache (after.bitCache &&& (bit - 1#64)) after.bitsInCache⟩
  | lsb => exact hloop

theorem queueBits_appending (order : BitOrder) (h : Fits bs) (bitCache : BitVec 64) (n : ℕ) :
    Appending mode bs (queueBits (dump order) bs bitCache n) := by
  refine (Eval.meets_add trivial).bind fun bitsInCache _ ↦ ?_
  have hfits : Fits { bs with bitCache := bitCache, bitsInCache := bitsInCache } :=
    ⟨h.size_eq, h.bytePos_le⟩
  refine Appending.of_cache bitCache bitsInCache ?_
  show Appending mode _ (if bitsInCache ≥ 8 then _ else _)
  by_cases hbyte : bitsInCache ≥ 8
  · rw [if_pos hbyte]
    exact dump_appending order hfits
  · rw [if_neg hbyte]
    exact appending_pure hfits

theorem push_meets (order : BitOrder) (bs : BsWriter) (clean : BitVec 64) (n : ℕ) :
    (push order bs clean n).Meets Obligation.InBounds mode fun _ ↦ True := by
  cases order with
  | msb => exact ((Eval.meets_shiftLeft trivial).mono fun _ _ ↦ trivial).map
  | lsb => exact ((Eval.meets_shiftLeft trivial).mono fun _ _ ↦ trivial).map

theorem write_appending (order : BitOrder) (h : Fits bs) (value : BitVec 32) (n : ℕ) :
    Appending mode bs (write order bs value n) := by
  rw [write_eq]
  by_cases hzero : n = 0
  · rw [if_pos hzero]
    exact appending_pure h
  · rw [if_neg hzero]
    have hclean : (cleanValue value n).Meets Obligation.InBounds mode fun _ ↦ True :=
      (Eval.meets_shiftLeft trivial).bind fun _ _ ↦ Eval.meets_pure trivial
    refine hclean.bind fun clean _ ↦ ?_
    exact (push_meets order bs clean n).bind fun bitCache _ ↦
      queueBits_appending order h bitCache n

theorem writeUnchecked_appending (order : BitOrder) (h : Fits bs) (value : BitVec 32) (n : ℕ) :
    Appending mode bs (writeUnchecked order bs value n) := by
  rw [writeUnchecked_eq]
  exact (push_meets order bs _ n).bind fun bitCache _ ↦ queueBits_appending order h bitCache n

theorem bsWriteBit_appending (h : Fits bs) (value : BitVec 8) :
    Appending mode bs (bsWriteBit bs value) := by
  rw [bsWriteBit_eq]
  exact (push_meets .msb bs _ 1).bind fun bitCache _ ↦ queueBits_appending .msb h bitCache 1

theorem align_appending (order : BitOrder) (h : Fits bs) :
    Appending mode bs (align (write order) bs) := by
  unfold align
  by_cases hres : bs.bitsInCache % 8 > 0
  · rw [if_pos hres]
    exact write_appending order h 0 _
  · rw [if_neg hres]
    exact appending_pure h

theorem flush_appending (order : BitOrder) (h : Fits bs) :
    Appending mode bs (flush (dump order) (write order) bs) := by
  have hpad (bs : BsWriter) (hbs : Fits bs) : Appending mode bs (do
      let paddingBits ← Eval.sub 32 8 bs.bitsInCache
      write order bs 0 paddingBits) :=
    (Eval.meets_sub 32 trivial).bind fun paddingBits _ ↦ write_appending order hbs 0 paddingBits
  unfold flush
  by_cases hzero : bs.bitsInCache = 0
  · rw [if_pos hzero]
    exact appending_pure h
  · rw [if_neg hzero]
    by_cases hretry : bs.overflow ∨ bs.bitsInCache ≥ 8
    · rw [if_pos hretry]
      refine (dump_appending order h).bind fun after hafter ↦ ?_
      by_cases hnone : after.bitsInCache = 0
      · rw [if_pos hnone]
        exact appending_pure hafter
      · rw [if_neg hnone]
        by_cases hbyte : after.bitsInCache ≥ 8
        · rw [if_pos hbyte]
          exact Eval.meets_pure ⟨⟨hafter.size_eq, hafter.bytePos_le⟩, .of_raised⟩
        · rw [if_neg hbyte]
          exact hpad after hafter
    · rw [if_neg hretry]
      exact hpad bs h

theorem bsWriteBytes_appending (sizeT : SizeT) (h : Fits bs) (src : List (BitVec 8)) :
    (bsWriteBytes sizeT bs src).Meets Obligation.InBounds mode fun written ↦
      Fits written.2 ∧ OnlyAppends bs written.2 := by
  refine ((bsWriteBytes_ensures mode sizeT h src).meets fun _ ho ↦ ho.inBounds).mono
    fun written hwrite ↦ ?_
  cases hwrite with
  | rejected => exact ⟨h, .refl bs⟩
  | refused => exact ⟨⟨h.size_eq, h.bytePos_le⟩, .of_raised⟩
  | stored _ _ hfit =>
    have hblock := OnlyAppends.of_block h hfit
    exact ⟨⟨hblock.size_eq.trans (h.size_eq.trans hblock.length_eq.symm), hfit⟩, hblock⟩

/-! ### Steps and runs -/

/-- The step lemma: any call only appends. -/
theorem writerStep_onlyAppends (sizeT : SizeT) (mode : Overshift) (call : WriterCall)
    (h : Fits bs) :
    (writerStep sizeT call bs).Meets Obligation.InBounds mode fun entry ↦
      Fits entry.2 ∧ OnlyAppends bs entry.2 := by
  have hsilent {x : Eval BsWriter} (hx : Appending mode bs x) :
      (((none : WriterReply), ·) <$> x).Meets Obligation.InBounds mode fun entry ↦
        Fits entry.2 ∧ OnlyAppends bs entry.2 := hx.map
  cases call with
  | writeBit value => exact hsilent (bsWriteBit_appending h value)
  | writeBits order value n =>
    rw [writerStep_writeBits]
    exact hsilent (write_appending order h value n)
  | writeBitsUnchecked order value n =>
    rw [writerStep_writeBitsUnchecked]
    exact hsilent (writeUnchecked_appending order h value n)
  | align order =>
    rw [writerStep_align]
    exact hsilent (align_appending order h)
  | flush order =>
    rw [writerStep_flush]
    exact hsilent (flush_appending order h)
  | writeBytes src =>
    exact (bsWriteBytes_appending sizeT h src).bind fun written hwritten ↦
      Eval.meets_pure hwritten

/-- Every byte that a call writes lies in the buffer. -/
def CallInBounds (sizeT : SizeT) (issued : Overshift × WriterCall) (bs : BsWriter) : Prop :=
  (writerStep sizeT issued.2 bs).InBounds issued.1

theorem run_onlyAppends (sizeT : SizeT) (issued : List (Overshift × WriterCall)) (h : Fits bs) :
    Fits (final (writerAct sizeT) issued bs) ∧
      OnlyAppends bs (final (writerAct sizeT) issued bs) ∧
        Along (writerAct sizeT) (CallInBounds sizeT) issued bs := by
  induction issued generalizing bs with
  | nil => exact ⟨h, .refl bs, trivial⟩
  | cons call issued ih =>
    obtain ⟨hbounds, hfits, hstep⟩ := writerStep_onlyAppends sizeT call.1 call.2 h
    obtain ⟨hlast, hrest, halong⟩ := ih hfits
    exact ⟨hlast, hstep.trans hrest, hbounds, halong⟩

/-- Any two moments of any run: calls of both orders in any mixture, of any widths and values,
before and after overflow. The bytes reported as written at the first are there at the second,
byte for byte; the rest of the buffer is its initial content; a raised overflow flag stays up; the
position stays in the buffer, and so does every byte that is written. -/
theorem writer_only_appends (sizeT : SizeT) (initial : List (BitVec 8))
    (first later : List (Overshift × WriterCall)) :
    let earlier := writerAfter sizeT initial first
    let bs := writerAfter sizeT initial (first ++ later)
    bs.buffer.take (bsWriterBytesWritten earlier) =
        earlier.buffer.take (bsWriterBytesWritten earlier) ∧
      bs.buffer.drop (bsWriterBytesWritten bs) = initial.drop (bsWriterBytesWritten bs) ∧
      bsWriterBytesWritten earlier ≤ bsWriterBytesWritten bs ∧
      bsWriterBytesWritten bs ≤ initial.length ∧
      (earlier.overflow = true → bs.overflow = true) ∧
      Along (writerAct sizeT) (CallInBounds sizeT) (first ++ later)
        (bsWriterInit initial initial.length) := by
  intro earlier bs
  have hinit : Fits (bsWriterInit initial initial.length) := ⟨rfl, Nat.zero_le _⟩
  have hbs : bs = final (writerAct sizeT) later earlier := final_append first later _
  obtain ⟨hfits, _⟩ := run_onlyAppends sizeT first hinit
  obtain ⟨_, hlater, _⟩ := run_onlyAppends sizeT later hfits
  obtain ⟨hlast, hall, halong⟩ := run_onlyAppends sizeT (first ++ later) hinit
  change OnlyAppends earlier (final (writerAct sizeT) later earlier) at hlater
  rw [← hbs] at hlater
  have hsize : bs.size = initial.length := hall.size_eq
  exact ⟨hlater.written_eq, hall.rest_eq, hlater.bytePos_le, hlast.bytePos_le.trans hsize.le,
    hlater.overflow_of, halong⟩

end Bitstream.Writing
