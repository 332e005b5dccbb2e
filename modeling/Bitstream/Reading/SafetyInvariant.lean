import Bitstream.Reading.CursorRefinement

/-!
# Safety of the reader

A reader never leaves its buffer. Along every run of one order whose calls meet their documented
conditions, the counters stay in range, every byte that a refill or a bulk copy reads lies in the
buffer, every shift count is below 64 and no unsigned difference is negative. The invariant is
`Tracks`: a cached bit was fetched from the buffer, so the cache never holds more than the bytes
before the byte position.
-/

set_option autoImplicit false
set_option relaxedAutoImplicit false

namespace Bitstream.Reading

open Foundation Header

/-- The counters of a reader are in range. -/
structure CountersInRange (bs : BsReader) : Prop where
  bytePos_le : bs.bytePos ≤ bs.size
  bits_le : bs.bitsInCache ≤ 64
  bits_le_fetched : bs.bitsInCache ≤ 8 * bs.bytePos

instance (bs : BsReader) : Decidable (CountersInRange bs) :=
  decidable_of_iff
    (bs.bytePos ≤ bs.size ∧ bs.bitsInCache ≤ 64 ∧ bs.bitsInCache ≤ 8 * bs.bytePos)
    ⟨fun ⟨h, k, l⟩ ↦ ⟨h, k, l⟩, fun ⟨h, k, l⟩ ↦ ⟨h, k, l⟩⟩

theorem Tracks.countersInRange {order : BitOrder} {bs : BsReader} {c : Cursor}
    (h : Tracks order bs c) : CountersInRange bs where
  bytePos_le := h.bytePos_le
  bits_le := h.bits_le
  bits_le_fetched := by
    have hpos := h.pos_add
    omega

/-- Every operation that a call evaluates is defined: its shifts, its unsigned sums and
differences, and the bytes it reads. -/
def CallDefined (sizeT : SizeT) (issued : Overshift × ReaderCall) (bs : BsReader) : Prop :=
  (readerStep sizeT issued.2 bs).Defined issued.1

instance (sizeT : SizeT) (issued : Overshift × ReaderCall) (bs : BsReader) :
    Decidable (CallDefined sizeT issued bs) :=
  inferInstanceAs (Decidable ((readerStep sizeT issued.2 bs).Defined issued.1))

theorem allowedCall_step {sizeT : SizeT} {order : BitOrder} {issued : Overshift × ReaderCall}
    {bs : BsReader} (h : ∃ c, Tracks order bs c) (hallowed : AllowedCall sizeT order issued bs) :
    (∃ c, Tracks order (readerAct sizeT issued bs).2 c) ∧ CallDefined sizeT issued bs := by
  obtain ⟨c, hc⟩ := h
  have hstep := readerStep_ensures sizeT issued.1 hc hallowed.1 hallowed.2
  exact ⟨⟨(c.step issued.2).2, hstep.post.2⟩, hstep.defined⟩

/-- Safety of every run of one order. Assumes: the documented condition of each call in the state
where it is made, a width of at most 32 and for an unchecked call a width of at least 1 with the
bits in the stream, or in the cache for a skip. -/
theorem reader_run_safe (sizeT : SizeT) (order : BitOrder) (buffer : List (BitVec 8))
    (issued : List (Overshift × ReaderCall))
    (hallowed : Along (readerAct sizeT) (AllowedCall sizeT order) issued
      (bsReaderInit buffer buffer.length)) :
    (∀ bs ∈ bsReaderInit buffer buffer.length ::
        (trace (readerAct sizeT) issued (bsReaderInit buffer buffer.length)).map Prod.snd,
      CountersInRange bs) ∧
    Along (readerAct sizeT) (CallDefined sizeT) issued (bsReaderInit buffer buffer.length) := by
  have hinit : ∃ c, Tracks order (bsReaderInit buffer buffer.length) c :=
    ⟨_, tracks_init order buffer⟩
  constructor
  · intro bs hbs
    rcases List.mem_cons.mp hbs with rfl | hbs
    · exact (tracks_init order buffer).countersInRange
    · obtain ⟨entry, hentry, rfl⟩ := List.mem_map.mp hbs
      obtain ⟨c, hc⟩ := Along.invariant (fun bs ↦ ∃ c, Tracks order bs c)
        (fun call s hs hcall ↦ (allowedCall_step hs hcall).1) hallowed hinit entry hentry
      exact hc.countersInRange
  · exact Along.mono (fun bs ↦ ∃ c, Tracks order bs c)
      (fun call s hs hcall ↦ allowedCall_step hs hcall) hallowed hinit

/-- A run over nine bytes that fills the cache to 64 bits, rewinds it and clips at the end. -/
theorem reader_run_safe_nine_bytes :
    (∀ bs ∈ bsReaderInit [1, 2, 3, 4, 5, 6, 7, 8, 9] 9 ::
        (trace (readerAct sizeT64)
          ([.peekBits .msb 8, .readBitsUnchecked .msb 13, .skipBitsUnchecked .msb 5, .align .msb,
            .readBytes [0, 0] 2, .readBits .msb 32, .skipBits .msb 32].map (Prod.mk .masked))
          (bsReaderInit [1, 2, 3, 4, 5, 6, 7, 8, 9] 9)).map Prod.snd, CountersInRange bs) ∧
    Along (readerAct sizeT64) (CallDefined sizeT64)
      ([.peekBits .msb 8, .readBitsUnchecked .msb 13, .skipBitsUnchecked .msb 5, .align .msb,
        .readBytes [0, 0] 2, .readBits .msb 32, .skipBits .msb 32].map (Prod.mk .masked))
      (bsReaderInit [1, 2, 3, 4, 5, 6, 7, 8, 9] 9) :=
  reader_run_safe sizeT64 .msb [1, 2, 3, 4, 5, 6, 7, 8, 9] _ (by decide)

end Bitstream.Reading
