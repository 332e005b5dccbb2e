import Bitstream.Foundation.AccessSafety
import Bitstream.Reading.SafetyInvariant

/-!
# Safety of every interleaving

The two bit orders share the counters of a reader and read the cache differently, so a caller that
mixes them gets bits that mean nothing. It stays safe all the same: the counters do not depend on
what the cache holds (`Fetches`), and along any interleaving of calls of both orders, with any
widths, every byte that is read lies in the buffer. A width above 32 is answered or refused as the
cache has it; only a width of exactly 64 can find as many bits, and then the one thing undefined is
the shift of the cache by 64 (`AllButShiftBy64`), which is no memory access.
-/

set_option autoImplicit false
set_option relaxedAutoImplicit false

namespace Bitstream.Reading

open Foundation Header

variable {mode : Overshift} {bs after : BsReader} {n : ℕ}

/-- The counters are in range, in a buffer of the size the reader was given. -/
structure InRange (bs : BsReader) : Prop extends CountersInRange bs where
  size_eq : bs.size = bs.buffer.length

theorem inRange_init (buffer : List (BitVec 8)) :
    InRange (bsReaderInit buffer buffer.length) where
  bytePos_le := Nat.zero_le _
  bits_le := Nat.zero_le _
  bits_le_fetched := Nat.zero_le _
  size_eq := rfl

/-- Bits that leave the cache leave the counters in range, whatever the cache then holds. -/
theorem InRange.consume (h : InRange bs) (bitCache : BitVec 64) {count : ℕ}
    (hcount : count ≤ bs.bitsInCache) :
    InRange { bs with bitCache := bitCache, bitsInCache := count } where
  bytePos_le := h.bytePos_le
  bits_le := hcount.trans h.bits_le
  bits_le_fetched := hcount.trans h.bits_le_fetched
  size_eq := h.size_eq

/-- The number of bits in the cache and in the bytes not yet fetched. -/
def unreadCount (bs : BsReader) : ℕ := bs.bitsInCache + 8 * (bs.size - bs.bytePos)

theorem bitsLeft_le_unreadCount (sizeT : SizeT) (bs : BsReader) :
    bsReaderBitsLeft sizeT bs ≤ unreadCount bs := by
  rw [bsReaderBitsLeft, unreadCount]
  split_ifs with hend
  · exact (Nat.mod_le _ _).trans (Nat.le_add_right _ _)
  · show ((bs.size - bs.bytePos) * 8 % 2 ^ sizeT.bits + bs.bitsInCache) % 2 ^ sizeT.bits ≤ _
    have hbytes := Nat.mod_le ((bs.size - bs.bytePos) * 8) (2 ^ sizeT.bits)
    have hsum := Nat.mod_le ((bs.size - bs.bytePos) * 8 % 2 ^ sizeT.bits + bs.bitsInCache)
      (2 ^ sizeT.bits)
    omega

/-! ### Refilling -/

/-- What a refill does to the counters: they stay in range, and as many bits are unread. -/
structure Fetches (before after : BsReader) : Prop extends InRange after where
  count_eq : unreadCount after = unreadCount before

/-- A byte enters the cache by a shift that is defined. -/
theorem push_defined (order : BitOrder) (hbits : bs.bitsInCache ≤ 56) (nextByte : BitVec 8) :
    Eval.Ensures mode (push order bs nextByte) fun _ ↦ True := by
  cases order with
  | msb => exact (Eval.ensures_shiftLeft (by norm_num)).bind fun _ _ ↦ Eval.ensures_pure trivial
  | lsb => exact (Eval.ensures_shiftLeft (by omega)).bind fun _ _ ↦ Eval.ensures_pure trivial

/-- The refill loop, by induction on its passes. -/
theorem refillLoop_fetches (order : BitOrder) (passes : ℕ) {bs : BsReader} (h : InRange bs) :
    Eval.Ensures mode (refillLoop (push order) passes bs) fun after ↦
      Fetches bs after ∧ RefillEnds passes bs after := by
  induction passes generalizing bs with
  | zero => exact Eval.ensures_pure ⟨⟨h, rfl⟩, .inr (.inr le_rfl)⟩
  | succ passes ih =>
    unfold refillLoop
    by_cases hbits : bs.bitsInCache ≤ 56
    · by_cases hend : bs.bytePos ≥ bs.size
      · rw [if_pos hbits, if_pos hend]
        exact Eval.ensures_pure ⟨⟨h, rfl⟩, .inr (.inl hend)⟩
      · rw [if_pos hbits, if_neg hend]
        have hmore : bs.bytePos < bs.size := Nat.lt_of_not_le hend
        refine (Eval.ensures_load hmore).bind fun nextByte _ ↦ ?_
        refine (push_defined order hbits nextByte).bind fun bitCache _ ↦ ?_
        refine (Eval.ensures_add (by omega)).bind_eq ?_
        have hfetched := h.bits_le_fetched
        have hnext : InRange { bs with
            bitCache := bitCache
            bitsInCache := bs.bitsInCache + 8
            bytePos := bs.bytePos + 1 } := by
          refine ⟨⟨hmore, ?_, ?_⟩, h.size_eq⟩
          · show bs.bitsInCache + 8 ≤ 64
            omega
          · show bs.bitsInCache + 8 ≤ 8 * (bs.bytePos + 1)
            omega
        have hcount : unreadCount { bs with
            bitCache := bitCache
            bitsInCache := bs.bitsInCache + 8
            bytePos := bs.bytePos + 1 } = unreadCount bs := by
          simp only [unreadCount]
          omega
        refine (ih hnext).mono fun after hafter ↦ ⟨⟨hafter.1.toInRange, ?_⟩, ?_⟩
        · exact hafter.1.count_eq.trans hcount
        · have hends := hafter.2
          unfold RefillEnds at hends ⊢
          simp only at hends
          omega
    · rw [if_neg hbits]
      exact Eval.ensures_pure ⟨⟨h, rfl⟩, .inl (by omega)⟩

/-- After a refill the cache holds more than 56 bits or all that are unread. -/
theorem refill_fetches (order : BitOrder) (h : InRange bs) :
    Eval.Ensures mode (refill order bs) fun after ↦
      Fetches bs after ∧ (56 < after.bitsInCache ∨ after.bitsInCache = unreadCount bs) := by
  rw [refill_eq]
  refine (refillLoop_fetches order 8 h).mono fun after hafter ↦ ⟨hafter.1, ?_⟩
  have hcount := hafter.1.count_eq
  have hends := hafter.2
  unfold RefillEnds at hends
  unfold unreadCount at hcount ⊢
  omega

/-! ### The functions of both orders -/

/-- An obligation of a call of some width: it holds, or the width is 64 and it is that of shifting
the cache by 64. -/
def AllButShiftBy64 (width : ℕ) (o : Obligation) : Prop :=
  o.Holds ∨ width = 64 ∧ o = .shift 64 64

instance (width : ℕ) : DecidablePred (AllButShiftBy64 width) :=
  fun o ↦ inferInstanceAs (Decidable (o.Holds ∨ width = 64 ∧ o = .shift 64 64))

/-- Such an obligation stays in its array if it is a memory access. -/
theorem AllButShiftBy64.inBounds {o : Obligation} (h : AllButShiftBy64 n o) : o.InBounds := by
  rcases h with hholds | ⟨_, rfl⟩
  · exact hholds.inBounds
  · trivial

/-- A shift of the cache by the width of a field that it holds. -/
theorem shift_width (h : n ≤ 64) : AllButShiftBy64 n (.shift 64 n) := by
  by_cases hn : n = 64
  · exact .inr ⟨hn, by rw [hn]⟩
  · exact .inl (by show n < 64; omega)

theorem lowField_meets (word : BitVec 64) (h : n ≤ 64) :
    (lowField word n).Meets (AllButShiftBy64 n) mode fun _ ↦ True :=
  (Eval.meets_shiftLeft (shift_width h)).bind fun _ _ ↦ Eval.meets_pure trivial

/-- What takes or shows a field of the cache keeps the counters in range. -/
def Keeps (mode : Overshift) (act : BsReader → ℕ → Eval (BitVec 32 × BsReader)) : Prop :=
  ∀ {bs : BsReader} {n : ℕ}, InRange bs → 1 ≤ n → n ≤ bs.bitsInCache →
    (act bs n).Meets (AllButShiftBy64 n) mode fun read ↦ InRange read.2

theorem take_keeps (order : BitOrder) (mode : Overshift) : Keeps mode (take order) := by
  intro bs n h hpos hn
  have hbits := h.bits_le
  cases order with
  | msb =>
    refine (Eval.meets_sub 32 (.inl hn)).bind fun bitsInCache hleft ↦ ?_
    have hshift : bitsInCache < 64 := by
      have hcount := hleft hn
      omega
    refine (Eval.meets_shiftRight (.inl hshift)).bind fun shifted _ ↦ ?_
    refine (lowField_meets shifted (by omega)).bind fun result _ ↦ ?_
    refine Eval.meets_pure (h.consume bs.bitCache ?_)
    rw [hleft hn]
    exact Nat.sub_le _ _
  | lsb =>
    refine (lowField_meets bs.bitCache (by omega)).bind fun result _ ↦ ?_
    refine (Eval.meets_shiftRight (shift_width (by omega))).bind fun bitCache _ ↦ ?_
    refine (Eval.meets_sub 32 (.inl hn)).bind fun bitsInCache hleft ↦ ?_
    refine Eval.meets_pure (h.consume bitCache ?_)
    rw [hleft hn]
    exact Nat.sub_le _ _

theorem peek_keeps (order : BitOrder) (mode : Overshift) : Keeps mode (peek order) := by
  intro bs n h hpos hn
  have hbits := h.bits_le
  cases order with
  | msb =>
    refine (Eval.meets_sub 32 (.inl hn)).bind fun above hleft ↦ ?_
    have hshift : above < 64 := by
      have hcount := hleft hn
      omega
    refine (Eval.meets_shiftRight (.inl hshift)).bind fun shifted _ ↦ ?_
    exact (lowField_meets shifted (by omega)).bind fun result _ ↦ Eval.meets_pure h
  | lsb =>
    exact (lowField_meets bs.bitCache (by omega)).bind fun result _ ↦ Eval.meets_pure h

theorem drop_keeps (order : BitOrder) (h : InRange bs) (hn : n ≤ bs.bitsInCache) :
    (drop order bs n).Meets (AllButShiftBy64 n) mode InRange := by
  have hbits := h.bits_le
  cases order with
  | msb =>
    refine (Eval.meets_sub 32 (.inl hn)).bind fun bitsInCache hleft ↦ ?_
    refine Eval.meets_pure (h.consume bs.bitCache ?_)
    rw [hleft hn]
    exact Nat.sub_le _ _
  | lsb =>
    refine (Eval.meets_shiftRight (shift_width (by omega))).bind fun bitCache _ ↦ ?_
    refine (Eval.meets_sub 32 (.inl hn)).bind fun bitsInCache hleft ↦ ?_
    refine Eval.meets_pure (h.consume bitCache ?_)
    rw [hleft hn]
    exact Nat.sub_le _ _

theorem clear_keeps (order : BitOrder) (h : InRange bs) : InRange (clear order bs) := by
  cases order with
  | msb => exact h.consume bs.bitCache (Nat.zero_le _)
  | lsb => exact h.consume 0 (Nat.zero_le _)

/-- The frame of the checked functions: `act` is reached with the field in the cache. -/
theorem checked_keeps {α : Type} (order : BitOrder) {zero short : BsReader → α}
    {act : BsReader → ℕ → Eval α} {post : α → Prop} (h : InRange bs) (hzero : post (zero bs))
    (hshort : ∀ after, InRange after → post (short after))
    (hact : ∀ after, InRange after → 1 ≤ n → n ≤ after.bitsInCache →
      (act after n).Meets (AllButShiftBy64 n) mode post) :
    (checked (refill order) zero short act bs n).Meets (AllButShiftBy64 n) mode post := by
  unfold checked
  by_cases hn : n = 0
  · rw [if_pos hn]
    exact Eval.meets_pure hzero
  · rw [if_neg hn]
    refine ((refill_fetches order h).meets fun _ ↦ .inl).bind fun after hafter ↦ ?_
    by_cases hbits : after.bitsInCache < n
    · rw [if_pos hbits]
      exact Eval.meets_pure (hshort after hafter.1.toInRange)
    · rw [if_neg hbits]
      exact hact after hafter.1.toInRange (by omega) (by omega)

theorem checked_field_keeps (order : BitOrder) {act : BsReader → ℕ → Eval (BitVec 32 × BsReader)}
    (hkeeps : Keeps mode act) (h : InRange bs) :
    (checked (refill order) (0, ·) (0, ·) act bs n).Meets (AllButShiftBy64 n) mode fun read ↦
      InRange read.2 :=
  checked_keeps order h h (fun _ hafter ↦ hafter) fun _ hafter hpos hbits ↦
    hkeeps hafter hpos hbits

/-- The frame of the unchecked functions, called with the bits in the stream. -/
theorem unchecked_keeps (order : BitOrder) {act : BsReader → ℕ → Eval (BitVec 32 × BsReader)}
    (hkeeps : Keeps mode act) (h : InRange bs) (hpos : 1 ≤ n) (hn : n ≤ 32)
    (hleft : n ≤ unreadCount bs) :
    (unchecked (refill order) act bs n).Meets (AllButShiftBy64 n) mode fun read ↦
      InRange read.2 := by
  refine ((refill_fetches order h).meets fun _ ↦ .inl).bind fun after hafter ↦ ?_
  have hbits : n ≤ after.bitsInCache := by
    have hends := hafter.2
    omega
  exact hkeeps hafter.1.toInRange hpos hbits

theorem BlockRead.inRange {dst : List (BitVec 8)} {nBytes : ℕ}
    {read : (Bool × List (BitVec 8)) × BsReader} (hread : BlockRead bs dst nBytes read)
    (h : InRange bs) : InRange read.2 := by
  have hle : (rewound bs).bytePos ≤ bs.size := (Nat.sub_le _ _).trans h.bytePos_le
  cases hread with
  | misaligned => exact h
  | short => exact ⟨⟨hle, Nat.zero_le _, Nat.zero_le _⟩, h.size_eq⟩
  | copied _ hfit => exact ⟨⟨hfit, Nat.zero_le _, Nat.zero_le _⟩, h.size_eq⟩

/-! ### Steps and runs -/

/-- The width that a call asks for. -/
def callWidth : ReaderCall → ℕ
  | .readBit => 1
  | .readBits _ n | .peekBits _ n | .skipBits _ n => n
  | .readBitsUnchecked _ n | .peekBitsUnchecked _ n | .skipBitsUnchecked _ n => n
  | .align _ | .readBytes _ _ => 0

/-- An unchecked call is made where its documented condition holds; a checked call may be made
anywhere, with any width. -/
def Guarded (sizeT : SizeT) (issued : Overshift × ReaderCall) (bs : BsReader) : Prop :=
  CheckedCall issued.2 ∨ Allowed sizeT bs issued.2

instance (sizeT : SizeT) (issued : Overshift × ReaderCall) (bs : BsReader) :
    Decidable (Guarded sizeT issued bs) :=
  inferInstanceAs (Decidable (CheckedCall issued.2 ∨ Allowed sizeT bs issued.2))

/-- Every operation of a call is defined, but for a shift by 64 where the call asks for 64 bits. -/
def CallSafe (sizeT : SizeT) (issued : Overshift × ReaderCall) (bs : BsReader) : Prop :=
  ∀ o ∈ (readerStep sizeT issued.2 bs issued.1).obligations,
    AllButShiftBy64 (callWidth issued.2) o

instance (sizeT : SizeT) (issued : Overshift × ReaderCall) (bs : BsReader) :
    Decidable (CallSafe sizeT issued bs) :=
  inferInstanceAs (Decidable (∀ o ∈ (readerStep sizeT issued.2 bs issued.1).obligations,
    AllButShiftBy64 (callWidth issued.2) o))

/-- Every byte that a call reads lies in the buffer. -/
def StaysInBuffer (sizeT : SizeT) (issued : Overshift × ReaderCall) (bs : BsReader) : Prop :=
  (readerStep sizeT issued.2 bs).InBounds issued.1

theorem CallSafe.staysInBuffer {sizeT : SizeT} {issued : Overshift × ReaderCall}
    (h : CallSafe sizeT issued bs) : StaysInBuffer sizeT issued bs := fun o ho ↦ (h o ho).inBounds

/-- The step lemma. -/
theorem readerStep_keeps (sizeT : SizeT) (mode : Overshift) {call : ReaderCall} (h : InRange bs)
    (hguarded : Guarded sizeT (mode, call) bs) :
    (readerStep sizeT call bs).Meets (AllButShiftBy64 (callWidth call)) mode fun entry ↦
      InRange entry.2 := by
  have hunread := bitsLeft_le_unreadCount sizeT bs
  cases call with
  | readBit =>
    have hread : (bsReadBits bs 1).Meets (AllButShiftBy64 1) mode fun read ↦ InRange read.2 :=
      checked_field_keeps .msb (take_keeps .msb mode) h
    exact (hread.bind fun read hafter ↦ Eval.meets_pure hafter).bind fun read hafter ↦
      Eval.meets_pure hafter
  | readBits order n =>
    rw [readerStep_readBits]
    exact (checked_field_keeps order (take_keeps order mode) h).map
  | peekBits order n =>
    rw [readerStep_peekBits]
    exact (checked_field_keeps order (peek_keeps order mode) h).map
  | skipBits order n =>
    rw [readerStep_skipBits, skip_eq]
    exact (checked_keeps order h h (fun _ hafter ↦ clear_keeps order hafter)
      fun _ hafter _ hbits ↦ drop_keeps order hafter hbits).map
  | readBitsUnchecked order n =>
    obtain ⟨hpos, hn, hleft⟩ := hguarded.resolve_left id
    rw [readerStep_readBitsUnchecked]
    exact (unchecked_keeps order (take_keeps order mode) h hpos hn (hleft.trans hunread)).map
  | peekBitsUnchecked order n =>
    obtain ⟨hpos, hn, hleft⟩ := hguarded.resolve_left id
    rw [readerStep_peekBitsUnchecked]
    exact (unchecked_keeps order (peek_keeps order mode) h hpos hn (hleft.trans hunread)).map
  | skipBitsUnchecked order n =>
    obtain ⟨_, _, hcached⟩ := hguarded.resolve_left id
    rw [readerStep_skipBitsUnchecked]
    exact (drop_keeps order h hcached).map
  | align order =>
    rw [readerStep_align, align_eq]
    by_cases hres : bs.bitsInCache % 8 > 0
    · rw [if_pos hres]
      have hless : bs.bitsInCache % 8 ≠ 64 := by omega
      refine (Eval.Meets.weaken (drop_keeps order h (Nat.mod_le _ _)) fun o ho ↦ ?_).map
      exact .inl (ho.resolve_right fun hshift ↦ hless hshift.1)
    · rw [if_neg hres]
      exact Eval.Meets.map (Eval.meets_pure h)
  | readBytes dst nBytes =>
    have hread := bsReadBytes_reads mode sizeT h.bytePos_le h.bits_le_fetched dst nBytes
    exact (hread.meets fun _ ↦ .inl).bind fun read hafter ↦
      Eval.meets_pure (hafter.inRange h)

/-- Safety of every interleaving of the two bit orders. The counters stay in range, every byte that
is read lies in the buffer, and every shift, sum and difference is defined, except that a call which
asks for exactly 64 bits may shift the cache by 64. Assumes: an unchecked call is made where its
documented condition holds, a width of 1 to 32 with the bits in the stream, or in the cache for a
skip; a checked call of either order is made anywhere, with any width. -/
theorem interleaved_run_safe (sizeT : SizeT) (buffer : List (BitVec 8))
    (issued : List (Overshift × ReaderCall))
    (hguarded : Along (readerAct sizeT) (Guarded sizeT) issued
      (bsReaderInit buffer buffer.length)) :
    (∀ bs ∈ bsReaderInit buffer buffer.length ::
        (trace (readerAct sizeT) issued (bsReaderInit buffer buffer.length)).map Prod.snd,
      CountersInRange bs) ∧
    Along (readerAct sizeT) (CallSafe sizeT) issued (bsReaderInit buffer buffer.length) ∧
    Along (readerAct sizeT) (StaysInBuffer sizeT) issued (bsReaderInit buffer buffer.length) := by
  have hstep (call : Overshift × ReaderCall) (bs : BsReader) (hbs : InRange bs)
      (hcall : Guarded sizeT call bs) :
      InRange (readerAct sizeT call bs).2 ∧ CallSafe sizeT call bs := by
    have hkeeps := readerStep_keeps sizeT call.1 hbs hcall
    exact ⟨hkeeps.2, hkeeps.1⟩
  have hinit := inRange_init buffer
  refine ⟨?_, hguarded.mono InRange hstep hinit, ?_⟩
  · intro bs hbs
    rcases List.mem_cons.mp hbs with rfl | hbs
    · exact hinit.toCountersInRange
    · obtain ⟨entry, hentry, rfl⟩ := List.mem_map.mp hbs
      have hrange := hguarded.invariant InRange (fun call s hs hcall ↦ (hstep call s hs hcall).1)
        hinit entry hentry
      exact hrange.toCountersInRange
  · refine hguarded.mono InRange (fun call bs hbs hcall ↦ ?_) hinit
    obtain ⟨hnext, hsafe⟩ := hstep call bs hbs hcall
    exact ⟨hnext, hsafe.staysInBuffer⟩

/-- A run that changes the order inside a byte, asks for 33, 64 and 100 bits, and reads a block. -/
theorem interleaved_run_safe_nine_bytes :
    (∀ bs ∈ bsReaderInit [1, 2, 3, 4, 5, 6, 7, 8, 9] 9 ::
        (trace (readerAct sizeT64)
          ([.readBits .msb 3, .peekBits .lsb 33, .skipBitsUnchecked .msb 5, .readBits .lsb 64,
            .readBits .msb 64, .align .lsb, .readBytes [0, 0] 2, .skipBits .lsb 100].map
              (Prod.mk .masked))
          (bsReaderInit [1, 2, 3, 4, 5, 6, 7, 8, 9] 9)).map Prod.snd, CountersInRange bs) ∧
    Along (readerAct sizeT64) (CallSafe sizeT64)
      ([.readBits .msb 3, .peekBits .lsb 33, .skipBitsUnchecked .msb 5, .readBits .lsb 64,
        .readBits .msb 64, .align .lsb, .readBytes [0, 0] 2, .skipBits .lsb 100].map
          (Prod.mk .masked))
      (bsReaderInit [1, 2, 3, 4, 5, 6, 7, 8, 9] 9) ∧
    Along (readerAct sizeT64) (StaysInBuffer sizeT64)
      ([.readBits .msb 3, .peekBits .lsb 33, .skipBitsUnchecked .msb 5, .readBits .lsb 64,
        .readBits .msb 64, .align .lsb, .readBytes [0, 0] 2, .skipBits .lsb 100].map
          (Prod.mk .masked))
      (bsReaderInit [1, 2, 3, 4, 5, 6, 7, 8, 9] 9) :=
  interleaved_run_safe sizeT64 [1, 2, 3, 4, 5, 6, 7, 8, 9] _ (by decide)

end Bitstream.Reading
