import Bitstream.Reading.Refilling
import Bitstream.Reading.SafetyInvariant

/-!
# How far a skip reaches

A skip compares the number of bits asked for with the bits cached after one refill, not with the
bits left in the stream. From a position `p` a refilled cache reaches at most `64 - p % 8` bits far,
so a skip of `n` bits moves by the smaller of the two, clipped at the end of the stream
(`skip_ensures`): past the end of a longer stream it stops short of it. The least significant first
skip shifts by 64 when exactly a full cache is asked for. `skipsExactly_iff` is the exact condition,
on the position and the bits left, under which a skip does what is asked of it.
-/

set_option autoImplicit false
set_option relaxedAutoImplicit false

namespace Bitstream.Reading

open Foundation Header

variable {sizeT : SizeT} {order : BitOrder} {mode : Overshift} {bs : BsReader} {c d : Cursor}
  {n : ℕ}

/-! ### Moves of the cursor -/

theorem Cursor.skip_skip (c : Cursor) (m n : ℕ) : (c.skip m).skip n = c.skip (m + n) := by
  refine Cursor.ext rfl ?_
  show min (min (c.pos + m) (8 * c.buffer.length) + n) (8 * c.buffer.length) =
    min (c.pos + (m + n)) (8 * c.buffer.length)
  omega

theorem Cursor.left_skip (c : Cursor) (n : ℕ) : (c.skip n).left = c.left - min n c.left := by
  have hpos := c.pos_le
  show 8 * c.buffer.length - min (c.pos + n) (8 * c.buffer.length) =
    8 * c.buffer.length - c.pos - min n (8 * c.buffer.length - c.pos)
  omega

/-- Skips of one bit each make a skip. -/
theorem Cursor.final_single_skips (order : BitOrder) (k : ℕ) (c : Cursor) :
    final Cursor.step (List.replicate k (.skipBits order 1)) c = c.skip k := by
  induction k generalizing c with
  | zero =>
    rw [Cursor.skip_of_le (Nat.zero_le _)]
    exact Cursor.ext rfl rfl
  | succ k ih =>
    rw [List.replicate_succ, Nat.add_comm, ← Cursor.skip_skip]
    exact ih (c.skip 1)

/-- The end-of-stream test after as many single skips as one cursor has bits left tells it from a
cursor with more bits left. -/
theorem left_le_of_observed
    (h : ∀ calls : List ReaderCall, (∀ call ∈ calls, BitCall order call) →
      (trace Cursor.step calls c).map (Cursor.countedObservation sizeT) =
        (trace Cursor.step calls d).map (Cursor.countedObservation sizeT)) :
    c.left ≤ d.left := by
  have hrun := h (List.replicate d.left (.skipBits order 1) ++ [.peekBits order 0]) (by
    intro call hcall
    rcases List.mem_append.mp hcall with hskip | hpeek
    · obtain rfl := List.eq_of_mem_replicate hskip
      exact ⟨rfl, by norm_num⟩
    · obtain rfl := List.mem_singleton.mp hpeek
      exact ⟨rfl, by norm_num⟩)
  rw [trace_append, trace_append, List.map_append, List.map_append] at hrun
  have hlast := (List.append_inj' hrun rfl).2
  rw [Cursor.final_single_skips, Cursor.final_single_skips] at hlast
  have hends : decide ((c.skip d.left).pos = 8 * c.buffer.length) =
      decide ((d.skip d.left).pos = 8 * d.buffer.length) :=
    congrArg (fun observed ↦ observed.2.2) (List.head_eq_of_cons_eq hlast)
  have hleft := c.pos_le
  have hpos := d.pos_le
  rw [decide_eq_decide] at hends
  change min (c.pos + d.left) (8 * c.buffer.length) = 8 * c.buffer.length ↔
    min (d.pos + d.left) (8 * d.buffer.length) = 8 * d.buffer.length at hends
  unfold Cursor.left at hends ⊢
  omega

/-! ### What a skip does -/

/-- The bits that a refilled cache holds. -/
theorem Tracks.bits_of_refilled (h : Tracks order bs c) (hfull : Refilled bs) :
    bs.bitsInCache = min c.left (64 - c.pos % 8) := by
  have hpos := h.pos_add
  have hbits := h.bits_le
  have hle := h.bytePos_le
  rw [h.left_eq]
  unfold Refilled at hfull
  omega

theorem drop_ensures (h : Tracks order bs c) (hn : n ≤ bs.bitsInCache)
    (hshift : order = .lsb → n < 64) :
    Eval.Ensures mode (drop order bs n) fun after ↦ Tracks order after (c.skip n) := by
  rw [Cursor.skip_of_le (h.le_left hn)]
  cases order with
  | msb =>
    refine (Eval.ensures_sub 32 hn).bind_eq ?_
    exact Eval.ensures_pure (h.advance_msb hn)
  | lsb =>
    refine (Eval.ensures_shiftRight (hshift rfl)).bind_eq ?_
    refine (Eval.ensures_sub 32 hn).bind_eq ?_
    exact Eval.ensures_pure (h.advance_lsb hn)

/-- An emptied cache moves the cursor past the bits that were cached. -/
theorem clear_tracks (h : Tracks order bs c) :
    Tracks order (clear order bs) (c.skip bs.bitsInCache) := by
  have hemptied (bitCache : BitVec 64) (hclean : order = .lsb → bitCache = 0) :
      Tracks order { bs with bitCache := bitCache, bitsInCache := bs.bitsInCache - bs.bitsInCache }
        (c.skip bs.bitsInCache) := by
    rw [Cursor.skip_of_le (h.le_left le_rfl)]
    refine h.advance le_rfl ?_ fun hlsb ↦ ?_
    · rw [Nat.sub_self, queued_zero, List.append_nil,
        List.take_of_length_le (length_queued order _ _).le]
    · rw [hclean hlsb]
      exact Nat.two_pow_pos _
  rw [Nat.sub_self] at hemptied
  cases order with
  | msb => exact hemptied bs.bitCache fun hlsb ↦ nomatch hlsb
  | lsb => exact hemptied 0 fun _ ↦ rfl

/-- The least significant first skip shifts the whole cache out in one shift. -/
def ShiftsWholeCache (order : BitOrder) (left pos n : ℕ) : Prop :=
  order = .lsb ∧ n = 64 ∧ pos % 8 = 0 ∧ 64 ≤ left

/-- A skip moves as far as a refilled cache reaches. -/
theorem skip_ensures (mode : Overshift) (h : Tracks order bs c)
    (hshift : ¬ ShiftsWholeCache order c.left c.pos n) :
    Eval.Ensures mode (skip order bs n) fun after ↦
      Tracks order after (c.skip (min n (64 - c.pos % 8))) := by
  rw [skip_eq, checked]
  by_cases hzero : n = 0
  · rw [if_pos hzero, hzero, Nat.zero_min, Cursor.skip_of_le (Nat.zero_le _)]
    exact Eval.ensures_pure h
  · rw [if_neg hzero]
    refine (refill_refills mode h.toReaderInv).bind fun after ⟨hrefills, hfull⟩ ↦ ?_
    have hafter := h.refills hrefills
    have hbits := hafter.bits_of_refilled hfull
    by_cases hshort : after.bitsInCache < n
    · have hmoved : c.skip (min n (64 - c.pos % 8)) = c.skip after.bitsInCache := by
        have hpos := c.pos_le
        refine Cursor.ext rfl ?_
        show min (c.pos + min n (64 - c.pos % 8)) (8 * c.buffer.length) =
          min (c.pos + after.bitsInCache) (8 * c.buffer.length)
        unfold Cursor.left at hbits
        omega
      rw [if_pos hshort, hmoved]
      exact Eval.ensures_pure (clear_tracks hafter)
    · have hcovered : min n (64 - c.pos % 8) = n := by omega
      rw [if_neg hshort, hcovered]
      refine drop_ensures hafter (by omega) fun hlsb ↦ ?_
      by_contra hwhole
      refine hshift ⟨hlsb, ?_, ?_, ?_⟩ <;> omega

/-- A skip that shifts the whole cache out is undefined. -/
theorem not_defined_skip (h : Tracks order bs c) (hshift : ShiftsWholeCache order c.left c.pos n) :
    ¬ (skip order bs n).Defined mode := by
  obtain ⟨rfl, rfl, hpos, hleft⟩ := hshift
  intro hdefined
  obtain ⟨hrefills, hfull⟩ := (refill_refills mode h.toReaderInv).post
  have hbits := (h.refills hrefills).bits_of_refilled hfull
  rw [skip_eq, checked, if_neg (by norm_num), Eval.defined_bind, if_neg (by omega)] at hdefined
  have hcount := (Eval.defined_bind mode _ _).mp hdefined.2
  rw [Eval.defined_shiftRight] at hcount
  omega

/-! ### When a skip does what is asked -/

/-- What is asked of a skip of `n` bits: it is defined, it takes `n` from the count of bits left or
all of it, every later run shows what a cursor moved by `n` and clipped at the end shows, and where
no more than `n` bits were left the reader is at the end. -/
structure SkipsExactly (sizeT : SizeT) (order : BitOrder) (mode : Overshift) (bs : BsReader)
    (c : Cursor) (n : ℕ) : Prop where
  defined : (skip order bs n).Defined mode
  bitsLeft_eq : bsReaderBitsLeft sizeT ((skip order bs n).value mode) =
    bsReaderBitsLeft sizeT bs - min n (bsReaderBitsLeft sizeT bs)
  later_eq : ∀ issued : List (Overshift × ReaderCall),
    Along (readerAct sizeT) (AllowedCall sizeT order) issued ((skip order bs n).value mode) →
      (trace (readerAct sizeT) issued ((skip order bs n).value mode)).map
          (readerObservation sizeT) =
        (trace Cursor.step (issued.map Prod.snd) (c.skip n)).map
          (Cursor.countedObservation sizeT)
  eof : c.left ≤ n → bsReaderEof ((skip order bs n).value mode) = true

/-- The cache can reach `n` bits far or to the end, the count of bits left has not wrapped below
`n`, and the skip does not shift by 64. -/
def SkipInReach (sizeT : SizeT) (order : BitOrder) (left pos n : ℕ) : Prop :=
  (left ≤ 64 ∨ n ≤ 64 - pos % 8) ∧ (left < 2 ^ sizeT.bits ∨ n ≤ left % 2 ^ sizeT.bits) ∧
    ¬ ShiftsWholeCache order left pos n

theorem sub_mod_eq_iff {left width : ℕ} (hn : n ≤ left) (hwidth : n < width) :
    (left - n) % width = left % width - min n (left % width) ↔ n ≤ left % width := by
  constructor
  · intro hwrapped
    by_contra hless
    rw [Nat.min_eq_right (by omega), Nat.sub_self] at hwrapped
    obtain ⟨k, hk⟩ := Nat.dvd_of_mod_eq_zero hwrapped
    have hleft : left % width = n := by
      rw [← Nat.sub_add_cancel hn, hk, Nat.mul_add_mod, Nat.mod_eq_of_lt hwidth]
    omega
  · intro hle
    have hdiv := Nat.div_add_mod left width
    have hsplit : left - n = width * (left / width) + (left % width - n) := by omega
    have hless : left % width - n < width :=
      (Nat.sub_le _ _).trans_lt (Nat.mod_lt _ (by omega))
    rw [Nat.min_eq_left hle, hsplit, Nat.mul_add_mod, Nat.mod_eq_of_lt hless]

/-- The number of bits left after a clipped move, counted in `size_t`. -/
theorem count_after_skip_iff (sizeT : SizeT) (hreach : c.left ≤ 64 ∨ n ≤ 64 - c.pos % 8) :
    (c.skip n).left % 2 ^ sizeT.bits =
        c.left % 2 ^ sizeT.bits - min n (c.left % 2 ^ sizeT.bits) ↔
      c.left < 2 ^ sizeT.bits ∨ n ≤ c.left % 2 ^ sizeT.bits := by
  have hwidth : 64 < 2 ^ sizeT.bits :=
    (by norm_num : 64 < 2 ^ 16).trans_le (Nat.pow_le_pow_right (by norm_num) sizeT.sixteen_le)
  rw [Cursor.left_skip]
  by_cases hfit : c.left < 2 ^ sizeT.bits
  · rw [Nat.mod_eq_of_lt hfit, Nat.mod_eq_of_lt (by omega)]
    exact iff_of_true rfl (.inl hfit)
  · rw [Nat.min_eq_left (by omega), or_iff_right hfit]
    exact sub_mod_eq_iff (by omega) (by omega)

theorem Tracks.skipsExactly_iff_inReach (sizeT : SizeT) (mode : Overshift) (h : Tracks order bs c)
    (n : ℕ) :
    SkipsExactly sizeT order mode bs c n ↔ SkipInReach sizeT order c.left c.pos n := by
  have hpos := c.pos_le
  constructor
  · intro hexact
    have hshift : ¬ ShiftsWholeCache order c.left c.pos n := fun hwhole ↦
      not_defined_skip h hwhole hexact.defined
    have hafter := (skip_ensures mode h hshift).post
    have hobserved (calls : List ReaderCall) (hcalls : ∀ call ∈ calls, BitCall order call) :
        (trace Cursor.step calls (c.skip (min n (64 - c.pos % 8)))).map
            (Cursor.countedObservation sizeT) =
          (trace Cursor.step calls (c.skip n)).map (Cursor.countedObservation sizeT) := by
      have hallowed : Along (readerAct sizeT) (AllowedCall sizeT order)
          (calls.map (Prod.mk mode)) ((skip order bs n).value mode) := by
        refine .of_forall (fun issued hissued s ↦ ?_) _
        obtain ⟨call, hcall, rfl⟩ := List.mem_map.mp hissued
        exact (hcalls call hcall).allowed sizeT s
      have hlater := hexact.later_eq _ hallowed
      rw [trace_refines_cursor sizeT hafter hallowed, List.map_map] at hlater
      have hcalls_eq : calls.map (Prod.snd ∘ Prod.mk mode) = calls := List.map_id calls
      rwa [hcalls_eq] at hlater
    have hleft : (c.skip (min n (64 - c.pos % 8))).left = (c.skip n).left :=
      le_antisymm (left_le_of_observed hobserved)
        (left_le_of_observed fun calls hcalls ↦ (hobserved calls hcalls).symm)
    have hreach : c.left ≤ 64 ∨ n ≤ 64 - c.pos % 8 := by
      rw [Cursor.left_skip, Cursor.left_skip] at hleft
      unfold Cursor.left at hleft ⊢
      omega
    refine ⟨hreach, (count_after_skip_iff sizeT hreach).mp ?_, hshift⟩
    rw [← hleft, ← hafter.bitsLeft_eq, ← h.bitsLeft_eq]
    exact hexact.bitsLeft_eq
  · intro ⟨hreach, hcount, hshift⟩
    have hskip := skip_ensures mode h hshift
    have hmoved : c.skip (min n (64 - c.pos % 8)) = c.skip n := by
      refine Cursor.ext rfl ?_
      show min (c.pos + min n (64 - c.pos % 8)) (8 * c.buffer.length) =
        min (c.pos + n) (8 * c.buffer.length)
      unfold Cursor.left at hreach
      omega
    rw [hmoved] at hskip
    have hafter := hskip.post
    refine ⟨hskip.defined, ?_, fun issued hallowed ↦ trace_refines_cursor sizeT hafter hallowed,
      fun hall ↦ ?_⟩
    · rw [hafter.bitsLeft_eq, h.bitsLeft_eq]
      exact (count_after_skip_iff sizeT hreach).mpr hcount
    · rw [hafter.eof_eq, decide_eq_true_eq]
      unfold Cursor.left at hall
      exact Nat.min_eq_right (by omega)

/-- In every state that a run of one order reaches, a skip of any number of bits does what is asked
if and only if one refilled cache reaches so far or to the end, the count of bits left has not
wrapped below the number, and the skip does not shift by 64. Assumes: the documented condition of
each call of the run in the state where it is made. -/
theorem skipsExactly_iff (sizeT : SizeT) (order : BitOrder) (mode : Overshift)
    (buffer : List (BitVec 8)) (issued : List (Overshift × ReaderCall))
    (hallowed : Along (readerAct sizeT) (AllowedCall sizeT order) issued
      (bsReaderInit buffer buffer.length)) (n : ℕ) :
    let bs := final (readerAct sizeT) issued (bsReaderInit buffer buffer.length)
    let c := final Cursor.step (issued.map Prod.snd) (Cursor.start buffer)
    SkipsExactly sizeT order mode bs c n ↔ SkipInReach sizeT order c.left c.pos n :=
  (run_tracks sizeT (tracks_init order buffer) hallowed).2.skipsExactly_iff_inReach sizeT mode n

/-- A skip past the end of nine bytes, three bits into them. -/
theorem skipsExactly_iff_nine_bytes :
    let issued := [.readBits .lsb 3].map (Prod.mk Overshift.masked)
    let bs := final (readerAct sizeT64) issued (bsReaderInit [1, 2, 3, 4, 5, 6, 7, 8, 9] 9)
    let c := final Cursor.step (issued.map Prod.snd) (Cursor.start [1, 2, 3, 4, 5, 6, 7, 8, 9])
    SkipsExactly sizeT64 .lsb .masked bs c 100 ↔ SkipInReach sizeT64 .lsb c.left c.pos 100 :=
  skipsExactly_iff sizeT64 .lsb .masked [1, 2, 3, 4, 5, 6, 7, 8, 9] _ (by decide) 100

/-- A skip of 100 bits at the start of nine bytes leaves the last byte, and a least significant
first skip of 64 bits at the start of eight bytes shifts by 64. -/
theorem skip_stops_short :
    bsReaderBitsLeft sizeT64
        ((bsSkipBits (bsReaderInit [1, 2, 3, 4, 5, 6, 7, 8, 9] 9) 100).value .masked) = 8 ∧
      bsReaderEof
        ((bsSkipBits (bsReaderInit [1, 2, 3, 4, 5, 6, 7, 8, 9] 9) 100).value .masked) = false ∧
      ¬ SkipsExactly sizeT64 .msb .masked (bsReaderInit [1, 2, 3, 4, 5, 6, 7, 8, 9] 9)
        (.start [1, 2, 3, 4, 5, 6, 7, 8, 9]) 100 ∧
      ¬ SkipsExactly sizeT64 .lsb .masked (bsReaderInit [1, 2, 3, 4, 5, 6, 7, 8] 8)
        (.start [1, 2, 3, 4, 5, 6, 7, 8]) 64 := by
  refine ⟨by decide, by decide, fun hexact ↦ ?_, fun hexact ↦ ?_⟩
  · exact absurd (hexact.eof (by decide)) (by decide)
  · exact absurd hexact.defined (by decide)

end Bitstream.Reading
