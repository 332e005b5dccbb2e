import Bitstream.Foundation.CallTrace
import Bitstream.Writing.Appending

/-!
# When the arithmetic of the writer is defined

While there is room the cache counts at most 39 bits. Once the buffer is full nothing drains it and
no write is refused, so the count depends on all the bits queued since: the most significant first
dump then shifts by the number of bits left, and the least significant first write by the number of
bits cached. `ShiftsInRange` bounds the bits queued so that these counts stay below 64, and
`defined_iff_shiftsInRange` says that it does so exactly; `full_buffer_shift_by_64` is a run that
leaves the bound.
-/

set_option autoImplicit false
set_option relaxedAutoImplicit false

namespace Bitstream.Writing

open Foundation Header

variable {mode : Overshift} {order : BitOrder} {bs after : BsWriter} {n : ℕ}

/-- A buffer of `size` bytes and a cache take `n` bits more after `total` ones with every shift
count below 64: most significant first the bits left after the drain count, least significant first
those cached before it. -/
def Takes (order : BitOrder) (size total n : ℕ) : Prop :=
  match order with
  | .msb => total + n ≤ 8 * size + 63
  | .lsb => total ≤ 8 * size + 63

instance (order : BitOrder) (size total n : ℕ) : Decidable (Takes order size total n) := by
  cases order <;> unfold Takes <;> infer_instance

/-- The number of bits a writer has taken in. -/
def taken (bs : BsWriter) : ℕ := 8 * bs.bytePos + bs.bitsInCache

/-! ### One call -/

/-- A cache that counts at most 95 bits can count any field more, and what is left after the drain
depends on the bits taken in alone. -/
theorem queueBits_defined_iff {dump : BsWriter → Eval BsWriter} (hdumps : Dumps order mode dump)
    (h : WriterInv bs) (hbits : bs.bitsInCache ≤ 95) (hn : n ≤ 32) (bitCache : BitVec 64) :
    (queueBits dump bs bitCache n).Defined mode ↔
      (order = .msb → Takes .msb bs.size (taken bs) n) := by
  have hle := h.bytePos_le
  have hexact : (bs.bitsInCache + n) % 2 ^ 32 = bs.bitsInCache + n := Nat.mod_eq_of_lt (by omega)
  have hcounted : (counted bs bitCache n).bitsInCache = bs.bitsInCache + n := hexact
  unfold queueBits
  rw [Eval.defined_bind, Eval.defined_add, Eval.value_add]
  change _ ∧ Eval.Defined (if (counted bs bitCache n).bitsInCache ≥ 8 then
    dump (counted bs bitCache n) else pure (counted bs bitCache n)) mode ↔ _
  by_cases hbyte : (counted bs bitCache n).bitsInCache ≥ 8
  · have hfits := fits_counted h.toFits bitCache n
    have hroom := roomBounded_counted h bitCache hn
    have hdrains := hdumps.drains hfits hroom
    have hcount := hdrains.count_eq
    have hends := hdrains.ends
    have hsize : ((dump (counted bs bitCache n)).value mode).size = bs.size := hdrains.size_eq
    have hpos : (counted bs bitCache n).bytePos = bs.bytePos := rfl
    have hleft : ((dump (counted bs bitCache n)).value mode).bitsInCache < 64 ↔
        Takes .msb bs.size (taken bs) n := by
      have hroom' := hdrains.bytePos_le_size
      unfold Takes taken
      omega
    rw [if_pos hbyte, hdumps.defined_iff hfits hroom, hleft, and_iff_right (by omega)]
  · rw [if_neg hbyte, and_iff_right (by omega), iff_true_left (Eval.defined_pure _ _)]
    intro _
    unfold Takes taken
    omega

theorem cleanValue_defined (mode : Overshift) (value : BitVec 32) (hn : n ≤ 32) :
    (cleanValue value n).Defined mode := (cleanValue_ensures mode value hn).defined

/-- Between two calls only the least significant first push can shift too far. -/
theorem push_defined_iff (order : BitOrder) (h : WriterInv bs) (hn : n ≤ 32) (clean : BitVec 64) :
    (push order bs clean n).Defined mode ↔
      (order = .lsb → Takes .lsb bs.size (taken bs) n) := by
  cases order with
  | msb =>
    have hdefined : (push .msb bs clean n).Defined mode :=
      (Eval.defined_map mode _ _).mpr ((Eval.defined_shiftLeft mode _ n).mpr (by omega))
    exact iff_of_true hdefined fun hlsb ↦ nomatch hlsb
  | lsb =>
    have hcached : bs.bitsInCache < 64 ↔ Takes .lsb bs.size (taken bs) n := by
      have hle := h.bytePos_le
      have hdrained := h.drained
      unfold Takes taken
      omega
    rw [push, Eval.defined_map, Eval.defined_shiftLeft, hcached, forall_prop_of_true rfl]

theorem bsWriteBit_defined_iff (h : WriterInv bs) (hbits : bs.bitsInCache ≤ 95)
    (value : BitVec 8) :
    (bsWriteBit bs value).Defined mode ↔ Takes .msb bs.size (taken bs) 1 := by
  rw [bsWriteBit_eq, Eval.defined_bind, push_defined_iff .msb h (by norm_num),
    queueBits_defined_iff (dump_dumps .msb mode) h hbits (by norm_num)]
  constructor
  · intro hdefined
    exact hdefined.2 rfl
  · intro htakes
    exact ⟨fun hlsb ↦ (nomatch hlsb), fun _ ↦ htakes⟩

/-- The checked write of an order is defined exactly where it writes nothing or its shifts stay in
range. -/
def WriteDefined (order : BitOrder) (mode : Overshift)
    (write : BsWriter → BitVec 32 → ℕ → Eval BsWriter) : Prop :=
  ∀ {bs : BsWriter} {n : ℕ} (value : BitVec 32), WriterInv bs → bs.bitsInCache ≤ 95 → n ≤ 32 →
    ((write bs value n).Defined mode ↔ n = 0 ∨ Takes order bs.size (taken bs) n)

theorem write_writeDefined (order : BitOrder) (mode : Overshift) :
    WriteDefined order mode (write order) := by
  intro bs n value h hbits hn
  rw [write_eq]
  by_cases hzero : n = 0
  · rw [if_pos hzero, iff_true_right (.inl hzero)]
    exact Eval.defined_pure _ _
  · rw [if_neg hzero, Eval.defined_bind, and_iff_right (cleanValue_defined mode value hn),
      Eval.defined_bind, push_defined_iff order h hn,
      queueBits_defined_iff (dump_dumps order mode) h hbits hn, or_iff_right hzero]
    cases order with
    | msb =>
      constructor
      · intro hdefined
        exact hdefined.2 rfl
      · intro htakes
        exact ⟨fun hlsb ↦ (nomatch hlsb), fun _ ↦ htakes⟩
    | lsb =>
      constructor
      · intro hdefined
        exact hdefined.1 rfl
      · intro htakes
        exact ⟨fun _ ↦ htakes, fun hmsb ↦ nomatch hmsb⟩

section Padding

variable {dump : BsWriter → Eval BsWriter} {write : BsWriter → BitVec 32 → ℕ → Eval BsWriter}

theorem align_defined_iff (hwrite : WriteDefined order mode write) (h : WriterInv bs)
    (hbits : bs.bitsInCache ≤ 95) :
    (align write bs).Defined mode ↔ padding 8 bs.bitsInCache = 0 ∨
      Takes order bs.size (taken bs) (padding 8 bs.bitsInCache) := by
  unfold align
  by_cases hres : bs.bitsInCache % 8 > 0
  · rw [if_pos hres, padding_of_mod_ne_zero (by norm_num) (by omega)]
    exact hwrite 0 h hbits (by omega)
  · rw [if_neg hres, (padding_eq_zero_iff (by norm_num) _).mpr (by omega)]
    exact iff_of_true (Eval.defined_pure _ _) (.inl rfl)

theorem flush_defined_iff (hdumps : Dumps order mode dump) (hwrite : WriteDefined order mode write)
    (h : WriterInv bs) (hbits : bs.bitsInCache ≤ 95)
    (hleft : order = .msb → bs.bitsInCache < 64) :
    (flush dump write bs).Defined mode ↔
      (if 8 ≤ bs.bitsInCache then 0 else padding 8 bs.bitsInCache) = 0 ∨
        Takes order bs.size (taken bs)
          (if 8 ≤ bs.bitsInCache then 0 else padding 8 bs.bitsInCache) := by
  cases flush_ends hdumps write h with
  | empty hnone _ hdefined =>
    rw [hnone]
    exact iff_of_true hdefined (.inl rfl)
  | stuck hbyte _ _ _ hdefined =>
    rw [if_pos hbyte, hdefined]
    exact iff_of_true hleft (.inl rfl)
  | pads hlt bitCache _ _ hdefined =>
    have hpadding : padding 8 bs.bitsInCache < 8 := padding_lt (by norm_num) bs.bitsInCache
    rw [if_neg (by omega), hdefined]
    exact hwrite 0 (h.with_cache bitCache) hbits (by omega)

end Padding

/-- Every operation that a call evaluates is defined: its shifts, its unsigned sums and differences,
and the bytes it writes. -/
def CallDefined (sizeT : SizeT) (issued : Overshift × WriterCall) (bs : BsWriter) : Prop :=
  (writerStep sizeT issued.2 bs).Defined issued.1

instance (sizeT : SizeT) (issued : Overshift × WriterCall) (bs : BsWriter) :
    Decidable (CallDefined sizeT issued bs) :=
  inferInstanceAs (Decidable ((writerStep sizeT issued.2 bs).Defined issued.1))

/-- A bit-level call is defined exactly where it queues nothing or its shifts stay in range. -/
theorem callDefined_iff (sizeT : SizeT) {issued : Overshift × WriterCall} (h : WriterInv bs)
    (hcall : BitCall order issued.2) (hbits : bs.bitsInCache ≤ 95)
    (hleft : order = .msb → bs.bitsInCache < 64) :
    CallDefined sizeT issued bs ↔ queuedCount bs.bitsInCache issued.2 = 0 ∨
      Takes order bs.size (taken bs) (queuedCount bs.bitsInCache issued.2) := by
  obtain ⟨mode, call⟩ := issued
  cases call with
  | writeBit value =>
    cases hcall
    refine (Eval.defined_map mode _ _).trans ?_
    rw [bsWriteBit_defined_iff h hbits, queuedCount, or_iff_right (by norm_num)]
  | writeBits o value n =>
    obtain ⟨rfl, hn⟩ := hcall
    rw [CallDefined, writerStep_writeBits, Eval.defined_map]
    exact write_writeDefined o mode value h hbits hn
  | writeBitsUnchecked => exact hcall.elim
  | align o =>
    cases hcall
    rw [CallDefined, writerStep_align, Eval.defined_map]
    exact align_defined_iff (write_writeDefined order mode) h hbits
  | flush o =>
    cases hcall
    rw [CallDefined, writerStep_flush, Eval.defined_map]
    exact flush_defined_iff (dump_dumps order mode) (write_writeDefined order mode) h hbits hleft
  | writeBytes => exact hcall.elim

/-! ### Runs -/

/-- The number of bits left in the cache when `total` bits were queued for a buffer of `size`
bytes. -/
def cachedBits (size total : ℕ) : ℕ := total - 8 * min size (total / 8)

/-- One call on the count of all bits queued. -/
def queueTotal (size : ℕ) (call : WriterCall) (total : ℕ) : Unit × ℕ :=
  ((), total + queuedCount (cachedBits size total) call)

/-- A call that queues bits finds, and leaves, few enough of them undrained. -/
def ShiftsInRange (order : BitOrder) (size : ℕ) (call : WriterCall) (total : ℕ) : Prop :=
  queuedCount (cachedBits size total) call = 0 ∨
    Takes order size total (queuedCount (cachedBits size total) call)

instance (order : BitOrder) (size : ℕ) (call : WriterCall) (total : ℕ) :
    Decidable (ShiftsInRange order size call total) := inferInstanceAs (Decidable (_ ∨ _))

/-- The writer has taken in the bits counted, and no shift has left its range. -/
structure Counts (order : BitOrder) (size : ℕ) (bs : BsWriter) (total : ℕ) : Prop
    extends WriterInv bs where
  capacity_eq : bs.size = size
  taken_eq : taken bs = total
  bits_le : bs.bitsInCache ≤ 95
  bits_lt_msb : order = .msb → bs.bitsInCache < 64

variable {size total : ℕ}

theorem Counts.cachedBits_eq (h : Counts order size bs total) :
    cachedBits size total = bs.bitsInCache := by
  have htotal := h.taken_eq
  have hle := h.bytePos_le
  have hdrained := h.drained
  have hsize := h.capacity_eq
  unfold cachedBits
  unfold taken at htotal
  rcases Nat.le_total size (total / 8) with hfull | hroom
  · rw [Nat.min_eq_left hfull]
    omega
  · rw [Nat.min_eq_right hroom]
    omega

/-- One call is defined exactly where its shifts stay in range. -/
theorem Counts.defined_iff (sizeT : SizeT) {issued : Overshift × WriterCall}
    (h : Counts order size bs total) (hcall : BitCall order issued.2) :
    CallDefined sizeT issued bs ↔ ShiftsInRange order size issued.2 total := by
  unfold ShiftsInRange
  rw [h.cachedBits_eq, ← h.capacity_eq, ← h.taken_eq]
  exact callDefined_iff sizeT h.toWriterInv hcall h.bits_le h.bits_lt_msb

/-- A call whose shifts stay in range keeps the count exact. -/
theorem Counts.step (sizeT : SizeT) {issued : Overshift × WriterCall}
    (h : Counts order size bs total) (hcall : BitCall order issued.2)
    (hrange : ShiftsInRange order size issued.2 total) :
    Counts order size (writerAct sizeT issued bs).2 (queueTotal size issued.2 total).2 := by
  have happends := writerAct_appends sizeT hcall h.toWriterInv
  have hinv := happends.inv h.toWriterInv
  have hqueued := queuedCount_le hcall bs.bitsInCache
  have hbits := h.bits_le
  have htotal := h.taken_eq
  have hsize := h.capacity_eq
  have hdrained := hinv.drained
  have hle := happends.bytePos_le
  have hcapacity := happends.size_eq
  have hcount := happends.count_eq
  rw [length_appendedField, Nat.mod_eq_of_lt (by omega)] at hcount
  have hnext : (queueTotal size issued.2 total).2 =
      total + queuedCount bs.bitsInCache issued.2 := by
    rw [queueTotal, h.cachedBits_eq]
  rw [ShiftsInRange, h.cachedBits_eq] at hrange
  unfold taken at htotal
  refine ⟨hinv, hcapacity.trans hsize, ?_, ?_, ?_⟩
  · rw [hnext, taken]
    omega
  · rcases hrange with hzero | htakes
    · omega
    · cases order with
      | msb =>
        change total + queuedCount bs.bitsInCache issued.2 ≤ 8 * size + 63 at htakes
        omega
      | lsb =>
        change total ≤ 8 * size + 63 at htakes
        omega
  · intro hmsb
    have hleft := h.bits_lt_msb hmsb
    cases hmsb
    rcases hrange with hzero | htakes
    · omega
    · change total + queuedCount bs.bitsInCache issued.2 ≤ 8 * size + 63 at htakes
      omega

theorem counts_init (order : BitOrder) (initial : List (BitVec 8)) :
    Counts order initial.length (bsWriterInit initial initial.length) 0 where
  toWriterInv := writerInv_init initial
  capacity_eq := rfl
  taken_eq := rfl
  bits_le := Nat.zero_le _
  bits_lt_msb := fun _ ↦ Nat.zero_lt_succ 63

/-- Every operation of a run is defined exactly when every call that queues bits keeps the shift
counts in range: most significant first, the bits queued up to and including it exceed those of the
buffer by at most 63; least significant first, those queued before it do. Assumes: the calls are the
bit-level calls of one order with widths of at most 32. -/
theorem defined_iff_shiftsInRange (sizeT : SizeT) (order : BitOrder) (initial : List (BitVec 8))
    (issued : List (Overshift × WriterCall)) (hcalls : ∀ call ∈ issued, BitCall order call.2) :
    Along (writerAct sizeT) (CallDefined sizeT) issued (bsWriterInit initial initial.length) ↔
      Along (queueTotal initial.length) (ShiftsInRange order initial.length)
        (issued.map Prod.snd) 0 := by
  have halong : Along (writerAct sizeT) (fun call _ ↦ BitCall order call.2) issued
      (bsWriterInit initial initial.length) :=
    .of_calls hcalls _
  refine along_iff_along (Counts order initial.length) Prod.snd (fun call bs total h hcall ↦ ?_)
    halong (counts_init order initial)
  have hiff := h.defined_iff sizeT hcall
  exact ⟨hiff, fun hdefined ↦ h.step sizeT hcall (hiff.mp hdefined)⟩

/-- A run that ends at the bound, with 71 bits queued for a buffer of one byte. -/
theorem defined_iff_shiftsInRange_one_byte :
    Along (writerAct sizeT64) (CallDefined sizeT64)
        ([.writeBits .msb 5 32, .flush .msb, .writeBits .msb 6 32, .writeBits .msb 1 7].map
          (Prod.mk .masked)) (bsWriterInit [0] 1) ↔
      Along (queueTotal 1) (ShiftsInRange .msb 1)
        (([.writeBits .msb 5 32, .flush .msb, .writeBits .msb 6 32, .writeBits .msb 1 7].map
          (Prod.mk Overshift.masked)).map Prod.snd) 0 :=
  defined_iff_shiftsInRange sizeT64 .msb [0] _ (by decide)

/-- With a buffer of no bytes, the second 32-bit write makes the most significant first dump shift
by 64, and the third makes the least significant first write do so. -/
theorem full_buffer_shift_by_64 :
    (¬ Along (writerAct sizeT64) (CallDefined sizeT64)
        ([.writeBits .msb 1 32, .writeBits .msb 1 32].map (Prod.mk .masked)) (bsWriterInit [] 0) ∧
      Obligation.shift 64 64 ∈ (writerStep sizeT64 (.writeBits .msb 1 32)
        (final (writerAct sizeT64) ([.writeBits .msb 1 32].map (Prod.mk .masked))
          (bsWriterInit [] 0)) .masked).obligations) ∧
    (¬ Along (writerAct sizeT64) (CallDefined sizeT64)
        ([.writeBits .lsb 1 32, .writeBits .lsb 1 32, .writeBits .lsb 1 32].map (Prod.mk .masked))
        (bsWriterInit [] 0) ∧
      Obligation.shift 64 64 ∈ (writerStep sizeT64 (.writeBits .lsb 1 32)
        (final (writerAct sizeT64)
          ([.writeBits .lsb 1 32, .writeBits .lsb 1 32].map (Prod.mk .masked))
          (bsWriterInit [] 0)) .masked).obligations) := by
  decide

end Bitstream.Writing
