import Bitstream.Foundation.BitQueue
import Bitstream.Writing.BothOrders

/-!
# Draining the cache

A drain moves complete bytes from the cache to the buffer until fewer than eight bits are cached or
the buffer is full. `Drains` says what it does to the counters, the buffer and the overflow flag,
for any number of cached bits; `content`, the bytes written followed by the bits cached, is kept as
long as the cache holds its bits. `Dumps` collects these facts for the dump function of an order,
together with the one shift that can be undefined: the mask of the most significant first dump,
which shifts by the number of bits left.
-/

set_option autoImplicit false
set_option relaxedAutoImplicit false

namespace Bitstream.Writing

open Foundation Header

variable {mode : Overshift} {order : BitOrder} {bs after : BsWriter}

/-- The buffer has the size the writer was given, and the position lies in it. -/
structure Fits (bs : BsWriter) : Prop where
  size_eq : bs.size = bs.buffer.length
  bytePos_le : bs.bytePos ≤ bs.size

/-- The bits a writer holds: those of the bytes written, then those in the cache. -/
def content (order : BitOrder) (bs : BsWriter) : List Bool :=
  stream order (bs.buffer.take bs.bytePos) ++ queued order bs.bitsInCache bs.bitCache

/-- No bit stands above the cached ones. -/
def Clean (bs : BsWriter) : Prop := bs.bitCache.toNat < 2 ^ bs.bitsInCache

/-- While there is room, the cache holds at most a word of bits. -/
def RoomBounded (bs : BsWriter) : Prop := bs.bytePos < bs.size → bs.bitsInCache ≤ 64

/-- What a drain does apart from the cache: bytes have moved to the buffer, in front of the rest of
it, until less than a byte was left or the buffer was full. -/
structure Drains (before after : BsWriter) : Prop where
  size_eq : after.size = before.size
  length_eq : after.buffer.length = before.buffer.length
  bytePos_le : before.bytePos ≤ after.bytePos
  bytePos_le_size : after.bytePos ≤ after.size
  count_eq : 8 * after.bytePos + after.bitsInCache = 8 * before.bytePos + before.bitsInCache
  written_eq : after.buffer.take before.bytePos = before.buffer.take before.bytePos
  rest_eq : after.buffer.drop after.bytePos = before.buffer.drop after.bytePos
  overflow_eq : after.overflow = (before.overflow || decide (8 ≤ after.bitsInCache))
  ends : after.bitsInCache < 8 ∨ after.bytePos = after.size

theorem length_content (h : Fits bs) :
    (content order bs).length = 8 * bs.bytePos + bs.bitsInCache := by
  have hle := h.bytePos_le
  have hsize := h.size_eq
  rw [content, List.length_append, length_stream, length_queued, List.length_take,
    Nat.min_eq_left (by omega)]

/-! ### The drain as a relation -/

/-- A cache with less than a byte is drained. -/
theorem Drains.of_lt (h : Fits bs) (hbits : bs.bitsInCache < 8) : Drains bs bs where
  size_eq := rfl
  length_eq := rfl
  bytePos_le := le_rfl
  bytePos_le_size := h.bytePos_le
  count_eq := rfl
  written_eq := rfl
  rest_eq := rfl
  overflow_eq := by
    rw [decide_eq_false (by omega), Bool.or_false]
  ends := .inl hbits

/-- A full buffer takes no byte; the drain raises the overflow flag. -/
theorem Drains.of_full (h : Fits bs) (hbits : 8 ≤ bs.bitsInCache) (hfull : bs.size ≤ bs.bytePos) :
    Drains bs { bs with overflow := true } where
  size_eq := rfl
  length_eq := rfl
  bytePos_le := le_rfl
  bytePos_le_size := h.bytePos_le
  count_eq := rfl
  written_eq := rfl
  rest_eq := rfl
  overflow_eq := by
    show true = (bs.overflow || decide (8 ≤ bs.bitsInCache))
    rw [decide_eq_true hbits, Bool.or_true]
  ends := .inr (le_antisymm h.bytePos_le hfull)

/-- The cache itself does not matter to the relation. -/
theorem Drains.with_cache (h : Drains bs after) (bitCache : BitVec 64) :
    Drains bs { after with bitCache := bitCache } :=
  ⟨h.size_eq, h.length_eq, h.bytePos_le, h.bytePos_le_size, h.count_eq, h.written_eq, h.rest_eq,
    h.overflow_eq, h.ends⟩

theorem Drains.fits (h : Drains bs after) (hfits : Fits bs) : Fits after where
  size_eq := by
    rw [h.size_eq, h.length_eq]
    exact hfits.size_eq
  bytePos_le := h.bytePos_le_size

/-- A drain that writes no byte leaves the buffer as it is. -/
theorem Drains.buffer_eq (h : Drains bs after) (hpos : after.bytePos = bs.bytePos) :
    after.buffer = bs.buffer := by
  rw [← List.take_append_drop bs.bytePos after.buffer, h.written_eq, ← hpos, h.rest_eq,
    List.take_append_drop]

/-- The state after one pass of the loop. -/
def passed (bs : BsWriter) (byte : BitVec 8) (bitCache : BitVec 64) : BsWriter :=
  { bs with
    buffer := bs.buffer.set bs.bytePos byte
    bytePos := bs.bytePos + 1
    bitCache := bitCache
    bitsInCache := bs.bitsInCache - 8 }

theorem fits_passed {byte : BitVec 8} {bitCache : BitVec 64} (h : Fits bs)
    (hmore : bs.bytePos < bs.size) : Fits (passed bs byte bitCache) where
  size_eq := by
    show bs.size = (bs.buffer.set bs.bytePos byte).length
    rw [List.length_set]
    exact h.size_eq
  bytePos_le := hmore

/-- A drain may begin with a pass. -/
theorem Drains.of_passed {byte : BitVec 8} {bitCache : BitVec 64} (hbits : 8 ≤ bs.bitsInCache)
    (h : Drains (passed bs byte bitCache) after) : Drains bs after where
  size_eq := h.size_eq
  length_eq := by
    rw [h.length_eq]
    exact List.length_set
  bytePos_le := (Nat.le_succ _).trans h.bytePos_le
  bytePos_le_size := h.bytePos_le_size
  count_eq := by
    have hcount : 8 * after.bytePos + after.bitsInCache =
        8 * (bs.bytePos + 1) + (bs.bitsInCache - 8) := h.count_eq
    omega
  written_eq := by
    have hwritten : after.buffer.take (bs.bytePos + 1) =
        (bs.buffer.set bs.bytePos byte).take (bs.bytePos + 1) := h.written_eq
    have hstart := congrArg (List.take bs.bytePos) hwritten
    rw [List.take_take, List.take_take, Nat.min_eq_left (Nat.le_succ _)] at hstart
    rw [hstart, List.take_set_of_le le_rfl]
  rest_eq := by
    have hpos : bs.bytePos < after.bytePos := h.bytePos_le
    rw [h.rest_eq]
    exact List.drop_set_of_lt hpos
  overflow_eq := h.overflow_eq
  ends := h.ends

/-! ### The bytes of an order -/

/-- The byte that a pop function takes is the oldest of the cache, and the others are left. -/
def PopsOldest (order : BitOrder) (mode : Overshift)
    (pop : BsWriter → Eval (BitVec 8 × BitVec 64)) : Prop :=
  ∀ bs : BsWriter, 8 ≤ bs.bitsInCache → bs.bitsInCache ≤ 64 →
    Eval.Ensures mode (pop bs) fun popped ↦
      queued order bs.bitsInCache bs.bitCache =
          wordBits order popped.1 ++ queued order (bs.bitsInCache - 8) popped.2 ∧
        (order = .lsb → Clean bs → popped.2.toNat < 2 ^ (bs.bitsInCache - 8))

/-- The byte that the code masks out is queued in the low bits of the word. -/
theorem wordBits_lowByte (order : BitOrder) (word : BitVec 64) :
    wordBits order ((word &&& 0xFF#64).setWidth 8) = queued order 8 word := by
  rw [← queued_full]
  apply queued_eq_of_toNat_mod
  have hmask : (word &&& 0xFF#64).toNat = word.toNat % 2 ^ 8 :=
    toNat_and_lowMask word (n := 8) (by norm_num)
  rw [BitVec.toNat_setWidth, hmask, Nat.mod_mod, Nat.mod_mod]

theorem popByte_popsOldest (mode : Overshift) : PopsOldest .msb mode popByte := by
  intro bs hbits hroom
  refine (Eval.ensures_sub 32 hbits).bind_eq ?_
  refine (Eval.ensures_shiftRight (by omega)).bind_eq ?_
  refine Eval.ensures_pure ⟨?_, fun hlsb ↦ nomatch hlsb⟩
  rw [queued_msb_pop bs.bitCache hbits, wordBits_lowByte]

theorem popByteLsb_popsOldest (mode : Overshift) : PopsOldest .lsb mode popByteLsb := by
  intro bs hbits hroom
  refine (Eval.ensures_shiftRight (by norm_num)).bind_eq ?_
  refine Eval.ensures_pure ⟨?_, fun _ hclean ↦ toNat_lsb_pop_lt _ hbits hclean⟩
  rw [queued_lsb_pop bs.bitCache hbits, wordBits_lowByte]

theorem content_passed {byte : BitVec 8} {bitCache : BitVec 64} (h : Fits bs)
    (hmore : bs.bytePos < bs.size)
    (hpop : queued order bs.bitsInCache bs.bitCache =
      wordBits order byte ++ queued order (bs.bitsInCache - 8) bitCache) :
    content order (passed bs byte bitCache) = content order bs := by
  have hlt : bs.bytePos < bs.buffer.length := h.size_eq ▸ hmore
  have htake : (bs.buffer.set bs.bytePos byte).take (bs.bytePos + 1) =
      bs.buffer.take bs.bytePos ++ [byte] := by
    rw [← List.take_append_getElem (by rwa [List.length_set]), List.take_set_of_le le_rfl,
      List.getElem_set_self]
  show stream order ((bs.buffer.set bs.bytePos byte).take (bs.bytePos + 1)) ++ _ = _
  rw [htake, stream_append, stream_cons, stream_nil, List.append_nil, List.append_assoc, content,
    hpop]
  rfl

/-- The loop of the dump functions, by induction on its passes. -/
theorem dumpLoop_ensures {pop : BsWriter → Eval (BitVec 8 × BitVec 64)}
    (hpop : PopsOldest order mode pop) (passes : ℕ) {bs : BsWriter} (h : Fits bs)
    (hpasses : bs.bitsInCache < 8 * (passes + 1)) (hroom : RoomBounded bs) :
    Eval.Ensures mode (dumpLoop pop passes bs) fun after ↦
      Drains bs after ∧ content order after = content order bs ∧
        (order = .lsb → Clean bs → Clean after) := by
  induction passes generalizing bs with
  | zero => exact Eval.ensures_pure ⟨.of_lt h hpasses, rfl, fun _ hclean ↦ hclean⟩
  | succ passes ih =>
    unfold dumpLoop
    by_cases hbits : bs.bitsInCache ≥ 8
    · by_cases hfull : bs.bytePos ≥ bs.size
      · rw [if_pos hbits, if_pos hfull]
        exact Eval.ensures_pure ⟨.of_full h hbits hfull, rfl, fun _ hclean ↦ hclean⟩
      · rw [if_pos hbits, if_neg hfull]
        have hmore : bs.bytePos < bs.size := Nat.lt_of_not_le hfull
        have hbound := hroom hmore
        refine (hpop bs hbits hbound).bind fun popped ⟨holdest, hclean⟩ ↦ ?_
        refine (Eval.ensures_store hmore).bind_eq ?_
        refine (Eval.ensures_sub 32 hbits).bind_eq ?_
        have hpasses' : (passed bs popped.1 popped.2).bitsInCache < 8 * (passes + 1) := by
          show bs.bitsInCache - 8 < _
          omega
        have hroom' : RoomBounded (passed bs popped.1 popped.2) :=
          fun _ ↦ (Nat.sub_le _ 8).trans hbound
        refine (ih (fits_passed h hmore) hpasses' hroom').mono
          fun after ⟨hdrains, hcontent, hafter⟩ ↦ ⟨hdrains.of_passed hbits, ?_, ?_⟩
        · rw [hcontent, content_passed h hmore holdest]
        · intro hlsb hbs
          exact hafter hlsb (hclean hlsb hbs)
    · rw [if_neg hbits]
      exact Eval.ensures_pure ⟨.of_lt h (by omega), rfl, fun _ hclean ↦ hclean⟩

/-- The number of passes that the dump functions allow is enough. -/
theorem dumpLoop_ends {pop : BsWriter → Eval (BitVec 8 × BitVec 64)}
    (hpop : PopsOldest order mode pop) (h : Fits bs) (hroom : RoomBounded bs) :
    Eval.Ensures mode (dumpLoop pop (bs.bitsInCache / 8) bs) fun after ↦
      Drains bs after ∧ content order after = content order bs ∧
        (order = .lsb → Clean bs → Clean after) :=
  dumpLoop_ensures hpop _ h (by omega) hroom

/-! ### The dump functions -/

/-- What the dump function of an order does. The content is kept, and stays clean, where the bits
left fit in the cache; the most significant first dump is defined exactly there. -/
structure Dumps (order : BitOrder) (mode : Overshift) (dump : BsWriter → Eval BsWriter) :
    Prop where
  drains {bs : BsWriter} : Fits bs → RoomBounded bs → Drains bs ((dump bs).value mode)
  content_eq {bs : BsWriter} : Fits bs → RoomBounded bs →
    ((dump bs).value mode).bitsInCache < 64 →
      content order ((dump bs).value mode) = content order bs
  clean {bs : BsWriter} : Fits bs → RoomBounded bs → Clean bs →
    ((dump bs).value mode).bitsInCache < 64 → Clean ((dump bs).value mode)
  defined_iff {bs : BsWriter} : Fits bs → RoomBounded bs →
    ((dump bs).Defined mode ↔ (order = .msb → ((dump bs).value mode).bitsInCache < 64))

/-- The cache with only its counted bits left in it. -/
def masked (bs : BsWriter) : BsWriter :=
  { bs with bitCache := bs.bitCache &&& lowMask 64 bs.bitsInCache }

theorem content_masked (order : BitOrder) (h : bs.bitsInCache < 64) :
    content order (masked bs) = content order bs :=
  congrArg (stream order (bs.buffer.take bs.bytePos) ++ ·) (queued_and_lowMask order bs.bitCache h)

theorem clean_masked (h : bs.bitsInCache < 64) : Clean (masked bs) := by
  show (bs.bitCache &&& lowMask 64 bs.bitsInCache).toNat < 2 ^ bs.bitsInCache
  rw [toNat_and_lowMask _ h]
  exact Nat.mod_lt _ (Nat.two_pow_pos _)

/-- Where the bits left fit in the cache, the mask of the dump keeps exactly them. -/
theorem value_bsWriterDump (h : ((bsWriterDump bs).value mode).bitsInCache < 64) :
    (bsWriterDump bs).value mode =
      masked ((dumpLoop popByte (bs.bitsInCache / 8) bs).value mode) := by
  have hbits : ((dumpLoop popByte (bs.bitsInCache / 8) bs).value mode).bitsInCache < 64 := h
  rw [bsWriterDump, Eval.value_bind, Eval.value_bind, Eval.value_shiftLeft mode _ hbits]
  rfl

theorem msb_dumps (mode : Overshift) : Dumps .msb mode bsWriterDump where
  drains := by
    intro bs h hroom
    have hloop := dumpLoop_ends (popByte_popsOldest mode) h hroom
    exact hloop.post.1.with_cache _
  content_eq := by
    intro bs h hroom hbits
    have hloop := dumpLoop_ends (popByte_popsOldest mode) h hroom
    have hkept : ((dumpLoop popByte (bs.bitsInCache / 8) bs).value mode).bitsInCache < 64 := hbits
    rw [value_bsWriterDump hbits, content_masked .msb hkept, hloop.post.2.1]
  clean := by
    intro bs h hroom _ hbits
    rw [value_bsWriterDump hbits]
    exact clean_masked hbits
  defined_iff := by
    intro bs h hroom
    have hloop := dumpLoop_ends (popByte_popsOldest mode) h hroom
    rw [bsWriterDump, Eval.defined_bind, Eval.defined_bind, Eval.defined_shiftLeft]
    constructor
    · intro hdefined _
      exact hdefined.2.1
    · intro hbits
      exact ⟨hloop.defined, hbits rfl, Eval.defined_pure _ _⟩

theorem lsb_dumps (mode : Overshift) : Dumps .lsb mode bsWriterDumpLsb where
  drains := fun h hroom ↦ (dumpLoop_ends (popByteLsb_popsOldest mode) h hroom).post.1
  content_eq := fun h hroom _ ↦ (dumpLoop_ends (popByteLsb_popsOldest mode) h hroom).post.2.1
  clean := fun h hroom hclean _ ↦
    (dumpLoop_ends (popByteLsb_popsOldest mode) h hroom).post.2.2 rfl hclean
  defined_iff := by
    intro bs h hroom
    have hloop := dumpLoop_ends (popByteLsb_popsOldest mode) h hroom
    constructor
    · intro _ hmsb
      exact nomatch hmsb
    · intro _
      exact hloop.defined

theorem dump_dumps (order : BitOrder) (mode : Overshift) : Dumps order mode (dump order) := by
  cases order with
  | msb => exact msb_dumps mode
  | lsb => exact lsb_dumps mode

end Bitstream.Writing
