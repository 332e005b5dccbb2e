import Bitstream.Writing.Drain

/-!
# The writing functions append a field

Between two calls a writer is drained: it caches less than a byte, or its buffer is full and its
overflow flag is up (`WriterInv`). Every bit-level call appends one field to the bits a writer
holds, a value or the zeros of a padding, and drains again (`Appends`). On the counters this holds
however many bits the cache counts, on the content as long as the cache holds them.
`writerAct_appends` is the step lemma for all bit-level calls of an order.
-/

set_option autoImplicit false
set_option relaxedAutoImplicit false

namespace Bitstream.Writing

open Foundation Header

variable {mode : Overshift} {order : BitOrder} {bs after : BsWriter} {field : List Bool} {n : ℕ}

/-- What every writer function preserves: between two calls the writer is drained. -/
structure WriterInv (bs : BsWriter) : Prop extends Fits bs where
  bits_lt : bs.bitsInCache < 2 ^ 32
  drained : bs.bitsInCache < 8 ∨ bs.bytePos = bs.size ∧ bs.overflow = true

theorem writerInv_init (buffer : List (BitVec 8)) :
    WriterInv (bsWriterInit buffer buffer.length) where
  size_eq := rfl
  bytePos_le := Nat.zero_le _
  bits_lt := Nat.two_pow_pos 32
  drained := .inl (Nat.zero_lt_succ 7)

/-- The cache itself does not matter to the invariant. -/
theorem WriterInv.with_cache (h : WriterInv bs) (bitCache : BitVec 64) :
    WriterInv { bs with bitCache := bitCache } :=
  ⟨⟨h.size_eq, h.bytePos_le⟩, h.bits_lt, h.drained⟩

theorem WriterInv.bits_lt_of_room (h : WriterInv bs) (hmore : bs.bytePos < bs.size) :
    bs.bitsInCache < 8 := by
  rcases h.drained with hbits | ⟨hfull, _⟩
  · exact hbits
  · omega

theorem WriterInv.bytePos_eq (h : WriterInv bs) (hbits : 8 ≤ bs.bitsInCache) :
    bs.bytePos = bs.size ∧ bs.overflow = true := h.drained.resolve_left (by omega)

theorem WriterInv.roomBounded (h : WriterInv bs) : RoomBounded bs := by
  intro hmore
  have hbits := h.bits_lt_of_room hmore
  omega

theorem Drains.inv (h : Drains bs after) (hfits : Fits bs) (hbits : bs.bitsInCache < 2 ^ 32) :
    WriterInv after where
  toFits := h.fits hfits
  bits_lt := by
    have hcount := h.count_eq
    have hle := h.bytePos_le
    omega
  drained := by
    rcases h.ends with hlt | hfull
    · exact .inl hlt
    · by_cases hlt : after.bitsInCache < 8
      · exact .inl hlt
      · refine .inr ⟨hfull, ?_⟩
        rw [h.overflow_eq, decide_eq_true (by omega), Bool.or_true]

/-- A writer between two calls has nothing to drain. -/
theorem WriterInv.drains (h : WriterInv bs) : Drains bs bs := by
  rcases h.drained with hbits | ⟨hfull, hoverflow⟩
  · exact .of_lt h.toFits hbits
  · refine ⟨rfl, rfl, le_rfl, h.bytePos_le, rfl, rfl, rfl, ?_, .inr hfull⟩
    rw [hoverflow, Bool.true_or]

/-- A drain between two calls changes at most the cache. -/
theorem Drains.eq_of_inv (h : Drains bs after) (hinv : WriterInv bs) :
    after = { bs with bitCache := after.bitCache } := by
  have hcount := h.count_eq
  have hle := h.bytePos_le
  have hsize := h.bytePos_le_size
  have hsame := h.size_eq
  have hpos : after.bytePos = bs.bytePos := by
    rcases hinv.drained with hbits | ⟨hfull, _⟩ <;> omega
  have hbits : after.bitsInCache = bs.bitsInCache := by omega
  have hbuffer := h.buffer_eq hpos
  have hoverflow : after.overflow = bs.overflow := by
    rw [h.overflow_eq, hbits]
    by_cases hlt : bs.bitsInCache < 8
    · rw [decide_eq_false (by omega), Bool.or_false]
    · rw [(hinv.bytePos_eq (by omega)).2, Bool.true_or]
  cases after
  cases bs
  cases hsame
  cases hpos
  cases hbits
  cases hbuffer
  cases hoverflow
  rfl

/-! ### Appending -/

/-- The writer with its cache replaced and `n` more bits counted, in 32 bits. -/
def counted (bs : BsWriter) (bitCache : BitVec 64) (n : ℕ) : BsWriter :=
  { bs with bitCache := bitCache, bitsInCache := (bs.bitsInCache + n) % 2 ^ 32 }

/-- A field has been queued and the cache drained. Where the cache holds all its bits, the field
follows those the writer held. -/
structure Appends (order : BitOrder) (field : List Bool) (before after : BsWriter) : Prop where
  drains : ∃ bitCache, Drains (counted before bitCache field.length) after
  content_eq : Clean before → before.bitsInCache + field.length < 64 →
    content order after = content order before ++ field
  clean : Clean before → before.bitsInCache + field.length < 64 → Clean after

theorem fits_counted (h : Fits bs) (bitCache : BitVec 64) (n : ℕ) : Fits (counted bs bitCache n) :=
  ⟨h.size_eq, h.bytePos_le⟩

theorem roomBounded_counted (h : WriterInv bs) (bitCache : BitVec 64) (hn : n ≤ 32) :
    RoomBounded (counted bs bitCache n) := by
  intro hmore
  have hbits := h.bits_lt_of_room hmore
  show (bs.bitsInCache + n) % 2 ^ 32 ≤ 64
  omega

theorem Appends.inv (h : Appends order field bs after) (hinv : WriterInv bs) :
    WriterInv after := by
  obtain ⟨bitCache, hdrains⟩ := h.drains
  exact hdrains.inv (fits_counted hinv.toFits _ _) (Nat.mod_lt _ (Nat.two_pow_pos 32))

theorem Appends.size_eq (h : Appends order field bs after) : after.size = bs.size := by
  obtain ⟨_, hdrains⟩ := h.drains
  exact hdrains.size_eq

theorem Appends.bytePos_le (h : Appends order field bs after) : bs.bytePos ≤ after.bytePos := by
  obtain ⟨_, hdrains⟩ := h.drains
  exact hdrains.bytePos_le

theorem Appends.count_eq (h : Appends order field bs after) :
    8 * after.bytePos + after.bitsInCache =
      8 * bs.bytePos + (bs.bitsInCache + field.length) % 2 ^ 32 := by
  obtain ⟨_, hdrains⟩ := h.drains
  exact hdrains.count_eq

theorem Appends.overflow_eq (h : Appends order field bs after) :
    after.overflow = (bs.overflow || decide (8 ≤ after.bitsInCache)) := by
  obtain ⟨_, hdrains⟩ := h.drains
  exact hdrains.overflow_eq

theorem Appends.rest_eq (h : Appends order field bs after) :
    after.buffer.drop after.bytePos = bs.buffer.drop after.bytePos := by
  obtain ⟨_, hdrains⟩ := h.drains
  exact hdrains.rest_eq

theorem Appends.buffer_eq (h : Appends order field bs after) (hpos : after.bytePos = bs.bytePos) :
    after.buffer = bs.buffer := by
  obtain ⟨_, hdrains⟩ := h.drains
  exact hdrains.buffer_eq hpos

/-- Nothing is appended to a writer between two calls that stays as it is. -/
theorem Appends.nil (h : WriterInv bs) : Appends order [] bs bs where
  drains := by
    have hcounted : counted bs bs.bitCache 0 = bs := by
      rw [counted, Nat.add_zero, Nat.mod_eq_of_lt h.bits_lt]
    exact ⟨bs.bitCache, hcounted.symm ▸ h.drains⟩
  content_eq := fun _ _ ↦ (List.append_nil _).symm
  clean := fun hclean _ ↦ hclean

/-- A new cache that holds what the old one held. -/
def KeepsContent (order : BitOrder) (bs : BsWriter) (bitCache : BitVec 64) : Prop :=
  Clean bs → bs.bitsInCache < 64 →
    content order { bs with bitCache := bitCache } = content order bs ∧
      Clean { bs with bitCache := bitCache }

/-- A change of the cache that keeps the content may come first. -/
theorem Appends.of_cache {bitCache : BitVec 64} (hcache : KeepsContent order bs bitCache)
    (h : Appends order field { bs with bitCache := bitCache } after) :
    Appends order field bs after where
  drains := h.drains
  content_eq := by
    intro hclean hfew
    obtain ⟨hcontent, hclean'⟩ := hcache hclean (by omega)
    rw [h.content_eq hclean' hfew, hcontent]
  clean := by
    intro hclean hfew
    exact h.clean (hcache hclean (by omega)).2 hfew

/-- The bits of a field that were put in the cache are appended by counting them and draining. -/
theorem queueBits_appends {dump : BsWriter → Eval BsWriter} (hdumps : Dumps order mode dump)
    (h : WriterInv bs) (field : List Bool) (hfield : field.length ≤ 32) (bitCache : BitVec 64)
    (hpush : Clean bs → bs.bitsInCache + field.length < 64 →
      queued order (bs.bitsInCache + field.length) bitCache =
          queued order bs.bitsInCache bs.bitCache ++ field ∧
        bitCache.toNat < 2 ^ (bs.bitsInCache + field.length)) :
    Appends order field bs ((queueBits dump bs bitCache field.length).value mode) := by
  have hfits := fits_counted h.toFits bitCache field.length
  have hroom := roomBounded_counted h bitCache hfield
  have hcontent (hclean : Clean bs) (hfew : bs.bitsInCache + field.length < 64) :
      content order (counted bs bitCache field.length) = content order bs ++ field ∧
        Clean (counted bs bitCache field.length) := by
    have hcount : (bs.bitsInCache + field.length) % 2 ^ 32 = bs.bitsInCache + field.length :=
      Nat.mod_eq_of_lt (by omega)
    obtain ⟨hqueue, hlt⟩ := hpush hclean hfew
    constructor
    · rw [content, counted, hcount, hqueue, content, List.append_assoc]
    · rw [Clean, counted, hcount]
      exact hlt
  have hvalue : (queueBits dump bs bitCache field.length).value mode =
      if (counted bs bitCache field.length).bitsInCache ≥ 8 then
        (dump (counted bs bitCache field.length)).value mode
      else counted bs bitCache field.length :=
    Eval.value_ite mode _ _ _
  rw [hvalue]
  by_cases hbyte : (counted bs bitCache field.length).bitsInCache ≥ 8
  · rw [if_pos hbyte]
    have hdrains := hdumps.drains hfits hroom
    have hfit (hfew : bs.bitsInCache + field.length < 64) :
        ((dump (counted bs bitCache field.length)).value mode).bitsInCache < 64 := by
      have hcount := hdrains.count_eq
      have hle := hdrains.bytePos_le
      have hbits : (counted bs bitCache field.length).bitsInCache ≤ bs.bitsInCache + field.length :=
        Nat.mod_le _ _
      omega
    refine ⟨⟨bitCache, hdrains⟩, fun hclean hfew ↦ ?_, fun hclean hfew ↦ ?_⟩
    · rw [hdumps.content_eq hfits hroom (hfit hfew), (hcontent hclean hfew).1]
    · exact hdumps.clean hfits hroom (hcontent hclean hfew).2 (hfit hfew)
  · rw [if_neg hbyte]
    exact ⟨⟨bitCache, .of_lt hfits (by omega)⟩, fun hclean hfew ↦ (hcontent hclean hfew).1,
      fun hclean hfew ↦ (hcontent hclean hfew).2⟩

/-! ### The write functions -/

/-- A word that agrees with a number modulo the width queues the field of the number. -/
theorem queued_eq_fieldBits (order : BitOrder) {word : BitVec 64} {v : ℕ}
    (h : word.toNat = v % 2 ^ n) : queued order n word = fieldBits order n v := by
  refine fieldBits_congr order fun i hi ↦ ?_
  rw [h, Nat.testBit_mod_two_pow, decide_eq_true hi, Bool.true_and]

theorem cleanValue_ensures (mode : Overshift) (value : BitVec 32) (hn : n ≤ 32) :
    Eval.Ensures mode (cleanValue value n) fun clean ↦ clean.toNat = value.toNat % 2 ^ n := by
  refine (Eval.ensures_shiftLeft (by omega)).bind_eq ?_
  apply Eval.ensures_pure
  have hmask := toNat_and_lowMask (value.setWidth 64) (n := n) (by omega)
  rw [lowMask] at hmask
  rw [hmask, BitVec.toNat_setWidth, Nat.mod_eq_of_lt (value.isLt.trans (by norm_num))]

/-- A clean field enters the most significant first cache below the bits it holds. -/
theorem msb_push {clean : BitVec 64} {v : ℕ} (hfield : clean.toNat = v % 2 ^ n) (hclean : Clean bs)
    (hfew : bs.bitsInCache + n < 64) :
    queued .msb (bs.bitsInCache + n) (bs.bitCache <<< n ||| clean) =
        queued .msb bs.bitsInCache bs.bitCache ++ fieldBits .msb n v ∧
      (bs.bitCache <<< n ||| clean).toNat < 2 ^ (bs.bitsInCache + n) := by
  have hlt : clean.toNat < 2 ^ n := by
    rw [hfield]
    exact Nat.mod_lt _ (Nat.two_pow_pos n)
  constructor
  · rw [queued_msb_push _ _ hfew.le hlt, queued_eq_fieldBits .msb hfield]
  · exact toNat_msb_push_lt _ _ hfew.le hclean hlt

/-- A clean field enters the least significant first cache above the bits it holds. -/
theorem lsb_push {clean : BitVec 64} {v : ℕ} (hfield : clean.toNat = v % 2 ^ n) (hclean : Clean bs)
    (hfew : bs.bitsInCache + n < 64) :
    queued .lsb (bs.bitsInCache + n) (bs.bitCache ||| clean <<< bs.bitsInCache) =
        queued .lsb bs.bitsInCache bs.bitCache ++ fieldBits .lsb n v ∧
      (bs.bitCache ||| clean <<< bs.bitsInCache).toNat < 2 ^ (bs.bitsInCache + n) := by
  have hlt : clean.toNat < 2 ^ n := by
    rw [hfield]
    exact Nat.mod_lt _ (Nat.two_pow_pos n)
  constructor
  · rw [queued_lsb_push _ _ hfew.le hclean, queued_eq_fieldBits .lsb hfield]
  · exact toNat_lsb_push_lt _ _ hfew.le hclean hlt

theorem push_ensures (order : BitOrder) {clean : BitVec 64} {v : ℕ}
    (hfield : clean.toNat = v % 2 ^ n) (hclean : Clean bs) (hfew : bs.bitsInCache + n < 64) :
    Eval.Ensures mode (push order bs clean n) fun bitCache ↦
      queued order (bs.bitsInCache + n) bitCache =
          queued order bs.bitsInCache bs.bitCache ++ fieldBits order n v ∧
        bitCache.toNat < 2 ^ (bs.bitsInCache + n) := by
  cases order with
  | msb =>
    refine ((Eval.ensures_shiftLeft (by omega)).mono fun shifted hshifted ↦ ?_).map
    rw [hshifted]
    exact msb_push hfield hclean hfew
  | lsb =>
    refine ((Eval.ensures_shiftLeft (by omega)).mono fun shifted hshifted ↦ ?_).map
    rw [hshifted]
    exact lsb_push hfield hclean hfew

/-- A clean field is appended by pushing it and counting its bits. -/
theorem push_appends (order : BitOrder) (h : WriterInv bs) {clean : BitVec 64} {v : ℕ}
    (hfield : clean.toNat = v % 2 ^ n) (hn : n ≤ 32) :
    Appends order (fieldBits order n v) bs
      ((queueBits (dump order) bs ((push order bs clean n).value mode) n).value mode) := by
  have happends := queueBits_appends (dump_dumps order mode) h (fieldBits order n v)
    (by rwa [length_fieldBits]) ((push order bs clean n).value mode)
  simp only [length_fieldBits] at happends
  exact happends fun hclean hfew ↦ (push_ensures order hfield hclean hfew).post

theorem bsWriteBit_appends (h : WriterInv bs) (value : BitVec 8) :
    Appends .msb (fieldBits .msb 1 value.toNat) bs ((bsWriteBit bs value).value mode) := by
  have hfield : ((value &&& 1#8).setWidth 64).toNat = value.toNat % 2 ^ 1 := by
    have hmask : (value &&& 1#8).toNat = value.toNat % 2 ^ 1 :=
      toNat_and_lowMask value (n := 1) (by norm_num)
    rw [BitVec.toNat_setWidth, hmask]
    omega
  rw [bsWriteBit_eq, Eval.value_bind]
  exact push_appends .msb h hfield (by norm_num)

/-- What the checked write of an order does. -/
def Writes (order : BitOrder) (mode : Overshift)
    (write : BsWriter → BitVec 32 → ℕ → Eval BsWriter) : Prop :=
  ∀ {bs : BsWriter} {n : ℕ} (value : BitVec 32), WriterInv bs → n ≤ 32 →
    Appends order (fieldBits order n value.toNat) bs ((write bs value n).value mode)

theorem write_writes (order : BitOrder) (mode : Overshift) : Writes order mode (write order) := by
  intro bs n value h hn
  rw [write_eq]
  by_cases hzero : n = 0
  · rw [if_pos hzero, hzero, fieldBits_zero]
    exact .nil h
  · have hclean := (cleanValue_ensures mode value hn).post
    rw [if_neg hzero, Eval.value_bind, Eval.value_bind]
    exact push_appends order h hclean hn

/-! ### Align and flush -/

section Padding

variable {dump : BsWriter → Eval BsWriter} {write : BsWriter → BitVec 32 → ℕ → Eval BsWriter}

/-- Writing a zero appends zeros. -/
theorem write_zero_appends (hwrites : Writes order mode write) (h : WriterInv bs) (hn : n ≤ 32) :
    Appends order (List.replicate n false) bs ((write bs 0 n).value mode) := by
  have hzero : (0 : BitVec 32).toNat = 0 := rfl
  have happends := hwrites 0 h hn
  rwa [hzero, fieldBits_zero_value] at happends

theorem align_appends (hwrites : Writes order mode write) (h : WriterInv bs) :
    Appends order (List.replicate (padding 8 bs.bitsInCache) false) bs
      ((align write bs).value mode) := by
  unfold align
  rw [Eval.value_ite]
  by_cases hres : bs.bitsInCache % 8 > 0
  · rw [if_pos hres, padding_of_mod_ne_zero (by norm_num) (by omega)]
    exact write_zero_appends hwrites h (by omega)
  · rw [if_neg hres, (padding_eq_zero_iff (by norm_num) _).mpr (by omega)]
    exact .nil h

/-- A dump between two calls changes at most the cache, and keeps what it holds. -/
theorem dump_between (hdumps : Dumps order mode dump) (h : WriterInv bs) :
    ∃ bitCache, (dump bs).value mode = { bs with bitCache := bitCache } ∧
      KeepsContent order bs bitCache := by
  have hsame := (hdumps.drains h.toFits h.roomBounded).eq_of_inv h
  refine ⟨_, hsame, fun hclean hfew ↦ ?_⟩
  have hfit : ((dump bs).value mode).bitsInCache < 64 := by
    rw [hsame]
    exact hfew
  rw [← hsame]
  exact ⟨hdumps.content_eq h.toFits h.roomBounded hfit,
    hdumps.clean h.toFits h.roomBounded hclean hfit⟩

/-- The three ways in which a flush between two calls ends. -/
inductive FlushEnds (order : BitOrder) (mode : Overshift)
    (write : BsWriter → BitVec 32 → ℕ → Eval BsWriter) (bs : BsWriter) (flushed : Eval BsWriter) :
    Prop
  /-- No bit is pending: nothing happens. -/
  | empty (hnone : bs.bitsInCache = 0) (hvalue : flushed.value mode = bs)
    (hdefined : flushed.Defined mode) : FlushEnds order mode write bs flushed
  /-- A full buffer has left a byte or more in the cache: no bit is queued. -/
  | stuck (hbyte : 8 ≤ bs.bitsInCache) (bitCache : BitVec 64)
    (hcache : KeepsContent order bs bitCache)
    (hvalue : flushed.value mode = { bs with bitCache := bitCache })
    (hdefined : flushed.Defined mode ↔ (order = .msb → bs.bitsInCache < 64)) :
    FlushEnds order mode write bs flushed
  /-- Zeros complete the last byte. -/
  | pads (hlt : bs.bitsInCache < 8) (bitCache : BitVec 64)
    (hcache : KeepsContent order bs bitCache)
    (hvalue : flushed.value mode =
      (write { bs with bitCache := bitCache } 0 (padding 8 bs.bitsInCache)).value mode)
    (hdefined : flushed.Defined mode ↔
      (write { bs with bitCache := bitCache } 0 (padding 8 bs.bitsInCache)).Defined mode) :
    FlushEnds order mode write bs flushed

theorem flush_ends (hdumps : Dumps order mode dump)
    (write : BsWriter → BitVec 32 → ℕ → Eval BsWriter) (h : WriterInv bs) :
    FlushEnds order mode write bs (flush dump write bs) := by
  -- The padding of a writer with one to seven bits in its cache.
  have hpad (bitCache : BitVec 64) (hpos : bs.bitsInCache ≠ 0) (hlt : bs.bitsInCache < 8)
      {flushed : Eval BsWriter} (hcache : KeepsContent order bs bitCache)
      (hvalue : flushed.value mode = (write { bs with bitCache := bitCache } 0
        ((Eval.sub 32 8 bs.bitsInCache).value mode)).value mode)
      (hdefined : flushed.Defined mode ↔ (Eval.sub 32 8 bs.bitsInCache).Defined mode ∧
        (write { bs with bitCache := bitCache } 0
          ((Eval.sub 32 8 bs.bitsInCache).value mode)).Defined mode) :
      FlushEnds order mode write bs flushed := by
    have hmod : bs.bitsInCache % 8 = bs.bitsInCache := Nat.mod_eq_of_lt hlt
    have hcount : (Eval.sub 32 8 bs.bitsInCache).value mode = padding 8 bs.bitsInCache := by
      rw [Eval.value_sub mode 32 hlt.le, padding_of_mod_ne_zero (by norm_num) (by omega), hmod]
    rw [hcount] at hvalue hdefined
    rw [Eval.defined_sub, and_iff_right hlt.le] at hdefined
    exact .pads hlt bitCache hcache hvalue hdefined
  unfold flush
  by_cases hzero : bs.bitsInCache = 0
  · rw [if_pos hzero]
    exact .empty hzero rfl (Eval.defined_pure _ _)
  · rw [if_neg hzero]
    by_cases hretry : bs.overflow ∨ bs.bitsInCache ≥ 8
    · obtain ⟨bitCache, hdump, hcache⟩ := dump_between hdumps h
      have hiff := hdumps.defined_iff h.toFits h.roomBounded
      rw [hdump] at hiff
      rw [if_pos hretry]
      by_cases hbyte : bs.bitsInCache ≥ 8
      · have hoverflow := (h.bytePos_eq hbyte).2
        refine .stuck hbyte bitCache hcache ?_ ?_
        · rw [Eval.value_bind, hdump, if_neg hzero, if_pos hbyte, ← hoverflow]
          rfl
        · rw [Eval.defined_bind, hdump, if_neg hzero, if_pos hbyte, hiff]
          exact and_iff_left (Eval.defined_pure _ _)
      · have hdefined : (dump bs).Defined mode := hiff.mpr fun _ ↦ (by omega : bs.bitsInCache < 64)
        refine hpad bitCache hzero (by omega) hcache ?_ ?_
        · rw [Eval.value_bind, hdump, if_neg hzero, if_neg hbyte]
          rfl
        · rw [Eval.defined_bind, hdump, if_neg hzero, if_neg hbyte, and_iff_right hdefined]
          exact Eval.defined_bind mode _ _
    · rw [if_neg hretry]
      exact hpad bs.bitCache hzero (by omega) (fun hclean _ ↦ ⟨rfl, hclean⟩) rfl
        (Eval.defined_bind mode _ _)

/-- A flush pads the last byte, unless a full buffer has left a byte or more in the cache. -/
theorem flush_appends (hdumps : Dumps order mode dump) (hwrites : Writes order mode write)
    (h : WriterInv bs) :
    Appends order
      (List.replicate (if 8 ≤ bs.bitsInCache then 0 else padding 8 bs.bitsInCache) false) bs
      ((flush dump write bs).value mode) := by
  cases flush_ends hdumps write h with
  | empty hnone hvalue =>
    rw [hvalue, hnone]
    exact .nil h
  | stuck hbyte bitCache hcache hvalue =>
    rw [hvalue, if_pos hbyte]
    exact .of_cache hcache (.nil (h.with_cache bitCache))
  | pads hlt bitCache hcache hvalue =>
    have hpadding : padding 8 bs.bitsInCache < 8 := padding_lt (by norm_num) bs.bitsInCache
    rw [hvalue, if_neg (by omega)]
    exact .of_cache hcache (write_zero_appends hwrites (h.with_cache bitCache) (by omega))

end Padding

/-! ### Bulk transfer -/

/-- The three ways in which `bs_write_bytes` ends. -/
inductive BlockWrite (bs : BsWriter) (src : List (BitVec 8)) : Bool × BsWriter → Prop
  /-- Bits are pending, or the overflow flag is up: nothing happens. -/
  | rejected (h : bs.bitsInCache ≠ 0 ∨ bs.overflow = true) : BlockWrite bs src (false, bs)
  /-- The block does not fit: the overflow flag goes up and nothing is written. -/
  | refused (haligned : bs.bitsInCache = 0) (hopen : bs.overflow = false)
    (hlong : bs.size - bs.bytePos < src.length) :
    BlockWrite bs src (false, { bs with overflow := true })
  /-- The block is written. -/
  | stored (haligned : bs.bitsInCache = 0) (hopen : bs.overflow = false)
    (hfit : bs.bytePos + src.length ≤ bs.size) :
    BlockWrite bs src (true,
      { bs with
        buffer := bs.buffer.take bs.bytePos ++ src ++ bs.buffer.drop (bs.bytePos + src.length)
        bytePos := bs.bytePos + src.length })

/-- Under the overflow flag nothing happens. -/
theorem BlockWrite.eq_of_overflow {src : List (BitVec 8)} {written : Bool × BsWriter}
    (hwrite : BlockWrite bs src written) (hflag : bs.overflow = true) : written.2 = bs := by
  cases hwrite with
  | rejected => rfl
  | refused _ hopen | stored _ hopen => exact absurd (hopen.symm.trans hflag) Bool.false_ne_true

theorem bsWriteBytes_ensures (mode : Overshift) (sizeT : SizeT) (h : Fits bs)
    (src : List (BitVec 8)) :
    Eval.Ensures mode (bsWriteBytes sizeT bs src) (BlockWrite bs src) := by
  have hle := h.bytePos_le
  unfold bsWriteBytes
  by_cases haligned : bs.bitsInCache ≠ 0
  · rw [if_pos haligned]
    exact Eval.ensures_pure (.rejected (.inl haligned))
  · rw [if_neg haligned]
    by_cases hopen : bs.overflow = true
    · rw [if_pos hopen]
      exact Eval.ensures_pure (.rejected (.inr hopen))
    · rw [if_neg hopen]
      have hclosed : bs.overflow = false := Bool.eq_false_iff.mpr hopen
      refine (Eval.ensures_sub _ hle).bind_eq ?_
      by_cases hlong : src.length > bs.size - bs.bytePos
      · rw [if_pos hlong]
        exact Eval.ensures_pure (.refused (by omega) hclosed hlong)
      · rw [if_neg hlong]
        have hfit : bs.bytePos + src.length ≤ bs.size := by omega
        refine (Eval.ensures_storeBlock hfit).bind_eq ?_
        exact Eval.ensures_pure (.stored (by omega) hclosed hfit)

theorem BlockWrite.inv {src : List (BitVec 8)} {written : Bool × BsWriter}
    (hwrite : BlockWrite bs src written) (h : WriterInv bs) : WriterInv written.2 := by
  cases hwrite with
  | rejected => exact h
  | refused haligned => exact ⟨⟨h.size_eq, h.bytePos_le⟩, h.bits_lt, .inl (by simp [haligned])⟩
  | stored haligned hopen hfit =>
    refine ⟨⟨?_, hfit⟩, h.bits_lt, .inl (by simp [haligned])⟩
    have hsize := h.size_eq
    show bs.size =
      (bs.buffer.take bs.bytePos ++ src ++ bs.buffer.drop (bs.bytePos + src.length)).length
    rw [List.length_append, List.length_append, List.length_take, List.length_drop]
    omega

/-! ### The bit-level calls -/

/-- The checked bit-level calls of one order with widths of at most 32. -/
def BitCall (order : BitOrder) : WriterCall → Prop
  | .writeBit _ => order = .msb
  | .writeBits o _ n => o = order ∧ n ≤ 32
  | .align o | .flush o => o = order
  | .writeBitsUnchecked _ _ _ | .writeBytes _ => False

instance (order : BitOrder) : DecidablePred (BitCall order)
  | .writeBit _ => inferInstanceAs (Decidable (order = .msb))
  | .writeBits o _ n => inferInstanceAs (Decidable (o = order ∧ n ≤ 32))
  | .align o | .flush o => inferInstanceAs (Decidable (o = order))
  | .writeBitsUnchecked _ _ _ | .writeBytes _ => .isFalse id

/-- The field that a bit-level call appends to a writer with some number of bits in its cache. -/
def appendedField (order : BitOrder) (bitsInCache : ℕ) : WriterCall → List Bool
  | .writeBit value => fieldBits order 1 value.toNat
  | .writeBits _ value n | .writeBitsUnchecked _ value n => fieldBits order n value.toNat
  | .align _ => List.replicate (padding 8 bitsInCache) false
  | .flush _ => List.replicate (if 8 ≤ bitsInCache then 0 else padding 8 bitsInCache) false
  | .writeBytes _ => []

/-- The number of bits that a call queues on a writer with some number of bits in its cache. -/
def queuedCount (bitsInCache : ℕ) : WriterCall → ℕ
  | .writeBit _ => 1
  | .writeBits _ _ n | .writeBitsUnchecked _ _ n => n
  | .align _ => padding 8 bitsInCache
  | .flush _ => if 8 ≤ bitsInCache then 0 else padding 8 bitsInCache
  | .writeBytes _ => 0

@[simp] theorem length_appendedField (order : BitOrder) (bitsInCache : ℕ) (call : WriterCall) :
    (appendedField order bitsInCache call).length = queuedCount bitsInCache call := by
  cases call <;> simp [appendedField, queuedCount]

theorem queuedCount_le {call : WriterCall} (hcall : BitCall order call) (bitsInCache : ℕ) :
    queuedCount bitsInCache call ≤ 32 := by
  have hpadding : padding 8 bitsInCache < 8 := padding_lt (by norm_num) bitsInCache
  cases call with
  | writeBit => exact (by norm_num : 1 ≤ 32)
  | writeBits => exact hcall.2
  | align =>
    rw [queuedCount]
    omega
  | flush =>
    rw [queuedCount]
    split_ifs <;> omega
  | writeBitsUnchecked | writeBytes => exact hcall.elim

theorem length_appendedField_le {call : WriterCall} (hcall : BitCall order call)
    (bitsInCache : ℕ) : (appendedField order bitsInCache call).length ≤ 32 := by
  rw [length_appendedField]
  exact queuedCount_le hcall bitsInCache

/-- Every bit-level call appends its field. -/
theorem writerAct_appends (sizeT : SizeT) {issued : Overshift × WriterCall}
    (hcall : BitCall order issued.2) (h : WriterInv bs) :
    Appends order (appendedField order bs.bitsInCache issued.2) bs
      (writerAct sizeT issued bs).2 := by
  obtain ⟨mode, call⟩ := issued
  unfold writerAct
  cases call with
  | writeBit value =>
    cases hcall
    exact bsWriteBit_appends h value
  | writeBits o value n =>
    obtain ⟨rfl, hn⟩ := hcall
    rw [writerStep_writeBits]
    exact write_writes o mode value h hn
  | writeBitsUnchecked => exact hcall.elim
  | align o =>
    cases hcall
    rw [writerStep_align]
    exact align_appends (write_writes order mode) h
  | flush o =>
    cases hcall
    rw [writerStep_flush]
    exact flush_appends (dump_dumps order mode) (write_writes order mode) h
  | writeBytes => exact hcall.elim

end Bitstream.Writing
