import Bitstream.Writing.OutputRefinement
import Bitstream.Writing.OverflowFreeze

/-!
# Bulk writes

While the overflow flag is down, a writer is determined by the bits it has taken and by the initial
content of its buffer (`Emitted.eq_of_open`). A block written by `bs_write_bytes` and the same bytes
written one at a time, in either order, are the same bits, so they lead to the same context, the
cache included (`bulk_write_contract`). What this takes is that the cache has no bit above the
counted ones as long as the flag is down (`TidyWriter`), which every call of either order preserves.
-/

set_option autoImplicit false
set_option relaxedAutoImplicit false

namespace Bitstream.Writing

open Foundation Header

variable {mode : Overshift} {order : BitOrder} {initial src : List (BitVec 8)}
  {bs other after : BsWriter} {bits : List Bool}

/-! ### A writer without overflow is determined by its bits -/

theorem Emitted.live (h : Emitted order initial bs bits) (hopen : bs.overflow = false) :
    Live order bs bits :=
  h.live_or_full.resolve_right fun hfull ↦
    Bool.false_ne_true (hopen.symm.trans hfull.overflow_eq)

/-- Two writers that took the same bits in buffers with the same initial content are the same,
unless a complete byte did not fit. -/
theorem Emitted.eq_of_open (h : Emitted order initial bs bits)
    (k : Emitted order initial other bits) (hopen : bs.overflow = false) : other = bs := by
  have houtput : writerOutput other = writerOutput bs := k.output_eq.trans h.output_eq.symm
  have hpos : other.bytePos = bs.bytePos := congrArg Prod.fst houtput
  have hbuffer : other.buffer = bs.buffer := congrArg (fun output ↦ output.2.1) houtput
  have hflag : other.overflow = bs.overflow := congrArg (fun output ↦ output.2.2) houtput
  have hsize : other.size = bs.size := k.capacity_eq.trans h.capacity_eq.symm
  have hlive := h.live hopen
  have klive := k.live (hflag.trans hopen)
  have hbits : other.bitsInCache = bs.bitsInCache := by
    have hlength := hlive.length_eq h.toWriterInv
    have klength := klive.length_eq k.toWriterInv
    omega
  have hcache : other.bitCache = bs.bitCache := by
    have hcontent := klive.content_eq.trans hlive.content_eq.symm
    rw [content, content, hbuffer, hpos, hbits] at hcontent
    have hclean := klive.clean
    rw [Clean, hbits] at hclean
    exact eq_of_queued_eq order hclean hlive.clean (List.append_cancel_left hcontent)
  cases other
  cases bs
  cases hpos
  cases hbuffer
  cases hflag
  cases hsize
  cases hbits
  cases hcache
  rfl

/-! ### Reachable writers -/

/-- The writer that a run from a fresh context leads to. -/
def writerAfter (sizeT : SizeT) (initial : List (BitVec 8))
    (issued : List (Overshift × WriterCall)) : BsWriter :=
  final (writerAct sizeT) issued (bsWriterInit initial initial.length)

/-- What every operation preserves: between two calls the writer is drained, and no bit stands above
the cached ones as long as the overflow flag is down. -/
structure TidyWriter (bs : BsWriter) : Prop extends WriterInv bs where
  clean : bs.overflow = false → Clean bs

theorem tidyWriter_init (initial : List (BitVec 8)) :
    TidyWriter (bsWriterInit initial initial.length) where
  toWriterInv := writerInv_init initial
  clean := fun _ ↦ Nat.zero_lt_one

theorem TidyWriter.bits_lt_of_open (h : TidyWriter bs) (hopen : bs.overflow = false) :
    bs.bitsInCache < 8 :=
  h.drained.resolve_right fun hfull ↦ Bool.false_ne_true (hopen.symm.trans hfull.2)

/-- A bulk write is answered, and the block is rejected, refused or stored. -/
theorem TidyWriter.block (sizeT : SizeT) (h : TidyWriter bs) (mode : Overshift)
    (src : List (BitVec 8)) :
    ∃ ok after, writerAct sizeT (mode, .writeBytes src) bs = (some ok, after) ∧
      BlockWrite bs src (ok, after) :=
  ⟨_, _, rfl, (bsWriteBytes_ensures mode sizeT h.toFits src).post⟩

theorem BlockWrite.tidy {written : Bool × BsWriter} (hwrite : BlockWrite bs src written)
    (h : TidyWriter bs) : TidyWriter written.2 := by
  have hinv := hwrite.inv h.toWriterInv
  cases hwrite with
  | rejected => exact h
  | refused => exact ⟨hinv, fun hopen ↦ nomatch hopen⟩
  | stored _ hopen => exact ⟨hinv, fun _ ↦ h.clean hopen⟩

theorem Appends.tidy {field : List Bool} (happends : Appends order field bs after)
    (h : TidyWriter bs) (hfield : field.length ≤ 32) : TidyWriter after where
  toWriterInv := happends.inv h.toWriterInv
  clean := by
    intro hafter
    have hopen : bs.overflow = false := by
      by_contra hflag
      rw [happends.overflow_of (Bool.not_eq_false _ ▸ hflag)] at hafter
      exact nomatch hafter
    have hlt := h.bits_lt_of_open hopen
    exact happends.clean (h.clean hopen) (by omega)

theorem TidyWriter.step (sizeT : SizeT) (issued : Overshift × WriterCall) (h : TidyWriter bs)
    (hcall : Operation issued.2) : TidyWriter (writerAct sizeT issued bs).2 := by
  rcases hcall.bit_or_block with ⟨order, hbit⟩ | ⟨src, hblock⟩
  · have happends := writerAct_appends sizeT hbit h.toWriterInv
    exact happends.tidy h (length_appendedField_le hbit bs.bitsInCache)
  · obtain ⟨mode, call⟩ := issued
    cases hblock
    obtain ⟨ok, after, hact, hwrite⟩ := h.block sizeT mode src
    rw [hact]
    exact hwrite.tidy h

theorem tidyWriter_after (sizeT : SizeT) (initial : List (BitVec 8))
    {issued : List (Overshift × WriterCall)} (hcalls : ∀ call ∈ issued, Operation call.2) :
    TidyWriter (writerAfter sizeT initial issued) := by
  have halong : Along (writerAct sizeT) (fun call _ ↦ Operation call.2) issued
      (bsWriterInit initial initial.length) :=
    .of_calls hcalls _
  exact halong.final_invariant TidyWriter (fun call _ hbs hcall ↦ hbs.step sizeT call hcall)
    (tidyWriter_init initial)

/-! ### A block and its bytes -/

/-- The writes of the bytes of a block, one at a time. -/
def bytewise (order : BitOrder) (src : List (BitVec 8)) : List WriterCall :=
  src.map fun byte ↦ .writeBits order (byte.setWidth 32) 8

theorem bitCall_of_mem_bytewise {call : WriterCall} (hcall : call ∈ bytewise order src) :
    BitCall order call := by
  obtain ⟨byte, _, rfl⟩ := List.mem_map.mp hcall
  exact ⟨rfl, by norm_num⟩

/-- The bits of a byte written as a field of eight bits are its bits. -/
theorem fieldBits_byte (order : BitOrder) (byte : BitVec 8) :
    fieldBits order 8 (byte.setWidth 32).toNat = wordBits order byte := by
  have hbyte : (byte.setWidth 32).toNat = byte.toNat := by
    rw [BitVec.toNat_setWidth, Nat.mod_eq_of_lt (byte.isLt.trans (by norm_num))]
  rw [hbyte, wordBits]

/-- The bytes of a block, written one at a time, emit the bits of the block. -/
theorem final_emit_bytewise (order : BitOrder) (src : List (BitVec 8)) (bits : List Bool) :
    final (emit order) (bytewise order src) bits = bits ++ stream order src := by
  induction src generalizing bits with
  | nil => exact (List.append_nil bits).symm
  | cons byte src ih =>
    refine (ih _).trans ?_
    rw [emit, fieldBits_byte, List.append_assoc, stream_cons]

theorem TidyWriter.emitted (h : TidyWriter bs) (hopen : bs.overflow = false) (order : BitOrder) :
    Emitted order bs.buffer bs (content order bs) where
  toWriterInv := h.toWriterInv
  capacity_eq := h.size_eq
  tail_eq := rfl
  live_or_full := .inl ⟨hopen, h.bits_lt_of_open hopen, h.clean hopen, rfl⟩

/-- A block that is stored emits its bits. -/
theorem BlockWrite.emitted (hwrite : BlockWrite bs src (true, after)) (h : TidyWriter bs)
    (order : BitOrder) :
    Emitted order bs.buffer after (content order bs ++ stream order src) := by
  have hinv := hwrite.inv h.toWriterInv
  cases hwrite with
  | stored haligned hopen hfit =>
    have hsize := h.size_eq
    have hlength : (bs.buffer.take bs.bytePos ++ src).length = bs.bytePos + src.length := by
      rw [List.length_append, List.length_take]
      omega
    refine ⟨⟨hinv, h.size_eq, ?_⟩, .inl ⟨hopen, ?_, h.clean hopen, ?_⟩⟩
    · exact List.drop_left' hlength
    · show bs.bitsInCache < 8
      omega
    · have htake : (bs.buffer.take bs.bytePos ++ src ++
          bs.buffer.drop (bs.bytePos + src.length)).take (bs.bytePos + src.length) =
          bs.buffer.take bs.bytePos ++ src := List.take_left' hlength
      rw [content, content, htake, haligned, queued_zero, stream_append, List.append_nil,
        List.append_nil]

/-- The bytes of a block that is stored, written one at a time in any order, lead to the same
writer. -/
theorem BlockWrite.final_bytewise (sizeT : SizeT) (hwrite : BlockWrite bs src (true, after))
    (h : TidyWriter bs) (hopen : bs.overflow = false) {issued : List (Overshift × WriterCall)}
    (hissued : issued.map Prod.snd = bytewise order src) :
    final (writerAct sizeT) issued bs = after := by
  have hcalls : ∀ call ∈ issued, BitCall order call.2 := fun call hcall ↦
    bitCall_of_mem_bytewise (hissued ▸ List.mem_map_of_mem hcall)
  have halong : Along (writerAct sizeT) (fun call _ ↦ BitCall order call.2) issued bs :=
    .of_calls hcalls _
  have hbytes := final_related (R := Emitted order bs.buffer) Prod.snd
    (fun call s bits hrel hcall ↦ hrel.step sizeT hcall) halong (h.emitted hopen order)
  rw [hissued, final_emit_bytewise] at hbytes
  have hafter : after.overflow = false := by
    cases hwrite
    exact hopen
  exact (hwrite.emitted h order).eq_of_open hbytes hafter

/-! ### The contract -/

/-- After an align or a flush of a writer without overflow, either overflow is up or no bit is
pending. -/
theorem TidyWriter.align_or_flush (sizeT : SizeT) (h : TidyWriter bs) (hopen : bs.overflow = false)
    {issued : Overshift × WriterCall}
    (hcall : issued.2 = .align order ∨ issued.2 = .flush order) :
    (writerAct sizeT issued bs).2.overflow = true ∨
      (writerAct sizeT issued bs).2.bitsInCache = 0 := by
  have hlt := h.bits_lt_of_open hopen
  have hbit : BitCall order issued.2 := by
    rcases hcall with hcall | hcall <;> rw [hcall] <;> rfl
  have hcount : queuedCount bs.bitsInCache issued.2 = padding 8 bs.bitsInCache := by
    rcases hcall with hcall | hcall
    · rw [hcall]
      rfl
    · rw [hcall]
      exact if_neg (by omega)
  have happends := writerAct_appends sizeT hbit h.toWriterInv
  have hbytes := happends.count_eq
  rw [length_appendedField, hcount] at hbytes
  have hpadding : (bs.bitsInCache + padding 8 bs.bitsInCache) % 8 = 0 := by
    unfold padding
    omega
  have hless : padding 8 bs.bitsInCache < 8 := padding_lt (by norm_num) bs.bitsInCache
  rcases (happends.inv h.toWriterInv).drained with hafter | ⟨_, hflag⟩
  · right
    omega
  · exact .inl hflag

/-- In every writer that a run of checked calls leads to: an align or a flush without overflow ends
with overflow or with no bit pending; a block that fits is written whole, and leaves the context
that writing its bytes one at a time in either order leaves, the cache included; a block that does
not fit raises overflow and changes nothing else; and with bits pending or overflow up a block is
rejected and changes nothing. Assumes: the calls of the run are `bs_write_bit`, writes of both
orders with widths of at most 32, aligns, flushes and bulk writes; the order may change at any call.
-/
theorem bulk_write_contract (sizeT : SizeT) (initial : List (BitVec 8))
    (issued : List (Overshift × WriterCall)) (hcalls : ∀ call ∈ issued, Operation call.2) :
    let bs := writerAfter sizeT initial issued
    (bs.overflow = false → ∀ (mode : Overshift) (order : BitOrder) (call : WriterCall),
      call = .align order ∨ call = .flush order →
        (writerAct sizeT (mode, call) bs).2.overflow = true ∨
          (writerAct sizeT (mode, call) bs).2.bitsInCache = 0) ∧
    (bs.overflow = false → bs.bitsInCache = 0 → ∀ (mode : Overshift) (src : List (BitVec 8)),
      src.length ≤ bs.size - bs.bytePos →
        (writerAct sizeT (mode, .writeBytes src) bs).1 = some true ∧
          ∀ (order : BitOrder) (single : List (Overshift × WriterCall)),
            single.map Prod.snd = bytewise order src →
              final (writerAct sizeT) single bs =
                (writerAct sizeT (mode, .writeBytes src) bs).2) ∧
    (bs.overflow = false → bs.bitsInCache = 0 → ∀ (mode : Overshift) (src : List (BitVec 8)),
      bs.size - bs.bytePos < src.length →
        writerAct sizeT (mode, .writeBytes src) bs = (some false, { bs with overflow := true })) ∧
    (bs.overflow = true ∨ bs.bitsInCache ≠ 0 → ∀ (mode : Overshift) (src : List (BitVec 8)),
      writerAct sizeT (mode, .writeBytes src) bs = (some false, bs)) := by
  intro bs
  have htidy : TidyWriter bs := tidyWriter_after sizeT initial hcalls
  have hle := htidy.bytePos_le
  refine ⟨fun hopen mode order call hcall ↦ htidy.align_or_flush sizeT hopen hcall,
    fun hopen hnone mode src hfit ↦ ?_, fun hopen hnone mode src hlong ↦ ?_,
    fun hclosed mode src ↦ ?_⟩
  · obtain ⟨ok, after, hact, hwrite⟩ := htidy.block sizeT mode src
    rw [hact]
    cases hwrite with
    | rejected hclosed => simp [hopen, hnone] at hclosed
    | refused _ _ hlong => omega
    | stored haligned _ hroom =>
      exact ⟨rfl, fun order single hsingle ↦
        (BlockWrite.stored haligned hopen hroom).final_bytewise sizeT htidy hopen hsingle⟩
  · obtain ⟨ok, after, hact, hwrite⟩ := htidy.block sizeT mode src
    rw [hact]
    cases hwrite with
    | rejected hclosed => simp [hopen, hnone] at hclosed
    | refused => rfl
    | stored _ _ hroom => omega
  · obtain ⟨ok, after, hact, hwrite⟩ := htidy.block sizeT mode src
    rw [hact]
    cases hwrite with
    | rejected => rfl
    | refused haligned hopen | stored haligned hopen => simp [hopen, haligned] at hclosed

/-- After eleven bits, an align and a change of order, a block of two bytes is written into four
bytes. -/
theorem bulk_write_contract_two_bytes :
    (writerAct sizeT64 (.masked, .writeBytes [0xA7, 0x19])
        (writerAfter sizeT64 [1, 2, 3, 4]
          ([.writeBits .msb 5 3, .writeBits .msb 0xFF 8, .align .msb].map
            (Prod.mk .masked)))).1 = some true ∧
      ∀ (order : BitOrder) (single : List (Overshift × WriterCall)),
        single.map Prod.snd = bytewise order [0xA7, 0x19] →
          final (writerAct sizeT64) single
              (writerAfter sizeT64 [1, 2, 3, 4]
                ([.writeBits .msb 5 3, .writeBits .msb 0xFF 8, .align .msb].map
                  (Prod.mk .masked))) =
            (writerAct sizeT64 (.masked, .writeBytes [0xA7, 0x19])
              (writerAfter sizeT64 [1, 2, 3, 4]
                ([.writeBits .msb 5 3, .writeBits .msb 0xFF 8, .align .msb].map
                  (Prod.mk .masked)))).2 :=
  (bulk_write_contract sizeT64 [1, 2, 3, 4] _ (by decide)).2.1 (by decide) (by decide) .masked _
    (by decide)

end Bitstream.Writing
