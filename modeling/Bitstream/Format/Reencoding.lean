import Bitstream.Format.RoundTrip

/-!
# Encoding undoes decoding

Any bytes, cut into fields anywhere: reading the fields and writing them back with the same widths
gives the bytes back, up to the bits of the last byte that were not read, which the flush writes as
zeros. On the ideal side this is one induction over the fields (`fields_reemitted`): what the sink
emits for the replies of the cursor is what the cursor has passed.
-/

set_option autoImplicit false
set_option relaxedAutoImplicit false

namespace Bitstream.Format

open Foundation Header Reading Writing

/-- The number of bits of a list of fields. -/
def totalWidth (widths : List (Fin 33)) : ℕ := (widths.map Fin.val).sum

/-- The calls that read fields of these widths. -/
def fieldReads (order : BitOrder) (widths : List (Fin 33)) : List ReaderCall :=
  widths.map fun width : Fin 33 ↦ .readBits order width

/-- The value of a reply that is a field. -/
def replyValue : ReaderReply → BitVec 32
  | .field value => value
  | .done | .bit _ | .block _ _ => 0

/-- The call that writes a field that was read. -/
def fieldWrite (order : BitOrder) (reply : ReaderReply) (width : Fin 33) : WriterCall :=
  .writeBits order (replyValue reply) width

/-- The calls that write the fields that were read, and the flush behind them. -/
def fieldWrites (order : BitOrder) (replies : List ReaderReply) (widths : List (Fin 33)) :
    List WriterCall :=
  List.zipWith (fieldWrite order) replies widths ++ [.flush order]

/-- The bytes that begin with the first `total` bits, with the other bits of the last byte
cleared. -/
def keptBytes (order : BitOrder) (total : ℕ) (input : List (BitVec 8)) : List (BitVec 8) :=
  input.take (total / 8) ++
    if total % 8 = 0 then []
    else [input.getD (total / 8) default &&& headMask order 8 (total % 8)]

/-- The kept bytes are the first bits, padded with zeros. -/
theorem stream_keptBytes (order : BitOrder) {total : ℕ} {input : List (BitVec 8)}
    (hfit : total ≤ 8 * input.length) :
    stream order (keptBytes order total input) = padded 8 ((stream order input).take total) := by
  have hsplit : (stream order input).take total =
      stream order (input.take (total / 8)) ++
        (stream order (input.drop (total / 8))).take (total % 8) := by
    conv_lhs => rw [← Nat.div_add_mod total 8, List.take_add]
    rw [stream_take, stream_drop]
  have hlength : ((stream order input).take total).length = total := by
    rw [List.length_take, length_stream, Nat.min_eq_left hfit]
  rw [padded, hlength, hsplit, keptBytes]
  by_cases hwhole : total % 8 = 0
  · rw [if_pos hwhole, hwhole, (padding_eq_zero_iff (by norm_num) total).mpr hwhole]
    simp
  · have hlt : total / 8 < input.length := by omega
    have hlast : (stream order (input.drop (total / 8))).take (total % 8) =
        (wordBits order (input.getD (total / 8) default)).take (total % 8) := by
      rw [List.drop_eq_getElem_cons hlt, stream_cons, List.getD_eq_getElem _ _ hlt,
        List.take_append_of_le_length (by rw [length_wordBits]; omega)]
    rw [if_neg hwhole, padding_of_mod_ne_zero (by norm_num) hwhole, stream_append, stream_cons,
      stream_nil, List.append_nil, wordBits_and_headMask order _ (by omega), hlast,
      List.append_assoc]

theorem length_keptBytes (order : BitOrder) {total : ℕ} {input : List (BitVec 8)}
    (hfit : total ≤ 8 * input.length) :
    (keptBytes order total input).length = (total + 7) / 8 := by
  rw [keptBytes, List.length_append, List.length_take, Nat.min_eq_left (by omega)]
  by_cases hwhole : total % 8 = 0
  · rw [if_pos hwhole, List.length_nil]
    omega
  · rw [if_neg hwhole, List.length_singleton]
    omega

theorem fieldReads_bitCall (order : BitOrder) (widths : List (Fin 33)) :
    ∀ call ∈ fieldReads order widths, Reading.BitCall order call := by
  intro call hcall
  obtain ⟨width, _, rfl⟩ := List.mem_map.mp hcall
  exact ⟨rfl, Nat.le_of_lt_succ width.isLt⟩

theorem fieldWrites_bitCall (order : BitOrder) (replies : List ReaderReply)
    (widths : List (Fin 33)) :
    ∀ call ∈ fieldWrites order replies widths, Writing.BitCall order call := by
  intro call hcall
  rcases List.mem_append.mp hcall with hfield | hend
  · rw [← List.map_uncurry_zip_eq_zipWith] at hfield
    obtain ⟨⟨reply, width⟩, _, rfl⟩ := List.mem_map.mp hfield
    exact ⟨rfl, Nat.le_of_lt_succ width.isLt⟩
  · obtain rfl := List.mem_singleton.mp hend
    exact rfl

/-- What the sink emits for the replies of the cursor is what the cursor reads, by induction on the
fields. -/
theorem fields_reemitted (order : BitOrder) (widths : List (Fin 33)) {c : Cursor}
    (hfit : totalWidth widths ≤ c.left) (bits : List Bool) :
    final (emit order)
        (List.zipWith (fieldWrite order)
          ((trace Cursor.step (fieldReads order widths) c).map Prod.fst) widths) bits =
      bits ++ (c.rest order).take (totalWidth widths) := by
  induction widths generalizing c bits with
  | nil =>
    show bits = bits ++ (c.rest order).take 0
    rw [List.take_zero, List.append_nil]
  | cons width widths ih =>
    have hsum : totalWidth (width :: widths) = width + totalWidth widths := by
      rw [totalWidth, List.map_cons, List.sum_cons]
      rfl
    rw [hsum] at hfit ⊢
    have hwidth : (width : ℕ) ≤ c.left := by omega
    have hfield : ((c.rest order).take width).length = width := by
      rw [List.length_take, Cursor.length_rest, Nat.min_eq_left hwidth]
    have hvalue : fieldBits order width (c.peek order width).toNat = (c.rest order).take width := by
      have hsmall : fieldValue order ((c.rest order).take width) < 2 ^ 32 := by
        refine (fieldValue_lt order _).trans_le (Nat.pow_le_pow_right (by norm_num) ?_)
        rw [hfield]
        exact Nat.le_of_lt_succ width.isLt
      rw [Cursor.peek, if_pos hwidth, BitVec.toNat_ofNat, Nat.mod_eq_of_lt hsmall,
        fieldBits_fieldValue order hfield]
    have hleft : totalWidth widths ≤ (c.advance width hwidth).left := by
      rw [Cursor.left] at hfit ⊢
      rw [Cursor.advance_buffer, Cursor.advance_pos]
      omega
    have htail := ih hleft (bits ++ fieldBits order width (c.peek order width).toNat)
    rw [Cursor.advance_rest, ← Cursor.read_of_le hwidth] at htail
    refine htail.trans ?_
    rw [hvalue, List.append_assoc, ← List.take_add]

/-- The cursor and the sink: fields read from the start and written back are the kept bytes. -/
theorem kept_reemitted (order : BitOrder) {widths : List (Fin 33)} {input : List (BitVec 8)}
    (hfit : totalWidth widths ≤ 8 * input.length) :
    final (emit order)
        (fieldWrites order
          ((trace Cursor.step (fieldReads order widths) (Cursor.start input)).map Prod.fst) widths)
        [] =
      stream order (keptBytes order (totalWidth widths) input) := by
  have hleft : totalWidth widths ≤ (Cursor.start input).left := hfit
  rw [fieldWrites, final_append, fields_reemitted order widths hleft [],
    stream_keptBytes order hfit]
  rfl

/-- Encoding undoes decoding: any bytes, cut into fields of any widths that fit, are written back as
they were, with the bits of the last byte that were not read cleared, into exactly as many bytes as
the bits need and without overflow. Assumes: the widths fit the input, the bytes fit the writer, the
reader reads the fields in turn, and the writer writes its replies with the same widths and
flushes. -/
theorem encoding_undoes_decoding (sizeT : SizeT) (order : BitOrder) (widths : List (Fin 33))
    (input initial : List (BitVec 8)) (hfit : totalWidth widths ≤ 8 * input.length)
    (hroom : (totalWidth widths + 7) / 8 ≤ initial.length)
    (read : List (Overshift × ReaderCall)) (hread : read.map Prod.snd = fieldReads order widths)
    (written : List (Overshift × WriterCall))
    (hwritten : written.map Prod.snd = fieldWrites order
      ((trace (readerAct sizeT) read (bsReaderInit input input.length)).map Prod.fst) widths)
    (bs : BsWriter)
    (hbs : bs = final (writerAct sizeT) written (bsWriterInit initial initial.length)) :
    bs.overflow = false ∧ bsWriterBytesWritten bs = (totalWidth widths + 7) / 8 ∧
      writtenBytes bs = keptBytes order (totalWidth widths) input := by
  have hreads := fieldReads_bitCall order widths
  rw [← hread, List.forall_mem_map] at hreads
  have hwrites := fieldWrites_bitCall order
    ((trace (readerAct sizeT) read (bsReaderInit input input.length)).map Prod.fst) widths
  rw [← hwritten, List.forall_mem_map] at hwrites
  obtain ⟨hreplies, _⟩ := reader_run sizeT (tracks_init order input) hreads
  have hlength := length_keptBytes order hfit
  have houtput : writerOutput bs = sinkOutput order initial
      (stream order (keptBytes order (totalWidth widths) input) ++ []) := by
    rw [hbs, final_refines_sink sizeT order initial hwrites, hwritten, hreplies, hread,
      kept_reemitted order hfit, List.append_nil]
  rw [sinkOutput_of_le order (by omega) (by norm_num), hlength] at houtput
  have hcount : bsWriterBytesWritten bs = (totalWidth widths + 7) / 8 := congrArg Prod.fst houtput
  have hbuffer : bs.buffer = keptBytes order (totalWidth widths) input ++ initial.drop _ :=
    congrArg (fun output ↦ output.2.1) houtput
  refine ⟨congrArg (fun output ↦ output.2.2) houtput, hcount, ?_⟩
  rw [writtenBytes, hcount, hbuffer, List.take_left' hlength]

/-- Fields that end inside the third byte of four. -/
theorem encoding_undoes_decoding_example :
    (final (writerAct sizeT64)
        ([.writeBits .lsb 0x4E5 11, .writeBits .lsb 0 0, .writeBits .lsb 0x5B8 11,
          .flush .lsb].map (Prod.mk Overshift.masked)) (bsWriterInit [0, 0, 0] 3)).overflow =
        false ∧
      bsWriterBytesWritten (final (writerAct sizeT64)
        ([.writeBits .lsb 0x4E5 11, .writeBits .lsb 0 0, .writeBits .lsb 0x5B8 11,
          .flush .lsb].map (Prod.mk Overshift.masked)) (bsWriterInit [0, 0, 0] 3)) =
        (totalWidth [11, 0, 11] + 7) / 8 ∧
      writtenBytes (final (writerAct sizeT64)
        ([.writeBits .lsb 0x4E5 11, .writeBits .lsb 0 0, .writeBits .lsb 0x5B8 11,
          .flush .lsb].map (Prod.mk Overshift.masked)) (bsWriterInit [0, 0, 0] 3)) =
        keptBytes .lsb (totalWidth [11, 0, 11]) [0xE5, 0xC4, 0xED, 0x77] :=
  encoding_undoes_decoding sizeT64 .lsb [11, 0, 11] [0xE5, 0xC4, 0xED, 0x77] [0, 0, 0] (by decide)
    (by decide) ([.readBits .lsb 11, .readBits .lsb 0, .readBits .lsb 11].map (Prod.mk .masked))
    (by decide) _ (by decide) _ rfl

end Bitstream.Format
