import Bitstream.Examples.Codes
import Bitstream.Foundation.WhileLoop
import Bitstream.Reading.BitSource

/-!
# Decoding a text

What the decoders of the text examples have in common. A decoder looks at a window of the next bits,
searches its table for the word that they begin with (`Spells.firstMatch_ensures`), stores the
character and skips the word; `Decoding` is the invariant of such a loop, whatever it makes of the
end of the data. `readText` is what the decoders find that peek at six bits without looking how many
are left: behind the last whole window they read zeros, which are the word of `'e'`. The others look
at a count that wraps and find the `words` of the bits that are counted
(`words_countedBits_eq_iff`).
-/

set_option autoImplicit false
set_option relaxedAutoImplicit false

namespace Bitstream.Examples

open Foundation Header Reading

variable {ε : Type} {mode : Overshift} {order : BitOrder} {bits : List Bool}

/-! ### Searching a table -/

/-- A loop over a table that returns the first entry that passes a test. -/
def firstMatch (test : ε → Eval Bool) : List ε → Eval (Option ε)
  | [] => pure none
  | e :: table => do
    let passes ← test e
    if passes then pure (some e) else firstMatch test table

theorem firstMatch_ensures {test : ε → Eval Bool} {P : ε → Bool} {table : List ε}
    (h : ∀ e ∈ table, Eval.Ensures mode (test e) fun passes ↦ passes = P e) :
    Eval.Ensures mode (firstMatch test table) fun found ↦ found = table.find? P := by
  induction table with
  | nil => exact Eval.ensures_pure rfl
  | cons e table ih =>
    obtain ⟨hfirst, hrest⟩ := List.forall_mem_cons.mp h
    refine hfirst.bind_eq ?_
    cases hpasses : P e with
    | true =>
      rw [List.find?_cons_of_pos hpasses]
      exact Eval.ensures_pure rfl
    | false =>
      rw [List.find?_cons_of_neg (by rw [hpasses]; exact Bool.false_ne_true)]
      exact ih hrest

/-! ### A window of six bits -/

/-- The bits that a peek of six bits shows: zeros where fewer are left. -/
def window (bits : List Bool) : List Bool :=
  if 6 ≤ bits.length then bits else List.replicate 6 false

theorem six_le_length_window (bits : List Bool) : 6 ≤ (window bits).length := by
  unfold window
  split_ifs with hbits
  · exact hbits
  · rw [List.length_replicate]

theorem window_of_le (h : 6 ≤ bits.length) : window bits = bits := if_pos h

theorem leadingField_window (order : BitOrder) (bits : List Bool) :
    leadingField order 6 (window bits) = leadingField order 6 bits := by
  by_cases hbits : 6 ≤ bits.length
  · rw [window, if_pos hbits]
  · have hzeros : leadingField order 6 (List.replicate 6 false) = 0 := by
      cases order <;> decide
    rw [window, if_neg hbits, hzeros, leadingField, if_neg hbits]

/-- The six bits shown always begin with a word. -/
theorem exists_scan_window (bits : List Bool) :
    ∃ s word, textCode.scan (window bits) = some (s, word) := by
  obtain ⟨⟨s, word⟩, hscan⟩ := Option.isSome_iff_exists.mp
    (textCode_complete (window bits) (six_le_length_window bits))
  exact ⟨s, word, hscan⟩

/-- `candidate = window >> (MAX_CODE_LEN - bits)`, compared with the code of an entry. -/
def fitsWindow (window : BitVec 32) (code : BitVec 32) (bits : ℕ) : Eval Bool := do
  let shift ← Eval.sub 32 6 bits
  let candidate ← Eval.shiftRight window shift
  pure (candidate = code)

/-- The comparison asks whether the bits shown begin with the word. -/
theorem fitsWindow_ensures {code : BitVec 32} {length : ℕ} {bits : List Bool}
    (hcode : code.toNat < 2 ^ length) (hlength : length ≤ 6) :
    Eval.Ensures mode (fitsWindow (leadingField .msb 6 bits) code length) fun passes ↦
      passes = decide (fieldBits .msb length code.toNat <+: window bits) := by
  have hwindow := six_le_length_window bits
  rw [← leadingField_window]
  refine (Eval.ensures_sub 32 hlength).bind_eq ?_
  refine (Eval.ensures_shiftRight (by omega)).bind_eq ?_
  apply Eval.ensures_pure
  rw [decide_eq_decide, fieldBits_prefix_iff .msb hcode (by omega), ← BitVec.toNat_inj,
    BitVec.toNat_ushiftRight, toNat_leadingField .msb (by norm_num) hwindow]
  have hsplit : (window bits).take 6 =
      (window bits).take length ++ ((window bits).drop length).take (6 - length) := by
    rw [← List.take_add, Nat.add_sub_cancel' hlength]
  have hrest : (((window bits).drop length).take (6 - length)).length = 6 - length := by
    rw [List.length_take, List.length_drop]
    omega
  have hshift := fieldValue_msb_append_shiftRight ((window bits).take length)
    (((window bits).drop length).take (6 - length))
  rw [hrest, ← hsplit] at hshift
  rw [hshift]

/-- The search of a table for the entry that fits the bits shown. -/
theorem Spells.firstMatch_ensures {table : List ε} {symbol : ε → BitVec 8}
    {code : ε → BitVec 32} {length : ε → ℕ} (h : Spells .msb table symbol code length)
    (mode : Overshift) (bits : List Bool) :
    ∃ e ∈ table, textCode.scan (window bits) =
        some (symbol e, fieldBits .msb (length e) (code e).toNat) ∧
      Eval.Ensures mode
        (firstMatch (fun e ↦ fitsWindow (leadingField .msb 6 bits) (code e) (length e)) table)
        fun found ↦ found = some e := by
  obtain ⟨s, word, hscan⟩ := exists_scan_window bits
  rw [h.scan_eq] at hscan ⊢
  obtain ⟨e, hfind, _⟩ := Option.map_eq_some_iff.mp hscan
  have hsearch : Eval.Ensures mode
      (firstMatch (fun e ↦ fitsWindow (leadingField .msb 6 bits) (code e) (length e)) table)
      fun found ↦ found = table.find? fun e ↦
        fieldBits .msb (length e) (code e).toNat <+: window bits :=
    Examples.firstMatch_ensures fun e he ↦ fitsWindow_ensures (h.code_lt e he) (h.length_le e he)
  rw [hfind] at hsearch ⊢
  exact ⟨e, List.mem_of_find?_eq_some hfind, rfl, hsearch⟩

/-! ### Storing a text -/

/-- An array after a text and its terminator were stored at its start. -/
def terminated (array text : List (BitVec 8)) : List (BitVec 8) :=
  text ++ 0 :: array.drop (text.length + 1)

theorem stringAt_terminated {text : List (BitVec 8)} (h : 0 ∉ text) (array : List (BitVec 8)) :
    stringAt (terminated array text) = text := stringAt_append h _

/-- The text is stored in front of what the array held, with room for its terminator. -/
structure Stored (array text out : List (BitVec 8)) (idx : ℕ) : Prop where
  idx_eq : idx = text.length
  out_eq : out = text ++ array.drop text.length
  lt : text.length < array.length

variable {array text out : List (BitVec 8)} {idx room : ℕ}

/-- An element stored behind the elements stored before it. -/
theorem Stored.set_eq (h : Stored array text out idx) (c : BitVec 8) :
    out.set idx c = (text ++ [c]) ++ array.drop (text ++ [c]).length := by
  rw [h.out_eq, h.idx_eq, List.set_append_right _ _ le_rfl, Nat.sub_self,
    List.drop_eq_getElem_cons h.lt, List.set_cons_zero, List.append_assoc, List.length_append]
  rfl

theorem Stored.push (h : Stored array text out idx) (c : BitVec 8)
    (hroom : text.length + 1 < array.length) :
    Stored array (text ++ [c]) (out.set idx c) (idx + 1) where
  idx_eq := by rw [h.idx_eq, List.length_append, List.length_singleton]
  out_eq := h.set_eq c
  lt := by rwa [List.length_append, List.length_singleton]

/-- The terminator behind the text. -/
theorem Stored.terminate_ensures (h : Stored array text out idx) :
    Eval.Ensures mode (Eval.store out array.length idx 0) fun result ↦
      result = terminated array text := by
  have hidx : idx < array.length := h.idx_eq ▸ h.lt
  refine (Eval.ensures_store hidx).mono fun result hresult ↦ ?_
  rw [hresult, h.set_eq, terminated, List.length_append, List.append_assoc]
  rfl

/-! ### The loop of a decoder -/

/-- The variables of a decoding loop. -/
structure DecodeState where
  br : BsReader
  out : List (BitVec 8)
  idx : ℕ

/-- The invariant of a loop that finds the text `found room bits` in `bits` when there is room for
`room` characters: what is stored and what is still to be read make up the text. -/
structure Decoding (order : BitOrder) (found : ℕ → List Bool → List (BitVec 8))
    (array text : List (BitVec 8)) (room : ℕ) (s : DecodeState) (bits : List Bool) : Prop where
  delivers : Delivers order s.br bits
  stored : ∃ first, Stored array first s.out s.idx ∧ first ++ found room bits = text
  room_eq : s.idx + room + 1 = array.length

namespace Decoding

variable {found : ℕ → List Bool → List (BitVec 8)} {s : DecodeState} {rest : List Bool}
  {c : BitVec 8} {br : BsReader}

theorem init (order : BitOrder) (found : ℕ → List Bool → List (BitVec 8))
    (data : List (BitVec 8)) (h : room + 1 = array.length) :
    Decoding order found array (found room (stream order data)) room
      { br := bsReaderInit data data.length, out := array, idx := 0 } (stream order data) where
  delivers := delivers_init order data
  stored := ⟨[], ⟨rfl, rfl, by rw [List.length_nil]; omega⟩, rfl⟩
  room_eq := by rw [← h, Nat.zero_add]

/-- A loop that finds nothing more has stored the text. -/
theorem finish (h : Decoding order found array text room s bits) (hnone : found room bits = []) :
    Stored array text s.out s.idx := by
  obtain ⟨first, hstored, htext⟩ := h.stored
  rwa [← htext, hnone, List.append_nil]

/-- A character stored and its word skipped. -/
theorem push (h : Decoding order found array text (room + 1) s bits)
    (hfound : found (room + 1) bits = c :: found room rest) (hbr : Delivers order br rest) :
    Decoding order found array text room
      { br := br, out := s.out.set s.idx c, idx := s.idx + 1 } rest := by
  have hroom := h.room_eq
  obtain ⟨first, hstored, htext⟩ := h.stored
  have hidx := hstored.idx_eq
  refine ⟨hbr, ⟨first ++ [c], hstored.push c (by omega), ?_⟩, ?_⟩
  · rw [← htext, hfound]
    exact (List.append_cons first c (found room rest)).symm
  · show s.idx + 1 + room + 1 = array.length
    omega

end Decoding

/-! ### What is found -/

/-- The words that the bits begin with, up to the end of the message and while `depth` bits are
left. -/
def words (depth room : ℕ) (bits : List Bool) : List (BitVec 8) :=
  (textCode.parse depth 0 room bits).1

theorem words_of_ends {depth : ℕ} (h : textCode.Ends depth 0 bits) (room : ℕ) :
    words depth room bits = [] := by
  rw [words, CodeTable.parse_ends h]

theorem words_succ {depth : ℕ} {c : BitVec 8} {word : List Bool} (hdepth : depth ≤ bits.length)
    (hscan : textCode.scan bits = some (c, word)) (hstop : c ≠ 0) (room : ℕ) :
    words depth (room + 1) bits = c :: words depth room (bits.drop word.length) := by
  rw [words, CodeTable.parse_symbol hdepth hscan hstop]
  rfl

theorem nul_not_mem_words (depth room : ℕ) (bits : List Bool) : 0 ∉ words depth room bits :=
  (CodeTable.parse_reads textCode depth 0 room bits).not_mem

/-- A word at the front of the bits that are counted lies among them, so the count does not wrap
when it is skipped. -/
theorem countedBits_drop_word {width : ℕ} {c : BitVec 8} {word : List Bool}
    (hscan : textCode.scan (countedBits width bits) = some (c, word)) :
    countedBits width (bits.drop word.length) = (countedBits width bits).drop word.length :=
  countedBits_drop (CodeTable.scan_eq_some_iff.mp hscan).2.length_le

/-- Where the count of the bits on a wire wraps, the words that are seen are not the message: at
most 13 bits come behind its last word. -/
theorem words_countedBits_ne (order : BitOrder) {message : CString} (h : Writable message)
    {width : ℕ} (hwidth : 4 ≤ width)
    (hwraps : 2 ^ width ≤ 8 * (wireBytes order message).length) (depth room : ℕ) :
    words depth room (countedBits width (stream order (wireBytes order message))) ≠
      message.chars := by
  intro hread
  obtain ⟨u, hu, hsplit⟩ := (CodeTable.parse_reads textCode depth 0 room
    (countedBits width (stream order (wireBytes order message)))).split
  rw [words] at hread
  rw [hread, CodeTable.encode_eq_spell h] at hu
  obtain rfl := Option.some.inj hu
  have hseen := congrArg List.length hsplit
  rw [List.length_append] at hseen
  have htotal : (stream order (wireBytes order message)).length ≤
      (textCode.spell message.chars).length + 6 + 7 := by
    have hpadding : padding 8 (messageBits message).length < 8 := padding_lt (by norm_num) _
    rw [stream_wireBytes, padded, List.length_append, List.length_replicate, messageBits,
      List.length_append, List.length_replicate]
    rw [messageBits, List.length_append, List.length_replicate] at hpadding
    omega
  have hunseen := length_countedBits_add_le (hwraps.trans_eq (length_stream order _).symm)
  have hpow : 2 ^ 4 ≤ 2 ^ width := Nat.pow_le_pow_right (by norm_num) hwidth
  omega

/-- The words that are seen on a wire are the message exactly if all bits are seen and there is room
for it. -/
theorem words_countedBits_eq_iff (order : BitOrder) {message : CString} (h : Writable message)
    {depth width : ℕ} (hdepth : depth ≤ 6) (hwidth : 4 ≤ width) (room : ℕ) :
    words depth room (countedBits width (stream order (wireBytes order message))) =
        message.chars ↔
      8 * (wireBytes order message).length < 2 ^ width ∧ message.chars.length ≤ room := by
  by_cases hsmall : 8 * (wireBytes order message).length < 2 ^ width
  · rw [countedBits_of_lt (by rwa [length_stream]), words, parse_wireBytes order h hdepth,
      List.take_eq_self_iff]
    exact (and_iff_right hsmall).symm
  · exact iff_of_false (words_countedBits_ne order h hwidth (not_lt.mp hsmall) depth room)
      fun hread ↦ hsmall hread.1

/-- The text found by a decoder that peeks at six bits: the words in front of the end of the message
while six bits are left, and `fill left room` times `'e'` for the `left` bits of a shorter rest. -/
def readText (fill : ℕ → ℕ → ℕ) (room : ℕ) (bits : List Bool) : List (BitVec 8) :=
  let read := textCode.parse 6 0 room bits
  read.1 ++
    if read.2.length < 6 then
      List.replicate (fill read.2.length (room - read.1.length)) (ascii 'e')
    else []

/-- Where fewer than six bits are left, they are read as zeros. -/
theorem readText_short (fill : ℕ → ℕ → ℕ) (room : ℕ) (hshort : bits.length < 6) :
    readText fill room bits = List.replicate (fill bits.length room) (ascii 'e') := by
  have hends : textCode.Ends 6 0 bits := .inl hshort
  rw [readText, CodeTable.parse_ends hends]
  simp [hshort]

theorem readText_zero {fill : ℕ → ℕ → ℕ} (hfill : ∀ left, fill left 0 = 0) (bits : List Bool) :
    readText fill 0 bits = [] := by
  simp [readText, CodeTable.parse, hfill]

/-- One pass of the loop: what is read in front of what is left. -/
theorem readText_succ (fill : ℕ → ℕ → ℕ) (room : ℕ) {c : BitVec 8} {word : List Bool}
    (hfill : bits.length < 6 → fill bits.length (room + 1) = fill (bits.length - 1) room + 1)
    (hscan : textCode.scan (window bits) = some (c, word)) :
    readText fill (room + 1) bits =
      if c = 0 then [] else c :: readText fill room (bits.drop word.length) := by
  by_cases hshort : bits.length < 6
  · have hzeros : textCode.scan (List.replicate 6 false) = some (ascii 'e', [false]) := by decide
    rw [window, if_neg (by omega), hzeros] at hscan
    obtain ⟨rfl, rfl⟩ := Prod.mk.inj (Option.some.inj hscan)
    have hrest : (bits.drop 1).length < 6 := by
      rw [List.length_drop]
      omega
    rw [readText_short fill _ hshort, hfill hshort, List.replicate_succ, if_neg (by decide),
      ← List.length_drop]
    exact congrArg _ (readText_short fill room hrest).symm
  · rw [window, if_pos (by omega)] at hscan
    by_cases hstop : c = 0
    · have hends : textCode.Ends 6 0 bits := .inr (.inr ⟨word, by rw [hscan, hstop]⟩)
      rw [if_pos hstop, readText, CodeTable.parse_ends hends, if_neg hshort]
      rfl
    · rw [if_neg hstop, readText, readText, CodeTable.parse_symbol (by omega) hscan hstop,
        List.length_cons, Nat.add_sub_add_right, List.cons_append]

/-- From a wire the text of the message is read, as far as there is room for it. -/
theorem readText_wireBytes (fill : ℕ → ℕ → ℕ) (order : BitOrder) {message : CString}
    (h : Writable message) (room : ℕ) :
    readText fill room (stream order (wireBytes order message)) = message.chars.take room := by
  have hlong : ¬ (textCode.spell (message.chars.drop room) ++ (List.replicate 6 true ++
      List.replicate (padding 8 (messageBits message).length) false)).length < 6 := by
    simp only [List.length_append, List.length_replicate]
    omega
  rw [readText, parse_wireBytes order h le_rfl, if_neg hlong, List.append_nil]

end Bitstream.Examples
