import Bitstream.Foundation.BitReversal
import Bitstream.Foundation.CodeTable
import Bitstream.Writing.FieldWriting

/-!
# The code of the text examples

Three of the example programs encode text with one code, which gives seven characters words of one
to six bits; the tables of the programs write the words as numbers, most significant bit first or
least significant bit first. `textCode` is the code itself, `Spells` says that a table of a program
is one of its spellings, and what the encoders have in common is here once: `writeMessage` leaves
the bytes `wireBytes` of the message, whatever the order.
-/

set_option autoImplicit false
set_option relaxedAutoImplicit false

namespace Bitstream.Examples

open Foundation Header Writing

/-! ### Text -/

/-- A character constant. -/
def ascii (c : Char) : BitVec 8 := BitVec.ofNat 8 c.toNat

/-- A string: its characters in front of the terminating `'\0'`. -/
structure CString where
  chars : List (BitVec 8)
  no_nul : 0 ∉ chars

/-- The message of a program: a string that is not empty, since the program prints the ratio of the
bytes sent to its length. -/
structure Message extends CString where
  chars_ne_nil : chars ≠ []

instance : Coe Message CString := ⟨Message.toCString⟩

/-- The string at the start of an array of characters. -/
def stringAt (array : List (BitVec 8)) : List (BitVec 8) := array.takeWhile (· ≠ 0)

/-- A string that was stored with its terminator is the string at the start of the array. -/
theorem stringAt_append {chars : List (BitVec 8)} (h : 0 ∉ chars) (rest : List (BitVec 8)) :
    stringAt (chars ++ 0 :: rest) = chars := by
  have hall : ∀ c ∈ chars, decide (c ≠ 0) = true := by
    intro c hc
    exact decide_eq_true fun hzero ↦ h (hzero ▸ hc)
  rw [stringAt, List.takeWhile_append_of_pos hall, List.takeWhile_cons_of_neg (by simp),
    List.append_nil]

/-! ### The code -/

/-- The words of the characters; `'\0'` ends a message. -/
def textCode : CodeTable (BitVec 8) Bool where
  entries := [
    (ascii 'e', [false]),
    (ascii 't', [true, false]),
    (ascii 'a', [true, true, false]),
    (ascii ' ', [true, true, true, false]),
    (ascii 'h', [true, true, true, true, false]),
    (ascii 'r', [true, true, true, true, true, false]),
    (0, [true, true, true, true, true, true])]
  symbol_inj := by decide
  prefix_free := by decide

/-- The word that ends a message. -/
theorem stop_mem : ((0 : BitVec 8), List.replicate 6 true) ∈ textCode.entries := by decide

/-- Six bits always begin with a word. -/
theorem textCode_complete : textCode.Complete 6 := by
  intro bits hbits
  have hfirst : ∀ v < 2 ^ 6, (textCode.scan (fieldBits .msb 6 v)).isSome := by decide
  have hlength : (bits.take 6).length = 6 := by
    rw [List.length_take, Nat.min_eq_left hbits]
  have hlt := fieldValue_lt .msb (bits.take 6)
  rw [hlength] at hlt
  have hsome := hfirst _ hlt
  rw [fieldBits_fieldValue .msb hlength] at hsome
  obtain ⟨⟨s, word⟩, hscan⟩ := Option.isSome_iff_exists.mp hsome
  obtain ⟨hmem, hbegins⟩ := CodeTable.scan_eq_some_iff.mp hscan
  rw [CodeTable.scan_eq_some_iff.mpr ⟨hmem, hbegins.trans (List.take_prefix 6 bits)⟩]
  rfl

/-- A text can be written when each of its characters has a word. -/
abbrev Writable (message : CString) : Prop := textCode.Spellable message.chars

/-- The bits of a message, its end included. -/
def messageBits (message : CString) : List Bool :=
  textCode.spell message.chars ++ List.replicate 6 true

/-! ### Tables -/

variable {ε : Type} {mode : Overshift} {order : BitOrder}

/-- A table whose entries have a symbol, a code and a length spells the code of the texts in an
order. -/
structure Spells (order : BitOrder) (table : List ε) (symbol : ε → BitVec 8)
    (code : ε → BitVec 32) (length : ε → ℕ) : Prop where
  entries_eq : table.map (fun e ↦ (symbol e, fieldBits order (length e) (code e).toNat)) =
    textCode.entries
  code_lt : ∀ e ∈ table, (code e).toNat < 2 ^ length e
  length_le : ∀ e ∈ table, length e ≤ 6

namespace Spells

variable {table : List ε} {symbol : ε → BitVec 8} {code : ε → BitVec 32} {length : ε → ℕ}

/-- The entry of a symbol has its word. -/
theorem word?_eq (h : Spells order table symbol code length) (c : BitVec 8) :
    textCode.word? c = (table.find? fun e ↦ symbol e = c).map
      fun e ↦ fieldBits order (length e) (code e).toNat := by
  rw [CodeTable.word?, ← h.entries_eq, List.find?_map, Option.map_map]
  rfl

/-- The first entry that fits the bits is the one that a scan finds. -/
theorem scan_eq (h : Spells order table symbol code length) (bits : List Bool) :
    textCode.scan bits =
      (table.find? fun e ↦ fieldBits order (length e) (code e).toNat <+: bits).map
        fun e ↦ (symbol e, fieldBits order (length e) (code e).toNat) := by
  rw [CodeTable.scan, ← h.entries_eq, List.find?_map]
  rfl

end Spells

/-! ### Writing a text -/

/-- A loop over the characters of a text, left at the first that `put` does not know. -/
def writeText (put : BsWriter → BitVec 8 → Eval (Bool × BsWriter)) :
    List (BitVec 8) → BsWriter → Eval (Bool × BsWriter)
  | [], bw => pure (true, bw)
  | c :: rest, bw => do
    let written ← put bw c
    if written.1 then writeText put rest written.2 else pure (false, written.2)

/-- The code of a character is looked up and written. The flag tells whether there is one. -/
def putCode (write : BsWriter → BitVec 32 → ℕ → Eval BsWriter) (find : BitVec 8 → Option ε)
    (code : ε → BitVec 32) (length : ε → ℕ) (bw : BsWriter) (c : BitVec 8) :
    Eval (Bool × BsWriter) :=
  match find c with
  | some e => do
    let bw ← write bw (code e) (length e)
    pure (true, bw)
  | none => pure (false, bw)

/-- What a function that writes one character does: it appends the word, or nothing. -/
def Puts (order : BitOrder) (mode : Overshift)
    (put : BsWriter → BitVec 8 → Eval (Bool × BsWriter)) : Prop :=
  ∀ {initial : List (BitVec 8)} {bw : BsWriter} {bits : List Bool} {fits : Prop} (c : BitVec 8),
    Emitted order initial bw bits → (fits → bits.length / 8 ≤ initial.length) →
      MeetsIf fits mode (put bw c) fun written ↦
        written.1 = (textCode.word? c).isSome ∧
          Emitted order initial written.2 (bits ++ (textCode.word? c).getD [])

theorem Spells.putCode_puts {table : List ε} {symbol : ε → BitVec 8} {code : ε → BitVec 32}
    {length : ε → ℕ} (h : Spells order table symbol code length) (mode : Overshift) :
    Puts order mode
      (putCode (write order) (fun c ↦ table.find? fun e ↦ symbol e = c) code length) := by
  intro initial bw bits fits c hemitted hfit
  rw [h.word?_eq c, putCode]
  cases hfind : table.find? fun e ↦ symbol e = c with
  | none =>
    refine Eval.meets_pure ⟨rfl, ?_⟩
    show Emitted order initial bw (bits ++ [])
    rwa [List.append_nil]
  | some e =>
    have hlength := h.length_le e (List.mem_of_find?_eq_some hfind)
    have hwrite : MeetsIf fits mode (write order bw (code e) (length e)) _ :=
      hemitted.write_meetsIf (code e) (hlength.trans (by norm_num)) hfit
    refine Eval.Meets.bind hwrite fun after hafter ↦ ?_
    exact Eval.meets_pure ⟨rfl, hafter⟩

/-- The loop writes the words of the text, up to the first character without one. -/
theorem writeText_meetsIf {put : BsWriter → BitVec 8 → Eval (Bool × BsWriter)}
    (hput : Puts order mode put) {fits : Prop} {initial : List (BitVec 8)} (text : List (BitVec 8))
    {bw : BsWriter} {bits : List Bool} (h : Emitted order initial bw bits)
    (hfit : fits → (bits ++ textCode.spell text).length / 8 ≤ initial.length) :
    MeetsIf fits mode (writeText put text bw) fun written ↦
      written.1 = decide (textCode.Spellable text) ∧
        Emitted order initial written.2 (bits ++ textCode.spell text) := by
  induction text generalizing bw bits with
  | nil =>
    refine Eval.meets_pure ⟨rfl, ?_⟩
    rw [CodeTable.spell, List.append_nil]
    exact h
  | cons c text ih =>
    have hroom (hfits : fits) : bits.length / 8 ≤ initial.length := by
      have hall := hfit hfits
      rw [List.length_append] at hall
      omega
    refine Eval.Meets.bind (hput c h hroom) fun written hwritten ↦ ?_
    obtain ⟨hknown, hemitted⟩ := hwritten
    cases hword : textCode.word? c with
    | none =>
      rw [hword] at hknown hemitted
      rw [if_neg (by rw [hknown]; exact Bool.false_ne_true)]
      have hnot : ¬ textCode.Spellable (c :: text) := by
        intro hall
        have hsome := hall c List.mem_cons_self
        rw [hword] at hsome
        exact Bool.false_ne_true hsome
      refine Eval.meets_pure ⟨(decide_eq_false hnot).symm, ?_⟩
      rw [CodeTable.spell, hword]
      exact hemitted
    | some word =>
      rw [hword] at hknown hemitted
      have hspell : textCode.spell (c :: text) = word ++ textCode.spell text := by
        rw [CodeTable.spell, hword]
      have hspellable : decide (textCode.Spellable (c :: text)) =
          decide (textCode.Spellable text) := by
        rw [decide_eq_decide, CodeTable.Spellable, List.forall_mem_cons, hword]
        exact and_iff_right rfl
      rw [hspell, ← List.append_assoc] at hfit ⊢
      have hgoes : written.1 = true := hknown
      rw [hspellable, if_pos hgoes]
      exact ih hemitted hfit

/-- The frame of the encoders: the text, its end and the last byte. The flag tells whether all of it
was written: it is not where a character has no code, or where an assertion about the end fails. -/
def writeMessage (put : BsWriter → BitVec 8 → Eval (Bool × BsWriter))
    (stop : BsWriter → Eval (Bool × BsWriter)) (flush : BsWriter → Eval BsWriter)
    (message : CString) (bw : BsWriter) : Eval (Bool × BsWriter) := do
  let written ← writeText put message.chars bw
  if written.1 then do
    let ended ← stop written.2
    if ended.1 then do
      let bw ← flush ended.2
      pure (true, bw)
    else pure ended
  else pure written

/-- What a function that ends a message does: it appends six ones. -/
def PutsEnd (order : BitOrder) (mode : Overshift) (stop : BsWriter → Eval (Bool × BsWriter)) :
    Prop :=
  ∀ {initial : List (BitVec 8)} {bw : BsWriter} {bits : List Bool} {fits : Prop},
    Emitted order initial bw bits → (fits → bits.length / 8 ≤ initial.length) →
      MeetsIf fits mode (stop bw) fun ended ↦
        ended.1 = true ∧ Emitted order initial ended.2 (bits ++ List.replicate 6 true)

/-- What is written of a message: with its end and the last byte completed, or up to the first
character without a word. -/
def sentBits (message : CString) : List Bool :=
  if Writable message then padded 8 (messageBits message) else textCode.spell message.chars

/-- What the encoders leave, for every capacity. Defined if the bits fit. -/
theorem writeMessage_meetsIf {put : BsWriter → BitVec 8 → Eval (Bool × BsWriter)}
    {stop : BsWriter → Eval (Bool × BsWriter)} (hput : Puts order mode put)
    (hstop : PutsEnd order mode stop) (message : CString) (out : List (BitVec 8)) {fits : Prop}
    (hfit : fits → (messageBits message).length / 8 ≤ out.length) :
    MeetsIf fits mode
      (writeMessage put stop (flush (dump order) (write order)) message
        (bsWriterInit out out.length)) fun written ↦
      written.1 = decide (Writable message) ∧
        Emitted order out written.2 (sentBits message) := by
  have hshort (hfits : fits) : (textCode.spell message.chars).length / 8 ≤ out.length := by
    have hall := hfit hfits
    rw [messageBits, List.length_append] at hall
    omega
  refine Eval.Meets.bind (writeText_meetsIf hput message.chars (emitted_init order out) hshort)
    fun written hwritten ↦ ?_
  obtain ⟨hknown, hemitted⟩ := hwritten
  rw [List.nil_append] at hemitted
  by_cases hwritable : Writable message
  · rw [decide_eq_true hwritable] at hknown
    rw [if_pos hknown, sentBits, if_pos hwritable, decide_eq_true hwritable]
    refine Eval.Meets.bind (hstop hemitted hshort) fun ended hended ↦ ?_
    have hbits : Emitted order out ended.2 (messageBits message) := hended.2
    rw [if_pos hended.1]
    refine Eval.Meets.bind (hbits.flush_meetsIf hfit) fun bw hbw ↦ ?_
    exact Eval.meets_pure ⟨rfl, hbw⟩
  · rw [if_neg (by rw [hknown, decide_eq_false hwritable]; exact Bool.false_ne_true), sentBits,
      if_neg hwritable]
    exact Eval.meets_pure ⟨hknown, hemitted⟩

/-! ### The bytes of a message -/

/-- The bytes that a message takes on the wire. -/
def wireBytes (order : BitOrder) (message : CString) : List (BitVec 8) :=
  packWords 8 order (padded 8 (messageBits message))

theorem length_wireBytes (order : BitOrder) (message : CString) :
    (wireBytes order message).length = (padded 8 (messageBits message)).length / 8 :=
  length_packWords order _

theorem stream_wireBytes (order : BitOrder) (message : CString) :
    stream order (wireBytes order message) = padded 8 (messageBits message) := by
  have hwhole := Nat.mul_div_cancel' (dvd_length_padded (Nat.succ_pos 7) (messageBits message))
  rw [wireBytes, stream_packWords, hwhole, List.take_length]

/-- The bits of a message take no more whole bytes than its wire. -/
theorem length_messageBits_div_le (order : BitOrder) (message : CString) :
    (messageBits message).length / 8 ≤ (wireBytes order message).length := by
  rw [length_wireBytes, padded, List.length_append]
  omega

/-- The wires of the two orders are mirror images, byte by byte. -/
theorem wireBytes_lsb (message : CString) :
    wireBytes .lsb message = (wireBytes .msb message).map BitVec.reverse :=
  packWords_lsb 8 _

/-- A parse of a wire gives the message back, as far as there is room for it. -/
theorem parse_wireBytes (order : BitOrder) {message : CString} (h : Writable message) {depth : ℕ}
    (hdepth : depth ≤ 6) (room : ℕ) :
    textCode.parse depth 0 room (stream order (wireBytes order message)) =
      (message.chars.take room, textCode.spell (message.chars.drop room) ++
        (List.replicate 6 true ++
          List.replicate (padding 8 (messageBits message).length) false)) := by
  rw [stream_wireBytes, padded, messageBits, List.append_assoc]
  exact CodeTable.parse_spell h message.no_nul stop_mem hdepth _ room

variable {out : List (BitVec 8)} {bw : BsWriter} {message : CString}

/-- What a writer with enough room shows after a message. -/
theorem wire_of_emitted (h : Emitted order out bw (padded 8 (messageBits message)))
    (hfit : (wireBytes order message).length ≤ out.length) :
    bw.overflow = false ∧ bsWriterBytesWritten bw = (wireBytes order message).length ∧
      bw.buffer =
        wireBytes order message ++ out.drop (wireBytes order message).length := by
  rw [← stream_wireBytes order] at h
  exact h.stored hfit

end Bitstream.Examples
