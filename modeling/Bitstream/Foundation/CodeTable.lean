import Mathlib.Data.List.Infix

/-!
# Prefix codes

A `CodeTable` gives each symbol a word, no word being a prefix of another. `scan` finds the word
that a list begins with, whatever the order of the table (`scan_eq_some_iff`), and `parse` reads
symbols until a stop symbol, until there is no room for more, until fewer than `depth` elements are
left, or until no word fits. `encode` writes the words of a message.

`Reads` says what a parse is, without an algorithm: the input begins with the words of the symbols
read, and one of the four reasons to end holds behind them. A list is parsed in one way only
(`reads_iff`), `parse` finds it (`parse_reads`), and it gives a message back that was encoded
(`parse_spell`).
-/

set_option autoImplicit false
set_option relaxedAutoImplicit false

namespace Bitstream.Foundation

/-- Symbols and their words, in the order in which a decoder tries them. A symbol has one word, and
no word is a prefix of the word of another symbol. -/
structure CodeTable (σ β : Type*) where
  entries : List (σ × List β)
  symbol_inj : ∀ first ∈ entries, ∀ second ∈ entries, first.1 = second.1 → first = second
  prefix_free : ∀ first ∈ entries, ∀ second ∈ entries, first.2 <+: second.2 → first = second

namespace CodeTable

variable {σ β : Type*} {t : CodeTable σ β} {s other : σ} {word bits more : List β}

theorem word_unique {first second : List β} (hfirst : (s, first) ∈ t.entries)
    (hsecond : (s, second) ∈ t.entries) : first = second :=
  (Prod.mk.inj (t.symbol_inj _ hfirst _ hsecond rfl)).2

/-! ### Encoding -/

section Encoding

variable [DecidableEq σ]

/-- The word of a symbol. -/
def word? (t : CodeTable σ β) (s : σ) : Option (List β) :=
  (t.entries.find? fun entry ↦ entry.1 = s).map Prod.snd

theorem word?_eq_some_iff : t.word? s = some word ↔ (s, word) ∈ t.entries := by
  constructor
  · intro h
    obtain ⟨⟨symbol, w⟩, hfind, rfl⟩ := Option.map_eq_some_iff.mp h
    obtain rfl : symbol = s := by simpa using List.find?_some hfind
    exact List.mem_of_find?_eq_some hfind
  · intro h
    cases hfind : t.entries.find? fun entry ↦ entry.1 = s with
    | none =>
      have hnone := List.find?_eq_none.mp hfind _ h
      simp at hnone
    | some entry =>
      obtain ⟨symbol, w⟩ := entry
      obtain rfl : symbol = s := by simpa using List.find?_some hfind
      rw [word?, hfind, word_unique h (List.mem_of_find?_eq_some hfind)]
      rfl

/-- The words of a message, one after the other. -/
def encode (t : CodeTable σ β) : List σ → Option (List β)
  | [] => some []
  | s :: message => do
    let word ← t.word? s
    let rest ← encode t message
    pure (word ++ rest)

theorem encode_cons_eq_some_iff {message : List σ} :
    t.encode (s :: message) = some bits ↔
      ∃ word rest, (s, word) ∈ t.entries ∧ t.encode message = some rest ∧ bits = word ++ rest := by
  simp only [encode, Option.bind_eq_bind, Option.bind_eq_some_iff, Option.pure_def,
    Option.some.injEq, word?_eq_some_iff]
  constructor
  · rintro ⟨word, hword, rest, hrest, rfl⟩
    exact ⟨word, rest, hword, hrest, rfl⟩
  · rintro ⟨word, rest, hword, hrest, rfl⟩
    exact ⟨word, hword, rest, hrest, rfl⟩

/-- The words of a message up to the first symbol without one. -/
def spell (t : CodeTable σ β) : List σ → List β
  | [] => []
  | s :: message =>
    match t.word? s with
    | some word => word ++ spell t message
    | none => []

/-- Every symbol of a message has a word. -/
def Spellable (t : CodeTable σ β) (message : List σ) : Prop := ∀ s ∈ message, (t.word? s).isSome

instance (t : CodeTable σ β) (message : List σ) : Decidable (t.Spellable message) :=
  inferInstanceAs (Decidable (∀ s ∈ message, (t.word? s).isSome))

theorem spell_cons (h : (s, word) ∈ t.entries) (message : List σ) :
    t.spell (s :: message) = word ++ t.spell message := by
  rw [spell, word?_eq_some_iff.mpr h]

/-- Where every symbol has a word, the message is encoded as it is spelled. -/
theorem encode_eq_spell {message : List σ} (h : t.Spellable message) :
    t.encode message = some (t.spell message) := by
  induction message with
  | nil => rfl
  | cons s message ih =>
    obtain ⟨hfirst, hlater⟩ := List.forall_mem_cons.mp h
    obtain ⟨word, hword⟩ := Option.isSome_iff_exists.mp hfirst
    have hmem := word?_eq_some_iff.mp hword
    rw [spell_cons hmem]
    exact encode_cons_eq_some_iff.mpr ⟨word, _, hmem, ih hlater, rfl⟩

/-- The word of a symbol is part of the words of a message. -/
theorem length_le_of_mem {message : List σ} {u : List β} (h : t.encode message = some u)
    (hs : s ∈ message) : ∃ word, (s, word) ∈ t.entries ∧ word.length ≤ u.length := by
  induction message generalizing u with
  | nil => exact nomatch hs
  | cons first message ih =>
    obtain ⟨word, rest, hword, hrest, rfl⟩ := encode_cons_eq_some_iff.mp h
    rw [List.length_append]
    rcases List.mem_cons.mp hs with rfl | hs
    · exact ⟨word, hword, Nat.le_add_right _ _⟩
    · obtain ⟨w, hw, hle⟩ := ih hrest hs
      exact ⟨w, hw, hle.trans (Nat.le_add_left _ _)⟩

end Encoding

/-! ### Scanning -/

variable [DecidableEq β]

/-- The first entry whose word a list begins with. -/
def scan (t : CodeTable σ β) (bits : List β) : Option (σ × List β) :=
  t.entries.find? fun entry ↦ entry.2 <+: bits

/-- Which entry is tried first does not matter. -/
theorem scan_eq_some_iff :
    t.scan bits = some (s, word) ↔ (s, word) ∈ t.entries ∧ word <+: bits := by
  constructor
  · intro h
    exact ⟨List.mem_of_find?_eq_some h, by simpa using List.find?_some h⟩
  · rintro ⟨hmem, hbegins⟩
    cases hfind : t.scan bits with
    | none =>
      have hnone := List.find?_eq_none.mp hfind _ hmem
      simp [hbegins] at hnone
    | some found =>
      have hfound : found.2 <+: bits := by simpa using List.find?_some hfind
      have hmem' := List.mem_of_find?_eq_some hfind
      rcases List.prefix_or_prefix_of_prefix hfound hbegins with h | h
      · rw [t.prefix_free _ hmem' _ hmem h]
      · rw [t.prefix_free _ hmem _ hmem' h]

theorem scan_append (h : (s, word) ∈ t.entries) (more : List β) :
    t.scan (word ++ more) = some (s, word) :=
  scan_eq_some_iff.mpr ⟨h, List.prefix_append word more⟩

/-- Every list of at least `depth` elements begins with a word. -/
def Complete (t : CodeTable σ β) (depth : ℕ) : Prop :=
  ∀ bits : List β, depth ≤ bits.length → (t.scan bits).isSome

/-! ### Parsing -/

variable [DecidableEq σ]

/-- The symbols read, at most `room` of them, and what is left. -/
def parse (t : CodeTable σ β) (depth : ℕ) (stop : σ) : ℕ → List β → List σ × List β
  | 0, bits => ([], bits)
  | room + 1, bits =>
    if bits.length < depth then ([], bits)
    else
      match t.scan bits with
      | none => ([], bits)
      | some (s, word) =>
        if s = stop then ([], bits)
        else
          let read := parse t depth stop room (bits.drop word.length)
          (s :: read.1, read.2)

/-- The reasons why a parse with room for more ends in front of a list. -/
def Ends (t : CodeTable σ β) (depth : ℕ) (stop : σ) (bits : List β) : Prop :=
  bits.length < depth ∨ t.scan bits = none ∨ ∃ word, t.scan bits = some (stop, word)

/-- The input begins with the words of the symbols read, the stop symbol not among them, and the
parse ends behind them. -/
structure Reads (t : CodeTable σ β) (depth : ℕ) (stop : σ) (room : ℕ) (bits : List β)
    (read : List σ × List β) : Prop where
  split : ∃ u, t.encode read.1 = some u ∧ bits = u ++ read.2
  not_mem : stop ∉ read.1
  length_le : read.1.length ≤ room
  /-- In front of the last symbol read, enough was left. -/
  deep : ∀ s ∈ read.1.getLast?, ∀ word, (s, word) ∈ t.entries →
    depth ≤ word.length + read.2.length
  ends : read.1.length = room ∨ t.Ends depth stop read.2

variable {depth room : ℕ} {stop : σ}

/-- A parse that reads a symbol goes on behind its word. -/
theorem parse_symbol (hdepth : depth ≤ bits.length) (hscan : t.scan bits = some (s, word))
    (hstop : s ≠ stop) :
    t.parse depth stop (room + 1) bits =
      (s :: (t.parse depth stop room (bits.drop word.length)).1,
        (t.parse depth stop room (bits.drop word.length)).2) := by
  rw [parse, if_neg (by omega), hscan]
  exact if_neg hstop

/-- A parse that ends reads nothing. -/
theorem parse_ends (h : t.Ends depth stop bits) (room : ℕ) :
    t.parse depth stop room bits = ([], bits) := by
  cases room with
  | zero => rfl
  | succ room =>
    rw [parse]
    split_ifs with hdepth
    · rfl
    · rcases h with hshort | hnone | ⟨word, hstop⟩
      · exact absurd hshort hdepth
      · rw [hnone]
      · rw [hstop]
        exact if_pos rfl

/-- The rule of induction over a parse: it has no room, it ends, or it reads a symbol. -/
theorem parse_cases (t : CodeTable σ β) (depth : ℕ) (stop : σ) (room : ℕ) (bits : List β) :
    room = 0 ∨ t.Ends depth stop bits ∨
      ∃ s word, depth ≤ bits.length ∧ s ≠ stop ∧ t.scan bits = some (s, word) := by
  by_cases hroom : room = 0
  · exact .inl hroom
  · by_cases hdepth : bits.length < depth
    · exact .inr (.inl (.inl hdepth))
    · cases hscan : t.scan bits with
      | none => exact .inr (.inl (.inr (.inl hscan)))
      | some entry =>
        obtain ⟨s, word⟩ := entry
        by_cases hstop : s = stop
        · exact .inr (.inl (.inr (.inr ⟨word, by rw [hscan, hstop]⟩)))
        · exact .inr (.inr ⟨s, word, by omega, hstop, rfl⟩)

/-- The parse is a parse. -/
theorem parse_reads (t : CodeTable σ β) (depth : ℕ) (stop : σ) (room : ℕ) (bits : List β) :
    t.Reads depth stop room bits (t.parse depth stop room bits) := by
  induction room generalizing bits with
  | zero => exact ⟨⟨[], rfl, rfl⟩, List.not_mem_nil, le_rfl, nofun, .inl rfl⟩
  | succ room ih =>
    rcases parse_cases t depth stop (room + 1) bits with
      hzero | hends | ⟨s, word, hdepth, hstop, hscan⟩
    · omega
    · rw [parse_ends hends]
      exact ⟨⟨[], rfl, rfl⟩, List.not_mem_nil, Nat.zero_le _, nofun, .inr hends⟩
    · obtain ⟨hmem, rest, rfl⟩ := scan_eq_some_iff.mp hscan
      rw [parse_symbol hdepth hscan hstop, List.drop_left' rfl]
      obtain ⟨⟨u, hu, hsplit⟩, hnot, hlength, hdeep, hend⟩ := ih rest
      refine ⟨⟨word ++ u, encode_cons_eq_some_iff.mpr ⟨word, u, hmem, hu, rfl⟩, ?_⟩, ?_, ?_, ?_, ?_⟩
      · rw [List.append_assoc, ← hsplit]
      · rintro (_ | ⟨_, hin⟩)
        · exact hstop rfl
        · exact hnot hin
      · exact Nat.succ_le_succ hlength
      · intro last hlast w hw
        cases hread : (t.parse depth stop room rest).1 with
        | nil =>
          rw [hread] at hlast hu
          obtain rfl : s = last := by simpa using hlast
          obtain rfl := word_unique hmem hw
          obtain rfl := Option.some.inj hu
          rw [List.length_append, hsplit] at hdepth
          simpa using hdepth
        | cons next later =>
          rw [hread] at hdeep hlast
          exact hdeep last (by simpa using hlast) w hw
      · exact hend.imp (congrArg Nat.succ) id

/-- A reading is the parse: whatever is read from a list in this way is read by `parse`. -/
theorem Reads.eq_parse {read : List σ × List β} (h : t.Reads depth stop room bits read) :
    read = t.parse depth stop room bits := by
  induction room generalizing bits read with
  | zero =>
    obtain ⟨message, rest⟩ := read
    obtain rfl := List.eq_nil_of_length_eq_zero (Nat.le_zero.mp h.length_le)
    obtain ⟨u, hu, rfl⟩ := h.split
    obtain rfl := Option.some.inj hu
    rfl
  | succ room ih =>
    obtain ⟨message, rest⟩ := read
    obtain ⟨u, hu, rfl⟩ := h.split
    cases message with
    | nil =>
      obtain rfl := Option.some.inj hu
      exact (parse_ends (h.ends.resolve_left (Nat.succ_ne_zero room).symm) _).symm
    | cons s message =>
      have hdepth : depth ≤ (u ++ rest).length := by
        have hlast := List.getLast_mem (List.cons_ne_nil s message)
        obtain ⟨w, hw, hle⟩ := length_le_of_mem hu hlast
        have hsome := List.getLast?_eq_getLast_of_ne_nil (List.cons_ne_nil s message)
        have hdeep := h.deep _ hsome w hw
        rw [List.length_append]
        exact hdeep.trans (Nat.add_le_add_right hle _)
      obtain ⟨word, v, hmem, hv, rfl⟩ := encode_cons_eq_some_iff.mp hu
      have hne : s ≠ stop := fun heq ↦ h.not_mem (heq ▸ List.mem_cons_self)
      have hlater : t.Reads depth stop room (v ++ rest) (message, rest) := by
        refine ⟨⟨v, hv, rfl⟩, fun hin ↦ h.not_mem (List.mem_cons_of_mem s hin),
          Nat.le_of_succ_le_succ h.length_le, fun last hlast w hw ↦ ?_,
          h.ends.imp_left Nat.succ.inj⟩
        refine h.deep last ?_ w hw
        cases message with
        | nil => exact nomatch hlast
        | cons => exact hlast
      rw [List.append_assoc] at hdepth ⊢
      rw [parse_symbol hdepth (scan_append hmem _) hne, List.drop_left' rfl, ← ih hlater]

/-- A list has one reading. -/
theorem reads_iff {read : List σ × List β} :
    t.Reads depth stop room bits read ↔ read = t.parse depth stop room bits := by
  refine ⟨Reads.eq_parse, ?_⟩
  rintro rfl
  exact parse_reads t depth stop room bits

/-- More input behind a reading does not change what was read, unless the reading ended because too
little was left. -/
theorem Reads.append {read : List σ × List β} (h : t.Reads depth stop room bits read)
    (hcomplete : t.Complete depth) (hlong : ¬ (read.2.length < depth ∧ read.1.length < room))
    (more : List β) : t.Reads depth stop room (bits ++ more) (read.1, read.2 ++ more) := by
  obtain ⟨u, hu, hsplit⟩ := h.split
  refine ⟨⟨u, hu, ?_⟩, h.not_mem, h.length_le, fun s hs word hword ↦ ?_, ?_⟩
  · rw [hsplit, List.append_assoc]
  · rw [List.length_append]
    exact (h.deep s hs word hword).trans (Nat.add_le_add_left (Nat.le_add_right _ _) _)
  · rcases h.ends with hfull | hshort | hnone | ⟨word, hstop⟩
    · exact .inl hfull
    · -- too little is left, so it was the room that ended the reading
      exact .inl (h.length_le.antisymm (not_lt.mp fun hroom ↦ hlong ⟨hshort, hroom⟩))
    · by_cases hshort : read.2.length < depth
      · exact .inl (h.length_le.antisymm (not_lt.mp fun hroom ↦ hlong ⟨hshort, hroom⟩))
      · have hsome := hcomplete read.2 (not_lt.mp hshort)
        rw [hnone] at hsome
        exact absurd hsome Bool.false_ne_true
    · obtain ⟨hmem, hbegins⟩ := scan_eq_some_iff.mp hstop
      have hbegins' := hbegins.trans (List.prefix_append read.2 more)
      exact .inr (.inr (.inr ⟨word, scan_eq_some_iff.mpr ⟨hmem, hbegins'⟩⟩))

/-- An encoded message in front of the stop symbol is read as it was written, as far as there is
room. -/
theorem parse_spell {message : List σ} (hspell : t.Spellable message) (hnot : stop ∉ message)
    (hstop : (stop, word) ∈ t.entries) (hdepth : depth ≤ word.length) (rest : List β) (room : ℕ) :
    t.parse depth stop room (t.spell message ++ (word ++ rest)) =
      (message.take room, t.spell (message.drop room) ++ (word ++ rest)) := by
  induction message generalizing room with
  | nil =>
    have hends : t.Ends depth stop (word ++ rest) := .inr (.inr ⟨word, scan_append hstop rest⟩)
    rw [List.take_nil, List.drop_nil, spell, List.nil_append, parse_ends hends]
  | cons s message ih =>
    obtain ⟨hfirst, hlater⟩ := List.forall_mem_cons.mp hspell
    obtain ⟨first, hfirst⟩ := Option.isSome_iff_exists.mp hfirst
    have hmem := word?_eq_some_iff.mp hfirst
    cases room with
    | zero => rfl
    | succ room =>
      have hne : s ≠ stop := fun heq ↦ hnot (heq ▸ List.mem_cons_self)
      have hlength : depth ≤ (first ++ (t.spell message ++ (word ++ rest))).length := by
        simp only [List.length_append]
        omega
      rw [spell_cons hmem, List.append_assoc, parse_symbol hlength (scan_append hmem _) hne,
        List.drop_left' rfl, ih hlater fun hin ↦ hnot (List.mem_cons_of_mem s hin)]
      rfl

end CodeTable

end Bitstream.Foundation
