import Bitstream.Reading.CursorRefinement

/-!
# A reader of both orders

`bs_read_bytes` called between two bytes gives the cached bytes back and empties the cache, so the
bits behind it may be read in either order. A `Turn` is a cursor together with the order that the
cached bits belong to, none for a fresh reader and behind such a call, even when the block is empty
or was not there. `reader_refines_cursor_in_turn`: along every run that changes the order only
there, whatever the reader does is what the cursor does.
-/

set_option autoImplicit false
set_option relaxedAutoImplicit false

namespace Bitstream.Reading

open Foundation Header

/-- A cursor, and the order its reader is bound to. -/
structure Turn where
  cursor : Cursor
  bound : Option BitOrder

/-- A fresh cursor is not bound. -/
def Turn.start (buffer : List (BitVec 8)) : Turn := ⟨.start buffer, none⟩

/-- The order of a call, none for a bulk copy. -/
def callOrder : ReaderCall → Option BitOrder
  | .readBit => some .msb
  | .readBits order _ | .peekBits order _ | .skipBits order _ => some order
  | .readBitsUnchecked order _ | .peekBitsUnchecked order _ | .skipBitsUnchecked order _ =>
    some order
  | .align order => some order
  | .readBytes _ _ => none

/-- The order that the reader is bound to behind a call: that of the call, and none behind a bulk
copy from between two bytes. -/
def Turn.rebound (turn : Turn) (call : ReaderCall) : Option BitOrder :=
  match callOrder call with
  | some order => some order
  | none => if turn.cursor.pos % 8 = 0 then none else turn.bound

/-- One call. -/
def Turn.step (call : ReaderCall) (turn : Turn) : ReaderReply × Turn :=
  ((turn.cursor.step call).1, ⟨(turn.cursor.step call).2, turn.rebound call⟩)

/-- A checked call, of widths of at most 32, in the order that the reader is bound to. -/
def InTurn (call : ReaderCall) (turn : Turn) : Prop :=
  match callOrder call with
  | none => True
  | some order => BitCall order call ∧ (turn.bound = none ∨ turn.bound = some order)

instance (call : ReaderCall) (turn : Turn) : Decidable (InTurn call turn) := by
  unfold InTurn
  cases callOrder call with
  | none => exact .isTrue trivial
  | some order => exact inferInstanceAs (Decidable (_ ∧ (_ ∨ _)))

/-- The reader tracks the cursor in the order it is bound to, in both where it is not bound. -/
def TracksTurn (bs : BsReader) (turn : Turn) : Prop :=
  ∀ order, turn.bound = none ∨ turn.bound = some order → Tracks order bs turn.cursor

theorem tracksTurn_start (buffer : List (BitVec 8)) :
    TracksTurn (bsReaderInit buffer buffer.length) (.start buffer) :=
  fun order _ ↦ tracks_init order buffer

namespace TracksTurn

variable {bs : BsReader} {turn : Turn} {call : ReaderCall}

/-- Some order is always tracked. -/
theorem tracks (h : TracksTurn bs turn) : ∃ order, Tracks order bs turn.cursor := by
  cases hbound : turn.bound with
  | none => exact ⟨.msb, h .msb (.inl hbound)⟩
  | some order => exact ⟨order, h order (.inr hbound)⟩

/-- A bulk copy is answered as the cursor answers it; from between two bytes it frees the reader,
from inside a byte it leaves it as it is. -/
theorem readBytes (sizeT : SizeT) (mode : Overshift) (h : TracksTurn bs turn)
    (dst : List (BitVec 8)) (nBytes : ℕ) :
    (readerAct sizeT (mode, .readBytes dst nBytes) bs).1 =
        (turn.step (.readBytes dst nBytes)).1 ∧
      TracksTurn (readerAct sizeT (mode, .readBytes dst nBytes) bs).2
        (turn.step (.readBytes dst nBytes)).2 := by
  have hread {order : BitOrder} (htracks : Tracks order bs turn.cursor) :
      Eval.Ensures mode (bsReadBytes sizeT bs dst nBytes) _ :=
    bsReadBytes_ensures sizeT htracks dst nBytes
  obtain ⟨first, hfirst⟩ := h.tracks
  have hpost := (hread hfirst).post
  refine ⟨?_, fun order horder ↦ ?_⟩
  · show _ = ReaderReply.block _ _
    rw [← hpost.1]
    rfl
  · change turn.rebound (.readBytes dst nBytes) = none ∨ _ at horder
    by_cases haligned : turn.cursor.pos % 8 = 0
    · exact hpost.2.2 haligned order
    · have hbound : turn.rebound (.readBytes dst nBytes) = turn.bound := if_neg haligned
      rw [Turn.step, hbound] at horder
      exact (hread (h order horder)).post.2.1

/-- The step lemma: a call in turn is answered as the cursor answers it. -/
theorem step (sizeT : SizeT) (issued : Overshift × ReaderCall) (h : TracksTurn bs turn)
    (hturn : InTurn issued.2 turn) :
    (readerAct sizeT issued bs).1 = (turn.step issued.2).1 ∧
      TracksTurn (readerAct sizeT issued bs).2 (turn.step issued.2).2 := by
  cases hcall : callOrder issued.2 with
  | none =>
    obtain ⟨mode, call⟩ := issued
    cases call with
    | readBytes dst nBytes => exact h.readBytes sizeT mode dst nBytes
    | _ => exact nomatch hcall
  | some order =>
    simp only [InTurn, hcall] at hturn
    obtain ⟨hbit, hbound⟩ := hturn
    have hallowed : AllowedCall sizeT order issued bs := hbit.allowed sizeT bs
    obtain ⟨hreply, htracks⟩ := readerAct_tracks sizeT (h order hbound) hallowed
    refine ⟨hreply, fun other hother ↦ ?_⟩
    have hrebound : turn.rebound issued.2 = some order := by rw [Turn.rebound, hcall]
    rw [Turn.step, hrebound] at hother
    obtain rfl := Option.some.inj (hother.resolve_left (nomatch ·))
    exact htracks

/-- What a caller sees of the reader is what it sees of the cursor. -/
theorem observation_eq (sizeT : SizeT) {reply reply' : ReaderReply} (h : TracksTurn bs turn)
    (hreply : reply = reply') :
    readerObservation sizeT (reply, bs) =
      Cursor.countedObservation sizeT (reply', turn.cursor) := by
  obtain ⟨order, htracks⟩ := h.tracks
  rw [readerObservation, hreply, htracks.bitsLeft_eq sizeT, htracks.eof_eq]
  rfl

end TracksTurn

/-- A reader used in both orders. After every call the reply, the bits left, counted in `size_t`,
and the end-of-stream test are those of the cursor. Assumes: the calls are checked reads, peeks and
skips with widths of at most 32, aligns and bulk copies, and the order changes only at the start or
directly behind a bulk copy, of any length and successful or not, made between two bytes. -/
theorem reader_refines_cursor_in_turn (sizeT : SizeT) (buffer : List (BitVec 8))
    (issued : List (Overshift × ReaderCall))
    (hturn : Along Turn.step InTurn (issued.map Prod.snd) (Turn.start buffer)) :
    (trace (readerAct sizeT) issued (bsReaderInit buffer buffer.length)).map
        (readerObservation sizeT) =
      (trace Turn.step (issued.map Prod.snd) (.start buffer)).map
        (fun entry ↦ Cursor.countedObservation sizeT (entry.1, entry.2.cursor)) := by
  refine map_trace_eq_of_along Prod.snd (fun call bs turn h hcall ↦ ?_) hturn
    (tracksTurn_start buffer)
  obtain ⟨hreply, hnext⟩ := h.step sizeT call hcall
  exact ⟨hnext.observation_eq sizeT hreply, hnext⟩

/-- A run over five bytes that changes the order twice, behind an empty block and behind one that is
not there. -/
theorem reader_refines_cursor_in_turn_five_bytes :
    (trace (readerAct sizeT64)
        ([.readBits .msb 11, .align .msb, .readBytes [] 0, .peekBits .lsb 5, .readBits .lsb 3,
          .readBytes [] 0, .skipBits .lsb 5, .readBytes [0, 0, 0] 3, .readBit,
          .readBits .msb 20].map (Prod.mk .masked))
        (bsReaderInit [0xA5, 0x3C, 0x96, 0x0F, 0xE1] 5)).map (readerObservation sizeT64) =
      (trace Turn.step
        (([.readBits .msb 11, .align .msb, .readBytes [] 0, .peekBits .lsb 5, .readBits .lsb 3,
          .readBytes [] 0, .skipBits .lsb 5, .readBytes [0, 0, 0] 3, .readBit,
          .readBits .msb 20].map (Prod.mk Overshift.masked)).map Prod.snd)
        (.start [0xA5, 0x3C, 0x96, 0x0F, 0xE1])).map
        (fun entry ↦ Cursor.countedObservation sizeT64 (entry.1, entry.2.cursor)) :=
  reader_refines_cursor_in_turn sizeT64 [0xA5, 0x3C, 0x96, 0x0F, 0xE1] _ (by decide)

end Bitstream.Reading
