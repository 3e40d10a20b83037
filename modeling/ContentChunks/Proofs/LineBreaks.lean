/-
Line breaks of two bytes. A text is cut in the same pieces whether its lines end
with a line feed or with a carriage return and a line feed.

The splitter that reads the longer line breaks is, after each byte of the text
with the shorter ones, the splitter that reads those, with every place that it
remembers moved by the line breaks before it (`Splitter.widened`). A byte that is no
line feed keeps it so (`feed_widened`); a line feed does, when the carriage return
before it has been remembered and is forgotten again (`feedAll_widened_break`).

Main statement: the pieces and the places where a text is cut (`pieces_crlf`).
-/
import ContentChunks.Proofs.Joining

namespace ContentChunks

/-- A text with a carriage return before each line feed. -/
def Bytes.crlf (data : Bytes) : Bytes :=
  data.flatMap fun b => if b = Cursor.lineFeed then [0x0D, Cursor.lineFeed] else [b]

/-! ## Places -/

namespace Cursor

/-- A place of a text, where each line break before it is one byte longer. -/
def widened (c : Cursor) : Cursor := { c with offset := c.offset + c.line }

theorem widened_advance {b : UInt8} (other : b ≠ lineFeed) (c : Cursor) :
    (c.advance b).widened = c.widened.advance b := by
  simp only [advance, if_neg other, widened, Cursor.mk.injEq, and_true]
  omega

theorem widened_advance_lineFeed (c : Cursor) :
    (c.advance lineFeed).widened = (c.widened.advance 0x0D).advance lineFeed := by
  have other : (0x0D : UInt8) ≠ lineFeed := by decide
  simp only [advance, if_neg other, ↓reduceIte, widened, Cursor.mk.injEq, and_true]
  omega

variable {data : Bytes} {c d : Cursor}

theorem In.line_le (hc : c.In data) (hd : d.In data) (le : c.offset ≤ d.offset) : c.line ≤ d.line := by
  rw [hc.2, hd.2]
  exact (List.take_sublist_take_left le).count_le lineFeed

theorem In.widened_lt (hc : c.In data) (hd : d.In data) :
    c.widened.offset < d.widened.offset ↔ c.offset < d.offset := by
  have up := hc.line_le hd
  have down := hd.line_le hc
  simp only [widened]
  omega

end Cursor

namespace Bytes

theorem crlf_append (x y : Bytes) : crlf (x ++ y) = crlf x ++ crlf y := List.flatMap_append

theorem crlf_cons_of_ne {b : UInt8} (other : b ≠ Cursor.lineFeed) (rest : Bytes) : crlf (b :: rest) = b :: crlf rest := by
  rw [crlf, List.flatMap_cons, if_neg other]
  rfl

theorem crlf_cons_lineFeed (rest : Bytes) :
    crlf (Cursor.lineFeed :: rest) = 0x0D :: Cursor.lineFeed :: crlf rest := rfl

theorem length_crlf (data : Bytes) : (crlf data).length = data.length + data.count Cursor.lineFeed := by
  induction data with
  | nil => rfl
  | cons b rest ih =>
    by_cases hb : b = Cursor.lineFeed
    · subst hb
      rw [crlf_cons_lineFeed, List.length_cons, List.length_cons, ih, List.length_cons, List.count_cons_self]
      omega
    · rw [crlf_cons_of_ne hb, List.length_cons, ih, List.length_cons, List.count_cons_of_ne hb]
      omega

theorem length_crlf_take {data : Bytes} {c : Cursor} (h : c.In data) :
    (crlf (data.take c.offset)).length = c.widened.offset := by
  have line : c.line = (data.take c.offset).count Cursor.lineFeed := by
    rw [h.2]
    rfl
  rw [length_crlf, List.length_take_of_le h.1, ← line]
  rfl

/-- Between the moved places of a text stands what stands between its places. -/
theorem slice_crlf {data : Bytes} {c d : Cursor} (hc : c.In data) (hd : d.In data) (le : c.offset ≤ d.offset) :
    (crlf data).slice c.widened.offset d.widened.offset = crlf (data.slice c.offset d.offset) := by
  have front : data.take d.offset = data.take c.offset ++ data.slice c.offset d.offset := by
    rw [slice, ← List.take_add, Nat.add_sub_cancel' le]
  have stop : d.widened.offset =
      (crlf (data.take c.offset)).length + (crlf (data.slice c.offset d.offset)).length := by
    rw [← length_crlf_take hd, front, crlf_append, List.length_append]
  have start : c.widened.offset = (crlf (data.take c.offset)).length + 0 := (length_crlf_take hc).symm
  rw [← List.take_append_drop d.offset data, crlf_append, slice_append_left (Nat.le_of_eq (length_crlf_take hd).symm),
    List.take_append_drop, front, crlf_append, start, stop, slice_append_right, slice_zero_length]

end Bytes

def Span.widened (s : Span) : Span := ⟨s.start.widened, s.stop.widened⟩

/-! ## Splitters -/

namespace Splitter

/-- A splitter, where each line break that it has read is one byte longer. -/
def widened (s : Splitter) : Splitter where
  line := s.line
  cursor := s.cursor.widened
  pending := s.pending.widened
  firstBreak := s.firstBreak.map Cursor.widened
  lastBreak := s.lastBreak.map Cursor.widened
  carriageReturn := s.carriageReturn.map Cursor.widened

section

variable {s : Splitter} {data : Bytes} {b : UInt8}

theorem ended_widened (h : s.Tracks data) :
    s.widened.ended = (s.ended.1.map Span.widened, s.ended.2.widened) := by
  unfold ended
  by_cases hl : s.line = .blankRun
  · obtain ⟨first, last, hf, hl', inFirst, -⟩ := h.breaks (by simp [hl])
    have order := h.pending.widened_lt inFirst
    by_cases text : s.pending.offset < first.offset
    · simp [widened, hl, closeRun, hf, hl', order, text, Span.widened]
    · simp [widened, hl, closeRun, hf, hl', order, text, Span.widened]
  · simp [widened, hl]

/-- **A byte that is no part of a line break** does the same to both splitters. -/
theorem feed_widened (h : s.Tracks data) (notLineFeed : b ≠ Cursor.lineFeed) (notReturn : b ≠ 0x0D) :
    s.widened.feed b = ((s.feed b).1.map Span.widened, (s.feed b).2.widened) := by
  have next := Cursor.widened_advance notLineFeed s.cursor
  have notLineFeed : b ≠ 0x0A := notLineFeed
  by_cases blank : b = 0x20 ∨ b = 0x09
  · cases hl : s.line <;> simp [feed, notLineFeed, notReturn, blank, widened, hl, next]
  · have text : ¬IsSpace b := fun space => space.elim notLineFeed (·.elim notReturn blank)
    rw [feed_text text, feed_text text, ended_widened h]
    simp [widened, next]

/-- **A line break** does the same to both, if no carriage return was read before it:
the one that is read now is forgotten with the line feed. -/
theorem feedAll_widened_break (forgotten : s.carriageReturn = none) :
    s.widened.feedAll [0x0D, Cursor.lineFeed] =
      ((s.feed Cursor.lineFeed).1.map Span.widened, (s.feed Cursor.lineFeed).2.widened) := by
  have next : (s.cursor.advance 0x0A).widened = (s.cursor.widened.advance 0x0D).advance 0x0A :=
    Cursor.widened_advance_lineFeed s.cursor
  rw [feedAll_cons, feedAll_cons, feedAll_nil]
  by_cases hl : s.line = .text
  · simp [feed, Cursor.lineFeed, widened, forgotten, hl, next]
  · simp [feed, Cursor.lineFeed, widened, forgotten, hl, next]

theorem carriageReturn_feed (notReturn : b ≠ 0x0D) : (s.feed b).2.carriageReturn = none := by
  unfold feed
  dsimp only
  split
  · rfl
  · split
    · rfl
    · rfl

end

/-- **The splitter of the longer line breaks** goes as that of the shorter ones. -/
theorem feedAll_widened {s : Splitter} {read data : Bytes} (h : s.Tracks read) (forgotten : s.carriageReturn = none)
    (plain : 0x0D ∉ data) :
    s.widened.feedAll data.crlf = ((s.feedAll data).1.map Span.widened, (s.feedAll data).2.widened) := by
  -- between two bytes of the plain text no carriage return is remembered, so each line break can be read as one
  induction data generalizing s read with
  | nil => rfl
  | cons b rest ih =>
    rw [List.mem_cons, not_or] at plain
    have notReturn : b ≠ 0x0D := fun e => plain.1 e.symm
    have later := ih (tracks_feed h b).1 (carriageReturn_feed notReturn) plain.2
    by_cases lineFeed : b = Cursor.lineFeed
    · subst lineFeed
      have both : Bytes.crlf (Cursor.lineFeed :: rest) = [0x0D, Cursor.lineFeed] ++ Bytes.crlf rest := rfl
      rw [both, feedAll_append, feedAll_widened_break forgotten, later, feedAll_cons, List.map_append]
    · rw [Bytes.crlf_cons_of_ne lineFeed, feedAll_cons, feed_widened h lineFeed notReturn, later, feedAll_cons,
        List.map_append]

theorem finish_widened {s : Splitter} {data : Bytes} (h : s.Tracks data) :
    s.widened.finish.1 = s.finish.1.map Span.widened := by
  obtain ⟨inPending, cursor⟩ := h.ended
  have order := inPending.widened_lt (cursor ▸ h.in_cursor)
  rw [finish_fst, finish_fst, ended_widened h, List.map_append]
  by_cases more : s.ended.2.pending.offset < s.ended.2.cursor.offset
  · simp [widened, order, more, Span.widened]
  · simp [widened, order, more]

theorem spans_widened {data : Bytes} (plain : 0x0D ∉ data) : spans data.crlf = (spans data).map Span.widened := by
  have run : start.feedAll data.crlf = ((start.feedAll data).1.map Span.widened, (start.feedAll data).2.widened) :=
    feedAll_widened tracks_start rfl plain
  have finished := finish_widened (tracks_feedAll tracks_start data).1
  simp only [spans, run, finished, List.map_append]

/-- The pieces that a text is cut into. -/
def pieces (data : Bytes) : List Bytes := (spans data).map fun s => data.slice s.start.offset s.stop.offset

/-- **A text whose line feeds get a carriage return each** is cut into the same
pieces, where theirs get them too, and each boundary is in the line and the column
that it was in: its offset is greater by the line breaks before it. -/
theorem pieces_crlf {data : Bytes} (plain : 0x0D ∉ data) :
    pieces data.crlf = (pieces data).map Bytes.crlf ∧
      spans data.crlf = (spans data).map Span.widened := by
  have widened := spans_widened plain
  refine ⟨?_, widened⟩
  obtain ⟨tile, ins⟩ := spans_tile data
  rw [pieces, pieces, widened, List.map_map, List.map_map]
  refine List.map_congr_left fun s mem => ?_
  exact Bytes.slice_crlf (ins s mem).1 (ins s mem).2 (Nat.le_of_lt (tile.start_lt_stop s mem))

/-- Blanks stand before, between and after the line breaks. -/
theorem pieces_crlf_blanks :
    let data := Bytes.ofText "a \n\t\n b\nc\n\n "
    0x0D ∉ data ∧ (pieces data).length = 5 ∧ pieces data.crlf = (pieces data).map Bytes.crlf ∧
      spans data.crlf = (spans data).map Span.widened := by
  intro data
  have plain : 0x0D ∉ data := by decide
  exact ⟨plain, by decide, pieces_crlf plain⟩

end Splitter

end ContentChunks
