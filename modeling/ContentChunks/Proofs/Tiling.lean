/-
The chunks of an asset tile it: they lie end to end from its first byte to its
last, none is empty, and each has the signature of the bytes that it covers.

The splitter remembers four places of what it has read. `Splitter.Tracks` says
of each that it is a place of those bytes and in which order they stand; it is
kept by every byte in every state (`tracks_feed`) and by closing a run
(`tracks_closeRun`), and from it follows that the spans that are given lie end
to end (`spans_tile`).
-/
import ContentChunks.Chunker
import Mathlib.Data.List.Chain

namespace ContentChunks

/-! ## Places -/

namespace Cursor

/-- The place after so many bytes of a text, told by the bytes before it: the
line counts their line feeds, the column those after the last line feed. -/
def inText (data : Bytes) (offset : Nat) : Cursor :=
  ⟨offset, (data.take offset).count lineFeed,
    ((data.take offset).reverse.takeWhile (· != lineFeed)).length⟩

/-- Whether a cursor is a place of a text. -/
def In (c : Cursor) (data : Bytes) : Prop := c.offset ≤ data.length ∧ c = inText data c.offset

theorem in_inText {data : Bytes} {offset : Nat} (h : offset ≤ data.length) : (inText data offset).In data :=
  ⟨h, rfl⟩

theorem inText_append {data : Bytes} {offset : Nat} (h : offset ≤ data.length) (more : Bytes) :
    inText (data ++ more) offset = inText data offset := by
  unfold inText
  rw [List.take_append_of_le_length h]

theorem In.append {c : Cursor} {data : Bytes} (h : c.In data) (more : Bytes) : c.In (data ++ more) := by
  refine ⟨?_, ?_⟩
  · have := h.1
    rw [List.length_append]
    omega
  · rw [inText_append h.1]
    exact h.2

theorem inText_snoc (data : Bytes) (b : UInt8) :
    inText (data ++ [b]) (data ++ [b]).length = (inText data data.length).advance b := by
  simp only [inText, advance, List.take_length]
  by_cases hb : b = lineFeed
  · simp [hb]
  · have hne : (b != lineFeed) = true := by simpa using hb
    simp [hb, List.count_append, hne]

theorem in_start (data : Bytes) : start.In data := ⟨Nat.zero_le _, by simp [start, inText]⟩

end Cursor

/-- Whether spans lie end to end from a place to another, none of them empty. -/
def Span.Tile : Cursor → List Span → Cursor → Prop
  | here, [], stop => here = stop
  | here, s :: rest, stop => s.start = here ∧ here.offset < s.stop.offset ∧ Span.Tile s.stop rest stop

theorem Span.Tile.append {x y z : Cursor} {s t : List Span} (hs : Span.Tile x s y) (ht : Span.Tile y t z) :
    Span.Tile x (s ++ t) z := by
  induction s generalizing x with
  | nil =>
    simp only [Span.Tile] at hs
    subst hs
    exact ht
  | cons a rest ih =>
    obtain ⟨h1, h2, h3⟩ := hs
    exact ⟨h1, h2, ih h3⟩

/-! ## What a splitter remembers -/

namespace Splitter

/-- What a splitter remembers is true of the bytes it has read: each place is
one of them, and none is before the span being collected. In a line that has
not begun, a break was read, and a run of them covers a byte. -/
structure Tracks (s : Splitter) (data : Bytes) : Prop where
  cursor : s.cursor = .inText data data.length
  pending : s.pending.In data
  carriageReturn : ∀ c, s.carriageReturn = some c → c.In data ∧ s.pending.offset ≤ c.offset
  breaks : s.line ≠ .text → ∃ first last, s.firstBreak = some first ∧ s.lastBreak = some last ∧
    first.In data ∧ last.In data ∧ s.pending.offset ≤ first.offset ∧ first.offset < last.offset

theorem tracks_start : Tracks start [] where
  cursor := rfl
  pending := Cursor.in_start []
  carriageReturn := by simp [start]
  breaks := by simp [start]

theorem Tracks.in_cursor {s : Splitter} {data : Bytes} (h : s.Tracks data) : s.cursor.In data :=
  h.cursor ▸ Cursor.in_inText (Nat.le_refl _)

theorem Tracks.offset_cursor {s : Splitter} {data : Bytes} (h : s.Tracks data) :
    s.cursor.offset = data.length := by
  rw [h.cursor]
  rfl

/-- Closing a run gives spans that end where the next one begins. -/
theorem tracks_closeRun {s : Splitter} {data : Bytes} (h : s.Tracks data) (hl : s.line = .blankRun) :
    Span.Tile s.pending s.closeRun.1 s.closeRun.2.pending ∧
      (∀ x ∈ s.closeRun.1, x.start.In data ∧ x.stop.In data) ∧
      s.closeRun.2.pending.In data ∧ s.closeRun.2.cursor = s.cursor := by
  obtain ⟨first, last, hf, hl', in1, in2, le, lt⟩ := h.breaks (by simp [hl])
  simp only [closeRun, hf, hl']
  refine ⟨?_, ?_, in2, trivial⟩
  · by_cases hp : s.pending.offset < first.offset
    · simp [hp, Span.Tile, lt]
    -- Two places of a text with the same offset are the same place.
    · have heq : s.pending = first := by
        rw [h.pending.2, in1.2, Nat.le_antisymm le (Nat.le_of_not_lt hp)]
      simp [Span.Tile, heq, lt]
  · intro x hx
    rw [List.mem_append, List.mem_singleton] at hx
    rcases hx with hx | rfl
    · split at hx
      · rw [List.mem_singleton] at hx
        subst hx
        exact ⟨h.pending, in1⟩
      · simp at hx
    · exact ⟨in1, in2⟩

theorem Tracks.cursor_advance {s : Splitter} {data : Bytes} (h : s.Tracks data) (b : UInt8) :
    s.cursor.advance b = .inText (data ++ [b]) (data ++ [b]).length := by
  rw [h.cursor, Cursor.inText_snoc]

theorem Tracks.in_advance {s : Splitter} {data : Bytes} (h : s.Tracks data) (b : UInt8) :
    (s.cursor.advance b).In (data ++ [b]) :=
  h.cursor_advance b ▸ Cursor.in_inText (Nat.le_refl _)

theorem Tracks.offset_lt_advance {s : Splitter} {data : Bytes} {c : Cursor} (h : s.Tracks data) (hc : c.In data)
    (b : UInt8) : c.offset < (s.cursor.advance b).offset := by
  have := hc.1
  rw [Cursor.offset_advance, h.offset_cursor]
  omega

/-- A break begins at the carriage return before its line feed, if there is one. -/
theorem Tracks.break_start {s : Splitter} {data : Bytes} (h : s.Tracks data) :
    (s.carriageReturn.getD s.cursor).In data ∧ s.pending.offset ≤ (s.carriageReturn.getD s.cursor).offset := by
  cases hc : s.carriageReturn with
  | some c => exact h.carriageReturn c hc
  | none => exact ⟨h.in_cursor, h.offset_cursor ▸ h.pending.1⟩

theorem Tracks.breaks_append {s : Splitter} {data : Bytes} (h : s.Tracks data) (b : UInt8) (hl : s.line ≠ .text) :
    ∃ first last, s.firstBreak = some first ∧ s.lastBreak = some last ∧
      first.In (data ++ [b]) ∧ last.In (data ++ [b]) ∧ s.pending.offset ≤ first.offset ∧
      first.offset < last.offset := by
  obtain ⟨first, last, hf, hl', in1, in2, le, lt⟩ := h.breaks hl
  exact ⟨first, last, hf, hl', in1.append [b], in2.append [b], le, lt⟩

theorem tracks_lineFeed {s : Splitter} {data : Bytes} (h : s.Tracks data) :
    (s.feed 0x0A).2.Tracks (data ++ [0x0A]) ∧ (s.feed 0x0A).1 = [] ∧ (s.feed 0x0A).2.pending = s.pending := by
  have next := h.cursor_advance 0x0A
  have inNext := h.in_advance 0x0A
  have pending := h.pending.append [0x0A]
  unfold feed
  dsimp only
  rw [if_pos rfl]
  by_cases hl : s.line = .text
  · obtain ⟨in1, le⟩ := h.break_start
    have lt := h.offset_lt_advance in1 0x0A
    simp only [hl, ↓reduceIte, and_self, and_true]
    exact ⟨next, pending, by simp, fun _ => ⟨_, _, rfl, rfl, in1.append _, inNext, le, lt⟩⟩
  · obtain ⟨first, last, hf, -, in1, in2, le, -⟩ := h.breaks hl
    have lt := h.offset_lt_advance in1 0x0A
    simp only [hl, ↓reduceIte, and_self, and_true]
    exact ⟨next, pending, by simp, fun _ => ⟨_, _, hf, rfl, in1.append _, inNext, le, lt⟩⟩

theorem tracks_carriageReturn {s : Splitter} {data : Bytes} (h : s.Tracks data) :
    (s.feed 0x0D).2.Tracks (data ++ [0x0D]) ∧ (s.feed 0x0D).1 = [] ∧ (s.feed 0x0D).2.pending = s.pending := by
  refine ⟨⟨h.cursor_advance 0x0D, h.pending.append [0x0D], ?_, h.breaks_append 0x0D⟩, rfl, rfl⟩
  rintro c ⟨⟩
  exact ⟨h.in_cursor.append [0x0D], h.offset_cursor ▸ h.pending.1⟩

theorem tracks_blank {s : Splitter} {data : Bytes} (h : s.Tracks data) {b : UInt8} (blank : b = 0x20 ∨ b = 0x09) :
    (s.feed b).2.Tracks (data ++ [b]) ∧ (s.feed b).1 = [] ∧ (s.feed b).2.pending = s.pending := by
  have next := h.cursor_advance b
  have notLineFeed : b ≠ 0x0A := by rcases blank with rfl | rfl <;> decide
  have notReturn : b ≠ 0x0D := by rcases blank with rfl | rfl <;> decide
  unfold feed
  dsimp only
  rw [if_neg notLineFeed, if_neg notReturn, if_pos blank]
  refine ⟨⟨next, h.pending.append [b], by simp, ?_⟩, rfl, rfl⟩
  intro hl
  refine h.breaks_append b ?_
  intro text
  simp [text] at hl

theorem tracks_text {s : Splitter} {data : Bytes} (h : s.Tracks data) {b : UInt8} (notLineFeed : b ≠ 0x0A)
    (notReturn : b ≠ 0x0D) (notBlank : ¬(b = 0x20 ∨ b = 0x09)) :
    (s.feed b).2.Tracks (data ++ [b]) ∧ Span.Tile s.pending (s.feed b).1 (s.feed b).2.pending ∧
      ∀ x ∈ (s.feed b).1, x.start.In (data ++ [b]) ∧ x.stop.In (data ++ [b]) := by
  have next := h.cursor_advance b
  unfold feed
  dsimp only
  rw [if_neg notLineFeed, if_neg notReturn, if_neg notBlank]
  by_cases hl : s.line = .blankRun
  · obtain ⟨tile, ins, inPending, hc⟩ := tracks_closeRun h hl
    simp only [hl, ↓reduceIte]
    refine ⟨⟨next, inPending.append [b], by simp, by simp⟩, tile, ?_⟩
    intro x hx
    exact ⟨(ins x hx).1.append [b], (ins x hx).2.append [b]⟩
  · simp only [hl, ↓reduceIte]
    exact ⟨⟨next, h.pending.append [b], by simp, by simp⟩, rfl, by simp⟩

/-- **A byte keeps what a splitter remembers true**, whatever line it is in,
and the spans that the byte closes lie between where the collected span began
before it and where the collected span begins after it. -/
theorem tracks_feed {s : Splitter} {data : Bytes} (h : s.Tracks data) (b : UInt8) :
    (s.feed b).2.Tracks (data ++ [b]) ∧ Span.Tile s.pending (s.feed b).1 (s.feed b).2.pending ∧
      ∀ x ∈ (s.feed b).1, x.start.In (data ++ [b]) ∧ x.stop.In (data ++ [b]) := by
  -- nothing is closed but by a byte of text
  have kept (quiet : (s.feed b).2.Tracks (data ++ [b]) ∧ (s.feed b).1 = [] ∧ (s.feed b).2.pending = s.pending) :
      (s.feed b).2.Tracks (data ++ [b]) ∧ Span.Tile s.pending (s.feed b).1 (s.feed b).2.pending ∧
        ∀ x ∈ (s.feed b).1, x.start.In (data ++ [b]) ∧ x.stop.In (data ++ [b]) := by
    obtain ⟨tracks, closed, same⟩ := quiet
    rw [closed, same]
    exact ⟨tracks, rfl, by simp⟩
  by_cases lineFeed : b = 0x0A
  · subst lineFeed
    exact kept (tracks_lineFeed h)
  by_cases carriageReturn : b = 0x0D
  · subst carriageReturn
    exact kept (tracks_carriageReturn h)
  by_cases blank : b = 0x20 ∨ b = 0x09
  · exact kept (tracks_blank h blank)
  · exact tracks_text h lineFeed carriageReturn blank

theorem tracks_feedAll {s : Splitter} {read : Bytes} (h : s.Tracks read) (data : Bytes) :
    (s.feedAll data).2.Tracks (read ++ data) ∧ Span.Tile s.pending (s.feedAll data).1 (s.feedAll data).2.pending ∧
      ∀ x ∈ (s.feedAll data).1, x.start.In (read ++ data) ∧ x.stop.In (read ++ data) := by
  induction data generalizing s read with
  | nil => simpa [Span.Tile] using h
  | cons b rest ih =>
    obtain ⟨h1, t1, i1⟩ := tracks_feed h b
    obtain ⟨h2, t2, i2⟩ := ih h1
    rw [feedAll_cons]
    rw [List.append_assoc, List.singleton_append] at h2 i2
    refine ⟨h2, t1.append t2, fun x hx => ?_⟩
    rcases List.mem_append.1 hx with hx | hx
    · have := i1 x hx
      rw [← List.singleton_append, ← List.append_assoc]
      exact ⟨this.1.append rest, this.2.append rest⟩
    · exact i2 x hx

/-- The spans that end a text lie between the collected span's beginning and the end. -/
theorem tracks_finish {s : Splitter} {data : Bytes} (h : s.Tracks data) :
    Span.Tile s.pending s.finish.1 (.inText data data.length) ∧
      ∀ x ∈ s.finish.1, x.start.In data ∧ x.stop.In data := by
  -- What is left after the run is closed, or if there is none.
  have rest : ∀ t : Splitter, t.pending.In data → t.cursor = s.cursor →
      Span.Tile t.pending (if t.pending.offset < t.cursor.offset then [⟨t.pending, t.cursor⟩] else [])
        (.inText data data.length) ∧
      ∀ x ∈ (if t.pending.offset < t.cursor.offset then [(⟨t.pending, t.cursor⟩ : Span)] else []),
        x.start.In data ∧ x.stop.In data := by
    intro t inPending hc
    rw [hc, h.cursor]
    split
    · rename_i lt
      exact ⟨⟨rfl, lt, rfl⟩, by simpa using ⟨inPending, Cursor.in_inText (Nat.le_refl _)⟩⟩
    · rename_i ge
      have : t.pending.offset = data.length := Nat.le_antisymm inPending.1 (Nat.le_of_not_lt ge)
      refine ⟨?_, by simp⟩
      rw [inPending.2, this]
      rfl
  unfold finish
  by_cases hl : s.line = .blankRun
  · obtain ⟨tile, ins, inPending, hc⟩ := tracks_closeRun h hl
    obtain ⟨tile', ins'⟩ := rest s.closeRun.2 inPending hc
    simp only [hl, ↓reduceIte]
    refine ⟨tile.append tile', fun x hx => ?_⟩
    rcases List.mem_append.1 hx with hx | hx
    · exact ins x hx
    · exact ins' x hx
  · simp only [hl, ↓reduceIte, List.nil_append]
    exact rest s h.pending rfl

/-- The spans of a text lie end to end from its beginning to its end, and their
ends are places of it. -/
theorem spans_tile (data : Bytes) :
    Span.Tile .start (spans data) (.inText data data.length) ∧
      ∀ x ∈ spans data, x.start.In data ∧ x.stop.In data := by
  obtain ⟨h, tile, ins⟩ := tracks_feedAll tracks_start data
  obtain ⟨tile', ins'⟩ := tracks_finish h
  unfold spans
  refine ⟨tile.append tile', fun x hx => ?_⟩
  rcases List.mem_append.1 hx with hx | hx
  · exact ins x hx
  · exact ins' x hx

end Splitter

/-! ## Chunks -/

/-- Whether ranges lie end to end from an offset to another, none of them empty. -/
def Range.Tile : Nat → List Range → Nat → Prop
  | here, [], stop => here = stop
  | here, r :: rest, stop => r.start = here ∧ here < r.stop ∧ Range.Tile r.stop rest stop

/-- Whether a range ends where another begins, in texts by line and column too. -/
def Range.Meets : Range → Range → Prop
  | .text _ p, .text q _ => p = q
  | r, s => r.stop = s.start

/-- Whether both ends of a range are places of a text, with their lines and columns. -/
def Range.InText (data : Bytes) : Range → Prop
  | .text p q => p = (Cursor.inText data p.offset).toTextPosition ∧ q = (Cursor.inText data q.offset).toTextPosition
  | .bytes .. => False

/-- What makes chunks a tiling of an asset. -/
structure Chunk.Tiling (algorithm : Algorithm) (data : Bytes) (chunks : List Chunk) : Prop where
  /-- The chunks lie end to end, from the first byte to the last. -/
  tile : Range.Tile 0 (chunks.map (·.range)) data.length
  meets : (chunks.map (·.range)).IsChain Range.Meets
  /-- No chunk reaches beyond the asset. -/
  inside : ∀ c ∈ chunks, c.range.start ≤ c.range.stop ∧ c.range.stop ≤ data.length
  signed : ∀ c ∈ chunks, c.signature = .of algorithm (data.slice c.range.start c.range.stop)
  /-- The asset is cut as a text or kept whole. -/
  ranges : (∀ c ∈ chunks, c.range.InText data) ∨ ∃ c, chunks = [c] ∧ c.range = .bytes 0 data.length

theorem Range.Tile.le {here stop : Nat} {ranges : List Range} (h : Range.Tile here ranges stop) : here ≤ stop := by
  induction ranges generalizing here with
  | nil => exact Nat.le_of_eq h
  | cons r rest ih =>
    obtain ⟨-, filled, h⟩ := h
    have := ih h
    omega

theorem Range.Tile.inside {here stop : Nat} {ranges : List Range} (h : Range.Tile here ranges stop) {r : Range}
    (mem : r ∈ ranges) : r.start < r.stop ∧ r.stop ≤ stop := by
  induction ranges generalizing here with
  | nil => cases mem
  | cons first rest ih =>
    obtain ⟨start, filled, h⟩ := h
    rcases List.mem_cons.1 mem with rfl | mem
    · have := h.le
      omega
    · exact ih h mem

theorem Range.Tile.flatten {here stop : Nat} {ranges : List Range} (h : Range.Tile here ranges stop) (data : Bytes) :
    (ranges.map fun r => data.slice r.start r.stop).flatten = data.slice here stop := by
  induction ranges generalizing here with
  | nil =>
    obtain rfl : here = stop := h
    simp [Bytes.slice]
  | cons r rest ih =>
    obtain ⟨rfl, filled, h⟩ := h
    rw [List.map_cons, List.flatten_cons, ih h, Bytes.slice_append_slice _ (Nat.le_of_lt filled) h.le]

theorem Span.Tile.ranges {here stop : Cursor} {spans : List Span} (h : Span.Tile here spans stop) :
    Range.Tile here.offset (spans.map Span.toRange) stop.offset := by
  induction spans generalizing here with
  | nil => exact congrArg Cursor.offset h
  | cons s rest ih =>
    obtain ⟨rfl, lt, h⟩ := h
    exact ⟨rfl, lt, ih h⟩

theorem Span.Tile.meets {here stop : Cursor} {spans : List Span} (h : Span.Tile here spans stop) :
    (spans.map Span.toRange).IsChain Range.Meets := by
  induction spans generalizing here with
  | nil => exact .nil
  | cons s rest ih =>
    obtain ⟨-, -, h⟩ := h
    cases rest with
    | nil => exact .singleton _
    | cons t rest => exact .cons_cons (congrArg Cursor.toTextPosition h.1.symm) (ih h)

theorem Span.Tile.start_lt_stop {here stop : Cursor} {spans : List Span} (h : Span.Tile here spans stop) :
    ∀ s ∈ spans, s.start.offset < s.stop.offset := by
  induction spans generalizing here with
  | nil => simp
  | cons s rest ih =>
    obtain ⟨rfl, lt, h⟩ := h
    intro x hx
    rcases List.mem_cons.1 hx with rfl | hx
    · exact lt
    · exact ih h x hx

theorem Span.inText_toRange {s : Span} {data : Bytes} (h1 : s.start.In data) (h2 : s.stop.In data) :
    s.toRange.InText data :=
  ⟨congrArg Cursor.toTextPosition h1.2, congrArg Cursor.toTextPosition h2.2⟩

theorem Kind.length_pos_of_binary {data : Bytes} {sample : Option Nat} (h : Kind.of data sample = .binary) :
    0 < data.length := by
  obtain ⟨b, hb, -⟩ := Kind.shownBy_eq_binary_iff.1 h
  refine List.length_pos_of_mem (a := b) ?_
  cases sample with
  | none => exact hb
  | some n => exact List.mem_of_mem_take hb

/-- **The chunks of an asset tile it**, whatever its bytes and the
configuration: they lie end to end from its first byte to its last, in a text
by line and column too, none is empty or reaches beyond the asset, and each has
the signature of just the bytes that it covers. A text's ranges tell the true
line and column of their ends; a binary asset is one chunk. -/
theorem ofAsset_tiling (config : ChunkConfig) (location : Location) (data : Bytes) :
    Chunk.Tiling config.algorithm data (Chunk.ofAsset config location data) ∧
      (data = [] → Chunk.ofAsset config location data = []) := by
  unfold Chunk.ofAsset
  split
  · rename_i hk
    have pos := Kind.length_pos_of_binary hk
    refine ⟨⟨⟨rfl, pos, rfl⟩, .singleton _, ?_, ?_, .inr ⟨_, rfl, rfl⟩⟩, ?_⟩
    · simp [Range.start, Range.stop]
    · simp [Range.start, Range.stop]
    · rintro rfl
      simp at pos
  · obtain ⟨tile, ins⟩ := Splitter.spans_tile data
    have ranges : ∀ f : Span → Signature,
        ((Splitter.spans data).map fun s => (⟨location, s.toRange, f s⟩ : Chunk)).map (·.range) =
          (Splitter.spans data).map Span.toRange := by
      simp [Function.comp_def]
    refine ⟨⟨?_, ?_, ?_, ?_, .inl ?_⟩, ?_⟩
    · rw [ranges]
      exact tile.ranges
    · rw [ranges]
      exact tile.meets
    · simp only [List.mem_map]
      rintro c ⟨s, hs, rfl⟩
      exact ⟨Nat.le_of_lt (tile.start_lt_stop s hs), (ins s hs).2.1⟩
    · simp only [List.mem_map]
      rintro c ⟨s, hs, rfl⟩
      rfl
    · simp only [List.mem_map]
      rintro c ⟨s, hs, rfl⟩
      exact Span.inText_toRange (ins s hs).1 (ins s hs).2
    · rintro rfl
      rfl

/-- Two paragraphs and the blank run between them. -/
example : (Splitter.spans (Bytes.ofText "a\n\nb")).map Span.toRange =
    [.text ⟨0, some 0, some 0⟩ ⟨1, some 0, some 1⟩, .text ⟨1, some 0, some 1⟩ ⟨3, some 2, some 0⟩,
      .text ⟨3, some 2, some 0⟩ ⟨4, some 2, some 1⟩] := by
  decide

end ContentChunks
