/-
The pieces of a text are not cut again. A blank run of a piece lies in one of the
text (`BlankRun.around`), which is cut where its line breaks begin and end; since
the piece is not cut between, it is just those line breaks, and so it is cut at its
ends only (`Between.isCut_iff`).

Main statements:
- `Splitter.spans_slice`: what a span of a text covers is one span.
- `ofAsset_payload`: the payload of a chunk is one chunk of the same signature, under any sample too.
-/
import ContentChunks.Proofs.Joining
import Mathlib.Data.Nat.Find

namespace ContentChunks

/-! ## Runs around a stretch -/

section

variable {data : Bytes} {start stop first last : Nat}

theorem spaceAt_or_textAt {i : Nat} (within : i < data.length) : SpaceAt data i ∨ TextAt data i := by
  have here := List.getElem?_eq_getElem within
  by_cases space : IsSpace data[i]
  · exact .inl ⟨_, here, space⟩
  · exact .inr ⟨_, here, space⟩

theorem exists_opening (within : stop ≤ data.length) :
    ∃ start, start ≤ stop ∧ (∀ i, start ≤ i → i < stop → SpaceAt data i) ∧ (start = 0 ∨ TextAt data (start - 1)) := by
  induction stop with
  | zero => exact ⟨0, Nat.le_refl 0, fun i _ high => absurd high (Nat.not_lt_zero i), .inl rfl⟩
  | succ stop ih =>
    cases spaceAt_or_textAt within with
    | inl space =>
      obtain ⟨start, le, spaces, opens⟩ := ih (Nat.le_of_succ_le within)
      refine ⟨start, Nat.le_succ_of_le le, fun i low high => ?_, opens⟩
      by_cases here : i = stop
      · exact here ▸ space
      · exact spaces i low (by omega)
    | inr text => exact ⟨stop + 1, Nat.le_refl _, fun i low high => absurd high (Nat.not_lt_of_le low), .inr text⟩

theorem exists_closing (within : start ≤ data.length) :
    ∃ stop, start ≤ stop ∧ stop ≤ data.length ∧ (∀ i, start ≤ i → i < stop → SpaceAt data i) ∧
      (stop = data.length ∨ TextAt data stop) := by
  obtain ⟨spaces, closes⟩ := leadingSpaces_maximal (data.drop start)
  have short : (leadingSpaces (data.drop start)).length ≤ data.length - start :=
    List.length_drop ▸ (List.takeWhile_sublist _).length_le
  have moved : ∀ i, data[start + i]? = (data.drop start)[i]? := fun i => List.getElem?_drop.symm
  refine ⟨start + (leadingSpaces (data.drop start)).length, Nat.le_add_right _ _, by omega, fun i low high => ?_, ?_⟩
  · obtain ⟨i, rfl⟩ := Nat.exists_eq_add_of_le low
    rw [SpaceAt, moved]
    exact spaces i (by omega)
  · rw [TextAt, moved]
    refine closes.imp_left fun ended => ?_
    rw [ended, List.length_drop]
    omega

theorem exists_lineFeeds {i : Nat} (low : start ≤ i) (high : i < stop) (here : data[i]? = some Cursor.lineFeed) :
    ∃ first last, LineFeeds data start stop first last := by
  have lineFeed : ∃ n, start ≤ n ∧ data[n]? = some Cursor.lineFeed := ⟨i, low, here⟩
  obtain ⟨firstLow, atFirst⟩ := Nat.find_spec lineFeed
  have firstLe : Nat.find lineFeed ≤ i := Nat.find_min' lineFeed ⟨low, here⟩
  have lastLe : i ≤ Nat.findGreatest (fun n => data[n]? = some Cursor.lineFeed) (stop - 1) :=
    Nat.le_findGreatest (by omega) here
  have lastHigh := Nat.findGreatest_le (P := fun n => data[n]? = some Cursor.lineFeed) (stop - 1)
  refine ⟨_, _, ⟨firstLow, Nat.le_trans firstLe lastLe, by omega⟩, atFirst,
    Nat.findGreatest_spec (P := fun n => data[n]? = some Cursor.lineFeed) (by omega : i ≤ stop - 1) here,
    fun n low less found => Nat.find_min lineFeed less ⟨low, found⟩,
    fun n more high => Nat.findGreatest_is_greatest more (by omega)⟩

theorem exists_blankRun_around (run : ∀ i, start ≤ i → i < stop → SpaceAt data i) (within : stop ≤ data.length)
    (feeds : LineFeeds data start stop first last) (several : first < last) :
    ∃ start' stop' first' last', BlankRun data start' stop' first' last' ∧
      start' ≤ start ∧ stop ≤ stop' ∧ first' ≤ first ∧ last ≤ last' := by
  have order := feeds.order
  obtain ⟨start', startLe, before, opens⟩ := exists_opening (show start ≤ data.length by omega)
  obtain ⟨stop', stopLe, inside, after, closes⟩ := exists_closing within
  have spaces : ∀ i, start' ≤ i → i < stop' → SpaceAt data i := by
    intro i low high
    by_cases early : i < start
    · exact before i low early
    · by_cases late : i < stop
      · exact run i (by omega) late
      · exact after i (by omega) high
  obtain ⟨first', last', feeds'⟩ :=
    exists_lineFeeds (show start' ≤ first by omega) (show first < stop' by omega) feeds.atFirst
  have firstLe : first' ≤ first := by
    by_contra less
    exact feeds'.before first (by omega) (by omega) feeds.atFirst
  have lastLe : last ≤ last' := by
    by_contra more
    exact feeds'.after last (by omega) (by omega) feeds.atLast
  exact ⟨start', stop', first', last', ⟨⟨⟨by omega, inside⟩, spaces, opens⟩, feeds', closes, by omega⟩,
    startLe, stopLe, firstLe, lastLe⟩

/-! ## Cuts beside a run -/

theorem le_breakStart (data : Bytes) (order : start ≤ first) : start ≤ breakStart data start first := by
  unfold breakStart
  split <;> omega

variable {start' stop' first' last' : Nat}

theorem BlankRun.eq_of_common (h : BlankRun data start stop first last) (h' : BlankRun data start' stop' first' last')
    {i : Nat} (inside : start ≤ i ∧ i < stop) (inside' : start' ≤ i ∧ i < stop') :
    start = start' ∧ first = first' ∧ last = last' := by
  have within := h.within
  have within' := h'.within
  obtain rfl : stop = stop' := by
    by_contra other
    by_cases shorter : stop < stop'
    · have text := h.closes.resolve_left (by omega)
      exact (h'.spaces stop (by omega) shorter).not_textAt text
    · have text := h'.closes.resolve_left (by omega)
      exact (h.spaces stop' (by omega) (by omega)).not_textAt text
  exact h.unique h'

theorem BlankRun.not_isCut (h : BlankRun data start stop first last) {c : Nat}
    (low : breakStart data start first < c) (high : c ≤ last) : ¬IsCut data c := by
  have within := h.within
  have order := h.order
  have began := le_breakStart data order.1
  intro cut
  rcases cut with zero | full | ⟨start', stop', first', last', run, cut⟩
  · omega
  · omega
  · have order' := run.order
    obtain rfl | rfl := cut
    · have began' := le_breakStart data order'.1
      have before := breakStart_le data start' first'
      obtain ⟨rfl, rfl, rfl⟩ := h.eq_of_common run (by omega) ⟨began', by omega⟩
      exact Nat.lt_irrefl _ low
    · obtain ⟨rfl, rfl, rfl⟩ := h.eq_of_common run (i := last') (by omega) (by omega)
      omega

end

/-! ## Pieces -/

/-- Whether a text stands between two cuts that follow each other. -/
structure Between (x p y : Bytes) : Prop where
  opens : IsCut (x ++ (p ++ y)) x.length
  closes : IsCut (x ++ (p ++ y)) (x.length + p.length)
  uncut : ∀ c, x.length < c → c < x.length + p.length → ¬IsCut (x ++ (p ++ y)) c

section

variable {x p y : Bytes} {start stop first last : Nat}

theorem getElem?_between (x y : Bytes) {i : Nat} (within : i < p.length) : (x ++ (p ++ y))[x.length + i]? = p[i]? := by
  rw [getElem?_moved, List.getElem?_append_left within]

/-- A blank run of a part lies in one of the whole. -/
theorem BlankRun.around (run : BlankRun p start stop first last) (x y : Bytes) :
    ∃ start' stop' first' last', BlankRun (x ++ (p ++ y)) start' stop' first' last' ∧
      start' ≤ x.length + start ∧ x.length + stop ≤ stop' ∧ first' ≤ x.length + first ∧ x.length + last ≤ last' := by
  have within := run.within
  have feeds : LineFeeds (p ++ y) start stop first last :=
    run.toLineFeeds.congr fun i high => List.getElem?_append_left (by omega)
  refine exists_blankRun_around (fun i low high => ?_) (by simp only [List.length_append]; omega)
    (lineFeeds_moved.2 feeds) (Nat.add_lt_add_left run.several _)
  obtain ⟨i, rfl⟩ := Nat.exists_eq_add_of_le (Nat.le_trans (Nat.le_add_right _ _) low)
  rw [SpaceAt, getElem?_between x y (by omega)]
  exact run.spaces i (by omega) (by omega)

/-- A blank run that reaches over some of a piece has its line breaks just there:
the text is cut at both their ends, and nowhere within them or within the piece. -/
theorem Between.eq_breaks (h : Between x p y) (run : BlankRun (x ++ (p ++ y)) start stop first last)
    (early : first < x.length + p.length) (late : x.length ≤ last) :
    breakStart (x ++ (p ++ y)) start first = x.length ∧ last + 1 = x.length + p.length := by
  have order := run.order
  have before := breakStart_le (x ++ (p ++ y)) start first
  refine ⟨?_, ?_⟩
  · by_contra other
    by_cases inside : breakStart (x ++ (p ++ y)) start first < x.length
    · exact run.not_isCut inside late h.opens
    · exact h.uncut _ (by omega) (by omega) (.inr (.inr ⟨_, _, _, _, run, .inl rfl⟩))
  · by_contra other
    by_cases inside : x.length + p.length ≤ last
    · exact run.not_isCut (by omega) inside h.closes
    · exact h.uncut _ (by omega) (by omega) (.inr (.inr ⟨_, _, _, _, run, .inr rfl⟩))

theorem breakStart_of_around (within : first < p.length)
    (begins : breakStart (x ++ (p ++ y)) start (x.length + first) = x.length) : breakStart p 0 first = 0 := by
  unfold breakStart at begins ⊢
  cases first with
  | zero => rw [if_neg fun h => Nat.lt_irrefl 0 h.1]
  | succ n =>
    by_cases returned : start < x.length + (n + 1) ∧ (x ++ (p ++ y))[x.length + (n + 1) - 1]? = some 0x0D
    · rw [if_pos returned] at begins
      obtain rfl : n = 0 := by omega
      have here : p[0]? = some 0x0D := by
        rw [← getElem?_between x y (by omega)]
        exact returned.2
      rw [if_pos ⟨Nat.zero_lt_succ 0, here⟩]
    · rw [if_neg returned] at begins
      omega

/-- **A blank run of a piece fills it**: the piece begins where the first line break
of the run does, and ends after its last line feed. -/
theorem Between.filled (h : Between x p y) (run : BlankRun p start stop first last) :
    breakStart p start first = 0 ∧ last + 1 = p.length := by
  have within := run.within
  have order := run.order
  obtain ⟨start', stop', first', last', around, startLe, stopLe, firstLe, lastLe⟩ := run.around x y
  have order' := around.order
  obtain ⟨begins, ends⟩ := h.eq_breaks around (by omega) (by omega)
  have before := breakStart_le (x ++ (p ++ y)) start' first'
  have began := le_breakStart (x ++ (p ++ y)) order'.1
  have space : ∀ i < p.length, SpaceAt p i := fun i high => by
    rw [SpaceAt, ← getElem?_between x y high]
    exact around.spaces _ (by omega) (by omega)
  -- the piece is all spaces, so its run reaches from its first byte to its last
  obtain rfl : start = 0 := by
    by_contra positive
    exact (space (start - 1) (by omega)).not_textAt (run.opens.resolve_left positive)
  obtain rfl : stop = p.length := by
    by_contra short
    exact (space stop (by omega)).not_textAt (run.closes.resolve_left short)
  obtain ⟨i, rfl⟩ := Nat.exists_eq_add_of_le (show x.length ≤ first' by omega)
  obtain ⟨j, rfl⟩ := Nat.exists_eq_add_of_le (show x.length ≤ last' by omega)
  have atFirst : p[i]? = some Cursor.lineFeed := by
    rw [← getElem?_between x y (by omega)]
    exact around.atFirst
  have atLast : p[j]? = some Cursor.lineFeed := by
    rw [← getElem?_between x y (by omega)]
    exact around.atLast
  -- and has the line feeds of the run around it, which are all in the piece
  obtain rfl : first = i := by
    by_contra other
    exact run.before i (by omega) (by omega) atFirst
  obtain rfl : last = j := by
    by_contra other
    exact run.after j (by omega) (by omega) atLast
  exact ⟨breakStart_of_around (by omega) begins, by omega⟩

/-- **A piece is cut at its ends only.** -/
theorem Between.isCut_iff (h : Between x p y) (c : Nat) : IsCut p c ↔ c = 0 ∨ c = p.length := by
  refine ⟨fun cut => ?_, fun atEnd => atEnd.imp_right .inl⟩
  rcases cut with zero | full | ⟨start, stop, first, last, run, cut⟩
  · exact .inl zero
  · exact .inr full
  · obtain ⟨begins, ends⟩ := h.filled run
    omega

end

/-! ## Spans of a text -/

theorem Span.Tile.stops_apart {here stop : Cursor} {spans : List Span} (tile : Span.Tile here spans stop) {s : Span}
    (mem : s ∈ spans) : s.start.offset ∈ here.offset :: Splitter.stops spans ∧
      s.stop.offset ∈ here.offset :: Splitter.stops spans ∧
      ∀ c ∈ here.offset :: Splitter.stops spans, c ≤ s.start.offset ∨ s.stop.offset ≤ c := by
  have order := Splitter.pairwise_stops tile
  induction spans generalizing here with
  | nil => exact absurd mem List.not_mem_nil
  | cons t rest ih =>
    obtain ⟨rfl, filled, tile⟩ := tile
    obtain ⟨-, later⟩ := List.pairwise_cons.1 order
    obtain rfl | mem := List.mem_cons.1 mem
    · refine ⟨List.mem_cons_self, List.mem_cons_of_mem _ List.mem_cons_self, fun c listed => ?_⟩
      obtain rfl | listed := List.mem_cons.1 listed
      · exact .inl (Nat.le_refl _)
      · obtain rfl | listed := List.mem_cons.1 listed
        · exact .inr (Nat.le_refl _)
        · exact .inr (Nat.le_of_lt ((List.pairwise_cons.1 later).1 c listed))
    · obtain ⟨opens, closes, apart⟩ := ih tile mem later
      refine ⟨List.mem_cons_of_mem _ opens, List.mem_cons_of_mem _ closes, fun c listed => ?_⟩
      obtain rfl | listed := List.mem_cons.1 listed
      · obtain same | more := List.mem_cons.1 opens
        · exact .inl (same ▸ Nat.le_of_lt filled)
        · exact .inl (Nat.le_of_lt (Nat.lt_trans filled ((List.pairwise_cons.1 later).1 _ more)))
      · exact apart c listed

namespace Splitter

theorem between_of_mem_spans {data : Bytes} {s : Span} (mem : s ∈ spans data) :
    ∃ x y, Between x (data.slice s.start.offset s.stop.offset) y := by
  obtain ⟨tile, ins⟩ := spans_tile data
  obtain ⟨opens, closes, apart⟩ := tile.stops_apart mem
  have le := Nat.le_of_lt (tile.start_lt_stop s mem)
  have within := (ins s mem).2.1
  have rest : data.slice s.start.offset s.stop.offset ++ data.drop s.stop.offset = data.drop s.start.offset := by
    rw [Bytes.slice, ← Nat.add_sub_cancel' le, ← List.drop_drop, Nat.add_sub_cancel_left, List.take_append_drop]
  have whole : data.take s.start.offset ++ (data.slice s.start.offset s.stop.offset ++ data.drop s.stop.offset) = data := by
    rw [rest, List.take_append_drop]
  have start : (data.take s.start.offset).length = s.start.offset := List.length_take_of_le (Nat.le_trans le within)
  have stop : s.start.offset + (data.slice s.start.offset s.stop.offset).length = s.stop.offset := by
    rw [Bytes.length_slice _ within, Nat.add_sub_cancel' le]
  refine ⟨data.take s.start.offset, data.drop s.stop.offset, ?_, ?_, fun c low high => ?_⟩
  · rw [whole, start]
    exact mem_stops_spans.1 opens
  · rw [whole, start, stop]
    exact mem_stops_spans.1 closes
  · rw [start] at low
    rw [start, stop] at high
    rw [whole]
    intro cut
    have := apart c (mem_stops_spans.2 cut)
    omega

theorem spans_of_uncut {data : Bytes} (filled : 0 < data.length) (uncut : ∀ c, IsCut data c ↔ c = 0 ∨ c = data.length) :
    spans data = [⟨.start, .inText data data.length⟩] := by
  obtain ⟨tile, ins⟩ := spans_tile data
  have single : Span.Tile .start [⟨.start, .inText data data.length⟩] (.inText data data.length) := ⟨rfl, filled, rfl⟩
  refine eq_of_stops tile single (Cursor.in_start data) ins (fun s mem => ?_) fun c => ?_
  · rw [List.mem_singleton.1 mem]
    exact ⟨Cursor.in_start data, Cursor.in_inText (Nat.le_refl _)⟩
  · rw [show Cursor.start.offset = 0 from rfl, mem_stops_spans, uncut c]
    simp [stops, Cursor.inText]

/-- **What a span of a text covers is one span.** -/
theorem spans_slice {data : Bytes} {s : Span} (mem : s ∈ spans data) :
    let piece := data.slice s.start.offset s.stop.offset
    0 < piece.length ∧ spans piece = [⟨.start, .inText piece piece.length⟩] := by
  intro piece
  obtain ⟨x, y, between⟩ := between_of_mem_spans mem
  obtain ⟨tile, ins⟩ := spans_tile data
  have filled : 0 < piece.length := by
    have := tile.start_lt_stop s mem
    rw [Bytes.length_slice _ (ins s mem).2.1]
    omega
  exact ⟨filled, spans_of_uncut filled between.isCut_iff⟩

end Splitter

/-! ## Chunks -/

/-- **A chunk is not chunked again.** Chunking the payload of a chunk alone, with the
same configuration, gives one chunk that covers it and has the chunk's signature,
also where a payload turns out to be binary that is sampled from its first byte on. -/
theorem ofAsset_payload {config : ChunkConfig} {location : Location} {data : Bytes} {c : Chunk}
    (listed : c ∈ Chunk.ofAsset config location data) (elsewhere : Location) :
    let payload := data.slice c.range.start c.range.stop
    ∃ range, Chunk.ofAsset config elsewhere payload = [⟨elsewhere, range, c.signature⟩] ∧
      range.start = 0 ∧ range.stop = payload.length ∧ 0 < payload.length := by
  intro payload
  cases kind : Kind.of data config.binarySample with
  | binary =>
    rw [Chunk.ofAsset, kind] at listed
    obtain rfl := List.mem_singleton.1 listed
    have whole : payload = data := Bytes.slice_zero_length data
    rw [whole, Chunk.ofAsset, kind]
    exact ⟨_, rfl, rfl, rfl, Kind.length_pos_of_binary kind⟩
  | text =>
    rw [Chunk.ofAsset, kind] at listed
    obtain ⟨s, mem, rfl⟩ := List.mem_map.1 listed
    obtain ⟨filled, one⟩ : 0 < payload.length ∧ Splitter.spans payload = [⟨.start, .inText payload payload.length⟩] :=
      Splitter.spans_slice mem
    cases again : Kind.of payload config.binarySample with
    | binary =>
      rw [Chunk.ofAsset, again]
      exact ⟨_, rfl, rfl, rfl, filled⟩
    | text =>
      have whole : payload.slice 0 payload.length = payload := Bytes.slice_zero_length payload
      refine ⟨.text Cursor.start.toTextPosition (Cursor.inText payload payload.length).toTextPosition, ?_, rfl, rfl, filled⟩
      rw [Chunk.ofAsset, again, one, List.map_singleton]
      show [(⟨elsewhere, _, .of config.algorithm (payload.slice 0 payload.length)⟩ : Chunk)] = _
      rw [whole]
      rfl

/-- A text by its first byte is chunked; of the last chunk that byte is no text. -/
theorem ofAsset_payload_sampled :
    let config : ChunkConfig := ⟨.sha256, 4, some 1⟩
    let data := Bytes.ofText "a\n\n\x01b"
    let c : Chunk := ⟨⟨["x"]⟩, .text ⟨3, some 2, some 0⟩ ⟨5, some 2, some 2⟩, .of .sha256 (Bytes.ofText "\x01b")⟩
    let payload := data.slice c.range.start c.range.stop
    c ∈ Chunk.ofAsset config ⟨["x"]⟩ data ∧ Kind.of payload config.binarySample = .binary ∧
      ∃ range, Chunk.ofAsset config ⟨["y"]⟩ payload = [⟨⟨["y"]⟩, range, c.signature⟩] ∧
        range.start = 0 ∧ range.stop = payload.length ∧ 0 < payload.length := by
  intro config data c payload
  have kind : Kind.of data config.binarySample = .text := by decide
  have listed : c ∈ Chunk.ofAsset config ⟨["x"]⟩ data := by
    rw [Chunk.ofAsset, kind]
    refine List.mem_map.2 ⟨⟨⟨3, 2, 0⟩, ⟨5, 2, 2⟩⟩, by decide, rfl⟩
  exact ⟨listed, by decide, ofAsset_payload listed ⟨["y"]⟩⟩

end ContentChunks
