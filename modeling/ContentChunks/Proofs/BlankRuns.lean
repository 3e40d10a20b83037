/-
A text is cut at its blank runs and nowhere else.

A blank run is a stretch of spaces, tabs, carriage returns and line feeds that
cannot be made longer and has two line feeds at least; it is told here by places
of the text alone (`BlankRun`). It is cut off where its first line break begins
and after its last line feed (`IsCut`).

A splitter knows of the text only the line it is in and four places.
`Splitter.Trails` says what these tell of the spaces at the end of what was
read; it is kept by each kind of byte (`trails_lineFeed`, `trails_space`,
`trails_text`), so a run is closed just where one ends (`cuts_feed`,
`cuts_finish`).

Main statement: the spans of a text are the pieces between its cuts (`spans_cuts`).
-/
import ContentChunks.Proofs.Tiling

namespace ContentChunks

/-! ## Blank runs -/

/-- Whether a byte shows nothing: a line feed, a carriage return, a space or a tab. -/
def IsSpace (b : UInt8) : Prop := b = 0x0A ∨ b = 0x0D ∨ b = 0x20 ∨ b = 0x09

def SpaceAt (data : Bytes) (i : Nat) : Prop := ∃ b, data[i]? = some b ∧ IsSpace b

def TextAt (data : Bytes) (i : Nat) : Prop := ∃ b, data[i]? = some b ∧ ¬IsSpace b

/-- Whether a stretch of a text is of such bytes only, and cannot begin earlier. -/
structure SpaceRun (data : Bytes) (start stop : Nat) : Prop where
  within : start ≤ stop ∧ stop ≤ data.length
  spaces : ∀ i, start ≤ i → i < stop → SpaceAt data i
  opens : start = 0 ∨ TextAt data (start - 1)

/-- Whether the first line feed of a stretch and its last one are at these places. -/
structure LineFeeds (data : Bytes) (start stop first last : Nat) : Prop where
  order : start ≤ first ∧ first ≤ last ∧ last < stop
  atFirst : data[first]? = some Cursor.lineFeed
  atLast : data[last]? = some Cursor.lineFeed
  before : ∀ i, start ≤ i → i < first → data[i]? ≠ some Cursor.lineFeed
  after : ∀ i, last < i → i < stop → data[i]? ≠ some Cursor.lineFeed

/-- Whether a stretch is a blank run whose first and last line feeds are at these
places: it cannot end later either, and it has two line feeds at least. -/
structure BlankRun (data : Bytes) (start stop first last : Nat) : Prop extends
    SpaceRun data start stop, LineFeeds data start stop first last where
  closes : stop = data.length ∨ TextAt data stop
  several : first < last

/-- Where the first line break of a run begins: at the carriage return right
before its line feed, if there is one in the run. -/
def breakStart (data : Bytes) (start first : Nat) : Nat :=
  if start < first ∧ data[first - 1]? = some 0x0D then first - 1 else first

/-- Whether a text is cut at a place: at both its ends, and before and after the
line breaks of each blank run. -/
def IsCut (data : Bytes) (c : Nat) : Prop :=
  c = 0 ∨ c = data.length ∨ ∃ start stop first last, BlankRun data start stop first last ∧
    (c = breakStart data start first ∨ c = last + 1)

/-- Whether a run that ends before the text does is cut at a place. -/
def InnerCut (data : Bytes) (c : Nat) : Prop :=
  ∃ start stop first last, BlankRun data start stop first last ∧ stop < data.length ∧
    (c = breakStart data start first ∨ c = last + 1)

/-- Whether the run at the end of a text is cut at a place. -/
def FinalCut (data : Bytes) (c : Nat) : Prop :=
  ∃ start first last, BlankRun data start data.length first last ∧ (c = breakStart data start first ∨ c = last + 1)

theorem isCut_iff {data : Bytes} {c : Nat} :
    IsCut data c ↔ c = 0 ∨ c = data.length ∨ InnerCut data c ∨ FinalCut data c := by
  refine or_congr_right (or_congr_right ⟨?_, ?_⟩)
  · intro ⟨start, stop, first, last, run, cut⟩
    by_cases inner : stop < data.length
    · exact .inl ⟨start, stop, first, last, run, inner, cut⟩
    · obtain rfl : stop = data.length := Nat.le_antisymm run.within.2 (Nat.le_of_not_lt inner)
      exact .inr ⟨start, first, last, run, cut⟩
  · intro inner
    cases inner with
    | inl inner =>
      obtain ⟨start, stop, first, last, run, -, cut⟩ := inner
      exact ⟨start, stop, first, last, run, cut⟩
    | inr final =>
      obtain ⟨start, first, last, run, cut⟩ := final
      exact ⟨start, data.length, first, last, run, cut⟩

theorem SpaceAt.not_textAt {data : Bytes} {i : Nat} (h : SpaceAt data i) : ¬TextAt data i := by
  intro text
  obtain ⟨b, hb, space⟩ := h
  obtain ⟨c, hc, other⟩ := text
  rw [hb, Option.some.injEq] at hc
  exact other (hc ▸ space)

/-! ## One run at a place -/

section

variable {data : Bytes} {start start' stop first first' last last' : Nat}

theorem SpaceRun.start_le (h : SpaceRun data start stop) (h' : SpaceRun data start' stop) : start' ≤ start := by
  by_contra before
  have := h'.within.1
  have text := h'.opens.resolve_left (by omega)
  exact (h.spaces (start' - 1) (by omega) (by omega)).not_textAt text

theorem LineFeeds.le (h : LineFeeds data start stop first last) (h' : LineFeeds data start stop first' last') :
    first ≤ first' ∧ last' ≤ last := by
  have order := h.order
  have order' := h'.order
  constructor
  · by_contra before
    exact h.before first' (by omega) (by omega) h'.atFirst
  · by_contra after
    exact h.after last' (by omega) (by omega) h'.atLast

theorem BlankRun.unique (h : BlankRun data start stop first last) (h' : BlankRun data start' stop first' last') :
    start = start' ∧ first = first' ∧ last = last' := by
  obtain rfl : start = start' := Nat.le_antisymm (h'.start_le h.toSpaceRun) (h.start_le h'.toSpaceRun)
  have here := h.toLineFeeds.le h'.toLineFeeds
  have there := h'.toLineFeeds.le h.toLineFeeds
  omega

end

/-! ## One more byte -/

section

variable {data other : Bytes} {start stop first last : Nat}

theorem SpaceRun.congr (h : SpaceRun data start stop) (long : stop ≤ other.length)
    (same : ∀ i < stop, other[i]? = data[i]?) : SpaceRun other start stop where
  within := ⟨h.within.1, long⟩
  spaces i low high := by
    obtain ⟨b, hb, space⟩ := h.spaces i low high
    exact ⟨b, (same i high).trans hb, space⟩
  opens := by
    have := h.within.1
    by_cases zero : start = 0
    · exact .inl zero
    · obtain ⟨b, hb, text⟩ := h.opens.resolve_left zero
      exact .inr ⟨b, (same _ (by omega)).trans hb, text⟩

theorem LineFeeds.congr (h : LineFeeds data start stop first last) (same : ∀ i < stop, other[i]? = data[i]?) :
    LineFeeds other start stop first last := by
  have := h.order
  refine ⟨h.order, ?_, ?_, fun i low high => ?_, fun i low high => ?_⟩
  · rw [same first (by omega)]
    exact h.atFirst
  · rw [same last (by omega)]
    exact h.atLast
  · rw [same i (by omega)]
    exact h.before i low high
  · rw [same i high]
    exact h.after i low high

theorem breakStart_congr (same : ∀ i < first, other[i]? = data[i]?) (start : Nat) :
    breakStart other start first = breakStart data start first := by
  unfold breakStart
  by_cases inside : start < first
  · rw [same (first - 1) (by omega)]
  · rw [if_neg fun h => inside h.1, if_neg fun h => inside h.1]

theorem breakStart_le (data : Bytes) (start first : Nat) : breakStart data start first ≤ first := by
  unfold breakStart
  split <;> omega

theorem BlankRun.congr (h : BlankRun data start stop first last) (same : ∀ i < stop, other[i]? = data[i]?)
    (long : stop ≤ other.length) (closes : stop = other.length ∨ TextAt other stop) :
    BlankRun other start stop first last ∧ breakStart other start first = breakStart data start first := by
  have := h.order
  refine ⟨⟨h.toSpaceRun.congr long same, h.toLineFeeds.congr same, closes, h.several⟩, ?_⟩
  exact breakStart_congr (fun i hi => same i (by omega)) start

theorem getElem?_snoc (data : Bytes) (b : UInt8) : ∀ i < data.length, (data ++ [b])[i]? = data[i]? :=
  fun _ h => List.getElem?_append_left h

theorem textAt_snoc {b : UInt8} : TextAt (data ++ [b]) data.length ↔ ¬IsSpace b := by
  simp [TextAt]

/-- **A byte ends a run** if it shows something; the runs before are as they were. -/
theorem innerCut_snoc {b : UInt8} {c : Nat} :
    InnerCut (data ++ [b]) c ↔ InnerCut data c ∨ ¬IsSpace b ∧ FinalCut data c := by
  have same := getElem?_snoc data b
  constructor
  · intro ⟨start, stop, first, last, run, inner, cut⟩
    rw [List.length_append, List.length_singleton] at inner
    have text := run.closes.resolve_left (by rw [List.length_append, List.length_singleton]; omega)
    have back : ∀ i < stop, data[i]? = (data ++ [b])[i]? := fun i hi => (same i (by omega)).symm
    by_cases before : stop < data.length
    · have closes : TextAt data stop := by rwa [TextAt, same stop before] at text
      obtain ⟨run, began⟩ := run.congr back (by omega) (.inr closes)
      exact .inl ⟨start, stop, first, last, run, before, began ▸ cut⟩
    · obtain rfl : stop = data.length := by omega
      obtain ⟨run, began⟩ := run.congr back (Nat.le_refl _) (.inl rfl)
      exact .inr ⟨textAt_snoc.1 text, start, first, last, run, began ▸ cut⟩
  · intro before
    have longer : data.length < (data ++ [b]).length := by simp
    cases before with
    | inl inner =>
      obtain ⟨start, stop, first, last, run, inner, cut⟩ := inner
      have closes : TextAt (data ++ [b]) stop := by
        rw [TextAt, same stop inner]
        exact run.closes.resolve_left (Nat.ne_of_lt inner)
      obtain ⟨run, began⟩ := run.congr (fun i hi => same i (by omega)) (by omega) (.inr closes)
      exact ⟨start, stop, first, last, run, by omega, began ▸ cut⟩
    | inr final =>
      obtain ⟨text, start, first, last, run, cut⟩ := final
      obtain ⟨run, began⟩ := run.congr same (by omega) (.inr (textAt_snoc.2 text))
      exact ⟨start, data.length, first, last, run, longer, began ▸ cut⟩

end

/-! ## What a splitter remembers -/

namespace Splitter

/-- Where the last byte of a text is, if it is a carriage return. -/
def returnAt (data : Bytes) : Option Cursor :=
  if data.getLast? = some 0x0D then some (.inText data (data.length - 1)) else none

/-- What a splitter remembers of the spaces at the end of what it has read: its
line tells whether there are line feeds in them, the breaks tell where. -/
structure Trails (s : Splitter) (data : Bytes) (start : Nat) : Prop where
  run : SpaceRun data start data.length
  text : s.line = .text → ∀ i, start ≤ i → data[i]? ≠ some Cursor.lineFeed
  breaks : s.line ≠ .text → ∃ first last, LineFeeds data start data.length first last ∧
    s.firstBreak = some (.inText data (breakStart data start first)) ∧
    s.lastBreak = some (.inText data (last + 1)) ∧ (s.line = .blankRun ↔ first < last)
  carriageReturn : s.carriageReturn = returnAt data

theorem trails_start : Trails start [] 0 where
  run := ⟨by simp, by simp, .inl rfl⟩
  text := by simp
  breaks := by simp [start]
  carriageReturn := rfl

theorem returnAt_snoc (data : Bytes) (b : UInt8) :
    returnAt (data ++ [b]) = if b = 0x0D then some (.inText data data.length) else none := by
  simp [returnAt, Cursor.inText_append (Nat.le_refl _)]

section

variable {s : Splitter} {data : Bytes} {start first last : Nat} {b : UInt8}

theorem spaceRun_snoc (h : SpaceRun data start data.length) (space : IsSpace b) :
    SpaceRun (data ++ [b]) start (data ++ [b]).length := by
  have within := h.within
  have before : SpaceRun (data ++ [b]) start data.length := h.congr (by simp) (getElem?_snoc data b)
  refine ⟨⟨by simp; omega, Nat.le_refl _⟩, fun i low high => ?_, before.opens⟩
  by_cases inside : i < data.length
  · exact before.spaces i low inside
  · rw [List.length_append, List.length_singleton] at high
    obtain rfl : i = data.length := by omega
    exact ⟨b, by simp, space⟩

theorem lineFeeds_snoc (h : LineFeeds data start data.length first last) (other : b ≠ Cursor.lineFeed) :
    LineFeeds (data ++ [b]) start (data ++ [b]).length first last := by
  have order := h.order
  have before := h.congr (getElem?_snoc data b)
  refine ⟨by simp; omega, before.atFirst, before.atLast, before.before, fun i low high => ?_⟩
  by_cases inside : i < data.length
  · exact before.after i low inside
  · rw [List.length_append, List.length_singleton] at high
    obtain rfl : i = data.length := by omega
    simpa using other

/-- The break that a line feed begins is where the carriage return before it is,
or where it is itself: what comes right before the spaces is no carriage return. -/
theorem Trails.break_start (t : s.Trails data start) (h : s.Tracks data) :
    s.carriageReturn.getD s.cursor = .inText data (breakStart data start data.length) := by
  have within := t.run.within.1
  rw [t.carriageReturn, returnAt, breakStart, h.cursor, List.getLast?_eq_getElem?]
  by_cases ends : data[data.length - 1]? = some 0x0D
  · have inside : start < data.length := by
      obtain ⟨pos, -⟩ := List.getElem?_eq_some_iff.1 ends
      cases t.run.opens with
      | inl zero => omega
      | inr text =>
        by_contra full
        obtain rfl : start = data.length := by omega
        exact SpaceAt.not_textAt ⟨0x0D, ends, .inr (.inl rfl)⟩ text
    rw [if_pos ends, if_pos ⟨inside, ends⟩]
    rfl
  · rw [if_neg ends, if_neg fun h => ends h.2]
    rfl

theorem breaks_snoc (start : Nat) (order : first ≤ last ∧ last < data.length) (b : UInt8) :
    Cursor.inText (data ++ [b]) (breakStart (data ++ [b]) start first) =
      .inText data (breakStart data start first) ∧
    Cursor.inText (data ++ [b]) (last + 1) = .inText data (last + 1) := by
  have began := breakStart_le data start first
  rw [breakStart_congr fun i hi => getElem?_snoc data b i (by omega), Cursor.inText_append (by omega),
    Cursor.inText_append (by omega)]
  exact ⟨rfl, rfl⟩

theorem trails_lineFeed (t : s.Trails data start) (h : s.Tracks data) :
    (s.feed 0x0A).2.Trails (data ++ [0x0A]) start := by
  have run : SpaceRun (data ++ [0x0A]) start (data ++ [0x0A]).length := spaceRun_snoc t.run (.inl rfl)
  have within := t.run.within.1
  have next : s.cursor.advance 0x0A = .inText (data ++ [0x0A]) (data.length + 1) := by
    rw [h.cursor_advance 0x0A, List.length_append, List.length_singleton]
  have here : (data ++ [0x0A])[data.length]? = some Cursor.lineFeed := by simp [Cursor.lineFeed]
  have length : (data ++ [0x0A]).length = data.length + 1 := by simp
  have forgotten : none = returnAt (data ++ [0x0A]) := by
    rw [returnAt_snoc]
    rfl
  unfold feed
  dsimp only
  rw [if_pos rfl]
  by_cases hl : s.line = .text
  · simp only [hl, ↓reduceIte]
    refine ⟨run, by simp, fun _ => ⟨data.length, data.length, ⟨by omega, here, here, fun i low high => ?_,
      fun i low high => by omega⟩, ?_, by rw [next], by simp⟩, forgotten⟩
    · rw [getElem?_snoc data _ i high]
      exact t.text hl i low
    · rw [t.break_start h, breakStart_congr (getElem?_snoc data _), Cursor.inText_append (breakStart_le ..)]
  · obtain ⟨first, last, feeds, hf, -, -⟩ := t.breaks hl
    have order := feeds.order
    have before := feeds.congr (getElem?_snoc data 0x0A)
    obtain ⟨began, -⟩ := breaks_snoc start order.2 0x0A
    simp only [hl, ↓reduceIte]
    refine ⟨run, by simp, fun _ => ⟨first, data.length, ⟨by omega, before.atFirst, here, before.before,
      fun i low high => by omega⟩, by rw [hf, began], by rw [next], by simp; omega⟩, forgotten⟩

theorem Trails.snoc {s' : Splitter} (t : s.Trails data start) (space : IsSpace b) (other : b ≠ Cursor.lineFeed)
    (text : s'.line = .text ↔ s.line = .text) (blankRun : s'.line = .blankRun ↔ s.line = .blankRun)
    (sameFirst : s'.firstBreak = s.firstBreak) (sameLast : s'.lastBreak = s.lastBreak)
    (carriageReturn : s'.carriageReturn = returnAt (data ++ [b])) : s'.Trails (data ++ [b]) start where
  run := spaceRun_snoc t.run space
  text hl i low := by
    by_cases inside : i < data.length
    · rw [getElem?_snoc data b i inside]
      exact t.text (text.1 hl) i low
    · by_cases here : i = data.length
      · simpa [here] using other
      · rw [List.getElem?_eq_none (by simp; omega)]
        simp
  breaks hl := by
    obtain ⟨first, last, feeds, hf, hl', several⟩ := t.breaks fun h => hl (text.2 h)
    obtain ⟨began, ended⟩ := breaks_snoc start feeds.order.2 b
    refine ⟨first, last, lineFeeds_snoc feeds other, ?_, ?_, blankRun.trans several⟩
    · rw [sameFirst, hf, began]
    · rw [sameLast, hl', ended]
  carriageReturn := carriageReturn

theorem trails_carriageReturn (t : s.Trails data start) (h : s.Tracks data) :
    (s.feed 0x0D).2.Trails (data ++ [0x0D]) start := by
  refine t.snoc (.inr (.inl rfl)) (by decide) Iff.rfl Iff.rfl rfl rfl ?_
  rw [returnAt_snoc, ← h.cursor]
  rfl

theorem trails_blank (t : s.Trails data start) (blank : b = 0x20 ∨ b = 0x09) :
    (s.feed b).2.Trails (data ++ [b]) start := by
  have notLineFeed : b ≠ 0x0A := by cases blank <;> subst b <;> decide
  have notReturn : b ≠ 0x0D := by cases blank <;> subst b <;> decide
  unfold feed
  dsimp only
  rw [if_neg notLineFeed, if_neg notReturn, if_pos blank]
  refine t.snoc (.inr (.inr blank)) notLineFeed ?_ ?_ rfl rfl ?_
  · cases hl : s.line <;> simp
  · cases hl : s.line <;> simp
  · rw [returnAt_snoc, if_neg notReturn]

/-- After a byte that shows something there are no spaces yet. -/
theorem trails_text (text : ¬IsSpace b) : (s.feed b).2.Trails (data ++ [b]) (data.length + 1) := by
  have notLineFeed : b ≠ 0x0A := fun e => text (.inl e)
  have notReturn : b ≠ 0x0D := fun e => text (.inr (.inl e))
  have notBlank : ¬(b = 0x20 ∨ b = 0x09) := fun e => text (.inr (.inr e))
  have run : SpaceRun (data ++ [b]) (data.length + 1) (data ++ [b]).length :=
    ⟨by simp, fun i low high => by simp at high; omega, .inr (textAt_snoc.2 text)⟩
  unfold feed
  dsimp only
  rw [if_neg notLineFeed, if_neg notReturn, if_neg notBlank]
  refine ⟨run, fun _ i low => ?_, by simp, ?_⟩
  · rw [List.getElem?_eq_none (by simp; omega)]
    simp
  · rw [returnAt_snoc, if_neg notReturn]

/-- **A byte keeps what is remembered of the spaces true.** -/
theorem trails_feed (t : s.Trails data start) (h : s.Tracks data) (b : UInt8) :
    ∃ start, (s.feed b).2.Trails (data ++ [b]) start := by
  by_cases space : IsSpace b
  · obtain rfl | rfl | blank := space
    · exact ⟨start, trails_lineFeed t h⟩
    · exact ⟨start, trails_carriageReturn t h⟩
    · exact ⟨start, trails_blank t blank⟩
  · exact ⟨_, trails_text space⟩

end

/-! ## Where runs are closed -/

/-- The places where spans stop. -/
def stops (spans : List Span) : List Nat := spans.map (·.stop.offset)

@[simp] theorem stops_append (spans more : List Span) : stops (spans ++ more) = stops spans ++ stops more :=
  List.map_append

/-- Closes the run at the end of what was read, if there is one. -/
def ended (s : Splitter) : List Span × Splitter := if s.line = .blankRun then s.closeRun else ([], s)

theorem finish_fst (s : Splitter) : s.finish.1 = s.ended.1 ++
    if s.ended.2.pending.offset < s.ended.2.cursor.offset then [⟨s.ended.2.pending, s.ended.2.cursor⟩] else [] := rfl

section

variable {s : Splitter} {data : Bytes} {start : Nat}

theorem Tracks.ended (h : s.Tracks data) : s.ended.2.pending.In data ∧ s.ended.2.cursor = s.cursor := by
  unfold Splitter.ended
  by_cases hl : s.line = .blankRun
  · obtain ⟨-, -, within, cursor⟩ := tracks_closeRun h hl
    rw [if_pos hl]
    exact ⟨within, cursor⟩
  · rw [if_neg hl]
    exact ⟨h.pending, rfl⟩

/-- In a blank run the splitter remembers where it is cut. -/
theorem Trails.finalCut_iff (t : s.Trails data start) (hl : s.line = .blankRun) :
    ∃ first last, s.firstBreak = some first ∧ s.lastBreak = some last ∧
      ∀ c, FinalCut data c ↔ c = first.offset ∨ c = last.offset := by
  obtain ⟨first, last, feeds, hf, hl', several⟩ := t.breaks (by simp [hl])
  have run : BlankRun data start data.length first last := ⟨t.run, feeds, .inl rfl, several.1 hl⟩
  refine ⟨_, _, hf, hl', fun c => ⟨?_, fun cut => ⟨start, first, last, run, cut⟩⟩⟩
  intro ⟨start', first', last', run', cut⟩
  obtain ⟨rfl, rfl, rfl⟩ := run.unique run'
  exact cut

theorem Trails.not_finalCut (t : s.Trails data start) (hl : s.line ≠ .blankRun) (c : Nat) : ¬FinalCut data c := by
  intro ⟨start', first', last', run, _⟩
  obtain rfl : start = start' := Nat.le_antisymm (run.start_le t.run) (t.run.start_le run.toSpaceRun)
  by_cases text : s.line = .text
  · exact t.text text first' run.order.1 run.atFirst
  · obtain ⟨first, last, feeds, -, -, several⟩ := t.breaks text
    have same := feeds.le run.toLineFeeds
    have := run.several
    exact hl (several.2 (by omega))

/-- **Closing the run at the end** cuts where that run is cut, if the place where
the collected span begins is counted in. -/
theorem stops_ended (t : s.Trails data start) (h : s.Tracks data) :
    (∀ c, c = s.pending.offset ∨ c ∈ stops s.ended.1 ↔ c = s.pending.offset ∨ FinalCut data c) ∧
      (s.ended.2.pending.offset = s.pending.offset ∨ s.ended.2.pending.offset ∈ stops s.ended.1) ∧
      s.ended.2.pending.offset ≤ data.length ∧ s.ended.2.cursor = s.cursor := by
  obtain ⟨within, cursor⟩ := h.ended
  rw [← and_assoc]
  refine ⟨?_, within.1, cursor⟩
  unfold ended
  by_cases hl : s.line = .blankRun
  · obtain ⟨first, last, hf, hl', cuts⟩ := t.finalCut_iff hl
    obtain ⟨first', -, hf', -, -, -, le, -⟩ := h.breaks (by simp [hl])
    obtain rfl : first = first' := Option.some.inj (hf.symm.trans hf')
    rw [if_pos hl]
    refine ⟨fun c => ?_, .inr ?_⟩
    · rw [cuts c]
      by_cases text : s.pending.offset < first.offset
      · simp [closeRun, hf, hl', text, stops]
      · have same : first.offset = s.pending.offset := by omega
        simp [closeRun, hf, hl', same, stops]
    · simp [closeRun, hf, hl', stops]
  · rw [if_neg hl]
    exact ⟨fun c => by simp [t.not_finalCut hl c, stops], .inl rfl⟩

theorem feed_space {b : UInt8} (space : IsSpace b) : (s.feed b).1 = [] ∧ (s.feed b).2.pending = s.pending := by
  unfold feed
  obtain rfl | rfl | blank := space
  · by_cases hl : s.line = .text <;> simp [hl]
  · simp
  · by_cases lineFeed : b = 0x0A
    · by_cases hl : s.line = .text <;> simp [lineFeed, hl]
    · by_cases carriageReturn : b = 0x0D
      · simp [carriageReturn]
      · simp [lineFeed, carriageReturn, blank]

theorem feed_text {b : UInt8} (text : ¬IsSpace b) : s.feed b = (s.ended.1,
    { s.ended.2 with line := .text, firstBreak := none, carriageReturn := none, cursor := s.cursor.advance b }) := by
  have notLineFeed : b ≠ 0x0A := fun e => text (.inl e)
  have notReturn : b ≠ 0x0D := fun e => text (.inr (.inl e))
  have notBlank : ¬(b = 0x20 ∨ b = 0x09) := fun e => text (.inr (.inr e))
  unfold feed ended
  dsimp only
  rw [if_neg notLineFeed, if_neg notReturn, if_neg notBlank]

end

/-- What a splitter has done and remembers: it has cut where the runs that ended are cut. -/
structure Splits (s : Splitter) (closed : List Span) (data : Bytes) : Prop where
  tracks : s.Tracks data
  trails : ∃ start, s.Trails data start
  pending : s.pending.offset = 0 ∨ s.pending.offset ∈ stops closed
  cuts : ∀ c, c = 0 ∨ c ∈ stops closed ↔ c = 0 ∨ InnerCut data c

theorem splits_start : Splits .start [] [] where
  tracks := tracks_start
  trails := ⟨0, trails_start⟩
  pending := .inl rfl
  cuts c := by
    have uncut : ¬InnerCut [] c := by
      intro ⟨_, _, _, _, _, inner, _⟩
      simp at inner
    simp [stops, uncut]

section

variable {s : Splitter} {closed : List Span} {data : Bytes}

/-- When the run at the end is closed too, it has cut where that is cut as well. -/
theorem Splits.ended (h : Splits s closed data) :
    (∀ c, c = 0 ∨ c ∈ stops (closed ++ s.ended.1) ↔ c = 0 ∨ InnerCut data c ∨ FinalCut data c) ∧
      (s.ended.2.pending.offset = 0 ∨ s.ended.2.pending.offset ∈ stops (closed ++ s.ended.1)) ∧
      s.ended.2.pending.offset ≤ data.length ∧ s.ended.2.cursor = s.cursor := by
  obtain ⟨start, t⟩ := h.trails
  obtain ⟨final, next, within, cursor⟩ := stops_ended t h.tracks
  have pending := h.pending
  rw [stops_append]
  refine ⟨fun c => ?_, ?_, within, cursor⟩
  · have final := final c
    rw [List.mem_append, ← or_assoc, ← or_assoc, h.cuts c]
    by_cases here : c = s.pending.offset
    · have known := (h.cuts c).1 (here ▸ pending)
      exact iff_of_true (.inl known) (.inl known)
    · simp only [here, false_or] at final
      rw [final]
  · rw [List.mem_append]
    cases next with
    | inl same =>
      rw [same]
      exact pending.imp_right .inl
    | inr mem => exact .inr (.inr mem)

/-- **A byte cuts where the run before it is cut**, if it ends one. -/
theorem splits_feed (h : Splits s closed data) (b : UInt8) :
    Splits (s.feed b).2 (closed ++ (s.feed b).1) (data ++ [b]) := by
  obtain ⟨start, t⟩ := h.trails
  have tracks := (tracks_feed h.tracks b).1
  have trails := trails_feed t h.tracks b
  by_cases space : IsSpace b
  · obtain ⟨quiet, same⟩ := feed_space (s := s) space
    rw [quiet, List.append_nil]
    refine ⟨tracks, trails, same ▸ h.pending, fun c => ?_⟩
    rw [h.cuts c, innerCut_snoc]
    simp [space]
  · obtain ⟨cuts, pending, -, -⟩ := h.ended
    rw [feed_text space] at tracks trails ⊢
    refine ⟨tracks, trails, pending, fun c => ?_⟩
    rw [cuts c, innerCut_snoc]
    simp [space]

theorem splits_feedAll (h : Splits s closed data) (more : Bytes) :
    Splits (s.feedAll more).2 (closed ++ (s.feedAll more).1) (data ++ more) := by
  induction more generalizing s closed data with
  | nil => simpa using h
  | cons b more ih =>
    have rest := ih (splits_feed h b)
    rw [feedAll_cons]
    rwa [List.append_assoc, List.append_assoc, List.singleton_append] at rest

/-- Ending the text cuts at its end and where the run there is cut. -/
theorem cuts_finish (h : Splits s closed data) (c : Nat) :
    c ∈ 0 :: stops (closed ++ s.finish.1) ↔ IsCut data c := by
  obtain ⟨cuts, pending, within, cursor⟩ := h.ended
  have length : s.ended.2.cursor.offset = data.length := cursor ▸ h.tracks.offset_cursor
  rw [finish_fst, ← List.append_assoc, stops_append, List.mem_cons, List.mem_append, ← or_assoc, cuts c, isCut_iff,
    length]
  by_cases more : s.ended.2.pending.offset < data.length
  · simp only [more, ↓reduceIte, stops, List.map_cons, List.map_nil, List.mem_singleton, length]
    tauto
  · -- the last run ends the text, so it has been cut there already
    have full : s.ended.2.pending.offset = data.length := by omega
    rw [full] at pending
    have known := (cuts data.length).1 pending
    simp only [more, ↓reduceIte, stops, List.map_nil, List.not_mem_nil, or_false]
    constructor
    · tauto
    · intro cut
      obtain zero | rfl | other := cut
      · exact .inl zero
      · exact known
      · exact .inr other

end

/-! ## The pieces between the cuts -/

theorem pairwise_stops {here stop : Cursor} {spans : List Span} (h : Span.Tile here spans stop) :
    (here.offset :: stops spans).Pairwise (· < ·) := by
  induction spans generalizing here with
  | nil => simp [stops]
  | cons x rest ih =>
    obtain ⟨-, lt, tile⟩ := h
    have later := ih tile
    refine List.pairwise_cons.2 ⟨fun c hc => ?_, later⟩
    cases List.mem_cons.1 hc with
    | inl first => exact first ▸ lt
    | inr more => exact Nat.lt_trans lt ((List.pairwise_cons.1 later).1 c more)

/-- Spans that lie end to end are the pieces between their stops. -/
theorem eq_pieces {data : Bytes} {here stop : Cursor} {spans : List Span} (h : Span.Tile here spans stop)
    (begins : here.In data) (ins : ∀ x ∈ spans, x.start.In data ∧ x.stop.In data) :
    spans = List.zipWith (fun a b => ⟨.inText data a, .inText data b⟩) (here.offset :: stops spans) (stops spans) := by
  induction spans generalizing here with
  | nil => rfl
  | cons x rest ih =>
    obtain ⟨first, -, tile⟩ := h
    have inStop := (ins x (by simp)).2
    have later := ih tile inStop fun y hy => ins y (by simp [hy])
    show x :: rest = (⟨.inText data here.offset, .inText data x.stop.offset⟩ : Span) ::
      List.zipWith _ (x.stop.offset :: stops rest) (stops rest)
    rw [← later, ← begins.2, ← inStop.2, ← first]

/-- **A text is cut at its blank runs and nowhere else.** Its spans are the
pieces between one cut and the next, from the first cut to the last. -/
theorem spans_cuts (data : Bytes) :
    ∃ cuts : List Nat, cuts.Pairwise (· < ·) ∧ (∀ c, c ∈ cuts ↔ IsCut data c) ∧
      spans data = List.zipWith (fun a b => ⟨.inText data a, .inText data b⟩) cuts cuts.tail := by
  obtain ⟨tile, ins⟩ := spans_tile data
  have split := splits_feedAll splits_start data
  exact ⟨0 :: stops (spans data), pairwise_stops tile, cuts_finish split, eq_pieces tile (Cursor.in_start data) ins⟩

end Splitter

end ContentChunks
