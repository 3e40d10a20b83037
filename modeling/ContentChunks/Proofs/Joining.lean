/-
Texts put end to end. A splitter forgets its past at a blank run: where a text
ends with the last line feed of a blank run, and the spaces that the next one
begins with have no line feed (`Joins`), both together are cut there, and each
is cut as if it stood alone.

Main statements:
- `isCut_append`: the cuts of two texts that join are those of the first and,
  moved, those of the second.
- `Splitter.spans_append`, `Chunk.ofAsset_append`: so are the spans and the chunks.
- `Splitter.spans_joined`: a splitter may be ended at the join and begun again.
-/
import ContentChunks.Proofs.BlankRuns
import Mathlib.Data.List.DropRight
import Mathlib.Data.List.Sort

namespace ContentChunks

instance : DecidablePred IsSpace := fun b => inferInstanceAs (Decidable (b = 0x0A ∨ b = 0x0D ∨ b = 0x20 ∨ b = 0x09))

def leadingSpaces (data : Bytes) : Bytes := data.takeWhile (decide <| IsSpace ·)

def trailingSpaces (data : Bytes) : Bytes := data.rtakeWhile (decide <| IsSpace ·)

/-- Whether a text can be followed by another with a cut between them: there is
none of it, or it ends with a line feed, the spaces at its end have two line feeds
at least, and the spaces at the beginning of the other have none. -/
def Joins (x y : Bytes) : Prop :=
  x = [] ∨ x.getLast? = some Cursor.lineFeed ∧ 2 ≤ (trailingSpaces x).count Cursor.lineFeed ∧
    Cursor.lineFeed ∉ leadingSpaces y

instance (x y : Bytes) : Decidable (Joins x y) := inferInstanceAs (Decidable (_ ∨ _))

/-! ## The spaces beside a join -/

theorem blankRun_concat {words plain more : Bytes} (text : ∀ b, words.getLast? = some b → ¬IsSpace b)
    (spaces : ∀ b ∈ plain ++ Cursor.lineFeed :: more, IsSpace b) (noFeed : Cursor.lineFeed ∉ plain) :
    let x := words ++ (plain ++ Cursor.lineFeed :: more) ++ [Cursor.lineFeed]
    BlankRun x words.length x.length (words.length + plain.length) (x.length - 1) := by
  intro x
  have length : x.length = words.length + plain.length + more.length + 2 := by
    simp only [x, List.length_append, List.length_cons, List.length_nil]
    omega
  have here : ∀ i, x[words.length + i]? = (plain ++ Cursor.lineFeed :: (more ++ [Cursor.lineFeed]))[i]? := fun i => by
    simp [x, List.append_assoc, List.getElem?_append_right]
  refine ⟨⟨⟨by omega, Nat.le_refl _⟩, fun i low high => ?_, ?_⟩,
    ⟨by omega, ?_, ?_, fun i low high => ?_, fun i low high => by omega⟩, .inl rfl, by omega⟩
  · obtain ⟨i, rfl⟩ := Nat.exists_eq_add_of_le low
    rw [SpaceAt, here]
    obtain ⟨b, hb⟩ : ∃ b, (plain ++ Cursor.lineFeed :: (more ++ [Cursor.lineFeed]))[i]? = some b :=
      ⟨_, List.getElem?_eq_getElem (by simp; omega)⟩
    refine ⟨b, hb, ?_⟩
    have mem := List.mem_of_getElem? hb
    rw [← List.cons_append, ← List.append_assoc, List.mem_append, List.mem_singleton] at mem
    obtain mem | rfl := mem
    · exact spaces b mem
    · exact .inl rfl
  · cases words.eq_nil_or_concat with
    | inl empty => exact .inl (by rw [empty]; rfl)
    | inr last =>
      obtain ⟨front, b, rfl⟩ := last
      exact .inr ⟨b, by simp [x], text b (by simp)⟩
  · rw [here]
    simp
  · rw [← List.getLast?_eq_getElem?]
    exact List.getLast?_concat
  · obtain ⟨i, rfl⟩ := Nat.exists_eq_add_of_le low
    rw [here, List.getElem?_append_left (by omega)]
    exact fun found => noFeed (List.mem_of_getElem? found)

/-- A text that ends with a line feed, with another one in the spaces before it,
ends with a blank run whose last line feed is its last byte. -/
theorem exists_blankRun {x : Bytes} (ends : x.getLast? = some Cursor.lineFeed)
    (several : 2 ≤ (trailingSpaces x).count Cursor.lineFeed) :
    ∃ start first, BlankRun x start x.length first (x.length - 1) := by
  obtain ⟨before, rfl⟩ := List.getLast?_eq_some_iff.1 ends
  rw [trailingSpaces, List.rtakeWhile_concat_pos _ _ _ (by decide), List.count_append, List.count_singleton_self]
    at several
  have parts := List.rdropWhile_append_rtakeWhile (p := fun b => decide (IsSpace b)) (l := before)
  have text : ∀ b, (before.rdropWhile fun b => decide (IsSpace b)).getLast? = some b → ¬IsSpace b := by
    intro b last
    have filled := List.ne_nil_of_mem (List.mem_of_getLast? last)
    rw [List.getLast?_eq_some_getLast filled] at last
    rw [← Option.some.inj last]
    simpa using List.rdropWhile_last_not (fun b => decide (IsSpace b)) before filled
  have spaces : ∀ b ∈ before.rtakeWhile fun b => decide (IsSpace b), IsSpace b := fun b hb => by
    simpa using List.mem_rtakeWhile_imp hb
  generalize (before.rdropWhile fun b => decide (IsSpace b)) = words at parts text
  generalize (before.rtakeWhile fun b => decide (IsSpace b)) = blanks at parts spaces several
  subst parts
  obtain ⟨plain, more, rfl, noFeed⟩ := List.eq_append_cons_of_mem (List.count_pos_iff.1 (Nat.le_of_succ_le_succ several))
  exact ⟨_, _, blankRun_concat text spaces noFeed⟩

theorem exists_textAt {y : Bytes} (noFeed : Cursor.lineFeed ∉ leadingSpaces y) {i : Nat}
    (found : y[i]? = some Cursor.lineFeed) : ∃ j < i, TextAt y j := by
  induction y generalizing i with
  | nil => simp at found
  | cons b rest ih =>
    by_cases space : IsSpace b
    · rw [leadingSpaces, List.takeWhile_cons_of_pos (by simpa using space), List.mem_cons, not_or] at noFeed
      cases i with
      | zero => exact absurd (Option.some.inj found).symm noFeed.1
      | succ i =>
        obtain ⟨j, low, text⟩ := ih noFeed.2 found
        exact ⟨j + 1, Nat.succ_lt_succ low, text⟩
    · cases i with
      | zero => exact absurd (.inl (Option.some.inj found)) space
      | succ i => exact ⟨0, Nat.succ_pos i, b, rfl, space⟩

/-! ## Cuts of two texts -/

section

variable {x y : Bytes} {start stop first last : Nat}

theorem getElem?_moved (x y : Bytes) (i : Nat) : (x ++ y)[x.length + i]? = y[i]? := by
  rw [List.getElem?_append_right (Nat.le_add_right _ _), Nat.add_sub_cancel_left]

theorem spaceAt_moved {i : Nat} : SpaceAt (x ++ y) (x.length + i) ↔ SpaceAt y i := by
  rw [SpaceAt, SpaceAt, getElem?_moved]

theorem textAt_moved {i : Nat} : TextAt (x ++ y) (x.length + i) ↔ TextAt y i := by
  rw [TextAt, TextAt, getElem?_moved]

theorem breakStart_moved (x y : Bytes) (start first : Nat) :
    breakStart (x ++ y) (x.length + start) (x.length + first) = x.length + breakStart y start first := by
  unfold breakStart
  by_cases positive : 0 < first
  · rw [show x.length + first - 1 = x.length + (first - 1) by omega, getElem?_moved]
    simp only [Nat.add_lt_add_iff_left]
    split <;> rfl
  · rw [if_neg (by omega), if_neg (by omega)]

theorem spaceRun_moved (later : 0 < start) :
    SpaceRun (x ++ y) (x.length + start) (x.length + stop) ↔ SpaceRun y start stop := by
  have previous : x.length + start - 1 = x.length + (start - 1) := by omega
  constructor
  · intro run
    have within := run.within
    rw [List.length_append] at within
    refine ⟨by omega, fun i low high => ?_, .inr ?_⟩
    · exact spaceAt_moved.1 (run.spaces (x.length + i) (by omega) (by omega))
    · have text := run.opens.resolve_left (by omega)
      rwa [previous, textAt_moved] at text
  · intro run
    have within := run.within
    refine ⟨by rw [List.length_append]; omega, fun i low high => ?_, .inr ?_⟩
    · obtain ⟨i, rfl⟩ := Nat.exists_eq_add_of_le (Nat.le_trans (Nat.le_add_right _ _) low)
      exact spaceAt_moved.2 (run.spaces i (by omega) (by omega))
    · rw [previous, textAt_moved]
      exact run.opens.resolve_left (by omega)

theorem lineFeeds_moved : LineFeeds (x ++ y) (x.length + start) (x.length + stop) (x.length + first)
    (x.length + last) ↔ LineFeeds y start stop first last := by
  constructor
  · intro ⟨order, atFirst, atLast, before, after⟩
    rw [getElem?_moved] at atFirst atLast
    refine ⟨by omega, atFirst, atLast, fun i low high => ?_, fun i low high => ?_⟩
    · rw [← getElem?_moved x]
      exact before _ (by omega) (by omega)
    · rw [← getElem?_moved x]
      exact after _ (by omega) (by omega)
  · intro ⟨order, atFirst, atLast, before, after⟩
    refine ⟨by omega, by rwa [getElem?_moved], by rwa [getElem?_moved], fun i low high => ?_, fun i low high => ?_⟩
    · obtain ⟨i, rfl⟩ := Nat.exists_eq_add_of_le (Nat.le_trans (Nat.le_add_right _ _) low)
      rw [getElem?_moved]
      exact before i (by omega) (by omega)
    · obtain ⟨i, rfl⟩ := Nat.exists_eq_add_of_le (Nat.le_of_lt (Nat.lt_of_le_of_lt (Nat.le_add_right _ _) low))
      rw [getElem?_moved]
      exact after i (by omega) (by omega)

/-- A run that a text does not begin with is one where the text follows another, too. -/
theorem blankRun_moved (later : 0 < start) : BlankRun (x ++ y) (x.length + start) (x.length + stop)
    (x.length + first) (x.length + last) ↔ BlankRun y start stop first last := by
  constructor
  · intro run
    have several := run.several
    refine ⟨(spaceRun_moved later).1 run.toSpaceRun, lineFeeds_moved.1 run.toLineFeeds, ?_, by omega⟩
    refine run.closes.imp (fun ended => ?_) textAt_moved.1
    rw [List.length_append] at ended
    omega
  · intro run
    have several := run.several
    refine ⟨(spaceRun_moved later).2 run.toSpaceRun, lineFeeds_moved.2 run.toLineFeeds, ?_, by omega⟩
    refine run.closes.imp (fun ended => ?_) textAt_moved.2
    rw [List.length_append, ended]

/-- **The run at a join** goes on over the spaces of the second text, but its line
feeds are those of the first. -/
theorem LineFeeds.join (feeds : LineFeeds x start x.length first last) (ends : last + 1 = x.length)
    (noFeed : Cursor.lineFeed ∉ leadingSpaces y) (reaches : x.length ≤ stop)
    (spaces : ∀ i, x.length ≤ i → i < stop → SpaceAt (x ++ y) i) :
    LineFeeds (x ++ y) start stop first last := by
  have before : LineFeeds (x ++ y) start x.length first last :=
    feeds.congr fun i low => List.getElem?_append_left low
  have order := feeds.order
  refine ⟨by omega, before.atFirst, before.atLast, before.before, fun i low high found => ?_⟩
  obtain ⟨i, rfl⟩ := Nat.exists_eq_add_of_le (show x.length ≤ i by omega)
  rw [getElem?_moved] at found
  obtain ⟨j, less, text⟩ := exists_textAt noFeed found
  exact (spaces (x.length + j) (by omega) (by omega)).not_textAt (textAt_moved.2 text)

theorem leadingSpaces_maximal (y : Bytes) : (∀ i < (leadingSpaces y).length, SpaceAt y i) ∧
    ((leadingSpaces y).length = y.length ∨ TextAt y (leadingSpaces y).length) := by
  induction y with
  | nil => exact ⟨by simp [leadingSpaces], .inl rfl⟩
  | cons b rest ih =>
    by_cases space : IsSpace b
    · have longer : leadingSpaces (b :: rest) = b :: leadingSpaces rest :=
        List.takeWhile_cons_of_pos (by simpa using space)
      rw [longer, List.length_cons, List.length_cons]
      refine ⟨fun i low => ?_, ih.2.imp (congrArg (· + 1)) id⟩
      cases i with
      | zero => exact ⟨b, rfl, space⟩
      | succ i => exact ih.1 i (Nat.lt_of_succ_lt_succ low)
    · have nothing : leadingSpaces (b :: rest) = [] := List.takeWhile_cons_of_neg (by simpa using space)
      rw [nothing]
      exact ⟨by simp, .inr ⟨b, rfl, space⟩⟩

variable (run : BlankRun x start x.length first (x.length - 1)) (noFeed : Cursor.lineFeed ∉ leadingSpaces y)
include run noFeed

theorem BlankRun.join : BlankRun (x ++ y) start (x.length + (leadingSpaces y).length) first (x.length - 1) := by
  obtain ⟨leading, ends⟩ := leadingSpaces_maximal y
  have order := run.order
  have joined : ∀ i, x.length ≤ i → i < x.length + (leadingSpaces y).length → SpaceAt (x ++ y) i := by
    intro i low high
    obtain ⟨i, rfl⟩ := Nat.exists_eq_add_of_le low
    exact spaceAt_moved.2 (leading i (by omega))
  have before : SpaceRun (x ++ y) start x.length :=
    run.toSpaceRun.congr (by simp) fun i low => List.getElem?_append_left low
  have short : (leadingSpaces y).length ≤ y.length := (List.takeWhile_sublist _).length_le
  refine ⟨⟨by rw [List.length_append]; omega, fun i low high => ?_, before.opens⟩,
    run.toLineFeeds.join (by omega) noFeed (by omega) joined, ?_, run.several⟩
  · by_cases inside : i < x.length
    · exact before.spaces i low inside
    · exact joined i (Nat.le_of_not_lt inside) high
  · exact ends.imp (fun ended => by rw [List.length_append, ended]) textAt_moved.2

theorem isCut_join : IsCut (x ++ y) x.length := by
  have := run.order
  exact .inr (.inr ⟨_, _, _, _, run.join noFeed, .inr (by omega)⟩)

theorem IsCut.append_left {c : Nat} (cut : IsCut x c) : IsCut (x ++ y) c := by
  obtain rfl | rfl | ⟨start', stop', first', last', run', cut⟩ := cut
  · exact .inl rfl
  · exact isCut_join run noFeed
  · have within := run'.within
    have same : ∀ i < stop', (x ++ y)[i]? = x[i]? := fun i low => List.getElem?_append_left (by omega)
    by_cases inner : stop' < x.length
    · have closes : TextAt (x ++ y) stop' := by
        rw [TextAt, List.getElem?_append_left inner]
        exact run'.closes.resolve_left (Nat.ne_of_lt inner)
      obtain ⟨longer, began⟩ := run'.congr same (by rw [List.length_append]; omega) (.inr closes)
      exact .inr (.inr ⟨_, _, _, _, longer, began ▸ cut⟩)
    · -- this is the run at the join
      obtain rfl : stop' = x.length := by omega
      obtain ⟨rfl, rfl, rfl⟩ := run.unique run'
      have began : breakStart (x ++ y) start first = breakStart x start first :=
        breakStart_congr (fun i low => List.getElem?_append_left (by have := run.order; omega)) start
      exact .inr (.inr ⟨_, _, _, _, run.join noFeed, began ▸ cut⟩)

theorem IsCut.append_right {d : Nat} (cut : IsCut y d) : IsCut (x ++ y) (x.length + d) := by
  obtain rfl | rfl | ⟨start', stop', first', last', run', cut⟩ := cut
  · exact isCut_join run noFeed
  · exact .inr (.inl (by rw [List.length_append]))
  · have later : 0 < start' := by
      by_contra zero
      obtain ⟨j, less, text⟩ := exists_textAt noFeed run'.atFirst
      have := run'.order
      exact (run'.spaces j (by omega) (by omega)).not_textAt text
    refine .inr (.inr ⟨_, _, _, _, (blankRun_moved later).2 run', ?_⟩)
    rw [breakStart_moved]
    omega

/-- A run that goes over the join is the one that is there: its line feeds are those of the run before the join. -/
theorem BlankRun.eq_of_over {start' stop' first' last' : Nat} (run' : BlankRun (x ++ y) start' stop' first' last')
    (began : start' ≤ x.length) (goes : x.length ≤ stop') : start' = start ∧ first' = first ∧ last' = x.length - 1 := by
  have order := run'.order
  have runOrder := run.order
  have same : ∀ i < x.length, x[i]? = (x ++ y)[i]? := fun i low => (List.getElem?_append_left low).symm
  have before : SpaceRun x start' x.length := by
    refine ⟨by omega, fun i low high => ?_, ?_⟩
    · rw [SpaceAt, same i high]
      exact run'.spaces i low (by omega)
    · by_cases zero : start' = 0
      · exact .inl zero
      · rw [TextAt, same (start' - 1) (by omega)]
        exact .inr (run'.opens.resolve_left zero)
  obtain rfl : start = start' := Nat.le_antisymm (before.start_le run.toSpaceRun) (run.start_le before)
  have feeds : LineFeeds (x ++ y) start stop' first (x.length - 1) :=
    run.toLineFeeds.join (by omega) noFeed goes fun i low high => run'.spaces i (by omega) high
  obtain ⟨low, high⟩ := feeds.le run'.toLineFeeds
  obtain ⟨low', high'⟩ := run'.toLineFeeds.le feeds
  exact ⟨rfl, by omega, by omega⟩

theorem IsCut.parts {c : Nat} (cut : IsCut (x ++ y) c) : IsCut x c ∨ ∃ d, IsCut y d ∧ c = x.length + d := by
  obtain rfl | rfl | ⟨start', stop', first', last', run', cut⟩ := cut
  · exact .inl (.inl rfl)
  · exact .inr ⟨y.length, .inr (.inl rfl), by rw [List.length_append]⟩
  · have within := run'.within
    have order := run'.order
    have runOrder := run.order
    rw [List.length_append] at within
    by_cases inner : stop' < x.length
    · have same : ∀ i < stop', x[i]? = (x ++ y)[i]? := fun i low => (List.getElem?_append_left (by omega)).symm
      have closes : TextAt x stop' := by
        have text := run'.closes.resolve_left (by rw [List.length_append]; omega)
        rwa [TextAt, List.getElem?_append_left inner] at text
      obtain ⟨shorter, began⟩ := run'.congr same (by omega) (.inr closes)
      exact .inl (.inr (.inr ⟨_, _, _, _, shorter, began ▸ cut⟩))
    by_cases later : x.length < start'
    · obtain ⟨start', rfl⟩ := Nat.exists_eq_add_of_le (Nat.le_of_lt later)
      obtain ⟨stop', rfl⟩ := Nat.exists_eq_add_of_le (Nat.le_of_not_lt inner)
      obtain ⟨first', rfl⟩ := Nat.exists_eq_add_of_le (show x.length ≤ first' by omega)
      obtain ⟨last', rfl⟩ := Nat.exists_eq_add_of_le (show x.length ≤ last' by omega)
      rw [breakStart_moved] at cut
      refine .inr ⟨c - x.length, .inr (.inr ⟨_, _, _, _, (blankRun_moved (by omega)).1 run', ?_⟩), by omega⟩
      omega
    · obtain ⟨rfl, rfl, rfl⟩ := run.eq_of_over noFeed run' (by omega) (by omega)
      refine .inl (.inr (.inr ⟨_, _, _, _, run, cut.imp_left fun began => ?_⟩))
      rw [began]
      exact breakStart_congr (fun i low => List.getElem?_append_left (by omega)) _

end

/-- **Two texts that join are cut as each is alone.** -/
theorem isCut_append {x y : Bytes} (joins : Joins x y) (c : Nat) :
    IsCut (x ++ y) c ↔ IsCut x c ∨ ∃ d, IsCut y d ∧ c = x.length + d := by
  obtain rfl | ⟨ends, several, noFeed⟩ := joins
  · have nowhere : IsCut [] c → c = 0 := by
      rintro (rfl | rfl | ⟨start, stop, first, last, run, -⟩)
      · rfl
      · rfl
      · have within := run.within
        have order := run.order
        rw [List.length_nil] at within
        omega
    constructor
    · exact fun cut => .inr ⟨c, cut, by simp⟩
    · rintro (cut | ⟨d, cut, rfl⟩)
      · exact .inl (nowhere cut)
      · simpa using cut
  · obtain ⟨start, first, run⟩ := exists_blankRun ends several
    constructor
    · exact IsCut.parts run noFeed
    · rintro (cut | ⟨d, cut, rfl⟩)
      · exact cut.append_left run noFeed
      · exact cut.append_right run noFeed

/-! ## Spans and chunks of two texts -/

/-- A place of a text, where the text comes after another that ends with a line feed or is empty. -/
def Cursor.past (x : Bytes) (c : Cursor) : Cursor := ⟨x.length + c.offset, x.count lineFeed + c.line, c.column⟩

theorem Joins.past_inText {x y : Bytes} (joins : Joins x y) (offset : Nat) :
    (Cursor.inText y offset).past x = .inText (x ++ y) (x.length + offset) := by
  have columns : ∀ text : Bytes, ((x ++ text).reverse.takeWhile (· != Cursor.lineFeed)).length =
      (text.reverse.takeWhile (· != Cursor.lineFeed)).length := by
    intro text
    obtain rfl | ⟨ends, -⟩ := joins
    · rfl
    · obtain ⟨before, rfl⟩ := List.getLast?_eq_some_iff.1 ends
      rw [List.reverse_append, List.reverse_append, List.reverse_singleton, List.singleton_append,
        List.takeWhile_append]
      split <;> simp_all
  simp only [Cursor.past, Cursor.inText, List.take_length_add_append, List.count_append, columns]

def Span.past (x : Bytes) (s : Span) : Span := ⟨s.start.past x, s.stop.past x⟩

theorem Span.Tile.past {here stop : Cursor} {spans : List Span} (h : Span.Tile here spans stop) (x : Bytes) :
    Span.Tile (here.past x) (spans.map (Span.past x)) (stop.past x) := by
  induction spans generalizing here with
  | nil => exact congrArg (Cursor.past x) h
  | cons s rest ih =>
    obtain ⟨rfl, filled, h⟩ := h
    exact ⟨rfl, Nat.add_lt_add_left filled _, ih h⟩

theorem Joins.in_past {x y : Bytes} (joins : Joins x y) {c : Cursor} (h : c.In y) : (c.past x).In (x ++ y) := by
  have within := h.1
  rw [h.2, joins.past_inText]
  exact Cursor.in_inText (by rw [List.length_append]; omega)

namespace Splitter

theorem mem_stops_spans {data : Bytes} {c : Nat} : c ∈ 0 :: stops (spans data) ↔ IsCut data c :=
  cuts_finish (splits_feedAll splits_start data) c

theorem mem_stops_past {x : Bytes} {spans : List Span} {c : Nat} :
    c ∈ stops (spans.map (Span.past x)) ↔ ∃ d ∈ stops spans, c = x.length + d := by
  simp [stops, Span.past, Cursor.past, eq_comm]

/-- Spans that lie end to end from the same place and stop at the same places are the same. -/
theorem eq_of_stops {data : Bytes} {here stop stop' : Cursor} {spans spans' : List Span}
    (tile : Span.Tile here spans stop) (tile' : Span.Tile here spans' stop') (begins : here.In data)
    (ins : ∀ s ∈ spans, s.start.In data ∧ s.stop.In data) (ins' : ∀ s ∈ spans', s.start.In data ∧ s.stop.In data)
    (same : ∀ c, c ∈ here.offset :: stops spans ↔ c ∈ here.offset :: stops spans') : spans = spans' := by
  have all := (pairwise_stops tile).eq_of_mem_iff (pairwise_stops tile') same
  rw [eq_pieces tile begins ins, eq_pieces tile' begins ins', (List.cons.inj all).2]

/-- **The spans of two texts that join** are those of the first and, moved, those of the second. -/
theorem spans_append {x y : Bytes} (joins : Joins x y) :
    spans (x ++ y) = spans x ++ (spans y).map (Span.past x) := by
  obtain ⟨tile, ins⟩ := spans_tile (x ++ y)
  obtain ⟨tileLeft, insLeft⟩ := spans_tile x
  obtain ⟨tileRight, insRight⟩ := spans_tile y
  have between : Cursor.start.past x = .inText x x.length := by
    rw [(Cursor.in_start y).2, joins.past_inText]
    exact Cursor.inText_append (Nat.le_refl _) y
  have tileBoth := tileLeft.append (between ▸ tileRight.past x)
  refine eq_of_stops tile tileBoth (Cursor.in_start _) ins (fun s mem => ?_) fun c => ?_
  · cases List.mem_append.1 mem with
    | inl left => exact ⟨(insLeft s left).1.append y, (insLeft s left).2.append y⟩
    | inr right =>
      obtain ⟨t, listed, rfl⟩ := List.mem_map.1 right
      exact ⟨joins.in_past (insRight t listed).1, joins.in_past (insRight t listed).2⟩
  · have cut : IsCut x x.length := .inr (.inl rfl)
    rw [show Cursor.start.offset = 0 from rfl, mem_stops_spans, isCut_append joins, stops_append, ← List.cons_append,
      List.mem_append, mem_stops_spans, mem_stops_past]
    constructor
    · rintro (left | ⟨d, right, rfl⟩)
      · exact .inl left
      · obtain rfl | mem := List.mem_cons.1 (mem_stops_spans.2 right)
        · exact .inl cut
        · exact .inr ⟨d, mem, rfl⟩
    · rintro (left | ⟨d, mem, rfl⟩)
      · exact .inl left
      · exact .inr ⟨d, mem_stops_spans.1 (List.mem_cons_of_mem _ mem), rfl⟩

/-- **A splitter may be ended at a join and begun again.** The spans of two texts
that join are those of the first and, moved, those of the second; so a splitter
that has read the first and goes on with the second, in whatever line it is then,
gives what ending it there gives, and after that what a new one gives for the
second, moved. -/
theorem spans_joined {x y : Bytes} (joins : Joins x y) :
    spans (x ++ y) = spans x ++ (spans y).map (Span.past x) ∧
      let s := (feedAll start x).2
      (s.feedAll y).1 ++ (s.feedAll y).2.finish.1 = s.finish.1 ++ (spans y).map (Span.past x) := by
  have both := spans_append joins
  refine ⟨both, ?_⟩
  intro s
  have whole : spans (x ++ y) = (feedAll start x).1 ++ ((s.feedAll y).1 ++ (s.feedAll y).2.finish.1) := by
    simp only [spans, feedAll_append, List.append_assoc, s]
  have front : spans x = (feedAll start x).1 ++ s.finish.1 := rfl
  rw [whole, front, List.append_assoc] at both
  exact List.append_cancel_left both

/-- A line break with a carriage return ends the first text, and a carriage return begins the second. -/
theorem spans_joined_returns :
    let x := Bytes.ofText "a\r\n \r\n"
    let y := Bytes.ofText "\r b\n\nc"
    let s := (feedAll start x).2
    Joins x y ∧ s.line = .blankRun ∧ (spans x).length = 2 ∧ (spans y).length = 3 ∧
      spans (x ++ y) = spans x ++ (spans y).map (Span.past x) ∧
      (s.feedAll y).1 ++ (s.feedAll y).2.finish.1 = s.finish.1 ++ (spans y).map (Span.past x) := by
  intro x y s
  have joins : Joins x y := by decide
  exact ⟨joins, by decide, by decide, by decide, spans_joined joins⟩

end Splitter

def TextPosition.past (x : Bytes) (p : TextPosition) : TextPosition :=
  ⟨x.length + p.offset, p.line.map (x.count Cursor.lineFeed + ·), p.column⟩

/-- A range of an asset, where the asset comes after a text that ends with a line feed or is empty. -/
def Range.past (x : Bytes) : Range → Range
  | .bytes start stop => .bytes (x.length + start) (x.length + stop)
  | .text start stop => .text (start.past x) (stop.past x)

def Chunk.past (x : Bytes) (c : Chunk) : Chunk := { c with range := c.range.past x }

@[simp] theorem Range.start_past (x : Bytes) (r : Range) : (r.past x).start = x.length + r.start := by
  cases r <;> rfl

@[simp] theorem Range.stop_past (x : Bytes) (r : Range) : (r.past x).stop = x.length + r.stop := by
  cases r <;> rfl

theorem Kind.of_eq_text {data : Bytes} (allowed : ∀ b ∈ data, disallowed b = false) (sample : Option Nat) :
    Kind.of data sample = .text := by
  cases judged : Kind.of data sample with
  | text => rfl
  | binary =>
    obtain ⟨b, mem, shows⟩ := shownBy_eq_binary_iff.1 judged
    have inData : b ∈ data := by
      cases sample with
      | none => exact mem
      | some n => exact List.mem_of_mem_take mem
    simp [allowed b inData] at shows

theorem Bytes.slice_append_left {x : Bytes} {stop : Nat} (within : stop ≤ x.length) (y : Bytes) (start : Nat) :
    (x ++ y).slice start stop = x.slice start stop := by
  by_cases before : start ≤ x.length
  · rw [slice, slice, List.drop_append_of_le_length before, List.take_append_of_le_length]
    rw [List.length_drop]
    omega
  · rw [slice, slice, show stop - start = 0 by omega, List.take_zero, List.take_zero]

theorem Bytes.slice_append_right (x y : Bytes) (start stop : Nat) :
    (x ++ y).slice (x.length + start) (x.length + stop) = y.slice start stop := by
  rw [slice, slice, List.drop_length_add_append, Nat.add_sub_add_left]

/-- **The chunks of two texts that join** are those of the first and, moved, those of the second. -/
theorem Chunk.ofAsset_append {x y : Bytes} (allowed : ∀ b ∈ x ++ y, Kind.disallowed b = false) (joins : Joins x y)
    (config : ChunkConfig) (location : Location) :
    Chunk.ofAsset config location (x ++ y) =
      Chunk.ofAsset config location x ++ (Chunk.ofAsset config location y).map (Chunk.past x) := by
  simp only [Chunk.ofAsset, Kind.of_eq_text allowed,
    Kind.of_eq_text fun b mem => allowed b (List.mem_append_left y mem),
    Kind.of_eq_text fun b mem => allowed b (List.mem_append_right x mem), Splitter.spans_append joins,
    List.map_append, List.map_map]
  congr 1
  · exact List.map_congr_left fun s mem => by
      rw [Bytes.slice_append_left ((Splitter.spans_tile x).2 s mem).2.1]
  · refine List.map_congr_left fun s mem => ?_
    show (⟨location, (s.past x).toRange, _⟩ : Chunk) = ⟨location, s.toRange.past x, _⟩
    rw [show (s.past x).start.offset = x.length + s.start.offset from rfl,
      show (s.past x).stop.offset = x.length + s.stop.offset from rfl, Bytes.slice_append_right]
    rfl

end ContentChunks
