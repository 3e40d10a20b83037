/-
The words of a payload are rows of its own bytes: whatever the payload, valid UTF-8
or not, reading it as text neither loses a byte of a word nor joins two words.

A scan that has come to a place has closed the runs that end before it, and has a
row open that begins where the last byte outside of words was left (`Cut`). Reading
a byte of a word keeps this, and so does reading what is no word (`Cut.read`,
`Cut.skip`); so at the end all runs are closed (`scan_runs`).

Main statement: `words_lossy`.
-/
import ContentChunks.Proofs.Lossy
import ContentChunks.Words
import Mathlib

namespace ContentChunks.Words

/-- Whether a byte is an ASCII letter or digit, or an underscore. -/
def WordByte (b : UInt8) : Prop :=
  (0x41 ≤ b ∧ b ≤ 0x5A) ∨ (0x61 ≤ b ∧ b ≤ 0x7A) ∨ (0x30 ≤ b ∧ b ≤ 0x39) ∨ b = 0x5F

instance : DecidablePred WordByte := fun b =>
  inferInstanceAs (Decidable ((0x41 ≤ b ∧ b ≤ 0x5A) ∨ (0x61 ≤ b ∧ b ≤ 0x7A) ∨ (0x30 ≤ b ∧ b ≤ 0x39) ∨ b = 0x5F))

/-- Whether there is a byte of a word at a place. -/
def WordAt (data : Bytes) (i : Nat) : Prop := ∃ b, data[i]? = some b ∧ WordByte b

/-- Whether the bytes from a place to another are a run of word bytes that none before or after belongs to. -/
structure Run (data : Bytes) (start stop : Nat) : Prop where
  filled : start < stop
  within : stop ≤ data.length
  words : ∀ i, start ≤ i → i < stop → WordAt data i
  opens : ∀ i, i + 1 = start → ¬WordAt data i
  closes : ¬WordAt data stop

/-- The characters of bytes, each read by itself. -/
def chars (bytes : Bytes) : List Char := bytes.map fun b => Char.ofNat b.toNat

/-! ## Bytes of words -/

theorem inWord_ofNat {b : UInt8} (small : b < 0x80) : inWord (Char.ofNat b.toNat) = true ↔ WordByte b := by
  have all : ∀ n < 128, inWord (Char.ofNat n) = true ↔ WordByte (UInt8.ofNat n) := by decide
  simpa using all b.toNat small

theorem toNat_of_inWord {c : Char} (word : inWord c = true) : c.toNat < 0x80 := by
  simp only [inWord, Char.isAlphanum, Char.isAlpha, Char.isUpper, Char.isLower, Char.isDigit, Bool.or_eq_true,
    Bool.and_eq_true, decide_eq_true_eq, beq_iff_eq, UInt32.le_iff_toNat_le, ge_iff_le] at word
  obtain ((⟨-, upper⟩ | ⟨-, lower⟩) | ⟨-, digit⟩) | rfl := word
  · exact Nat.lt_of_le_of_lt upper (by decide)
  · exact Nat.lt_of_le_of_lt lower (by decide)
  · exact Nat.lt_of_le_of_lt digit (by decide)
  · decide

theorem not_inWord {c : Char} (other : 0x80 ≤ c.toNat) : inWord c = false :=
  Bool.eq_false_iff.2 fun word => absurd other (Nat.not_le.2 (toNat_of_inWord word))

theorem WordByte.small {b : UInt8} (h : WordByte b) : b < 0x80 := by
  unfold WordByte at h
  simp only [UInt8.le_iff_toNat_le, UInt8.lt_iff_toNat_lt, ← UInt8.toNat_inj, UInt8.reduceToNat] at *
  omega

theorem not_wordByte {b : UInt8} (large : 0x80 ≤ b) : ¬WordByte b := fun word =>
  absurd word.small (UInt8.not_lt.2 large)

theorem ofText_chars {bytes : Bytes} (small : ∀ b ∈ bytes, b < 0x80) :
    Bytes.ofText (String.ofList (chars bytes)) = bytes := by
  rw [Bytes.ofText, String.toList_ofList]
  induction bytes with
  | nil => rfl
  | cons b rest ih =>
    obtain ⟨first, smallRest⟩ := List.forall_mem_cons.1 small
    have bound : b.toNat < 0x80 := first
    have spelling : String.utf8EncodeChar (Char.ofNat b.toNat) = [b] :=
      Utf8.encode_one (.inl (by omega)) (by omega) rfl
    rw [chars, List.map_cons, List.flatMap_cons, spelling, ← chars, ih smallRest, List.singleton_append]

theorem not_wordAt_end (data : Bytes) : ¬WordAt data data.length := by
  rintro ⟨b, found, -⟩
  simp at found

/-! ## Runs -/

section

variable {data : Bytes} {place opened : Nat} {runs : List (Nat × Nat)}

/-- Whether a scan that has come to a place has closed the runs that end before it, and begun a row at `opened`. -/
structure Cut (data : Bytes) (place : Nat) (runs : List (Nat × Nat)) (opened : Nat) : Prop where
  ordered : runs.Pairwise fun r s => r.2 < s.1
  closed : ∀ start stop, (start, stop) ∈ runs ↔ Run data start stop ∧ stop < place
  begun : opened ≤ place
  row : ∀ i, opened ≤ i → i < place → WordAt data i
  opens : ∀ i, i + 1 = opened → ¬WordAt data i

/-- The runs that are closed where the open row ends. -/
def closedAt (runs : List (Nat × Nat)) (opened place : Nat) : List (Nat × Nat) :=
  if opened < place then runs ++ [(opened, place)] else runs

theorem cut_zero (data : Bytes) : Cut data 0 [] 0 where
  ordered := .nil
  closed := by simp
  begun := Nat.le_refl 0
  row := by simp
  opens := by simp

theorem Cut.read (h : Cut data place runs opened) (word : WordAt data place) : Cut data (place + 1) runs opened where
  ordered := h.ordered
  closed start stop := by
    rw [h.closed]
    refine and_congr_right fun run => ⟨Nat.lt_succ_of_lt, fun before => ?_⟩
    exact Nat.lt_of_le_of_ne (Nat.le_of_lt_succ before) fun here => run.closes (here ▸ word)
  begun := Nat.le_succ_of_le h.begun
  row i above below := by
    obtain before | rfl := Nat.lt_succ_iff_lt_or_eq.1 below
    · exact h.row i above before
    · exact word
  opens := h.opens

/-- The row that is open at a place where no word goes on is the run that ends there. -/
theorem Cut.run_iff (h : Cut data place runs opened) (within : place ≤ data.length) (ends : ¬WordAt data place)
    (start : Nat) : Run data start place ↔ start = opened ∧ opened < place := by
  constructor
  · intro run
    -- the byte before the row is in no word, and neither is the one before the run
    have first : ¬opened < start := fun later =>
      run.opens (start - 1) (by omega) (h.row (start - 1) (by omega) (by have := run.filled; omega))
    have last : ¬start < opened := fun earlier =>
      h.opens (opened - 1) (by omega) (run.words (opened - 1) (by omega) (by have := h.begun; omega))
    have filled := run.filled
    omega
  · rintro ⟨rfl, filled⟩
    exact ⟨filled, within, h.row, h.opens, ends⟩

/-- Closing the open row closes all runs as far as the place. -/
theorem Cut.close (h : Cut data place runs opened) (within : place ≤ data.length) (ends : ¬WordAt data place) :
    (closedAt runs opened place).Pairwise (fun r s => r.2 < s.1) ∧
      ∀ start stop, (start, stop) ∈ closedAt runs opened place ↔ Run data start stop ∧ stop ≤ place := by
  have runHere := h.run_iff within ends
  unfold closedAt
  by_cases filled : opened < place
  · rw [if_pos filled]
    refine ⟨List.pairwise_append.2 ⟨h.ordered, List.pairwise_singleton .., ?_⟩, fun start stop => ?_⟩
    · rintro ⟨start, stop⟩ mem _ last
      obtain rfl := List.mem_singleton.1 last
      obtain ⟨run, before⟩ := (h.closed start stop).1 mem
      exact Nat.lt_of_not_le fun later => run.closes (h.row stop later before)
    · rw [List.mem_append, h.closed, List.mem_singleton, Prod.mk.injEq]
      constructor
      · rintro (⟨run, before⟩ | ⟨rfl, rfl⟩)
        · exact ⟨run, Nat.le_of_lt before⟩
        · exact ⟨(runHere _).2 ⟨rfl, filled⟩, Nat.le_refl _⟩
      · rintro ⟨run, le⟩
        obtain before | rfl := Nat.lt_or_eq_of_le le
        · exact .inl ⟨run, before⟩
        · exact .inr ⟨((runHere start).1 run).1, rfl⟩
  · rw [if_neg filled]
    refine ⟨h.ordered, fun start stop => ?_⟩
    rw [h.closed]
    refine and_congr_right fun run => ⟨Nat.le_of_lt, fun le => Nat.lt_of_le_of_ne le ?_⟩
    rintro rfl
    exact filled ((runHere start).1 run).2

theorem Cut.skip (h : Cut data place runs opened) {count : Nat} (pos : 0 < count) (within : place + count ≤ data.length)
    (wordless : ∀ i, place ≤ i → i < place + count → ¬WordAt data i) :
    Cut data (place + count) (closedAt runs opened place) (place + count) := by
  obtain ⟨ordered, closed⟩ := h.close (by omega) (wordless place (Nat.le_refl _) (by omega))
  refine ⟨ordered, fun start stop => ?_, Nat.le_refl _, fun i _ _ => by omega, fun i _ => wordless i (by omega) (by omega)⟩
  rw [closed]
  refine and_congr_right fun run => ⟨fun le => by omega, fun before => Nat.le_of_not_lt fun later => ?_⟩
  have filled := run.filled
  exact wordless (stop - 1) (by omega) (by omega) (run.words (stop - 1) (by omega) (by omega))

theorem wordAt_of_ahead {rest : Bytes} (ahead : data.drop place = rest) (i : Nat) :
    WordAt data (place + i) ↔ WordAt rest i := by
  rw [WordAt, WordAt, ← ahead, List.getElem?_drop]

theorem length_of_ahead {piece rest : Bytes} (within : place ≤ data.length) (ahead : data.drop place = piece ++ rest) :
    place + piece.length ≤ data.length ∧ data.drop (place + piece.length) = rest := by
  have length := congrArg List.length ahead
  rw [List.length_drop, List.length_append] at length
  exact ⟨by omega, by rw [← List.drop_drop, ahead, List.drop_left]⟩

theorem Cut.skip_piece {piece rest : Bytes} (h : Cut data place runs opened) (within : place ≤ data.length)
    (ahead : data.drop place = piece ++ rest) (filled : piece ≠ []) (wordless : ∀ b ∈ piece, ¬WordByte b) :
    Cut data (place + piece.length) (closedAt runs opened place) (place + piece.length) := by
  refine h.skip (List.length_pos_iff.2 filled) (length_of_ahead within ahead).1 fun i above below word => ?_
  obtain ⟨k, rfl⟩ := Nat.exists_eq_add_of_le above
  obtain ⟨b, found, word⟩ := (wordAt_of_ahead ahead k).1 word
  rw [List.getElem?_append_left (by omega)] at found
  exact wordless b (List.mem_of_getElem? found) word

/-! ## Scanning -/

/-- The characters of a run. -/
def wordOf (data : Bytes) (run : Nat × Nat) : List Char := chars (data.slice run.1 run.2)

theorem close_closedAt (within : place ≤ data.length) :
    close (runs.map (wordOf data)).reverse (wordOf data (opened, place)).reverse =
      ((closedAt runs opened place).map (wordOf data)).reverse := by
  have length : (wordOf data (opened, place)).length = place - opened := by
    rw [wordOf, chars, List.length_map, Bytes.length_slice data within]
  unfold close closedAt
  by_cases filled : opened < place
  · rw [if_pos filled, if_neg]
    · simp
    · intro empty
      rw [List.reverse_eq_nil_iff.1 empty, List.length_nil] at length
      omega
  · rw [if_neg filled, if_pos]
    rw [List.reverse_eq_nil_iff, List.eq_nil_iff_length_eq_zero]
    omega

theorem wordOf_concat {b : UInt8} {rest : Bytes} (begun : opened ≤ place) (ahead : data.drop place = b :: rest) :
    (wordOf data (opened, place + 1)).reverse = Char.ofNat b.toNat :: (wordOf data (opened, place)).reverse := by
  have here : data.slice place (place + 1) = [b] := by
    rw [Bytes.slice, ahead, Nat.add_sub_cancel_left]
    rfl
  rw [wordOf, wordOf, ← Bytes.slice_append_slice data begun (Nat.le_succ place), here, chars, List.map_append,
    List.reverse_append, ← chars]
  rfl

theorem wordOf_self (data : Bytes) (place : Nat) : wordOf data (place, place) = [] := by
  rw [wordOf, Bytes.slice, Nat.sub_self, List.take_zero]
  rfl

/-- **A scan closes all runs**, in order. -/
theorem scan_runs {rest : Bytes} {cs : List Char} (reads : Utf8.Reads rest cs) (h : Cut data place runs opened)
    (within : place ≤ data.length) (ahead : data.drop place = rest) :
    ∃ all : List (Nat × Nat), all.Pairwise (fun r s => r.2 < s.1) ∧
      (∀ start stop, (start, stop) ∈ all ↔ Run data start stop) ∧
      scan (runs.map (wordOf data)).reverse (wordOf data (opened, place)).reverse cs = all.map (wordOf data) := by
  induction reads generalizing place runs opened with
  | nil =>
    have length : place = data.length := Nat.le_antisymm within (List.drop_eq_nil_iff.1 ahead)
    obtain ⟨ordered, closed⟩ := h.close within (length ▸ not_wordAt_end data)
    refine ⟨_, ordered, fun start stop => (closed start stop).trans (and_iff_left_of_imp fun run => ?_), ?_⟩
    · exact length ▸ run.within
    · rw [scan, close_closedAt within, List.reverse_reverse]
  | @ascii b rest cs small reads ih =>
    have single : data.drop place = [b] ++ rest := ahead
    obtain ⟨within', ahead'⟩ := length_of_ahead within single
    by_cases word : WordByte b
    · have here : WordAt data place := (wordAt_of_ahead ahead 0).2 ⟨b, rfl, word⟩
      rw [scan, if_pos ((inWord_ofNat small).2 word), ← wordOf_concat h.begun ahead]
      exact ih (h.read here) within' ahead'
    · have next := h.skip_piece within single (by simp) (by simpa using word)
      rw [scan, if_neg (mt (inWord_ofNat small).1 word), close_closedAt within]
      have all := ih next within' ahead'
      rwa [wordOf_self] at all
  | @beyond piece rest c cs filled large other reads ih =>
    obtain ⟨within', ahead'⟩ := length_of_ahead within ahead
    have next := h.skip_piece within ahead filled fun b mem => not_wordByte (large b mem)
    rw [scan, if_neg (by simp [not_inWord other]), close_closedAt within]
    have all := ih next within' ahead'
    rwa [wordOf_self] at all

end

/-! ## Bytes of all words -/

theorem flatten_scan (rows : List (List Char)) (row cs : List Char) :
    (scan rows row cs).flatten = rows.reverse.flatten ++ (row.reverse ++ cs.filter inWord) := by
  have closed (rows : List (List Char)) (row : List Char) :
      (close rows row).reverse.flatten = rows.reverse.flatten ++ row.reverse := by
    unfold close
    split
    · rename_i empty
      simp [empty]
    · simp
  induction cs generalizing rows row with
  | nil => simp [scan, closed]
  | cons c cs ih =>
    by_cases word : inWord c = true
    · simp [scan, word, ih]
    · simp [scan, word, ih, closed]

theorem filter_of_reads {data : Bytes} {cs : List Char} (reads : Utf8.Reads data cs) :
    cs.filter inWord = chars (data.filter WordByte) := by
  induction reads with
  | nil => rfl
  | @ascii b rest cs small reads ih =>
    by_cases word : WordByte b
    · rw [List.filter_cons_of_pos ((inWord_ofNat small).2 word), List.filter_cons_of_pos (by simpa using word), ih]
      rfl
    · rw [List.filter_cons_of_neg (mt (inWord_ofNat small).1 word), List.filter_cons_of_neg (by simpa using word), ih]
  | @beyond piece rest c cs filled large other reads ih =>
    have wordless : piece.filter WordByte = [] := List.filter_eq_nil_iff.2 fun b mem => by
      simpa using not_wordByte (large b mem)
    rw [List.filter_cons_of_neg (by simp [not_inWord other]), List.filter_append, wordless, List.nil_append, ih]

theorem flatten_ofText (words : List (List Char)) :
    (words.map fun w => Bytes.ofText (String.ofList w)).flatten = Bytes.ofText (String.ofList words.flatten) := by
  simp only [Bytes.ofText, String.toList_ofList, List.flatMap_def, List.map_flatten, List.flatten_flatten, List.map_map]
  rfl

theorem Run.wordByte {data : Bytes} {start stop : Nat} (run : Run data start stop) :
    ∀ b ∈ data.slice start stop, WordByte b := by
  intro b mem
  obtain ⟨i, found⟩ := List.mem_iff_getElem?.1 mem
  rw [Bytes.slice, List.getElem?_take] at found
  split at found
  next inside =>
    rw [List.getElem?_drop] at found
    obtain ⟨c, same, word⟩ := run.words (start + i) (by omega) (by omega)
    rw [found] at same
    exact Option.some.inj same ▸ word
  next => cases found

/-- **The words of a payload are the runs of its own word bytes**, whatever its bytes: read as
text, with whatever is no UTF-8 replaced, it has as its words just the runs of ASCII letters, digits
and underscores that no further such byte belongs to, from the first to the last. So no word is
empty, and all of them together are the word bytes of the payload. -/
theorem words_lossy (data : Bytes) :
    let words := (ofText (Utf8.lossy data)).map Bytes.ofText
    (∃ runs : List (Nat × Nat), runs.Pairwise (fun r s => r.2 < s.1) ∧
      (∀ start stop, (start, stop) ∈ runs ↔ Run data start stop) ∧
      words = runs.map fun r => data.slice r.1 r.2) ∧
    [] ∉ words ∧ words.flatten = data.filter WordByte := by
  intro words
  have reads := Utf8.reads_lossy data
  obtain ⟨runs, ordered, all, scanned⟩ := scan_runs reads (cut_zero data) (Nat.zero_le _) rfl
  have same : words = runs.map fun r => data.slice r.1 r.2 := by
    have scanned : scan [] [] (Utf8.lossy data).toList = runs.map (wordOf data) := scanned
    simp only [words, ofText, scanned, List.map_map]
    refine List.map_congr_left fun ⟨start, stop⟩ mem => ofText_chars fun b inRun => ?_
    exact (((all start stop).1 mem).wordByte b inRun).small
  refine ⟨⟨runs, ordered, all, same⟩, fun empty => ?_, ?_⟩
  · rw [same] at empty
    obtain ⟨⟨start, stop⟩, mem, nothing⟩ := List.mem_map.1 empty
    have run := (all start stop).1 mem
    have length := Bytes.length_slice data (i := start) run.within
    rw [nothing, List.length_nil] at length
    exact absurd run.filled (by omega)
  · have kept : words.flatten = Bytes.ofText (String.ofList (chars (data.filter WordByte))) := by
      have kept : (scan [] [] (Utf8.lossy data).toList).flatten = chars (data.filter WordByte) :=
        (flatten_scan [] [] _).trans (filter_of_reads reads)
      rw [show words = _ from List.map_map, ← kept]
      exact flatten_ofText _
    rw [kept, ofText_chars fun b mem => WordByte.small (by simpa using (List.mem_filter.1 mem).2)]

/-- A letter that is cut short, and bytes that begin nothing, stand between words. -/
example : (ofText (Utf8.lossy [0x61, 0xE2, 0x82, 0x62, 0x31, 0xFF, 0x80, 0x5F])).map Bytes.ofText =
    [[0x61], [0x62, 0x31], [0x5F]] := by
  decide +kernel

end ContentChunks.Words
