/-
Chunking an asset that is read. A stream gives the chunks of a reader one
after the other: it judges the kind first, then scans block by block, and goes
back over each span that the scan closes to hash it. After a failure a stream
has ended. Main statement: each item brings the end nearer
(`remaining_lt_of_next`), so a stream can be drained.
-/
import ContentChunks.Chunker
import ContentChunks.Reader.Range

namespace ContentChunks

/-- The chunks of a reader on their way. -/
structure Stream where
  reader : Reader
  location : Location
  config : ChunkConfig
  /-- The path that failures of the reader are reported on, if it has one. -/
  path : Option Path
  /-- The kind of the asset, once it is known. -/
  kind : Option Kind
  splitter : Splitter
  /-- Spans that are closed and not yet given. -/
  closed : List Span
  /-- How many bytes are scanned. -/
  scanned : Nat
  /-- Whether nothing is left to scan. -/
  finished : Bool

namespace Stream

/-- The stream of a reader that nothing is read from yet. There is assumed to be room for a block
of the configuration's size. -/
def of (reader : Reader) (location : Location) (config : ChunkConfig) (path : Option Path) : Stream :=
  ⟨reader, location, config, path, none, .start, [], 0, false⟩

/-- Ends the stream with a failure. -/
def fail (s : Stream) (e : Error) : Option (Except Error Chunk) × Stream :=
  (some (.error (match s.path with | some path => e.on path | none => e)),
    { s with finished := true, closed := [] })

/-- The chunk of a span: the reader goes back over it. -/
def give (s : Stream) (span : Span) (rest : List Span) : Option (Except Error Chunk) × Stream :=
  match s.reader.signature (some span.start.offset) (some span.stop.offset) s.config.algorithm
      s.config.blockSize with
  | (.error e, reader) => { s with reader }.fail e
  | (.ok signature, reader) =>
    (some (.ok ⟨s.location, span.toRange, signature⟩), { s with reader, closed := rest })

/-- The kind of the asset; it is judged when it is first asked for. -/
def judge (s : Stream) : Except Error Kind × Stream :=
  match s.kind with
  | some kind => (.ok kind, s)
  | none =>
    match s.reader.moveTo 0 with
    | (.error fault, reader) => (.error (.io fault), { s with reader })
    | (.ok (), reader) =>
      match reader.kind s.config.blockSize s.config.binarySample with
      | (.error fault, reader) => (.error (.io fault), { s with reader })
      | (.ok kind, reader) => (.ok kind, { s with reader, kind := some kind })

/-- The one chunk of a binary asset. -/
def whole (s : Stream) : Option (Except Error Chunk) × Stream :=
  let s := { s with finished := true }
  match s.reader.moveToEnd with
  | (.error fault, reader) => { s with reader }.fail (.io fault)
  | (.ok stop, reader) =>
    match reader.signature (some 0) (some stop) s.config.algorithm s.config.blockSize with
    | (.error e, reader) => { s with reader }.fail e
    | (.ok signature, reader) =>
      (some (.ok ⟨s.location, .bytes 0 stop, signature⟩), { s with reader })

theorem scanned_le {r moved reader : Reader} {scanned wanted : Nat} {b : UInt8} {bytes : Bytes}
    (hm : r.moveTo scanned = (.ok (), moved)) (hf : moved.fill wanted = (.ok (b :: bytes), reader)) :
    reader.data = r.data ∧ scanned + (bytes.length + 1) ≤ r.data.length := by
  have e : moved.data = r.data := by
    have := Reader.data_moveTo r scanned
    rwa [hm] at this
  have p : moved.position = scanned := by
    have := Reader.position_moveTo (congrArg Prod.fst hm)
    rwa [hm] at this
  obtain ⟨h1, -, -, h4, -⟩ := Reader.fill_ok hf
  have := congrArg List.length h1
  simp [e, p] at this
  exact ⟨h4.trans e, by omega⟩

/-- Scans on from where the scan stands, block by block, until a span is closed
or the source ends. -/
def scan (s : Stream) : Except Error Unit × Stream :=
  match _hm : s.reader.moveTo s.scanned with
  | (.error fault, reader) => (.error (.io fault), { s with reader })
  | (.ok (), moved) =>
    match _hf : moved.fill (max 1 s.config.blockSize) with
    | (.error fault, reader) => (.error (.io fault), { s with reader })
    | (.ok [], reader) =>
      let (closed, splitter) := s.splitter.finish
      (.ok (), { s with reader, splitter, closed, finished := true })
    | (.ok (b :: bytes), reader) =>
      let (closed, splitter) := s.splitter.feedAll (b :: bytes)
      let s' := { s with reader, splitter, closed, scanned := s.scanned + (bytes.length + 1) }
      if closed = [] then scan s' else (.ok (), s')
termination_by s.reader.data.length - s.scanned
decreasing_by
  have := scanned_le _hm _hf
  simp only [this.1]
  omega

/-- The next chunk, or the failure that ends the stream; nothing at its end. -/
def next (s : Stream) : Option (Except Error Chunk) × Stream :=
  match s.closed with
  | span :: rest => s.give span rest
  | [] =>
    if s.finished then (none, s)
    else match s.judge with
      | (.error e, s) => s.fail e
      | (.ok .binary, s) => s.whole
      | (.ok .text, s) =>
        match s.scan with
        | (.error e, s) => s.fail e
        | (.ok (), s) =>
          match s.closed with
          | span :: rest => s.give span rest
          | [] => (none, s)

/-! ## Draining -/

/-- How many bytes there are still to scan, and one for noticing the end. -/
def unscanned (s : Stream) : Nat := if s.finished then 0 else s.reader.data.length - s.scanned + 1

/-- What is left of a stream: the scan counts before the spans that are closed. -/
def remaining (s : Stream) : Nat × Nat := (s.unscanned, s.closed.length)

theorem finished_fail {s s' : Stream} {e : Error} {item : Option (Except Error Chunk)}
    (h : s.fail e = (item, s')) : s'.unscanned = 0 ∧ s'.closed = [] := by
  simp only [fail, Prod.mk.injEq] at h
  obtain ⟨-, rfl⟩ := h
  simp [unscanned]

theorem unscanned_give {s s' : Stream} {span : Span} {rest : List Span}
    {item : Option (Except Error Chunk)} (h : s.give span rest = (item, s')) :
    s'.unscanned ≤ s.unscanned ∧ s'.closed.length ≤ rest.length := by
  unfold give at h
  split at h
  · have := finished_fail h
    simp [this]
  · rename_i hs
    have hd := Reader.data_signature s.reader (some span.start.offset) (some span.stop.offset)
      s.config.algorithm s.config.blockSize
    rw [hs] at hd
    simp only [Prod.mk.injEq] at h
    obtain ⟨-, rfl⟩ := h
    simp only at hd
    simp [unscanned, hd]

theorem unscanned_scan {s s' : Stream} (hf : s.finished = false) (h : s.scan = (.ok (), s')) :
    s'.unscanned < s.unscanned := by
  fun_induction scan s with
  | case1 => simp at h
  | case2 => simp at h
  | case3 =>
    simp only [Prod.mk.injEq] at h
    obtain ⟨-, rfl⟩ := h
    simp [unscanned, hf]
  | case4 s moved hm b bytes reader hr splitter _ s1 ih =>
    have hl := scanned_le hm hr
    refine Nat.lt_trans (ih hf h) ?_
    simp [unscanned, s1, hf, hl.1]
    omega
  | case5 s moved hm b bytes reader hr closed splitter _ s1 =>
    have hl := scanned_le hm hr
    simp only [Prod.mk.injEq] at h
    obtain ⟨-, rfl⟩ := h
    simp [unscanned, s1, hf, hl.1]
    omega

theorem judge_unchanged (s : Stream) :
    s.judge.2.finished = s.finished ∧ s.judge.2.closed = s.closed ∧ s.judge.2.scanned = s.scanned ∧
      s.judge.2.reader.data = s.reader.data := by
  unfold judge
  split
  · simp
  · have h1 := Reader.data_moveTo s.reader 0
    split
    · rename_i hm
      rw [hm] at h1
      simpa using h1
    · rename_i moved hm
      rw [hm] at h1
      have h2 := Reader.data_kind s.config.blockSize s.config.binarySample moved
      split <;> rename_i hk <;> rw [hk] at h2 <;> simpa using h2.trans h1

/-- Each item brings the end of a stream nearer. -/
theorem remaining_lt_of_next {s s' : Stream} {item : Except Error Chunk}
    (h : s.next = (some item, s')) : Prod.Lex (· < ·) (· < ·) s'.remaining s.remaining := by
  unfold next at h
  split at h
  · rename_i span rest hc
    have := unscanned_give h
    rw [Prod.lex_def]
    simp only [remaining, hc, List.length_cons]
    omega
  · rename_i hc
    split at h
    · simp at h
    · rename_i hf
      rw [Bool.not_eq_true] at hf
      obtain ⟨j1, j2, j3, j4⟩ := judge_unchanged s
      have hpos : 0 < s.unscanned := by simp [unscanned, hf]
      rw [Prod.lex_def]
      left
      simp only [remaining]
      split at h
      · rw [(finished_fail h).1]; exact hpos
      · rename_i s1 hj
        have : s'.unscanned = 0 := by
          unfold whole at h
          dsimp only at h
          split at h
          · exact (finished_fail h).1
          · split at h
            · exact (finished_fail h).1
            · simp only [Prod.mk.injEq] at h
              obtain ⟨-, rfl⟩ := h
              simp [unscanned]
        rw [this]; exact hpos
      · rename_i s1 hj
        rw [hj] at j1 j2 j3 j4
        have hu : s1.unscanned = s.unscanned := by
          simp only at j1 j3 j4
          simp [unscanned, j1, j3, j4]
        split at h
        · rw [(finished_fail h).1]; exact hpos
        · rename_i s2 hs
          have hlt := unscanned_scan (by simpa [hf] using j1) hs
          rw [hu] at hlt
          split at h
          · exact Nat.lt_of_le_of_lt (unscanned_give h).1 hlt
          · simp at h

/-- All the items that are left, in order. -/
def drain (s : Stream) : List (Except Error Chunk) :=
  match _h : s.next with
  | (none, _) => []
  | (some item, s') => item :: drain s'
termination_by s.remaining
decreasing_by exact remaining_lt_of_next _h

/-- All the chunks that are left, or the failure that ends the stream. -/
def toList (s : Stream) : Except Error (List Chunk) := s.drain.mapM id

end Stream

end ContentChunks
