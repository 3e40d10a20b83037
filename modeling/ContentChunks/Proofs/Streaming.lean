/-
Streams give the chunks that are made in memory. A stream goes back over each
span to hash it and then forward again to scan, block by block; as long as its
reader never fails, its items are the chunks of the asset, and nothing after
them (`drain_eq_ofAsset`). What carries the proof is what a stream has still to
give (`Stream.Due`): each item is the first of it, and leaves the rest due
(`due_next`). The reader's position is no part of it.
-/
import ContentChunks.Chunker.Stream
import ContentChunks.Proofs.Reading
import ContentChunks.Proofs.Tiling

namespace ContentChunks

namespace Stream

/-- The stream after so many items were asked for. -/
def after : Nat → Stream → Stream
  | 0, s => s
  | n + 1, s => after n s.next.2

/-- The answer to the request with the given number, counted from zero. -/
def item (s : Stream) (n : Nat) : Option (Except Error Chunk) := (s.after n).next.1

/-- The chunk of a span of the asset. -/
def chunkOf (s : Stream) (span : Span) : Chunk :=
  ⟨s.location, span.toRange, .of s.config.algorithm (s.reader.data.slice span.start.offset span.stop.offset)⟩

/-- The spans still to come of a text: those that are closed, and those that
the bytes not yet scanned and the end will close. -/
def ahead (s : Stream) : List Span :=
  s.closed ++ if s.finished then [] else
    (s.splitter.feedAll (s.reader.data.drop s.scanned)).1 ++
      (s.splitter.feedAll (s.reader.data.drop s.scanned)).2.finish.1

/-- Whether a stream is about the same asset, read and chunked in the same way. -/
def Like (s t : Stream) : Prop := s.reader.Like t.reader ∧ t.location = s.location ∧ t.config = s.config

theorem Like.refl (s : Stream) : s.Like s := ⟨.refl _, rfl, rfl⟩

theorem Like.chunkOf {s t : Stream} (h : s.Like t) : t.chunkOf = s.chunkOf := by
  funext span
  simp only [Stream.chunkOf, h.1.1, h.2.1, h.2.2]

theorem Like.trans {s t u : Stream} (h : s.Like t) (h' : t.Like u) : s.Like u :=
  ⟨h.1.trans h'.1, h'.2.1.trans h.2.1, h'.2.2.trans h.2.2⟩

/-- Whether spans lie inside the asset. -/
def Inside (s : Stream) (spans : List Span) : Prop :=
  ∀ x ∈ spans, x.start.offset ≤ x.stop.offset ∧ x.stop.offset ≤ s.reader.data.length

/-- What a stream whose reader never fails has still to give. -/
inductive Due : Stream → Kind → List Chunk → Prop
  /-- Of a text, the chunks of the spans ahead. -/
  | text {s : Stream} : s.reader.Steady → s.kind = some .text → s.scanned ≤ s.reader.data.length →
      s.Inside s.ahead → Due s .text (s.ahead.map s.chunkOf)
  /-- Before the kind is judged, the chunks that it calls for. -/
  | unjudged {s : Stream} : s.reader.Steady → s.kind = none → s.closed = [] → s.finished = false →
      s.splitter = .start → s.scanned = 0 →
      Due s (.of s.reader.data s.config.binarySample) (Chunk.ofAsset s.config s.location s.reader.data)
  /-- After the one chunk of a binary asset, nothing. -/
  | ended {s : Stream} : s.kind = some .binary → s.closed = [] → s.finished = true → Due s .binary []

/-! ## Steps -/

theorem give_reliable {s : Stream} (h : s.reader.Steady) {span : Span}
    (h1 : span.start.offset ≤ span.stop.offset) (h2 : span.stop.offset ≤ s.reader.data.length) (rest : List Span) :
    ∃ reader, s.give span rest = (some (.ok (s.chunkOf span)), { s with reader, closed := rest }) ∧
      s.reader.Like reader := by
  obtain ⟨reader, hs, like⟩ := Reader.signature_reliable s.reader h h1 h2 s.config.algorithm s.config.blockSize
  refine ⟨reader, ?_, like⟩
  unfold give
  rw [hs]
  rfl

/-- Scanning a block takes its bytes from those not yet scanned and adds what
they close to what is closed. -/
theorem ahead_scanned {s : Stream} (hc : s.closed = []) (hf : s.finished = false) {reader : Reader}
    (like : s.reader.Like reader) {x : Bytes} {closed : List Span} {splitter : Splitter}
    (feed : s.splitter.feedAll x = (closed, splitter))
    (split : s.reader.data.drop s.scanned = x ++ s.reader.data.drop (s.scanned + x.length)) :
    ({ s with reader, splitter, closed, scanned := s.scanned + x.length } : Stream).ahead = s.ahead := by
  unfold ahead
  simp only [hf, Bool.false_eq_true, ↓reduceIte, hc, List.nil_append]
  rw [split, Splitter.feedAll_append, feed, like.1]
  simp only [List.append_assoc]

/-- Scanning changes nothing of what is ahead, and stops at a span or at the end. -/
theorem scan_reliable {s : Stream} (h : s.reader.Steady) (hn : s.scanned ≤ s.reader.data.length)
    (hc : s.closed = []) (hf : s.finished = false) :
    ∃ s', s.scan = (.ok (), s') ∧ s'.ahead = s.ahead ∧ s.Like s' ∧ s'.kind = s.kind ∧
      s'.scanned ≤ s'.reader.data.length ∧ (s'.closed = [] → s'.finished = true) := by
  have block : ∀ n : Nat, 0 < max 1 n := fun n => Nat.lt_of_lt_of_le Nat.zero_lt_one (Nat.le_max_left ..)
  have within {s : Stream} {moved : Reader} (like : s.reader.Like moved) (pos : moved.position = s.scanned)
      (hn : s.scanned ≤ s.reader.data.length) : moved.position ≤ moved.data.length := by rw [like.1, pos]; exact hn
  fun_induction scan s with
  | case1 s fault reader hm =>
    obtain ⟨moved, hm', -⟩ := Reader.moveTo_reliable h hn
    simp [hm] at hm'
  | case2 s moved hm fault reader hr =>
    obtain ⟨like, pos⟩ := Reader.moved_reliable h hn hm
    obtain ⟨bytes, ⟨⟩, -⟩ := Reader.fill_reliable (like.steady h) (within like pos hn) (block _) hr
  | case3 s moved hm reader hr closed splitter hfin =>
    obtain ⟨like, pos⟩ := Reader.moved_reliable h hn hm
    obtain ⟨_, ⟨⟩, like', -, -, -, atEnd⟩ := Reader.fill_reliable (like.steady h) (within like pos hn) (block _) hr
    have nothing : s.reader.data.drop s.scanned = [] := by
      rw [← like.1, ← pos]
      exact atEnd rfl
    refine ⟨_, rfl, ?_, ⟨like.trans like', rfl, rfl⟩, rfl, (like.trans like').1 ▸ hn, fun _ => rfl⟩
    simp [ahead, hc, hf, nothing, hfin]
  | case4 s moved hm b bytes reader hr splitter hfeed s1 ih =>
    obtain ⟨like, pos⟩ := Reader.moved_reliable h hn hm
    obtain ⟨_, ⟨⟩, like', -, pos', split, -⟩ := Reader.fill_reliable (like.steady h) (within like pos hn) (block _) hr
    rw [pos', pos, like.1] at split
    have hn' : s1.scanned ≤ s1.reader.data.length := by
      obtain ⟨same, le⟩ := scanned_le hm hr
      rw [← same] at le
      exact le
    obtain ⟨s', hs, ha, hl, hk, hn', hend⟩ := ih ((like.trans like').steady h) hn' rfl hf
    have same : s.Like s1 := ⟨like.trans like', rfl, rfl⟩
    refine ⟨s', hs, ha.trans ?_, same.trans hl, hk, hn', hend⟩
    exact ahead_scanned (x := b :: bytes) hc hf (like.trans like') hfeed split
  | case5 s moved hm b bytes reader hr closed splitter hfeed s1 hne =>
    obtain ⟨like, pos⟩ := Reader.moved_reliable h hn hm
    obtain ⟨_, ⟨⟩, like', -, pos', split, -⟩ := Reader.fill_reliable (like.steady h) (within like pos hn) (block _) hr
    rw [pos', pos, like.1] at split
    have hn' : s1.scanned ≤ s1.reader.data.length := by
      obtain ⟨same, le⟩ := scanned_le hm hr
      rw [← same] at le
      exact le
    refine ⟨s1, rfl, ?_, ⟨like.trans like', rfl, rfl⟩, rfl, hn', fun h0 => absurd h0 hne⟩
    exact ahead_scanned (x := b :: bytes) hc hf (like.trans like') hfeed split

theorem judge_reliable {s : Stream} (h : s.reader.Steady) (hk : s.kind = none) :
    ∃ reader, s.judge = (.ok (.of s.reader.data s.config.binarySample),
        { s with reader, kind := some (.of s.reader.data s.config.binarySample) }) ∧
      s.reader.Like reader := by
  obtain ⟨moved, hm, like, pos⟩ := Reader.moveTo_reliable h (Nat.zero_le _)
  obtain ⟨reader, hr, like'⟩ := Reader.kindAhead_reliable
    (Nat.lt_of_lt_of_le Nat.zero_lt_one (Nat.le_max_left 1 s.config.blockSize)) s.config.binarySample moved
    (like.steady h) (pos ▸ Nat.zero_le _)
  rw [pos, like.1, List.drop_zero, ← Kind.of_eq_shownBy] at hr
  refine ⟨reader, ?_, like.trans like'⟩
  unfold judge
  simp only [hk, hm, Reader.kind, hr]

theorem whole_reliable {s : Stream} (h : s.reader.Steady) :
    ∃ reader, s.whole =
        (some (.ok ⟨s.location, .bytes 0 s.reader.data.length, .of s.config.algorithm s.reader.data⟩),
          { s with reader, finished := true }) ∧ s.reader.Like reader := by
  obtain ⟨moved, hm, like, -⟩ := Reader.moveTo_reliable h (Nat.le_refl _)
  obtain ⟨reader, hs, like'⟩ := Reader.signature_reliable moved (like.steady h) (Nat.zero_le moved.data.length)
    (Nat.le_refl _) s.config.algorithm s.config.blockSize
  rw [like.1, Bytes.slice_zero_length] at hs
  refine ⟨reader, ?_, like.trans like'⟩
  unfold whole Reader.moveToEnd
  simp only [hm, Except.map, hs]

/-! ## Items -/

theorem Due.text_of {s t : Stream} (h : s.reader.Steady) (like : s.Like t) (hk : t.kind = some .text)
    (hn : t.scanned ≤ t.reader.data.length) {spans : List Span} (ha : t.ahead = spans) (ins : s.Inside spans) :
    Due t .text (spans.map s.chunkOf) := by
  subst ha
  rw [← like.chunkOf]
  refine .text (like.1.steady h) hk hn fun x hx => ?_
  rw [like.1.1]
  exact ins x hx

/-- When a span is closed, by a stream that went on or not, the chunk of the first span ahead is given. -/
theorem give_first {s t : Stream} (h : s.reader.Steady) (ins : s.Inside s.ahead) (like : s.Like t)
    (hk : t.kind = some .text) (hn : t.scanned ≤ t.reader.data.length) (ha : t.ahead = s.ahead) {span : Span}
    {rest : List Span} (hc : t.closed = span :: rest) :
    ∃ s', t.give span rest = ((s.ahead.map s.chunkOf).head?.map .ok, s') ∧
      Due s' .text (s.ahead.map s.chunkOf).tail ∧ s'.kind = some .text := by
  have hd : s.ahead = span :: ({ t with closed := rest } : Stream).ahead := by
    rw [← ha]
    unfold ahead
    rw [hc]
    rfl
  have in1 := ins span (by simp [hd])
  rw [← like.1.1] at in1
  obtain ⟨reader, hg, like'⟩ := give_reliable (like.1.steady h) in1.1 in1.2 rest
  refine ⟨{ t with reader, closed := rest }, ?_, ?_, hk⟩
  · rw [hg, hd, like.chunkOf]
    rfl
  · rw [hd]
    have same : s.Like { t with reader, closed := rest } := ⟨like.1.trans like', like.2⟩
    refine Due.text_of h same hk (by rw [like'.1]; exact hn) ?_ fun x hx => ins x (hd ▸ List.mem_cons_of_mem span hx)
    unfold ahead
    rw [like'.1]

theorem next_text {s : Stream} (h : s.reader.Steady) (hk : s.kind = some .text)
    (hn : s.scanned ≤ s.reader.data.length) (ins : s.Inside s.ahead) :
    ∃ s', s.next = ((s.ahead.map s.chunkOf).head?.map .ok, s') ∧ Due s' .text (s.ahead.map s.chunkOf).tail ∧
      s'.kind = some .text := by
  unfold next
  split
  · rename_i span rest hc
    exact give_first h ins (.refl s) hk hn rfl hc
  · rename_i hc
    by_cases hf : s.finished = true
    · have nothing : s.ahead = [] := by simp [ahead, hc, hf]
      simp only [hf, ↓reduceIte, nothing]
      exact ⟨s, rfl, Due.text_of h (.refl s) hk hn nothing (by simp [Inside]), hk⟩
    · rw [Bool.not_eq_true] at hf
      have judged : s.judge = (.ok .text, s) := by simp [judge, hk]
      obtain ⟨t, hs, ha, like, hk', hn', hend⟩ := scan_reliable h hn hc hf
      simp only [hf, Bool.false_eq_true, ↓reduceIte, judged, hs]
      split
      · rename_i span rest hc'
        exact give_first h ins like (hk'.trans hk) hn' ha hc'
      · rename_i hc'
        have nothing : t.ahead = [] := by simp [ahead, hc', hend hc']
        rw [← ha, nothing]
        exact ⟨t, rfl, Due.text_of h like (hk'.trans hk) hn' nothing (by simp [Inside]), hk'.trans hk⟩

theorem inside_spans (s : Stream) : s.Inside (Splitter.spans s.reader.data) := by
  obtain ⟨tile, ins⟩ := Splitter.spans_tile s.reader.data
  exact fun x hx => ⟨Nat.le_of_lt (tile.start_lt_stop x hx), (ins x hx).2.1⟩

theorem next_binary {s t : Stream} (hc : s.closed = []) (hf : s.finished = false)
    (hj : s.judge = (.ok .binary, t)) : s.next = t.whole := by
  unfold next
  simp only [hc, hf, Bool.false_eq_true, ↓reduceIte, hj]

theorem next_judged {s t : Stream} (hc : s.closed = []) (hf : s.finished = false)
    (hj : s.judge = (.ok .text, t)) (hc' : t.closed = []) (hf' : t.finished = false) (hk : t.kind = some .text) :
    s.next = t.next := by
  have again : t.judge = (.ok .text, t) := by simp [judge, hk]
  unfold next
  simp only [hc, hf, Bool.false_eq_true, ↓reduceIte, hj, hc', hf', again]

/-- **Each item is the first of what is due**, and leaves the rest due; with
nothing due there is no item. After it the kind is known. -/
theorem due_next {s : Stream} {kind : Kind} {chunks : List Chunk} (h : Due s kind chunks) :
    ∃ s', s.next = (chunks.head?.map .ok, s') ∧ Due s' kind chunks.tail ∧ s'.kind = some kind := by
  cases h with
  | text h hk hn ins => exact next_text h hk hn ins
  | ended hk hc hf => exact ⟨s, by simp [next, hc, hf], .ended hk hc hf, hk⟩
  | unjudged h hk hc hf hs hn =>
    obtain ⟨reader, hj, like⟩ := judge_reliable h hk
    cases hkind : Kind.of s.reader.data s.config.binarySample with
    | binary =>
      rw [hkind] at hj
      obtain ⟨reader', hw, like'⟩ := whole_reliable
        (s := { s with reader, kind := some .binary }) (like.steady h)
      have one : Chunk.ofAsset s.config s.location s.reader.data =
          [⟨s.location, .bytes 0 s.reader.data.length, .of s.config.algorithm s.reader.data⟩] := by
        rw [Chunk.ofAsset, hkind]
      rw [one]
      refine ⟨{ s with reader := reader', kind := some .binary, finished := true }, ?_, .ended rfl hc rfl, rfl⟩
      rw [next_binary hc hf hj, hw, like.1]
      rfl
    | text =>
      rw [hkind] at hj
      let t : Stream := { s with reader, kind := some .text }
      have hd : t.ahead = Splitter.spans s.reader.data := by
        simp [t, ahead, hc, hf, hs, hn, like.1, Splitter.spans]
      have chunks : t.ahead.map t.chunkOf = Chunk.ofAsset s.config s.location s.reader.data := by
        rw [hd, Chunk.ofAsset, hkind]
        simp [t, chunkOf, like.1]
      rw [next_judged hc hf hj (t := t) hc hf rfl, ← chunks]
      refine next_text (like.steady h) rfl (by simp [t, hn]) ?_
      rw [hd]
      have := inside_spans t
      simpa [t, like.1] using this

theorem due_steady {r : Reader} (h : r.Steady) (location : Location) (config : ChunkConfig) (path : Option Path) :
    Due (.of r location config path) (.of r.data config.binarySample) (Chunk.ofAsset config location r.data) :=
  .unjudged h rfl rfl rfl rfl rfl

theorem due_of {r : Reader} (h : r.script.Reliable) (location : Location) (config : ChunkConfig)
    (path : Option Path) :
    Due (.of r location config path) (.of r.data config.binarySample) (Chunk.ofAsset config location r.data) :=
  due_steady (h.inside _) location config path

theorem due_after {s : Stream} {kind : Kind} {chunks : List Chunk} (h : Due s kind chunks) (n : Nat) :
    Due (s.after n) kind (chunks.drop n) := by
  induction n generalizing s chunks with
  | zero => exact h
  | succ n ih =>
    obtain ⟨s', hn, hd, -⟩ := due_next h
    have := ih hd
    rw [List.drop_tail] at this
    simpa [after, hn] using this

/-- What is due is what draining gives. -/
theorem drain_of_due {s : Stream} {kind : Kind} {chunks : List Chunk} (h : Due s kind chunks) :
    s.drain = chunks.map .ok := by
  induction chunks generalizing s with
  | nil =>
    obtain ⟨s', hn, -⟩ := due_next h
    unfold drain
    split
    · rfl
    · rename_i hn'
      simp [hn] at hn'
  | cons c rest ih =>
    obtain ⟨s', hn, hd, -⟩ := due_next h
    unfold drain
    split
    · rename_i hn'
      simp [hn] at hn'
    · rename_i item s'' hn'
      simp only [hn, List.head?_cons, Option.map_some, Prod.mk.injEq, Option.some.injEq] at hn'
      obtain ⟨rfl, rfl⟩ := hn'
      rw [ih hd]
      rfl

/-- **A stream gives the chunks that are made in memory.** Whatever the asset
and the configuration, and wherever a reader that never fails stands, however
short its reads and however often they are interrupted, draining the stream
ends with just the chunks of the asset; asked item by item it gives them in
order and nothing after the last; and from the first request on it knows the
asset's kind. -/
theorem drain_eq_ofAsset {r : Reader} (h : r.script.Reliable) (location : Location) (config : ChunkConfig)
    (path : Option Path) :
    (Stream.of r location config path).drain = (Chunk.ofAsset config location r.data).map .ok ∧
      (∀ n, (Stream.of r location config path).item n = (Chunk.ofAsset config location r.data)[n]?.map .ok) ∧
      ∀ n, ((Stream.of r location config path).after (n + 1)).kind = some (.of r.data config.binarySample) := by
  have due := due_of h location config path
  refine ⟨drain_of_due due, fun n => ?_, fun n => ?_⟩
  · obtain ⟨s', hn, -, -⟩ := due_next (due_after due n)
    rw [item, hn, List.head?_drop]
  · obtain ⟨s', hn, -, hk⟩ := due_next (due_after due n)
    have step : ∀ (m : Nat) (s : Stream), s.after (m + 1) = (s.after m).next.2 := by
      intro m
      induction m with
      | zero => exact fun _ => rfl
      | succ m ih => exact fun s => ih s.next.2
    rw [step, hn]
    exact hk

/-- The reader stands behind the end, gives one byte at a time and is interrupted twice before each. -/
theorem drain_eq_ofAsset_byte_by_byte :
    ((Script.plain.short 1).interrupted 2).Reliable ∧
      (Stream.of ((Reader.of (Bytes.ofText "a\r\n \r\nb") ((Script.plain.short 1).interrupted 2)).moveTo 9).2
        ⟨["x"]⟩ ⟨.sha256, 0, some 3⟩ none).drain =
        (Chunk.ofAsset ⟨.sha256, 0, some 3⟩ ⟨["x"]⟩ (Bytes.ofText "a\r\n \r\nb")).map .ok := by
  have reliable : ((Script.plain.short 1).interrupted 2).Reliable :=
    (Script.reliable_plain.short Nat.one_pos).interrupted 2
  refine ⟨reliable, ?_⟩
  generalize Bytes.ofText "a\r\n \r\nb" = data
  have drained := (drain_eq_ofAsset (r := ((Reader.of data ((Script.plain.short 1).interrupted 2)).moveTo 9).2)
    (by rw [Reader.script_moveTo]; exact reliable) ⟨["x"]⟩ ⟨.sha256, 0, some 3⟩ none).1
  rw [Reader.data_moveTo] at drained
  exact drained

end Stream

end ContentChunks
