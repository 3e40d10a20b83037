/-
Streams whose reader may fail. Until its first failure a reader does what it
would do if it never failed: its script, mended, answers alike up to there. So a
stream either ends with a failure or does what it would do with its reader
mended, and that gives the chunks that are made in memory.

Main statements:
- `Reader.kindAhead_mended`, `Reader.signature_mended`: what is read of a reader
  that may fail is what is read of the mended one, or a failure.
- `Stream.next_mended`: so is the next item of a stream.
- `Stream.chunks_until_failure`: the items are the first chunks of the asset, then
  nothing, if these are all, or one failure and then nothing.
-/
import ContentChunks.Proofs.Streaming

namespace ContentChunks

namespace Script

/-- The script without its failures: a read that would fail gives all it is
asked for, and no move is refused. -/
def mended (s : Script) : Script :=
  { s with
    reply := fun read position wanted =>
      match s.reply read position wanted with
      | .upTo count => .upTo count
      | .fail _ => .upTo wanted
    refusal := fun _ _ => none }

theorem Honest.mended {s : Script} (h : s.Honest) : s.mended.Reliable where
  reply read position wanted := by
    unfold Script.mended
    cases replied : s.reply read position wanted with
    | upTo count =>
      refine ⟨count, by simp [replied], fun hw => Nat.pos_of_ne_zero ?_⟩
      rintro rfl
      exact h read position wanted hw replied
    | fail fault => exact ⟨wanted, by simp [replied], id⟩
  refusal _ _ := rfl

end Script

namespace Reader

/-- The reader as if it never failed. -/
def mended (r : Reader) : Reader := { r with script := r.script.mended }

/-- What was done, as if the reader never failed; `y` is what is done with the mended
reader where `x` is what is done. -/
def Mends {ε α : Type} (x y : Except ε α × Reader) : Prop := (∃ e, x.1 = .error e) ∨ y = (x.1, x.2.mended)

variable {r r' : Reader}

theorem answer_mended (r : Reader) (wanted : Nat) : Mends (r.answer wanted) (r.mended.answer wanted) := by
  unfold answer Mends
  dsimp only
  cases replied : r.script.reply r.reads r.position wanted with
  | fail fault => exact .inl ⟨fault, rfl⟩
  | upTo count =>
    have same : r.mended.script.reply r.mended.reads r.mended.position wanted = .upTo count := by
      simp [mended, Script.mended, replied]
    rw [same]
    exact .inr rfl

theorem fill_mended (r : Reader) (wanted : Nat) : Mends (r.fill wanted) (r.mended.fill wanted) := by
  rw [fill_eq_answer, fill_eq_answer]
  exact answer_mended r wanted

theorem moveTo_mended (r : Reader) (target : Nat) : Mends (r.moveTo target) (r.mended.moveTo target) := by
  unfold moveTo Mends
  dsimp only
  cases refused : r.script.refusal r.moves target with
  | some fault => exact .inl ⟨fault, rfl⟩
  | none => exact .inr rfl

theorem Mends.ok {ε α : Type} {x y : Except ε α × Reader} (h : Mends x y) {a : α} (done : x = (.ok a, r')) :
    y = (.ok a, r'.mended) := by
  subst done
  obtain ⟨e, ⟨⟩⟩ | same := h
  exact same

theorem foldBlocks_mended {σ : Type} (f : σ → Bytes → σ) (block : Nat) (left : Option Nat) (acc : σ) (r : Reader) :
    Mends (r.foldBlocks f block left acc) (r.mended.foldBlocks f block left acc) := by
  fun_induction foldBlocks f block left acc r with
  | case1 acc r => exact .inr (foldBlocks_zero f block acc r.mended)
  | case2 left acc r hl fault r' hf => exact .inl ⟨fault, rfl⟩
  | case3 left acc r hl r' hf =>
    have filled : r.mended.fill (wanted block left) = _ := (fill_mended r _).ok hf
    rw [foldBlocks_eq f block left acc r.mended, if_neg hl, filled]
    exact .inr rfl
  | case4 left acc r hl b bytes r' hf ih =>
    have filled : r.mended.fill (wanted block left) = _ := (fill_mended r _).ok hf
    rw [foldBlocks_eq f block left acc r.mended, if_neg hl, filled]
    exact ih

theorem kindAhead_mended (block : Nat) (left : Option Nat) (r : Reader) :
    Mends (r.kindAhead block left) (r.mended.kindAhead block left) := by
  fun_induction kindAhead block left r with
  | case1 r => exact .inr (kindAhead_zero block r.mended)
  | case2 left r hl fault r' hf => exact .inl ⟨fault, rfl⟩
  | case3 left r hl r' hf =>
    have filled : r.mended.fill (wanted block left) = _ := (fill_mended r _).ok hf
    rw [kindAhead_eq block left r.mended, if_neg hl, filled]
    exact .inr rfl
  | case4 left r hl b bytes r' hf hk =>
    have filled : r.mended.fill (wanted block left) = _ := (fill_mended r _).ok hf
    rw [kindAhead_eq block left r.mended, if_neg hl, filled]
    exact .inr (if_pos hk)
  | case5 left r hl b bytes r' hf hk ih =>
    have filled : r.mended.fill (wanted block left) = _ := (fill_mended r _).ok hf
    rw [kindAhead_eq block left r.mended, if_neg hl, filled]
    dsimp only
    rw [if_neg hk]
    exact ih

/-- **The signature of a range** is had as with the mended reader, if it is had. -/
theorem signature_mended (r : Reader) (start stop : Option Nat) (algorithm : Algorithm) (blockSize : Nat) :
    Mends (r.signature start stop algorithm blockSize) (r.mended.signature start stop algorithm blockSize) := by
  unfold signature
  dsimp only
  by_cases reversed : (stop.any fun last => decide (last < start.getD 0)) = true
  · simp only [reversed, if_true]
    exact .inr rfl
  simp only [reversed, Bool.false_eq_true, if_false]
  cases moved : r.moveTo (start.getD 0) with
  | mk result r₁ =>
    cases result with
    | error fault => exact .inl ⟨_, rfl⟩
    | ok =>
      rw [(moveTo_mended r _).ok moved]
      dsimp only
      generalize folded : r₁.foldBlocks _ (max 1 blockSize) (stop.map (· - start.getD 0)) _ = outcome
      cases outcome with
      | mk result r₂ =>
        cases result with
        | error fault => exact .inl ⟨_, rfl⟩
        | ok fed =>
          rw [(foldBlocks_mended _ _ _ _ r₁).ok folded]
          right
          cases stop with
          | none => rfl
          | some last =>
            dsimp only
            split <;> rfl

end Reader

namespace Stream

/-- The stream as if its reader never failed. -/
def mended (s : Stream) : Stream := { s with reader := s.reader.mended }

/-- Whether nothing is left to scan or to give. -/
def Ended (s : Stream) : Prop := s.finished = true ∧ s.closed = []

/-- What was done to a stream: a failure, or what is done if its reader never fails. -/
def Mends {ε α : Type} (x y : Except ε α × Stream) : Prop := (∃ e, x.1 = .error e) ∨ y = (x.1, x.2.mended)

/-- What was asked of a stream: a failure that ended it, or what is had if its reader never fails. -/
def Gives (x y : Option (Except Error Chunk) × Stream) : Prop :=
  (∃ e, x.1 = some (.error e) ∧ x.2.Ended) ∨ y = (x.1, x.2.mended)

variable {s t : Stream}

theorem Mends.ok {ε α : Type} {x y : Except ε α × Stream} (h : Mends x y) {a : α} (done : x = (.ok a, t)) :
    y = (.ok a, t.mended) := by
  subst done
  obtain ⟨e, ⟨⟩⟩ | same := h
  exact same

theorem gives_fail (s : Stream) (e : Error) (y : Option (Except Error Chunk) × Stream) : Gives (s.fail e) y :=
  .inl ⟨_, rfl, rfl, rfl⟩

theorem give_mended (s : Stream) (span : Span) (rest : List Span) :
    Gives (s.give span rest) (s.mended.give span rest) := by
  unfold give
  cases signed : s.reader.signature (some span.start.offset) (some span.stop.offset) s.config.algorithm
      s.config.blockSize with
  | mk result reader =>
    cases result with
    | error e => exact gives_fail _ e _
    | ok signature =>
      have same : s.mended.reader.signature (some span.start.offset) (some span.stop.offset)
          s.mended.config.algorithm s.mended.config.blockSize = (.ok signature, reader.mended) :=
        (Reader.signature_mended s.reader _ _ _ _).ok signed
      rw [same]
      exact .inr rfl

theorem judge_mended (s : Stream) : Mends s.judge s.mended.judge := by
  unfold judge
  have sameKind : s.mended.kind = s.kind := rfl
  rw [sameKind]
  cases s.kind with
  | some kind => exact .inr rfl
  | none =>
    dsimp only
    cases moved : s.reader.moveTo 0 with
    | mk result r₁ =>
      cases result with
      | error fault => exact .inl ⟨_, rfl⟩
      | ok =>
        have movedMended : s.mended.reader.moveTo 0 = (.ok (), r₁.mended) :=
          (Reader.moveTo_mended s.reader 0).ok moved
        rw [movedMended]
        dsimp only
        cases judged : r₁.kind s.config.blockSize s.config.binarySample with
        | mk result r₂ =>
          cases result with
          | error fault => exact .inl ⟨_, rfl⟩
          | ok kind =>
            have same : r₁.mended.kind s.mended.config.blockSize s.mended.config.binarySample =
                (.ok kind, r₂.mended) := (Reader.kindAhead_mended _ _ r₁).ok judged
            rw [same]
            exact .inr rfl

theorem whole_mended (s : Stream) : Gives s.whole s.mended.whole := by
  unfold whole Reader.moveToEnd
  dsimp only
  cases moved : s.reader.moveTo s.reader.data.length with
  | mk result r₁ =>
    cases result with
    | error fault => exact gives_fail _ _ _
    | ok =>
      have movedMended : s.mended.reader.moveTo s.mended.reader.data.length = (.ok (), r₁.mended) :=
        (Reader.moveTo_mended s.reader _).ok moved
      rw [movedMended]
      dsimp only [Except.map]
      cases signed : r₁.signature (some 0) (some s.reader.data.length) s.config.algorithm s.config.blockSize with
      | mk result r₂ =>
        cases result with
        | error e => exact gives_fail _ e _
        | ok signature =>
          have same : r₁.mended.signature (some 0) (some s.mended.reader.data.length) s.mended.config.algorithm
              s.mended.config.blockSize = (.ok signature, r₂.mended) :=
            (Reader.signature_mended r₁ _ _ _ _).ok signed
          rw [same]
          exact .inr rfl

theorem scan_end {moved reader : Reader} (hm : s.reader.moveTo s.scanned = (.ok (), moved))
    (hf : moved.fill (max 1 s.config.blockSize) = (.ok [], reader)) :
    s.scan = (.ok (), { s with
      reader, splitter := s.splitter.finish.2, closed := s.splitter.finish.1, finished := true }) := by
  unfold scan
  split
  · simp_all
  · split <;> simp_all

theorem scan_block {moved reader : Reader} {b : UInt8} {bytes : Bytes} {closed : List Span} {splitter : Splitter}
    (hm : s.reader.moveTo s.scanned = (.ok (), moved))
    (hf : moved.fill (max 1 s.config.blockSize) = (.ok (b :: bytes), reader))
    (hs : s.splitter.feedAll (b :: bytes) = (closed, splitter)) :
    s.scan = if closed = [] then
        scan { s with reader, splitter, closed := [], scanned := s.scanned + (bytes.length + 1) }
      else (.ok (), { s with reader, splitter, closed, scanned := s.scanned + (bytes.length + 1) }) := by
  conv => lhs; unfold scan
  split
  · simp_all
  · split
    · simp_all
    · simp_all
    · rename_i moved' hm' b' bytes' reader' hf'
      obtain rfl : moved = moved' := by simpa [hm] using hm'
      obtain ⟨⟨rfl, rfl⟩, rfl⟩ : (b = b' ∧ bytes = bytes') ∧ reader = reader' := by simpa [hf] using hf'
      simp only [hs]
      by_cases nothing : closed = []
      · subst nothing
        rfl
      · rw [if_neg nothing, if_neg nothing]

theorem scan_mended (s : Stream) : Mends s.scan s.mended.scan := by
  have moves {s : Stream} {moved : Reader} (hm : s.reader.moveTo s.scanned = (.ok (), moved)) :
      s.mended.reader.moveTo s.mended.scanned = (.ok (), moved.mended) := (Reader.moveTo_mended s.reader _).ok hm
  have fills {moved reader : Reader} {wanted : Nat} {bytes : Bytes}
      (hf : moved.fill wanted = (.ok bytes, reader)) : moved.mended.fill wanted = (.ok bytes, reader.mended) :=
    (Reader.fill_mended moved _).ok hf
  fun_induction scan s with
  | case1 s fault reader hm => exact .inl ⟨_, rfl⟩
  | case2 s moved hm fault reader hf => exact .inl ⟨_, rfl⟩
  | case3 s moved hm reader hf closed splitter hfin =>
    right
    rw [scan_end (moves hm) (fills hf)]
    simp only [mended, hfin]
  | case4 s moved hm b bytes reader hf splitter hfeed s1 ih =>
    rw [scan_block (moves hm) (fills hf) hfeed, if_pos rfl]
    exact ih
  | case5 s moved hm b bytes reader hf closed splitter hfeed s1 hne =>
    right
    rw [scan_block (moves hm) (fills hf) hfeed, if_neg hne]
    rfl

theorem finished_of_scan (done : s.scan = (.ok (), t)) (nothing : t.closed = []) : t.finished = true := by
  fun_induction scan s with
  | case1 | case2 => cases done
  | case3 =>
    cases done
    rfl
  | case4 s moved hm b bytes reader hf splitter hfeed s1 ih => exact ih done
  | case5 s moved hm b bytes reader hf closed splitter hfeed s1 hne =>
    rw [← (Prod.mk.inj done).2] at nothing
    exact absurd nothing hne

/-! ## Items -/

/-- **The next item** is a failure, which ends the stream, or what it is if the
reader never fails. -/
theorem next_mended (s : Stream) : Gives s.next s.mended.next := by
  unfold next
  have sameClosed : s.mended.closed = s.closed := rfl
  have sameFinished : s.mended.finished = s.finished := rfl
  rw [sameClosed, sameFinished]
  cases s.closed with
  | cons span rest => exact give_mended s span rest
  | nil =>
    dsimp only
    by_cases hf : s.finished = true
    · rw [if_pos hf, if_pos hf]
      exact .inr rfl
    rw [if_neg hf, if_neg hf]
    cases judged : s.judge with
    | mk result t =>
      cases result with
      | error e => exact gives_fail t e _
      | ok kind =>
        rw [(judge_mended s).ok judged]
        cases kind with
        | binary => exact whole_mended t
        | text =>
          dsimp only
          cases scanned : t.scan with
          | mk result u =>
            cases result with
            | error e => exact gives_fail u e _
            | ok =>
              rw [(scan_mended t).ok scanned]
              have sameClosed : u.mended.closed = u.closed := rfl
              dsimp only
              rw [sameClosed]
              cases u.closed with
              | cons span rest => exact give_mended u span rest
              | nil => exact .inr rfl

theorem give_ne_none (s t : Stream) (span : Span) (rest : List Span) : s.give span rest ≠ (none, t) := by
  unfold give
  split <;> simp [fail]

theorem whole_ne_none (s t : Stream) : s.whole ≠ (none, t) := by
  unfold whole
  dsimp only
  split
  · simp [fail]
  · split <;> simp [fail]

theorem ended_of_next (nothing : s.next = (none, t)) : t.Ended := by
  unfold next at nothing
  split at nothing
  · exact absurd nothing (give_ne_none _ _ _ _)
  · rename_i noneClosed
    split at nothing
    · rename_i hf
      cases nothing
      exact ⟨hf, noneClosed⟩
    · split at nothing
      · simp [fail] at nothing
      · exact absurd nothing (whole_ne_none _ _)
      · split at nothing
        · simp [fail] at nothing
        · rename_i scanned
          split at nothing
          · exact absurd nothing (give_ne_none _ _ _ _)
          · rename_i closed
            cases nothing
            exact ⟨finished_of_scan scanned closed, closed⟩

theorem Ended.next (h : s.Ended) : s.next = (none, s) := by
  simp [Stream.next, h.1, h.2]

theorem Ended.item (h : s.Ended) (n : Nat) : s.item n = none := by
  have stays : s.after n = s := by
    induction n with
    | zero => rfl
    | succ n ih => rw [after, h.next, ih]
  rw [Stream.item, stays, h.next]

/-- What comes before a place and from it on: the first `count` items are the
first chunks; then there are none, if those were all, or there is one failure. -/
structure EndsAt (s : Stream) (chunks : List Chunk) (count : Nat) : Prop where
  within : count ≤ chunks.length
  given : ∀ n < count, s.item n = chunks[n]?.map .ok
  ending : count = chunks.length ∧ (∀ n, count ≤ n → s.item n = none) ∨
    (∃ e, s.item count = some (.error e)) ∧ ∀ n, count < n → s.item n = none

theorem item_zero (s : Stream) : s.item 0 = s.next.1 := rfl

theorem item_succ (s : Stream) (n : Nat) : s.item (n + 1) = s.next.2.item n := rfl

theorem EndsAt.cons {c : Chunk} {chunks : List Chunk} {count : Nat} (first : s.next.1 = some (.ok c))
    (h : s.next.2.EndsAt chunks count) : s.EndsAt (c :: chunks) (count + 1) := by
  refine ⟨Nat.succ_le_succ h.within, fun n low => ?_, ?_⟩
  · cases n with
    | zero => exact first
    | succ n => exact h.given n (Nat.lt_of_succ_lt_succ low)
  · obtain ⟨whole, nothing⟩ | ⟨failed, nothing⟩ := h.ending
    · refine .inl ⟨congrArg (· + 1) whole, fun n high => ?_⟩
      obtain ⟨n, rfl⟩ := Nat.exists_eq_add_of_le' (Nat.lt_of_lt_of_le (Nat.succ_pos _) high)
      exact nothing n (Nat.le_of_succ_le_succ high)
    · refine .inr ⟨failed, fun n high => ?_⟩
      obtain ⟨n, rfl⟩ := Nat.exists_eq_add_of_le' (Nat.lt_of_le_of_lt (Nat.zero_le _) high)
      exact nothing n (Nat.lt_of_succ_lt_succ high)

theorem endsAt_of_failure {e : Error} (failed : s.next.1 = some (.error e)) (ended : s.next.2.Ended)
    (chunks : List Chunk) : s.EndsAt chunks 0 := by
  refine ⟨Nat.zero_le _, by simp, .inr ⟨⟨e, failed⟩, fun n high => ?_⟩⟩
  obtain ⟨n, rfl⟩ := Nat.exists_eq_add_of_le' high
  exact ended.item n

theorem endsAt_of_none (nothing : s.next.1 = none) : s.EndsAt [] 0 := by
  have ended := ended_of_next (Prod.ext nothing rfl)
  refine ⟨Nat.le_refl _, by simp, .inl ⟨rfl, fun n _ => ?_⟩⟩
  cases n with
  | zero => exact nothing
  | succ n => exact ended.item n

/-- What a stream would give if its reader never failed, it gives up to a failure. -/
theorem endsAt_of_mended {chunks : List Chunk} (due : ∀ n, s.mended.item n = chunks[n]?.map .ok) :
    ∃ count, s.EndsAt chunks count := by
  induction chunks generalizing s with
  | nil =>
    obtain ⟨e, failed, ended⟩ | same := next_mended s
    · exact ⟨0, endsAt_of_failure failed ended _⟩
    · have first := due 0
      rw [item_zero, same] at first
      exact ⟨0, endsAt_of_none first⟩
  | cons c chunks ih =>
    obtain ⟨e, failed, ended⟩ | same := next_mended s
    · exact ⟨0, endsAt_of_failure failed ended _⟩
    · have first := due 0
      rw [item_zero, same] at first
      obtain ⟨count, ends⟩ := ih (s := s.next.2) fun n => by
        have later := due (n + 1)
        rwa [item_succ, same] at later
      exact ⟨count + 1, ends.cons first⟩

/-- **No wrong chunk is given before a failure, and nothing after it.** Whatever
the asset and the configuration, and wherever a reader stands that may give less
than it is asked for, be interrupted and fail at any read or move, the items of a
stream are the first chunks of the asset in order; after them there is either
nothing more, and then they were all the chunks, or one failure and then nothing. -/
theorem chunks_until_failure {r : Reader} (h : r.script.Honest) (location : Location) (config : ChunkConfig)
    (path : Option Path) :
    ∃ count, (Stream.of r location config path).EndsAt (Chunk.ofAsset config location r.data) count := by
  refine endsAt_of_mended fun n => ?_
  obtain ⟨t, next, -⟩ := due_next (due_after (due_of (r := r.mended) h.mended location config path) n)
  rw [List.head?_drop] at next
  exact congrArg Prod.fst next

/-- The device is gone from offset 8 on: what lies before it is given, with the blank run that ends there. -/
theorem chunks_until_failure_device_gone :
    let script := (Script.plain.failingFrom 8 (.other "device gone")).interrupted 2
    let data := Bytes.ofText "aaaa\n\nbbbb\n\ncccc"
    let s := Stream.of (Reader.of data script) ⟨["x"]⟩ ⟨.sha256, 4, some 4⟩ none
    script.Honest ∧ (∃ count, s.EndsAt (Chunk.ofAsset ⟨.sha256, 4, some 4⟩ ⟨["x"]⟩ data) count) ∧
      s.item 2 = some (.error (.io (.other "device gone"))) := by
  intro script data s
  have honest : script.Honest := Script.honest_plain.failingFrom 8 (.other "device gone")
  exact ⟨honest, chunks_until_failure (r := Reader.of data script) honest _ _ _, by decide +kernel⟩

end Stream

end ContentChunks
