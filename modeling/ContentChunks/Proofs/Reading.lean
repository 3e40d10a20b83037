/-
Readers that do not fail, or not before an offset. Reads may be short and
interrupted as often as they like; as long as each gives some bytes where there are
any, what is read in blocks is what stands in the source: a fold over the blocks is
a fold over pieces of it (`foldBlocks_gives`), the kind is that of the bytes ahead
(`kindAhead_gives`), and the signature of a range is that of its bytes
(`signature_reliable`). What is left of the script does not matter, and neither does
what is read from the offset on, as long as it is not needed (`Reader.Within`).
-/
import ContentChunks.Reader.Range

namespace ContentChunks

/-- Whether a reader never fails: each read gives some bytes where some are
wanted, and no move is refused. -/
structure Script.Reliable (s : Script) : Prop where
  reply : ∀ read position wanted, ∃ count,
    s.reply read position wanted = .upTo count ∧ (0 < wanted → 0 < count)
  refusal : ∀ move target, s.refusal move target = none

/-- Whether a reader never fails inside a source of so many bytes. -/
structure Script.ReliableIn (s : Script) (length : Nat) : Prop where
  reply : ∀ read position wanted, position ≤ length → ∃ count,
    s.reply read position wanted = .upTo count ∧ (0 < wanted → 0 < count)
  refusal : ∀ move target, target ≤ length → s.refusal move target = none

/-- Whether the reads before an offset give some bytes where some are wanted. -/
def Script.GivesBefore (s : Script) (offset : Nat) : Prop :=
  ∀ read position wanted, position < offset → ∃ count,
    s.reply read position wanted = .upTo count ∧ (0 < wanted → 0 < count)

/-- Whether the reads from an offset on fail, and those before it give some bytes, none of them
from there on. -/
structure Script.FailsFrom (s : Script) (offset : Nat) (fault : Fault) : Prop where
  before : ∀ read position wanted, position < offset → ∃ count,
    s.reply read position wanted = .upTo count ∧ (0 < wanted → 0 < count) ∧ count ≤ offset - position
  beyond : ∀ read position wanted, offset ≤ position → s.reply read position wanted = .fail fault

/-- Whether a source seems to end only where it does: a read that does not fail
gives some bytes where some are wanted. -/
def Script.Honest (s : Script) : Prop := ∀ read position wanted, 0 < wanted → s.reply read position wanted ≠ .upTo 0

namespace Script

theorem FailsFrom.givesBefore {s : Script} {offset : Nat} {fault : Fault} (h : s.FailsFrom offset fault) :
    s.GivesBefore offset := by
  intro read position wanted before
  obtain ⟨count, replied, pos, -⟩ := h.before read position wanted before
  exact ⟨count, replied, pos⟩

theorem Reliable.failingFrom {s : Script} (h : s.Reliable) (offset : Nat) (fault : Fault) :
    (s.failingFrom offset fault).FailsFrom offset fault where
  before read position wanted before := by
    obtain ⟨count, replied, pos⟩ := h.reply read position wanted
    refine ⟨min (offset - position) count, ?_, fun filled => Nat.lt_min.2 ⟨by omega, pos filled⟩, Nat.min_le_left ..⟩
    simp only [Script.failingFrom, Nat.not_le.2 before, ↓reduceIte, replied]
  beyond read position wanted beyond := if_pos beyond

theorem ReliableIn.givesBefore {s : Script} {length : Nat} (h : s.ReliableIn length) : s.GivesBefore (length + 1) :=
  fun read position wanted before => h.reply read position wanted (Nat.le_of_lt_succ before)

theorem Reliable.givesBefore {s : Script} (h : s.Reliable) (offset : Nat) : s.GivesBefore offset :=
  fun read position wanted _ => h.reply read position wanted

theorem Reliable.inside {s : Script} (h : s.Reliable) (length : Nat) : s.ReliableIn length where
  reply read position wanted _ := h.reply read position wanted
  refusal move target _ := h.refusal move target

theorem reliable_plain : plain.Reliable where
  reply _ _ wanted := ⟨wanted, rfl, id⟩
  refusal _ _ := rfl

theorem Reliable.short {s : Script} (h : s.Reliable) {most : Nat} (hm : 0 < most) : (s.short most).Reliable where
  reply read position wanted := by
    obtain ⟨count, hc, pos⟩ := h.reply read position wanted
    refine ⟨min most count, ?_, fun hw => Nat.lt_min.2 ⟨hm, pos hw⟩⟩
    simp [Script.short, hc]
  refusal := h.refusal

theorem Reliable.interrupted {s : Script} (h : s.Reliable) (times : Nat) : (s.interrupted times).Reliable where
  reply := h.reply
  refusal := h.refusal

theorem Reliable.honest {s : Script} (h : s.Reliable) : s.Honest := by
  intro read position wanted hw same
  obtain ⟨count, replied, pos⟩ := h.reply read position wanted
  obtain rfl := Reply.upTo.inj (same.symm.trans replied)
  exact Nat.lt_irrefl 0 (pos hw)

theorem FailsFrom.honest {s : Script} {offset : Nat} {fault : Fault} (h : s.FailsFrom offset fault) : s.Honest := by
  intro read position wanted hw same
  rcases Nat.lt_or_ge position offset with before | beyond
  · obtain ⟨count, replied, pos, -⟩ := h.before read position wanted before
    obtain rfl := Reply.upTo.inj (same.symm.trans replied)
    exact Nat.lt_irrefl 0 (pos hw)
  · cases same.symm.trans (h.beyond read position wanted beyond)

theorem honest_plain : plain.Honest := reliable_plain.honest

/-- Reads that stop before an offset, and fail from there on, still give some bytes. -/
theorem Honest.failingFrom {s : Script} (h : s.Honest) (offset : Nat) (fault : Fault) :
    (s.failingFrom offset fault).Honest := by
  intro read position wanted hw same
  simp only [Script.failingFrom] at same
  split at same
  · cases same
  · split at same
    · rename_i count replied
      have := Reply.upTo.inj same
      exact h read position wanted hw (by rw [replied, show count = 0 by omega])
    · cases same

end Script

/-- The first bytes, as many as the limit says, or all. -/
def Bytes.upTo (limit : Option Nat) (data : Bytes) : Bytes :=
  match limit with
  | none => data
  | some n => data.take n

theorem Bytes.upTo_nil (limit : Option Nat) : upTo limit [] = [] := by
  cases limit <;> simp [upTo]

theorem Bytes.upTo_append {limit : Option Nat} {x : Bytes} (h : ∀ n, limit = some n → x.length ≤ n)
    (y : Bytes) : upTo limit (x ++ y) = x ++ upTo (limit.map (· - x.length)) y := by
  cases limit with
  | none => rfl
  | some n =>
    rw [upTo, List.take_append, List.take_of_length_le (h n rfl)]
    rfl

/-- The bytes of a range of a source; a source that ends inside the range is refused. -/
def Bytes.range? (data : Bytes) (start : Nat) : Option Nat → Except Error Bytes
  | none => .ok (data.drop start)
  | some stop =>
    if (data.slice start stop).length < stop - start then
      .error (.truncated start stop (data.slice start stop).length)
    else .ok (data.slice start stop)

theorem Bytes.range?_of_lt {data : Bytes} {start stop : Nat} (short : (data.slice start stop).length < stop - start) :
    data.range? start (some stop) = .error (.truncated start stop (data.slice start stop).length) := if_pos short

theorem Bytes.range?_of_not_lt {data : Bytes} {start stop : Nat}
    (whole : ¬(data.slice start stop).length < stop - start) :
    data.range? start (some stop) = .ok (data.slice start stop) := if_neg whole

/-- A range is refused only if it ends after the source and is not empty. -/
theorem Bytes.range?_some (data : Bytes) (start stop : Nat) : data.range? start (some stop) =
    if stop ≤ data.length ∨ stop ≤ start then .ok (data.slice start stop)
    else .error (.truncated start stop (data.length - start)) := by
  have length : (data.slice start stop).length = min (stop - start) (data.length - start) := by
    rw [slice, List.length_take, List.length_drop]
  by_cases fits : stop ≤ data.length ∨ stop ≤ start
  · rw [if_pos fits, range?_of_not_lt (by omega)]
  · rw [if_neg fits, range?_of_lt (by omega), length, Nat.min_eq_right (by omega)]

theorem Kind.of_eq_shownBy (data : Bytes) (sample : Option Nat) :
    Kind.of data sample = shownBy (data.upTo sample) := by
  cases sample <;> rfl

namespace Reader

/-- Whether a reader reads the same source in the same way, be it at another position. -/
def Like (r r' : Reader) : Prop := r'.data = r.data ∧ r'.script = r.script

theorem Like.refl (r : Reader) : r.Like r := ⟨rfl, rfl⟩

theorem Like.trans {r s t : Reader} (h : r.Like s) (h' : s.Like t) : r.Like t :=
  ⟨h'.1.trans h.1, h'.2.trans h.2⟩

/-- Whether a reader never fails inside its source. -/
def Steady (r : Reader) : Prop := r.script.ReliableIn r.data.length

theorem Like.steady {r s : Reader} (h : r.Like s) (hr : r.Steady) : s.Steady := by
  rw [Steady, h.1, h.2]
  exact hr

theorem fill_split {r r' : Reader} {wanted : Nat} {bytes : Bytes} (hf : r.fill wanted = (.ok bytes, r')) :
    r.Like r' ∧ bytes.length ≤ wanted ∧ r'.position = r.position + bytes.length ∧
      r.data.drop r.position = bytes ++ r.data.drop r'.position := by
  obtain ⟨taken, le, moved, data, -⟩ := fill_ok hf
  have script := script_fill r wanted
  rw [hf] at script
  refine ⟨⟨data, script⟩, le, moved, ?_⟩
  rw [moved, ← List.drop_drop]
  conv => rhs; lhs; rw [taken]
  exact (List.take_append_drop _ _).symm

/-- What a reader answers before an offset up to which it gives bytes, when some are
wanted: the next ones, of which there are none only at the end. -/
theorem fill_gives {r r' : Reader} {offset : Nat} (h : r.script.GivesBefore offset) (hp : r.position < offset)
    {wanted : Nat} (hw : 0 < wanted) {result : Except Fault Bytes} (hf : r.fill wanted = (result, r')) :
    ∃ bytes, result = .ok bytes ∧ r.Like r' ∧ bytes.length ≤ wanted ∧
      r'.position = r.position + bytes.length ∧
      r.data.drop r.position = bytes ++ r.data.drop r'.position ∧
      (bytes = [] → r.data.drop r.position = []) := by
  obtain ⟨count, hc, pos⟩ := h r.reads r.position wanted hp
  have ok : ∃ bytes, result = .ok bytes := by
    rw [fill_eq_answer] at hf
    simp only [answer, hc, Prod.mk.injEq] at hf
    exact ⟨_, hf.1.symm⟩
  obtain ⟨bytes, rfl⟩ := ok
  obtain ⟨like, le, moved, split⟩ := fill_split hf
  refine ⟨bytes, rfl, like, le, moved, split, fun empty => ?_⟩
  rcases (fill_ok hf).2.2.2.2 empty with zero | ended | silent
  · exact absurd hw (Nat.not_lt.2 (Nat.le_of_eq zero))
  · exact List.drop_of_length_le ended
  · obtain rfl := Reply.upTo.inj (hc.symm.trans silent)
    exact absurd (pos hw) (Nat.lt_irrefl 0)

theorem fill_reliable {r r' : Reader} (h : r.Steady) (hp : r.position ≤ r.data.length) {wanted : Nat}
    (hw : 0 < wanted) {result : Except Fault Bytes} (hf : r.fill wanted = (result, r')) :
    ∃ bytes, result = .ok bytes ∧ r.Like r' ∧ bytes.length ≤ wanted ∧
      r'.position = r.position + bytes.length ∧
      r.data.drop r.position = bytes ++ r.data.drop r'.position ∧
      (bytes = [] → r.data.drop r.position = []) :=
  fill_gives h.givesBefore (Nat.lt_succ_of_le hp) hw hf

theorem moveTo_reliable {r : Reader} (h : r.Steady) {target : Nat} (ht : target ≤ r.data.length) :
    ∃ r', r.moveTo target = (.ok (), r') ∧ r.Like r' ∧ r'.position = target := by
  have ok : (r.moveTo target).1 = .ok () := by simp [moveTo, h.refusal _ target ht]
  exact ⟨(r.moveTo target).2, Prod.ext ok rfl, ⟨data_moveTo r target, script_moveTo r target⟩,
    position_moveTo ok⟩

theorem moved_reliable {r r' : Reader} (h : r.Steady) {target : Nat} (ht : target ≤ r.data.length)
    (hm : r.moveTo target = (.ok (), r')) :
    r.Like r' ∧ r'.position = target := by
  obtain ⟨_, hm', like, pos⟩ := moveTo_reliable h ht
  rw [hm, Prod.mk.injEq] at hm'
  obtain ⟨-, rfl⟩ := hm'
  exact ⟨like, pos⟩

theorem wanted_pos {block : Nat} (hb : 0 < block) {left : Option Nat} (hl : left ≠ some 0) :
    0 < (match left with | none => block | some n => min block n) := by
  cases left with
  | none => exact hb
  | some n => exact Nat.lt_min.2 ⟨hb, Nat.pos_of_ne_zero fun h => hl (h ▸ rfl)⟩

theorem length_le_left {block : Nat} {left : Option Nat} {bytes : Bytes}
    (h : bytes.length ≤ (match left with | none => block | some n => min block n)) :
    ∀ n, left = some n → bytes.length ≤ n := by
  rintro n rfl
  exact Nat.le_trans h (Nat.min_le_right _ _)

/-- How many bytes the next block has at most. -/
def wanted (block : Nat) (left : Option Nat) : Nat :=
  match left with
  | none => block
  | some n => min block n

theorem foldBlocks_eq {σ : Type} (f : σ → Bytes → σ) (block : Nat) (left : Option Nat) (acc : σ) (r : Reader) :
    r.foldBlocks f block left acc =
      if left = some 0 then (.ok acc, r)
      else match r.fill (wanted block left) with
        | (.error fault, r') => (.error fault, r')
        | (.ok [], r') => (.ok acc, r')
        | (.ok (b :: bytes), r') => r'.foldBlocks f block (left.map (· - (bytes.length + 1))) (f acc (b :: bytes)) := by
  conv => lhs; unfold foldBlocks
  split
  · rfl
  · split
    all_goals
      rename_i answered
      have answered : r.fill (wanted block left) = _ := answered
      rw [answered]

theorem kindAhead_eq (block : Nat) (left : Option Nat) (r : Reader) :
    r.kindAhead block left =
      if left = some 0 then (.ok .text, r)
      else match r.fill (wanted block left) with
        | (.error fault, r') => (.error fault, r')
        | (.ok [], r') => (.ok .text, r')
        | (.ok (b :: bytes), r') =>
          if Kind.shownBy (b :: bytes) = .binary then (.ok .binary, r')
          else r'.kindAhead block (left.map (· - (bytes.length + 1))) := by
  conv => lhs; unfold kindAhead
  split
  · rfl
  · split
    all_goals
      rename_i answered
      have answered : r.fill (wanted block left) = _ := answered
      rw [answered]

@[simp] theorem foldBlocks_zero {σ : Type} (f : σ → Bytes → σ) (block : Nat) (acc : σ) (r : Reader) :
    r.foldBlocks f block (some 0) acc = (.ok acc, r) := by
  unfold foldBlocks
  rw [if_pos rfl]

@[simp] theorem kindAhead_zero (block : Nat) (r : Reader) : r.kindAhead block (some 0) = (.ok .text, r) := by
  unfold kindAhead
  rw [if_pos rfl]

/-- Whether so many bytes, or all that are left, are read without a read at an
offset or after it. -/
def Within (r : Reader) (offset : Nat) (left : Option Nat) : Prop :=
  (∃ n, left = some n ∧ (n = 0 ∨ r.position + n ≤ offset)) ∨ r.position < offset ∧ r.data.length < offset

theorem within_end {r : Reader} (h : r.position ≤ r.data.length) (left : Option Nat) :
    r.Within (r.data.length + 1) left :=
  .inr ⟨Nat.lt_succ_of_le h, Nat.lt_succ_self _⟩

theorem Within.position_lt {r : Reader} {offset : Nat} {left : Option Nat} (h : r.Within offset left)
    (hl : left ≠ some 0) : r.position < offset := by
  obtain ⟨n, rfl, rfl | le⟩ | ⟨lt, -⟩ := h
  · exact absurd rfl hl
  · have : n ≠ 0 := fun zero => hl (congrArg some zero)
    omega
  · exact lt

/-- Where some of the bytes were read, the others are read without a read at the offset if all are. -/
theorem Within.next {r r' : Reader} {offset : Nat} {left : Option Nat} {b : UInt8} {bytes : Bytes}
    (h : r.Within offset left) (like : r.Like r') (le : ∀ n, left = some n → (b :: bytes).length ≤ n)
    (moved : r'.position = r.position + (b :: bytes).length)
    (split : r.data.drop r.position = (b :: bytes) ++ r.data.drop r'.position) :
    r'.Within offset (left.map (· - (bytes.length + 1))) := by
  have lengths := congrArg List.length split
  rw [List.length_append, List.length_drop, List.length_drop, List.length_cons] at lengths
  rw [List.length_cons] at moved
  obtain ⟨n, rfl, fits⟩ | ⟨-, ends⟩ := h
  · have le := le n rfl
    rw [List.length_cons] at le
    exact .inl ⟨n - (bytes.length + 1), rfl, by omega⟩
  · exact .inr ⟨by omega, like.1 ▸ ends⟩

/-- Where the reads stop at the offset, what is not read without one there at first, is not later. -/
theorem Within.of_next {r r' : Reader} {offset : Nat} {left : Option Nat} {b : UInt8} {bytes : Bytes}
    (h : r'.Within offset (left.map (· - (bytes.length + 1)))) (like : r.Like r')
    (le : ∀ n, left = some n → (b :: bytes).length ≤ n) (moved : r'.position = r.position + (b :: bytes).length)
    (stops : r'.position ≤ offset) : r.Within offset left := by
  rw [List.length_cons] at moved
  obtain ⟨rest, same, fits⟩ | ⟨before, ends⟩ := h
  · obtain ⟨n, rfl, rfl⟩ := Option.map_eq_some_iff.1 same
    have le := le n rfl
    rw [List.length_cons] at le
    exact .inl ⟨n, rfl, .inr (by omega)⟩
  · exact .inr ⟨by omega, like.1 ▸ ends⟩

theorem fill_fails {r r' : Reader} {offset : Nat} {fault : Fault} (h : r.script.FailsFrom offset fault)
    {wanted : Nat} {result : Except Fault Bytes} (hf : r.fill wanted = (result, r')) :
    offset ≤ r.position ∧ result = .error fault ∨
      r.position < offset ∧ (∃ bytes, result = .ok bytes) ∧ r'.position ≤ offset := by
  rw [fill_eq_answer] at hf
  unfold answer at hf
  rcases Nat.lt_or_ge r.position offset with before | beyond
  · obtain ⟨count, replied, -, stops⟩ := h.before r.reads r.position wanted before
    rw [replied] at hf
    obtain ⟨rfl, rfl⟩ := Prod.mk.inj hf
    refine .inr ⟨before, ⟨_, rfl⟩, ?_⟩
    dsimp only
    rw [List.length_take]
    omega
  · rw [h.beyond r.reads r.position wanted beyond] at hf
    exact .inl ⟨beyond, (Prod.mk.inj hf).1.symm⟩

/-- **Folding over blocks** folds over pieces that are, together, the bytes ahead, as
long as none is wanted from an offset on, up to which the reader gives bytes. -/
theorem foldBlocks_gives {σ : Type} (f : σ → Bytes → σ) {block offset : Nat} {left : Option Nat}
    (hb : left ≠ some 0 → 0 < block) (acc : σ) (r : Reader) (h : r.script.GivesBefore offset)
    (within : r.Within offset left) :
    ∃ (pieces : List Bytes) (r' : Reader), r.foldBlocks f block left acc = (.ok (pieces.foldl f acc), r') ∧
      r.Like r' ∧ pieces.flatten = Bytes.upTo left (r.data.drop r.position) := by
  fun_induction foldBlocks f block left acc r with
  | case1 acc r => exact ⟨[], r, rfl, .refl r, by simp [Bytes.upTo]⟩
  | case2 left acc r hl fault r' hf =>
    obtain ⟨bytes, ⟨⟩, -⟩ := fill_gives h (within.position_lt hl) (wanted_pos (hb hl) hl) hf
  | case3 left acc r hl r' hf =>
    obtain ⟨bytes, ⟨⟩, like, -, -, -, atEnd⟩ := fill_gives h (within.position_lt hl) (wanted_pos (hb hl) hl) hf
    exact ⟨[], r', rfl, like, by simp [atEnd rfl, Bytes.upTo_nil]⟩
  | case4 left acc r hl b bytes r' hf ih =>
    obtain ⟨_, ⟨⟩, like, le, moved, split, -⟩ := fill_gives h (within.position_lt hl) (wanted_pos (hb hl) hl) hf
    have le := length_le_left le
    obtain ⟨pieces, r'', hr, like', flat⟩ := ih (fun _ => hb hl) (like.2 ▸ h) (within.next like le moved split)
    refine ⟨(b :: bytes) :: pieces, r'', hr, like.trans like', ?_⟩
    rw [List.flatten_cons, flat, like.1, split, Bytes.upTo_append le]
    rfl

/-- **The kind of what lies ahead** is that of the bytes there, as long as none is
wanted from an offset on, up to which the reader gives bytes. -/
theorem kindAhead_gives {block offset : Nat} (hb : 0 < block) (left : Option Nat) (r : Reader)
    (h : r.script.GivesBefore offset) (within : r.Within offset left) :
    ∃ r', r.kindAhead block left = (.ok (Kind.shownBy (Bytes.upTo left (r.data.drop r.position))), r') ∧
      r.Like r' := by
  fun_induction kindAhead block left r with
  | case1 r => exact ⟨r, rfl, .refl r⟩
  | case2 left r hl fault r' hf =>
    obtain ⟨bytes, ⟨⟩, -⟩ := fill_gives h (within.position_lt hl) (wanted_pos hb hl) hf
  | case3 left r hl r' hf =>
    obtain ⟨bytes, ⟨⟩, like, -, -, -, atEnd⟩ := fill_gives h (within.position_lt hl) (wanted_pos hb hl) hf
    exact ⟨r', by rw [atEnd rfl, Bytes.upTo_nil]; rfl, like⟩
  | case4 left r hl b bytes r' hf hk =>
    obtain ⟨_, ⟨⟩, like, le, -, split, -⟩ := fill_gives h (within.position_lt hl) (wanted_pos hb hl) hf
    refine ⟨r', ?_, like⟩
    rw [split, Bytes.upTo_append (length_le_left le), Kind.shownBy_append, if_pos hk]
  | case5 left r hl b bytes r' hf hk ih =>
    obtain ⟨_, ⟨⟩, like, le, moved, split, -⟩ := fill_gives h (within.position_lt hl) (wanted_pos hb hl) hf
    have le := length_le_left le
    obtain ⟨r'', hr, like'⟩ := ih (like.2 ▸ h) (within.next like le moved split)
    refine ⟨r'', ?_, like.trans like'⟩
    rw [hr, like.1, split, Bytes.upTo_append le, Kind.shownBy_append, if_neg hk]
    rfl

theorem kindAhead_reliable {block : Nat} (hb : 0 < block) (left : Option Nat) (r : Reader)
    (h : r.Steady) (hp : r.position ≤ r.data.length) :
    ∃ r', r.kindAhead block left = (.ok (Kind.shownBy (Bytes.upTo left (r.data.drop r.position))), r') ∧
      r.Like r' :=
  kindAhead_gives hb left r h.givesBefore (within_end hp left)

theorem foldl_feed (pieces : List Bytes) (h : Hasher) (count : Nat) :
    pieces.foldl (fun (h, count) bytes => (Hasher.feed h bytes, count + bytes.length)) (h, count) =
      (h.feed pieces.flatten, count + pieces.flatten.length) := by
  induction pieces generalizing h count with
  | nil => simp
  | cons x rest ih =>
    simp only [List.foldl_cons, List.flatten_cons, List.length_append]
    rw [ih, Hasher.feed_append, Nat.add_assoc]

theorem moved_to {r r' : Reader} {target : Nat} (moved : r.moveTo target = (.ok (), r')) :
    r.Like r' ∧ r'.position = target := by
  have there := position_moveTo (congrArg Prod.fst moved)
  have data := data_moveTo r target
  have script := script_moveTo r target
  rw [moved] at there data script
  exact ⟨⟨data, script⟩, there⟩

/-- **The signature of a range** is that of its bytes, as long as none is wanted from
an offset on, up to which the reader gives bytes. -/
theorem signature_gives {r moved : Reader} {offset start : Nat} {stop : Option Nat}
    (ordered : ∀ last, stop = some last → start ≤ last) (hm : r.moveTo start = (.ok (), moved))
    (h : r.script.GivesBefore offset) (within : moved.Within offset (stop.map (· - start)))
    (algorithm : Algorithm) (blockSize : Nat) :
    ∃ r', r.signature (some start) stop algorithm blockSize =
        ((r.data.range? start stop).map (.of algorithm), r') ∧ r.Like r' := by
  obtain ⟨like, hp⟩ := moved_to hm
  obtain ⟨pieces, r', hb, like', flat⟩ := foldBlocks_gives
    (fun (h, count) bytes => (Hasher.feed h bytes, count + bytes.length))
    (fun _ => Nat.lt_of_lt_of_le Nat.zero_lt_one (Nat.le_max_left 1 blockSize)) (Hasher.start algorithm, 0) moved
    (like.2 ▸ h) within
  rw [hp, like.1] at flat
  refine ⟨r', ?_, like.trans like'⟩
  rw [foldl_feed, flat] at hb
  unfold signature
  cases stop with
  | none =>
    simp only [Option.getD_some, Option.any_none, Bool.false_eq_true, ↓reduceIte, hm, hb]
    rfl
  | some last =>
    simp only [Option.getD_some, Option.any_some, decide_eq_true_eq, Nat.not_lt.2 (ordered last rfl), ↓reduceIte,
      hm, hb, Nat.zero_add]
    have bytes : Bytes.upTo (some (last - start)) (r.data.drop start) = r.data.slice start last := rfl
    rw [Option.map_some, bytes]
    by_cases short : (r.data.slice start last).length < last - start
    · rw [if_pos short, Bytes.range?_of_lt short]
      rfl
    · rw [if_neg short, Bytes.range?_of_not_lt short]
      rfl

/-- **The signature of a range** inside the source, read by a reader that never
fails, is that of the bytes in it. -/
theorem signature_reliable (r : Reader) (h : r.Steady) {start stop : Nat} (h1 : start ≤ stop)
    (h2 : stop ≤ r.data.length) (algorithm : Algorithm) (blockSize : Nat) :
    ∃ r', r.signature (some start) (some stop) algorithm blockSize =
        (.ok (.of algorithm (r.data.slice start stop)), r') ∧ r.Like r' := by
  obtain ⟨moved, hm, like, hp⟩ := moveTo_reliable h (Nat.le_trans h1 h2)
  have within : moved.Within (r.data.length + 1) (some (stop - start)) :=
    .inl ⟨stop - start, rfl, .inr (by omega)⟩
  have ordered : ∀ last, some stop = some last → start ≤ last := fun _ same => Option.some.inj same ▸ h1
  have signed := signature_gives ordered hm h.givesBefore within algorithm blockSize
  rwa [Bytes.range?_some, if_pos (.inl h2)] at signed

end Reader

theorem foldl_flip_cons (pieces acc : List Bytes) :
    pieces.foldl (fun pieces bytes => bytes :: pieces) acc = pieces.reverse ++ acc := by
  induction pieces generalizing acc with
  | nil => rfl
  | cons x rest ih => simp [ih]

/-- **The bytes of a chunk** are those of its range, as long as none is wanted from
an offset on, up to which the reader gives bytes. -/
theorem Chunk.readFrom_gives (c : Chunk) {r moved : Reader} {offset : Nat}
    (hm : r.moveTo c.range.start = (.ok (), moved)) (held : ¬c.Oversized r.data) (h : r.script.GivesBefore offset)
    (within : moved.Within offset (some c.length)) :
    (c.readFrom r).1 = r.data.range? c.range.start (some c.range.stop) := by
  obtain ⟨like, hp⟩ := Reader.moved_to hm
  obtain ⟨pieces, r', hb, -, flat⟩ := Reader.foldBlocks_gives (fun pieces bytes => bytes :: pieces)
    (fun filled => Nat.pos_of_ne_zero fun zero => filled (congrArg some zero)) [] moved (like.2 ▸ h) within
  have bytes : pieces.flatten = r.data.slice c.range.start c.range.stop := by
    rw [flat, hp, like.1]
    rfl
  rw [foldl_flip_cons, List.append_nil] at hb
  unfold readFrom
  simp only [hm, like.1, if_neg held, hb, List.reverse_reverse, bytes]
  by_cases short : (r.data.slice c.range.start c.range.stop).length < c.length
  · rw [if_pos short, Bytes.range?_of_lt short]
  · rw [if_neg short, Bytes.range?_of_not_lt short]

/-- **The bytes of a chunk** inside the source, read by a reader that never fails, are those of its range. -/
theorem Chunk.readFrom_reliable (c : Chunk) {r : Reader} (h : r.Steady) (filled : c.range.start < c.range.stop)
    (inside : c.range.stop ≤ r.data.length) :
    (c.readFrom r).1 = .ok (r.data.slice c.range.start c.range.stop) := by
  obtain ⟨moved, hm, like, hp⟩ := Reader.moveTo_reliable h (Nat.le_trans (Nat.le_of_lt filled) inside)
  have length : c.length = c.range.stop - c.range.start := rfl
  have within : moved.Within (r.data.length + 1) (some c.length) := .inl ⟨c.length, rfl, .inr (by omega)⟩
  have held : ¬c.Oversized r.data := fun oversized => absurd oversized.2 (Nat.not_lt.2 inside)
  rw [c.readFrom_gives hm held h.givesBefore within, Bytes.range?_some, if_pos (.inl inside)]

end ContentChunks
