/-
The kind of a stream. A stream is judged block by block, and no further than the
sample: by its first bad block, by the end of the sample, by the end of the source or
by a failure, whichever comes first. Short reads change where the blocks end, but not
which bytes are in them, so only the failure makes a difference to judging the bytes
in memory, and only if a disallowed byte does not come before it.

Main statements:
- `Reader.kindAhead_position_le`: no more is read than the sample.
- `Reader.position_of_text`: all of the sample is read before it is found to be text.
- `Reader.kindAhead_fails`: what is known before a failure decides, if it can.
- `Reader.kind_spec`: what the kind of a stream is, and where the reader is then.
-/
import ContentChunks.Proofs.Reading

namespace ContentChunks

theorem Bytes.length_upTo (limit : Option Nat) (data : Bytes) :
    (data.upTo limit).length = limit.elim data.length (min · data.length) := by
  cases limit with
  | none => rfl
  | some n => exact List.length_take

theorem Bytes.take_upTo {limit : Option Nat} {offset : Nat} {data : Bytes}
    (enough : (∃ n ∈ limit, n ≤ offset) ∨ data.length < offset) : (data.upTo limit).take offset = data.upTo limit := by
  refine List.take_of_length_le ?_
  rw [length_upTo]
  obtain ⟨n, rfl, le⟩ | lt := enough
  · exact Nat.le_trans (Nat.min_le_left ..) le
  · cases limit with
    | none => exact Nat.le_of_lt lt
    | some n => exact Nat.le_trans (Nat.min_le_right ..) (Nat.le_of_lt lt)

theorem Bytes.take_upTo_of_lt {limit : Option Nat} {offset : Nat} (lt : ¬∃ n ∈ limit, n ≤ offset) (data : Bytes) :
    (data.upTo limit).take offset = data.take offset := by
  cases limit with
  | none => rfl
  | some n =>
    have le : offset ≤ n := Nat.le_of_lt (Nat.lt_of_not_le fun le => lt ⟨n, rfl, le⟩)
    rw [upTo, List.take_take, Nat.min_eq_left le]

namespace Reader

/-! ## Where judging stops -/

theorem position_fill_le (r : Reader) (wanted : Nat) : (r.fill wanted).2.position ≤ r.position + wanted := by
  rw [fill_eq_answer]
  unfold answer
  dsimp only
  split
  · exact Nat.le_add_right ..
  · dsimp only
    rw [List.length_take]
    omega

/-- **No more is read than the sample**, whatever the reader answers. -/
theorem kindAhead_position_le (block : Nat) (left : Option Nat) (r : Reader) :
    ∀ n, left = some n → (r.kindAhead block left).2.position ≤ r.position + n := by
  fun_induction kindAhead block left r with
  | case1 r => exact fun _ _ => Nat.le_add_right ..
  | case2 left r hl result r' hf | case3 left r hl r' hf | case4 left r hl b bytes r' hf hk =>
    rintro n rfl
    calc r'.position = (r.fill (wanted block (some n))).2.position := (congrArg (·.2.position) hf).symm
      _ ≤ r.position + min block n := position_fill_le r _
      _ ≤ r.position + n := Nat.add_le_add_left (Nat.min_le_right ..) _
  | case5 left r hl b bytes r' hf hk ih =>
    rintro n rfl
    obtain ⟨-, le, moved, -⟩ := fill_split hf
    have le := length_le_left le n rfl
    rw [List.length_cons] at le moved
    have later := ih (n - (bytes.length + 1)) rfl
    omega

/-- **All of the sample is read before it is found to be text**, if the source seems to
end only where it does. -/
theorem position_of_text {block : Nat} (hb : 0 < block) {left : Option Nat} {r t : Reader} (h : r.script.Honest)
    (judged : r.kindAhead block left = (.ok .text, t)) :
    t.position = r.position + (Bytes.upTo left (r.data.drop r.position)).length := by
  fun_induction kindAhead block left r with
  | case1 r =>
    cases judged
    simp [Bytes.upTo]
  | case2 | case4 => cases judged
  | case3 left r hl r' hf =>
    cases judged
    obtain ⟨-, -, moved, -, why⟩ := fill_ok hf
    have ended : r.data.drop r.position = [] := by
      rcases why rfl with zero | ended | silent
      · exact absurd zero (Nat.ne_of_gt (wanted_pos hb hl))
      · exact List.drop_of_length_le ended
      · exact absurd silent (h _ _ _ (wanted_pos hb hl))
    rw [moved, ended, Bytes.upTo_nil]
  | case5 left r hl b bytes r' hf hk ih =>
    obtain ⟨like, le, moved, split⟩ := fill_split hf
    rw [ih (like.2 ▸ h) judged, like.1, split, Bytes.upTo_append (length_le_left le), List.length_append,
      ← Nat.add_assoc, ← moved]
    rfl

/-! ## Sources that fail -/

theorem take_before {r r' : Reader} {offset : Nat} {bytes : Bytes} (moved : r'.position = r.position + bytes.length)
    (stops : r'.position ≤ offset) (split : r.data.drop r.position = bytes ++ r.data.drop r'.position) :
    (r.data.drop r.position).take (offset - r.position) =
      bytes ++ (r.data.drop r'.position).take (offset - r'.position) := by
  have fits : bytes.length ≤ offset - r.position := by omega
  rw [split, List.take_append, List.take_of_length_le fits, moved, Nat.sub_add_eq]

/-- **What is known before a failure decides, if it can**: a stream is binary by a
disallowed byte before the offset from which its reader fails, and is not judged
otherwise if more is needed. -/
theorem kindAhead_fails {block offset : Nat} {fault : Fault} (hb : 0 < block) (left : Option Nat) (r : Reader)
    (h : r.script.FailsFrom offset fault) (beyond : ¬r.Within offset left) :
    (r.kindAhead block left).1 =
      if Kind.shownBy ((r.data.drop r.position).take (offset - r.position)) = .binary then .ok .binary
      else .error fault := by
  fun_induction kindAhead block left r with
  | case1 r => exact absurd (.inl ⟨0, rfl, .inl rfl⟩) beyond
  | case2 left r hl other r' hf =>
    obtain ⟨after, ⟨⟩⟩ | ⟨-, ⟨bytes, ⟨⟩⟩, -⟩ := fill_fails h hf
    rw [Nat.sub_eq_zero_of_le after, List.take_zero]
    rfl
  | case3 left r hl r' hf =>
    -- the source ends before the offset
    obtain ⟨-, ⟨⟩⟩ | ⟨before, -, -⟩ := fill_fails h hf
    obtain ⟨_, ⟨⟩, -, -, -, -, atEnd⟩ := fill_gives h.givesBefore before (wanted_pos hb hl) hf
    have ended := List.drop_eq_nil_iff.1 (atEnd rfl)
    exact absurd (.inr ⟨before, Nat.lt_of_le_of_lt ended before⟩) beyond
  | case4 left r hl b bytes r' hf hk =>
    obtain ⟨-, ⟨⟩⟩ | ⟨before, -, stops⟩ := fill_fails h hf
    obtain ⟨-, -, moved, split⟩ := fill_split hf
    rw [take_before moved stops split, Kind.shownBy_append, if_pos hk, if_pos rfl]
  | case5 left r hl b bytes r' hf hk ih =>
    obtain ⟨-, ⟨⟩⟩ | ⟨before, -, stops⟩ := fill_fails h hf
    obtain ⟨like, le, moved, split⟩ := fill_split hf
    have later := ih (like.2 ▸ h) fun within => beyond (within.of_next like (length_le_left le) moved stops)
    rw [later, like.1, take_before moved stops split, Kind.shownBy_append, if_neg hk]

theorem within_of {data : Bytes} {script : Script} {offset : Nat} {left : Option Nat} :
    (Reader.of data script).Within offset left ↔ (∃ n ∈ left, n ≤ offset) ∨ data.length < offset := by
  constructor
  · rintro (⟨n, same, fits⟩ | ⟨-, ends⟩)
    · exact .inl ⟨n, same, fits.elim (· ▸ Nat.zero_le _) (Nat.le_trans (Nat.le_add_left ..))⟩
    · exact .inr ends
  · rintro (⟨n, same, le⟩ | ends)
    · exact .inl ⟨n, same, .inr (Nat.le_trans (Nat.le_of_eq (Nat.zero_add n)) le)⟩
    · exact .inr ⟨Nat.lt_of_le_of_lt (Nat.zero_le _) ends, ends⟩

/-- **A stream is judged as the bytes in memory are**: however short its reads and however
often they are interrupted, and whatever the size of blocks, it is binary just when one of
the first bytes, as many as the sample, is disallowed. No more is read than the sample, and
all of it if it is found to be text. Where the reads from an offset on fail, a disallowed
byte before the offset is still found, a sample that ends there or a source that ends before
it is text without one, and the failure is told otherwise. -/
theorem kind_spec (data : Bytes) (script : Script) (blockSize : Nat) (sample : Option Nat) :
    let judged := (Reader.of data script).kind blockSize sample
    (∀ n ∈ sample, judged.2.position ≤ n) ∧
    (script.Honest → judged.1 = .ok .text → judged.2.position = sample.elim data.length (min · data.length)) ∧
    (script.Reliable → judged.1 = .ok (.of data sample) ∧
      (judged.1 = .ok .binary ↔ ∃ b ∈ data.upTo sample, Kind.disallowed b = true)) ∧
    ∀ offset fault, script.FailsFrom offset fault → judged.1 =
      if ∃ b ∈ (data.upTo sample).take offset, Kind.disallowed b = true then .ok .binary
      else if (∃ n ∈ sample, n ≤ offset) ∨ data.length < offset then .ok .text
      else .error fault := by
  intro judged
  have hb : 0 < max 1 blockSize := Nat.lt_of_lt_of_le Nat.zero_lt_one (Nat.le_max_left ..)
  have gives {offset : Nat} (h : script.GivesBefore offset) (within : (Reader.of data script).Within offset sample) :
      judged.1 = .ok (Kind.shownBy (data.upTo sample)) := by
    obtain ⟨r', told, -⟩ := kindAhead_gives hb sample _ h within
    exact congrArg Prod.fst told
  refine ⟨fun n same => ?_, fun honest text => ?_, fun reliable => ?_, fun offset fault fails => ?_⟩
  · exact Nat.zero_add n ▸ kindAhead_position_le (max 1 blockSize) sample (Reader.of data script) n same
  · rw [← Bytes.length_upTo]
    exact (position_of_text hb honest (Prod.ext text rfl)).trans (Nat.zero_add _)
  · have same := gives (reliable.givesBefore _) (within_end (Nat.zero_le _) sample)
    rw [same, Kind.of_eq_shownBy]
    exact ⟨rfl, Iff.trans (by rw [Except.ok.injEq]) Kind.shownBy_eq_binary_iff⟩
  · simp only [← Kind.shownBy_eq_binary_iff]
    by_cases within : (Reader.of data script).Within offset sample
    · have enough := within_of.1 within
      rw [gives fails.givesBefore within, Bytes.take_upTo enough, if_pos enough]
      cases Kind.shownBy (data.upTo sample) <;> rfl
    · have more := mt within_of.2 within
      rw [if_neg more, Bytes.take_upTo_of_lt fun le => more (.inl le)]
      exact kindAhead_fails hb sample _ fails within

/-- A byte that is disallowed stands just where the device is gone: it makes the source binary
while the device is there, is not seen with a sample that ends before it, and cannot be told later. -/
theorem kind_spec_device_gone :
    let script := (Script.plain.short 2).interrupted 1
    let gone := Fault.other "device gone"
    let judged (script : Script) (sample : Option Nat) :=
      (Reader.of (Bytes.ofText "abcd" ++ [0x01, 0x62]) script).kind 3 sample
    script.Reliable ∧ (script.failingFrom 4 gone).FailsFrom 4 gone ∧
      (judged script none).1 = .ok .binary ∧
      (judged (script.failingFrom 4 gone) (some 4)).1 = .ok .text ∧
      (judged (script.failingFrom 4 gone) (some 4)).2.position = 4 ∧
      (judged (script.failingFrom 4 gone) none).1 = .error gone := by
  intro script gone judged
  have reliable : script.Reliable := (Script.reliable_plain.short (by decide)).interrupted 1
  have fails : (script.failingFrom 4 gone).FailsFrom 4 gone := reliable.failingFrom 4 gone
  let data := Bytes.ofText "abcd" ++ [0x01, 0x62]
  obtain ⟨-, -, told, -⟩ := kind_spec data script 3 none
  obtain ⟨-, position, -, sampled⟩ := kind_spec data (script.failingFrom 4 gone) 3 (some 4)
  obtain ⟨-, -, -, broken⟩ := kind_spec data (script.failingFrom 4 gone) 3 none
  have text := (sampled 4 gone fails).trans ((if_neg (by decide +kernel)).trans (if_pos (by decide +kernel)))
  refine ⟨reliable, fails, (told reliable).2.2 (by decide +kernel), text, position fails.honest text, ?_⟩
  exact (broken 4 gone fails).trans ((if_neg (by decide +kernel)).trans (if_neg (by decide +kernel)))

end Reader

end ContentChunks
