/-
Ranges that are hashed and ranges that are read. The signature of a range is fed
block by block, the bytes of a chunk are put together; both move to the start of
the range once, take the same bytes and refuse a source that ends inside it. So
either tells what the other does, also of a source that fails from an offset on;
but the bytes are put in a buffer, which has to be had before they are read.

Main statements:
- `Reader.foldCounted_eq`: what is left of a range may be counted from its ends and
  what was read, and never goes below zero.
- `Reader.foldBlocks_fails`: blocks fail as the reader does, where they need what it
  does not give.
- `Chunk.signature_readFrom`: a chunk is hashed as it is read.
- `Reader.signature_spec`: what the signature of a range is, and when there is none.
- `Reader.readFrom_ne_signature`: of a range that is too long for a buffer only the signature is refused.
-/
import ContentChunks.Proofs.Reading

namespace ContentChunks

namespace Reader

/-! ## Counting what was read -/

/-- What is left of a range once so many bytes of it were read. Nothing is told if
they are more than the range has. -/
def left? (start : Nat) (stop : Option Nat) (count : Nat) : Option (Option Nat) :=
  match stop with
  | none => some none
  | some last => if last < start + count then none else some (some (last - start - count))

theorem left?_eq_some {start count : Nat} {stop : Option Nat} (fits : ∀ last, stop = some last → start + count ≤ last) :
    left? start stop count = some (stop.map (· - start - count)) := by
  cases stop with
  | none => rfl
  | some last => exact if_neg (Nat.not_lt.2 (fits last rfl))

/-- Folds over the blocks of a range like `foldBlocks`, but counts what was read and
reckons from it what is left; there is no answer if that is not told. -/
def foldCounted {σ : Type} (f : σ → Bytes → σ) (block start : Nat) (stop : Option Nat) (count : Nat) (acc : σ)
    (r : Reader) : Option (Except Fault σ × Reader) :=
  match left? start stop count with
  | none => none
  | some left =>
    if left = some 0 then some (.ok acc, r)
    else
      match _h : r.fill (wanted block left) with
      | (.error fault, r') => some (.error fault, r')
      | (.ok [], r') => some (.ok acc, r')
      | (.ok (b :: bytes), r') =>
        foldCounted f block start stop (count + (bytes.length + 1)) (f acc (b :: bytes)) r'
termination_by r.data.length - r.position
decreasing_by exact position_lt_of_fill _h

/-- **What is left of a range never goes below zero**, as no block is longer than it. -/
theorem foldCounted_eq {σ : Type} (f : σ → Bytes → σ) (block start : Nat) (stop : Option Nat) (count : Nat) (acc : σ)
    (r : Reader) (fits : ∀ last, stop = some last → start + count ≤ last) :
    r.foldCounted f block start stop count acc = some (r.foldBlocks f block (stop.map (· - start - count)) acc) := by
  have known := left?_eq_some fits
  fun_induction foldCounted f block start stop count acc r with
  | case1 count acc r below => simp [below] at known
  | case2 count acc r zero =>
    rw [← Option.some.inj (zero.symm.trans known), foldBlocks_zero]
  | case3 count acc r left told hl fault r' hf =>
    rw [← Option.some.inj (told.symm.trans known), foldBlocks_eq, if_neg hl, hf]
  | case4 count acc r left told hl r' hf =>
    rw [← Option.some.inj (told.symm.trans known), foldBlocks_eq, if_neg hl, hf]
  | case5 count acc r left told hl b bytes r' hf ih =>
    have same := Option.some.inj (told.symm.trans known)
    have le := length_le_left (fill_ok hf).2.1
    have fits' : ∀ last, stop = some last → start + (count + (bytes.length + 1)) ≤ last := by
      intro last here
      subst here
      have fits := fits last rfl
      have le : bytes.length + 1 ≤ last - start - count := le _ same
      omega
    have later : stop.map (· - start - (count + (bytes.length + 1))) = left.map (· - (bytes.length + 1)) := by
      rw [same, Option.map_map]
      congr 1
      funext last
      exact (Nat.sub_sub ..).symm
    rw [ih fits' (left?_eq_some fits'), later, ← same, foldBlocks_eq f block left, if_neg hl, hf]

/-! ## Sources that fail -/

/-- **Folding over blocks fails as the reader does**, where it needs what the reader does not give. -/
theorem foldBlocks_fails {σ : Type} (f : σ → Bytes → σ) {block offset : Nat} {fault : Fault} {left : Option Nat}
    (hb : left ≠ some 0 → 0 < block) (acc : σ) (r : Reader) (h : r.script.FailsFrom offset fault)
    (beyond : ¬r.Within offset left) : (r.foldBlocks f block left acc).1 = .error fault := by
  fun_induction foldBlocks f block left acc r with
  | case1 acc r => exact absurd (.inl ⟨0, rfl, .inl rfl⟩) beyond
  | case2 left acc r hl other r' hf =>
    obtain ⟨-, ⟨⟩⟩ | ⟨-, ⟨bytes, ⟨⟩⟩, -⟩ := fill_fails h hf
    rfl
  | case3 left acc r hl r' hf =>
    -- the source ends before the offset
    obtain ⟨-, ⟨⟩⟩ | ⟨before, -, -⟩ := fill_fails h hf
    obtain ⟨_, ⟨⟩, -, -, -, -, atEnd⟩ := fill_gives h.givesBefore before (wanted_pos (hb hl) hl) hf
    have ended := List.drop_eq_nil_iff.1 (atEnd rfl)
    exact absurd (.inr ⟨before, Nat.lt_of_le_of_lt ended before⟩) beyond
  | case4 left acc r hl b bytes r' hf ih =>
    obtain ⟨-, ⟨⟩⟩ | ⟨before, -, stops⟩ := fill_fails h hf
    obtain ⟨_, ⟨⟩, like, le, moved, -, -⟩ := fill_gives h.givesBefore before (wanted_pos (hb hl) hl) hf
    exact ih (fun _ => hb hl) (like.2 ▸ h) fun within => beyond (within.of_next like (length_le_left le) moved stops)

theorem signature_fails {r moved : Reader} {offset start : Nat} {fault : Fault} {stop : Option Nat}
    (ordered : ∀ last, stop = some last → start ≤ last) (hm : r.moveTo start = (.ok (), moved))
    (h : r.script.FailsFrom offset fault) (beyond : ¬moved.Within offset (stop.map (· - start)))
    (algorithm : Algorithm) (blockSize : Nat) :
    (r.signature (some start) stop algorithm blockSize).1 = .error (.io fault) := by
  have failed (feed : Hasher × Nat → Bytes → Hasher × Nat) :=
    foldBlocks_fails feed (fun _ => Nat.lt_of_lt_of_le Nat.zero_lt_one (Nat.le_max_left 1 blockSize))
      (Hasher.start algorithm, 0) moved ((moved_to hm).1.2 ▸ h) beyond
  have inOrder : ¬(stop.any fun last => decide (last < start)) = true := by
    cases stop with
    | none => exact Bool.false_ne_true
    | some last => simpa using ordered last rfl
  unfold signature
  rw [Option.getD_some, if_neg inOrder, hm]
  dsimp only
  split
  · rename_i other r' folded
    have same := (congrArg Prod.fst folded).symm.trans (failed _)
    rw [Except.error.inj same]
  · rename_i folded
    cases (congrArg Prod.fst folded).symm.trans (failed _)

end Reader

namespace Chunk

theorem readFrom_oversized (c : Chunk) {r : Reader} (hm : (r.moveTo c.range.start).1 = .ok ())
    (oversized : c.Oversized r.data) : (c.readFrom r).1 = .error (.panic "capacity overflow") := by
  have same := r.data_moveTo c.range.start
  unfold readFrom
  generalize r.moveTo c.range.start = result at hm same
  obtain ⟨_, moved⟩ := result
  obtain rfl := hm
  dsimp only at same ⊢
  rw [same, if_pos oversized]

theorem readFrom_fails (c : Chunk) {r moved : Reader} {offset : Nat} {fault : Fault}
    (hm : r.moveTo c.range.start = (.ok (), moved)) (held : ¬c.Oversized r.data) (h : r.script.FailsFrom offset fault)
    (beyond : ¬moved.Within offset (some c.length)) : (c.readFrom r).1 = .error (.io fault) := by
  have failed := Reader.foldBlocks_fails (fun pieces bytes => bytes :: pieces)
    (fun filled => Nat.pos_of_ne_zero fun zero => filled (congrArg some zero)) [] moved
    ((Reader.moved_to hm).1.2 ▸ h) beyond
  unfold readFrom
  rw [hm]
  dsimp only
  rw [(Reader.moved_to hm).1.1, if_neg held]
  split
  · rename_i other r' folded
    rw [folded] at failed
    rw [Except.error.inj failed]
  · rename_i folded
    rw [folded] at failed
    cases failed

/-- **A chunk is hashed as it is read**: by a reader that gives some bytes wherever there are
any, or all up to an offset from which on it fails, or that no move is allowed; but a buffer
for its bytes has to be had, if the reader is moved. -/
theorem signature_readFrom (c : Chunk) (r : Reader) (ordered : c.range.start ≤ c.range.stop)
    (held : ¬(c.Oversized r.data ∧ (r.moveTo c.range.start).1 = .ok ()))
    (reads : (∀ offset, r.script.GivesBefore offset) ∨ (∃ offset fault, r.script.FailsFrom offset fault) ∨
      ∀ move target, ∃ fault, r.script.refusal move target = some fault)
    (algorithm : Algorithm) (blockSize : Nat) :
    (c.readFrom r).1.map (.of algorithm) =
      (r.signature (some c.range.start) (some c.range.stop) algorithm blockSize).1 := by
  have inOrder : ∀ last, some c.range.stop = some last → c.range.start ≤ last :=
    fun _ same => Option.some.inj same ▸ ordered
  cases hm : r.moveTo c.range.start with
  | mk result moved =>
    cases result with
    | error fault =>
      unfold readFrom Reader.signature
      rw [hm, Option.getD_some, if_neg (by simpa using ordered), hm]
      rfl
    | ok =>
      have held : ¬c.Oversized r.data := fun oversized => held ⟨oversized, by rw [hm]⟩
      have both {offset : Nat} (h : r.script.GivesBefore offset) (within : moved.Within offset (some c.length)) :
          (c.readFrom r).1.map (.of algorithm) =
            (r.signature (some c.range.start) (some c.range.stop) algorithm blockSize).1 := by
        obtain ⟨r', signed, -⟩ := Reader.signature_gives inOrder hm h within algorithm blockSize
        rw [c.readFrom_gives hm held h within, signed]
      obtain gives | ⟨offset, fault, fails⟩ | refused := reads
      · exact both (gives (moved.position + c.length)) (.inl ⟨c.length, rfl, .inr (Nat.le_refl _)⟩)
      · by_cases within : moved.Within offset (some c.length)
        · exact both fails.givesBefore within
        · rw [c.readFrom_fails hm held fails within, Reader.signature_fails inOrder hm fails within]
          rfl
      · obtain ⟨fault, refused⟩ := refused r.moves c.range.start
        simp [Reader.moveTo, refused] at hm

end Chunk

namespace Reader

theorem signature_of_reliable {r : Reader} (reliable : r.script.Reliable) {start : Nat} {stop : Option Nat}
    (ordered : ∀ last, stop = some last → start ≤ last) (algorithm : Algorithm) (blockSize : Nat) :
    (r.signature (some start) stop algorithm blockSize).1 = (r.data.range? start stop).map (.of algorithm) := by
  cases hm : r.moveTo start with
  | mk result moved =>
    obtain rfl : result = .ok () := by
      rw [moveTo, reliable.refusal] at hm
      exact (Prod.mk.inj hm).1.symm
    have within : moved.Within (max moved.position moved.data.length + 1) (stop.map (· - start)) :=
      .inr ⟨by omega, by omega⟩
    obtain ⟨r', signed, -⟩ := signature_gives ordered hm (reliable.givesBefore _) within algorithm blockSize
    rw [signed]

theorem signature_ne_panic (r : Reader) (start stop : Option Nat) (algorithm : Algorithm) (blockSize : Nat)
    (words : String) : (r.signature start stop algorithm blockSize).1 ≠ .error (.panic words) := by
  unfold signature
  dsimp only
  split
  · nofun
  · split
    · nofun
    · split
      · nofun
      · split
        · split <;> nofun
        · nofun

/-- **Hashing a range and reading it agree on every source**, but for ranges that no buffer
can hold. Wherever a reader stands, however short its reads and however often they are
interrupted, and whatever the size of blocks: the signature of a range is that of its bytes
if the source has them all, and otherwise tells how many it has; without an end the range
goes to the end of the source. A range whose end is before its start is refused before the
reader is moved or read. What is left of a range never goes below zero. And the bytes of a
chunk are had just when the signature of its range is, which is then theirs, with the same
failure otherwise, also where the reader fails from an offset on or cannot be moved; but if
it is moved, and the range is too long for a buffer, reading stops the program, as hashing
never does. -/
theorem signature_spec (r : Reader) (algorithm : Algorithm) (blockSize : Nat) :
    (r.script.Reliable →
      (∀ start stop, start ≤ stop → (r.signature (some start) (some stop) algorithm blockSize).1 =
        if stop ≤ r.data.length ∨ start = stop then .ok (.of algorithm (r.data.slice start stop))
        else .error (.truncated start stop (r.data.length - start))) ∧
      ∀ start, (r.signature (some start) none algorithm blockSize).1 = .ok (.of algorithm (r.data.drop start))) ∧
    (∀ start stop, stop < start →
      r.signature (some start) (some stop) algorithm blockSize = (.error (.invalidRange start stop), r)) ∧
    (∀ start stop, (∀ last, stop = some last → start ≤ last) → ∀ (σ : Type) (f : σ → Bytes → σ) (block : Nat) (acc : σ),
      r.foldCounted f block start stop 0 acc = some (r.foldBlocks f block (stop.map (· - start)) acc)) ∧
    ∀ c : Chunk, c.range.start ≤ c.range.stop →
      (r.script.Reliable ∨ (∃ offset fault, r.script.FailsFrom offset fault) ∨
        ∀ move target, ∃ fault, r.script.refusal move target = some fault) →
      ((c.readFrom r).1.map (.of algorithm) =
          (r.signature (some c.range.start) (some c.range.stop) algorithm blockSize).1 ↔
        ¬(c.Oversized r.data ∧ (r.moveTo c.range.start).1 = .ok ())) ∧
      (c.Oversized r.data → (r.moveTo c.range.start).1 = .ok () →
        (c.readFrom r).1 = .error (.panic "capacity overflow")) := by
  refine ⟨fun reliable => ⟨fun start stop ordered => ?_, fun start => ?_⟩, fun start stop reversed => ?_,
    fun start stop ordered σ f block acc => ?_,
    fun c ordered reads => ⟨⟨fun same => ?_, fun held => ?_⟩, fun oversized moved => c.readFrom_oversized moved oversized⟩⟩
  · have inOrder : ∀ last, some stop = some last → start ≤ last := fun _ same => Option.some.inj same ▸ ordered
    have empty : stop ≤ start ↔ start = stop := ⟨fun le => Nat.le_antisymm ordered le, fun same => Nat.le_of_eq same.symm⟩
    rw [signature_of_reliable reliable inOrder, Bytes.range?_some]
    simp only [empty]
    split <;> rfl
  · exact signature_of_reliable reliable (by simp) algorithm blockSize
  · unfold signature
    simp [reversed]
  · exact foldCounted_eq f block start stop 0 acc r ordered
  · intro ⟨oversized, moved⟩
    rw [c.readFrom_oversized moved oversized] at same
    exact signature_ne_panic _ _ _ _ _ _ same.symm
  · exact c.signature_readFrom r ordered held (reads.imp_left fun reliable => reliable.givesBefore) algorithm blockSize

/-- Six bytes, read two at a time: a range that ends after them is refused by either, a range whose last
byte is where the device is gone fails for either, and one that ends there is hashed as it is read. -/
theorem signature_spec_short :
    let script := (Script.plain.short 2).interrupted 1
    let gone := Fault.other "device gone"
    let r := Reader.of (Bytes.ofText "abcdef") script
    let broken := Reader.of (Bytes.ofText "abcdef") (script.failingFrom 4 gone)
    let chunk : Nat → Chunk := fun stop => ⟨⟨["x"]⟩, .bytes 1 stop, ⟨.sha256, []⟩⟩
    script.Reliable ∧ (script.failingFrom 4 gone).FailsFrom 4 gone ∧
      (r.signature (some 1) (some 9) .sha256 0).1 = .error (.truncated 1 9 5) ∧
      ((chunk 9).readFrom r).1.map (.of .sha256) = (r.signature (some 1) (some 9) .sha256 0).1 ∧
      ((chunk 5).readFrom broken).1.map (.of .sha256) = (broken.signature (some 1) (some 5) .sha256 0).1 ∧
      ((chunk 5).readFrom broken).1 = .error (.io gone) ∧
      ((chunk 4).readFrom broken).1.map (.of .sha256) = (broken.signature (some 1) (some 4) .sha256 0).1 ∧
      ((chunk 4).readFrom broken).1 = .ok (Bytes.ofText "bcd") := by
  intro script gone r broken chunk
  have reliable : script.Reliable := (Script.reliable_plain.short (by decide)).interrupted 1
  have fails : (script.failingFrom 4 gone).FailsFrom 4 gone := reliable.failingFrom 4 gone
  obtain ⟨hashed, -, -, agree⟩ := signature_spec r .sha256 0
  obtain ⟨-, -, -, agreeBroken⟩ := signature_spec broken .sha256 0
  have held (stop : Nat) (small : stop < 10) (data : Bytes) : ¬(chunk stop).Oversized data := fun oversized => by
    have long : capacityMax < stop - 1 := oversized.1
    simp only [capacityMax] at long
    omega
  refine ⟨reliable, fails, ?_, (agree (chunk 9) (by decide) (.inl reliable)).1.2 (held 9 (by decide) _ ·.1),
    (agreeBroken (chunk 5) (by decide) (.inr (.inl ⟨4, gone, fails⟩))).1.2 (held 5 (by decide) _ ·.1), ?_,
    (agreeBroken (chunk 4) (by decide) (.inr (.inl ⟨4, gone, fails⟩))).1.2 (held 4 (by decide) _ ·.1), ?_⟩
  · rw [(hashed reliable).1 1 9 (by decide), if_neg (by decide +kernel)]
    rfl
  · refine (chunk 5).readFrom_fails rfl (held 5 (by decide) _) fails ?_
    rintro (⟨n, ⟨⟩, zero | fits⟩ | ⟨-, ends⟩)
    · exact absurd zero (by decide)
    · exact absurd fits (by decide)
    · exact absurd ends (by decide +kernel)
  · rw [(chunk 4).readFrom_gives rfl (held 4 (by decide) _) fails.givesBefore (.inl ⟨3, rfl, .inr (by decide)⟩)]
    rfl

/-- **A range may be hashed and not read**: of three bytes, the longest range there is. Its
signature is refused, as the source ends inside it; but to read it stops the program. -/
theorem readFrom_ne_signature :
    let c : Chunk := ⟨⟨["x"]⟩, .bytes 0 0xFFFFFFFFFFFFFFFF, ⟨.sha256, []⟩⟩
    let r := Reader.of (Bytes.ofText "abc") .plain
    r.script.Reliable ∧ c.range.start ≤ c.range.stop ∧
      (r.signature (some c.range.start) (some c.range.stop) .sha256 defaultBlock).1 =
        .error (.truncated c.range.start c.range.stop 3) ∧
      (c.readFrom r).1 = .error (.panic "capacity overflow") := by
  intro c r
  have ordered : ∀ last, some c.range.stop = some last → c.range.start ≤ last := fun _ _ => Nat.zero_le _
  refine ⟨Script.reliable_plain, by decide, ?_, c.readFrom_oversized rfl (by decide +kernel)⟩
  rw [signature_of_reliable Script.reliable_plain ordered]
  rfl

end Reader

end ContentChunks
