/-
Readers: sources of bytes with a position, read in pieces. A read may give
fewer bytes than it was asked for, may be interrupted and is then tried again,
and may fail; so may a move to another position. How a reader behaves is
written down beforehand in its script, call by call. Main statements: filling
a block gives the bytes at the position (`fill_ok`) and moves on by as many.
-/
import ContentChunks.Error

namespace ContentChunks

/-- The answer to a read. -/
inductive Reply where
  /-- So many bytes at most; with none of them the source seems to end. -/
  | upTo (count : Nat)
  | fail (fault : Fault)

/-- How a reader answers. -/
structure Script where
  /-- How often the read with the given number is interrupted before its answer. -/
  interruptions : Nat → Nat
  /-- The answer to the read with the given number at a position for so many bytes. -/
  reply : (read position wanted : Nat) → Reply
  /-- Why the move with the given number to a position is refused. -/
  refusal : (move target : Nat) → Option Fault

namespace Script

/-- Every read gives all it is asked for, every move succeeds. -/
def plain : Script := ⟨fun _ => 0, fun _ _ wanted => .upTo wanted, fun _ _ => none⟩

/-- A read gives `most` bytes at most. -/
def short (most : Nat) (s : Script) : Script :=
  { s with
    reply := fun read position wanted =>
      match s.reply read position wanted with
      | .upTo count => .upTo (min most count)
      | .fail fault => .fail fault }

/-- Every read is interrupted `times` times before its answer. -/
def interrupted (times : Nat) (s : Script) : Script := { s with interruptions := fun _ => times }

/-- Reads at `offset` and after it fail, those before it stop there. -/
def failingFrom (offset : Nat) (fault : Fault) (s : Script) : Script :=
  { s with
    reply := fun read position wanted =>
      if offset ≤ position then .fail fault
      else match s.reply read position wanted with
        | .upTo count => .upTo (min (offset - position) count)
        | .fail fault => .fail fault }

/-- Every move is refused. -/
def immovable (fault : Fault) (s : Script) : Script := { s with refusal := fun _ _ => some fault }

end Script

/-- A source of bytes being read. -/
structure Reader where
  data : Bytes
  script : Script
  position : Nat
  /-- The bytes from the position on. -/
  ahead : Bytes
  ahead_eq : ahead = data.drop position
  /-- How many reads were answered. -/
  reads : Nat
  /-- How often the present read was interrupted. -/
  interrupted : Nat
  /-- How many moves were tried. -/
  moves : Nat

namespace Reader

/-- A reader at the beginning of its source. -/
def of (data : Bytes) (script : Script) : Reader := ⟨data, script, 0, data, rfl, 0, 0, 0⟩

/-- The reader at its position of other data, with another script. -/
def renew (r : Reader) (data : Bytes) (script : Script) : Reader :=
  { r with data, script, ahead := data.drop r.position, ahead_eq := rfl }

theorem drop_ahead (r : Reader) (count : Nat) : r.ahead.drop count = r.data.drop (r.position + count) := by
  rw [r.ahead_eq, List.drop_drop]

/-- The bytes from an offset on; forward of the position they are not counted
from the beginning. -/
def bytesFrom (r : Reader) (offset : Nat) : Bytes :=
  if r.position ≤ offset then r.ahead.drop (offset - r.position) else r.data.drop offset

theorem bytesFrom_eq (r : Reader) (offset : Nat) : r.bytesFrom offset = r.data.drop offset := by
  unfold bytesFrom
  split
  · rename_i h
    rw [drop_ahead, Nat.add_sub_cancel' h]
  · rfl

/-- The answer to the present read, for `wanted` bytes; no bytes mean the end
of the source. -/
def answer (r : Reader) (wanted : Nat) : Except Fault Bytes × Reader :=
  let r' := { r with reads := r.reads + 1, interrupted := 0 }
  match r.script.reply r.reads r.position wanted with
  | .fail fault => (.error fault, r')
  | .upTo count =>
    let bytes := r.ahead.take (min wanted count)
    (.ok bytes, { r' with
      position := r.position + bytes.length
      ahead := r.ahead.drop bytes.length
      ahead_eq := r.drop_ahead bytes.length })

/-- Reads up to `wanted` bytes: a call that is interrupted is made again until
it is answered. -/
def fill (r : Reader) (wanted : Nat) : Except Fault Bytes × Reader :=
  if r.interrupted < r.script.interruptions r.reads then
    fill { r with interrupted := r.interrupted + 1 } wanted
  else r.answer wanted
termination_by r.script.interruptions r.reads - r.interrupted

def moveTo (r : Reader) (target : Nat) : Except Fault Unit × Reader :=
  let r' := { r with moves := r.moves + 1 }
  match r.script.refusal r.moves target with
  | some fault => (.error fault, r')
  | none => (.ok (), { r' with
      position := target
      ahead := r.bytesFrom target
      ahead_eq := r.bytesFrom_eq target })

/-- Moves to the end and tells its offset. -/
def moveToEnd (r : Reader) : Except Fault Nat × Reader :=
  let (moved, r') := r.moveTo r.data.length
  (moved.map fun _ => r.data.length, r')

/-- Interruptions change nothing: filling gives the answer of the read. -/
theorem fill_eq_answer (r : Reader) (wanted : Nat) : r.fill wanted = r.answer wanted := by
  fun_induction fill r wanted with
  | case1 r h ih => rw [ih]; rfl
  | case2 r h => rfl

@[simp] theorem data_fill (r : Reader) (wanted : Nat) : (r.fill wanted).2.data = r.data := by
  rw [fill_eq_answer]; unfold answer; dsimp only; split <;> rfl

@[simp] theorem script_fill (r : Reader) (wanted : Nat) : (r.fill wanted).2.script = r.script := by
  rw [fill_eq_answer]; unfold answer; dsimp only; split <;> rfl

@[simp] theorem data_moveTo (r : Reader) (target : Nat) : (r.moveTo target).2.data = r.data := by
  unfold moveTo; dsimp only; split <;> rfl

@[simp] theorem script_moveTo (r : Reader) (target : Nat) : (r.moveTo target).2.script = r.script := by
  unfold moveTo; dsimp only; split <;> rfl

@[simp] theorem data_moveToEnd (r : Reader) : r.moveToEnd.2.data = r.data := by
  simp [moveToEnd]

theorem position_moveTo {r : Reader} {target : Nat} (h : (r.moveTo target).1 = .ok ()) :
    (r.moveTo target).2.position = target := by
  revert h; unfold moveTo; dsimp only; split <;> simp

/-- What filling gives are the bytes at the position, `wanted` at most, and the
reader moves on by as many. There are none only if none are wanted, the source
ends, or the answer seems to end it. -/
theorem fill_ok {r r' : Reader} {wanted : Nat} {bytes : Bytes} (h : r.fill wanted = (.ok bytes, r')) :
    bytes = (r.data.drop r.position).take bytes.length ∧ bytes.length ≤ wanted ∧
      r'.position = r.position + bytes.length ∧ r'.data = r.data ∧
      (bytes = [] → wanted = 0 ∨ r.data.length ≤ r.position ∨
        r.script.reply r.reads r.position wanted = .upTo 0) := by
  rw [fill_eq_answer] at h
  unfold answer at h
  dsimp only at h
  split at h
  · simp at h
  · rename_i count hc
    simp only [Prod.mk.injEq, Except.ok.injEq] at h
    obtain ⟨rfl, rfl⟩ := h
    refine ⟨?_, ?_, rfl, rfl, ?_⟩
    · rw [r.ahead_eq]; simp [List.take_eq_take_iff]
    · rw [List.length_take]; omega
    · intro h0
      have hl := congrArg List.length h0
      rw [List.length_take, r.ahead_eq, List.length_drop, List.length_nil] at hl
      rcases Nat.eq_zero_or_pos count with rfl | hpos
      · exact .inr (.inr hc)
      · omega

end Reader

end ContentChunks
