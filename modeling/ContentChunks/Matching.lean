/-
Matching two sequences. A block is a row of tokens that stands in both; the
matching blocks of two sequences are found by taking the longest common row of
a window, and then the windows before and after it. The similarity of two
sequences counts the tokens in the blocks, and one more for each block. Main
statement: a longest row lies in its window (`longest_within`), so that the
windows left over are smaller.
-/
import ContentChunks.Matching.TokenIndex
import ContentChunks.Order

namespace ContentChunks

/-- A row of tokens that stands in two sequences. -/
structure Block where
  aStart : Nat
  bStart : Nat
  length : Nat
deriving DecidableEq, Repr

/-- Blocks are ordered by their place in the first sequence, then in the second. -/
instance : Ord Block where
  compare x y :=
    (compare x.aStart y.aStart).then ((compare x.bStart y.bStart).then (compare x.length y.length))

/-- A stretch of each of two sequences, their ends not included. -/
structure Window where
  aStart : Nat
  aStop : Nat
  bStart : Nat
  bStop : Nat
deriving DecidableEq, Repr

namespace Window

/-- The part of a window before a block. -/
def before (w : Window) (m : Block) : Window := ⟨w.aStart, m.aStart, w.bStart, m.bStart⟩

/-- The part of a window after a block. -/
def after (w : Window) (m : Block) : Window := ⟨m.aStart + m.length, w.aStop, m.bStart + m.length, w.bStop⟩

/-- What is left to search in a window: both its parts are smaller together. -/
def work (w : Window) : Nat := 2 * (w.aStop - w.aStart) + 1

/-- What is left to search in some windows. -/
def workOf : List Window → Nat
  | [] => 0
  | w :: rest => w.work + workOf rest

end Window

namespace Matching

variable {α : Type} [DecidableEq α]

/-! ## The longest common row -/

/-- How many tokens up to the one before a place agree with those before the token at
hand, if `lengths` tells it of the places where some do. -/
def lengthBefore (lengths : List (Nat × Nat)) : Nat → Nat
  | 0 => 0
  | place + 1 => (lengths.lookup place).getD 0

/-- The places of the token at hand, each with how many tokens up to there agree. -/
def nextLengths (lengths : List (Nat × Nat)) (places : List Nat) : List (Nat × Nat) :=
  places.map fun place => (place, lengthBefore lengths place + 1)

/-- The block of as many tokens as agree up to two places, if it is longer. -/
def longer (i : Nat) (best : Block) (found : Nat × Nat) : Block :=
  if best.length < found.2 then ⟨i + 1 - found.2, found.1 + 1 - found.2, found.2⟩ else best

/-- Searches the tokens from place `i` on for a block that is longer than `best`. -/
def longestFrom (index : TokenIndex α) (bStart bStop : Nat) : Nat → List α → List (Nat × Nat) → Block → Block
  | _, [], _, best => best
  | i, t :: rest, lengths, best =>
    let lengths := nextLengths lengths (index.placesIn t bStart bStop)
    longestFrom index bStart bStop (i + 1) rest lengths (lengths.foldl (longer i) best)

/-- The longest common row of a window of `a` and the sequence of an index: of several the
one that starts first in `a`, then the one that starts first in the other. -/
def longest (a : List α) (index : TokenIndex α) (w : Window) : Block :=
  longestFrom index w.bStart w.bStop w.aStart ((a.drop w.aStart).take (w.aStop - w.aStart)) []
    ⟨w.aStart, w.bStart, 0⟩

theorem lengthBefore_le {lengths : List (Nat × Nat)} {n : Nat} (short : ∀ found ∈ lengths, found.2 ≤ n) (place : Nat) :
    lengthBefore lengths place ≤ n := by
  cases place with
  | zero => exact Nat.zero_le n
  | succ place =>
    rw [lengthBefore]
    cases known : lengths.lookup place with
    | none => exact Nat.zero_le n
    | some length =>
      obtain ⟨before, after, rfl, -⟩ := List.lookup_eq_some_iff.1 known
      exact short (place, length) (by simp)

theorem le_of_mem_nextLengths {lengths : List (Nat × Nat)} {places : List Nat} {n : Nat}
    (short : ∀ found ∈ lengths, found.2 ≤ n) {found : Nat × Nat} (mem : found ∈ nextLengths lengths places) :
    found.2 ≤ n + 1 := by
  obtain ⟨place, -, rfl⟩ := List.mem_map.1 mem
  exact Nat.succ_le_succ (lengthBefore_le short place)

theorem foldl_longer_within {lo i : Nat} (found : List (Nat × Nat)) (best : Block)
    (hf : ∀ x ∈ found, lo + x.2 ≤ i + 1) (h1 : lo ≤ best.aStart) (h2 : best.aStart + best.length ≤ i + 1) :
    lo ≤ (found.foldl (longer i) best).aStart ∧
      (found.foldl (longer i) best).aStart + (found.foldl (longer i) best).length ≤ i + 1 := by
  induction found generalizing best with
  | nil => exact ⟨h1, h2⟩
  | cons x rest ih =>
    simp only [List.foldl_cons]
    have hx := hf x (by simp)
    apply ih _ (fun y hy => hf y (by simp [hy]))
    · unfold longer; split
      · simp; omega
      · exact h1
    · unfold longer; split
      · simp; omega
      · exact h2

theorem longestFrom_within {lo : Nat} (index : TokenIndex α) (bStart bStop i : Nat) (rest : List α)
    (lengths : List (Nat × Nat)) (best : Block) (hi : lo ≤ i) (short : ∀ x ∈ lengths, x.2 ≤ i - lo)
    (h1 : lo ≤ best.aStart) (h2 : best.aStart + best.length ≤ i) :
    lo ≤ (longestFrom index bStart bStop i rest lengths best).aStart ∧
      (longestFrom index bStart bStop i rest lengths best).aStart +
        (longestFrom index bStart bStop i rest lengths best).length ≤ i + rest.length := by
  induction rest generalizing i lengths best with
  | nil => exact ⟨h1, h2⟩
  | cons t rest ih =>
    simp only [longestFrom, List.length_cons]
    have next : ∀ x ∈ nextLengths lengths (index.placesIn t bStart bStop), x.2 ≤ i + 1 - lo := fun x hx => by
      have := le_of_mem_nextLengths short hx
      omega
    have fits : ∀ x ∈ nextLengths lengths (index.placesIn t bStart bStop), lo + x.2 ≤ i + 1 := fun x hx => by
      have := next x hx
      omega
    have hw := foldl_longer_within _ best fits h1 (by omega)
    have := ih (i + 1) _ _ (by omega) next hw.1 hw.2
    exact ⟨this.1, by omega⟩

/-- A longest common row lies in its window. -/
theorem longest_within (a : List α) (index : TokenIndex α) (w : Window) (h : 0 < (longest a index w).length) :
    w.aStart ≤ (longest a index w).aStart ∧
      (longest a index w).aStart + (longest a index w).length ≤ w.aStop := by
  unfold longest at h ⊢
  have := longestFrom_within index w.bStart w.bStop w.aStart ((a.drop w.aStart).take (w.aStop - w.aStart)) []
    ⟨w.aStart, w.bStart, 0⟩ (Nat.le_refl _) (by simp) (Nat.le_refl _) (Nat.le_refl _)
  simp only [List.length_take, List.length_drop] at this
  omega

/-! ## Blocks -/

/-- The longest common rows of some windows and of what they leave over. -/
def searchIn (a : List α) (index : TokenIndex α) : List Window → List Block
  | [] => []
  | w :: rest =>
    if (longest a index w).length = 0 then searchIn a index rest
    else longest a index w ::
      searchIn a index (w.after (longest a index w) :: w.before (longest a index w) :: rest)
termination_by windows => Window.workOf windows
decreasing_by
  · simp [Window.workOf, Window.work]
  · rename_i h
    have := longest_within a index w (by omega)
    simp only [Window.workOf, Window.work, Window.before, Window.after]
    omega

/-- What is found in some windows of two sequences. -/
def search (a b : List α) (windows : List Window) : List Block := searchIn a (.of b) windows

/-- Makes one block of blocks that follow each other in both sequences. -/
def joinOnto (last : Block) : List Block → List Block
  | [] => [last]
  | m :: rest =>
    if last.aStart + last.length = m.aStart ∧ last.bStart + last.length = m.bStart then
      joinOnto { last with length := last.length + m.length } rest
    else last :: joinOnto m rest

/-- Makes one block of blocks that follow each other in both sequences. -/
def join : List Block → List Block
  | [] => []
  | m :: rest => joinOnto m rest

/-- The matching blocks of two sequences, in order. -/
def blocks (a b : List α) : List Block :=
  join (sorted (search a b [⟨0, a.length, 0, b.length⟩]))

/-- The greatest score there is. -/
def scoreLimit : Nat := 0xFFFFFFFF

/-- What some blocks count: each its tokens and one more. -/
def weight : List Block → Nat
  | [] => 0
  | m :: rest => m.length + 1 + weight rest

/-- How similar two sequences are: what their matching blocks count. -/
def similarity (a b : List α) : Nat := min scoreLimit (weight (blocks a b))

end Matching

end ContentChunks
