/-
What a search for the longest common row of a window looks at: the pairs of equal tokens
in the window, each with how many tokens agree up to there. The row that is found is the
first of the longest that were looked at, and all that is looked at lies in the window, so
no row could start before it.

Main statements:
- `longest_eq_foldl`: a search takes the first longest row of those that it looks at.
- `mem_looks`: which pairs of places it looks at.
- `longest_in_window`: it finds the longest common row of any window, within the window.
-/
import ContentChunks.Proofs.Decomposing

namespace ContentChunks.Matching

/-- A pair of places that is looked at, and how many tokens up to there agree. -/
structure Look where
  aPlace : Nat
  bPlace : Nat
  length : Nat
deriving DecidableEq, Repr

variable {α : Type} [DecidableEq α] {a b : List α} {w : Window}

/-- What a search looks at from place `i` on, in order. -/
def looksFrom (index : TokenIndex α) (bStart bStop : Nat) : Nat → List α → List (Nat × Nat) → List Look
  | _, [], _ => []
  | i, t :: rest, lengths =>
    let lengths := nextLengths lengths (index.placesIn t bStart bStop)
    lengths.map (fun found => ⟨i, found.1, found.2⟩) ++ looksFrom index bStart bStop (i + 1) rest lengths

/-- What the search of a window looks at. -/
def looks (a : List α) (index : TokenIndex α) (w : Window) : List Look :=
  looksFrom index w.bStart w.bStop w.aStart ((a.drop w.aStart).take (w.aStop - w.aStart)) []

/-- The row that ends with what is looked at, if it is longer. -/
def Look.longer (best : Block) (l : Look) : Block := Matching.longer l.aPlace best (l.bPlace, l.length)

theorem longestFrom_eq_foldl (index : TokenIndex α) (bStart bStop i : Nat) (rest : List α) (lengths : List (Nat × Nat))
    (best : Block) : longestFrom index bStart bStop i rest lengths best =
      (looksFrom index bStart bStop i rest lengths).foldl Look.longer best := by
  induction rest generalizing i lengths best with
  | nil => rfl
  | cons t rest ih =>
    rw [longestFrom, looksFrom, ih, List.foldl_append, List.foldl_map]
    rfl

/-- **A search takes the first longest row** of those that it looks at. -/
theorem longest_eq_foldl (a : List α) (index : TokenIndex α) (w : Window) :
    longest a index w = (looks a index w).foldl Look.longer ⟨w.aStart, w.bStart, 0⟩ :=
  longestFrom_eq_foldl ..

theorem mem_looksFrom (bound : w.aStop ≤ a.length) {i : Nat} {rest : List α} {lengths : List (Nat × Nat)}
    (counted : Counted a b w i lengths) (lo : w.aStart ≤ i) (isRest : rest = (a.drop i).take (w.aStop - i)) {l : Look} :
    l ∈ looksFrom (.of b) w.bStart w.bStop i rest lengths ↔ i ≤ l.aPlace ∧ l.aPlace < w.aStop ∧
      w.bStart ≤ l.bPlace ∧ l.bPlace < w.bStop ∧ 0 < l.length ∧
        l.length = ending a b w.aStart w.bStart (l.aPlace + 1) (l.bPlace + 1) := by
  induction rest generalizing i lengths with
  | nil =>
    have past := le_of_stretch_nil bound isRest
    refine iff_of_false List.not_mem_nil fun within => ?_
    omega
  | cons t rest ih =>
    obtain ⟨within, token, isRest⟩ := stretch_cons bound isRest
    have next := counted.next lo token
    rw [looksFrom, List.mem_append, ih next (Nat.le_succ_of_le lo) isRest, List.mem_map]
    obtain ⟨x, y, n⟩ := l
    constructor
    · intro seen
      obtain ⟨found, mem, here⟩ | later := seen
      · obtain ⟨rfl, rfl, rfl⟩ := Look.mk.inj here
        exact ⟨Nat.le_refl _, within, (next.mem_iff found).1 mem⟩
      · exact ⟨Nat.le_of_succ_le later.1, later.2⟩
    · intro known
      obtain ⟨onward, known⟩ := known
      by_cases here : x = i
      · subst here
        exact .inl ⟨(y, n), (next.mem_iff (y, n)).2 known.2, rfl⟩
      · exact .inr ⟨by simp only at onward ⊢; omega, known⟩

/-- **A search looks at the pairs of equal tokens** in its window, and counts how many tokens agree up to each. -/
theorem mem_looks (inside : Inside a b w) {l : Look} :
    l ∈ looks a (.of b) w ↔ w.aStart ≤ l.aPlace ∧ l.aPlace < w.aStop ∧ w.bStart ≤ l.bPlace ∧ l.bPlace < w.bStop ∧
      0 < l.length ∧ l.length = ending a b w.aStart w.bStart (l.aPlace + 1) (l.bPlace + 1) :=
  mem_looksFrom inside.a_within (counted_start a b w) (Nat.le_refl _) rfl

/-- Whether what is looked at is a common row of a window. Neither of its starts is taken
from less than there is. -/
structure Look.Within (a b : List α) (w : Window) (l : Look) : Prop where
  filled : 0 < l.length
  a_start : w.aStart + l.length ≤ l.aPlace + 1
  a_stop : l.aPlace < w.aStop
  b_start : w.bStart + l.length ≤ l.bPlace + 1
  b_stop : l.bPlace < w.bStop
  same : ∀ k < l.length, a[l.aPlace - k]? = b[l.bPlace - k]?

theorem within_of_mem_looks (inside : Inside a b w) {l : Look} (mem : l ∈ looks a (.of b) w) : l.Within a b w := by
  obtain ⟨aStart, aStop, bStart, bStop, filled, counted⟩ := (mem_looks inside).1 mem
  obtain ⟨aEnd, bEnd, same⟩ := ending_spec (a := a) (b := b) (l.aPlace + 1) (l.bPlace + 1) (Nat.le_succ_of_le aStart)
    (Nat.le_succ_of_le bStart)
  rw [← counted] at aEnd bEnd same
  refine ⟨filled, aEnd, aStop, bEnd, bStop, fun k hk => ?_⟩
  have agree := same (l.length - 1 - k) (by omega)
  rwa [(by omega : l.aPlace + 1 - l.length + (l.length - 1 - k) = l.aPlace - k),
    (by omega : l.bPlace + 1 - l.length + (l.length - 1 - k) = l.bPlace - k)] at agree

theorem exists_look (inside : Inside a b w) {i j : Nat} (aStart : w.aStart ≤ i) (aStop : i < w.aStop)
    (bStart : w.bStart ≤ j) (bStop : j < w.bStop) (same : a[i]? = b[j]?) :
    ∃ l ∈ looks a (.of b) w, l.aPlace = i ∧ l.bPlace = j := by
  refine ⟨⟨i, j, ending a b w.aStart w.bStart (i + 1) (j + 1)⟩, ?_, rfl, rfl⟩
  refine (mem_looks inside).2 ⟨aStart, aStop, bStart, bStop, ?_, rfl⟩
  simp only [ending, if_pos (And.intro aStart (And.intro bStart same))]
  exact Nat.succ_pos _

omit [DecidableEq α] in
theorem IsLongest.eq_of_apart {m : Block} (h : IsLongest a b w m) (inside : Inside a b w) (apart : Apart a b w) :
    m = ⟨w.aStart, w.bStart, 0⟩ := by
  have leads := h.leads _ (found_start inside)
  obtain ⟨⟨aStart, bStart, aStop, bStop, same⟩, -⟩ := h
  obtain ⟨x, y, n⟩ := m
  cases n with
  | zero =>
    simp only [Leads, Block.mk.injEq, true_and, and_true] at leads aStart bStart ⊢
    omega
  | succ n =>
    simp only at aStart bStart aStop bStop same
    exact absurd (same 0 (Nat.succ_pos n)) (apart x y aStart (by omega) bStart (by omega))

/-- **The longest common row of any window is found**, and by what is in the window alone.
What is found is a common row within the window, the longest, and of several the first in
the one sequence and then in the other; where no tokens agree, it is empty and at the
start. To find it, each pair of equal tokens of the window is looked at and nothing else,
and no row that is looked at reaches back beyond the window. -/
theorem longest_in_window (inside : Inside a b w) :
    (∀ m, IsLongest a b w m ↔ m = longest a (.of b) w) ∧
      (Apart a b w → longest a (.of b) w = ⟨w.aStart, w.bStart, 0⟩) ∧
      longest a (.of b) w = (looks a (.of b) w).foldl Look.longer ⟨w.aStart, w.bStart, 0⟩ ∧
      (∀ l ∈ looks a (.of b) w, l.Within a b w) ∧
      ∀ i j, w.aStart ≤ i → i < w.aStop → w.bStart ≤ j → j < w.bStop → a[i]? = b[j]? →
        ∃ l ∈ looks a (.of b) w, l.aPlace = i ∧ l.bPlace = j := by
  have longest := longest_isLongest inside
  refine ⟨fun m => ⟨fun other => other.unique longest, fun same => same ▸ longest⟩, longest.eq_of_apart inside,
    longest_eq_foldl a (.of b) w, fun l mem => within_of_mem_looks inside mem, ?_⟩
  intro i j aStart aStop bStart bStop same
  exact exists_look inside aStart aStop bStart bStop same

/-- Two rows of two tokens in a window of repeated tokens: the one that starts first is found. -/
theorem longest_in_window_repeated :
    let a := [1, 2, 3, 1, 2, 3]
    let w : Window := ⟨3, 6, 1, 5⟩
    Inside a a w ∧ longest a (.of a) w = ⟨3, 3, 2⟩ ∧
      looks a (.of a) w = [⟨3, 3, 1⟩, ⟨4, 1, 1⟩, ⟨4, 4, 2⟩, ⟨5, 2, 2⟩] ∧ IsLongest a a w ⟨3, 3, 2⟩ ∧
      ∀ l ∈ looks a (.of a) w, l.Within a a w := by
  intro a w
  have inside : Inside a a w := ⟨by decide, by decide, by decide, by decide⟩
  have found : longest a (.of a) w = ⟨3, 3, 2⟩ := by decide
  have all := longest_in_window inside
  exact ⟨inside, found, by decide, (all.1 _).2 found.symm, all.2.2.2.1⟩

end ContentChunks.Matching
