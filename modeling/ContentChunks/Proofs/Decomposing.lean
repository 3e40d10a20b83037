/-
The matching blocks of two sequences are those of a plain recursion: take the
longest common row of a window, the first of several, then go on with the
windows before it and after it (`Decomposes`, which tells the row by what it is
and not by how it is searched for).

What is searched for in a stack of windows and sorted afterwards is the same in
another order. Joining finds nothing to join: a row that goes on where the
longest one begins, or begins where that ends, would make it longer.

Main statements:
- `longest_isLongest`: what is searched for in a window is its longest common row.
- `Decomposes.unique`, `decomposes_decompose`: a window decomposes in one way, the way it is searched.
- `blocks_decomposes`: the matching blocks are what both sequences decompose into.
-/
import ContentChunks.Proofs.Aligning
import Mathlib.Data.List.Chain

namespace ContentChunks.Matching

variable {α : Type} {a b : List α} {w : Window} {m x : Block} {ms ns : List Block}

/-! ## The longest common row of a window -/

/-- Whether a block is the longest common row of a window: of several the one that
starts first in the first sequence, then the one that starts first in the second. -/
structure IsLongest (a b : List α) (w : Window) (m : Block) : Prop extends Found a b w m where
  leads : ∀ x, Found a b w x → Leads m x

theorem IsLongest.unique {m' : Block} (h : IsLongest a b w m) (h' : IsLongest a b w m') : m = m' := by
  have leads := h.leads m' h'.toFound
  have leads' := h'.leads m h.toFound
  obtain ⟨_, _, _⟩ := m
  obtain ⟨_, _, _⟩ := m'
  simp only [Leads, Block.mk.injEq] at *
  omega

/-- **No common row goes on where the longest begins**, nor begins where it ends. -/
theorem IsLongest.not_follows (h : IsLongest a b w m) (filled : 0 < x.length) :
    (Found a b (w.before m) x → ¬Follows x m) ∧ (Found a b (w.after m) x → ¬Follows m x) := by
  -- with the row that goes on, the longest one would be one longer common row of the window
  refine ⟨fun front follows => ?_, fun back follows => ?_⟩
  · have inner : Found a b (w.after x) m :=
      ⟨Nat.le_of_eq follows.1, Nat.le_of_eq follows.2, h.a_stop, h.b_stop, h.same⟩
    have longer := (h.leads _ ((h.toFound.of_before front).joined inner follows)).length_le
    simp only at longer
    omega
  · have longer := (h.leads _ (h.toFound.joined back follows)).length_le
    simp only at longer
    omega

section

variable [DecidableEq α]

theorem Found.le_ending (found : Found a b w x) :
    x.length ≤ ending a b w.aStart w.bStart (x.aStart + x.length) (x.bStart + x.length) := by
  obtain ⟨i, j, n⟩ := x
  obtain ⟨aStart, bStart, -, -, same⟩ := found
  simp only at aStart bStart same ⊢
  induction n with
  | zero => exact Nat.zero_le _
  | succ n ih =>
    have before := ih fun k hk => same k (Nat.lt_succ_of_lt hk)
    rw [← Nat.add_assoc, ← Nat.add_assoc, ending, if_pos ⟨by omega, by omega, same n (Nat.lt_succ_self n)⟩]
    exact Nat.succ_le_succ before

theorem Found.leads_of_rowEnding (found : Found a b w x)
    (h : Leads m (rowEnding a b w (x.aStart + x.length) (x.bStart + x.length))) : Leads m x := by
  have short := found.le_ending
  unfold Leads rowEnding at *
  simp only at h
  omega

/-- **What is searched for in a window** is its longest common row, the first of several. -/
theorem longest_isLongest (inside : Inside a b w) : IsLongest a b w (longest a (.of b) w) where
  toFound := (longest_spec inside).found
  leads x found := by
    have := found.a_start
    have := found.b_start
    exact found.leads_of_rowEnding
      ((longest_spec inside).leads _ _ (by omega) found.a_stop (by omega) found.b_stop)

end

/-! ## Decompositions -/

/-- What a window decomposes into: nothing where no token is common, else what the
window before its longest common row decomposes into, that row, and what the window
after it decomposes into. -/
inductive Decomposes (a b : List α) : Window → List Block → Prop where
  | empty {w : Window} {m : Block} : IsLongest a b w m → m.length = 0 → Decomposes a b w []
  | split {w : Window} {m : Block} {ms ns : List Block} : IsLongest a b w m → 0 < m.length →
      Decomposes a b (w.before m) ms → Decomposes a b (w.after m) ns → Decomposes a b w (ms ++ m :: ns)

/-- A window decomposes in one way only. -/
theorem Decomposes.unique (h : Decomposes a b w ms) (h' : Decomposes a b w ns) : ms = ns := by
  induction h generalizing ns with
  | empty longest zero =>
    cases h' with
    | empty => rfl
    | split longest' filled =>
      rw [longest.unique longest'] at zero
      exact absurd zero (Nat.ne_of_gt filled)
  | split longest filled _ _ front back =>
    cases h' with
    | empty longest' zero =>
      rw [longest'.unique longest] at zero
      exact absurd zero (Nat.ne_of_gt filled)
    | split longest' _ front' back' =>
      obtain rfl := longest.unique longest'
      rw [front front', back back']

theorem Decomposes.found (h : Decomposes a b w ms) : ∀ x ∈ ms, 0 < x.length ∧ Found a b w x := by
  induction h with
  | empty => simp
  | split longest filled _ _ front back =>
    intro x mem
    obtain mem | rfl | mem := List.mem_append.1 mem |>.imp_right List.mem_cons.1
    · exact ⟨(front x mem).1, longest.toFound.of_before (front x mem).2⟩
    · exact ⟨filled, longest.toFound⟩
    · exact ⟨(back x mem).1, longest.toFound.of_after (back x mem).2⟩

/-- No block before the longest row of a window ends where that begins, and none after it begins where it ends. -/
theorem IsLongest.apart (h : IsLongest a b w m) (front : Decomposes a b (w.before m) ms)
    (back : Decomposes a b (w.after m) ns) : (∀ x ∈ ms, ¬Follows x m) ∧ ∀ x ∈ ns, ¬Follows m x := by
  refine ⟨fun x mem => ?_, fun x mem => ?_⟩
  · obtain ⟨filled, found⟩ := front.found x mem
    exact (h.not_follows filled).1 found
  · obtain ⟨filled, found⟩ := back.found x mem
    exact (h.not_follows filled).2 found

theorem Decomposes.separate (h : Decomposes a b w ms) : ms.IsChain fun x y => ¬Follows x y := by
  induction h with
  | empty => exact .nil
  | @split w m ms ns longest filled front back ihFront ihBack =>
    obtain ⟨before, after⟩ := longest.apart front back
    refine List.isChain_append.2 ⟨ihFront, ?_, fun x last y first => ?_⟩
    · refine List.isChain_cons.2 ⟨fun y first => after y (List.mem_of_mem_head? first), ihBack⟩
    · rw [List.head?_cons, Option.mem_some] at first
      exact first ▸ before x (List.mem_of_getLast? last)

/-! ## Joining -/

theorem joinOnto_of_separate (h : (m :: ms).IsChain fun x y => ¬Follows x y) : joinOnto m ms = m :: ms := by
  induction ms generalizing m with
  | nil => rfl
  | cons x ms ih =>
    obtain ⟨apart, rest⟩ := List.isChain_cons_cons.1 h
    rw [joinOnto, ih rest]
    exact if_neg apart

/-- Where no block goes on where the one before it ends, there is nothing to join. -/
theorem join_of_separate (h : ms.IsChain fun x y => ¬Follows x y) : join ms = ms := by
  cases ms with
  | nil => rfl
  | cons m ms => exact joinOnto_of_separate h

variable [DecidableEq α]

/-- What a window is searched for is what it decomposes into. -/
theorem decomposes_decompose (inside : Inside a b w) : Decomposes a b w (decompose a b w) := by
  fun_induction decompose a b w with
  | case1 w zero => exact .empty (longest_isLongest inside) zero
  | case2 w filled before after =>
    have longest := longest_isLongest inside
    exact .split longest (Nat.pos_of_ne_zero filled) (before (longest.toFound.before inside))
      (after (longest.toFound.after inside))

/-- **The matching blocks of two sequences** are what both decompose into, and
that only. Putting in order what is found in the stack of windows gives them
already: joining joins nothing, since in no window a block before the longest row
ends where the row begins, or one after it begins where it ends. -/
theorem blocks_decomposes (a b : List α) :
    (∀ ms, Decomposes a b (whole a b) ms ↔ ms = blocks a b) ∧
      sorted (search a b [whole a b]) = blocks a b ∧
      ∀ w m ms ns, IsLongest a b w m → Decomposes a b (w.before m) ms → Decomposes a b (w.after m) ns →
        (∀ x ∈ ms, ¬Follows x m) ∧ ∀ x ∈ ns, ¬Follows m x := by
  have decomposes := decomposes_decompose (inside_whole a b)
  have joined : blocks a b = decompose a b (whole a b) := by
    rw [blocks_eq_join, join_of_separate decomposes.separate]
  refine ⟨fun ms => ⟨fun h => ?_, ?_⟩, (sorted_search a b).trans joined.symm,
    fun w m ms ns longest front back => longest.apart front back⟩
  · rw [joined]
    exact h.unique decomposes
  · intro same
    rw [same, joined]
    exact decomposes

end ContentChunks.Matching
