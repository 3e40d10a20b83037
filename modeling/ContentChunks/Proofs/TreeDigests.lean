/-
The tree digest of whole messages. A message is cut into chunks of 1024 bytes,
and the blocks of a chunk, 64 bytes each, are mixed in one after the other. The
chunks are the leaves of a tree: the left side of every node has the greatest
power of two of leaves that leaves some for the right side. A state that is fed
the message in any pieces keeps the complete subtrees and the chunk that it is
collecting, and tells the top of the same tree.

Main statements:
- `Chunk.leaf_feed`: a chunk that is fed its bytes has the leaf of the whole chunk.
- `join_pair`: the leaves of a tree may be joined two by two.
- `Stacked.push`, `Stacked.root`: the stack of subtrees keeps up with the leaves, and makes the top of their tree.
- `digest_feed`: the digest told is that of the whole message.
-/
import ContentChunks.Digest.Blake3
import ContentChunks.Proofs.BlockDigests

namespace ContentChunks.Digest.Blake3

open Base32 (rows rows_concat length_flatten_of_full)

/-! ## Filling rows -/

/-- Full rows and one that is being filled, which is empty only at the start. -/
structure Filling (size : Nat) (full : List Bytes) (last : Bytes) : Prop where
  filled : ∀ row ∈ full, row.length = size
  short : last.length ≤ size
  started : last = [] → full = []

namespace Filling

variable {size : Nat} {full : List Bytes} {last : Bytes}

theorem start (size : Nat) : Filling size [] [] := ⟨by simp, by simp, fun _ => rfl⟩

theorem more (h : Filling size full last) (room : last.length ≠ size) (b : UInt8) :
    Filling size full (last ++ [b]) := by
  have short := h.short
  refine ⟨h.filled, ?_, fun empty => absurd empty (List.concat_ne_nil _ _)⟩
  rw [List.length_append, List.length_singleton]
  omega

theorem next (h : Filling size full last) (pos : 0 < size) (ends : last.length = size) (b : UInt8) :
    Filling size (full ++ [last]) [b] where
  filled := List.forall_mem_append.2 ⟨h.filled, List.forall_mem_singleton.2 ends⟩
  short := pos
  started empty := absurd empty (List.cons_ne_nil _ _)

theorem rows_eq (h : Filling size full last) :
    rows size (full.flatten ++ last) = if last = [] then [] else full ++ [last] := by
  by_cases empty : last = []
  · rw [if_pos empty, h.started empty, empty]
    simp [rows]
  · rw [if_neg empty, rows_concat h.filled empty h.short]

end Filling

/-! ## Chunks -/

/-- A block of a chunk as a node, with its place among the blocks. -/
def blockNode (counter place : Nat) (chaining : Chaining) (block : Bytes) : Node :=
  ⟨chaining, words (block ++ List.replicate (64 - block.length) 0), counter, block.length,
    if place = 0 then chunkStart else 0⟩

/-- The value after blocks from the start of a chunk are mixed in one after the other. -/
def mixedIn (counter : Nat) (blocks : List Bytes) : Chaining :=
  blocks.zipIdx.foldl (fun chaining (block, place) => (blockNode counter place chaining block).value) initial

/-- The leaf of a whole chunk: all its blocks but the last are mixed in. A chunk of no bytes has an empty block. -/
def leafOf (counter : Nat) (data : Bytes) : Node :=
  let blocks := rows 64 data
  let last := blockNode counter (blocks.length - 1) (mixedIn counter blocks.dropLast) (blocks.getLastD [])
  { last with flags := last.flags ||| chunkEnd }

theorem mixedIn_concat (counter : Nat) (blocks : List Bytes) (block : Bytes) :
    mixedIn counter (blocks ++ [block]) =
      (blockNode counter blocks.length (mixedIn counter blocks) block).value := by
  simp [mixedIn, List.zipIdx_append]

namespace Chunk

/-- What is known of a chunk that has mixed in full blocks and collects another one. -/
structure Collects (counter : Nat) (full : List Bytes) (block : Bytes) (c : Chunk) : Prop where
  same : c = ⟨mixedIn counter full, counter, full.length, block.reverse, block.length⟩
  filling : Filling 64 full block

variable {counter : Nat} {full : List Bytes} {block : Bytes} {c : Chunk}

theorem Collects.node (h : Collects counter full block c) :
    c.node = blockNode counter full.length (mixedIn counter full) block := by
  rw [h.same]
  unfold Chunk.node blockNode
  rw [List.reverse_reverse]

theorem Collects.feed (h : Collects counter full block c) (b : UInt8) :
    ∃ full' block', Collects counter full' block' (c.feed b) ∧
      full'.flatten ++ block' = full.flatten ++ block ++ [b] := by
  have length : c.length = block.length := by rw [h.same]
  unfold Chunk.feed
  rw [length]
  by_cases ends : block.length = 64
  · rw [if_pos ends, h.node, ← mixedIn_concat, h.same]
    exact ⟨full ++ [block], [b], ⟨by simp, h.filling.next (by decide) ends b⟩, by simp⟩
  · rw [if_neg ends, h.same]
    exact ⟨full, block ++ [b], ⟨by simp, h.filling.more ends b⟩, by simp⟩

theorem collects_feed (counter : Nat) (data : Bytes) :
    ∃ full block, Collects counter full block (data.foldl Chunk.feed (start counter)) ∧
      full.flatten ++ block = data :=
  exists_rows_of_foldl ⟨rfl, .start 64⟩ Collects.feed data

/-- **A chunk that is fed its bytes has the leaf of the whole chunk.** -/
theorem leaf_feed (counter : Nat) (data : Bytes) :
    (data.foldl Chunk.feed (start counter)).leaf = leafOf counter data := by
  obtain ⟨full, block, collects, rfl⟩ := collects_feed counter data
  unfold leaf leafOf
  rw [collects.node, collects.filling.rows_eq]
  by_cases empty : block = []
  · rw [if_pos empty, collects.filling.started empty, empty]
    rfl
  · rw [if_neg empty]
    simp

@[simp] theorem counter_feed (counter : Nat) (data : Bytes) :
    (data.foldl Chunk.feed (start counter)).counter = counter := by
  obtain ⟨full, block, collects, -⟩ := collects_feed counter data
  rw [collects.same]

/-- A chunk is full with 1024 bytes. -/
theorem full_iff (counter : Nat) {data : Bytes} (short : data.length ≤ 1024) :
    (data.foldl Chunk.feed (start counter)).full = true ↔ data.length = 1024 := by
  obtain ⟨full, block, collects, same⟩ := collects_feed counter data
  have total : data.length = 64 * full.length + block.length := by
    rw [← same, List.length_append, length_flatten_of_full collects.filling.filled]
  have room := collects.filling.short
  have started : block.length = 0 → full.length = 0 := fun empty =>
    List.length_eq_zero_iff.2 (collects.filling.started (List.length_eq_zero_iff.1 empty))
  have small : 64 * full.length + block.length ≤ 1024 := total ▸ short
  rw [total, collects.same, Chunk.full, Bool.and_eq_true, beq_iff_eq, beq_iff_eq]
  dsimp only
  omega

end Chunk

/-! ## Trees -/

/-- The node above two subtrees. -/
def above (left right : Node) : Node := Node.parent left.value right.value

/-- The top of the tree over a row of leaves: its left side has the greatest power of two of them that leaves some for
the right side. The tree of no leaf is an empty chunk. -/
def join : List Node → Node
  | [] => leafOf 0 []
  | [leaf] => leaf
  | first :: second :: rest =>
    let left := 2 ^ (rest.length + 1).log2
    above (join ((first :: second :: rest).take left)) (join ((first :: second :: rest).drop left))
termination_by nodes => nodes.length
decreasing_by
  · have := Nat.log2_self_le (n := rest.length + 1) (by omega)
    simp only [List.length_take, List.length_cons]
    omega
  · have := Nat.two_pow_pos (rest.length + 1).log2
    simp only [List.length_drop, List.length_cons]
    omega

@[simp] theorem join_singleton (leaf : Node) : join [leaf] = leaf := by
  rw [join]

/-- A power of two of leaves and no more than as many others are the two sides of a tree. -/
theorem join_append {left right : List Node} {k : Nat} (power : left.length = 2 ^ k) (filled : right ≠ [])
    (fits : right.length ≤ 2 ^ k) : join (left ++ right) = above (join left) (join right) := by
  have pos := Nat.two_pow_pos k
  have more : 0 < right.length := List.length_pos_iff.2 filled
  have many : (left ++ right).length = 2 ^ k + right.length := by rw [List.length_append, power]
  match same : left ++ right with
  | [] => rw [same, List.length_nil] at many; omega
  | [leaf] => rw [same, List.length_singleton] at many; omega
  | first :: second :: rest =>
    rw [same, List.length_cons, List.length_cons] at many
    have split : (rest.length + 1).log2 = k := by
      rw [Nat.log2_eq_iff (by omega), Nat.pow_succ]
      omega
    rw [join, split, ← same, List.take_left' power, List.drop_left' power]

/-- Joins the nodes of a row two by two; the last one of an odd number stays. -/
def pair : List Node → List Node
  | [] => []
  | [node] => [node]
  | left :: right :: rest => above left right :: pair rest

theorem pair_append {left : List Node} (even : left.length % 2 = 0) (right : List Node) :
    pair (left ++ right) = pair left ++ pair right := by
  fun_induction pair left with
  | case1 => rfl
  | case2 => simp at even
  | case3 first second rest ih =>
    rw [List.length_cons, List.length_cons] at even
    rw [List.cons_append, List.cons_append, pair, ih (by omega), List.cons_append]

theorem length_pair (nodes : List Node) : (pair nodes).length = (nodes.length + 1) / 2 := by
  fun_induction pair nodes with
  | case1 => rfl
  | case2 => simp
  | case3 first second rest ih =>
    rw [List.length_cons, List.length_cons, List.length_cons, ih]
    omega

/-- Two leaves or more are a power of two of them and no more than as many others. -/
theorem exists_sides {nodes : List Node} (several : 2 ≤ nodes.length) :
    ∃ left right k, nodes = left ++ right ∧ left.length = 2 ^ k ∧ right ≠ [] ∧ right.length ≤ 2 ^ k := by
  have low := Nat.log2_self_le (n := nodes.length - 1) (by omega)
  have high := Nat.lt_log2_self (n := nodes.length - 1)
  rw [Nat.pow_succ] at high
  refine ⟨nodes.take (2 ^ (nodes.length - 1).log2), nodes.drop (2 ^ (nodes.length - 1).log2), (nodes.length - 1).log2,
    (List.take_append_drop ..).symm, ?_, ?_, ?_⟩
  · rw [List.length_take]
    omega
  · rw [← List.length_pos_iff, List.length_drop]
    omega
  · rw [List.length_drop]
    omega

/-- **The leaves of a tree may be joined two by two.** -/
theorem join_pair (nodes : List Node) : join (pair nodes) = join nodes := by
  induction count : nodes.length using Nat.strong_induction_on generalizing nodes with
  | _ count ih =>
  by_cases few : nodes.length < 2
  · match nodes, few with
    | [], _ => rfl
    | [_], _ => rfl
  · obtain ⟨left, right, k, rfl, power, filled, fits⟩ := exists_sides (Nat.not_lt.1 few)
    have pos : 0 < right.length := List.length_pos_iff.2 filled
    rw [List.length_append] at count
    cases k with
    | zero =>
      obtain ⟨a, rfl⟩ := List.length_eq_one_iff.1 power
      obtain ⟨b, rfl⟩ := List.length_eq_one_iff.1 (show right.length = 1 by rw [Nat.pow_zero] at fits; omega)
      rw [join_append power filled fits, join_singleton, join_singleton]
      exact join_singleton _
    | succ k =>
      -- joined two by two, the left side is a power of two still, and the right side no longer than it
      have double : 2 ^ (k + 1) = 2 ^ k * 2 := Nat.pow_succ ..
      have half : (pair left).length = 2 ^ k := by
        rw [length_pair]
        omega
      have short : (pair right).length ≤ 2 ^ k := by
        rw [length_pair]
        omega
      have more : pair right ≠ [] := by
        rw [← List.length_pos_iff, length_pair]
        omega
      rw [pair_append (by omega), join_append half more short, ih left.length (by omega) left rfl,
        ih right.length (by omega) right rfl, join_append power filled fits]

/-! ## The stack of subtrees -/

/-- The stack of a row of leaves. The leaves are joined two by two, again and again, and what is left over at the end of
an odd row stays on the stack; so it has the tops of the complete subtrees, the smallest first. -/
inductive Stacked : List Node → List Chaining → Prop where
  | none : Stacked [] []
  | even {nodes : List Node} {stack : List Chaining} (even : nodes.length % 2 = 0)
    (pairs : Stacked (pair nodes) stack) : Stacked nodes stack
  | odd {nodes : List Node} {stack : List Chaining} (last : Node) (even : nodes.length % 2 = 0)
    (pairs : Stacked (pair nodes) stack) : Stacked (nodes ++ [last]) (last.value :: stack)

theorem push_of_odd (stack : List Chaining) (new : Chaining) {count : Nat} (odd : count % 2 = 1) :
    push stack new count = new :: stack := by
  cases stack with
  | nil => rfl
  | cons top rest => rw [push, if_neg (by omega)]

/-- **The stack keeps up with the leaves.** -/
theorem Stacked.push {nodes : List Node} {stack : List Chaining} (h : Stacked nodes stack) (new : Node) :
    Stacked (nodes ++ [new]) (push stack new.value (nodes.length + 1)) := by
  induction h generalizing new with
  | none => exact .odd new rfl .none
  | @even nodes stack even pairs =>
    rw [push_of_odd _ _ (by omega)]
    exact .odd new even pairs
  | @odd nodes stack last even pairs ih =>
    have count : nodes.length + 1 + 1 = 2 * ((pair nodes).length + 1) := by
      rw [length_pair]
      omega
    have joined : pair (nodes ++ [last] ++ [new]) = pair nodes ++ [above last new] := by
      rw [List.append_assoc, pair_append even]
      rfl
    rw [List.length_append, List.length_singleton, count, Blake3.push, if_pos (by omega),
      Nat.mul_div_cancel_left _ (by decide)]
    refine .even ?_ ?_
    · simp
      omega
    · rw [joined]
      exact ih (above last new)

/-- **A stack and the last leaf make the top of the tree.** -/
theorem Stacked.root {nodes : List Node} {stack : List Chaining} (h : Stacked nodes stack) (last : Node) :
    stack.foldl (fun node left => Node.parent left node.value) last = join (nodes ++ [last]) := by
  induction h generalizing last with
  | none => exact (join_singleton last).symm
  | @even nodes stack even pairs ih =>
    rw [ih, ← join_pair (nodes ++ [last]), pair_append even]
    rfl
  | @odd nodes stack before even pairs ih =>
    rw [List.foldl_cons, ih, ← join_pair (nodes ++ [before] ++ [last]), List.append_assoc, pair_append even]
    rfl

/-! ## Messages -/

/-- What is known of a state that keeps the subtrees of full chunks and collects another one. -/
structure Collects (full : List Bytes) (data : Bytes) (s : State) : Prop where
  stacked : Stacked (full.mapIdx leafOf) s.subtrees
  chunk : s.chunk = data.foldl Chunk.feed (.start full.length)
  filling : Filling 1024 full data

theorem Collects.feed {full : List Bytes} {data : Bytes} {s : State} (h : Collects full data s) (b : UInt8) :
    ∃ full' data', Collects full' data' (feedByte s b) ∧ full'.flatten ++ data' = full.flatten ++ data ++ [b] := by
  have ending := Chunk.full_iff full.length h.filling.short
  unfold feedByte
  rw [h.chunk]
  by_cases ends : data.length = 1024
  · rw [if_pos (ending.2 ends), Chunk.counter_feed, Chunk.leaf_feed]
    refine ⟨full ++ [data], [b], ⟨?_, by simp, h.filling.next (by decide) ends b⟩, by simp⟩
    have next := h.stacked.push (leafOf full.length data)
    rw [List.length_mapIdx] at next
    rwa [List.mapIdx_concat]
  · rw [if_neg fun more => ends (ending.1 more)]
    exact ⟨full, data ++ [b], ⟨h.stacked, by rw [List.foldl_concat], h.filling.more ends b⟩, by simp⟩

/-- **What a state keeps and what it collects** are the bytes fed. -/
theorem collects_feed (message : Bytes) :
    ∃ full data, Collects full data (feed start message) ∧ full.flatten ++ data = message :=
  exists_rows_of_foldl ⟨.none, rfl, .start 1024⟩ Collects.feed message

/-- The digest of a whole message. -/
def digestOf (message : Bytes) : Bytes := (join ((rows 1024 message).mapIdx leafOf)).bytes

theorem digest_feed (message : Bytes) : digest (feed start message) = digestOf message := by
  obtain ⟨full, data, collects, same⟩ := collects_feed message
  have top : root (feed start message) = join ((full ++ [data]).mapIdx leafOf) := by
    rw [root, collects.chunk, Chunk.leaf_feed, collects.stacked.root, List.mapIdx_concat]
  rw [digest, digestOf, top, ← same, collects.filling.rows_eq]
  by_cases empty : data = []
  · rw [if_pos empty, collects.filling.started empty, empty]
    simp [join]
  · rw [if_neg empty]

end ContentChunks.Digest.Blake3
