/-
Sorting by a type's order. Sorting is stable; a sorted set keeps one of each
run of equal items.
-/
namespace ContentChunks

/-- The items in increasing order, equal ones in the order they came. -/
def sorted {α : Type} [Ord α] (items : List α) : List α :=
  items.mergeSort fun a b => (compare a b).isLE

/-- Drops an item that equals the one after it. -/
def dropRepeats {α : Type} [DecidableEq α] : List α → List α
  | a :: b :: rest => if a = b then dropRepeats (b :: rest) else a :: dropRepeats (b :: rest)
  | short => short

/-- The distinct items in increasing order. -/
def sortedSet {α : Type} [Ord α] [DecidableEq α] (items : List α) : List α :=
  dropRepeats (sorted items)

/-- The place of a number in an order where what is unknown comes first. -/
def unknownFirst : Option Nat → Nat
  | none => 0
  | some n => n + 1

theorem sorted_perm {α : Type} [Ord α] (items : List α) : (sorted items).Perm items :=
  List.mergeSort_perm items _

end ContentChunks
