/-
Numbers that stand for codes. A table numbers each code by the place where it
was first met, and keeps what it has; so sequences of numbers agree just where
the codes do, and nothing about their similarity is lost.

Main statements:
- `blocks_map`: renaming tokens leaves the matching blocks of two sequences as they
  are, if no two different tokens of them get one name.
- `numbersOf_of_numberAll`: the numbers of some payloads are the places of their codes in
  a table that has all of them.
-/
import ContentChunks.Delta.Codes
import ContentChunks.Matching
import Mathlib.Data.List.Basic

namespace ContentChunks

/-! ## Renaming tokens -/

namespace Matching

variable {α β : Type} [DecidableEq α] [DecidableEq β] {f : α → β} {a b : List α}

/-- A token has the places that its name has in the renamed sequence, if no other token of that has the name. -/
theorem placesIn_map {t : α} (apart : ∀ y ∈ b, f t = f y → t = y) (start stop : Nat) :
    (TokenIndex.of (b.map f)).placesIn (f t) start stop = (TokenIndex.of b).placesIn t start stop := by
  have same : (TokenIndex.of (b.map f)).places (f t) = (TokenIndex.of b).places t := by
    rw [TokenIndex.places_of, TokenIndex.places_of, List.zipIdx_map, List.filter_map, List.map_map]
    refine congrArg (List.map _) (List.filter_congr fun e mem => ?_)
    have here : e.1 ∈ b := List.fst_mem_of_mem_zipIdx mem
    have named : f e.1 = f t ↔ e.1 = t := ⟨fun h => (apart e.1 here h.symm).symm, fun h => congrArg f h⟩
    simp [named]
  rw [TokenIndex.placesIn, TokenIndex.placesIn, same]

theorem longestFrom_map {rest : List α} (apart : ∀ x ∈ rest, ∀ y ∈ b, f x = f y → x = y) (bStart bStop i : Nat)
    (lengths : List (Nat × Nat)) (best : Block) :
    longestFrom (.of (b.map f)) bStart bStop i (rest.map f) lengths best =
      longestFrom (.of b) bStart bStop i rest lengths best := by
  induction rest generalizing i lengths best with
  | nil => rfl
  | cons t rest ih =>
    rw [List.map_cons, longestFrom, longestFrom, placesIn_map (apart t (by simp))]
    exact ih (fun x hx => apart x (by simp [hx])) ..

section

variable (apart : ∀ x ∈ a, ∀ y ∈ b, f x = f y → x = y)
include apart

theorem longest_map (w : Window) : longest (a.map f) (.of (b.map f)) w = longest a (.of b) w := by
  unfold longest
  rw [← List.map_drop, ← List.map_take]
  exact longestFrom_map (fun x hx y hy => apart x (List.mem_of_mem_drop (List.mem_of_mem_take hx)) y hy) ..

theorem search_map (windows : List Window) : search (a.map f) (b.map f) windows = search a b windows := by
  unfold search
  fun_induction searchIn a (.of b) windows with
  | case1 => rw [searchIn]
  | case2 w rest zero ih =>
    rw [searchIn, longest_map apart, if_pos zero, ih]
  | case3 w rest filled ih =>
    rw [searchIn, longest_map apart, if_neg filled, ih]

/-- **Renaming tokens leaves the matching blocks as they are**, if no two different
tokens of the two sequences get one name. -/
theorem blocks_map : blocks (a.map f) (b.map f) = blocks a b := by
  unfold blocks
  rw [List.length_map, List.length_map, search_map apart]

theorem similarity_map : similarity (a.map f) (b.map f) = similarity a b := by
  rw [similarity, blocks_map apart, similarity]

end

end Matching

/-! ## Tables -/

namespace CodeTable

/-- Whether a table has all that another one has, at the same places. -/
def Extends (t u : CodeTable) : Prop := t.codes <+: u.codes

/-- The place of a code in a table. -/
def placeOf (t : CodeTable) (code : String) : Nat := t.codes.idxOf code

theorem Extends.placeOf {t u : CodeTable} (h : t.Extends u) {code : String} (hc : code ∈ t.codes) :
    u.placeOf code = t.placeOf code := by
  obtain ⟨more, same⟩ := h
  rw [CodeTable.placeOf, CodeTable.placeOf, ← same]
  exact List.idxOf_append_of_mem hc

theorem placeOf_inj {t : CodeTable} {x y : String} (hx : x ∈ t.codes) (same : t.placeOf x = t.placeOf y) :
    x = y :=
  (List.idxOf_inj hx).1 same

theorem number_spec (t : CodeTable) (code : String) :
    t.Extends (number code t).2 ∧ code ∈ (number code t).2.codes ∧
      (number code t).1 = (number code t).2.placeOf code := by
  unfold number
  cases h : t.codes.idxOf? code with
  | some n =>
    have known : code ∈ t.codes := List.isSome_idxOf?.1 (by simp [h])
    refine ⟨List.prefix_refl _, known, ?_⟩
    show n = t.codes.idxOf code
    rw [List.idxOf_eq_getD_idxOf?, h, Option.getD_some]
  | none =>
    have new : code ∉ t.codes := List.idxOf?_eq_none_iff.1 h
    refine ⟨List.prefix_append _ _, by simp, ?_⟩
    show t.codes.length = (t.codes ++ [code]).idxOf code
    rw [List.idxOf_append_of_notMem new, List.idxOf_cons_self, Nat.add_zero]

/-- A row of items: what is known of each and what it counts for, once it was
read, stays as the table grows. -/
theorem mapM_spec {α β : Type} {f : α → StateM CodeTable β} (Known : CodeTable → α → Prop)
    (value : CodeTable → α → β)
    (read : ∀ t a, t.Extends (f a t).2 ∧ Known (f a t).2 a ∧ (f a t).1 = value (f a t).2 a)
    (stays : ∀ t u a, t.Extends u → Known t a → Known u a ∧ value u a = value t a) (items : List α)
    (t : CodeTable) :
    t.Extends (items.mapM f t).2 ∧ (∀ a ∈ items, Known (items.mapM f t).2 a) ∧
      (items.mapM f t).1 = items.map (value (items.mapM f t).2) := by
  induction items generalizing t with
  | nil => exact ⟨List.prefix_refl _, by simp, rfl⟩
  | cons a items ih =>
    obtain ⟨first, known, same⟩ := read t a
    obtain ⟨rest, all, values⟩ := ih (f a t).2
    have run : (a :: items).mapM f t =
        ((f a t).1 :: (items.mapM f (f a t).2).1, (items.mapM f (f a t).2).2) := by
      rw [List.mapM_cons]
      rfl
    obtain ⟨known, kept⟩ := stays _ _ a rest known
    rw [run, List.map_cons]
    refine ⟨first.trans rest, ?_, by rw [kept, ← same, ← values]⟩
    intro x hx
    cases List.mem_cons.1 hx with
    | inl here => exact here ▸ known
    | inr there => exact all x there

/-- Whether a table has all the codes of a payload. -/
def Has (t : CodeTable) (payload : Bytes) : Prop := ∀ code ∈ codesOf payload, code ∈ t.codes

/-- The numbers of a payload's codes in a table that has them. -/
def numbersOf (t : CodeTable) (payload : Bytes) : List Nat := (codesOf payload).map t.placeOf

theorem Extends.numbersOf {t u : CodeTable} (h : t.Extends u) {payload : Bytes} (has : t.Has payload) :
    u.Has payload ∧ u.numbersOf payload = t.numbersOf payload :=
  ⟨fun code hc => h.subset (has code hc), List.map_congr_left fun code hc => h.placeOf (has code hc)⟩

/-- **The numbers of some payloads** are the places of their codes in a table
that has all of them, and all that the table before had. -/
theorem numbersOf_of_numberAll {payloads : List Bytes} {t u : CodeTable} {numbers : List (List Nat)}
    (h : (numberAll payloads).run t = (numbers, u)) :
    t.Extends u ∧ (∀ payload ∈ payloads, u.Has payload) ∧ numbers = payloads.map u.numbersOf := by
  have codes (v : CodeTable) (payload : Bytes) :=
    mapM_spec (fun t code => code ∈ t.codes) placeOf number_spec
      (fun _ _ _ more known => ⟨more.subset known, more.placeOf known⟩) (codesOf payload) v
  have all := mapM_spec Has numbersOf codes (fun _ _ _ more has => more.numbersOf has) payloads t
  have run : payloads.mapM (fun payload => (codesOf payload).mapM number) t = (numbers, u) := h
  rwa [run] at all

theorem similarity_numbersOf {t : CodeTable} {x : Bytes} (has : t.Has x) (y : Bytes) :
    Matching.similarity (t.numbersOf x) (t.numbersOf y) = Matching.similarity (codesOf x) (codesOf y) :=
  Matching.similarity_map fun code hc _ _ same => placeOf_inj (has code hc) same

end CodeTable

end ContentChunks
