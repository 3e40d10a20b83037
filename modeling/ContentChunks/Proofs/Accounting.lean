/-
A delta accounts for every chunk. Chunks may be equal and signatures may be
repeated, so the entries of a delta are told by places in the sequences
(`Delta.Account`). Main statement: the places that the entries of a computed
delta stand for are each place of either sequence once, every entry is made of
the chunks at its places, and a place is in `common` just when its signature
occurs in the other sequence (`compute_account`).
-/
import ContentChunks.Proofs.Pairing
import Mathlib.Data.List.Nodup

namespace ContentChunks

/-! ## Places -/

/-- The places of the chunks that satisfy a condition. -/
def placesOf (p : Chunk → Bool) (chunks : List Chunk) : List Nat :=
  (chunks.zipIdx.filter fun (c, _) => p c).map (·.2)

theorem mem_placesOf {p : Chunk → Bool} {chunks : List Chunk} {i : Nat} :
    i ∈ placesOf p chunks ↔ ∃ c, chunks[i]? = some c ∧ p c = true := by
  simp only [placesOf, List.mem_map, List.mem_filter, Prod.exists, List.mk_mem_zipIdx_iff_getElem?]
  constructor
  · rintro ⟨c, _, h, rfl⟩
    exact ⟨c, h⟩
  · rintro ⟨c, h⟩
    exact ⟨c, i, h, rfl⟩

theorem pairwise_snd_filter_zipIdx {chunks : List Chunk} (p : Chunk × Nat → Bool) :
    ((chunks.zipIdx.filter p).map (·.2)).Pairwise (· < ·) := by
  have all : (chunks.zipIdx.map (·.2)).Pairwise (· < ·) := by
    rw [List.zipIdx_map_snd]
    exact List.pairwise_lt_range'
  exact all.sublist (List.filter_sublist.map _)

theorem pairwise_placesOf (p : Chunk → Bool) (chunks : List Chunk) : (placesOf p chunks).Pairwise (· < ·) :=
  pairwise_snd_filter_zipIdx _

theorem getElem?_placesOf (p : Chunk → Bool) (chunks : List Chunk) :
    (placesOf p chunks).map (chunks[·]?) = (chunks.filter p).map some := by
  have entries : ∀ e ∈ chunks.zipIdx.filter (fun (c, _) => p c), chunks[e.2]? = some e.1 :=
    fun e he => List.mem_zipIdx_iff_getElem?.1 (List.mem_filter.1 he).1
  have firsts : (chunks.zipIdx.filter (fun (c, _) => p c)).map (·.1) = chunks.filter p := by
    conv => rhs; rw [← List.zipIdx_map_fst 0 chunks]
    rw [List.filter_map]
    rfl
  rw [placesOf, List.map_map, ← firsts, List.map_map]
  exact List.map_congr_left entries

namespace Leftover

theorem mem_of {chunks other : List Chunk} {c : Leftover} :
    c ∈ Leftover.of chunks other ↔
      chunks[c.index]? = some c.chunk ∧ ∀ d ∈ other, d.signature ≠ c.chunk.signature := by
  obtain ⟨index, chunk⟩ := c
  simp only [Leftover.of, List.mem_map, List.mem_filter, Prod.exists, List.mk_mem_zipIdx_iff_getElem?,
    Bool.not_eq_true', List.any_eq_false, beq_iff_eq, mk.injEq]
  constructor
  · rintro ⟨_, _, h, rfl, rfl⟩
    exact h
  · intro h
    exact ⟨chunk, index, h, rfl, rfl⟩

theorem index_lt {chunks other : List Chunk} {c : Leftover} (hc : c ∈ Leftover.of chunks other) :
    c.index < chunks.length :=
  (List.getElem?_eq_some_iff.1 (mem_of.1 hc).1).1

theorem pairwise_of (chunks other : List Chunk) :
    (Leftover.of chunks other).Pairwise fun c d => c.index < d.index := by
  rw [Leftover.of, List.pairwise_map]
  have sorted : ((chunks.zipIdx.filter fun (c, _) => !other.any fun d => d.signature == c.signature).map
      Prod.snd).Pairwise (· < ·) := pairwise_snd_filter_zipIdx _
  rwa [List.pairwise_map] at sorted

theorem eq_of_index {chunks other : List Chunk} {c d : Leftover} (hc : c ∈ Leftover.of chunks other)
    (hd : d ∈ Leftover.of chunks other) (same : c.index = d.index) : c = d := by
  have h1 := (mem_of.1 hc).1
  have h2 := (mem_of.1 hd).1
  rw [same, h2, Option.some.injEq] at h1
  obtain ⟨i, x⟩ := c
  obtain ⟨j, y⟩ := d
  simp_all

end Leftover

/-! ## Common chunks -/

theorem idxOf_lt_of_filter {α : Type} [DecidableEq α] {p : α → Bool} {items : List α} {a b : α}
    (ha : p a = true) (hb : p b = true) (h : (items.filter p).idxOf a < (items.filter p).idxOf b) :
    items.idxOf a < items.idxOf b := by
  induction items with
  | nil => simp at h
  | cons x rest ih =>
    by_cases hx : p x = true
    · rw [List.filter_cons_of_pos hx, List.idxOf_cons, List.idxOf_cons] at h
      rw [List.idxOf_cons, List.idxOf_cons]
      cases xa : x == a <;> cases xb : x == b <;> simp only [xa, xb, cond_true, cond_false] at h ⊢
      · have := ih (by omega)
        omega
      all_goals omega
    · have xa : (x == a) = false := by
        rw [beq_eq_false_iff_ne]
        rintro rfl
        exact hx ha
      have xb : (x == b) = false := by
        rw [beq_eq_false_iff_ne]
        rintro rfl
        exact hx hb
      rw [List.filter_cons_of_neg hx] at h
      simp only [List.idxOf_cons, xa, xb, cond_false]
      have := ih h
      omega

theorem pairwise_eraseDups {α : Type} [DecidableEq α] (items : List α) :
    items.eraseDups.Pairwise fun a b => items.idxOf a < items.idxOf b := by
  induction hn : items.length using Nat.strongRecOn generalizing items with
  | _ n ih =>
  cases items with
  | nil => simp
  | cons x rest =>
    rw [List.eraseDups_cons]
    have shorter : (rest.filter fun b => !b == x).length < n := by
      have := List.length_filter_le (fun b => !b == x) rest
      rw [← hn, List.length_cons]
      omega
    have other : ∀ b ∈ (rest.filter fun b => !b == x).eraseDups, (!b == x) = true := fun b hb =>
      (List.mem_filter.1 (List.mem_eraseDups.1 hb)).2
    refine List.pairwise_cons.2 ⟨fun b hb => ?_, ?_⟩
    · have ne : (x == b) = false := by
        have := other b hb
        simp only [Bool.not_eq_true', beq_eq_false_iff_ne] at this ⊢
        exact fun h => this h.symm
      simp [List.idxOf_cons, ne]
    · refine List.Pairwise.imp_of_mem (fun {a b} ha hb h => ?_) (ih _ shorter _ rfl)
      have xa := other a ha
      have xb := other b hb
      have lt := idxOf_lt_of_filter (p := fun b => !b == x) xa xb h
      simp only [Bool.not_eq_true', beq_eq_false_iff_ne] at xa xb
      have xa' : (x == a) = false := by simpa using fun h => xa h.symm
      have xb' : (x == b) = false := by simpa using fun h => xb h.symm
      simp only [List.idxOf_cons, xa', xb', cond_false]
      omega

namespace Common

/-- The signatures that occur in both sequences, by their first occurrence in the old one. -/
def sharedOf (old new : List Chunk) : List Signature :=
  (old.map (·.signature)).eraseDups.filter fun s => new.any fun c => c.signature == s

theorem mem_sharedOf {old new : List Chunk} {s : Signature} :
    s ∈ sharedOf old new ↔ (∃ c ∈ old, c.signature = s) ∧ ∃ c ∈ new, c.signature = s := by
  simp only [sharedOf, List.mem_filter, List.mem_eraseDups, List.mem_map, List.any_eq_true, beq_iff_eq]

theorem pairwise_sharedOf (old new : List Chunk) :
    (sharedOf old new).Pairwise fun s t =>
      (old.map (·.signature)).idxOf s < (old.map (·.signature)).idxOf t :=
  (pairwise_eraseDups _).filter _

theorem nodup_sharedOf (old new : List Chunk) : (sharedOf old new).Nodup :=
  (pairwise_sharedOf old new).imp fun lt same => by simp [same] at lt

theorem of_eq_map (old new : List Chunk) :
    Common.of old new = (sharedOf old new).map fun s =>
      ⟨s, old.filter fun c => c.signature == s, new.filter fun c => c.signature == s⟩ := rfl

/-- The places of the chunks of some signatures, signature by signature. -/
def places (shared : List Signature) (chunks : List Chunk) : List Nat :=
  shared.flatMap fun s => placesOf (fun c => c.signature == s) chunks

theorem mem_places {shared : List Signature} {chunks : List Chunk} {i : Nat} :
    i ∈ places shared chunks ↔ ∃ c, chunks[i]? = some c ∧ c.signature ∈ shared := by
  simp only [places, List.mem_flatMap, mem_placesOf, beq_iff_eq]
  constructor
  · rintro ⟨s, hs, c, hc, rfl⟩
    exact ⟨c, hc, hs⟩
  · rintro ⟨c, hc, hs⟩
    exact ⟨_, hs, c, hc, rfl⟩

/-- A place has one signature, so it is in one row. -/
theorem nodup_places {shared : List Signature} (h : shared.Nodup) (chunks : List Chunk) :
    (places shared chunks).Nodup := by
  refine List.nodup_flatMap.2 ⟨fun s _ => (pairwise_placesOf _ _).imp Nat.ne_of_lt, h.imp fun ne => ?_⟩
  intro i h1 h2
  obtain ⟨c, hc, rfl⟩ := by simpa [mem_placesOf] using h1
  obtain ⟨d, hd, rfl⟩ := by simpa [mem_placesOf] using h2
  rw [hc, Option.some.injEq] at hd
  exact ne (hd ▸ rfl)

end Common

/-! ## Changed chunks -/

theorem find?_eq_some_iff_of_unique {α : Type} {q : α → Bool} {items : List α}
    (unique : ∀ x ∈ items, ∀ y ∈ items, q x = true → q y = true → x = y) {a : α} :
    items.find? q = some a ↔ a ∈ items ∧ q a = true := by
  constructor
  · exact fun h => ⟨List.mem_of_find?_eq_some h, List.find?_some h⟩
  · rintro ⟨ha, hq⟩
    have isSome := List.find?_isSome.2 ⟨a, ha, hq⟩
    obtain ⟨b, hb⟩ := Option.isSome_iff_exists.1 isSome
    rw [hb, unique b (List.mem_of_find?_eq_some hb) a ha (List.find?_some hb) hq]

namespace Delta

/-- The pairs with the leftovers that they pair, in the order of the removed ones. -/
def pairings (pairs : List ScoredPair) (removed added : List Leftover) :
    List (Leftover × ScoredPair × Leftover) :=
  removed.filterMap fun c => (pairs.find? fun p => p.old == c.index).bind fun p =>
    (added.find? fun d => d.index == p.new).map fun d => (c, p, d)

theorem changedBy_eq_map (pairs : List ScoredPair) (removed added : List Leftover) :
    changedBy pairs removed added =
      (pairings pairs removed added).map fun (c, p, d) => ⟨c.chunk, d.chunk, p.score⟩ := by
  rw [pairings, List.map_filterMap, changedBy]
  congr 1
  funext c
  cases pairs.find? fun p => p.old == c.index with
  | none => rfl
  | some p =>
    rw [Option.bind_some, Option.map_map]
    exact Option.map_eq_bind.symm

section

variable {old new : List Chunk} {pairs : List ScoredPair}
variable (h : ScoredPair.Matching pairs ((Leftover.of old new).filter Leftover.isText)
  ((Leftover.of new old).filter Leftover.isText))
include h

/-- A pairing is a pair and the two leftovers at its places, and both are texts. -/
theorem mem_pairings {c d : Leftover} {p : ScoredPair} :
    (c, p, d) ∈ pairings pairs (Leftover.of old new) (Leftover.of new old) ↔
      p ∈ pairs ∧ (c ∈ Leftover.of old new ∧ c.index = p.old) ∧ d ∈ Leftover.of new old ∧ d.index = p.new := by
  have pair : (pairs.find? fun q => q.old == c.index) = some p ↔ p ∈ pairs ∧ p.old = c.index := by
    rw [← beq_iff_eq (a := p.old)]
    refine find?_eq_some_iff_of_unique fun x hx y hy sx sy => h.old_unique hx hy ?_
    exact (beq_iff_eq.1 sx).trans (beq_iff_eq.1 sy).symm
  have partner : ((Leftover.of new old).find? fun e => e.index == p.new) = some d ↔
      d ∈ Leftover.of new old ∧ d.index = p.new := by
    rw [← beq_iff_eq (a := d.index)]
    refine find?_eq_some_iff_of_unique fun x hx y hy sx sy => Leftover.eq_of_index hx hy ?_
    exact (beq_iff_eq.1 sx).trans (beq_iff_eq.1 sy).symm
  simp only [pairings, List.mem_filterMap, Option.bind_eq_some_iff, Option.map_eq_some_iff, Prod.mk.injEq]
  constructor
  · rintro ⟨c', hc, p', hp, d', hd, rfl, rfl, rfl⟩
    have hp := pair.1 hp
    exact ⟨hp.1, ⟨hc, hp.2.symm⟩, partner.1 hd⟩
  · rintro ⟨hp, ⟨hc, same⟩, hd⟩
    exact ⟨c, hc, p, pair.2 ⟨hp, same.symm⟩, d, partner.2 hd, rfl, rfl, rfl⟩

theorem exists_pairing {p : ScoredPair} (hp : p ∈ pairs) :
    ∃ c d, (c, p, d) ∈ pairings pairs (Leftover.of old new) (Leftover.of new old) := by
  obtain ⟨c, hc, ic⟩ := h.old p hp
  obtain ⟨d, hd, id⟩ := h.new p hp
  exact ⟨c, d, (mem_pairings h).2 ⟨hp, ⟨(List.mem_filter.1 hc).1, ic⟩, (List.mem_filter.1 hd).1, id⟩⟩

theorem isText_of_mem_pairings {c d : Leftover} {p : ScoredPair}
    (hm : (c, p, d) ∈ pairings pairs (Leftover.of old new) (Leftover.of new old)) :
    c.isText = true ∧ d.isText = true := by
  obtain ⟨hp, ⟨hc, ic⟩, hd, id⟩ := (mem_pairings h).1 hm
  obtain ⟨c', hc', ic'⟩ := h.old p hp
  obtain ⟨d', hd', id'⟩ := h.new p hp
  rw [List.mem_filter] at hc' hd'
  rw [Leftover.eq_of_index hc hc'.1 (ic.trans ic'.symm), Leftover.eq_of_index hd hd'.1 (id.trans id'.symm)]
  exact ⟨hc'.2, hd'.2⟩

omit h in
theorem pairwise_old_pairings :
    (pairings pairs (Leftover.of old new) (Leftover.of new old)).Pairwise fun x y => x.1.index < y.1.index := by
  rw [pairings, List.pairwise_filterMap]
  refine (Leftover.pairwise_of old new).imp fun lt x hx y hy => ?_
  simp only [Option.bind_eq_some_iff, Option.map_eq_some_iff] at hx hy
  obtain ⟨_, -, _, -, rfl⟩ := hx
  obtain ⟨_, -, _, -, rfl⟩ := hy
  exact lt

theorem pairwise_new_pairings :
    (pairings pairs (Leftover.of old new) (Leftover.of new old)).Pairwise
      fun x y => x.2.2.index ≠ y.2.2.index := by
  refine List.Pairwise.imp_of_mem (fun {x y} hx hy lt same => ?_) pairwise_old_pairings
  obtain ⟨c, p, d⟩ := x
  obtain ⟨c', p', d'⟩ := y
  obtain ⟨hp, ⟨-, ic⟩, -, id⟩ := (mem_pairings h).1 hx
  obtain ⟨hp', ⟨-, ic'⟩, -, id'⟩ := (mem_pairings h).1 hy
  obtain rfl := h.new_unique hp hp' (id.symm.trans (same.trans id'))
  exact Nat.ne_of_lt lt (ic.trans ic'.symm)

end

end Delta

/-! ## The account -/

/-- The places that the entries of a delta stand for, entry by entry: in a
common entry the old and the new ones, in a changed one that of the origin and
that of the chunk. -/
structure Delta.Account where
  common : List (List Nat × List Nat)
  changed : List (Nat × Nat)
  removed : List Nat
  added : List Nat

/-- An account that is exact. -/
structure Delta.Account.Exact (a : Delta.Account) (old new : List Chunk) (d : Delta) : Prop where
  /-- Each place of the old sequence is in one entry, and there once. -/
  old_once : (a.common.flatMap (·.1) ++ a.changed.map (·.1) ++ a.removed).Perm (List.range old.length)
  /-- Each place of the new sequence is in one entry, and there once. -/
  new_once : (a.common.flatMap (·.2) ++ a.changed.map (·.2) ++ a.added).Perm (List.range new.length)
  /-- The entries are made of the chunks at their places. -/
  common : a.common.map (fun i => (i.1.map (old[·]?), i.2.map (new[·]?))) =
    d.common.map fun c => (c.old.map some, c.new.map some)
  changed : a.changed.map (fun i => (old[i.1]?, new[i.2]?)) = d.changed.map fun c => (some c.origin, some c.chunk)
  removed : a.removed.map (old[·]?) = d.removed.map some
  added : a.added.map (new[·]?) = d.added.map some
  /-- All rows follow their sequence, the changed entries the old one. -/
  common_sorted : ∀ i ∈ a.common, i.1.Pairwise (· < ·) ∧ i.2.Pairwise (· < ·)
  changed_sorted : (a.changed.map (·.1)).Pairwise (· < ·)
  removed_sorted : a.removed.Pairwise (· < ·)
  added_sorted : a.added.Pairwise (· < ·)
  /-- A place is in a common entry just when its signature is in the other sequence. -/
  old_common : ∀ i c, old[i]? = some c →
    (i ∈ a.common.flatMap (·.1) ↔ ∃ c' ∈ new, c'.signature = c.signature)
  new_common : ∀ i c, new[i]? = some c →
    (i ∈ a.common.flatMap (·.2) ↔ ∃ c' ∈ old, c'.signature = c.signature)

/-- Whether common entries are those of the signatures in both sequences: one
for each, by its first occurrence in the old one, with all chunks of either. -/
structure Common.Complete (common : List Common) (old new : List Chunk) : Prop where
  shared : ∀ s, s ∈ common.map (·.signature) ↔ (∃ c ∈ old, c.signature = s) ∧ ∃ c ∈ new, c.signature = s
  sorted : (common.map (·.signature)).Pairwise fun s t =>
    (old.map (·.signature)).idxOf s < (old.map (·.signature)).idxOf t
  occurrences : ∀ c ∈ common,
    c.old = old.filter (·.signature == c.signature) ∧ c.new = new.filter (·.signature == c.signature)

theorem Common.complete_of (old new : List Chunk) : Common.Complete (Common.of old new) old new where
  shared s := by
    rw [Common.of_eq_map, List.map_map]
    simpa [Function.comp_def] using Common.mem_sharedOf
  sorted := by
    rw [Common.of_eq_map, List.map_map]
    simpa [Function.comp_def] using Common.pairwise_sharedOf old new
  occurrences := by
    rw [Common.of_eq_map]
    simp

namespace Delta

section Side

variable {chunks other : List Chunk} {shared : List Signature}
  (mem : ∀ c ∈ chunks, c.signature ∈ shared ↔ ∃ d ∈ other, d.signature = c.signature)
include mem

theorem index_not_mem_places {c : Leftover} (hc : c ∈ Leftover.of chunks other) :
    c.index ∉ Common.places shared chunks := by
  intro hi
  obtain ⟨x, hx, hsx⟩ := Common.mem_places.1 hi
  obtain ⟨hc, lack⟩ := Leftover.mem_of.1 hc
  rw [hc, Option.some.injEq] at hx
  subst hx
  obtain ⟨d, hd, same⟩ := (mem c.chunk (List.mem_of_getElem? hc)).1 hsx
  exact lack d hd same

theorem leftover_or_mem_places {i : Nat} (hi : i < chunks.length) :
    i ∈ Common.places shared chunks ∨ ⟨i, chunks[i]⟩ ∈ Leftover.of chunks other := by
  have hc : chunks[i]? = some chunks[i] := List.getElem?_eq_getElem hi
  by_cases hshared : chunks[i].signature ∈ shared
  · exact .inl (Common.mem_places.2 ⟨_, hc, hshared⟩)
  · refine .inr (Leftover.mem_of.2 ⟨hc, fun d hd same => hshared ?_⟩)
    exact (mem _ (List.getElem_mem hi)).2 ⟨d, hd, same⟩

/-- One side of the account: the places of shared signatures, those of the
leftovers that are paired, and those of the leftovers that are not. -/
theorem side_once {paired : List Nat} {free : Leftover → Bool} (hs : shared.Nodup) (hp : paired.Nodup)
    (left : ∀ i ∈ paired, ∃ c ∈ Leftover.of chunks other, c.index = i)
    (hf : ∀ c ∈ Leftover.of chunks other, free c = true ↔ c.index ∉ paired) :
    (Common.places shared chunks ++ paired ++ ((Leftover.of chunks other).filter free).map (·.index)).Perm
      (List.range chunks.length) := by
  have nodupFree : (((Leftover.of chunks other).filter free).map (·.index)).Nodup := by
    refine List.pairwise_map.2 (((Leftover.pairwise_of chunks other).filter _).imp Nat.ne_of_lt)
  refine (List.perm_ext_iff_of_nodup ?_ List.nodup_range).2 fun i => ?_
  · refine List.nodup_append.2 ⟨List.nodup_append.2 ⟨Common.nodup_places hs chunks, hp, ?_⟩, nodupFree, ?_⟩
    · rintro i hi j hj rfl
      obtain ⟨c, hc, rfl⟩ := left i hj
      exact index_not_mem_places mem hc hi
    · rintro i hi j hj rfl
      obtain ⟨c, hc, rfl⟩ := List.mem_map.1 hj
      obtain ⟨hc, isFree⟩ := List.mem_filter.1 hc
      rcases List.mem_append.1 hi with hi | hi
      · exact index_not_mem_places mem hc hi
      · exact (hf c hc).1 isFree hi
  · rw [List.mem_append, List.mem_append, List.mem_range]
    constructor
    · rintro ((hi | hi) | hi)
      · obtain ⟨c, hc, -⟩ := Common.mem_places.1 hi
        exact (List.getElem?_eq_some_iff.1 hc).1
      · obtain ⟨c, hc, rfl⟩ := left i hi
        exact Leftover.index_lt hc
      · obtain ⟨c, hc, rfl⟩ := List.mem_map.1 hi
        exact Leftover.index_lt (List.mem_filter.1 hc).1
    · intro hi
      rcases leftover_or_mem_places mem hi with common | hl
      · exact .inl (.inl common)
      · by_cases hpaired : i ∈ paired
        · exact .inl (.inr hpaired)
        · exact .inr (List.mem_map.2 ⟨_, List.mem_filter.2 ⟨hl, (hf _ hl).2 hpaired⟩, rfl⟩)

end Side

theorem getElem?_leftovers (chunks other : List Chunk) (keep : Leftover → Bool) :
    (((Leftover.of chunks other).filter keep).map (·.index)).map (chunks[·]?) =
      (((Leftover.of chunks other).filter keep).map (·.chunk)).map some := by
  rw [List.map_map, List.map_map]
  exact List.map_congr_left fun c hc => (Leftover.mem_of.1 (List.mem_filter.1 hc).1).1

/-- The places that the entries of an assembled delta stand for. -/
def accountOf (old new : List Chunk) (pairs : List ScoredPair) : Account where
  common := (Common.sharedOf old new).map fun s =>
    (placesOf (fun c => c.signature == s) old, placesOf (fun c => c.signature == s) new)
  changed := (pairings pairs (Leftover.of old new) (Leftover.of new old)).map fun (c, _, d) => (c.index, d.index)
  removed := ((Leftover.of old new).filter fun c => !pairs.any fun p => p.old == c.index).map (·.index)
  added := ((Leftover.of new old).filter fun c => !pairs.any fun p => p.new == c.index).map (·.index)

theorem flatMap_common_old (old new : List Chunk) (pairs : List ScoredPair) :
    (accountOf old new pairs).common.flatMap (·.1) = Common.places (Common.sharedOf old new) old := by
  simp only [accountOf, Common.places, List.flatMap_map]

theorem flatMap_common_new (old new : List Chunk) (pairs : List ScoredPair) :
    (accountOf old new pairs).common.flatMap (·.2) = Common.places (Common.sharedOf old new) new := by
  simp only [accountOf, Common.places, List.flatMap_map]

theorem shared_iff_of_mem_old {old : List Chunk} {c : Chunk} (hc : c ∈ old) (new : List Chunk) :
    c.signature ∈ Common.sharedOf old new ↔ ∃ d ∈ new, d.signature = c.signature :=
  Common.mem_sharedOf.trans (and_iff_right ⟨c, hc, rfl⟩)

theorem shared_iff_of_mem_new {new : List Chunk} {c : Chunk} (hc : c ∈ new) (old : List Chunk) :
    c.signature ∈ Common.sharedOf old new ↔ ∃ d ∈ old, d.signature = c.signature :=
  Common.mem_sharedOf.trans (and_iff_left ⟨c, hc, rfl⟩)

section

variable {old new : List Chunk} {pairs : List ScoredPair}

theorem pairwise_changed_old : ((accountOf old new pairs).changed.map (·.1)).Pairwise (· < ·) := by
  rw [accountOf, List.map_map, List.pairwise_map]
  exact pairwise_old_pairings

variable (h : ScoredPair.Matching pairs ((Leftover.of old new).filter Leftover.isText)
  ((Leftover.of new old).filter Leftover.isText))
include h

theorem nodup_changed_new : ((accountOf old new pairs).changed.map (·.2)).Nodup := by
  rw [accountOf, List.map_map]
  exact List.pairwise_map.2 (pairwise_new_pairings h)

theorem mem_changed_old {i : Nat} :
    i ∈ (accountOf old new pairs).changed.map (·.1) ↔ ∃ p ∈ pairs, p.old = i := by
  simp only [accountOf, List.map_map, List.mem_map, Function.comp_apply, Prod.exists]
  constructor
  · rintro ⟨c, p, d, hm, rfl⟩
    obtain ⟨hp, ⟨-, ic⟩, -⟩ := (mem_pairings h).1 hm
    exact ⟨p, hp, ic.symm⟩
  · rintro ⟨p, hp, rfl⟩
    obtain ⟨c, d, hm⟩ := exists_pairing h hp
    exact ⟨c, p, d, hm, ((mem_pairings h).1 hm).2.1.2⟩

theorem mem_changed_new {i : Nat} :
    i ∈ (accountOf old new pairs).changed.map (·.2) ↔ ∃ p ∈ pairs, p.new = i := by
  simp only [accountOf, List.map_map, List.mem_map, Function.comp_apply, Prod.exists]
  constructor
  · rintro ⟨c, p, d, hm, rfl⟩
    obtain ⟨hp, -, -, id⟩ := (mem_pairings h).1 hm
    exact ⟨p, hp, id.symm⟩
  · rintro ⟨p, hp, rfl⟩
    obtain ⟨c, d, hm⟩ := exists_pairing h hp
    exact ⟨c, p, d, hm, ((mem_pairings h).1 hm).2.2.2⟩

theorem exact_accountOf : (accountOf old new pairs).Exact old new (assemble old new pairs) where
  old_once := by
    rw [flatMap_common_old]
    refine side_once (fun c hc => shared_iff_of_mem_old hc new) (Common.nodup_sharedOf old new)
      (pairwise_changed_old.imp Nat.ne_of_lt) (fun i hi => ?_) fun c _ => ?_
    · obtain ⟨p, hp, rfl⟩ := (mem_changed_old h).1 hi
      obtain ⟨c, hc, ic⟩ := h.old p hp
      exact ⟨c, (List.mem_filter.1 hc).1, ic⟩
    · rw [mem_changed_old h]
      simp
  new_once := by
    rw [flatMap_common_new]
    refine side_once (fun c hc => shared_iff_of_mem_new hc old) (Common.nodup_sharedOf old new)
      (nodup_changed_new h) (fun i hi => ?_) fun c _ => ?_
    · obtain ⟨p, hp, rfl⟩ := (mem_changed_new h).1 hi
      obtain ⟨d, hd, id⟩ := h.new p hp
      exact ⟨d, (List.mem_filter.1 hd).1, id⟩
    · rw [mem_changed_new h]
      simp
  common := by
    simp only [accountOf, assemble, Common.of_eq_map, List.map_map, Function.comp_def, getElem?_placesOf]
  changed := by
    simp only [accountOf, assemble, changedBy_eq_map, List.map_map]
    refine List.map_congr_left ?_
    rintro ⟨c, p, d⟩ hm
    obtain ⟨-, ⟨hc, -⟩, hd, -⟩ := (mem_pairings h).1 hm
    exact Prod.ext (Leftover.mem_of.1 hc).1 (Leftover.mem_of.1 hd).1
  removed := getElem?_leftovers ..
  added := getElem?_leftovers ..
  common_sorted := by
    simp only [accountOf, List.mem_map]
    rintro _ ⟨s, -, rfl⟩
    exact ⟨pairwise_placesOf (fun c => c.signature == s) old, pairwise_placesOf (fun c => c.signature == s) new⟩
  changed_sorted := pairwise_changed_old
  removed_sorted := List.pairwise_map.2 ((Leftover.pairwise_of old new).filter _)
  added_sorted := List.pairwise_map.2 ((Leftover.pairwise_of new old).filter _)
  old_common := by
    intro i c hc
    rw [flatMap_common_old, Common.mem_places, ← shared_iff_of_mem_old (List.mem_of_getElem? hc) new]
    simp [hc]
  new_common := by
    intro i c hc
    rw [flatMap_common_new, Common.mem_places, ← shared_iff_of_mem_new (List.mem_of_getElem? hc) old]
    simp [hc]

end

/-- A delta that is computed is assembled of pairs that match leftover texts. -/
theorem exists_matching_of_compute {flag : CancelFlag} {config : DeltaConfig} {source : Source}
    {old new : List Chunk} {d : Delta} (h : (computeUnless flag config source old new).result = .ok d) :
    ∃ pairs, ScoredPair.Matching pairs ((Leftover.of old new).filter Leftover.isText)
      ((Leftover.of new old).filter Leftover.isText) ∧ d = assemble old new pairs := by
  obtain ⟨ps, hp, hd⟩ := Loading.result_bind_eq_ok.1 h
  exact ⟨ps, pairs_matching hp, (Except.ok.inj hd).symm⟩

/-- **A delta accounts for every chunk.** Whatever the sequences, their
repetitions included, the configuration and the source, if a delta is computed
then the places that its entries stand for are each place of either sequence
once; a place is in `common` just when its signature is in the other sequence,
with one entry for each such signature; and only texts are changed. -/
theorem compute_account {config : DeltaConfig} {source : Source} {old new : List Chunk} {d : Delta}
    (h : (compute config source old new).result = .ok d) :
    (∃ a : Account, a.Exact old new d) ∧ Common.Complete d.common old new ∧
      ∀ c ∈ d.changed, c.origin.range.isText = true ∧ c.chunk.range.isText = true := by
  obtain ⟨pairs, matching, rfl⟩ := exists_matching_of_compute h
  refine ⟨⟨_, exact_accountOf matching⟩, Common.complete_of old new, ?_⟩
  simp only [assemble, changedBy_eq_map, List.mem_map]
  rintro _ ⟨⟨c, p, d⟩, hm, rfl⟩
  have texts := isText_of_mem_pairings matching hm
  simpa [Leftover.isText, Chunk.isBinary] using texts

/-- A repeated signature, binary chunks on both sides, and a pair. -/
theorem compute_account_repeated :
    let text : UInt8 → Chunk := fun n => ⟨⟨["x"]⟩, .text ⟨0, none, none⟩ ⟨1, none, none⟩, ⟨.sha256, [n]⟩⟩
    let binary : UInt8 → Chunk := fun n => ⟨⟨["x"]⟩, .bytes 0 1, ⟨.sha256, [n]⟩⟩
    let old := [text 1, text 1, binary 2, text 3]
    let new := [text 4, text 1, binary 5]
    let d : Delta :=
      ⟨[⟨⟨.sha256, [1]⟩, [text 1, text 1], [text 1]⟩], [⟨text 3, text 4, 3⟩], [binary 2], [binary 5]⟩
    (compute ⟨2, 0, true⟩ (fun _ => .ok (Bytes.ofText "ab cd")) old new).result = .ok d ∧
      (∃ a : Account, a.Exact old new d) ∧ Common.Complete d.common old new ∧
      ∀ c ∈ d.changed, c.origin.range.isText = true ∧ c.chunk.range.isText = true := by
  intro text binary old new d
  have computed : (compute ⟨2, 0, true⟩ (fun _ => .ok (Bytes.ofText "ab cd")) old new).result = .ok d := by
    decide +kernel
  exact ⟨computed, compute_account computed⟩

end Delta

end ContentChunks
