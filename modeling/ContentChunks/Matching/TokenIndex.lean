/-
Where the tokens of a sequence stand. The places of each token are noted once, in
increasing order, so that a search looks at pairs of equal tokens only.

Main statements:
- `places_of`: the places that are noted of a token are all places that have it.
- `mem_placesIn`, `pairwise_placesIn`: those in a stretch are found from the first on.
-/
namespace ContentChunks

/-- The tokens of a sequence, each with its places. -/
structure TokenIndex (α : Type) where
  entries : List (α × List Nat)
deriving Repr

namespace TokenIndex

variable {α : Type} [DecidableEq α]

def empty : TokenIndex α := ⟨[]⟩

/-- Notes a place of a token after those it has; a new token comes last. -/
def note (t : α) (place : Nat) : List (α × List Nat) → List (α × List Nat)
  | [] => [(t, [place])]
  | (u, places) :: rest => if u = t then (u, places ++ [place]) :: rest else (u, places) :: note t place rest

def add (index : TokenIndex α) (t : α) (place : Nat) : TokenIndex α := ⟨note t place index.entries⟩

/-- The index of a sequence. -/
def of (b : List α) : TokenIndex α := b.zipIdx.foldl (fun index (t, place) => index.add t place) empty

/-- The places of a token; one that does not occur has none. -/
def places (index : TokenIndex α) (t : α) : List Nat := (index.entries.lookup t).getD []

/-- The places of a token from `start` on and before `stop`. -/
def placesIn (index : TokenIndex α) (t : α) (start stop : Nat) : List Nat :=
  ((index.places t).dropWhile (· < start)).takeWhile (· < stop)

theorem places_add (index : TokenIndex α) (t u : α) (place : Nat) :
    (index.add t place).places u = if t = u then index.places u ++ [place] else index.places u := by
  obtain ⟨entries⟩ := index
  simp only [add, places]
  induction entries with
  | nil =>
    by_cases same : t = u
    · simp [note, same]
    · have other : (u == t) = false := by simpa using fun h : u = t => same h.symm
      simp [note, same, List.lookup_cons, other]
  | cons entry rest ih =>
    obtain ⟨v, known⟩ := entry
    rw [note]
    by_cases here : u = v
    · by_cases same : v = t
      · simp [here, same]
      · have other : t ≠ v := fun h => same h.symm
        simp [here, same, other]
    · have apart : (u == v) = false := by simpa using here
      split
      · rename_i same
        have other : t ≠ u := fun h => here (h.symm.trans same.symm)
        simp [List.lookup_cons, apart, other]
      · simpa [List.lookup_cons, apart] using ih

theorem places_foldl (noted : List (α × Nat)) (index : TokenIndex α) (t : α) :
    (noted.foldl (fun index (t, place) => index.add t place) index).places t =
      index.places t ++ (noted.filter fun e => e.1 = t).map (·.2) := by
  induction noted generalizing index with
  | nil => simp
  | cons e rest ih =>
    rw [List.foldl_cons, ih, places_add]
    by_cases same : e.1 = t <;> simp [same]

/-- **The places that are noted of a token** are those that have it. -/
theorem places_of (b : List α) (t : α) : (of b).places t = (b.zipIdx.filter fun e => e.1 = t).map (·.2) :=
  places_foldl b.zipIdx empty t

theorem pairwise_places (b : List α) (t : α) : ((of b).places t).Pairwise (· < ·) := by
  have all : (b.zipIdx.map (·.2)).Pairwise (· < ·) := by
    rw [List.zipIdx_map_snd]
    exact List.pairwise_lt_range'
  rw [places_of]
  exact all.sublist (List.filter_sublist.map _)

theorem mem_places {b : List α} {t : α} {place : Nat} : place ∈ (of b).places t ↔ b[place]? = some t := by
  rw [places_of, List.mem_map]
  constructor
  · intro noted
    obtain ⟨⟨u, j⟩, mem, rfl⟩ := noted
    obtain ⟨listed, same⟩ := List.mem_filter.1 mem
    obtain rfl : u = t := by simpa using same
    exact List.mk_mem_zipIdx_iff_getElem?.1 listed
  · intro token
    exact ⟨(t, place), List.mem_filter.2 ⟨List.mk_mem_zipIdx_iff_getElem?.2 token, by simp⟩, rfl⟩

/-! ## Stretches -/

section

variable {numbers : List Nat} (order : numbers.Pairwise (· < ·)) {n : Nat}
include order

theorem mem_dropWhile_of_pairwise {start : Nat} : n ∈ numbers.dropWhile (· < start) ↔ n ∈ numbers ∧ start ≤ n := by
  induction numbers with
  | nil => simp
  | cons m rest ih =>
    obtain ⟨later, order⟩ := List.pairwise_cons.1 order
    by_cases early : m < start
    · rw [List.dropWhile_cons_of_pos (by simpa using early), ih order, List.mem_cons]
      refine and_congr_left fun within => (or_iff_right ?_).symm
      omega
    · rw [List.dropWhile_cons_of_neg (by simpa using early)]
      refine (and_iff_left_of_imp fun mem => ?_).symm
      obtain rfl | mem := List.mem_cons.1 mem
      · exact Nat.not_lt.1 early
      · have := later n mem
        omega

theorem mem_takeWhile_of_pairwise {stop : Nat} : n ∈ numbers.takeWhile (· < stop) ↔ n ∈ numbers ∧ n < stop := by
  induction numbers with
  | nil => simp
  | cons m rest ih =>
    obtain ⟨later, order⟩ := List.pairwise_cons.1 order
    by_cases within : m < stop
    · rw [List.takeWhile_cons_of_pos (by simpa using within), List.mem_cons, List.mem_cons, ih order]
      refine ⟨fun mem => ?_, fun mem => mem.1.imp_right fun there => ⟨there, mem.2⟩⟩
      obtain rfl | mem := mem
      · exact ⟨.inl rfl, within⟩
      · exact ⟨.inr mem.1, mem.2⟩
    · rw [List.takeWhile_cons_of_neg (by simpa using within)]
      refine (iff_of_false List.not_mem_nil fun mem => ?_)
      obtain ⟨rfl | mem, before⟩ := mem.imp_left List.mem_cons.1
      · exact within before
      · have := later n mem
        omega

end

/-- What an index tells of a stretch are the places in it that have the token. -/
theorem mem_placesIn {b : List α} {t : α} {start stop place : Nat} :
    place ∈ (of b).placesIn t start stop ↔ start ≤ place ∧ place < stop ∧ b[place]? = some t := by
  have noted := pairwise_places b t
  rw [placesIn, mem_takeWhile_of_pairwise (noted.sublist (List.dropWhile_sublist _)), mem_dropWhile_of_pairwise noted,
    mem_places]
  exact ⟨fun mem => ⟨mem.1.2, mem.2, mem.1.1⟩, fun mem => ⟨⟨mem.2.2, mem.1⟩, mem.2.1⟩⟩

theorem pairwise_placesIn (b : List α) (t : α) (start stop : Nat) :
    ((of b).placesIn t start stop).Pairwise (· < ·) :=
  (pairwise_places b t).sublist ((List.takeWhile_sublist _).trans (List.dropWhile_sublist _))

end TokenIndex

end ContentChunks
