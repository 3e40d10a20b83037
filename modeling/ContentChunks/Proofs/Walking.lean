/-
Following a path that leads to a directory, and the names after it.

Main statements:
- `arrives_of_walk`, `Arrives.walk`: a walk that finds something, step by step.
- `leads_of_walk`, `Leads.walk_append`: a walk to a directory, step by step, and how it goes on.
- `Leads.congr`, `Leads.mono`: pieces that stand for nothing, new files and new
  directories make no difference to where a directory's path leads.
- `DirectoryAt.extend`, `DirectoryAt.locate_push`, `DirectoryAt.locate_absent`: what
  names after the path of a directory lead to.
- `DirectoryAt.locate_congr`: that depends on nothing but what stands along the names.
-/
import ContentChunks.FileSystem.Walk
import ContentChunks.Proofs.Paths

namespace ContentChunks.FileSystem

open ContentChunks.Path (busy idle IsName)

variable {fs : FileSystem} {purpose : Purpose} {links : Nat} {here place : Place} {piece : Bytes}
  {pieces rest : List Bytes}

/-! ## One piece -/

theorem walk_idle (h : idle piece = true) :
    fs.walk purpose links here (piece :: pieces) = fs.walk purpose links here pieces := by
  unfold walk
  rw [stretch, if_pos (Path.idle_iff.1 h)]

theorem walk_up :
    fs.walk purpose links here ([dot, dot] :: pieces) = fs.walk purpose links here.dropLast pieces := by
  unfold walk
  rw [stretch, if_neg (by decide), if_pos rfl]

theorem walk_name (ordinary : purpose = .look ∨ purpose = .reach) (awake : idle piece = false)
    (notUp : piece ≠ [dot, dot]) (short : piece.length ≤ nameLimit) :
    fs.walk purpose links here (piece :: pieces) =
      match fs.node? (here ++ [piece]) with
      | none => if pieces = [] then .ok (.missing here piece) else .error .notFound
      | some .directory => fs.walk purpose links (here ++ [piece]) pieces
      | some (.file _) => if pieces = [] then .ok (.found (here ++ [piece])) else .error .notDirectory
      | some (.link target) =>
        if pieces = [] ∧ purpose = .look then .ok (.found (here ++ [piece]))
        else match links with
          | 0 => .error .tooManyLinks
          | links + 1 =>
            fs.walk purpose links (if target.isAbsolute then [] else here) (Path.split target.bytes ++ pieces) := by
  have filled : ¬(piece = [] ∨ piece = [dot]) := by
    rw [← Path.idle_iff]
    simp [awake]
  have notFile : ¬(purpose = .file ∧ pieces ≠ [] ∧ pieces.all (· = [])) := by
    rcases ordinary with rfl | rfl <;> simp
  have fits : ¬(nameLimit < piece.length ∨
      purpose = .place ∧ pathLimit < (Place.path (here ++ [piece])).bytes.length) := by
    rcases ordinary with rfl | rfl <;> simp [short]
  have notPlace : ¬(purpose = .place ∧ tooDeep (here ++ [piece]) (nextName pieces) = true) := by
    rcases ordinary with rfl | rfl <;> simp
  conv => lhs; unfold walk
  rw [stretch, if_neg filled, if_neg notUp, if_neg notFile, if_neg fits]
  cases found : fs.node? (here ++ [piece]) with
  | none => by_cases h : pieces = [] <;> simp [h]
  | some item =>
    cases item with
    | directory =>
      conv => rhs; unfold walk
    | file number => by_cases h : pieces = [] <;> simp [h, notPlace]
    | link target =>
      by_cases h : pieces = [] ∧ purpose = .look
      · simp [h]
      · cases links <;> simp [h]

theorem walk_long (ordinary : purpose = .look ∨ purpose = .reach) (awake : idle piece = false)
    (notUp : piece ≠ [dot, dot]) (long : nameLimit < piece.length) :
    fs.walk purpose links here (piece :: pieces) = .error .nameTooLong := by
  have filled : ¬(piece = [] ∨ piece = [dot]) := by
    rw [← Path.idle_iff]
    simp [awake]
  have notFile : ¬(purpose = .file ∧ pieces ≠ [] ∧ pieces.all (· = [])) := by
    rcases ordinary with rfl | rfl <;> simp
  unfold walk
  rw [stretch, if_neg filled, if_neg notUp, if_neg notFile, if_pos (.inl long)]

/-! ## Leading to a directory -/

/-- How pieces lead from a directory to a directory, through so many links at most. -/
inductive Leads (fs : FileSystem) : Nat → Place → List Bytes → Place → Prop where
  | arrived {links : Nat} {here : Place} (node : fs.node? here = some .directory) : Leads fs links here [] here
  | idle {links : Nat} {here place : Place} {piece : Bytes} {pieces : List Bytes} (idle : Path.idle piece = true)
    (rest : Leads fs links here pieces place) : Leads fs links here (piece :: pieces) place
  | up {links : Nat} {here place : Place} {pieces : List Bytes} (rest : Leads fs links here.dropLast pieces place) :
    Leads fs links here ([dot, dot] :: pieces) place
  | enter {links : Nat} {here place : Place} {piece : Bytes} {pieces : List Bytes} (awake : Path.idle piece = false)
    (notUp : piece ≠ [dot, dot]) (short : piece.length ≤ nameLimit)
    (node : fs.node? (here ++ [piece]) = some .directory) (rest : Leads fs links (here ++ [piece]) pieces place) :
    Leads fs links here (piece :: pieces) place
  | link {links : Nat} {here place : Place} {piece : Bytes} {pieces : List Bytes} {target : Path}
    (awake : Path.idle piece = false) (notUp : piece ≠ [dot, dot]) (short : piece.length ≤ nameLimit)
    (node : fs.node? (here ++ [piece]) = some (.link target))
    (rest : Leads fs links (if target.isAbsolute then [] else here) (Path.split target.bytes ++ pieces) place) :
    Leads fs (links + 1) here (piece :: pieces) place

/-! ## Finding something -/

/-- How pieces lead from a directory to something that is there, through so many links at most. -/
inductive Arrives (fs : FileSystem) : Nat → Place → List Bytes → Place → Prop where
  | arrived {links : Nat} {here : Place} : Arrives fs links here [] here
  | idle {links : Nat} {here place : Place} {piece : Bytes} {pieces : List Bytes} (idle : Path.idle piece = true)
    (rest : Arrives fs links here pieces place) : Arrives fs links here (piece :: pieces) place
  | up {links : Nat} {here place : Place} {pieces : List Bytes} (rest : Arrives fs links here.dropLast pieces place) :
    Arrives fs links here ([dot, dot] :: pieces) place
  | enter {links : Nat} {here place : Place} {piece : Bytes} {pieces : List Bytes} (awake : Path.idle piece = false)
    (notUp : piece ≠ [dot, dot]) (short : piece.length ≤ nameLimit)
    (node : fs.node? (here ++ [piece]) = some .directory) (rest : Arrives fs links (here ++ [piece]) pieces place) :
    Arrives fs links here (piece :: pieces) place
  | file {links : Nat} {here : Place} {piece : Bytes} {number : Nat} (awake : Path.idle piece = false)
    (notUp : piece ≠ [dot, dot]) (short : piece.length ≤ nameLimit)
    (node : fs.node? (here ++ [piece]) = some (.file number)) : Arrives fs links here [piece] (here ++ [piece])
  | link {links : Nat} {here place : Place} {piece : Bytes} {pieces : List Bytes} {target : Path}
    (awake : Path.idle piece = false) (notUp : piece ≠ [dot, dot]) (short : piece.length ≤ nameLimit)
    (node : fs.node? (here ++ [piece]) = some (.link target))
    (rest : Arrives fs links (if target.isAbsolute then [] else here) (Path.split target.bytes ++ pieces) place) :
    Arrives fs (links + 1) here (piece :: pieces) place

/-- A walk that finds something follows names as if it were to get at it, whatever
else it is for: what is refused to it alone was not met. -/
theorem walk_name_of_ok (notFile : purpose ≠ .file) (awake : idle piece = false) (notUp : piece ≠ [dot, dot])
    (walked : fs.walk purpose links here (piece :: pieces) = .ok (.found place)) :
    piece.length ≤ nameLimit ∧
      match fs.node? (here ++ [piece]) with
      | none => False
      | some .directory => fs.walk purpose links (here ++ [piece]) pieces = .ok (.found place)
      | some (.file _) => pieces = [] ∧ here ++ [piece] = place
      | some (.link target) =>
        pieces = [] ∧ purpose = .look ∧ here ++ [piece] = place ∨ ∃ fewer, links = fewer + 1 ∧
          fs.walk purpose fewer (if target.isAbsolute then [] else here) (Path.split target.bytes ++ pieces) =
            .ok (.found place) := by
  have filled : ¬(piece = [] ∨ piece = [dot]) := by
    rw [← Path.idle_iff]
    simp [awake]
  have entered : ¬(purpose = .file ∧ pieces ≠ [] ∧ pieces.all (· = [])) := fun h => notFile h.1
  unfold walk at walked
  rw [stretch, if_neg filled, if_neg notUp, if_neg entered] at walked
  by_cases long : nameLimit < piece.length ∨
      purpose = .place ∧ pathLimit < (Place.path (here ++ [piece])).bytes.length
  · simp [if_pos long] at walked
  rw [if_neg long] at walked
  refine ⟨by omega, ?_⟩
  cases found : fs.node? (here ++ [piece]) with
  | none =>
    rw [found] at walked
    by_cases last : pieces = [] <;> simp [last] at walked
  | some item =>
    rw [found] at walked
    cases item with
    | directory =>
      show fs.walk purpose links (here ++ [piece]) pieces = .ok (.found place)
      unfold walk
      exact walked
    | file number =>
      by_cases last : pieces = []
      · simpa [last] using walked
      · by_cases deep : purpose = .place ∧ tooDeep (here ++ [piece]) (nextName pieces) = true <;>
          simp [last, deep] at walked
    | link target =>
      by_cases seen : pieces = [] ∧ purpose = .look
      · refine Or.inl ⟨seen.1, seen.2, ?_⟩
        simpa [seen] using walked
      · simp only [if_neg seen] at walked
        cases links with
        | zero => cases walked
        | succ fewer => exact Or.inr ⟨fewer, rfl, walked⟩

/-- A walk that finds something, be it to get at it or to know its place, arrives there. -/
theorem arrives_of_walk (purposeful : purpose ≠ .file ∧ purpose ≠ .look)
    (walked : fs.walk purpose links here pieces = .ok (.found place)) : Arrives fs links here pieces place := by
  -- a link starts a new row of pieces, with one link less to follow
  induction links using Nat.strongRecOn generalizing here pieces with
  | ind links following =>
    induction pieces generalizing here with
    | nil =>
      obtain rfl : here = place := by simpa [walk, stretch] using walked
      exact .arrived
    | cons piece pieces ih =>
      by_cases asleep : idle piece = true
      · rw [walk_idle asleep] at walked
        exact .idle asleep (ih walked)
      have awake : idle piece = false := by simpa using asleep
      by_cases up : piece = [dot, dot]
      · subst up
        rw [walk_up] at walked
        exact .up (ih walked)
      obtain ⟨short, onward⟩ := walk_name_of_ok purposeful.1 awake up walked
      split at onward
      · exact onward.elim
      · exact .enter awake up short ‹_› (ih onward)
      · obtain ⟨rfl, rfl⟩ := onward
        exact .file awake up short ‹_›
      · obtain ⟨-, look, -⟩ | ⟨fewer, rfl, onward⟩ := onward
        · exact absurd look purposeful.2
        · exact .link awake up short ‹_› (following fewer (by omega) onward)

theorem Arrives.walk (arrives : Arrives fs links here pieces place) :
    fs.walk .reach links here pieces = .ok (.found place) := by
  induction arrives with
  | arrived => simp [FileSystem.walk, stretch]
  | idle asleep _ ih => rw [walk_idle asleep, ih]
  | up _ ih => rw [walk_up, ih]
  | enter awake notUp short node _ ih =>
    rw [walk_name (Or.inr rfl) awake notUp short, node]
    exact ih
  | file awake notUp short node =>
    rw [walk_name (Or.inr rfl) awake notUp short, node]
    rfl
  | link awake notUp short node _ ih =>
    rw [walk_name (Or.inr rfl) awake notUp short, node]
    simpa using ih

theorem Arrives.leads (arrives : Arrives fs links here pieces place) (node : fs.node? place = some .directory) :
    Leads fs links here pieces place := by
  induction arrives with
  | arrived => exact .arrived node
  | idle asleep _ ih => exact .idle asleep (ih node)
  | up _ ih => exact .up (ih node)
  | enter awake notUp short entered _ ih => exact .enter awake notUp short entered (ih node)
  | file _ _ _ file =>
    rw [file] at node
    cases node
  | link awake notUp short link _ ih => exact .link awake notUp short link (ih node)

/-- A walk that ends at a directory leads there. -/
theorem leads_of_walk (walked : fs.walk .reach links here pieces = .ok (.found place))
    (node : fs.node? place = some .directory) : Leads fs links here pieces place :=
  (arrives_of_walk (by decide) walked).leads node

/-- A walk to a directory goes on from there. -/
theorem Leads.walk_append (leads : Leads fs links here pieces place) (ordinary : purpose = .look ∨ purpose = .reach)
    (more : rest ≠ [] ∨ purpose = .reach) :
    ∃ left, fs.walk purpose links here (pieces ++ rest) = fs.walk purpose left place rest := by
  induction leads with
  | arrived => exact ⟨_, rfl⟩
  | idle asleep _ ih =>
    obtain ⟨left, same⟩ := ih
    exact ⟨left, by rw [List.cons_append, walk_idle asleep, same]⟩
  | up _ ih =>
    obtain ⟨left, same⟩ := ih
    exact ⟨left, by rw [List.cons_append, walk_up, same]⟩
  | enter awake notUp short node _ ih =>
    obtain ⟨left, same⟩ := ih
    refine ⟨left, ?_⟩
    rw [List.cons_append, walk_name ordinary awake notUp short, node]
    exact same
  | @link links here place piece pieces target awake notUp short node _ ih =>
    obtain ⟨left, same⟩ := ih
    refine ⟨left, ?_⟩
    have onward : ¬(pieces ++ rest = [] ∧ purpose = .look) := by
      rcases more with more | rfl
      · simp [more]
      · simp
    rw [List.cons_append, walk_name ordinary awake notUp short, node]
    simp only [if_neg onward]
    rw [← same, List.append_assoc]

theorem Leads.walk (leads : Leads fs links here pieces place) :
    fs.walk .reach links here pieces = .ok (.found place) := by
  obtain ⟨left, same⟩ : ∃ left, fs.walk .reach links here (pieces ++ []) = fs.walk .reach left place [] :=
    leads.walk_append (Or.inr rfl) (Or.inr rfl)
  rw [List.append_nil] at same
  rw [same]
  simp [FileSystem.walk, stretch]

theorem Leads.node (leads : Leads fs links here pieces place) : fs.node? place = some .directory := by
  induction leads with
  | arrived node => exact node
  | idle _ _ ih => exact ih
  | up _ ih => exact ih
  | enter _ _ _ _ _ ih => exact ih
  | link _ _ _ _ _ ih => exact ih

theorem Leads.look (leads : Leads fs links here pieces place) :
    ∃ seen, fs.walk .look links here pieces = .ok (.found seen) := by
  induction leads with
  | @arrived _ here => exact ⟨here, by simp [FileSystem.walk, stretch]⟩
  | idle asleep _ ih => rwa [walk_idle asleep]
  | up _ ih => rwa [walk_up]
  | enter awake notUp short node _ ih =>
    rw [walk_name (Or.inl rfl) awake notUp short, node]
    exact ih
  | @link links here place piece pieces target awake notUp short node _ ih =>
    rw [walk_name (Or.inl rfl) awake notUp short, node]
    by_cases last : pieces = []
    · exact ⟨here ++ [piece], by simp [last]⟩
    · simp only [if_neg (not_and_of_not_left _ last)]
      exact ih

theorem leads_append_idle {front : List Bytes} (asleep : ∀ piece ∈ front, idle piece = true)
    (leads : Leads fs links here pieces place) : Leads fs links here (front ++ pieces) place := by
  induction front with
  | nil => exact leads
  | cons piece front ih => exact .idle (asleep piece (by simp)) (ih fun p hp => asleep p (by simp [hp]))

theorem busy_eq_cons {others : List Bytes} (h : busy others = piece :: rest) :
    ∃ front back, others = front ++ piece :: back ∧ (∀ p ∈ front, idle p = true) ∧ busy back = rest := by
  obtain ⟨front, back, rfl, asleep, -, same⟩ := List.filter_eq_cons_iff.1 h
  exact ⟨front, back, rfl, by simpa using asleep, same⟩

/-- Pieces that stand for nothing make no difference. -/
theorem Leads.congr (leads : Leads fs links here pieces place) {others : List Bytes}
    (same : busy others = busy pieces) : Leads fs links here others place := by
  induction leads generalizing others with
  | arrived node =>
    have asleep : ∀ p ∈ others, Path.idle p = true := by simpa [busy] using same
    rw [← List.append_nil others]
    exact leads_append_idle asleep (.arrived node)
  | idle asleep _ ih => exact ih (by rw [same, Path.busy_idle asleep])
  | up _ ih =>
    rw [Path.busy_cons (by decide)] at same
    obtain ⟨front, back, rfl, asleep, rest⟩ := busy_eq_cons same
    exact leads_append_idle asleep (.up (ih rest))
  | enter awake notUp short node _ ih =>
    rw [Path.busy_cons awake] at same
    obtain ⟨front, back, rfl, asleep, rest⟩ := busy_eq_cons same
    exact leads_append_idle asleep (.enter awake notUp short node (ih rest))
  | link awake notUp short node _ ih =>
    rw [Path.busy_cons awake] at same
    obtain ⟨front, back, rfl, asleep, rest⟩ := busy_eq_cons same
    refine leads_append_idle asleep (.link awake notUp short node (ih ?_))
    rw [Path.busy_append, Path.busy_append, rest]

/-- Whether every directory and every link of a file system is one of another. -/
def Keeps (fs other : FileSystem) : Prop :=
  ∀ place node, (∀ number, node ≠ .file number) → fs.node? place = some node → other.node? place = some node

theorem Leads.mono {other : FileSystem} (keeps : fs.Keeps other) (leads : Leads fs links here pieces place) :
    Leads other links here pieces place := by
  induction leads with
  | arrived node => exact .arrived (keeps _ _ (by simp) node)
  | idle asleep _ ih => exact .idle asleep ih
  | up _ ih => exact .up ih
  | enter awake notUp short node _ ih => exact .enter awake notUp short (keeps _ _ (by simp) node) ih
  | link awake notUp short node _ ih => exact .link awake notUp short (keeps _ _ (by simp) node) ih

/-! ## Paths of directories -/

/-- Whether a path can be followed. -/
structure Sound (p : Path) : Prop where
  given : p.bytes ≠ []
  noZero : 0 ∉ p.bytes
  short : p.bytes.length ≤ pathLimit

/-- Whether an entry of a directory may have a name. -/
structure Usable (name : Bytes) : Prop extends IsName name where
  noZero : 0 ∉ name
  brief : name.length ≤ nameLimit

variable {p : Path} {name : Bytes} {names : List Bytes}

theorem checkPath_iff (ordinary : purpose = .look ∨ purpose = .reach) : checkPath purpose p = .ok () ↔ Sound p := by
  have notPlace : purpose ≠ .place := by rcases ordinary with rfl | rfl <;> simp
  unfold checkPath
  constructor
  · intro h
    split at h
    · cases h
    · split at h
      · cases h
      · split at h
        · cases h
        · rename_i zero given long
          exact ⟨given, by simpa using zero, by simpa [notPlace] using long⟩
  · intro h
    rw [if_neg (by simpa using h.noZero), if_neg h.given, if_neg (by simpa [notPlace] using h.short)]

theorem locate_eq (ordinary : purpose = .look ∨ purpose = .reach) (sound : Sound p) :
    fs.locate purpose p = fs.walk purpose linkLimit [] (Path.split p.bytes) := by
  rw [locate, (checkPath_iff ordinary).2 sound]

theorem sound_of_locate (ordinary : purpose = .look ∨ purpose = .reach) {destination : Destination}
    (located : fs.locate purpose p = .ok destination) : Sound p := by
  refine (checkPath_iff ordinary).1 ?_
  cases checked : checkPath purpose p with
  | ok => rfl
  | error fault => simp [locate, checked] at located

/-- A path that is too long is refused, and not because nothing is there. -/
theorem checkPath_long (ordinary : purpose ≠ .place) (long : pathLimit < p.bytes.length) :
    ∃ fault, fault ≠ .notFound ∧ checkPath purpose p = .error fault := by
  have given : p.bytes ≠ [] := List.length_pos_iff.1 (by omega)
  by_cases zero : p.bytes.contains 0
  · exact ⟨.zeroByte, by decide, if_pos zero⟩
  · exact ⟨.nameTooLong, by decide, by rw [checkPath, if_neg zero, if_neg given, if_pos ⟨ordinary, long⟩]⟩

theorem locate_long (ordinary : purpose ≠ .place) (long : pathLimit < p.bytes.length) :
    ∃ fault, fs.locate purpose p = .error fault := by
  obtain ⟨fault, -, refused⟩ := checkPath_long ordinary long
  exact ⟨fault, by rw [locate, refused]⟩

theorem reach_iff : fs.reach p = .ok place ↔
    Sound p ∧ fs.walk .reach linkLimit [] (Path.split p.bytes) = .ok (.found place) := by
  constructor
  · intro h
    by_cases sound : Sound p
    · refine ⟨sound, ?_⟩
      rw [reach, placeFor, locate_eq (Or.inr rfl) sound] at h
      split at h
      · cases h
      · cases h
      · rename_i found
        cases h
        exact found
    · rw [reach, placeFor, locate] at h
      cases refused : checkPath .reach p with
      | error fault => simp [refused] at h
      | ok => exact absurd ((checkPath_iff (Or.inr rfl)).1 refused) sound
  · intro ⟨sound, walked⟩
    rw [reach, placeFor, locate_eq (Or.inr rfl) sound, walked]

/-- Whether a path gets at the directory at a place. -/
structure DirectoryAt (fs : FileSystem) (p : Path) (place : Place) : Prop where
  reached : fs.reach p = .ok place
  node : fs.node? place = some .directory

theorem DirectoryAt.sound (h : fs.DirectoryAt p place) : Sound p := (reach_iff.1 h.reached).1

theorem DirectoryAt.leads (h : fs.DirectoryAt p place) : Leads fs linkLimit [] (Path.split p.bytes) place :=
  leads_of_walk (reach_iff.1 h.reached).2 h.node

theorem Leads.directoryAt (leads : Leads fs linkLimit [] (Path.split p.bytes) place) (sound : Sound p) :
    fs.DirectoryAt p place :=
  ⟨reach_iff.2 ⟨sound, leads.walk⟩, leads.node⟩

theorem DirectoryAt.mono {other : FileSystem} (keeps : fs.Keeps other) (h : fs.DirectoryAt p place) :
    other.DirectoryAt p place :=
  (h.leads.mono keeps).directoryAt h.sound

/-- A path gets at the same directory without the pieces that stand for nothing. -/
theorem DirectoryAt.congr (h : fs.DirectoryAt p place) {q : Path} (given : q.bytes ≠ [])
    (bytes : ∀ b ∈ q.bytes, b = slash ∨ b = dot ∨ b ∈ p.bytes) (shorter : q.bytes.length ≤ p.bytes.length)
    (same : busy (Path.split q.bytes) = busy (Path.split p.bytes)) : fs.DirectoryAt q place := by
  refine (h.leads.congr same).directoryAt ⟨given, fun zero => ?_, Nat.le_trans shorter h.sound.short⟩
  rcases bytes 0 zero with zero | zero | zero
  · exact absurd zero (by decide)
  · exact absurd zero (by decide)
  · exact h.sound.noZero zero

theorem DirectoryAt.plain (h : fs.DirectoryAt p place) : fs.DirectoryAt (Path.ofComponents p.components) place :=
  h.congr (Path.ofComponents_ne_nil h.sound.given) (fun _ => Path.mem_ofComponents) (Path.length_ofComponents_le p)
    (Path.busy_split_congr (Path.components_ofComponents p))

theorem DirectoryAt.trimmed (h : fs.DirectoryAt p place) : fs.DirectoryAt p.trimmed place :=
  h.congr (Path.trimmed_ne_nil h.sound.given) (fun _ => Path.mem_trimmed) (Path.length_trimmed_le p)
    (Path.busy_split_trimmed p)

theorem Sound.extend (sound : Sound p) (usable : ∀ n ∈ names, Usable n)
    (short : (p.extend names).bytes.length ≤ pathLimit) : Sound (p.extend names) := by
  refine ⟨Path.extend_ne_nil sound.given fun n hn => (usable n hn).toIsName, ?_, short⟩
  intro zero
  rcases Path.mem_extend zero with zero | zero | ⟨n, hn, zero⟩
  · exact sound.noZero zero
  · exact absurd zero (by decide)
  · exact (usable n hn).noZero zero

/-- Where names after the path of a directory lead, unless there is something wrong with the path. -/
theorem DirectoryAt.locate_names (h : fs.DirectoryAt p place) (ordinary : purpose = .look ∨ purpose = .reach)
    (isName : ∀ n ∈ names, IsName n) (given : names ≠ []) (sound : Sound (p.extend names)) :
    ∃ left, fs.locate purpose (p.extend names) = fs.walk purpose left place names := by
  obtain ⟨front, split, same⟩ := Path.split_extend h.sound.given isName
  rw [locate_eq ordinary sound, split]
  exact (h.leads.congr same).walk_append ordinary (Or.inl given)

theorem DirectoryAt.locate_extend (h : fs.DirectoryAt p place) (ordinary : purpose = .look ∨ purpose = .reach)
    (usable : ∀ n ∈ names, Usable n) (given : names ≠ []) (short : (p.extend names).bytes.length ≤ pathLimit) :
    ∃ left, fs.locate purpose (p.extend names) = fs.walk purpose left place names :=
  h.locate_names ordinary (fun n hn => (usable n hn).toIsName) given (h.sound.extend usable short)

/-- What the name of an entry leads to. -/
theorem DirectoryAt.locate_push (h : fs.DirectoryAt p place) (ordinary : purpose = .look ∨ purpose = .reach)
    (usable : Usable name) (short : (p.push name).bytes.length ≤ pathLimit) :
    ∃ left, fs.locate purpose (p.push name) = fs.walk purpose left place [name] := by
  have all : ∀ n ∈ [name], Usable n := by simpa using usable
  exact h.locate_extend ordinary all (by simp) short

theorem walk_entry (ordinary : purpose = .look ∨ purpose = .reach) (usable : Usable name) {node : Node}
    (solid : ∀ target, node ≠ .link target) (found : fs.node? (place ++ [name]) = some node) :
    fs.walk purpose links place [name] = .ok (.found (place ++ [name])) := by
  rw [walk_name ordinary usable.not_idle usable.notUp usable.brief, found]
  cases node with
  | directory => simp [walk, stretch]
  | file number => rfl
  | link target => exact absurd rfl (solid target)

theorem DirectoryAt.locate_found (h : fs.DirectoryAt p place) (ordinary : purpose = .look ∨ purpose = .reach)
    (usable : Usable name) (short : (p.push name).bytes.length ≤ pathLimit) {node : Node}
    (solid : ∀ target, node ≠ .link target) (found : fs.node? (place ++ [name]) = some node) :
    fs.locate purpose (p.push name) = .ok (.found (place ++ [name])) := by
  obtain ⟨left, same⟩ := h.locate_push ordinary usable short
  rw [same, walk_entry ordinary usable solid found]

theorem DirectoryAt.locate_missing (h : fs.DirectoryAt p place) (ordinary : purpose = .look ∨ purpose = .reach)
    (usable : Usable name) (short : (p.push name).bytes.length ≤ pathLimit)
    (free : fs.node? (place ++ [name]) = none) : fs.locate purpose (p.push name) = .ok (.missing place name) := by
  obtain ⟨left, same⟩ := h.locate_push ordinary usable short
  rw [same, walk_name ordinary usable.not_idle usable.notUp usable.brief, free]
  rfl

theorem DirectoryAt.push (h : fs.DirectoryAt p place) (usable : Usable name)
    (short : (p.push name).bytes.length ≤ pathLimit) (node : fs.node? (place ++ [name]) = some .directory) :
    fs.DirectoryAt (p.push name) (place ++ [name]) := by
  refine ⟨?_, node⟩
  rw [reach, placeFor, h.locate_found (Or.inr rfl) usable short (by simp) node]

/-- Whether names lead from a place through directories only. -/
def Spine (fs : FileSystem) (place : Place) (names : List Bytes) : Prop :=
  ∀ init, init <+: names → init ≠ [] → fs.node? (place ++ init) = some .directory

theorem Spine.tail (h : fs.Spine place (name :: names)) : fs.Spine (place ++ [name]) names := by
  intro init hinit given
  have := h (name :: init) (List.cons_prefix_cons.2 ⟨rfl, hinit⟩) (by simp)
  simpa using this

theorem spine_nil (fs : FileSystem) (place : Place) : fs.Spine place [] :=
  fun _ within given => absurd (List.prefix_nil.1 within) given

theorem spine_cons (node : fs.node? (place ++ [name]) = some .directory) (spine : fs.Spine (place ++ [name]) names) :
    fs.Spine place (name :: names) := by
  intro init within given
  cases init with
  | nil => exact absurd rfl given
  | cons first init =>
    obtain ⟨rfl, rest⟩ := List.cons_prefix_cons.1 within
    by_cases last : init = []
    · rw [last]
      exact node
    · simpa using spine init rest last

theorem spine_concat (spine : fs.Spine place names)
    (node : fs.node? (place ++ (names ++ [name])) = some .directory) : fs.Spine place (names ++ [name]) := by
  intro init within given
  rcases List.prefix_concat_iff.1 within with rfl | within
  · exact node
  · exact spine init within given

/-- Whether there is nothing but directories on the way along names. -/
def Clear (fs : FileSystem) (place : Place) (names : List Bytes) : Prop :=
  ∀ init, init <+: names → init ≠ [] →
    fs.node? (place ++ init) = none ∨ fs.node? (place ++ init) = some .directory

theorem Clear.of_append {more : List Bytes} (clear : fs.Clear place (names ++ more)) : fs.Clear place names :=
  fun init within given => clear init (within.trans (List.prefix_append _ _)) given

theorem Clear.tail (clear : fs.Clear place (name :: names)) : fs.Clear (place ++ [name]) names := by
  intro init within given
  simpa using clear (name :: init) (List.cons_prefix_cons.2 ⟨rfl, within⟩) (by simp)

theorem DirectoryAt.extend (h : fs.DirectoryAt p place) (usable : ∀ n ∈ names, Usable n)
    (short : (p.extend names).bytes.length ≤ pathLimit) (spine : fs.Spine place names) :
    fs.DirectoryAt (p.extend names) (place ++ names) := by
  induction names generalizing p place with
  | nil => simpa using h
  | cons name names ih =>
    have first : (p.push name).bytes.length ≤ pathLimit := by
      have whole : ∀ n ∈ names, slash ∉ n := fun n hn => (usable n (by simp [hn])).whole
      have := Path.length_le_extend (p := p.push name) whole
      rw [Path.extend_cons] at short
      omega
    have node := spine [name] (by simp) (by simp)
    have next := h.push (usable name (by simp)) first node
    have rest := ih next (fun n hn => usable n (by simp [hn])) short spine.tail
    simpa using rest

/-- Whether following a path shows that nothing is there. -/
def Nowhere (result : Except OsFault Destination) : Prop :=
  result = .error .notFound ∨ ∃ directory name, result = .ok (.missing directory name)

theorem walk_absent (ordinary : purpose = .look ∨ purpose = .reach) (usable : ∀ n ∈ names, Usable n)
    (given : names ≠ []) (free : fs.node? (place ++ names) = none) (clear : fs.Clear place names) :
    Nowhere (fs.walk purpose links place names) := by
  induction names generalizing place with
  | nil => exact absurd rfl given
  | cons name names ih =>
    have hname := usable name (by simp)
    rw [walk_name ordinary hname.not_idle hname.notUp hname.brief]
    rcases clear [name] (by simp) (by simp) with node | node
    · rw [node]
      by_cases last : names = []
      · exact Or.inr ⟨place, name, by simp [last]⟩
      · exact Or.inl (by simp [last])
    · rw [node]
      by_cases last : names = []
      · rw [last, node] at free
        cases free
      · exact ih (fun n hn => usable n (by simp [hn])) last (by simpa using free) clear.tail

/-- Names after the path of a directory, where there is nothing, and only directories on the way. -/
theorem DirectoryAt.locate_absent (h : fs.DirectoryAt p place) (ordinary : purpose = .look ∨ purpose = .reach)
    (usable : ∀ n ∈ names, Usable n) (given : names ≠ []) (short : (p.extend names).bytes.length ≤ pathLimit)
    (free : fs.node? (place ++ names) = none) (clear : fs.Clear place names) :
    Nowhere (fs.locate purpose (p.extend names)) := by
  obtain ⟨left, same⟩ := h.locate_extend ordinary usable given short
  rw [same]
  exact walk_absent ordinary usable given free clear

/-! ## Without links -/

/-- Whether no links are below a place. -/
def Solid (fs : FileSystem) (place : Place) : Prop :=
  ∀ names target, names ≠ [] → fs.node? (place ++ names) ≠ some (.link target)

theorem Solid.below (solid : fs.Solid place) (name : Bytes) : fs.Solid (place ++ [name]) := by
  intro names target _
  rw [List.append_assoc]
  exact solid _ target (by simp)

theorem Solid.place_of_walk (solid : fs.Solid place) (ordinary : purpose = .look ∨ purpose = .reach)
    (isName : ∀ n ∈ names, IsName n) {there : Place} (node : fs.node? place ≠ none)
    (walked : fs.walk purpose links place names = .ok (.found there)) :
    there = place ++ names ∧ fs.node? there ≠ none := by
  induction names generalizing place with
  | nil =>
    obtain rfl : place = there := by simpa [walk, stretch] using walked
    exact ⟨(List.append_nil place).symm, node⟩
  | cons name names ih =>
    have hname := isName name List.mem_cons_self
    have rest := fun n hn => isName n (List.mem_cons_of_mem name hn)
    by_cases long : nameLimit < name.length
    · rw [walk_long ordinary hname.not_idle hname.notUp long] at walked
      cases walked
    rw [walk_name ordinary hname.not_idle hname.notUp (Nat.not_lt.1 long)] at walked
    split at walked
    · split at walked <;> cases walked
    · rename_i directory
      obtain ⟨same, filled⟩ := ih (solid.below name) rest (by simp [directory]) walked
      exact ⟨by rw [same, List.append_assoc, List.singleton_append], filled⟩
    · rename_i file
      split at walked
      · rename_i last
        cases walked
        exact ⟨by rw [last], by simp [file]⟩
      · cases walked
    · exact absurd ‹_› (solid [name] _ (by simp))

theorem DirectoryAt.place_of_locate (h : fs.DirectoryAt p place) (solid : fs.Solid place)
    (ordinary : purpose = .look ∨ purpose = .reach) (isName : ∀ n ∈ names, IsName n) (given : names ≠ [])
    {there : Place} (located : fs.locate purpose (p.extend names) = .ok (.found there)) :
    there = place ++ names ∧ fs.node? there ≠ none := by
  obtain ⟨left, same⟩ := h.locate_names ordinary isName given (sound_of_locate ordinary located)
  rw [same] at located
  exact solid.place_of_walk ordinary isName (by simp [h.node]) located

/-- Where there are no links, a path that goes on from a directory gets at the place of its names. -/
theorem DirectoryAt.place_of_reach (h : fs.DirectoryAt p place) (solid : fs.Solid place) (isName : ∀ n ∈ names, IsName n)
    {there : Place} (reached : fs.reach (p.extend names) = .ok there) : there = place ++ names := by
  by_cases given : names = []
  · rw [given, Path.extend_nil, h.reached] at reached
    rw [given, List.append_nil]
    exact (Except.ok.inj reached).symm
  · obtain ⟨sound, walked⟩ := reach_iff.1 reached
    exact (h.place_of_locate solid (.inr rfl) isName given ((locate_eq (.inr rfl) sound).trans walked)).1

/-- Where there are no links, only the last name may be missing: the others lead through directories. -/
theorem Solid.missing_of_walk (solid : fs.Solid place) (ordinary : purpose = .look ∨ purpose = .reach)
    (isName : ∀ n ∈ names, IsName n) {directory : Place} {last : Bytes}
    (walked : fs.walk purpose links place names = .ok (.missing directory last)) :
    ∃ front, names = front ++ [last] ∧ directory = place ++ front ∧ fs.Spine place front ∧
      fs.node? (place ++ names) = none ∧ ∀ n ∈ names, n.length ≤ nameLimit := by
  induction names generalizing place with
  | nil => simp [walk, stretch] at walked
  | cons name names ih =>
    have hname := isName name List.mem_cons_self
    have rest := fun n hn => isName n (List.mem_cons_of_mem name hn)
    by_cases long : nameLimit < name.length
    · rw [walk_long ordinary hname.not_idle hname.notUp long] at walked
      cases walked
    have brief := Nat.not_lt.1 long
    rw [walk_name ordinary hname.not_idle hname.notUp brief] at walked
    split at walked
    · rename_i free
      split at walked
      · rename_i only
        obtain ⟨rfl, rfl⟩ : place = directory ∧ name = last := by simpa using walked
        exact ⟨[], by rw [only, List.nil_append], (List.append_nil place).symm, spine_nil fs place, by rw [only, free],
          by simpa [only] using brief⟩
      · cases walked
    · rename_i node
      obtain ⟨front, rfl, rfl, spine, free, briefRest⟩ := ih (solid.below name) rest walked
      exact ⟨name :: front, rfl, by simp, spine_cons node spine, by simpa using free, List.forall_mem_cons.2 ⟨brief, briefRest⟩⟩
    · split at walked <;> cases walked
    · exact absurd ‹_› (solid [name] _ (by simp))

theorem DirectoryAt.missing_of_locate (h : fs.DirectoryAt p place) (solid : fs.Solid place)
    (ordinary : purpose = .look ∨ purpose = .reach) (isName : ∀ n ∈ names, IsName n) (given : names ≠ [])
    {directory : Place} {last : Bytes}
    (located : fs.locate purpose (p.extend names) = .ok (.missing directory last)) :
    ∃ front, names = front ++ [last] ∧ directory = place ++ front ∧ fs.Spine place front ∧
      fs.node? (place ++ names) = none ∧ ∀ n ∈ names, n.length ≤ nameLimit := by
  obtain ⟨left, same⟩ := h.locate_names ordinary isName given (sound_of_locate ordinary located)
  rw [same] at located
  exact solid.missing_of_walk ordinary isName located

/-! ## Two file systems -/

/-- Whether the same stands along names in two file systems. -/
def Agree (fs other : FileSystem) (place : Place) (names : List Bytes) : Prop :=
  ∀ init, init <+: names → init ≠ [] → other.node? (place ++ init) = fs.node? (place ++ init)

theorem Agree.tail {other : FileSystem} (agree : fs.Agree other place (name :: names)) :
    fs.Agree other (place ++ [name]) names := by
  intro init within given
  simpa using agree (name :: init) (List.cons_prefix_cons.2 ⟨rfl, within⟩) (by simp)

theorem Solid.walk_congr {other : FileSystem} (solid : fs.Solid place)
    (ordinary : purpose = .look ∨ purpose = .reach) (isName : ∀ n ∈ names, IsName n)
    (agree : fs.Agree other place names) (links left : Nat) :
    other.walk purpose left place names = fs.walk purpose links place names := by
  induction names generalizing place with
  | nil => simp [walk, stretch]
  | cons name names ih =>
    have hname := isName name List.mem_cons_self
    have rest := fun n hn => isName n (List.mem_cons_of_mem name hn)
    by_cases long : nameLimit < name.length
    · rw [walk_long ordinary hname.not_idle hname.notUp long, walk_long ordinary hname.not_idle hname.notUp long]
    have short := Nat.not_lt.1 long
    rw [walk_name ordinary hname.not_idle hname.notUp short, walk_name ordinary hname.not_idle hname.notUp short,
      agree [name] (by simp) (by simp)]
    cases found : fs.node? (place ++ [name]) with
    | none => rfl
    | some node =>
      cases node with
      | directory => exact ih (solid.below name) rest agree.tail
      | file number => rfl
      | link target => exact absurd found (solid [name] target (by simp))

/-- A path leads to the same, if it goes on from that of a directory along what is the same. -/
theorem DirectoryAt.locate_congr {other : FileSystem} (h : fs.DirectoryAt p place) (h' : other.DirectoryAt p place)
    (solid : fs.Solid place) (ordinary : purpose = .look ∨ purpose = .reach) (isName : ∀ n ∈ names, IsName n)
    (given : names ≠ []) (agree : fs.Agree other place names) :
    other.locate purpose (p.extend names) = fs.locate purpose (p.extend names) := by
  cases checked : checkPath purpose (p.extend names) with
  | error fault => rw [locate, locate, checked]
  | ok =>
    have sound := (checkPath_iff ordinary).1 checked
    obtain ⟨links, here⟩ := h.locate_names ordinary isName given sound
    obtain ⟨left, there⟩ := h'.locate_names ordinary isName given sound
    rw [here, there]
    exact solid.walk_congr ordinary isName agree links left

theorem isFile_iff_found :
    fs.isFile p = true ↔ ∃ there number, fs.locate .reach p = .ok (.found there) ∧
      fs.node? there = some (.file number) := by
  unfold isFile nodeAt? reach placeFor
  cases fs.locate .reach p with
  | error fault => simp
  | ok destination =>
    cases destination with
    | missing directory name => simp
    | found there =>
      dsimp only
      constructor
      · intro file
        split at file
        · exact ⟨there, _, rfl, ‹_›⟩
        · cases file
      · rintro ⟨_, number, ⟨⟩, found⟩
        rw [found]

end ContentChunks.FileSystem
