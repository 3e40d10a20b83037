/-
A store answers as a finite map from signatures to payloads would, whatever it
is asked and in whatever order.

Main statements:
- `Holds.list_eq`: the list of a store has each signature of the map once.
- `Holds.call`: one call is answered as by the map, and the store has what the map has then.
- `answers_eq_map`: so are all the calls of a run on a store whose directory was empty.
-/
import ContentChunks.Proofs.Storing
import ContentChunks.Store.List

namespace ContentChunks

namespace Store

open FileSystem (pathLimit outOfReach)

variable {s : Store} {place : Place} {fs : FileSystem} {m : Payloads} {signature : Signature} {data : Bytes}

/-! ## Getting -/

theorem contentAt_of_get (got : s.get fs signature = .ok data) : fs.contentAt (s.path signature) = .ok data := by
  unfold get at got
  split at got
  · cases got
  · cases got
  · rename_i payload read
    dsimp only at got
    split at got
    · cases got
    · rw [read, ← Except.ok.inj got]

/-! ## Listing -/

theorem folder_outOfReach (pos : 0 < s.config.segmentWidth) (takes : s.Takes signature)
    (short : (s.folder signature).bytes.length ≤ pathLimit) {names : List Bytes}
    (within : names <+: s.folders signature) (given : names ≠ []) :
    outOfReach s.root names = false := by
  obtain ⟨rest, same⟩ := within
  have usable := usable_folders pos takes
  rw [← same] at usable
  have isNames : ∀ n ∈ names, Path.IsName n := fun n hn => (usable n (by simp [hn])).toIsName
  have whole : ∀ n ∈ rest, slash ∉ n := fun n hn => (usable n (by simp [hn])).whole
  have longer := Path.length_le_extend (p := s.root.extend names) whole
  rw [folder, ← same, Path.extend_append] at short
  simp only [outOfReach, ← Path.extend_eq_push_join s.root given isNames, decide_eq_false_iff_not]
  omega

theorem Holds.seen (h : s.Holds place fs m) (pos : 0 < s.config.segmentWidth) (fits : s.Fits)
    {names : List Bytes} {node : Node} (listed : (names, node) ∈ fs.below place) :
    ¬(names.length ≠ 1 ∧ outOfReach s.root names.dropLast = true) ∧
      ¬(node = .directory ∧ outOfReach s.root names = true) := by
  obtain ⟨given, found⟩ := (FileSystem.mem_below_iff h.unique).1 listed
  have entry := h.entry names node given found
  have front (other : Signature) (takes : s.Takes other) (within : names.dropLast <+: s.folders other) :
      ¬(names.length ≠ 1 ∧ outOfReach s.root names.dropLast = true) := by
    rintro ⟨deep, far⟩
    have : names.dropLast ≠ [] := by
      intro empty
      have := congrArg List.length empty
      have := List.length_pos_iff.2 given
      simp at *
      omega
    rw [folder_outOfReach pos takes (length_folder_le pos takes (fits.object other takes)) within this] at far
    cases far
  cases node with
  | directory =>
    obtain ⟨other, takes, within⟩ := entry
    refine ⟨front other takes ((List.dropLast_prefix names).trans within), ?_⟩
    rw [folder_outOfReach pos takes (length_folder_le pos takes (fits.object other takes)) within given]
    simp
  | file number =>
    obtain ⟨other, data, has, same, -⟩ := entry
    refine ⟨front other (h.held other data has).1 (by simp [same]), by simp⟩
  | link target => exact entry.elim

/-- If every directory can be read, everything below the root is looked at. -/
theorem list_eq_filterMap (root : fs.DirectoryAt s.root place)
    (readable : ∀ names node, (names, node) ∈ fs.below place →
      ¬(names.length ≠ 1 ∧ outOfReach s.root names.dropLast = true) ∧
        ¬(node = .directory ∧ outOfReach s.root names = true)) :
    s.list fs = (fs.below place).filterMap fun (names, node) => s.item? names (.ok node) := by
  have seen : fs.seenBelow s.root = .ok ((fs.below place).map fun (names, node) => (names, .ok node)) := by
    rw [FileSystem.seenBelow, root.reached]
    refine congrArg Except.ok ?_
    rw [← List.filterMap_eq_map]
    refine List.filterMap_congr fun (names, node) listed => ?_
    obtain ⟨near, readable⟩ := readable names node listed
    simp [near, readable]
  rw [list, seen]
  simp only [List.filterMap_map]
  rfl

theorem Holds.list_below (h : s.Holds place fs m) (pos : 0 < s.config.segmentWidth) (fits : s.Fits) :
    s.list fs = (fs.below place).filterMap fun (names, node) => s.item? names (.ok node) :=
  list_eq_filterMap h.root fun _ _ listed => h.seen pos fits listed

theorem head?_of_temporary {name : Bytes} (h : isTemporary name = true) : name.head? = some dot := by
  simp only [isTemporary, Bool.and_eq_true, List.isPrefixOf_iff_prefix] at h
  obtain ⟨-, rest, rfl⟩ := h
  rfl

theorem isTemporary_object (pos : 0 < s.config.segmentWidth) (takes : s.Takes signature) :
    isTemporary (s.object signature) = false :=
  Bool.eq_false_iff.2 fun h => head?_object pos takes (head?_of_temporary h)

/-- What a list says of an entry: the signature of an object, and of a directory nothing. -/
theorem Holds.item_iff (h : s.Holds place fs m) (pos : 0 < s.config.segmentWidth)
    {names : List Bytes} {node : Node} (listed : (names, node) ∈ fs.below place) {item : Except Error Signature} :
    s.item? names (.ok node) = some item ↔ ∃ signature number, item = .ok signature ∧ signature ∈ m ∧
      names = s.folders signature ++ [s.object signature] ∧ node = .file number := by
  obtain ⟨given, found⟩ := (FileSystem.mem_below_iff h.unique).1 listed
  have entry := h.entry names node given found
  cases node with
  | directory => simp [item?]
  | file number =>
    obtain ⟨signature, data, has, rfl, -⟩ := entry
    have takes := (h.held signature data has).1
    have read : Key.signature ⟨Path.join (s.folders signature ++ [s.object signature])⟩ s.config.algorithm
        s.config.segmentWidth = .ok signature := by
      rw [← takes.algorithm]
      exact Key.signature_place pos takes.sized
    have told : s.item? (s.folders signature ++ [s.object signature]) (.ok (.file number)) =
        some (.ok signature) := by
      simp [item?, isTemporary_object pos takes, read]
    rw [told]
    constructor
    · intro same
      exact ⟨signature, number, (Option.some.inj same).symm, Finmap.mem_of_lookup_eq_some has, rfl, rfl⟩
    · rintro ⟨other, count, rfl, mem, same, -⟩
      obtain ⟨payload, hasOther⟩ := Finmap.mem_iff.1 mem
      rw [eq_of_folders pos (h.held other payload hasOther).1 takes same]
  | link target => exact entry.elim

/-- **The list of a store has each signature of the map once.** -/
theorem Holds.list_eq (h : s.Holds place fs m) (pos : 0 < s.config.segmentWidth) (fits : s.Fits) :
    (s.list fs : Multiset (Except Error Signature)) = m.keys.val.map .ok := by
  rw [h.list_below pos fits]
  have once : ((fs.below place).filterMap fun (names, node) => s.item? names (.ok node)).Nodup := by
    have apart : (fs.below place).Pairwise fun e e' => e.1 ≠ e'.1 := List.pairwise_map.1 h.unique
    refine List.pairwise_filterMap.2 (apart.imp_of_mem ?_)
    rintro ⟨names, node⟩ ⟨names', node'⟩ listed listed' differ item told item' told' rfl
    obtain ⟨signature, _, rfl, -, here, -⟩ := (h.item_iff pos listed).1 told
    obtain ⟨other, _, same, -, there, -⟩ := (h.item_iff pos listed').1 told'
    obtain rfl := Except.ok.inj same
    exact differ (here.trans there.symm)
  have keysOnce : (m.keys.val.map (Except.ok (ε := Error))).Nodup :=
    m.keys.nodup.map fun _ _ same => Except.ok.inj same
  refine (Multiset.Nodup.ext (Multiset.coe_nodup.2 once) keysOnce).2 fun item => ?_
  rw [Multiset.mem_coe, List.mem_filterMap, Multiset.mem_map]
  constructor
  · rintro ⟨⟨names, node⟩, listed, told⟩
    obtain ⟨signature, _, rfl, mem, -, -⟩ := (h.item_iff pos listed).1 told
    exact ⟨signature, Finmap.mem_keys.2 mem, rfl⟩
  · rintro ⟨signature, mem, rfl⟩
    have mem := Finmap.mem_keys.1 mem
    obtain ⟨data, has⟩ := Finmap.mem_iff.1 mem
    obtain ⟨-, -, number, found⟩ := h.held signature data has
    have listed := (FileSystem.mem_below_iff h.unique).2 ⟨by simp, found⟩
    exact ⟨_, listed, (h.item_iff pos listed).2 ⟨signature, number, rfl, mem, rfl, rfl⟩⟩

/-! ## Calls -/

/-- What a store is asked. -/
inductive Call where
  | put (c : Chunk) (data : Bytes)
  | putFromAsset (c : Chunk) (base : Path)
  | get (signature : Signature)
  | contains (signature : Signature)
  | delete (signature : Signature)
  | list

/-- The signature that a call is about. -/
def Call.signature? : Call → Option Signature
  | put c _ => some c.signature
  | putFromAsset c _ => some c.signature
  | get signature => some signature
  | contains signature => some signature
  | delete signature => some signature
  | list => none

/-- What reading the asset of a call gives. -/
def Call.reading (fs : FileSystem) : Call → Except Error Bytes
  | putFromAsset c base => c.read fs base
  | _ => .ok []

/-- What is answered; of a list, which items it has and how often, in no order. -/
inductive Answer where
  | outcome (result : Except Error Outcome)
  | payload (result : Except Error Bytes)
  | held (result : Bool)
  | deleted (result : Except Error Bool)
  | items (result : Multiset (Except Error Signature))

/-- What a store answers, and the file system then. -/
def call (s : Store) (fs : FileSystem) : Call → Answer × FileSystem
  | .put c data => (s.put fs c data).map .outcome id
  | .putFromAsset c base => (s.putFromAsset fs c base).map .outcome id
  | .get signature => (.payload (s.get fs signature), fs)
  | .contains signature => (.held (s.contains fs signature), fs)
  | .delete signature => (s.delete fs signature).map .deleted id
  | .list => (.items (s.list fs), fs)

end Store

namespace Payloads

open Store (Call Answer)

/-- Inserts a payload under its signature, unless there is one. -/
def put (algorithm : Algorithm) (m : Payloads) (c : Chunk) (data : Bytes) :
    Except Error Store.Outcome × Payloads :=
  let actual := Signature.of algorithm data
  if actual ≠ c.signature then (.error (.signatureMismatch c.signature actual), m)
  else if c.signature ∈ m then (.ok .existing, m)
  else (.ok .stored, m.insert c.signature data)

theorem put_new {algorithm : Algorithm} {m : Payloads} {c : Chunk} {data : Bytes}
    (hash : Signature.of algorithm data = c.signature) (new : c.signature ∉ m) :
    m.put algorithm c data = (.ok .stored, m.insert c.signature data) := by
  simp [put, hash, new]

/-- What a map answers, given what reading the asset gives, and the map then. -/
def call (algorithm : Algorithm) (m : Payloads) (reading : Except Error Bytes) : Call → Answer × Payloads
  | .put c data => (m.put algorithm c data).map .outcome id
  | .putFromAsset c _ =>
    if c.signature ∈ m then (.outcome (.ok .existing), m)
    else match reading with
      | .error e => (.outcome (.error e), m)
      | .ok data => (m.put algorithm c data).map .outcome id
  | .get signature =>
    match m.lookup signature with
    | some data => (.payload (.ok data), m)
    | none => (.payload (.error (.notFound signature)), m)
  | .contains signature => (.held (decide (signature ∈ m)), m)
  | .delete signature => (.deleted (.ok (decide (signature ∈ m))), m.erase signature)
  | .list => (.items (m.keys.val.map .ok), m)

/-- What a map answers to calls, each with what reading its asset gives. -/
def answers (algorithm : Algorithm) (m : Payloads) : List (Call × Except Error Bytes) → List Answer
  | [] => []
  | (c, reading) :: rest =>
    (m.call algorithm reading c).1 :: answers algorithm (m.call algorithm reading c).2 rest

end Payloads

namespace Store

open FileSystem (pathLimit)

variable {s : Store} {place : Place} {fs : FileSystem} {m : Payloads} {signature : Signature} {data : Bytes}

/-- What happens while a store is in use: a call, or a change that others make. -/
inductive Event where
  | call (c : Call)
  | elsewhere (next : FileSystem)

/-- What a store answers to the calls of a run. -/
def answers (s : Store) (fs : FileSystem) : List Event → List Answer
  | [] => []
  | .call c :: rest => (s.call fs c).1 :: s.answers (s.call fs c).2 rest
  | .elsewhere next :: rest => s.answers next rest

/-- The calls of a run, each with what reading its asset gives at the time. -/
def asked (s : Store) (fs : FileSystem) : List Event → List (Call × Except Error Bytes)
  | [] => []
  | .call c :: rest => (c, c.reading fs) :: s.asked (s.call fs c).2 rest
  | .elsewhere next :: rest => s.asked next rest

/-- Whether a change leaves the directory of a store, and what is below it, alone. -/
structure Spares (s : Store) (place : Place) (fs next : FileSystem) : Prop where
  root : next.DirectoryAt s.root place
  below : next.below place = fs.below place
  contents : ∀ names number, (names, .file number) ∈ fs.below place → next.contents[number]? = fs.contents[number]?

/-- Whether nothing but the store changes its directory in a run. -/
def Undisturbed (s : Store) (place : Place) (fs : FileSystem) : List Event → Prop
  | [] => True
  | .call c :: rest => s.Undisturbed place (s.call fs c).2 rest
  | .elsewhere next :: rest => s.Spares place fs next ∧ s.Undisturbed place next rest

/-! ## Each call -/

theorem check_eq_ok_iff {config : StoreConfig} : config.check = .ok () ↔ 0 < config.segmentWidth := by
  unfold StoreConfig.check
  split
  · simp_all
  · simp_all
    omega

theorem openAt_eq_ok {before : FileSystem} {root : Path} {config : StoreConfig}
    (opened : openAt before root config = (.ok s, fs)) : s = ⟨root, config⟩ ∧ 0 < config.segmentWidth := by
  unfold openAt at opened
  split at opened
  · cases opened
  · rename_i checked
    split at opened
    · cases opened
    · obtain ⟨same, -⟩ := Prod.mk.inj opened
      exact ⟨(Except.ok.inj same).symm, check_eq_ok_iff.1 checked⟩

theorem openAt_directory {root : Path} {config : StoreConfig} (directory : fs.DirectoryAt root place)
    (pos : 0 < config.segmentWidth) : openAt fs root config = (.ok ⟨root, config⟩, fs) := by
  rw [openAt, check_eq_ok_iff.2 pos]
  simp only [directory.makeDirectories_self]

theorem holds_empty (root : fs.DirectoryAt s.root place) (empty : fs.below place = []) : s.Holds place fs ∅ := by
  have unique : fs.Unique place := by simp [FileSystem.Unique, empty]
  refine ⟨root, unique, ?_, ?_, ?_⟩
  · intro names node given found
    rw [FileSystem.node?_of_below_nil empty given] at found
    cases found
  · intro names name _ found
    exact absurd (FileSystem.node?_of_below_nil empty (by simp)) found
  · intro signature data has
    rw [Finmap.lookup_empty] at has
    cases has

section Calls

variable (h : s.Holds place fs m) (pos : 0 < s.config.segmentWidth) (fits : s.Fits)
include h pos fits

theorem Holds.put {c : Chunk} (takes : s.Takes c.signature) (data : Bytes) :
    (s.put fs c data).1 = (m.put s.config.algorithm c data).1 ∧
      s.Holds place (s.put fs c data).2 (m.put s.config.algorithm c data).2 ∧ fs.Grows (s.put fs c data).2 := by
  rw [put_eq_publish]
  unfold Payloads.put
  rw [if_neg (by simpa using takes.algorithm)]
  by_cases hash : Signature.of s.config.algorithm data = c.signature
  · have isFile := h.isFile_path pos fits takes
    by_cases mem : c.signature ∈ m
    · rw [Finmap.lookup_isSome.2 mem] at isFile
      simp only [hash, isFile, mem, ne_eq, not_true_eq_false, if_true, if_false]
      exact ⟨trivial, h, .refl fs⟩
    · have lacks := Finmap.lookup_eq_none.2 mem
      have short := length_temporary_le h.root.sound.given pos takes (fits.temporary _ takes)
      obtain ⟨last, published, holds, grows⟩ :=
        h.publish pos takes (fits.object c.signature takes) short lacks hash
      rw [lacks] at isFile
      simp only [hash, isFile, mem, published, ne_eq, not_true_eq_false, if_false]
      exact ⟨rfl, holds, grows⟩
  · simp only [hash, ne_eq, not_false_eq_true, if_true]
    exact ⟨trivial, h, .refl fs⟩

theorem Holds.contains_eq (takes : s.Takes signature) : s.contains fs signature = decide (signature ∈ m) := by
  rw [contains, h.isFile_path pos fits takes]
  by_cases mem : signature ∈ m
  · simp [Finmap.lookup_isSome.2 mem, mem, takes.algorithm]
  · simp [Finmap.lookup_eq_none.2 mem, mem]

theorem Holds.get_eq (takes : s.Takes signature) :
    s.get fs signature =
      match m.lookup signature with
      | some data => .ok data
      | none => .error (.notFound signature) := by
  unfold Store.get
  rw [h.contentAt_path pos fits takes]
  cases found : m.lookup signature with
  | none => rfl
  | some data =>
    obtain ⟨-, hash, -⟩ := h.held signature data found
    simp [takes.algorithm, hash]

theorem Holds.delete (takes : s.Takes signature) :
    (s.delete fs signature).1 = .ok (decide (signature ∈ m)) ∧
      s.Holds place (s.delete fs signature).2 (m.erase signature) := by
  unfold Store.delete
  by_cases mem : signature ∈ m
  · obtain ⟨data, found⟩ := Finmap.mem_iff.1 mem
    obtain ⟨above, number, node, -⟩ := h.present pos fits found
    have removed := h.removed pos found
    have short := fits.object signature takes
    rw [path_eq_push pos takes] at short ⊢
    rw [above.unlink_file (usable_object pos takes) short node, List.append_assoc]
    exact ⟨by simp [mem], removed⟩
  · have closed : (s.path signature).Closed := by
      rw [path_eq_push pos takes]
      exact Path.closed_push (usable_object pos takes).toIsName _
    have lacks := Finmap.lookup_eq_none.2 mem
    have same : m.erase signature = m := by
      refine Finmap.ext_lookup fun other => ?_
      by_cases here : other = signature
      · rw [here, Finmap.lookup_erase, lacks]
      · rw [Finmap.lookup_erase_ne here]
    rw [FileSystem.unlink_nowhere closed (h.absent pos fits takes lacks (Or.inl rfl)), same]
    exact ⟨by simp [mem], h⟩

/-- **A call is answered as by the map, and the store has what the map has then.** -/
theorem Holds.call (c : Call) (takes : ∀ signature, c.signature? = some signature → s.Takes signature) :
    (s.call fs c).1 = (m.call s.config.algorithm (c.reading fs) c).1 ∧
      s.Holds place (s.call fs c).2 (m.call s.config.algorithm (c.reading fs) c).2 := by
  cases c with
  | put c data =>
    obtain ⟨same, holds, -⟩ := h.put pos fits (takes _ rfl) data
    exact ⟨congrArg Answer.outcome same, holds⟩
  | putFromAsset c base =>
    have contains := h.contains_eq pos fits (takes _ rfl)
    by_cases mem : c.signature ∈ m
    · simp [Store.call, Payloads.call, putFromAsset_eq_put, contains, mem, h]
    · cases read : c.read fs base with
      | error e => simp [Store.call, Payloads.call, putFromAsset_eq_put, contains, mem, h, Call.reading, read]
      | ok data =>
        obtain ⟨same, holds, -⟩ := h.put pos fits (takes _ rfl) data
        simp only [Store.call, Payloads.call, putFromAsset_eq_put, contains, mem, Call.reading, read, decide_false,
          Bool.false_eq_true, if_false]
        exact ⟨congrArg Answer.outcome same, holds⟩
  | get signature =>
    have same := h.get_eq pos fits (takes _ rfl)
    cases found : m.lookup signature with
    | none =>
      rw [found] at same
      simp [Store.call, Payloads.call, same, found, h]
    | some data =>
      rw [found] at same
      simp [Store.call, Payloads.call, same, found, h]
  | contains signature =>
    exact ⟨congrArg Answer.held (h.contains_eq pos fits (takes _ rfl)), h⟩
  | delete signature =>
    obtain ⟨same, holds⟩ := h.delete pos fits (takes _ rfl)
    exact ⟨congrArg Answer.deleted same, holds⟩
  | list => exact ⟨congrArg Answer.items (h.list_eq pos fits), h⟩

end Calls

/-! ## Short and long paths -/

theorem sound_of_publish {target : Path} (published : (publish fs target data).1 = .ok ()) :
    FileSystem.Sound target := by
  rw [publish_eq_steps] at published
  split at published
  · cases published
  · rename_i directory _
    dsimp only at published
    split at published
    · rename_i ran
      let temp := directory.push (temporaryName fs directory)
      have last : .move temp target ∈ publishSteps fs directory temp target [data] := by simp [publishSteps]
      obtain ⟨before, after, moved⟩ := FileSystem.step_of_steps (by rw [ran]) last
      obtain ⟨destination, located⟩ := FileSystem.located_of_move moved
      exact FileSystem.sound_of_locate (Or.inl rfl) located
    · cases published

theorem put_ne_stored {c : Chunk} (long : pathLimit < (s.path c.signature).bytes.length) :
    (s.put fs c data).1 ≠ .ok .stored := by
  intro stored
  rw [put_eq_publish] at stored
  dsimp only at stored
  split at stored
  · cases stored
  · split at stored
    · cases stored
    · split at stored
      · cases stored
      · split at stored
        · cases stored
        · rename_i last done
          have short := (sound_of_publish (by rw [done])).short
          omega

theorem length_root_lt (pos : 0 < s.config.segmentWidth) (takes : s.Takes signature) :
    s.root.bytes.length < (s.path signature).bytes.length := by
  have object := usable_object pos takes
  have filled := List.length_pos_iff.2 object.filled
  have front := Path.length_le_extend (p := s.root) fun n hn => (usable_folders pos takes n hn).whole
  have last := Path.length_add_le_push (p := s.folder signature) object.whole
  rw [path_eq_push pos takes]
  rw [folder] at *
  omega

/-- A root that leaves some two hundred bytes of the longest path is short enough. -/
theorem fits_of_length (pos : 0 < s.config.segmentWidth) (short : s.root.bytes.length + 223 ≤ pathLimit) :
    s.Fits := by
  have key (signature : Signature) (takes : s.Takes signature) :
      Path.weight (s.folders signature) + Path.weight [s.object signature] ≤ 212 := by
    rw [← Path.weight_append]
    exact Key.weight_place_le pos takes.sized
  refine ⟨fun signature takes => ?_, fun signature takes => ?_⟩
  · have := key signature takes
    have := Path.length_extend_le s.root (s.folders signature ++ [s.object signature])
    rw [Path.weight_append] at this
    rw [path_eq_extend pos takes]
    omega
  · have := key signature takes
    have := Path.length_extend_le s.root (s.folders signature)
    have := Path.length_push_le (s.folder signature) (freshName [] 6)
    have name : (freshName [] 6).length = 10 := by
      rw [freshName_eq (by simp)]
      rfl
    rw [folder] at *
    omega

/-! ## Runs -/

theorem put_eq_of_answers {c : Chunk} {algorithm : Algorithm}
    (same : s.answers fs [.call (.put c data)] = m.answers algorithm (s.asked fs [.call (.put c data)])) :
    (s.put fs c data).1 = (m.put algorithm c data).1 := by
  simpa [answers, asked, call, Payloads.answers, Payloads.call] using same

theorem Holds.spared {next : FileSystem} (h : s.Holds place fs m) (spares : s.Spares place fs next) :
    s.Holds place next m := by
  have unique : next.Unique place := by
    rw [FileSystem.Unique, spares.below]
    exact h.unique
  have nodes (names : List Bytes) (given : names ≠ []) :
      next.node? (place ++ names) = fs.node? (place ++ names) := by
    refine Option.ext fun node => ?_
    have here : (names, node) ∈ fs.below place ↔ _ := FileSystem.mem_below_iff h.unique
    have there : (names, node) ∈ next.below place ↔ _ := FileSystem.mem_below_iff unique
    rw [spares.below, here] at there
    simpa [given] using there.symm
  refine h.congr spares.root unique nodes fun names number data given found content => ?_
  rw [spares.contents names number ((FileSystem.mem_below_iff h.unique).2 ⟨given, found⟩), content]

theorem Holds.run (h : s.Holds place fs m) (pos : 0 < s.config.segmentWidth) (fits : s.Fits)
    {events : List Event}
    (takes : ∀ c, .call c ∈ events → ∀ signature, c.signature? = some signature → s.Takes signature)
    (undisturbed : s.Undisturbed place fs events) :
    s.answers fs events = m.answers s.config.algorithm (s.asked fs events) := by
  induction events generalizing fs m with
  | nil => rfl
  | cons event events ih =>
    have rest := fun c hc => takes c (List.mem_cons_of_mem _ hc)
    cases event with
    | call c =>
      obtain ⟨same, holds⟩ := h.call pos fits c (takes c (by simp))
      rw [answers, asked, Payloads.answers, same, ih holds rest undisturbed]
    | elsewhere next => exact ih (h.spared undisturbed.1) rest undisturbed.2

/-- **A store whose directory was empty answers every run as a finite map does.** -/
theorem answers_eq_map {before fs : FileSystem} {root : Path} {config : StoreConfig} {s : Store} {place : Place}
    {events : List Event} (opened : Store.openAt before root config = (.ok s, fs))
    (directory : fs.DirectoryAt root place) (empty : fs.below place = []) (fits : s.Fits)
    (takes : ∀ c, .call c ∈ events → ∀ signature, c.signature? = some signature → s.Takes signature)
    (undisturbed : s.Undisturbed place fs events) :
    s.answers fs events = Payloads.answers config.algorithm ∅ (s.asked fs events) := by
  obtain ⟨rfl, pos⟩ := openAt_eq_ok opened
  exact (holds_empty directory empty).run pos fits takes undisturbed

theorem answers_eq_map_asset :
    let s : Store := ⟨Path.ofText "/s", ⟨.sha256, 10, true⟩⟩
    let fs := FileSystem.empty.put [Bytes.ofText "s"] .directory
    let data := Bytes.ofText "abc"
    let c : Chunk := ⟨⟨["a"]⟩, .bytes 0 3, Signature.of .sha256 data⟩
    s.answers fs [.elsewhere (fs.putFile [Bytes.ofText "a"] data), .call (.putFromAsset c (Path.ofText "/")),
        .call (.get c.signature), .call .list, .call (.delete c.signature), .call (.contains c.signature)] =
      [.outcome (.ok .stored), .payload (.ok data), .items {.ok c.signature}, .deleted (.ok true),
        .held false] := by
  intro s fs data c
  have directory : fs.DirectoryAt (Path.ofText "/s") [Bytes.ofText "s"] := ⟨by rfl, by rfl⟩
  have empty : fs.below [Bytes.ofText "s"] = [] := by rfl
  have spares : s.Spares [Bytes.ofText "s"] fs (fs.putFile [Bytes.ofText "a"] data) :=
    ⟨⟨by rfl, by rfl⟩, by rfl, fun names number listed => by simp [empty] at listed⟩
  have opened : Store.openAt fs (Path.ofText "/s") s.config = (.ok s, fs) := openAt_directory directory (by decide)
  have takes : s.Takes c.signature := ⟨Signature.sized_of _ _, Signature.algorithm_of _ _⟩
  have read : c.read (fs.putFile [Bytes.ofText "a"] data) (Path.ofText "/") = .ok data := by decide +kernel
  let events : List Event := [.elsewhere (fs.putFile [Bytes.ofText "a"] data),
    .call (.putFromAsset c (Path.ofText "/")), .call (.get c.signature), .call .list, .call (.delete c.signature),
    .call (.contains c.signature)]
  have ofStore : ∀ call, .call call ∈ events →
      ∀ signature, call.signature? = some signature → s.Takes signature := by
    intro call mem signature about
    have : signature = c.signature := by
      simp only [events, List.mem_cons, reduceCtorEq, Event.call.injEq, List.not_mem_nil, or_false,
        false_or] at mem
      rcases mem with rfl | rfl | rfl | rfl | rfl <;> simp_all [Call.signature?]
    rwa [this]
  have undisturbed : s.Undisturbed [Bytes.ofText "s"] fs events := ⟨spares, trivial⟩
  have run := answers_eq_map opened directory empty (fits_of_length (by decide) (by decide)) ofStore undisturbed
  refine run.trans ?_
  have asked : s.asked fs events = [(.putFromAsset c (Path.ofText "/"), .ok data), (.get c.signature, .ok []),
      (.list, .ok []), (.delete c.signature, .ok []), (.contains c.signature, .ok [])] := by
    simp only [events, Store.asked, Call.reading, read]
  have hash : Signature.of s.config.algorithm data = c.signature := rfl
  have keys : (Finmap.insert c.signature data ∅ : Payloads).keys = {c.signature} := rfl
  have lacks : c.signature ∉ (∅ : Payloads) := Finmap.notMem_empty
  rw [asked]
  simp [Payloads.answers, Payloads.call, Payloads.put, hash, keys, lacks]

/-- Below a root that is as long as a path may be nothing is stored, although a map would store it. -/
theorem answers_ne_map_of_long_root :
    let root : Path := ⟨List.replicate pathLimit slash⟩
    let s : Store := ⟨root, ⟨.sha256, 10, false⟩⟩
    let fs := FileSystem.empty
    let c : Chunk := ⟨⟨["a"]⟩, .bytes 0 3, Signature.of .sha256 (Bytes.ofText "abc")⟩
    Store.openAt fs root s.config = (.ok s, fs) ∧ fs.DirectoryAt root [] ∧ fs.below [] = [] ∧ s.Takes c.signature ∧
      s.answers fs [.call (.put c (Bytes.ofText "abc"))] ≠
        Payloads.answers s.config.algorithm ∅ (s.asked fs [.call (.put c (Bytes.ofText "abc"))]) := by
  intro root s fs c
  have size : s.root.bytes.length = pathLimit := List.length_replicate
  have sound : FileSystem.Sound root := by
    refine ⟨?_, ?_, Nat.le_of_eq size⟩
    · intro empty
      rw [empty] at size
      exact absurd size (by decide)
    · intro zero
      exact absurd (List.eq_of_mem_replicate zero) (by decide)
  have directory : fs.DirectoryAt root [] := by
    have start : FileSystem.Leads fs FileSystem.linkLimit [] [] [] := .arrived rfl
    exact (start.congr (FileSystem.busy_split_slashes _)).directoryAt sound
  have takes : s.Takes c.signature := ⟨Signature.sized_of _ _, Signature.algorithm_of _ _⟩
  have long : pathLimit < (s.path c.signature).bytes.length := by
    have whole : ∀ n ∈ s.folders c.signature, slash ∉ n :=
      fun n hn => (usable_folders (by decide) takes n hn).whole
    have object := usable_object (by decide) takes
    have filled := List.length_pos_iff.2 object.filled
    have front := Path.length_le_extend (p := s.root) whole
    have last := Path.length_add_le_push (p := s.folder c.signature) object.whole
    rw [path_eq_push (by decide) takes]
    rw [folder] at *
    omega
  refine ⟨openAt_directory directory (by decide), directory, rfl, takes, ?_⟩
  intro same
  have stored : (s.put fs c (Bytes.ofText "abc")).1 = .ok .stored := by
    have hash : Signature.of s.config.algorithm (Bytes.ofText "abc") = c.signature := rfl
    have lacks : c.signature ∉ (∅ : Payloads) := Finmap.notMem_empty
    rw [put_eq_of_answers same]
    simp only [Payloads.put, hash, lacks, ne_eq, not_true_eq_false, if_false]
  exact put_ne_stored long stored

end Store

end ContentChunks
