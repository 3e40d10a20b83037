/-
What interning keeps. The texts of both sides are loaded and numbered with one
table, which grows from text to text. It has just the codes met so far, at the
places at which they were first met, so the numbers of two texts have the blocks
that their codes have, also when they are kept in 32 bits.

Main statements:
- `Met.numberAll`: numbering payloads meets their codes, in order.
- `run_loadTokens`, `pairs_eq_of_loadTokens`: texts may be numbered as they are loaded, or after all were.
- `matchAlike_loadTokens`: loaded texts match and score as their codes do.
-/
import ContentChunks.Proofs.ChangeRecords
import ContentChunks.Proofs.Greedy

namespace ContentChunks

namespace Matching

variable {α β : Type} [DecidableEq α] [DecidableEq β]

/-- Whether two sequences match and score as two others do. -/
def MatchAlike (x y : List α) (a b : List β) : Prop := blocks x y = blocks a b ∧ similarity x y = similarity a b

theorem MatchAlike.of_blocks {x y : List α} {a b : List β} (same : blocks x y = blocks a b) : MatchAlike x y a b :=
  ⟨same, by rw [similarity, same, similarity]⟩

end Matching

namespace CodeTable

variable {met : List String} {t u : CodeTable}

/-- Whether a table has just the codes met so far, at the places at which they were first met. -/
def Met (met : List String) (t : CodeTable) : Prop := t.codes = met.eraseDups

theorem met_empty : Met [] empty := rfl

theorem Met.number (h : Met met t) (code : String) : Met (met ++ [code]) (CodeTable.number code t).2 := by
  unfold CodeTable.number Met
  rw [List.eraseDups_append, ← h]
  cases found : t.codes.idxOf? code with
  | some n =>
    have known : code ∈ met := List.mem_eraseDups.1 (h ▸ List.isSome_idxOf?.1 (by simp [found]))
    simp [List.removeAll, known]
  | none =>
    have new : code ∉ met := fun mem => List.idxOf?_eq_none_iff.1 found (h ▸ List.mem_eraseDups.2 mem)
    simp [List.removeAll, new, List.eraseDups_cons]

theorem Met.mapM {α β : Type} {f : α → StateM CodeTable β} {codes : α → List String}
    (step : ∀ met t x, Met met t → Met (met ++ codes x) (f x t).2) (items : List α) (h : Met met t) :
    Met (met ++ items.flatMap codes) (items.mapM f t).2 := by
  induction items generalizing met t with
  | nil => rwa [List.flatMap_nil, List.append_nil]
  | cons x items ih =>
    have rest := ih (step met t x h)
    rw [List.append_assoc] at rest
    rwa [List.mapM_cons, List.flatMap_cons]

/-- **Numbering payloads meets their codes**, in order. -/
theorem Met.numberAll (h : Met met t) (payloads : List Bytes) :
    Met (met ++ payloads.flatMap codesOf) ((CodeTable.numberAll payloads).run t).2 :=
  Met.mapM (fun met t payload given => by
    have row := Met.mapM (fun _ _ code => (Met.number · code)) (codesOf payload) given
    rwa [List.flatMap_singleton'] at row) payloads h

/-- Numbers in the 32 bits in which they are kept. -/
def kept (numbers : List Nat) : List UInt32 := numbers.map .ofNat

/-- Kept places tell the codes of a table apart, unless it has too many. -/
theorem ofNat_placeOf_inj (few : t.codes.length ≤ 2 ^ 32) {x y : String} (hx : x ∈ t.codes) (hy : y ∈ t.codes)
    (same : UInt32.ofNat (t.placeOf x) = UInt32.ofNat (t.placeOf y)) : x = y := by
  have px : t.placeOf x < t.codes.length := List.idxOf_lt_length_of_mem hx
  have py : t.placeOf y < t.codes.length := List.idxOf_lt_length_of_mem hy
  refine placeOf_inj hx ?_
  have same := congrArg UInt32.toNat same
  rwa [UInt32.toNat_ofNat_of_lt' (px.trans_le few), UInt32.toNat_ofNat_of_lt' (py.trans_le few)] at same

theorem blocks_numbersOf {x y : Bytes} (hx : t.Has x) (hy : t.Has y) :
    Matching.blocks (t.numbersOf x) (t.numbersOf y) = Matching.blocks (codesOf x) (codesOf y) ∧
      (t.codes.length ≤ 2 ^ 32 →
        Matching.blocks (kept (t.numbersOf x)) (kept (t.numbersOf y)) = Matching.blocks (codesOf x) (codesOf y)) := by
  refine ⟨Matching.blocks_map fun code hc _ _ same => placeOf_inj (hx code hc) same, fun few => ?_⟩
  rw [kept, kept, numbersOf, numbersOf, List.map_map, List.map_map]
  exact Matching.blocks_map fun code hc other ho same => ofNat_placeOf_inj few (hx code hc) (hy other ho) same

end CodeTable

namespace Delta

variable {source : Source} {t : CodeTable}

/-- The numbers of some texts, each of which is numbered as it is loaded. -/
def loadTokens (source : Source) (texts : List Leftover) : StateT CodeTable Loading (List (List Nat)) :=
  texts.mapM fun c => do
    let payload ← StateT.lift (Loading.load source c.chunk)
    modifyGet fun table => (codesOf payload).mapM CodeTable.number table

/-- Texts may be numbered as they are loaded, or after all were. -/
theorem run_loadTokens (texts : List Leftover) :
    (loadTokens source texts).run t = do
      let payloads ← texts.mapM fun c => Loading.load source c.chunk
      return (CodeTable.numberAll payloads).run t := by
  unfold loadTokens
  induction texts generalizing t with
  | nil => rfl
  | cons c texts ih =>
    simp only [List.mapM_cons, StateT.run_bind, bind_assoc, StateT.run_lift, pure_bind]
    refine bind_congr fun payload => ?_
    have row : (modifyGet fun table => (codesOf payload).mapM CodeTable.number table :
        StateT CodeTable Loading _).run t = pure ((codesOf payload).mapM CodeTable.number t) := rfl
    rw [row, pure_bind, ih, bind_assoc]
    refine bind_congr fun payloads => ?_
    rw [pure_bind, CodeTable.numberAll, CodeTable.numberAll, List.mapM_cons]
    rfl

/-- So the pairs come of texts that were numbered as they were loaded. -/
theorem pairs_eq_of_loadTokens {config : DeltaConfig} {flag : CancelFlag} {old new : List Chunk}
    {removed added : List Leftover} (someRemoved : removed ≠ []) (someAdded : added ≠ []) :
    pairs config flag source old new removed added = do
      let (removedCodes, table) ← (loadTokens source removed).run .empty
      let (addedCodes, _) ← (loadTokens source added).run table
      if flag.seen (removed.length + added.length) (removed.length * added.length) then
        Loading.fail .cancelled
      else
        return ScoredPair.assign config.minScore
          (scores config.adjacencyBonus old new (removed.zip removedCodes) (added.zip addedCodes)) := by
  unfold pairs
  rw [if_neg (by simp [someRemoved, someAdded])]
  simp only [run_loadTokens, bind_assoc, pure_bind]
  rfl

/-- The codes of the words of a text that a source has. -/
def textCodes (source : Source) (c : Leftover) : List String := codesOf (Loading.payload source c.chunk)

/-- Texts that a source has are loaded, and their codes numbered by their places in a table of all codes met. -/
theorem result_loadTokens {met : List String} (given : t.Met met) {texts : List Leftover}
    (loads : ∀ c ∈ texts, ∃ payload, source c.chunk = .ok payload) :
    ∃ numbers u, ((loadTokens source texts).run t).result = .ok (numbers, u) ∧
      t.Extends u ∧ u.Met (met ++ texts.flatMap (textCodes source)) ∧
      (∀ c ∈ texts, u.Has (Loading.payload source c.chunk)) ∧
      numbers = texts.map fun c => u.numbersOf (Loading.payload source c.chunk) := by
  obtain ⟨payloads, done⟩ : ∃ payloads, (texts.mapM fun c => Loading.load source c.chunk).result = .ok payloads :=
    Loading.exists_result_mapM.2 loads
  have run : ((loadTokens source texts).run t).result = .ok ((CodeTable.numberAll payloads).run t) := by
    rw [run_loadTokens]
    exact Loading.result_bind_eq_ok.2 ⟨payloads, done, rfl⟩
  generalize numbered : (CodeTable.numberAll payloads).run t = results at run
  obtain ⟨numbers, u⟩ := results
  have meets : u.Met (met ++ payloads.flatMap codesOf) := by
    have all := given.numberAll payloads
    rwa [numbered] at all
  obtain ⟨grows, has, numbers⟩ := CodeTable.numbersOf_of_numberAll numbered
  obtain ⟨-, rfl⟩ := Loading.result_mapM_load done
  rw [List.flatMap_map] at meets
  rw [List.map_map] at numbers
  exact ⟨_, u, run, grows, meets, List.forall_mem_map.1 has, numbers⟩

/-- **Loaded texts match and score as their codes do.** Renaming the tokens of two sequences changes neither,
if no two different ones get one name; and one table numbers the codes of all texts by the places at which they
were first met. So the numbers of a removed text and an added one match and score as their codes do, and so they
do when they are kept in 32 bits, unless there are too many codes for that. -/
theorem matchAlike_loadTokens {removed added : List Leftover}
    (loads : ∀ c ∈ removed ++ added, ∃ payload, source c.chunk = .ok payload) :
    (∀ {α β : Type} [DecidableEq α] [DecidableEq β] (f : α → β) (a b : List α),
      (∀ x ∈ a, ∀ y ∈ b, f x = f y → x = y) → Matching.MatchAlike (a.map f) (b.map f) a b) ∧
    ∃ removedNumbers addedNumbers t u,
      ((loadTokens source removed).run .empty).result = .ok (removedNumbers, t) ∧
      ((loadTokens source added).run t).result = .ok (addedNumbers, u) ∧
      u.codes = ((removed ++ added).flatMap (textCodes source)).eraseDups ∧
      removedNumbers = removed.map (fun c => (textCodes source c).map u.codes.idxOf) ∧
      addedNumbers = added.map (fun d => (textCodes source d).map u.codes.idxOf) ∧
      ∀ p ∈ removed.zip removedNumbers, ∀ q ∈ added.zip addedNumbers,
        Matching.MatchAlike p.2 q.2 (textCodes source p.1) (textCodes source q.1) ∧
        (u.codes.length ≤ 2 ^ 32 → Matching.MatchAlike (CodeTable.kept p.2) (CodeTable.kept q.2)
          (textCodes source p.1) (textCodes source q.1)) := by
  refine ⟨fun f a b apart => .of_blocks (Matching.blocks_map apart), ?_⟩
  rw [List.forall_mem_append] at loads
  obtain ⟨removedNumbers, t, removedDone, -, metRemoved, has, numbered⟩ :=
    result_loadTokens CodeTable.met_empty loads.1
  obtain ⟨addedNumbers, u, addedDone, grows, met, hasAdded, rfl⟩ := result_loadTokens metRemoved loads.2
  rw [List.nil_append, ← List.flatMap_append] at met
  have still (c : Leftover) (hc : c ∈ removed) := grows.numbersOf (has c hc)
  obtain rfl : removedNumbers = removed.map fun c => u.numbersOf (Loading.payload source c.chunk) :=
    numbered.trans (List.map_congr_left fun c hc => (still c hc).2.symm)
  refine ⟨_, _, t, u, removedDone, addedDone, met, rfl, rfl, ?_⟩
  rw [zip_map_self, zip_map_self, List.forall_mem_map]
  intro c hc
  rw [List.forall_mem_map]
  intro d hd
  obtain ⟨same, sameKept⟩ := CodeTable.blocks_numbersOf (still c hc).1 (hasAdded d hd)
  exact ⟨.of_blocks same, fun few => .of_blocks (sameKept few)⟩

/-- A word of both texts comes twice in one of them, and the other begins with a new one. -/
theorem matchAlike_loadTokens_repeated :
    let text : UInt8 → Leftover := fun n => ⟨0, ⟨⟨["x"]⟩, .text ⟨0, none, none⟩ ⟨1, none, none⟩, ⟨.sha256, [n]⟩⟩⟩
    let source : Source := fun c => .ok (Bytes.ofText (if c.signature.digest = [1] then "ab cd ab" else "ef cd ab"))
    let t : CodeTable := ⟨["A100", "C300"]⟩
    let u : CodeTable := ⟨["A100", "C300", "E100"]⟩
    (∀ c ∈ [text 1] ++ [text 2], ∃ payload, source c.chunk = .ok payload) ∧
      ((loadTokens source [text 1]).run .empty).result = .ok ([[0, 1, 0]], t) ∧
      ((loadTokens source [text 2]).run t).result = .ok ([[2, 1, 0]], u) ∧
      u.codes = ([text 1, text 2].flatMap (textCodes source)).eraseDups ∧
      textCodes source (text 1) = ["A100", "C300", "A100"] ∧ textCodes source (text 2) = ["E100", "C300", "A100"] ∧
      Matching.MatchAlike (CodeTable.kept [0, 1, 0]) (CodeTable.kept [2, 1, 0]) ["A100", "C300", "A100"]
        ["E100", "C300", "A100"] := by
  intro text source t u
  have loads : ∀ c ∈ [text 1] ++ [text 2], ∃ payload, source c.chunk = .ok payload := fun c _ => ⟨_, rfl⟩
  have removedDone : ((loadTokens source [text 1]).run .empty).result = .ok ([[0, 1, 0]], t) := by cbv
  have addedDone : ((loadTokens source [text 2]).run t).result = .ok ([[2, 1, 0]], u) := by cbv
  have codes : textCodes source (text 1) = ["A100", "C300", "A100"] := by cbv
  have codesAdded : textCodes source (text 2) = ["E100", "C300", "A100"] := by cbv
  obtain ⟨-, _, _, _, _, done, done', met, -, -, alike⟩ := matchAlike_loadTokens loads
  obtain ⟨rfl, rfl⟩ := Prod.mk.inj (Except.ok.inj (removedDone.symm.trans done))
  obtain ⟨rfl, rfl⟩ := Prod.mk.inj (Except.ok.inj (addedDone.symm.trans done'))
  have matched := (alike (text 1, [0, 1, 0]) (by simp) (text 2, [2, 1, 0]) (by simp)).2 (by simp [u])
  rw [codes, codesAdded] at matched
  exact ⟨loads, removedDone, addedDone, met, codes, codesAdded, matched⟩

end Delta

end ContentChunks
