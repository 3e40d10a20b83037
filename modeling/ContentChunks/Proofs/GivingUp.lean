/-
Giving up. A flag may go up at any time, and the pairs may be scored in any
order, each looking at the flag once. A delta that is given up is given up after
all loads and as a whole (`Delta.computeUnless_eq`): there is no other difference
to the delta that is computed without a flag.

Main statements:
- `CancelFlag.collect_eq`: scores are collected in whatever order they are made,
  unless one of them is not made.
- `Delta.computeInTurns_eq`: so the order in which pairs are scored does not matter.
- `Delta.computeUnless_given_up`: with a flag, a delta is the one without it,
  or is given up, and when it is.
-/
import ContentChunks.Proofs.Asking

namespace ContentChunks

/-! ## Flags -/

/-- Where an item may be missing, either one is or all are there. -/
theorem mapM_if_none {α β : Type} (up : α → Bool) (f : α → β) (items : List α) :
    (items.mapM fun x => if up x then none else some (f x)) = if items.any up then none else some (items.map f) := by
  induction items with
  | nil => rfl
  | cons x rest ih =>
    rw [List.mapM_cons, ih, List.any_cons]
    cases up x <;> cases rest.any up <;> rfl

namespace CancelFlag

variable {flag : CancelFlag} {loads pairs : Nat} {turn : Nat → Nat}

/-- Whether a flag that is up stays up. -/
def Stays (flag : CancelFlag) : Prop :=
  ∀ loads pairs later more, loads < later ∨ loads = later ∧ pairs ≤ more →
    flag.raised loads pairs = true → flag.raised later more = true

theorem seen_iff : flag.seen loads pairs = true ↔ ∃ k < pairs, flag.raised loads k = true := by
  simp [seen]

theorem Stays.seen (stays : flag.Stays) (up : flag.raised 0 0 = true) (pos : 0 < pairs) :
    flag.seen loads pairs = true := by
  refine seen_iff.2 ⟨0, pos, stays 0 0 loads 0 ?_ up⟩
  omega

/-- Whether each of so many pairs has a turn of its own, the one with the number `k` at `turn k`. -/
def Turns (pairs : Nat) (turn : Nat → Nat) : Prop := ((List.range pairs).map turn).Perm (List.range pairs)

/-- The scores of pairs that look at the flag at their turns; none at all if one sees it up. -/
def collect (flag : CancelFlag) (loads : Nat) (turn : Nat → Nat) (scored : List ScoredPair) :
    Option (List ScoredPair) :=
  scored.zipIdx.mapM fun x => if flag.raised loads (turn x.2) then none else some x.1

/-- **Scores are collected in whatever order they are made**, unless the flag is seen up. -/
theorem collect_eq {scored : List ScoredPair} (turns : Turns scored.length turn) :
    flag.collect loads turn scored = if flag.seen loads scored.length then none else some scored := by
  have looks : (scored.zipIdx.any fun x => flag.raised loads (turn x.2)) = flag.seen loads scored.length :=
    calc (scored.zipIdx.any fun x => flag.raised loads (turn x.2))
      _ = ((scored.zipIdx.map (·.2)).map turn).any (flag.raised loads) := by
        rw [List.any_map, List.any_map]
        rfl
      _ = ((List.range scored.length).map turn).any (flag.raised loads) := by
        rw [List.zipIdx_map_snd, List.range_eq_range']
      _ = flag.seen loads scored.length := turns.any_eq
  rw [collect, mapM_if_none (fun x => flag.raised loads (turn x.2)) (·.1) scored.zipIdx, looks, List.zipIdx_map_fst]

end CancelFlag

/-! ## Deltas that may be given up -/

namespace Loading

variable {α β : Type} {x : Loading α}

theorem bind_congr {f g : α → Loading β} (same : ∀ a, x.result = .ok a → f a = g a) : x >>= f = x >>= g := by
  show Loading.bind x f = Loading.bind x g
  unfold Loading.bind
  cases done : x.result with
  | error e => rfl
  | ok a => simp only [same a done]

/-- A computation that is given up at its end, if `up`. -/
def giveUpIf (up : Bool) (x : Loading α) : Loading α := x >>= fun a => if up then fail .cancelled else pure a

@[simp] theorem giveUpIf_false (x : Loading α) : x.giveUpIf false = x := bind_pure x

theorem loads_giveUpIf (up : Bool) (x : Loading α) : (x.giveUpIf up).loads = x.loads := by
  show (Loading.bind x _).loads = x.loads
  unfold Loading.bind
  cases x.result with
  | error e => rfl
  | ok a => cases up <;> exact List.append_nil _

theorem result_giveUpIf (up : Bool) (x : Loading α) : (x.giveUpIf up).result =
    match x.result with
    | .ok a => if up then .error .cancelled else .ok a
    | .error e => .error e := by
  show (Loading.bind x _).result = _
  unfold Loading.bind
  cases x.result with
  | error e => rfl
  | ok a => cases up <;> rfl

end Loading

namespace Delta

variable {config : DeltaConfig} {flag : CancelFlag} {source : Source} {old new : List Chunk}

/-- The pairs are given up at their end, if the flag is seen up before one is scored. -/
theorem pairs_eq (flag : CancelFlag) (removed added : List Leftover) :
    pairs config flag source old new removed added = (pairs config .never source old new removed added).giveUpIf
      (flag.seen (removed.length + added.length) (removed.length * added.length)) := by
  by_cases empty : removed = [] ∨ added = []
  · have noPairs : removed.length * added.length = 0 := by simpa using empty
    rw [pairs_of_empty empty, pairs_of_empty empty, noPairs]
    rfl
  · have filled : ¬(removed.isEmpty || added.isEmpty) = true := by simpa using empty
    unfold pairs Loading.giveUpIf
    rw [if_neg filled, if_neg filled, bind_assoc]
    congr 1
    funext removedPayloads
    rw [bind_assoc]
    congr 1
    funext addedPayloads
    split
    split
    rw [CancelFlag.seen_never, if_neg Bool.false_ne_true, pure_bind]

/-- **A delta with a flag** is the one without it, given up at its end if the flag is seen up. -/
theorem computeUnless_eq (flag : CancelFlag) (config : DeltaConfig) (source : Source) (old new : List Chunk) :
    computeUnless flag config source old new = (compute config source old new).giveUpIf
      (flag.seen ((textsOnlyIn old new).length + (textsOnlyIn new old).length)
        ((textsOnlyIn old new).length * (textsOnlyIn new old).length)) := by
  unfold compute computeUnless
  rw [pairs_eq flag, ← map_chunk_texts, ← map_chunk_texts, List.length_map, List.length_map]
  unfold Loading.giveUpIf
  rw [bind_assoc, bind_assoc]
  congr 1
  funext ps
  cases flag.seen _ _
  · rfl
  · rfl

/-! ## Any order -/

/-- How `new` differs from `old`, unless the caller gives up. Each pair looks at
the flag when it is its turn to be scored, and if one sees it up there are no
scores. -/
def computeInTurns (turn : Nat → Nat) (flag : CancelFlag) (config : DeltaConfig) (source : Source)
    (old new : List Chunk) : Loading Delta := do
  let removed := (Leftover.of old new).filter Leftover.isText
  let added := (Leftover.of new old).filter Leftover.isText
  if removed.isEmpty || added.isEmpty then return assemble old new []
  let removedPayloads ← removed.mapM fun c => Loading.load source c.chunk
  let addedPayloads ← added.mapM fun c => Loading.load source c.chunk
  let (removedCodes, table) := (CodeTable.numberAll removedPayloads).run .empty
  let (addedCodes, _) := (CodeTable.numberAll addedPayloads).run table
  match flag.collect (removed.length + added.length) turn
      (scores config.adjacencyBonus old new (removed.zip removedCodes) (added.zip addedCodes)) with
  | none => Loading.fail .cancelled
  | some scored => return assemble old new (ScoredPair.assign config.minScore scored)

theorem length_scores (bonus : Nat) (old new : List Chunk) (removed added : List (Leftover × List Nat)) :
    (scores bonus old new removed added).length = removed.length * added.length := by
  simp [scores, List.length_flatMap]

/-- **The order in which pairs are scored does not matter.** -/
theorem computeInTurns_eq {turn : Nat → Nat}
    (turns : CancelFlag.Turns ((textsOnlyIn old new).length * (textsOnlyIn new old).length) turn) :
    computeInTurns turn flag config source old new = computeUnless flag config source old new := by
  rw [← map_chunk_texts, ← map_chunk_texts, List.length_map, List.length_map] at turns
  unfold computeInTurns computeUnless pairs
  dsimp only
  generalize (Leftover.of old new).filter Leftover.isText = removed at turns ⊢
  generalize (Leftover.of new old).filter Leftover.isText = added at turns ⊢
  split
  · rfl
  · rw [bind_assoc]
    refine Loading.bind_congr fun removedPayloads loadedRemoved => ?_
    rw [bind_assoc]
    refine Loading.bind_congr fun addedPayloads loadedAdded => ?_
    obtain ⟨-, rfl⟩ := Loading.result_mapM_load loadedRemoved
    obtain ⟨-, rfl⟩ := Loading.result_mapM_load loadedAdded
    generalize numberedRemoved : (CodeTable.numberAll _).run .empty = removedNumbers
    obtain ⟨removedCodes, t⟩ := removedNumbers
    obtain ⟨-, -, rfl⟩ := CodeTable.numbersOf_of_numberAll numberedRemoved
    dsimp only
    generalize numberedAdded : (CodeTable.numberAll _).run t = addedNumbers
    obtain ⟨addedCodes, u⟩ := addedNumbers
    obtain ⟨-, -, rfl⟩ := CodeTable.numbersOf_of_numberAll numberedAdded
    dsimp only
    rw [CancelFlag.collect_eq (by simpa [length_scores] using turns), length_scores]
    simp only [List.length_zip, List.length_map, Nat.min_self]
    cases flag.seen _ _
    · rfl
    · rfl

/-! ## What a flag does -/

theorem computeUnless_or (flag : CancelFlag) :
    (computeUnless flag config source old new).result = (compute config source old new).result ∨
      (computeUnless flag config source old new).result = .error .cancelled := by
  rw [computeUnless_eq, Loading.result_giveUpIf]
  cases (compute config source old new).result with
  | error e => exact .inl rfl
  | ok d =>
    cases flag.seen _ _ with
    | true => exact .inr rfl
    | false => exact .inl rfl

theorem computeUnless_of_firstFails (flag : CancelFlag) {e : Error} (someRemoved : textsOnlyIn old new ≠ [])
    (someAdded : textsOnlyIn new old ≠ []) (fails : FirstFails source (textsOnlyIn old new ++ textsOnlyIn new old) e) :
    (computeUnless flag config source old new).result = .error e := by
  rw [computeUnless_eq, Loading.result_giveUpIf, result_compute_eq_error_iff.2 ⟨⟨someRemoved, someAdded⟩, fails⟩]

/-- A delta is given up just when every text can be had and the flag is seen up, but for a source
that fails in these words itself. -/
theorem computeUnless_eq_cancelled_iff (flag : CancelFlag) :
    (computeUnless flag config source old new).result = .error .cancelled ↔
      ((∀ c ∈ textsOnlyIn old new ++ textsOnlyIn new old, ∃ data, source c = .ok data) ∧
        flag.seen ((textsOnlyIn old new).length + (textsOnlyIn new old).length)
          ((textsOnlyIn old new).length * (textsOnlyIn new old).length) = true) ∨
      (compute config source old new).result = .error .cancelled := by
  by_cases empty : textsOnlyIn old new = [] ∨ textsOnlyIn new old = []
  · -- there is no pair to score
    have noPairs : (textsOnlyIn old new).length * (textsOnlyIn new old).length = 0 := by simpa using empty
    rw [computeUnless_eq, noPairs, compute_of_empty empty]
    simp [CancelFlag.seen]
  · have asks : (compute config source old new).Asks source _ := asks_compute (not_or.1 empty).1 (not_or.1 empty).2
    rw [computeUnless_eq, Loading.result_giveUpIf, ← asks.exists_result_iff]
    cases (compute config source old new).result with
    | error e => simp
    | ok d => cases flag.seen _ _ <;> simp

/-- **A delta is given up as a whole or not at all.** Whatever the sequences, the configuration,
the source and the flag, and in whatever order the pairs are scored: with a flag the same is
loaded as without it, and the result is the same, or the delta is given up. It is given up just
when every text that is asked for can be had and the flag is seen up before one of the pairs is
scored; a source may also fail in these words itself, as it may with any others. So a flag that
is up from the start makes no difference if there is no pair to score; and if there is one, the
delta is given up, unless a load fails, which then is the result. -/
theorem computeUnless_given_up (flag : CancelFlag) (config : DeltaConfig) (source : Source) (old new : List Chunk) :
    let removed := textsOnlyIn old new
    let added := textsOnlyIn new old
    let loads := removed.length + added.length
    let pairs := removed.length * added.length
    let whole := compute config source old new
    let given := computeUnless flag config source old new
    (∀ turn, CancelFlag.Turns pairs turn → computeInTurns turn flag config source old new = given) ∧
      given.loads = whole.loads ∧
      (given.result = whole.result ∨ given.result = .error .cancelled) ∧
      (given.result = .error .cancelled ↔
        ((∀ c ∈ removed ++ added, ∃ data, source c = .ok data) ∧ ∃ k < pairs, flag.raised loads k = true) ∨
        whole.result = .error .cancelled) ∧
      (flag.Stays → flag.raised 0 0 = true →
        (removed = [] ∨ added = [] → given = whole ∧ ∃ d, whole.result = .ok d) ∧
        (removed ≠ [] → added ≠ [] →
          ((∀ c ∈ removed ++ added, ∃ data, source c = .ok data) → given.result = .error .cancelled) ∧
          ∀ e, FirstFails source (removed ++ added) e → given.result = .error e)) := by
  intro removed added loads pairs whole given
  have same : given = whole.giveUpIf (flag.seen loads pairs) := computeUnless_eq flag config source old new
  refine ⟨fun turn turns => computeInTurns_eq turns, ?_, computeUnless_or flag, ?_, fun stays up => ⟨fun empty => ?_,
    fun someRemoved someAdded => ⟨fun had => ?_, fun e => computeUnless_of_firstFails flag someRemoved someAdded⟩⟩⟩
  · rw [same, Loading.loads_giveUpIf]
  · rw [← CancelFlag.seen_iff]
    exact computeUnless_eq_cancelled_iff flag
  · have noPairs : pairs = 0 := by simpa [pairs] using empty
    have computed : whole = pure (assemble old new []) := compute_of_empty empty
    refine ⟨?_, _, congrArg Loading.result computed⟩
    rw [same, noPairs, CancelFlag.seen, List.range_zero, List.any_nil, Loading.giveUpIf_false]
  · have pos : 0 < pairs := Nat.mul_pos (List.length_pos_of_ne_nil someRemoved) (List.length_pos_of_ne_nil someAdded)
    exact (computeUnless_eq_cancelled_iff flag).2 (.inl ⟨had, stays.seen up pos⟩)

/-- The flag is up from the start: with all payloads at hand the delta is given up, and with one missing
the load fails; if it only goes up before the last of four pairs is scored, it is seen in any order. -/
theorem computeUnless_given_up_early :
    let text : UInt8 → Chunk := fun n => ⟨⟨["x"]⟩, .text ⟨0, none, none⟩ ⟨1, none, none⟩, ⟨.sha256, [n]⟩⟩
    let source : Source := fun _ => .ok (Bytes.ofText "ab cd")
    let lacking : Source := fun c => if c.signature.digest = [3] then .error (.notFound c.signature) else source c
    let config : DeltaConfig := ⟨2, 0, true⟩
    let late : CancelFlag := ⟨fun loads pairs => 4 < loads || loads == 4 && 3 ≤ pairs⟩
    let old := [text 1, text 2]
    let new := [text 3, text 4]
    CancelFlag.always.Stays ∧ CancelFlag.always.raised 0 0 = true ∧
      (∀ c ∈ textsOnlyIn old new ++ textsOnlyIn new old, ∃ data, source c = .ok data) ∧
      (computeUnless .always config source old new).result = .error .cancelled ∧
      FirstFails lacking (textsOnlyIn old new ++ textsOnlyIn new old) (.notFound (text 3).signature) ∧
      (computeUnless .always config lacking old new).result = .error (.notFound (text 3).signature) ∧
      CancelFlag.Turns 4 (3 - ·) ∧ (computeInTurns (3 - ·) late config source old new).result = .error .cancelled := by
  intro text source lacking config late old new
  have stays : CancelFlag.always.Stays := fun _ _ _ _ _ _ => rfl
  have up : CancelFlag.always.raised 0 0 = true := rfl
  have had : ∀ c ∈ textsOnlyIn old new ++ textsOnlyIn new old, ∃ data, source c = .ok data := fun c _ => ⟨_, rfl⟩
  have someRemoved : textsOnlyIn old new ≠ [] := by decide
  have someAdded : textsOnlyIn new old ≠ [] := by decide
  have fails : FirstFails lacking (textsOnlyIn old new ++ textsOnlyIn new old) (.notFound (text 3).signature) :=
    ⟨[text 1, text 2], text 3, [text 4], by decide, by simp [lacking, source, text], by decide⟩
  have turns : ((List.range 4).map (3 - ·)).Perm (List.range 4) := by decide
  obtain ⟨-, -, -, -, early⟩ := computeUnless_given_up .always config source old new
  obtain ⟨-, -, -, -, first⟩ := computeUnless_given_up .always config lacking old new
  obtain ⟨inTurns, -, -, cancelled, -⟩ := computeUnless_given_up late config source old new
  refine ⟨stays, up, had, ((early stays up).2 someRemoved someAdded).1 had, fails,
    ((first stays up).2 someRemoved someAdded).2 _ fails, turns, ?_⟩
  rw [inTurns _ turns]
  exact cancelled.2 (.inl ⟨had, 3, by decide, rfl⟩)

end Delta

end ContentChunks
