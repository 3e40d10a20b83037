/-
A file that is chunked is had back, from the file itself and from a store that
its chunks were put into.

Main statements:
- `Holds.putFromAsset`: a chunk that can be read is put into a store, and nothing else changes.
- `Holds.storing`: so are all chunks of a row, in order.
- `Holds.stored_and_fetched`: what was put into an empty store is had back.
- `ofFile_stored_and_read_back`: what is read of the chunks of a file, and what a
  store gives that they were put into, is the content of the file.
-/
import ContentChunks.Delta.Loading
import ContentChunks.Proofs.FileChunks
import ContentChunks.Proofs.Resolving
import ContentChunks.Proofs.StoreMap

namespace ContentChunks

theorem Chunk.short_of_read {fs : FileSystem} {c : Chunk} {base : Path} {data : Bytes}
    (read : c.read fs base = .ok data) : (c.location.toPath base).bytes.length ≤ FileSystem.pathLimit := by
  obtain ⟨opened, found, -⟩ := bind_eq_ok.1 read
  obtain ⟨place, reached, -⟩ := bind_eq_ok.1 (mapError_eq_ok.1 found)
  exact (FileSystem.reach_iff.1 reached).1.short

namespace Store

open FileSystem (pathLimit)

variable {s : Store} {place : Place} {fs : FileSystem} {m : Payloads} {chunks : List Chunk} {base : Path}

theorem grows_openAt {root : Path} {config : StoreConfig} {opened : FileSystem}
    (h : openAt fs root config = (.ok s, opened)) : fs.Grows opened := by
  have grows : fs.Grows (fs.makeDirectories root).2 := FileSystem.grows_makeDirectories root
  unfold openAt at h
  split at h
  · cases h
  · split at h <;> rename_i made
    · cases h
    · rw [made] at grows
      cases h
      exact grows

theorem putFromAsset_ne_ok {c : Chunk} (long : pathLimit < (s.path c.signature).bytes.length) (outcome : Outcome) :
    (s.putFromAsset fs c base).1 ≠ .ok outcome := by
  have notFile : fs.isFile (s.path c.signature) = false := by
    cases reached : fs.reach (s.path c.signature) with
    | error fault => simp [FileSystem.isFile, FileSystem.nodeAt?, reached]
    | ok place =>
      have := (FileSystem.reach_iff.1 reached).1.short
      omega
  intro done
  rw [putFromAsset_eq_put] at done
  unfold contains at done
  rw [notFile, Bool.and_false, if_neg Bool.false_ne_true] at done
  cases read : c.read fs base with
  | error e =>
    rw [read] at done
    cases done
  | ok data =>
    rw [read] at done
    cases outcome with
    | stored => exact put_ne_stored long done
    | existing =>
      dsimp only at done
      rw [put_eq_publish] at done
      dsimp only at done
      rw [notFile, if_neg Bool.false_ne_true] at done
      split at done
      · cases done
      · split at done
        · cases done
        · split at done <;> cases done

/-! ## Putting the chunks of a file -/

/-- The calls that put chunks into a store, each read from its asset under `base`. -/
def Event.storing (chunks : List Chunk) (base : Path) : List Event :=
  chunks.map fun c => .call (.putFromAsset c base)

/-- The calls that get the payloads of chunks. -/
def Event.fetching (chunks : List Chunk) : List Event := chunks.map fun c => .call (.get c.signature)

/-- A chunk that can be read is put into a store; what the store has then is
what it had, and the payload if its signature is new. -/
theorem Holds.putFromAsset (h : s.Holds place fs m) (pos : 0 < s.config.segmentWidth) (fits : s.Fits) {c : Chunk}
    {data : Bytes} (read : c.read fs base = .ok data) (hash : Signature.of s.config.algorithm data = c.signature) :
    ∃ outcome last more, s.putFromAsset fs c base = (.ok outcome, last) ∧ s.Holds place last more ∧
      fs.Grows last ∧ c.signature ∈ more ∧ (∀ signature ∈ m, signature ∈ more) ∧
      ∀ signature payload, more.lookup signature = some payload →
        m.lookup signature = some payload ∨ payload = data := by
  have takes := takes_of_hash hash
  have contains := h.contains_eq pos fits takes
  by_cases mem : c.signature ∈ m
  · refine ⟨.existing, fs, m, ?_, h, .refl fs, mem, fun _ has => has, fun _ _ has => Or.inl has⟩
    simp [putFromAsset_eq_put, contains, mem]
  · obtain ⟨stored, holds, grows⟩ := h.put pos fits takes data
    rw [Payloads.put_new hash mem] at stored holds
    refine ⟨.stored, (s.put fs c data).2, m.insert c.signature data, ?_, holds, grows, ?_, ?_, ?_⟩
    · simp only [putFromAsset_eq_put, contains, mem, decide_false, Bool.false_eq_true, if_false, read]
      exact Prod.ext stored rfl
    · exact Finmap.mem_insert.2 (Or.inl rfl)
    · exact fun signature has => Finmap.mem_insert.2 (Or.inr has)
    · intro signature payload has
      by_cases same : signature = c.signature
      · rw [same, Finmap.lookup_insert] at has
        exact Or.inr (Option.some.inj has).symm
      · rw [Finmap.lookup_insert_of_ne m same] at has
        exact Or.inl has

/-- **The chunks of a row are put into a store**, if each can be read whatever
the store adds meanwhile; the store has no payloads then but theirs and those it had. -/
theorem Holds.storing (h : s.Holds place fs m) (pos : 0 < s.config.segmentWidth) (fits : s.Fits)
    {payloads : List Bytes}
    (reads : ∀ c ∈ chunks, ∃ data ∈ payloads, Signature.of s.config.algorithm data = c.signature ∧
      ∀ other, fs.Grows other → c.read other base = .ok data)
    (had : ∀ signature data, m.lookup signature = some data → data ∈ payloads) :
    ∃ (outcomes : List Outcome) (last : FileSystem) (more : Payloads),
      (∀ rest, s.answers fs (Event.storing chunks base ++ rest) =
        outcomes.map (fun outcome => .outcome (.ok outcome)) ++ s.answers last rest) ∧
      s.Holds place last more ∧ (∀ signature ∈ m, signature ∈ more) ∧ (∀ c ∈ chunks, c.signature ∈ more) ∧
      ∀ signature data, more.lookup signature = some data → data ∈ payloads := by
  induction chunks generalizing fs m with
  | nil => exact ⟨[], fs, m, fun _ => rfl, h, fun _ has => has, by simp, had⟩
  | cons c chunks ih =>
    obtain ⟨data, mem, hash, read⟩ := reads c (by simp)
    obtain ⟨outcome, next, m', put, holds, grows, has, kept, values⟩ :=
      h.putFromAsset pos fits (read fs (.refl fs)) hash
    have reads' : ∀ c ∈ chunks, ∃ data ∈ payloads, Signature.of s.config.algorithm data = c.signature ∧
        ∀ other, next.Grows other → c.read other base = .ok data := by
      intro c hc
      obtain ⟨data, mem, hash, read⟩ := reads c (by simp [hc])
      exact ⟨data, mem, hash, fun other later => read other (grows.trans later)⟩
    have had' : ∀ signature data, m'.lookup signature = some data → data ∈ payloads := by
      intro signature payload found
      rcases values signature payload found with found | rfl
      · exact had signature payload found
      · exact mem
    obtain ⟨outcomes, last, more, answers, holdsLast, keptLast, hasAll, valuesLast⟩ := ih holds reads' had'
    refine ⟨outcome :: outcomes, last, more, fun rest => ?_, holdsLast, fun signature old => ?_, ?_, valuesLast⟩
    · have first : s.call fs (.putFromAsset c base) = (.outcome (.ok outcome), next) := by
        rw [Store.call, put]
        rfl
      show (s.call fs (.putFromAsset c base)).1 ::
        s.answers (s.call fs (.putFromAsset c base)).2 (Event.storing chunks base ++ rest) = _
      rw [first, answers rest]
      rfl
    · exact keptLast signature (kept signature old)
    · intro other hother
      rcases List.mem_cons.1 hother with rfl | hother
      · exact keptLast _ has
      · exact hasAll other hother

theorem answers_fetching {payload : Chunk → Bytes} (gets : ∀ c ∈ chunks, s.get fs c.signature = .ok (payload c)) :
    s.answers fs (Event.fetching chunks) = (chunks.map payload).map fun bytes => .payload (.ok bytes) := by
  induction chunks with
  | nil => rfl
  | cons c chunks ih =>
    have rest := ih fun c hc => gets c (by simp [hc])
    show Answer.payload (s.get fs c.signature) :: s.answers fs (Event.fetching chunks) = _
    rw [gets c (by simp), rest]
    rfl

/-- **What is put into an empty store is had back**, chunk by chunk and in order,
provided that no two payloads have one digest. -/
theorem Holds.stored_and_fetched (h : s.Holds place fs ∅) (pos : 0 < s.config.segmentWidth) (fits : s.Fits)
    {payload : Chunk → Bytes} (hash : ∀ c ∈ chunks, Signature.of s.config.algorithm (payload c) = c.signature)
    (read : ∀ c ∈ chunks, ∀ other, fs.Grows other → c.read other base = .ok (payload c))
    (apart : ∀ a ∈ chunks.map payload, ∀ b ∈ chunks.map payload,
      Signature.of s.config.algorithm a = Signature.of s.config.algorithm b → a = b) :
    ∃ outcomes : List Outcome, s.answers fs (Event.storing chunks base ++ Event.fetching chunks) =
      outcomes.map (fun outcome => .outcome (.ok outcome)) ++
        (chunks.map payload).map (fun bytes => .payload (.ok bytes)) := by
  have mem (c : Chunk) (hc : c ∈ chunks) : payload c ∈ chunks.map payload := List.mem_map_of_mem hc
  obtain ⟨outcomes, last, m, answers, holds, -, has, values⟩ := h.storing pos fits
    (fun c hc => ⟨payload c, mem c hc, hash c hc, read c hc⟩) (fun signature data stored => by simp at stored)
  refine ⟨outcomes, ?_⟩
  rw [answers, answers_fetching fun c hc => ?_]
  obtain ⟨data, stored⟩ := Finmap.mem_iff.1 (has c hc)
  obtain ⟨-, hashed, -⟩ := holds.held _ _ stored
  rw [holds.get_eq pos fits (takes_of_hash (hash c hc)), stored]
  exact congrArg Except.ok (apart data (values _ _ stored) _ (mem c hc) (hashed.trans (hash c hc).symm))

end Store

/-! ## There and back -/

open FileSystem (pathLimit)
open Store (Outcome Event)

/-- **A file that is chunked is had back.** Whatever links and dots path and base
were given with, as long as the path of the asset under the base is not too
long and the asset does not change, each chunk is read, its bytes have its
signature, and together they are the content of the file. They are so too when
the chunks were put into a store of the same algorithm whose directory was
empty: every put succeeds, and what the store gives for the chunks is what was
read of them, provided that no two payloads have one digest. -/
theorem ofFile_stored_and_read_back {fs now : FileSystem} {config : ChunkConfig} {p base : Path}
    {chunks : List Chunk} (made : Chunk.ofFile fs config p base = .ok chunks)
    (short : ∀ c ∈ chunks, (c.location.toPath base).bytes.length ≤ pathLimit)
    (unchanged : ∀ c ∈ chunks, now.contentAt (c.location.toPath base) = fs.contentAt (c.location.toPath base)) :
    ∃ payloads : List Bytes, chunks.mapM (fun c => c.read now base) = .ok payloads ∧
      chunks.mapM (Source.ofAssets now base) = .ok payloads ∧
      chunks.map (·.signature) = payloads.map (.of config.algorithm) ∧ fs.contentAt p = .ok payloads.flatten ∧
      ∀ {root : Path} {storeConfig : StoreConfig} {s : Store} {opened : FileSystem} {place : Place},
        Store.openAt now root storeConfig = (.ok s, opened) → storeConfig.algorithm = config.algorithm →
        opened.DirectoryAt root place → opened.below place = [] → s.Fits →
        (∀ a ∈ payloads, ∀ b ∈ payloads,
          Signature.of config.algorithm a = Signature.of config.algorithm b → a = b) →
        ∃ outcomes : List Outcome, s.answers opened (Event.storing chunks base ++ Event.fetching chunks) =
          outcomes.map (fun outcome => .outcome (.ok outcome)) ++
            payloads.map (fun bytes => .payload (.ok bytes)) := by
  obtain ⟨location, content, resolved, found, rfl⟩ := Chunk.ofFile_eq_ok.1 made
  -- the asset is there as long as nothing but the store changes the file system
  have read (later : FileSystem) (grows : now.Grows later) (c : Chunk)
      (hc : c ∈ Chunk.ofAsset config location content) : c.read later base = .ok (c.payload content) := by
    have here := Chunk.location_ofAsset hc
    have shortHere := short c hc
    have same := unchanged c hc
    rw [here] at shortHere same
    rw [Location.contentAt_toPath resolved shortHere found] at same
    exact Chunk.read_eq_ok hc (grows.contentAt same (Chunk.ne_nil_of_mem hc))
  have hash (c : Chunk) (hc : c ∈ Chunk.ofAsset config location content) :
      Signature.of config.algorithm (c.payload content) = c.signature := (Chunk.signature_ofAsset hc).symm
  have readNow := mapM_eq_ok_map (read now (.refl now))
  refine ⟨_, readNow, readNow, ?_, ?_, ?_⟩
  · rw [List.map_map]
    exact List.map_congr_left fun c hc => Chunk.signature_ofAsset hc
  · rw [Chunk.flatten_payloads, found]
  · intro root storeConfig s opened place openedAt algorithm directory empty fits apart
    have grows := Store.grows_openAt openedAt
    obtain ⟨rfl, pos⟩ := Store.openAt_eq_ok openedAt
    have start := Store.holds_empty (s := ⟨root, storeConfig⟩) directory empty
    rw [← algorithm] at hash apart
    exact start.stored_and_fetched pos fits hash (fun c hc later added => read later (grows.trans added) c hc) apart

/-- A file behind a link is chunked, another one is written, and then the chunks
are stored; the base leads through two dots and the link. -/
theorem ofFile_stored_and_read_back_linked :
    let content := Bytes.ofText "a\n\na"
    let fs := (((FileSystem.empty.put [Bytes.ofText "d"] .directory).put [Bytes.ofText "l"]
      (.link (Path.ofText "d"))).put [Bytes.ofText "s"] .directory).putFile [Bytes.ofText "d", Bytes.ofText "f"] content
    let now := fs.putFile [Bytes.ofText "d", Bytes.ofText "g"] (Bytes.ofText "b")
    let config : ChunkConfig := ⟨.sha256, 8, none⟩
    let base := Path.ofText "/s/../l"
    let chunks := Chunk.ofAsset config ⟨["f"]⟩ content
    let payloads := [Bytes.ofText "a", Bytes.ofText "\n\n", Bytes.ofText "a"]
    let s : Store := ⟨Path.ofText "/s", ⟨.sha256, 10, true⟩⟩
    Chunk.ofFile fs config (Path.ofText "/l/f") base = .ok chunks ∧
      chunks.mapM (fun c => c.read now base) = .ok payloads ∧
      ∃ outcomes : List Outcome, s.answers now (Event.storing chunks base ++ Event.fetching chunks) =
        outcomes.map (fun outcome => .outcome (.ok outcome)) ++ payloads.map (fun bytes => .payload (.ok bytes)) := by
  intro content fs now config base chunks payloads s
  have made : Chunk.ofFile fs config (Path.ofText "/l/f") base = .ok chunks :=
    Chunk.ofFile_eq_ok.2 ⟨⟨["f"]⟩, content, by decide +kernel, by decide +kernel, rfl⟩
  have short : ∀ c ∈ chunks, (c.location.toPath base).bytes.length ≤ pathLimit := by
    intro c hc
    rw [Chunk.location_ofAsset hc]
    decide
  have unchanged : ∀ c ∈ chunks, now.contentAt (c.location.toPath base) = fs.contentAt (c.location.toPath base) := by
    intro c hc
    rw [Chunk.location_ofAsset hc]
    decide +kernel
  obtain ⟨found, read, -, -, -, stored⟩ := ofFile_stored_and_read_back made short unchanged
  obtain rfl : payloads = found := by
    have given : chunks.mapM (fun c => c.read now base) = .ok payloads := by decide +kernel
    rw [given] at read
    exact Except.ok.inj read
  have directory : now.DirectoryAt s.root [Bytes.ofText "s"] := ⟨by rfl, by rfl⟩
  have opened : Store.openAt now s.root s.config = (.ok s, now) := Store.openAt_directory directory (by decide)
  have injective {f : Bytes → Signature} {x y : Bytes} (apart : f x ≠ f y) :
      ∀ a ∈ [x, y, x], ∀ b ∈ [x, y, x], f a = f b → a = b := by grind
  have apart : Signature.of .sha256 (Bytes.ofText "a") ≠ Signature.of .sha256 (Bytes.ofText "\n\n") := by
    decide +kernel
  exact ⟨made, read, stored opened rfl directory (by rfl) (Store.fits_of_length (by decide) (by decide))
    (injective apart)⟩

/-- Neither a base nor the root of a store may be so long that no more names
follow: the base is good for chunking a file, but not for reading the chunk, and
the store is opened, but the chunk is not put. -/
theorem not_read_back_of_long_paths :
    let fs := (FileSystem.empty.put [Bytes.ofText "s"] .directory).putFile [Bytes.ofText "a"] (Bytes.ofText "abc")
    let config : ChunkConfig := ⟨.sha256, 8, none⟩
    let base : Path := ⟨List.replicate pathLimit slash⟩
    let c : Chunk := ⟨⟨["a"]⟩, .text ⟨0, some 0, some 0⟩ ⟨3, some 0, some 3⟩, .of .sha256 (Bytes.ofText "abc")⟩
    let root : Path := ⟨List.replicate (pathLimit - 1) slash ++ Bytes.ofText "s"⟩
    let s : Store := ⟨root, ⟨.sha256, 10, false⟩⟩
    Chunk.ofFile fs config (Path.ofText "/a") base = .ok [c] ∧ (∀ bytes, c.read fs base ≠ .ok bytes) ∧
      Chunk.ofFile fs config (Path.ofText "/a") (Path.ofText "/") = .ok [c] ∧
      Store.openAt fs root s.config = (.ok s, fs) ∧ fs.DirectoryAt root [Bytes.ofText "s"] ∧
      fs.below [Bytes.ofText "s"] = [] ∧ ∀ outcome, (s.putFromAsset fs c (Path.ofText "/")).1 ≠ .ok outcome := by
  intro fs config base c root s
  have content : fs.contentAt (Path.ofText "/a") = .ok (Bytes.ofText "abc") := by rfl
  have chunks : [c] = Chunk.ofAsset config ⟨["a"]⟩ (Bytes.ofText "abc") := by rfl
  have located : Location.resolve fs (Path.ofText "/a") (Path.ofText "/") = .ok ⟨["a"]⟩ := by decide +kernel
  have locatedLong : Location.resolve fs (Path.ofText "/a") base = .ok ⟨["a"]⟩ := by
    rw [← located]
    unfold Location.resolve
    rw [show fs.canonical base = .ok [] from FileSystem.canonical_slashes fs (by decide),
      show fs.canonical (Path.ofText "/") = .ok [] by rfl]
    rfl
  have usable : FileSystem.Usable (Bytes.ofText "s") :=
    ⟨⟨by decide, by decide, by decide, by decide⟩, by decide, by decide⟩
  have above : fs.DirectoryAt ⟨List.replicate (pathLimit - 1) slash⟩ [] :=
    FileSystem.directoryAt_of_canonical (FileSystem.canonical_slashes fs (by decide)) rfl (by simp)
  have pushed : (⟨List.replicate (pathLimit - 1) slash⟩ : Path).push (Bytes.ofText "s") = root := by
    rw [Path.push_whole usable.whole, if_pos (Or.inr (by rw [List.getLast?_replicate]; rfl))]
  have size : root.bytes.length = pathLimit := by
    rw [List.length_append, List.length_replicate]
    rfl
  have directory : fs.DirectoryAt root [Bytes.ofText "s"] := by
    rw [← pushed]
    exact above.push usable (by rw [pushed, size]) (by rfl)
  have takes : s.Takes c.signature := Store.takes_of_hash rfl
  have long : pathLimit < (s.path c.signature).bytes.length := by
    rw [← size]
    exact Store.length_root_lt (by decide) takes
  refine ⟨Chunk.ofFile_eq_ok.2 ⟨_, _, locatedLong, content, chunks⟩, fun bytes read => ?_,
    Chunk.ofFile_eq_ok.2 ⟨_, _, located, content, chunks⟩, Store.openAt_directory directory (by decide), directory,
    by rfl, Store.putFromAsset_ne_ok long⟩
  have asset (base : Path) : Location.toPath ⟨["a"]⟩ base = base.push (Bytes.ofText "a") := rfl
  have short := Chunk.short_of_read read
  rw [asset] at short
  have longer : (base.push (Bytes.ofText "a")).bytes.length = pathLimit + 1 := by
    rw [Path.push_whole (by decide), if_pos (Or.inr (by rw [List.getLast?_replicate]; rfl)), List.length_append,
      List.length_replicate]
    rfl
  rw [longer] at short
  exact Nat.not_succ_le_self pathLimit short

end ContentChunks
