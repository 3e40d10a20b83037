/-
The chunks of a file are those of its content, and its bytes are read back
chunk by chunk. A file that is open answers without fail inside its content,
so what is known of steady readers holds of it; of a directory no chunk can be
had, since nothing is read from it.

Main statements:
- `Chunk.ofFile_eq_ok`: a file has chunks if it can be located and opened, those of its content.
- `Chunk.flatten_payloads`: the bytes of the chunks of an asset are, in order, the asset.
- `Chunk.read_eq_ok`: reading a chunk of a file gives the bytes of its range.
-/
import ContentChunks.Asset
import ContentChunks.Proofs.Growing
import ContentChunks.Proofs.Streaming

namespace ContentChunks

/-! ## Files that are open -/

theorem Script.reliableIn_ofFile (length : Nat) : (Script.ofFile length).ReliableIn length where
  reply read position wanted inside := by
    refine ⟨wanted, ?_, id⟩
    simp [Script.ofFile, Nat.not_lt.2 inside]
  refusal move target inside := by simp [Script.ofFile, Nat.not_lt.2 inside]

theorem FileSystem.steady_reader (fs : FileSystem) (number : Nat) : (fs.reader (.file number)).Steady :=
  Script.reliableIn_ofFile _

theorem FileSystem.openAsset_eq_ok {fs : FileSystem} {p : Path} {opened : Opened}
    (h : fs.openAsset p = .ok opened) :
    (∃ number, opened = .file number ∧ fs.contentAt p = .ok (fs.content number)) ∨ opened = .directory := by
  obtain ⟨place, reached, found⟩ := bind_eq_ok.1 (mapError_eq_ok.1 h)
  split at found
  · rename_i number node
    cases found
    exact Or.inl ⟨number, rfl, FileSystem.contentAt_eq_ok.2 ⟨place, number, reached, node, rfl⟩⟩
  · cases found
    exact Or.inr rfl
  · cases found

theorem FileSystem.openAsset_of_contentAt {fs : FileSystem} {p : Path} {content : Bytes}
    (h : fs.contentAt p = .ok content) :
    ∃ number, fs.openAsset p = .ok (.file number) ∧ fs.content number = content := by
  obtain ⟨place, number, reached, node, same⟩ := FileSystem.contentAt_eq_ok.1 h
  refine ⟨number, mapError_eq_ok.2 ?_, same⟩
  rw [openAt, reached]
  simp only [bind, Except.bind, node]
  rfl

/-! ## Directories that are open -/

theorem Reader.fill_directory {r r' : Reader} (h : r.script = .ofDirectory) {wanted : Nat}
    {result : Except Fault Bytes} (hf : r.fill wanted = (result, r')) : result = .error (.os .isDirectory) := by
  rw [Reader.fill_eq_answer, Reader.answer, h] at hf
  cases hf
  rfl

theorem Reader.kindAhead_directory {r : Reader} (h : r.script = .ofDirectory) (block : Nat) (left : Option Nat) :
    r.kindAhead block left = (.ok .text, r) ∨ ∃ fault r', r.kindAhead block left = (.error fault, r') := by
  unfold kindAhead
  by_cases nothing : left = some 0
  · exact Or.inl (by rw [if_pos nothing])
  · rw [if_neg nothing]
    refine Or.inr ?_
    split <;> rename_i hf
    · exact ⟨_, _, rfl⟩
    · cases Reader.fill_directory h hf
    · cases Reader.fill_directory h hf

namespace Stream

theorem scan_directory {s : Stream} (h : s.reader.script = .ofDirectory) :
    ∃ fault s', s.scan = (.error fault, s') := by
  unfold scan
  split
  · exact ⟨_, _, rfl⟩
  · rename_i moved hm
    have script := Reader.script_moveTo s.reader s.scanned
    rw [hm, h] at script
    split <;> rename_i hf
    · exact ⟨_, _, rfl⟩
    · cases Reader.fill_directory script hf
    · cases Reader.fill_directory script hf

theorem judge_directory {s s' : Stream} {kind : Kind} (h : s.reader.script = .ofDirectory) (hk : s.kind = none)
    (hj : s.judge = (.ok kind, s')) : kind = .text ∧ s'.reader.script = .ofDirectory := by
  unfold judge Reader.kind at hj
  simp only [hk] at hj
  split at hj
  · cases hj
  · rename_i moved hm
    have script := Reader.script_moveTo s.reader 0
    rw [hm, h] at script
    rcases Reader.kindAhead_directory script (max 1 s.config.blockSize) s.config.binarySample with
      judged | ⟨fault, r', failed⟩
    · rw [judged] at hj
      cases hj
      exact ⟨rfl, script⟩
    · rw [failed] at hj
      cases hj

theorem next_directory {s : Stream} (h : s.reader.script = .ofDirectory) (hk : s.kind = none)
    (hc : s.closed = []) (hf : s.finished = false) : ∃ e s', s.next = (some (.error e), s') := by
  unfold next
  simp only [hc, hf, Bool.false_eq_true, ↓reduceIte]
  split <;> rename_i hj
  · exact ⟨_, _, rfl⟩
  · cases (judge_directory h hk hj).1
  · obtain ⟨fault, s', failed⟩ := scan_directory (judge_directory h hk hj).2
    rw [failed]
    exact ⟨_, _, rfl⟩

theorem toList_of_drain {s : Stream} {chunks : List Chunk} (h : s.drain = chunks.map .ok) : s.toList = .ok chunks := by
  rw [toList, h, List.mapM_map]
  exact (mapM_eq_ok_map (g := id) fun _ _ => rfl).trans (congrArg Except.ok (List.map_id chunks))

theorem toList_of_next {s s' : Stream} {e : Error} (h : s.next = (some (.error e), s')) : s.toList = .error e := by
  rw [toList, drain]
  split <;> rename_i hn
  · simp [h] at hn
  · rw [h] at hn
    cases hn
    rfl

end Stream

/-! ## Chunks of files -/

/-- **A file has chunks if it can be located and opened**, and they are those of its content. -/
theorem Chunk.ofFile_eq_ok {fs : FileSystem} {config : ChunkConfig} {p base : Path} {chunks : List Chunk} :
    Chunk.ofFile fs config p base = .ok chunks ↔ ∃ location content, Location.resolve fs p base = .ok location ∧
      fs.contentAt p = .ok content ∧ chunks = Chunk.ofAsset config location content := by
  constructor
  · intro made
    obtain ⟨s, streamed, made⟩ := bind_eq_ok.1 made
    obtain ⟨location, resolved, streamed⟩ := bind_eq_ok.1 streamed
    obtain ⟨opened, found, streamed⟩ := bind_eq_ok.1 streamed
    cases streamed
    rcases FileSystem.openAsset_eq_ok found with ⟨number, rfl, content⟩ | rfl
    · refine ⟨location, _, resolved, content, ?_⟩
      have due := Stream.due_steady (fs.steady_reader number) location config (some p)
      rw [Stream.toList_of_drain (Stream.drain_of_due due)] at made
      cases made
      rfl
    · obtain ⟨e, s', failed⟩ := Stream.next_directory (s := .of (fs.reader .directory) location config (some p))
        rfl rfl rfl rfl
      rw [Stream.toList_of_next failed] at made
      cases made
  · rintro ⟨location, content, resolved, found, rfl⟩
    obtain ⟨number, opened, rfl⟩ := FileSystem.openAsset_of_contentAt found
    have due := Stream.due_steady (fs.steady_reader number) location config (some p)
    refine bind_eq_ok.2 ⟨⟨.file number, _⟩, ?_, Stream.toList_of_drain (Stream.drain_of_due due)⟩
    rw [AssetStream.ofPath, resolved, opened]
    rfl

/-! ## Reading back -/

theorem Chunk.location_ofAsset {config : ChunkConfig} {location : Location} {data : Bytes} {c : Chunk}
    (h : c ∈ Chunk.ofAsset config location data) : c.location = location := by
  unfold Chunk.ofAsset at h
  split at h
  · obtain rfl := List.mem_singleton.1 h
    rfl
  · obtain ⟨s, -, rfl⟩ := List.mem_map.1 h
    rfl

theorem Chunk.signature_ofAsset {config : ChunkConfig} {location : Location} {data : Bytes} {c : Chunk}
    (h : c ∈ Chunk.ofAsset config location data) :
    c.signature = .of config.algorithm (data.slice c.range.start c.range.stop) := by
  unfold Chunk.ofAsset at h
  split at h
  · obtain rfl := List.mem_singleton.1 h
    show Signature.of _ data = .of _ (data.slice 0 data.length)
    rw [Bytes.slice_zero_length]
  · obtain ⟨s, -, rfl⟩ := List.mem_map.1 h
    rfl

theorem Chunk.tile_ofAsset (config : ChunkConfig) (location : Location) (data : Bytes) :
    Range.Tile 0 ((Chunk.ofAsset config location data).map (·.range)) data.length := by
  unfold Chunk.ofAsset
  split
  · rename_i binary
    exact ⟨rfl, Kind.length_pos_of_binary binary, rfl⟩
  · rw [List.map_map]
    exact (Splitter.spans_tile data).1.ranges

theorem Chunk.ne_nil_of_mem {config : ChunkConfig} {location : Location} {data : Bytes} {c : Chunk}
    (mem : c ∈ Chunk.ofAsset config location data) : data ≠ [] := by
  rintro rfl
  have inside := (Chunk.tile_ofAsset config location []).inside (List.mem_map_of_mem mem)
  rw [List.length_nil] at inside
  omega

/-- The bytes of a chunk of an asset. -/
def Chunk.payload (c : Chunk) (data : Bytes) : Bytes := data.slice c.range.start c.range.stop

/-- **The bytes of the chunks of an asset are, in order, the asset.** -/
theorem Chunk.flatten_payloads (config : ChunkConfig) (location : Location) (data : Bytes) :
    ((Chunk.ofAsset config location data).map fun c => c.payload data).flatten = data := by
  have joined := (Chunk.tile_ofAsset config location data).flatten data
  rw [List.map_map, Bytes.slice_zero_length] at joined
  exact joined

/-- **A chunk is read back** from a file with the content that it was made of. -/
theorem Chunk.read_eq_ok {fs : FileSystem} {config : ChunkConfig} {location : Location} {base : Path} {data : Bytes}
    {c : Chunk} (mem : c ∈ Chunk.ofAsset config location data)
    (found : fs.contentAt (location.toPath base) = .ok data) : c.read fs base = .ok (c.payload data) := by
  obtain ⟨number, opened, rfl⟩ := FileSystem.openAsset_of_contentAt found
  obtain ⟨filled, inside⟩ := (Chunk.tile_ofAsset config location _).inside (List.mem_map_of_mem mem)
  have bytes := c.readFrom_reliable (fs.steady_reader number) filled inside
  rw [← Chunk.location_ofAsset mem] at opened
  exact bind_eq_ok.2 ⟨.file number, opened, mapError_eq_ok.2 bytes⟩

end ContentChunks
