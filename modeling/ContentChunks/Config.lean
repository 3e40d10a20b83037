/-
Configurations of chunking, storing and comparing.
-/
import ContentChunks.Error

namespace ContentChunks

/-- How assets are chunked. -/
structure ChunkConfig where
  algorithm : Algorithm := default
  /-- How many bytes are read at once. -/
  blockSize : Nat := 65536
  /-- How many bytes decide whether an asset is binary; all if not given. -/
  binarySample : Option Nat := none
deriving DecidableEq, Repr

/-- Refuses a configuration that reads no bytes at once. -/
def ChunkConfig.check (c : ChunkConfig) : Except Error Unit :=
  if c.blockSize = 0 then .error (.invalidConfig .zeroBlockSize) else .ok ()

/-- The configuration with an algorithm and a block size, if it can be used. -/
def ChunkConfig.make (algorithm : Algorithm) (blockSize : Nat) : Except Error ChunkConfig := do
  let c : ChunkConfig := ⟨algorithm, blockSize, none⟩
  c.check
  return c

/-- How a store is laid out. -/
structure StoreConfig where
  /-- The algorithm of all the signatures in the store. -/
  algorithm : Algorithm := default
  /-- How many symbols of a key make a directory. -/
  segmentWidth : Nat := 10
  /-- Whether payloads are hashed again when they are read. -/
  verifyReads : Bool := false
deriving DecidableEq, Repr

/-- Refuses a configuration whose directories have no name. -/
def StoreConfig.check (c : StoreConfig) : Except Error Unit :=
  if c.segmentWidth = 0 then .error (.invalidConfig .zeroSegmentWidth) else .ok ()

/-- The configuration with an algorithm and a width, if it can be used. -/
def StoreConfig.make (algorithm : Algorithm) (segmentWidth : Nat) : Except Error StoreConfig := do
  let c : StoreConfig := ⟨algorithm, segmentWidth, false⟩
  c.check
  return c

/-- How sequences of chunks are compared. -/
structure DeltaConfig where
  /-- What a pair has to score at least. -/
  minScore : Nat := 2
  /-- What each pair of equal neighbours adds to a score. -/
  adjacencyBonus : Nat := 0
  /-- Whether pairs may be scored side by side; the delta is the same. -/
  parallel : Bool := true
deriving DecidableEq, Repr

def DeltaConfig.make (minScore : Nat) : DeltaConfig := ⟨minScore, 0, true⟩

end ContentChunks
