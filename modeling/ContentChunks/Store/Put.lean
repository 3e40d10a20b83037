/-
Putting payloads into a store. A payload is written to a temporary file beside
its place and moved there when it is complete, so nobody sees a part of it.
-/
import ContentChunks.Asset
import ContentChunks.Store

namespace ContentChunks

namespace Store

/-- What the name of a temporary file begins with. -/
def temporary : Bytes := Bytes.ofText ".tmp"

/-- The first name for a temporary file that is not among the given ones, of those
with `n` letters and more. -/
def freshName (names : List Bytes) (n : Nat) : Bytes :=
  let name := temporary ++ List.replicate n 0x61
  if h : name ∈ names then freshName (names.erase name) (n + 1) else name
termination_by names.length
decreasing_by
  rw [List.length_erase_of_mem h]
  exact Nat.sub_lt (List.length_pos_of_mem h) Nat.one_pos

theorem le_length_freshName (names : List Bytes) (n : Nat) :
    temporary.length + n ≤ (freshName names n).length := by
  fun_induction freshName names n with
  | case1 names n name h ih => omega
  | case2 names n name h => simp [name]

theorem freshName_not_mem (names : List Bytes) (n : Nat) : freshName names n ∉ names := by
  fun_induction freshName names n with
  | case1 names n name h ih =>
    have longer := le_length_freshName (names.erase name) (n + 1)
    have other : freshName (names.erase name) (n + 1) ≠ name := fun same => by
      rw [same, List.length_append, List.length_replicate] at longer
      omega
    exact fun found => ih ((List.mem_erase_of_ne other).2 found)
  | case2 names n name h => exact h

/-- A name for a temporary file that no entry of a directory has. -/
def temporaryName (fs : FileSystem) (directory : Path) : Bytes :=
  match fs.reach directory with
  | .ok place => freshName (fs.namesBelow place) 6
  | .error _ => freshName [] 6

/-- The steps that publish a payload, given in pieces, at a path in a directory. -/
def publishSteps (fs : FileSystem) (directory temp target : Path) (pieces : List Bytes) :
    List FileSystem.Step :=
  fs.directorySteps directory ++ .makeFile temp :: pieces.map (.append temp) ++
    [.sync temp, .move temp target, .syncDirectory directory]

/-- Publishes a payload at a path; if a step is refused, the temporary file is removed, be it
that it is still there. -/
def publishOn (disk : FileSystem.Disk) (fs : FileSystem) (target : Path) (data : Bytes) :
    Except Fault Unit × FileSystem :=
  match target.parent? with
  | none => (.error (.other "object path has no parent"), fs)
  | some directory =>
    let temp := directory.push (temporaryName fs directory)
    match fs.stepsOn disk 0 (publishSteps fs directory temp target (disk.pieces data)) with
    | (.ok (), fs) => (.ok (), fs)
    | (.error fault, fs) =>
      (.error (.os fault), match fs.unlink temp with
        | .ok fs => fs
        | .error _ => fs)

/-- Publishes a payload at a path, on a disk that refuses nothing. -/
def publish (fs : FileSystem) (target : Path) (data : Bytes) : Except Fault Unit × FileSystem :=
  publishOn .plain fs target data

theorem publish_eq_steps (fs : FileSystem) (target : Path) (data : Bytes) :
    publish fs target data =
      match target.parent? with
      | none => (.error (.other "object path has no parent"), fs)
      | some directory =>
        let temp := directory.push (temporaryName fs directory)
        match fs.steps (publishSteps fs directory temp target [data]) with
        | (.ok (), fs) => (.ok (), fs)
        | (.error fault, fs) =>
          (.error (.os fault), match fs.unlink temp with
            | .ok fs => fs
            | .error _ => fs) := rfl

/-- What putting a payload did. -/
inductive Outcome where
  | stored
  /-- The store had the payload. -/
  | existing
deriving DecidableEq, Repr

/-- Puts the payload of a chunk into the store. A signature of another algorithm
and a payload of another signature are refused before anything is written. -/
def putOn (disk : FileSystem.Disk) (s : Store) (fs : FileSystem) (c : Chunk) (data : Bytes) :
    Except Error Outcome × FileSystem :=
  if c.signature.algorithm ≠ s.config.algorithm then
    (.error (.algorithmMismatch s.config.algorithm c.signature.algorithm), fs)
  else
    let actual := Signature.of s.config.algorithm data
    if actual ≠ c.signature then (.error (.signatureMismatch c.signature actual), fs)
    else if fs.isFile (s.path c.signature) then (.ok .existing, fs)
    else match publishOn disk fs (s.path c.signature) data with
      | (.error fault, fs) => (.error (.asset (s.path c.signature) fault), fs)
      | (.ok (), fs) => (.ok .stored, fs)

/-- Puts the payload of a chunk into the store, read from its asset under `base`
if the store does not have it. -/
def putFromAssetOn (disk : FileSystem.Disk) (s : Store) (fs : FileSystem) (c : Chunk) (base : Path) :
    Except Error Outcome × FileSystem :=
  if s.contains fs c.signature then (.ok .existing, fs)
  else match c.read fs base with
    | .error e => (.error e, fs)
    | .ok data => s.putOn disk fs c data

/-- Puts a payload, on a disk that refuses nothing. -/
def put (s : Store) (fs : FileSystem) (c : Chunk) (data : Bytes) : Except Error Outcome × FileSystem :=
  s.putOn .plain fs c data

/-- Puts a payload that is read from its asset, on a disk that refuses nothing. -/
def putFromAsset (s : Store) (fs : FileSystem) (c : Chunk) (base : Path) : Except Error Outcome × FileSystem :=
  s.putFromAssetOn .plain fs c base

theorem put_eq_publish (s : Store) (fs : FileSystem) (c : Chunk) (data : Bytes) :
    s.put fs c data =
      if c.signature.algorithm ≠ s.config.algorithm then
        (.error (.algorithmMismatch s.config.algorithm c.signature.algorithm), fs)
      else
        let actual := Signature.of s.config.algorithm data
        if actual ≠ c.signature then (.error (.signatureMismatch c.signature actual), fs)
        else if fs.isFile (s.path c.signature) then (.ok .existing, fs)
        else match publish fs (s.path c.signature) data with
          | (.error fault, fs) => (.error (.asset (s.path c.signature) fault), fs)
          | (.ok (), fs) => (.ok .stored, fs) := rfl

theorem putFromAsset_eq_put (s : Store) (fs : FileSystem) (c : Chunk) (base : Path) :
    s.putFromAsset fs c base =
      if s.contains fs c.signature then (.ok .existing, fs)
      else match c.read fs base with
        | .error e => (.error e, fs)
        | .ok data => s.put fs c data := rfl

end Store

end ContentChunks
