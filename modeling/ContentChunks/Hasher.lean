/-
Hashing. A hasher is fed pieces of a payload and tells the payload's
signature; how the payload was divided makes no difference.
-/
import ContentChunks.Signature
import ContentChunks.Digest.Sha256
import ContentChunks.Digest.Sha512
import ContentChunks.Digest.Blake3

namespace ContentChunks

/-- A digest on its way. -/
inductive Hasher where
  | sha256 (state : Digest.Sha256.State)
  | sha512 (state : Digest.Sha512.State)
  | blake3 (state : Digest.Blake3.State)

namespace Hasher

def start : Algorithm → Hasher
  | .sha256 => sha256 Digest.Sha256.start
  | .sha512 => sha512 Digest.Sha512.start
  | .blake3 => blake3 Digest.Blake3.start

def algorithm : Hasher → Algorithm
  | sha256 _ => .sha256
  | sha512 _ => .sha512
  | blake3 _ => .blake3

/-- Feeds a piece of the payload. -/
def feed : Hasher → Bytes → Hasher
  | sha256 s, data => sha256 (Digest.Sha256.feed s data)
  | sha512 s, data => sha512 (Digest.Sha512.feed s data)
  | blake3 s, data => blake3 (Digest.Blake3.feed s data)

def digest : Hasher → Bytes
  | sha256 s => Digest.Sha256.digest s
  | sha512 s => Digest.Sha512.digest s
  | blake3 s => Digest.Blake3.digest s

/-- The signature of all that was fed. -/
def signature (h : Hasher) : Signature := ⟨h.algorithm, h.digest⟩

def reset (h : Hasher) : Hasher := start h.algorithm

/-- The signature of all that was fed, and the hasher for the next payload. Two
of the digests start anew when they are taken; the third one is put back. -/
def take : Hasher → Signature × Hasher
  | sha256 s =>
    let (digest, next) := Digest.Sha256.take s
    (⟨.sha256, digest⟩, sha256 next)
  | sha512 s =>
    let (digest, next) := Digest.Sha512.take s
    (⟨.sha512, digest⟩, sha512 next)
  | blake3 s => (⟨.blake3, Digest.Blake3.digest s⟩, blake3 (Digest.Blake3.reset s))

/-- Whichever the algorithm, the next payload begins as with a new hasher. -/
theorem take_eq (h : Hasher) : h.take = (h.signature, h.reset) := by
  cases h <;> rfl

@[simp] theorem algorithm_start (a : Algorithm) : (start a).algorithm = a := by
  cases a <;> rfl

@[simp] theorem algorithm_feed (h : Hasher) (data : Bytes) : (h.feed data).algorithm = h.algorithm := by
  cases h <;> rfl

@[simp] theorem feed_nil (h : Hasher) : h.feed [] = h := by
  cases h <;> rfl

theorem feed_append (h : Hasher) (x y : Bytes) : h.feed (x ++ y) = (h.feed x).feed y := by
  cases h <;> simp [feed, Digest.Sha256.feed_append, Digest.Sha512.feed_append, Digest.Blake3.feed_append]

@[simp] theorem length_digest (h : Hasher) : h.digest.length = h.algorithm.digestLength := by
  cases h <;> simp [digest, algorithm, Algorithm.digestLength]

end Hasher

def Signature.of (algorithm : Algorithm) (payload : Bytes) : Signature :=
  ((Hasher.start algorithm).feed payload).signature

@[simp] theorem Signature.algorithm_of (a : Algorithm) (payload : Bytes) :
    (Signature.of a payload).algorithm = a := by
  simp [Signature.of, Hasher.signature]

theorem Signature.sized_of (a : Algorithm) (payload : Bytes) : (Signature.of a payload).Sized := by
  simp [Signature.Sized, Signature.of, Hasher.signature]

end ContentChunks
