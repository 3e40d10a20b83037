/-
One hasher for many payloads. A hasher is fed a payload in pieces; the payload
ends when its signature is taken, or is given up by a reset, and its signature
may be asked before that through a copy that is used up. Whichever the
algorithm, a signature holds the digest of the whole payload (`Signature.of_eq`),
and all that a hasher knows is the payload at hand (`after_eq`).

Main statement: `session_of_payloads`.
-/
import ContentChunks.Hasher
import ContentChunks.Proofs.BlockDigests
import ContentChunks.Proofs.TreeDigests
import Mathlib.Data.List.DropRight
import Mathlib.Data.List.Induction

namespace ContentChunks

/-- The digest of a whole payload. -/
def Algorithm.digestOf : Algorithm → Bytes → Bytes
  | sha256 => Digest.Sha256.digestOf
  | sha512 => Digest.Sha512.digestOf
  | blake3 => Digest.Blake3.digestOf

theorem Hasher.digest_feed (a : Algorithm) (payload : Bytes) :
    ((start a).feed payload).digest = a.digestOf payload := by
  cases a with
  | sha256 => exact Digest.Sha256.digest_feed payload
  | sha512 => exact Digest.Sha512.digest_feed payload
  | blake3 => exact Digest.Blake3.digest_feed payload

/-- **A signature holds the digest of the whole payload.** -/
theorem Signature.of_eq (a : Algorithm) (payload : Bytes) : Signature.of a payload = ⟨a, a.digestOf payload⟩ := by
  rw [Signature.of, Hasher.signature, Hasher.digest_feed, Hasher.algorithm_feed, Hasher.algorithm_start]

example : (Signature.of .sha256 (Bytes.ofText "abc")).hex =
    "ba7816bf8f01cfea414140de5dae2223b00361a396177a9cb410ff61f20015ad" := by
  decide +kernel

namespace Hasher

/-! ## Sessions -/

/-- What a hasher can be asked to do. -/
inductive Step where
  | feed (data : Bytes)
  | take
  /-- Makes a copy and takes the signature of that. -/
  | peek
  | reset
deriving DecidableEq, Repr

namespace Step

/-- The bytes that a step feeds. -/
def fed : Step → Bytes
  | feed data => data
  | take => []
  | peek => []
  | reset => []

/-- Whether a step goes on with the payload at hand. -/
def goesOn : Step → Bool
  | feed _ => true
  | take => false
  | peek => true
  | reset => false

/-- What a step tells when a payload is at hand. -/
def told (a : Algorithm) (payload : Bytes) : Step → Option Signature
  | feed _ => none
  | take => some (Signature.of a payload)
  | peek => some (Signature.of a payload)
  | reset => none

/-- The payload at hand after a step. -/
def onward (payload : Bytes) (x : Step) : Bytes := if x.goesOn then payload ++ x.fed else []

end Step

/-- Takes a step; tells the signature that it asks for. -/
def step (h : Hasher) : Step → Option Signature × Hasher
  | .feed data => (none, h.feed data)
  | .take => (some h.take.1, h.take.2)
  | .peek => (some h.take.1, h)
  | .reset => (none, h.reset)

/-- The steps of a session with what they tell, in order. -/
def session (h : Hasher) : List Step → List (Step × Option Signature)
  | [] => []
  | x :: rest => (x, (h.step x).1) :: (h.step x).2.session rest

/-- The hasher at the end of a session. -/
def after (h : Hasher) (steps : List Step) : Hasher := steps.foldl (fun h x => (h.step x).2) h

/-- The payload at hand: what was fed since a signature was last taken, or since the last reset. -/
def payload (steps : List Step) : Bytes := (steps.rtakeWhile Step.goesOn).flatMap Step.fed

theorem session_append (h : Hasher) (x y : List Step) :
    h.session (x ++ y) = h.session x ++ (h.after x).session y := by
  induction x generalizing h with
  | nil => rfl
  | cons first rest ih => exact congrArg (_ :: ·) (ih _)

theorem after_concat (h : Hasher) (steps : List Step) (x : Step) :
    h.after (steps ++ [x]) = ((h.after steps).step x).2 := List.foldl_concat ..

theorem payload_concat (steps : List Step) (x : Step) : payload (steps ++ [x]) = x.onward (payload steps) := by
  unfold payload Step.onward
  split
  next going => rw [List.rtakeWhile_concat_pos _ _ _ going, List.flatMap_append, List.flatMap_singleton]
  next ended => rw [List.rtakeWhile_concat_neg _ _ _ ended, List.flatMap_nil]

theorem step_feed (a : Algorithm) (payload : Bytes) (x : Step) :
    ((start a).feed payload).step x = (x.told a payload, (start a).feed (x.onward payload)) := by
  have anew : ((start a).feed payload).reset = (start a).feed [] := by
    rw [reset, algorithm_feed, algorithm_start, feed_nil]
  cases x with
  | feed data => exact congrArg (Prod.mk none) (feed_append ..).symm
  | take =>
    rw [step, take_eq, anew]
    rfl
  | peek =>
    have same : Step.onward payload .peek = payload := List.append_nil payload
    rw [step, take_eq, same]
    rfl
  | reset => exact congrArg (Prod.mk none) anew

/-- **All that a hasher knows is the payload at hand.** -/
theorem after_eq (a : Algorithm) (steps : List Step) : (start a).after steps = (start a).feed (payload steps) := by
  induction steps using List.reverseRecOn with
  | nil => exact (feed_nil _).symm
  | append_singleton steps x ih => rw [after_concat, ih, step_feed, payload_concat]

theorem session_eq (a : Algorithm) (steps : List Step) :
    (start a).session steps = steps.mapIdx fun i x => (x, x.told a (payload (steps.take i))) := by
  induction steps using List.reverseRecOn with
  | nil => rfl
  | append_singleton steps x ih =>
    rw [session_append, after_eq, List.mapIdx_concat, List.take_left, ih]
    congr 1
    · refine List.ext_getElem (by simp) fun i h _ => ?_
      rw [List.length_mapIdx] at h
      rw [List.getElem_mapIdx, List.getElem_mapIdx, List.take_append_of_le_length h.le]
    · rw [session, step_feed]
      rfl

/-- A copy leaves no trace. -/
theorem session_filter (h : Hasher) (steps : List Step) :
    h.session (steps.filter (· ≠ .peek)) = (h.session steps).filter (·.1 ≠ .peek) := by
  induction steps generalizing h with
  | nil => rfl
  | cons x rest ih =>
    by_cases copy : x = .peek
    · subst copy
      simpa [session, step] using ih h
    · simpa [session, copy] using ih (h.step x).2

/-- **One hasher signs payload after payload.** Whatever the algorithm and the steps, each step tells the signature of
the payload at hand if it asks for one, which is the payload's, hashed anew: the algorithm, and its digest of the whole
payload. What comes later comes as with a new hasher that is fed the payload at hand at once. And for any hasher, a
session without the copies is the same but for what was asked of these. -/
theorem session_of_payloads (a : Algorithm) :
    (∀ steps, (start a).session steps = steps.mapIdx fun i x => (x, x.told a (payload (steps.take i)))) ∧
    (∀ steps later, (start a).session (steps ++ later) =
      (start a).session steps ++ ((start a).feed (payload steps)).session later) ∧
    (∀ (h : Hasher) (steps : List Step),
      h.session (steps.filter (· ≠ .peek)) = (h.session steps).filter (·.1 ≠ .peek)) ∧
    ∀ data, Signature.of a data = ⟨a, a.digestOf data⟩ ∧ (a.digestOf data).length = a.digestLength := by
  refine ⟨session_eq a, fun steps later => ?_, session_filter, fun data => ⟨Signature.of_eq a data, ?_⟩⟩
  · rw [session_append, after_eq]
  · rw [← digest_feed, length_digest, algorithm_feed, algorithm_start]

/-- Two payloads, the first one asked for half-way, and then one that is given up. -/
example :
    ((start .blake3).session
      [.feed [1], .peek, .feed [2, 3], .take, .feed [4], .take, .feed [5], .reset, .take]).map (·.2) =
    [none, some (Signature.of .blake3 [1]), none, some (Signature.of .blake3 [1, 2, 3]), none,
      some (Signature.of .blake3 [4]), none, none, some (Signature.of .blake3 [])] := by
  decide +kernel

end Hasher

end ContentChunks
