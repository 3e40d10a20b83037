/-
Signatures from digests that others computed: the length is checked.
-/
import ContentChunks.Error

namespace ContentChunks

/-- The signature with the given digest, if the digest has the algorithm's length. -/
def Signature.ofDigest (algorithm : Algorithm) (digest : Bytes) : Except Error Signature :=
  if digest.length = algorithm.digestLength then .ok ⟨algorithm, digest⟩
  else .error (.invalidDigest algorithm algorithm.digestLength digest.length)

theorem Signature.ofDigest_eq_ok_iff {algorithm : Algorithm} {digest : Bytes} {s : Signature} :
    Signature.ofDigest algorithm digest = .ok s ↔ s = ⟨algorithm, digest⟩ ∧ s.Sized := by
  unfold Signature.ofDigest
  by_cases sized : digest.length = algorithm.digestLength
  · rw [if_pos sized, Except.ok.injEq]
    exact ⟨fun same => ⟨same.symm, same ▸ sized⟩, fun h => h.1.symm⟩
  · rw [if_neg sized]
    refine ⟨nofun, fun ⟨same, full⟩ => ?_⟩
    subst same
    exact absurd full sized

end ContentChunks
