/-
The written forms of deltas and change records.
-/
import ContentChunks.Delta.Change
import ContentChunks.Form.Chunk

namespace ContentChunks

open Json Form

/-- The first number that a score cannot be. -/
def scoreBound : Nat := 0x100000000

instance : Form Common where
  toJson c := ofMembers [("signature", toJson c.signature), ("old", toJson c.old), ("new", toJson c.new)]
  ofJson? j := match record? ["signature", "old", "new"] j with
    | some [signature, old, new] => do return ⟨← field? signature, ← field? old, ← field? new⟩
    | _ => none

instance : Form Changed where
  toJson c := ofMembers [("origin", toJson c.origin), ("chunk", toJson c.chunk), ("score", .number c.score)]
  ofJson? j := match record? ["origin", "chunk", "score"] j with
    | some [origin, chunk, score] => do
      return ⟨← field? origin, ← field? chunk, ← score.bind (natBelow? scoreBound)⟩
    | _ => none

instance : Form Delta where
  toJson d := ofMembers [("common", toJson d.common), ("changed", toJson d.changed),
    ("removed", toJson d.removed), ("added", toJson d.added)]
  ofJson? j := match record? ["common", "changed", "removed", "added"] j with
    | some [common, changed, removed, added] => do
      return ⟨← field? common, ← field? changed, ← field? removed, ← field? added⟩
    | _ => none

/-- A change record is a variant for each kind of step. -/
instance : Form Change where
  toJson
    | .create data chunk context => ofVariant "Create"
        (ofMembers [("data", ofBytes data), ("chunk", toJson chunk), ("context", toJson context)])
    | .delete chunk context => ofVariant "Delete"
        (ofMembers [("chunk", toJson chunk), ("context", toJson context)])
    | .update data chunk origin context => ofVariant "Update"
        (ofMembers [("data", ofBytes data), ("chunk", toJson chunk), ("origin", toJson origin),
          ("context", toJson context)])
  ofJson? j := match variant? j with
    | some ("Create", some step) => match record? ["data", "chunk", "context"] step with
      | some [data, chunk, context] => do
        return .create (← data.bind bytes?) (← field? chunk) (← field? context)
      | _ => none
    | some ("Delete", some step) => match record? ["chunk", "context"] step with
      | some [chunk, context] => do return .delete (← field? chunk) (← field? context)
      | _ => none
    | some ("Update", some step) => match record? ["data", "chunk", "origin", "context"] step with
      | some [data, chunk, origin, context] => do
        return .update (← data.bind bytes?) (← field? chunk) (← field? origin) (← field? context)
      | _ => none
    | _ => none

end ContentChunks
