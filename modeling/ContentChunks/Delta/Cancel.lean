/-
Giving up. A caller may raise a flag at any time; it is looked at before each
pair of chunks is scored.
-/
namespace ContentChunks

/-- When a flag is raised: whether it is up once so many payloads were asked
for and so many pairs were scored. -/
structure CancelFlag where
  raised : (loads pairs : Nat) → Bool

namespace CancelFlag

def never : CancelFlag := ⟨fun _ _ => false⟩

def always : CancelFlag := ⟨fun _ _ => true⟩

/-- A flag that goes up while the load with the given number, counted from one, is served. -/
def fromLoad (number : Nat) : CancelFlag := ⟨fun loads _ => 0 < number && number ≤ loads⟩

/-- Whether the flag is seen up before one of `pairs` pairs is scored. -/
def seen (flag : CancelFlag) (loads pairs : Nat) : Bool := (List.range pairs).any (flag.raised loads)

end CancelFlag

end ContentChunks
