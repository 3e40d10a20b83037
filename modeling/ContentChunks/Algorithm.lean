/-
The digest algorithms that a signature may use.
-/
namespace ContentChunks

inductive Algorithm where
  | sha256
  | sha512
  | blake3
deriving DecidableEq, Repr

namespace Algorithm

/-- How many bytes a digest has. -/
def digestLength : Algorithm → Nat
  | sha256 => 32
  | sha512 => 64
  | blake3 => 32

def name : Algorithm → String
  | sha256 => "sha256"
  | sha512 => "sha512"
  | blake3 => "blake3"

def named? (s : String) : Option Algorithm :=
  [sha256, sha512, blake3].find? fun a => a.name == s

/-- What is used where nothing is said. -/
instance : Inhabited Algorithm := ⟨sha512⟩

/-- The place of an algorithm in the order of signatures. -/
def rank : Algorithm → Nat
  | sha256 => 0
  | sha512 => 1
  | blake3 => 2

instance : Ord Algorithm := ⟨fun a b => compare a.rank b.rank⟩

@[simp] theorem named?_name (a : Algorithm) : named? a.name = some a := by
  cases a <;> decide

end Algorithm

end ContentChunks
