/-
Written forms. A type with a form has a JSON value for each of its values, and
reads values from JSON. Reading checks no more than the shape: a location may
turn out empty, a range reversed and a digest of the wrong length.
-/
import ContentChunks.Json.Parser
import ContentChunks.Json.Printer
import ContentChunks.Json.Record

namespace ContentChunks

/-- A type whose values are written as JSON. -/
class Form (α : Type) where
  toJson : α → Json
  ofJson? : Json → Option α

namespace Form

variable {α : Type} [Form α]

def write (a : α) : String := (toJson a).render

def read? (s : String) : Option α := (Json.parse? s).bind ofJson?

/-- Reads a field that may not be missing. -/
def field? (j : Option Json) : Option α := j.bind ofJson?

instance : Form (List α) := ⟨Json.ofList toJson, Json.listOf? ofJson?⟩

end Form

end ContentChunks
