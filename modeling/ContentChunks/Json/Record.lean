/-
Records and variants as JSON values. A record is an object with a member for
each field, or the list of all its fields in order; members that are no fields
are ignored, but no field may come twice. A variant is its name, or an object
whose one key is its name.
-/
import ContentChunks.Json

namespace ContentChunks.Json

/-- The members of an object, with their keys as text. -/
def keyed? (members : List (Text × Json)) : Option (List (String × Json)) :=
  members.mapM fun (key, value) => do return (← key.value?, value)

/-- The values of a record's fields, in the order of `fields`; one that an
object lacks is missing. -/
def record? (fields : List String) : Json → Option (List (Option Json))
  | .array items => if items.length = fields.length then some (items.map some) else none
  | .object members => do
    let keyed ← keyed? members
    guard (fields.all fun f => (keyed.filter fun m => m.1 == f).length ≤ 1)
    guard (keyed.all fun m => fields.contains m.1 || m.2.plain)
    return fields.map fun f => keyed.lookup f
  | _ => none

/-- The name of a variant and what it holds, if anything. -/
def variant? : Json → Option (String × Option Json)
  | .string name => do return (← name.value?, none)
  | .object [(name, value)] => do return (← name.value?, some value)
  | _ => none

/-- The variant that holds a value. -/
def ofVariant (name : String) (value : Json) : Json := ofMembers [(name, value)]

/-- A plain number below a limit. -/
def natBelow? (limit : Nat) : Json → Option Nat
  | .number n => if n < limit then some n else none
  | _ => none

/-- The items of an array, each read in the same way. -/
def listOf? {α : Type} (read : Json → Option α) : Json → Option (List α)
  | .array items => items.mapM read
  | _ => none

/-- A byte string: the list of its bytes, or a string that stands for them. -/
def bytes? : Json → Option Bytes
  | .string text => some text.bytes
  | j => listOf? (fun item => (natBelow? 256 item).map UInt8.ofNat) j

def textValue? : Json → Option String
  | .string text => text.value?
  | _ => none

/-- What may be missing or null. -/
def optional? {α : Type} (read : Json → Option α) : Option Json → Option (Option α)
  | none => some none
  | some .null => some none
  | some j => (read j).map some

/-- A byte string as the list of its bytes. -/
def ofBytes (bytes : Bytes) : Json := .array (bytes.map fun b => .number b.toNat)

def ofList {α : Type} (write : α → Json) (items : List α) : Json := .array (items.map write)

/-- What is missing is null. -/
def ofOption {α : Type} (write : α → Json) : Option α → Json
  | none => .null
  | some a => write a

end ContentChunks.Json
