/-
Failures, told apart by their cause, and the words in which each is reported.
-/
import ContentChunks.Base32
import ContentChunks.Path
import ContentChunks.Quoted
import ContentChunks.Signature

namespace ContentChunks

/-- What a file system refuses. -/
inductive OsFault where
  | notFound
  | alreadyExists
  | notDirectory
  | isDirectory
  | invalidArgument
  | nameTooLong
  | notEmpty
  | tooManyLinks
  /-- A path with a zero byte in it, which would end there. -/
  | zeroByte
  /-- What no state of the files tells: there is no room or no permission, or the disk fails. -/
  | other (words : String) (code : Nat)
deriving DecidableEq, Repr

def OsFault.message : OsFault → String
  | notFound => "No such file or directory (os error 2)"
  | alreadyExists => "File exists (os error 17)"
  | notDirectory => "Not a directory (os error 20)"
  | isDirectory => "Is a directory (os error 21)"
  | invalidArgument => "Invalid argument (os error 22)"
  | nameTooLong => "File name too long (os error 36)"
  | notEmpty => "Directory not empty (os error 39)"
  | tooManyLinks => "Too many levels of symbolic links (os error 40)"
  | zeroByte => "file name contained an unexpected NUL byte"
  | other words code => words ++ " (os error " ++ toString code ++ ")"

/-- Why reading or writing failed. -/
inductive Fault where
  | os (fault : OsFault)
  /-- A failure of a source's own. -/
  | other (words : String)
deriving DecidableEq, Repr

def Fault.message : Fault → String
  | os fault => fault.message
  | other words => words

/-- Why a path is not the key of an object. -/
inductive KeyFault where
  | notText
  | notName
  | noName
  | noExtension
  | directoryWidth
  | finalWidth
  | digest (fault : Base32.Fault)
  /-- A reason given in words. -/
  | other (words : String)
deriving DecidableEq, Repr

def KeyFault.message : KeyFault → String
  | notText => "non-UTF-8 segment"
  | notName => "unexpected path component"
  | noName => "empty path"
  | noExtension => "missing .chunk extension"
  | directoryWidth => "directory segment has the wrong width"
  | finalWidth => "final segment has the wrong width"
  | digest fault => fault.message
  | other words => words

/-- Why a configuration is refused. -/
inductive ConfigFault where
  | zeroBlockSize
  | zeroSegmentWidth
  | other (words : String)
deriving DecidableEq, Repr

def ConfigFault.message : ConfigFault → String
  | zeroBlockSize => "block_size must be non-zero"
  | zeroSegmentWidth => "segment_width must be non-zero"
  | other words => words

/-- Why chunking, storing or comparing failed. -/
inductive Error where
  /-- Reading or writing failed. -/
  | io (fault : Fault)
  /-- Reading or writing an asset or an object failed. -/
  | asset (path : Path) (fault : Fault)
  /-- A source ended inside the range `start` to `stop`, after `count` bytes of it. -/
  | truncated (start stop count : Nat)
  /-- A range whose end is before its start. -/
  | invalidRange (start stop : Nat)
  /-- The store has no such object. -/
  | notFound (signature : Signature)
  /-- A path in a store is no key. -/
  | malformedKey (path : Path) (fault : KeyFault)
  /-- A digest without its algorithm's length. -/
  | invalidDigest (algorithm : Algorithm) (expected actual : Nat)
  /-- A payload that does not have the signature it goes by. -/
  | signatureMismatch (expected actual : Signature)
  /-- A signature of another algorithm than the store's. -/
  | algorithmMismatch (expected actual : Algorithm)
  /-- An asset that is not below the base directory. -/
  | outsideBase (path base : Path)
  /-- A name that could lead out of the base directory. -/
  | invalidSegment (segment : String)
  /-- A configuration that cannot be used. -/
  | invalidConfig (fault : ConfigFault)
  | cancelled
  /-- The program stopped where it was; whoever called it has no answer. -/
  | panic (words : String)
deriving DecidableEq, Repr

namespace Error

def message : Error → String
  | io fault => "io error: " ++ fault.message
  | asset path fault => "io error on " ++ path.text ++ ": " ++ fault.message
  | truncated start stop count =>
    "truncated read: wanted bytes " ++ toString start ++ ".." ++ toString stop ++
      ", source ended after " ++ toString count ++ " bytes"
  | invalidRange start stop =>
    "invalid range: end " ++ toString stop ++ " precedes start " ++ toString start
  | notFound signature => "chunk not found: " ++ signature.text
  | malformedKey path fault => "malformed store key " ++ path.text ++ ": " ++ fault.message
  | invalidDigest algorithm expected actual =>
    "invalid " ++ algorithm.name ++ " digest: expected " ++ toString expected ++ " bytes, got " ++
      toString actual
  | signatureMismatch expected actual =>
    "signature mismatch: expected " ++ expected.text ++ ", payload hashes to " ++ actual.text
  | algorithmMismatch expected actual =>
    "algorithm mismatch: store uses " ++ expected.name ++ ", got " ++ actual.name
  | outsideBase path base => path.text ++ " is not inside " ++ base.text
  | invalidSegment segment => "invalid location segment: " ++ Quoted.quote segment
  | invalidConfig fault => "invalid config: " ++ fault.message
  | cancelled => "delta computation cancelled"
  | panic words => words

/-- Whether the store merely lacks the object. -/
def isNotFound : Error → Bool
  | notFound _ => true
  | _ => false

/-- Says on which path reading or writing failed, where that is not said yet. -/
def on (path : Path) : Error → Error
  | io fault => asset path fault
  | other => other

end Error

theorem bind_eq_ok {ε α β : Type} {x : Except ε α} {f : α → Except ε β} {b : β} :
    x >>= f = .ok b ↔ ∃ a, x = .ok a ∧ f a = .ok b := by
  cases x with
  | error e =>
    show Except.error e = .ok b ↔ _
    simp
  | ok a =>
    show f a = .ok b ↔ _
    simp

theorem mapError_eq_ok {ε δ α : Type} {x : Except ε α} {f : ε → δ} {a : α} : x.mapError f = .ok a ↔ x = .ok a := by
  cases x with
  | error e => constructor <;> (intro h; cases h)
  | ok b => constructor <;> (intro h; cases h; rfl)

theorem mapM_eq_ok_map {ε α β : Type} {f : α → Except ε β} {g : α → β} {items : List α}
    (h : ∀ x ∈ items, f x = .ok (g x)) : items.mapM f = .ok (items.map g) := by
  induction items with
  | nil => rfl
  | cons x rest ih =>
    rw [List.mapM_cons, h x (by simp), ih fun y hy => h y (by simp [hy])]
    rfl

theorem map_of_mapM_eq_ok {ε α β : Type} {f : α → Except ε β} {back : β → α} (h : ∀ x y, f x = .ok y → back y = x)
    {items : List α} {results : List β} (done : items.mapM f = .ok results) : results.map back = items := by
  induction items generalizing results with
  | nil =>
    obtain rfl := Except.ok.inj done
    rfl
  | cons x rest ih =>
    rw [List.mapM_cons] at done
    obtain ⟨y, first, done⟩ := bind_eq_ok.1 done
    obtain ⟨more, each, done⟩ := bind_eq_ok.1 done
    obtain rfl : y :: more = results := Except.ok.inj done
    rw [List.map_cons, h x y first, ih each]

end ContentChunks
