/-
Loading payloads. A computation that loads payloads from a source tells its
result and every chunk it asked for, in order, also the one that could not be
had. The first failure ends it.
-/
import ContentChunks.Asset

namespace ContentChunks

/-- Where the payloads of chunks come from. -/
abbrev Source := Chunk → Except Error Bytes

/-- The payloads of chunks, read from their assets under `base`. -/
def Source.ofAssets (fs : FileSystem) (base : Path) : Source := fun c => c.read fs base

/-- The result of a computation and the chunks it asked for. -/
structure Loading (α : Type) where
  loads : List Chunk
  result : Except Error α

namespace Loading

variable {α β : Type}

protected def pure (a : α) : Loading α := ⟨[], .ok a⟩

/-- Goes on with a result; a failure ends it. -/
protected def bind (x : Loading α) (f : α → Loading β) : Loading β :=
  match x.result with
  | .error e => ⟨x.loads, .error e⟩
  | .ok a => ⟨x.loads ++ (f a).loads, (f a).result⟩

instance : Monad Loading where
  pure := Loading.pure
  bind := Loading.bind

def fail (e : Error) : Loading α := ⟨[], .error e⟩

/-- Asks the source for the payload of a chunk. -/
def load (source : Source) (chunk : Chunk) : Loading Bytes := ⟨[chunk], source chunk⟩

end Loading

end ContentChunks
