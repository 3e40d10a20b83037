/-
BLAKE3, 32-byte digests. The input is cut into chunks of 1024 bytes, each a
row of 64-byte blocks; the chunks' chaining values are the leaves of a binary
tree whose left subtrees hold a power of two of chunks. A stack keeps the
subtrees that are complete, the smallest on top.
-/
import ContentChunks.Bytes

namespace ContentChunks.Digest.Blake3

/-- Four words side by side. -/
structure Row where
  x : UInt32
  y : UInt32
  z : UInt32
  w : UInt32

namespace Row

def zipWith (f : UInt32 → UInt32 → UInt32) (p q : Row) : Row :=
  ⟨f p.x q.x, f p.y q.y, f p.z q.z, f p.w q.w⟩

def rotate (n : UInt32) (p : Row) : Row :=
  let r (v : UInt32) := (v >>> n) ||| (v <<< (32 - n))
  ⟨r p.x, r p.y, r p.z, r p.w⟩

/-- Moves the words one place to the left, the first to the end. -/
def turn (p : Row) : Row := ⟨p.y, p.z, p.w, p.x⟩

def toList (p : Row) : List UInt32 := [p.x, p.y, p.z, p.w]

end Row

/-- A chaining value, eight words. -/
structure Chaining where
  low : Row
  high : Row

/-- The chaining value that the tree starts from. -/
def initial : Chaining :=
  ⟨⟨0x6a09e667, 0xbb67ae85, 0x3c6ef372, 0xa54ff53a⟩, ⟨0x510e527f, 0x9b05688c, 0x1f83d9ab, 0x5be0cd19⟩⟩

/-- The sixteen words that are mixed, as four rows. -/
structure Square where
  a : Row
  b : Row
  c : Row
  d : Row

/-- Mixes message words into the columns of a square. -/
def mixColumns (s : Square) (m n : Row) : Square :=
  let a := Row.zipWith (· + ·) (Row.zipWith (· + ·) s.a s.b) m
  let d := (Row.zipWith (· ^^^ ·) s.d a).rotate 16
  let c := Row.zipWith (· + ·) s.c d
  let b := (Row.zipWith (· ^^^ ·) s.b c).rotate 12
  let a := Row.zipWith (· + ·) (Row.zipWith (· + ·) a b) n
  let d := (Row.zipWith (· ^^^ ·) d a).rotate 8
  let c := Row.zipWith (· + ·) c d
  let b := (Row.zipWith (· ^^^ ·) b c).rotate 7
  ⟨a, b, c, d⟩

/-- The words of a message at four places. -/
def pick (message : List UInt32) (i j k l : Nat) : Row :=
  ⟨message.getD i 0, message.getD j 0, message.getD k 0, message.getD l 0⟩

/-- One round: the columns, then the diagonals. -/
def round (message : List UInt32) (s : Square) : Square :=
  let s := mixColumns s (pick message 0 2 4 6) (pick message 1 3 5 7)
  let s : Square := ⟨s.a, s.b.turn, s.c.turn.turn, s.d.turn.turn.turn⟩
  let s := mixColumns s (pick message 8 10 12 14) (pick message 9 11 13 15)
  ⟨s.a, s.b.turn.turn.turn, s.c.turn.turn, s.d.turn⟩

/-- The order in which a round takes the words of the round before. -/
def order : List Nat := [2, 6, 3, 10, 7, 0, 4, 13, 1, 11, 12, 5, 9, 14, 15, 8]

/-- `n` rounds, the message put into a new order after each. -/
def rounds : Nat → List UInt32 → Square → Square
  | 0, _, s => s
  | n + 1, message, s => rounds n (order.map fun i => message.getD i 0) (round message s)

/-- A node of the tree before it is compressed. -/
structure Node where
  chaining : Chaining
  /-- The block, sixteen words. -/
  message : List UInt32
  /-- The number of the chunk, zero for a parent. -/
  counter : Nat
  /-- How many bytes of the block are input. -/
  length : Nat
  flags : UInt32

/-- Marks the first block of a chunk. -/
def chunkStart : UInt32 := 1

/-- Marks the last block of a chunk. -/
def chunkEnd : UInt32 := 2

/-- Marks a node with two subtrees. -/
def parentNode : UInt32 := 4

/-- Marks the top of the tree. -/
def rootNode : UInt32 := 8

namespace Node

/-- The chaining value of a node: its square after seven rounds, folded in half. -/
def value (n : Node) : Chaining :=
  let last : Row :=
    ⟨UInt32.ofNat n.counter, UInt32.ofNat (n.counter >>> 32), UInt32.ofNat n.length, n.flags⟩
  let s := rounds 7 n.message ⟨n.chaining.low, n.chaining.high, initial.low, last⟩
  ⟨Row.zipWith (· ^^^ ·) s.a s.c, Row.zipWith (· ^^^ ·) s.b s.d⟩

def parent (left right : Chaining) : Node :=
  ⟨initial, left.low.toList ++ left.high.toList ++ right.low.toList ++ right.high.toList, 0, 64,
    parentNode⟩

end Node

/-- The words of a byte string, each from four bytes, the least significant first. -/
def words : Bytes → List UInt32
  | p :: q :: r :: s :: rest =>
    (p.toUInt32 ||| (q.toUInt32 <<< 8) ||| (r.toUInt32 <<< 16) ||| (s.toUInt32 <<< 24)) :: words rest
  | _ => []

/-- The bytes of a word, the least significant first. -/
def wordBytes (w : UInt32) : Bytes :=
  [w.toUInt8, (w >>> 8).toUInt8, (w >>> 16).toUInt8, (w >>> 24).toUInt8]

/-- A chunk being collected. -/
structure Chunk where
  /-- The chaining value after the blocks that are mixed in. -/
  chaining : Chaining
  counter : Nat
  /-- How many blocks are mixed in. -/
  blocks : Nat
  /-- The bytes of the latest block, the latest first. -/
  pending : Bytes
  /-- How many bytes the latest block has. -/
  length : Nat

namespace Chunk

/-- The chunk with the given number, still empty. -/
def start (counter : Nat) : Chunk := ⟨initial, counter, 0, [], 0⟩

/-- The latest block as a node. -/
def node (c : Chunk) : Node :=
  ⟨c.chaining, words (c.pending.reverse ++ List.replicate (64 - c.length) 0), c.counter, c.length,
    if c.blocks = 0 then chunkStart else 0⟩

def leaf (c : Chunk) : Node := { c.node with flags := c.node.flags ||| chunkEnd }

/-- Whether the chunk can take no more bytes. -/
def full (c : Chunk) : Bool := c.blocks == 15 && c.length == 64

/-- Adds a byte; a full block is mixed in when the next byte comes. -/
def feed (c : Chunk) (b : UInt8) : Chunk :=
  if c.length = 64 then ⟨c.node.value, c.counter, c.blocks + 1, [b], 1⟩
  else { c with pending := b :: c.pending, length := c.length + 1 }

end Chunk

/-- The digest on its way: complete subtrees and the chunk being collected. -/
structure State where
  /-- The complete subtrees, the smallest first. -/
  subtrees : List Chaining
  chunk : Chunk

def start : State := ⟨[], .start 0⟩

/-- Puts the last of `count` chunks on the stack: while the count is even, the
subtree on top has as many chunks as the new one, and the two are joined. -/
def push : List Chaining → Chaining → Nat → List Chaining
  | [], new, _ => [new]
  | top :: rest, new, count =>
    if count % 2 = 0 then push rest (Node.parent top new).value (count / 2) else new :: top :: rest

/-- Feeds one byte; a full chunk becomes a leaf when the next byte comes. -/
def feedByte (s : State) (b : UInt8) : State :=
  if s.chunk.full then
    let count := s.chunk.counter + 1
    ⟨push s.subtrees s.chunk.leaf.value count, (Chunk.start count).feed b⟩
  else { s with chunk := s.chunk.feed b }

def feed (s : State) (data : Bytes) : State := data.foldl feedByte s

/-- The top of the tree over all the input fed. -/
def root (s : State) : Node :=
  s.subtrees.foldl (fun node left => Node.parent left node.value) s.chunk.leaf

/-- The bytes that a node gives as the top of a tree. -/
def Node.bytes (top : Node) : Bytes :=
  let value := ({ top with flags := top.flags ||| rootNode } : Node).value
  (value.low.toList ++ value.high.toList).flatMap wordBytes

/-- The digest of all the input fed; more can be fed after it was told. -/
def digest (s : State) : Bytes := (root s).bytes

/-- Puts a state back to the beginning. -/
def reset (s : State) : State := { s with subtrees := [], chunk := .start 0 }

@[simp] theorem feed_nil (s : State) : feed s [] = s := rfl

theorem feed_append (s : State) (x y : Bytes) : feed s (x ++ y) = feed (feed s x) y := by
  simp [feed]

@[simp] theorem length_digest (s : State) : (digest s).length = 32 := by
  simp [digest, Node.bytes, Row.toList, wordBytes]

end ContentChunks.Digest.Blake3
