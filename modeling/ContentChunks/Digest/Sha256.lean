/-
SHA-256: 64-byte blocks, eight 32-bit registers, 64 rounds a block.
-/
import ContentChunks.Digest.Block

namespace ContentChunks.Digest.Sha256

structure Registers where
  a : UInt32
  b : UInt32
  c : UInt32
  d : UInt32
  e : UInt32
  f : UInt32
  g : UInt32
  h : UInt32

def initial : Registers :=
  ⟨0x6a09e667, 0xbb67ae85, 0x3c6ef372, 0xa54ff53a, 0x510e527f, 0x9b05688c, 0x1f83d9ab, 0x5be0cd19⟩

def constants : List UInt32 := [
  0x428a2f98, 0x71374491, 0xb5c0fbcf, 0xe9b5dba5, 0x3956c25b, 0x59f111f1, 0x923f82a4, 0xab1c5ed5,
  0xd807aa98, 0x12835b01, 0x243185be, 0x550c7dc3, 0x72be5d74, 0x80deb1fe, 0x9bdc06a7, 0xc19bf174,
  0xe49b69c1, 0xefbe4786, 0x0fc19dc6, 0x240ca1cc, 0x2de92c6f, 0x4a7484aa, 0x5cb0a9dc, 0x76f988da,
  0x983e5152, 0xa831c66d, 0xb00327c8, 0xbf597fc7, 0xc6e00bf3, 0xd5a79147, 0x06ca6351, 0x14292967,
  0x27b70a85, 0x2e1b2138, 0x4d2c6dfc, 0x53380d13, 0x650a7354, 0x766a0abb, 0x81c2c92e, 0x92722c85,
  0xa2bfe8a1, 0xa81a664b, 0xc24b8b70, 0xc76c51a3, 0xd192e819, 0xd6990624, 0xf40e3585, 0x106aa070,
  0x19a4c116, 0x1e376c08, 0x2748774c, 0x34b0bcb5, 0x391c0cb3, 0x4ed8aa4a, 0x5b9cca4f, 0x682e6ff3,
  0x748f82ee, 0x78a5636f, 0x84c87814, 0x8cc70208, 0x90befffa, 0xa4506ceb, 0xbef9a3f7, 0xc67178f2]

def rotate (x n : UInt32) : UInt32 := (x >>> n) ||| (x <<< (32 - n))

/-- The words of a byte string, each from four bytes, the most significant first. -/
def words : Bytes → List UInt32
  | p :: q :: r :: s :: rest =>
    ((p.toUInt32 <<< 24) ||| (q.toUInt32 <<< 16) ||| (r.toUInt32 <<< 8) ||| s.toUInt32) :: words rest
  | _ => []

/-- Moves the window of sixteen schedule words one word on. -/
def advance (window : List UInt32) : List UInt32 :=
  let w := window.getD 1 0
  let v := window.getD 14 0
  let small := rotate w 7 ^^^ rotate w 18 ^^^ (w >>> 3)
  let large := rotate v 17 ^^^ rotate v 19 ^^^ (v >>> 10)
  window.tail ++ [large + window.getD 9 0 + small + window.headD 0]

/-- One round, with its constant and its schedule word. -/
def round (k w : UInt32) (r : Registers) : Registers :=
  let choice := (r.e &&& r.f) ^^^ (~~~ r.e &&& r.g)
  let majority := (r.a &&& r.b) ^^^ (r.a &&& r.c) ^^^ (r.b &&& r.c)
  let t := r.h + (rotate r.e 6 ^^^ rotate r.e 11 ^^^ rotate r.e 25) + choice + k + w
  let u := (rotate r.a 2 ^^^ rotate r.a 13 ^^^ rotate r.a 22) + majority
  ⟨t + u, r.a, r.b, r.c, r.d + t, r.e, r.f, r.g⟩

/-- The rounds with the given constants, from the given window on. -/
def rounds : List UInt32 → List UInt32 → Registers → Registers
  | [], _, r => r
  | k :: ks, window, r => rounds ks (advance window) (round k (window.headD 0) r)

def mix (r : Registers) (block : Bytes) : Registers :=
  let s := rounds constants (words block) r
  ⟨r.a + s.a, r.b + s.b, r.c + s.c, r.d + s.d, r.e + s.e, r.f + s.f, r.g + s.g, r.h + s.h⟩

/-- The digest on its way: input so far and registers. -/
abbrev State := Blocks Registers

def start : State := .start initial

def feed (s : State) (data : Bytes) : State := s.feedAll 64 mix data

/-- The bytes of a word, the most significant first. -/
def wordBytes (w : UInt32) : Bytes :=
  [(w >>> 24).toUInt8, (w >>> 16).toUInt8, (w >>> 8).toUInt8, w.toUInt8]

def Registers.bytes (r : Registers) : Bytes :=
  [r.a, r.b, r.c, r.d, r.e, r.f, r.g, r.h].flatMap wordBytes

def digest (s : State) : Bytes := (feed s (padding 64 8 s.length)).value.bytes

/-- The digest, and the state for the next input. -/
def take (s : State) : Bytes × State := (digest s, start)

@[simp] theorem feed_nil (s : State) : feed s [] = s := rfl

theorem feed_append (s : State) (x y : Bytes) : feed s (x ++ y) = feed (feed s x) y :=
  Blocks.feedAll_append ..

@[simp] theorem length_digest (s : State) : (digest s).length = 32 := by
  simp [digest, Registers.bytes, wordBytes]

end ContentChunks.Digest.Sha256
