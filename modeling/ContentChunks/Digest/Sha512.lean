/-
SHA-512: 128-byte blocks, eight 64-bit registers, 80 rounds a block.
-/
import ContentChunks.Digest.Block

namespace ContentChunks.Digest.Sha512

structure Registers where
  a : UInt64
  b : UInt64
  c : UInt64
  d : UInt64
  e : UInt64
  f : UInt64
  g : UInt64
  h : UInt64

def initial : Registers :=
  ⟨0x6a09e667f3bcc908, 0xbb67ae8584caa73b, 0x3c6ef372fe94f82b, 0xa54ff53a5f1d36f1,
   0x510e527fade682d1, 0x9b05688c2b3e6c1f, 0x1f83d9abfb41bd6b, 0x5be0cd19137e2179⟩

def constants : List UInt64 := [
  0x428a2f98d728ae22, 0x7137449123ef65cd, 0xb5c0fbcfec4d3b2f, 0xe9b5dba58189dbbc,
  0x3956c25bf348b538, 0x59f111f1b605d019, 0x923f82a4af194f9b, 0xab1c5ed5da6d8118,
  0xd807aa98a3030242, 0x12835b0145706fbe, 0x243185be4ee4b28c, 0x550c7dc3d5ffb4e2,
  0x72be5d74f27b896f, 0x80deb1fe3b1696b1, 0x9bdc06a725c71235, 0xc19bf174cf692694,
  0xe49b69c19ef14ad2, 0xefbe4786384f25e3, 0x0fc19dc68b8cd5b5, 0x240ca1cc77ac9c65,
  0x2de92c6f592b0275, 0x4a7484aa6ea6e483, 0x5cb0a9dcbd41fbd4, 0x76f988da831153b5,
  0x983e5152ee66dfab, 0xa831c66d2db43210, 0xb00327c898fb213f, 0xbf597fc7beef0ee4,
  0xc6e00bf33da88fc2, 0xd5a79147930aa725, 0x06ca6351e003826f, 0x142929670a0e6e70,
  0x27b70a8546d22ffc, 0x2e1b21385c26c926, 0x4d2c6dfc5ac42aed, 0x53380d139d95b3df,
  0x650a73548baf63de, 0x766a0abb3c77b2a8, 0x81c2c92e47edaee6, 0x92722c851482353b,
  0xa2bfe8a14cf10364, 0xa81a664bbc423001, 0xc24b8b70d0f89791, 0xc76c51a30654be30,
  0xd192e819d6ef5218, 0xd69906245565a910, 0xf40e35855771202a, 0x106aa07032bbd1b8,
  0x19a4c116b8d2d0c8, 0x1e376c085141ab53, 0x2748774cdf8eeb99, 0x34b0bcb5e19b48a8,
  0x391c0cb3c5c95a63, 0x4ed8aa4ae3418acb, 0x5b9cca4f7763e373, 0x682e6ff3d6b2b8a3,
  0x748f82ee5defb2fc, 0x78a5636f43172f60, 0x84c87814a1f0ab72, 0x8cc702081a6439ec,
  0x90befffa23631e28, 0xa4506cebde82bde9, 0xbef9a3f7b2c67915, 0xc67178f2e372532b,
  0xca273eceea26619c, 0xd186b8c721c0c207, 0xeada7dd6cde0eb1e, 0xf57d4f7fee6ed178,
  0x06f067aa72176fba, 0x0a637dc5a2c898a6, 0x113f9804bef90dae, 0x1b710b35131c471b,
  0x28db77f523047d84, 0x32caab7b40c72493, 0x3c9ebe0a15c9bebc, 0x431d67c49c100d4c,
  0x4cc5d4becb3e42b6, 0x597f299cfc657e2a, 0x5fcb6fab3ad6faec, 0x6c44198c4a475817]

def rotate (x n : UInt64) : UInt64 := (x >>> n) ||| (x <<< (64 - n))

/-- The words of a byte string, each from eight bytes, the most significant first. -/
def words : Bytes → List UInt64
  | p :: q :: r :: s :: t :: u :: v :: w :: rest =>
    ((p.toUInt64 <<< 56) ||| (q.toUInt64 <<< 48) ||| (r.toUInt64 <<< 40) ||| (s.toUInt64 <<< 32) |||
      (t.toUInt64 <<< 24) ||| (u.toUInt64 <<< 16) ||| (v.toUInt64 <<< 8) ||| w.toUInt64) :: words rest
  | _ => []

/-- Moves the window of sixteen schedule words one word on. -/
def advance (window : List UInt64) : List UInt64 :=
  let w := window.getD 1 0
  let v := window.getD 14 0
  let small := rotate w 1 ^^^ rotate w 8 ^^^ (w >>> 7)
  let large := rotate v 19 ^^^ rotate v 61 ^^^ (v >>> 6)
  window.tail ++ [large + window.getD 9 0 + small + window.headD 0]

/-- One round, with its constant and its schedule word. -/
def round (k w : UInt64) (r : Registers) : Registers :=
  let choice := (r.e &&& r.f) ^^^ (~~~ r.e &&& r.g)
  let majority := (r.a &&& r.b) ^^^ (r.a &&& r.c) ^^^ (r.b &&& r.c)
  let t := r.h + (rotate r.e 14 ^^^ rotate r.e 18 ^^^ rotate r.e 41) + choice + k + w
  let u := (rotate r.a 28 ^^^ rotate r.a 34 ^^^ rotate r.a 39) + majority
  ⟨t + u, r.a, r.b, r.c, r.d + t, r.e, r.f, r.g⟩

/-- The rounds with the given constants, from the given window on. -/
def rounds : List UInt64 → List UInt64 → Registers → Registers
  | [], _, r => r
  | k :: ks, window, r => rounds ks (advance window) (round k (window.headD 0) r)

def mix (r : Registers) (block : Bytes) : Registers :=
  let s := rounds constants (words block) r
  ⟨r.a + s.a, r.b + s.b, r.c + s.c, r.d + s.d, r.e + s.e, r.f + s.f, r.g + s.g, r.h + s.h⟩

/-- The digest on its way: input so far and registers. -/
abbrev State := Blocks Registers

def start : State := .start initial

def feed (s : State) (data : Bytes) : State := s.feedAll 128 mix data

/-- The bytes of a word, the most significant first. -/
def wordBytes (w : UInt64) : Bytes :=
  [(w >>> 56).toUInt8, (w >>> 48).toUInt8, (w >>> 40).toUInt8, (w >>> 32).toUInt8,
   (w >>> 24).toUInt8, (w >>> 16).toUInt8, (w >>> 8).toUInt8, w.toUInt8]

def Registers.bytes (r : Registers) : Bytes :=
  [r.a, r.b, r.c, r.d, r.e, r.f, r.g, r.h].flatMap wordBytes

def digest (s : State) : Bytes := (feed s (padding 128 16 s.length)).value.bytes

/-- The digest, and the state for the next input. -/
def take (s : State) : Bytes × State := (digest s, start)

@[simp] theorem feed_nil (s : State) : feed s [] = s := rfl

theorem feed_append (s : State) (x y : Bytes) : feed s (x ++ y) = feed (feed s x) y :=
  Blocks.feedAll_append ..

@[simp] theorem length_digest (s : State) : (digest s).length = 64 := by
  simp [digest, Registers.bytes, wordBytes]

end ContentChunks.Digest.Sha512
