/-!
# The ChaCha stream

A stream of pseudo-random words: the ChaCha permutation with twelve rounds, on
a key that is stretched from a 64-bit seed, with a 64-bit block counter.

The state is a four by four matrix of words, held as four rows. A column round
mixes each column; a diagonal round is a column round on rows that are turned
against each other.
-/

namespace Biobjective

structure Lanes where
  x0 : UInt32
  x1 : UInt32
  x2 : UInt32
  x3 : UInt32
deriving DecidableEq

namespace Lanes

/-- Joins two rows word by word. -/
def zipWith (f : UInt32 → UInt32 → UInt32) (a b : Lanes) : Lanes :=
  ⟨f a.x0 b.x0, f a.x1 b.x1, f a.x2 b.x2, f a.x3 b.x3⟩

def map (f : UInt32 → UInt32) (a : Lanes) : Lanes := ⟨f a.x0, f a.x1, f a.x2, f a.x3⟩

/-- Turns a row by one place to the left. -/
def turn (a : Lanes) : Lanes := ⟨a.x1, a.x2, a.x3, a.x0⟩

def toList (a : Lanes) : List UInt32 := [a.x0, a.x1, a.x2, a.x3]

end Lanes

def rotateLeft (x : UInt32) (n : UInt32) : UInt32 := x <<< n ||| x >>> (32 - n)

def rotateRight (x : UInt32) (n : UInt32) : UInt32 :=
  if n = 0 then x else x >>> n ||| x <<< (32 - n)

structure Matrix16 where
  a : Lanes
  b : Lanes
  c : Lanes
  d : Lanes
deriving DecidableEq

namespace Matrix16

def columnRound (m : Matrix16) : Matrix16 :=
  let a := Lanes.zipWith (· + ·) m.a m.b
  let d := (Lanes.zipWith (· ^^^ ·) m.d a).map (rotateLeft · 16)
  let c := Lanes.zipWith (· + ·) m.c d
  let b := (Lanes.zipWith (· ^^^ ·) m.b c).map (rotateLeft · 12)
  let a := Lanes.zipWith (· + ·) a b
  let d := (Lanes.zipWith (· ^^^ ·) d a).map (rotateLeft · 8)
  let c := Lanes.zipWith (· + ·) c d
  let b := (Lanes.zipWith (· ^^^ ·) b c).map (rotateLeft · 7)
  ⟨a, b, c, d⟩

def diagonalRound (m : Matrix16) : Matrix16 :=
  let m := columnRound ⟨m.a, m.b.turn, m.c.turn.turn, m.d.turn.turn.turn⟩
  ⟨m.a, m.b.turn.turn.turn, m.c.turn.turn, m.d.turn⟩

/-- A number of column rounds, each followed by a diagonal one. -/
def doubleRounds : Nat → Matrix16 → Matrix16
  | 0, m => m
  | n + 1, m => doubleRounds n m.columnRound.diagonalRound

def add (m n : Matrix16) : Matrix16 :=
  ⟨Lanes.zipWith (· + ·) m.a n.a, Lanes.zipWith (· + ·) m.b n.b, Lanes.zipWith (· + ·) m.c n.c,
    Lanes.zipWith (· + ·) m.d n.d⟩

def toList (m : Matrix16) : List UInt32 :=
  m.a.toList ++ m.b.toList ++ m.c.toList ++ m.d.toList

end Matrix16

structure ChaChaKey where
  left : Lanes
  right : Lanes
deriving DecidableEq

namespace ChaChaKey

/-- The next state of the generator that stretches a seed. -/
def advance (s : UInt64) : UInt64 := s * 6364136223846793005 + 11634580027462260723

/-- The word that the stretching generator gives in a state. -/
def word (s : UInt64) : UInt32 :=
  rotateRight (((s >>> 18) ^^^ s) >>> 27).toUInt32 (s >>> 59).toUInt32

/-- Four words and the state after them. -/
def lanes (s : UInt64) : Lanes × UInt64 :=
  let s0 := advance s
  let s1 := advance s0
  let s2 := advance s1
  let s3 := advance s2
  (⟨word s0, word s1, word s2, word s3⟩, s3)

/-- The key that a seed is stretched to. -/
def ofSeed (seed : UInt64) : ChaChaKey :=
  let (left, s) := lanes seed
  let (right, _) := lanes s
  ⟨left, right⟩

end ChaChaKey

/-- A stream of pseudo-random words of 64 bits. -/
structure RandomStream where
  key : ChaChaKey
  blocks : UInt64
  /-- The words of the last block that are still to be given. -/
  pending : List UInt64

namespace RandomStream

/-- The first row of every block's input. -/
def constants : Lanes := ⟨0x61707865, 0x3320646e, 0x79622d32, 0x6b206574⟩

def ofSeed (seed : UInt64) : RandomStream := ⟨ChaChaKey.ofSeed seed, 0, []⟩

def block (key : ChaChaKey) (counter : UInt64) : Matrix16 :=
  let input : Matrix16 :=
    ⟨constants, key.left, key.right, ⟨counter.toUInt32, (counter >>> 32).toUInt32, 0, 0⟩⟩
  (input.doubleRounds 6).add input

/-- Joins words in pairs, the low half first. -/
def pairs : List UInt32 → List UInt64
  | low :: high :: rest => (low.toUInt64 ||| high.toUInt64 <<< 32) :: pairs rest
  | _ => []

def next (s : RandomStream) : UInt64 × RandomStream :=
  match s.pending with
  | x :: pending => (x, { s with pending })
  | [] =>
    match pairs (block s.key s.blocks).toList with
    | x :: pending => (x, { s with blocks := s.blocks + 1, pending })
    | [] => (0, s)

end RandomStream

end Biobjective
