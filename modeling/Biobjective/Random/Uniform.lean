import Biobjective.Fault
import Biobjective.Random.ChaCha

/-!
# Uniform integers

An integer between two ends, all equally likely. The product of a word and the
number of candidates has the candidate in its high half; words whose low half
is beyond the last full zone are drawn again, so that no candidate is
favoured.

A `Generator` is any source of such integers, and the stream is one of them.
-/

namespace Biobjective

namespace RandomStream

def wordCount : Nat := UInt64.size

/-- The last low half that is accepted for a number of candidates: the
candidates are doubled while they fit a word. -/
def zone (candidates : Nat) : Nat :=
  candidates * Nat.pow 2 (63 - Nat.log2 candidates) - 1

/-- A number below `candidates`. The fuel bounds the words drawn; the last one
is accepted as it is. -/
def below (candidates : Nat) : (fuel : Nat) → RandomStream → Nat × RandomStream
  | 0, s =>
    let (x, s) := s.next
    (x.toNat * candidates / wordCount, s)
  | fuel + 1, s =>
    let (x, s) := s.next
    let product := x.toNat * candidates
    if product % wordCount ≤ zone candidates then (product / wordCount, s)
    else below candidates fuel s

def signedWord (x : UInt64) : Int := Int.bmod x.toNat wordCount

/-- The number of words that are drawn at most for one integer. -/
def drawLimit : Nat := 4096

/-- An integer from `lo` to `hi`, both of 64 bits. -/
def between (lo hi : Int) (s : RandomStream) : Int × RandomStream :=
  let candidates := (hi - lo + 1).toNat
  if candidates = wordCount then
    let (x, s) := s.next
    (signedWord x, s)
  else
    let (n, s) := below candidates drawLimit s
    (lo + n, s)

end RandomStream

/-- A source of integers between two ends, which a seed determines. -/
structure Generator where
  State : Type
  ofSeed : UInt64 → State
  between : Int → Int → State → Int × State

namespace Generator

def standard : Generator where
  State := RandomStream
  ofSeed := .ofSeed
  between := RandomStream.between

/-- An integer from `lo` to `hi`. There has to be one. -/
def draw (g : Generator) (lo hi : Int) (s : g.State) : Except Crash (Int × g.State) :=
  if hi < lo then .error .emptyRange else .ok (g.between lo hi s)

end Generator

end Biobjective
