/-!
# Durations

A time span in whole nanoseconds, as a clock reads it and a report writes it.
-/

namespace Biobjective

structure Duration where
  nanos : Nat
deriving DecidableEq

namespace Duration

/-- The nanoseconds in a second. -/
def nanosPerSecond : Nat := 1000000000

def zero : Duration := ⟨0⟩

/-- The span of whole seconds and further nanoseconds. -/
def ofParts (seconds nanos : Nat) : Duration := ⟨seconds * nanosPerSecond + nanos⟩

/-- The whole seconds of a span. -/
def wholeSeconds (d : Duration) : Nat := d.nanos / nanosPerSecond

/-- The nanoseconds beyond the whole seconds. -/
def subsecNanos (d : Duration) : Nat := d.nanos % nanosPerSecond

theorem wholeSeconds_ofParts {seconds nanos : Nat} (h : nanos < nanosPerSecond) :
    (ofParts seconds nanos).wholeSeconds = seconds := by
  simp only [wholeSeconds, ofParts, nanosPerSecond] at *
  omega

theorem subsecNanos_ofParts {seconds nanos : Nat} (h : nanos < nanosPerSecond) :
    (ofParts seconds nanos).subsecNanos = nanos := by
  simp only [subsecNanos, ofParts, nanosPerSecond] at *
  omega

/-- What is left of a span after another one, nothing if that is longer. -/
def since (d e : Duration) : Duration := ⟨d.nanos - e.nanos⟩

/-- The span in seconds, as the sum of the whole seconds and the rest. -/
def seconds (d : Duration) : Float :=
  (UInt64.ofNat d.wholeSeconds).toFloat + (UInt64.ofNat d.subsecNanos).toFloat / 1e9

instance : LE Duration := ⟨fun d e => d.nanos ≤ e.nanos⟩

instance : DecidableLE Duration := fun d e => Nat.decLe d.nanos e.nanos

end Duration

end Biobjective
