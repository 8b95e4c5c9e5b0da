import Mathlib.Data.Rat.Defs

set_option autoImplicit false

/-! # Arrival times

`harness/dist.h`. The library's random numbers are a parameter: the engine seeded with a
number is a stream of draws, and the distribution of a rate turns a draw into the gap that
is added to the clock. Rates are exact rationals, in requests per nanosecond.
-/

namespace TailBench

/-- `std::default_random_engine` and `std::exponential_distribution<double>`. -/
structure Rng where
  /-- The `i`-th draw of the engine with a seed. -/
  engine : UInt64 → Nat → Nat
  /-- The gap the distribution of a rate makes of a draw, in nanoseconds. -/
  gap : ℚ → Nat → UInt64

structure ExpDist where
  lambda : ℚ
  seed : UInt64
  /-- The draws taken from the engine so far. -/
  drawn : Nat
  curNs : UInt64
  deriving DecidableEq

/-- The constructor. -/
def ExpDist.new (lambda : ℚ) (seed startNs : UInt64) : ExpDist := ⟨lambda, seed, 0, startNs⟩

/-- The arrival time, and the object after the call. -/
def ExpDist.nextArrivalNs (rng : Rng) (d : ExpDist) : UInt64 × ExpDist :=
  let curNs := d.curNs + rng.gap d.lambda (rng.engine d.seed d.drawn)
  (curNs, { d with curNs := curNs, drawn := d.drawn + 1 })

end TailBench
