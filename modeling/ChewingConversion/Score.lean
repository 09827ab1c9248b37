import ChewingConversion.Basic
import Mathlib.Data.Nat.Dist

/-!
# The score of a path

`PossiblePath::score` collapses four rules into one integer:
`1000 * largest sum + 1000 * largest average word length
 + 100 * smallest length variance + largest frequency sum`.
The source computes in `i32` and `u32`; here every rule is the exact integer the
source computes whenever it does not overflow.
-/

namespace ChewingConversion

/-- The nested loop of `rule_smallest_lenvariance`: the sum of `abs_diff` over
all pairs `i < j` of interval lengths. -/
def lenVariance : List Nat → Nat
  | [] => 0
  | len :: lens => (lens.map (Nat.dist len)).sum + lenVariance lens

/-- The contribution of one interval to `rule_largest_freqsum`: single-syllable
phrases count `freq / 512`. -/
def reducedFreq (interval : PossibleInterval) : Nat :=
  interval.phrase.freq / (if interval.len = 1 then 512 else 1)

namespace PossiblePath

def ruleLargestSum (self : PossiblePath) : Int :=
  ((self.intervals.map PossibleInterval.len).sum : Nat)

/-- The constant factor `6 = 1 * 2 * 3` keeps the average an integer. -/
def ruleLargestAvgwordlen (self : PossiblePath) : Int :=
  if self.intervals.isEmpty then 0
  else ((6 * (self.intervals.map PossibleInterval.len).sum / self.intervals.length : Nat) : Int)

def ruleSmallestLenvariance (self : PossiblePath) : Int :=
  -((lenVariance (self.intervals.map PossibleInterval.len) : Nat) : Int)

def ruleLargestFreqsum (self : PossiblePath) : Int :=
  ((self.intervals.map reducedFreq).sum : Nat)

def score (self : PossiblePath) : Int :=
  1000 * self.ruleLargestSum + 1000 * self.ruleLargestAvgwordlen +
    100 * self.ruleSmallestLenvariance + self.ruleLargestFreqsum

@[simp] theorem score_default : (default : PossiblePath).score = 0 := rfl

end PossiblePath

end ChewingConversion
