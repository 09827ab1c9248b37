import ChewingConversion.Score
import Mathlib.Algebra.Order.BigOperators.Group.List
import Mathlib.Tactic.Linarith

/-!
# The score in fixed-width arithmetic

`PossiblePath::score` computes in the machine's integer types: lengths and their
sums in `usize`, the frequency sum in `u32`, the rules and their weighted sum in
`i32`.  A debug build panics when an addition, a subtraction, a multiplication
or a division leaves its type's range, and so does each
`i32::try_from(..).expect(..)`; `as i32` keeps the low 32 bits.  Here every value
is an integer, and every operation of the source is checked against the range
of its type: `none` is the panic.

The length-variance rule is at most a quarter of the square of the total length
`n`, so under `25 n² + 7000 n + F < 2³¹`, where `F` is the sum of the phrase
frequencies, nothing overflows and the checked score is the exact score of
`PossiblePath.score`.
-/

namespace ChewingConversion

/-- A Rust integer type, by the range of its values. -/
structure Scalar where
  min : Int
  max : Int

namespace Scalar

def i32 : Scalar := ⟨-2 ^ 31, 2 ^ 31 - 1⟩

def u32 : Scalar := ⟨0, 2 ^ 32 - 1⟩

/-- `usize` of a 64-bit target. -/
def usize : Scalar := ⟨0, 2 ^ 64 - 1⟩

/-- `value` as a value of `ty`: `none` when it is out of range. -/
def tryMk (ty : Scalar) (value : Int) : Option Int :=
  if ty.min ≤ value ∧ value ≤ ty.max then some value else none

def add (ty : Scalar) (x y : Int) : Option Int := ty.tryMk (x + y)

def sub (ty : Scalar) (x y : Int) : Option Int := ty.tryMk (x - y)

def mul (ty : Scalar) (x y : Int) : Option Int := ty.tryMk (x * y)

/-- Division rounds toward zero and panics on a zero divisor. -/
def div (ty : Scalar) (x y : Int) : Option Int :=
  if y = 0 then none else ty.tryMk (x.tdiv y)

/-- `for item in items { score += term(item) }`, the additions checked in `ty`. -/
def sumLoop {α : Type} (ty : Scalar) (term : α → Option Int) : Int → List α → Option Int
  | score, [] => some score
  | score, item :: items => do sumLoop ty term (← ty.add score (← term item)) items

theorem tryMk_of_le {ty : Scalar} {value : Int} (lower : ty.min ≤ value)
    (upper : value ≤ ty.max) : ty.tryMk value = some value :=
  if_pos ⟨lower, upper⟩

/-- The loop adds up its terms when none of them fails and the total stays in range. -/
theorem sumLoop_eq {α : Type} {ty : Scalar} {term : α → Option Int} (value : α → Nat) :
    ∀ {items : List α} {score : Int}, (∀ item ∈ items, term item = some (value item : Int)) →
      ty.min ≤ score → score + ((items.map value).sum : Nat) ≤ ty.max →
        sumLoop ty term score items = some (score + ((items.map value).sum : Nat))
  | [], score, _, _, _ => by simp [sumLoop]
  | item :: items, score, terms, lower, upper => by
    have total : score + ((item :: items).map value).sum =
        score + value item + (items.map value).sum := by
      simp only [List.map_cons, List.sum_cons, Nat.cast_add]
      omega
    rw [total] at upper ⊢
    have added : ty.add score (value item) = some (score + value item) :=
      tryMk_of_le (by omega) (by omega)
    simp only [sumLoop, terms item (List.mem_cons_self _ _), Option.bind_eq_bind,
      Option.some_bind, added]
    exact sumLoop_eq value (fun other member => terms other (List.mem_cons_of_mem _ member))
      (by omega) upper

/-- Division of unsigned values by a non-zero divisor never overflows an unsigned type. -/
theorem div_natCast (ty : Scalar) (x y : Nat) (positive : 0 < y) (lower : ty.min ≤ 0)
    (upper : x ≤ ty.max) : ty.div x y = some ((x / y : Nat) : Int) := by
  have quotientLe := Nat.div_le_self x y
  rw [div, if_neg (by omega), Int.tdiv_eq_ediv (by omega) (by omega), ← Int.ofNat_ediv]
  exact tryMk_of_le (le_trans lower (Int.natCast_nonneg _)) (le_trans (Int.ofNat_le.mpr quotientLe) upper)

end Scalar

open Scalar

/-- `as i32` from an unsigned type: the low 32 bits in two's complement. -/
def asI32 (value : Int) : Int :=
  value.bmod (2 ^ 32)

/-- `abs_diff` of two unsigned values. -/
def absDiff (x y : Int) : Int :=
  if x < y then y - x else x - y

namespace Checked

/-- `PossibleInterval::len`. -/
def len (self : PossibleInterval) : Option Int :=
  usize.sub self.end self.start

/-- `rule_largest_sum`: a `usize` sum cast `as i32`. -/
def ruleLargestSum (self : PossiblePath) : Option Int := do
  let score ← usize.sumLoop len 0 self.intervals
  return asI32 score

def ruleLargestAvgwordlen (self : PossiblePath) : Option Int :=
  if self.intervals.isEmpty then some 0
  else do
    i32.div (← i32.mul 6 (← ruleLargestSum self)) (← i32.tryMk self.intervals.length)

/-- The nested loop of `rule_smallest_lenvariance`: for every interval, the inner
loop over the intervals after it. -/
def lenVarianceLoop : Int → List PossibleInterval → Option Int
  | score, [] => some score
  | score, interval :: intervals => do
    let score ← usize.sumLoop (fun other => do return absDiff (← len interval) (← len other))
      score intervals
    lenVarianceLoop score intervals

/-- `rule_smallest_lenvariance`; `neg` overflows only on `i32::MIN`. -/
def ruleSmallestLenvariance (self : PossiblePath) : Option Int := do
  let score ← i32.tryMk (← lenVarianceLoop 0 self.intervals)
  i32.tryMk (-score)

/-- `rule_largest_freqsum`: a `u32` sum of the reduced frequencies. -/
def ruleLargestFreqsum (self : PossiblePath) : Option Int := do
  let score ← u32.sumLoop (fun interval => do
      let reductionFactor := if (← len interval) = 1 then 512 else 1
      u32.div interval.phrase.freq reductionFactor) 0 self.intervals
  i32.tryMk score

def score (self : PossiblePath) : Option Int := do
  let score := 0
  let score ← i32.add score (← i32.mul 1000 (← ruleLargestSum self))
  let score ← i32.add score (← i32.mul 1000 (← ruleLargestAvgwordlen self))
  let score ← i32.add score (← i32.mul 100 (← ruleSmallestLenvariance self))
  i32.add score (← ruleLargestFreqsum self)

end Checked

/-! ### The length-variance bound -/

/-- One row of the nested loop: the distances from `len` to lengths of at least `1`. -/
theorem sum_dist_add_le {len : Nat} (positive : 1 ≤ len) :
    ∀ {lens : List Nat}, (∀ other ∈ lens, 1 ≤ other) →
      (lens.map (Nat.dist len)).sum + 2 * lens.length ≤ lens.length * len + lens.sum
  | [], _ => by simp
  | other :: lens, positives => by
    have rest := sum_dist_add_le positive fun other member =>
      positives other (List.mem_cons_of_mem _ member)
    have otherPositive := positives other (List.mem_cons_self _ _)
    have step : len.dist other + 2 ≤ len + other := by unfold Nat.dist; omega
    simp only [List.map_cons, List.sum_cons, List.length_cons, Nat.add_one_mul]
    omega

/-- With `m` lengths of at least `1` summing to `n`, the length variance is at
most `(m - 1) (n - m)`. -/
theorem lenVariance_add_le : ∀ {lens : List Nat}, (∀ len ∈ lens, 1 ≤ len) →
    lenVariance lens + lens.length ^ 2 + lens.sum ≤ lens.length * lens.sum + lens.length
  | [], _ => by simp [lenVariance]
  | len :: lens, positives => by
    have rest := lenVariance_add_le fun other member =>
      positives other (List.mem_cons_of_mem _ member)
    have row := sum_dist_add_le (positives len (List.mem_cons_self _ _)) fun other member =>
      positives other (List.mem_cons_of_mem _ member)
    -- expanded, the products are atoms of a linear goal
    simp only [lenVariance, List.length_cons, List.sum_cons, Nat.pow_two, Nat.add_one_mul,
      Nat.mul_add, Nat.mul_one] at rest ⊢
    omega

/-- The length variance is at most a quarter of the square of the total length. -/
theorem four_mul_lenVariance_le {lens : List Nat} (positives : ∀ len ∈ lens, 1 ≤ len) :
    4 * lenVariance lens ≤ lens.sum ^ 2 := by
  have bound := lenVariance_add_le positives
  have lengthLe := List.length_le_sum_of_one_le lens positives
  generalize lens.sum = total at bound lengthLe ⊢
  generalize lens.length = count at bound lengthLe
  zify at bound lengthLe ⊢
  linarith [sq_nonneg ((total : Int) - 2 * count)]

/-! ### Each rule without overflow -/

theorem absDiff_natCast (x y : Nat) : absDiff x y = (x.dist y : Nat) := by
  unfold absDiff Nat.dist
  split <;> omega

theorem Checked.len_eq {interval : PossibleInterval} (nonempty : interval.start < interval.end)
    (small : interval.len < 2 ^ 64) : Checked.len interval = some (interval.len : Int) := by
  have lenEq : ((interval.len : Nat) : Int) = interval.end - interval.start := by
    unfold PossibleInterval.len; omega
  rw [Checked.len, Scalar.sub, ← lenEq]
  exact tryMk_of_le (by simp [usize]) (by simp only [usize]; omega)

/-- The nested loop adds up the length variance when no length and no partial sum
overflows. -/
theorem Checked.lenVarianceLoop_eq : ∀ {intervals : List PossibleInterval} {score : Int},
    (∀ interval ∈ intervals, interval.start < interval.end ∧ interval.len < 2 ^ 64) → 0 ≤ score →
    score + (lenVariance (intervals.map PossibleInterval.len) : Nat) ≤ usize.max →
      Checked.lenVarianceLoop score intervals =
        some (score + (lenVariance (intervals.map PossibleInterval.len) : Nat))
  | [], score, _, _, _ => by simp [Checked.lenVarianceLoop, lenVariance]
  | interval :: intervals, score, lens, lower, upper => by
    have lenEq := fun other member => Checked.len_eq (lens other member).1 (lens other member).2
    have row : ((intervals.map PossibleInterval.len).map (Nat.dist interval.len)).sum =
        (intervals.map fun other => interval.len.dist other.len).sum := by
      rw [List.map_map]
      rfl
    simp only [List.map_cons, lenVariance, row, Nat.cast_add] at upper ⊢
    simp only [Checked.lenVarianceLoop]
    rw [Scalar.sumLoop_eq (fun other => interval.len.dist other.len)
        (fun other member => by
          simp [lenEq interval (List.mem_cons_self _ _), lenEq other (List.mem_cons_of_mem _ member),
            absDiff_natCast])
        (by simp only [usize]; omega) (by omega),
      Option.bind_eq_bind, Option.some_bind,
      Checked.lenVarianceLoop_eq (fun other member => lens other (List.mem_cons_of_mem _ member))
        (by omega) (by omega)]
    congr 1
    omega

theorem sum_reducedFreq_le (intervals : List PossibleInterval) :
    (intervals.map reducedFreq).sum ≤ (intervals.map fun interval => interval.phrase.freq).sum :=
  List.sum_le_sum fun _ _ => Nat.div_le_self _ _

/-- An interval is no longer than the path. -/
theorem len_le_sum {self : PossiblePath} {interval : PossibleInterval}
    (member : interval ∈ self.intervals) :
    interval.len ≤ (self.intervals.map PossibleInterval.len).sum :=
  List.le_sum_of_mem (List.mem_map_of_mem _ member)

section Rules

variable {self : PossiblePath} (nonempty : ∀ interval ∈ self.intervals, interval.start < interval.end)
include nonempty

theorem lens_positive : ∀ len ∈ self.intervals.map PossibleInterval.len, 1 ≤ len := by
  intro len member
  obtain ⟨interval, intervalMember, rfl⟩ := List.mem_map.mp member
  have := nonempty interval intervalMember
  unfold PossibleInterval.len
  omega

theorem length_le_sum : self.intervals.length ≤ (self.intervals.map PossibleInterval.len).sum := by
  simpa using List.length_le_sum_of_one_le _ (lens_positive nonempty)

theorem Checked.ruleLargestSum_eq (small : (self.intervals.map PossibleInterval.len).sum < 2 ^ 31) :
    Checked.ruleLargestSum self = some self.ruleLargestSum := by
  have summed := @Scalar.sumLoop_eq _ usize Checked.len PossibleInterval.len self.intervals 0
    (fun interval member => Checked.len_eq (nonempty interval member)
      (by have := len_le_sum member; omega))
    (by simp [usize]) (by simp only [usize]; omega)
  have cast : asI32 (((self.intervals.map PossibleInterval.len).sum : Nat) : Int) =
      ((self.intervals.map PossibleInterval.len).sum : Nat) := by
    rw [asI32, Int.bmod_pos _ _ (by omega), Int.emod_eq_of_lt (by omega) (by omega)]
  simp only [Checked.ruleLargestSum, summed, zero_add, Option.bind_eq_bind, Option.some_bind, cast]
  rfl

theorem Checked.ruleLargestAvgwordlen_eq
    (small : 6 * (self.intervals.map PossibleInterval.len).sum < 2 ^ 31) :
    Checked.ruleLargestAvgwordlen self = some self.ruleLargestAvgwordlen := by
  unfold Checked.ruleLargestAvgwordlen PossiblePath.ruleLargestAvgwordlen
  split
  · rfl
  · rename_i notEmpty
    have lengthLe := length_le_sum nonempty
    have lengthPos : 0 < self.intervals.length :=
      List.length_pos.mpr fun empty => notEmpty (List.isEmpty_iff.mpr empty)
    have nonneg : (0 : Int) ≤ 6 * ((self.intervals.map PossibleInterval.len).sum : Nat) := by
      omega
    have quotientLe := Int.ediv_le_self (self.intervals.length : Int) nonneg
    have quotientNonneg := Int.ediv_nonneg nonneg (Int.natCast_nonneg self.intervals.length)
    rw [Int.ofNat_ediv, Nat.cast_mul, Nat.cast_ofNat]
    simp (disch := simp only [i32]; omega) only [Checked.ruleLargestSum_eq nonempty (by omega),
      PossiblePath.ruleLargestSum, Option.bind_eq_bind, Option.some_bind, Scalar.mul,
      tryMk_of_le, Scalar.div, if_neg (Nat.cast_ne_zero.mpr lengthPos.ne'),
      Int.tdiv_eq_ediv nonneg (Int.natCast_nonneg _)]

theorem Checked.ruleSmallestLenvariance_eq
    (small : (self.intervals.map PossibleInterval.len).sum ^ 2 < 2 ^ 31) :
    Checked.ruleSmallestLenvariance self = some self.ruleSmallestLenvariance := by
  have varianceLe := four_mul_lenVariance_le (lens_positive nonempty)
  have sumLe := Nat.le_self_pow two_ne_zero (self.intervals.map PossibleInterval.len).sum
  have looped := @Checked.lenVarianceLoop_eq self.intervals 0
    (fun interval member => ⟨nonempty interval member, by have := len_le_sum member; omega⟩)
    le_rfl (by simp only [usize]; omega)
  simp (disch := simp only [i32]; omega) only [Checked.ruleSmallestLenvariance, looped, zero_add,
    Option.bind_eq_bind, Option.some_bind, tryMk_of_le]
  rfl

theorem Checked.ruleLargestFreqsum_eq (short : (self.intervals.map PossibleInterval.len).sum < 2 ^ 64)
    (small : (self.intervals.map fun interval => interval.phrase.freq).sum < 2 ^ 31) :
    Checked.ruleLargestFreqsum self = some self.ruleLargestFreqsum := by
  have reducedLe := sum_reducedFreq_le self.intervals
  have terms : ∀ interval ∈ self.intervals, (do
      let reductionFactor := if (← Checked.len interval) = 1 then 512 else 1
      u32.div interval.phrase.freq reductionFactor) = some (reducedFreq interval : Int) := by
    intro interval member
    have freqLe : interval.phrase.freq ≤
        (self.intervals.map fun interval => interval.phrase.freq).sum :=
      List.le_sum_of_mem (List.mem_map_of_mem (fun interval => interval.phrase.freq) member)
    have divided := fun factor positive => u32.div_natCast interval.phrase.freq factor positive
      (by simp [u32]) (by simp only [u32]; omega)
    rw [Checked.len_eq (nonempty interval member) (by have := len_le_sum member; omega)]
    by_cases single : interval.len = 1
    · simpa [reducedFreq, single] using divided 512 (by decide)
    · simpa [reducedFreq, single] using divided 1 (by decide)
  have summed := @Scalar.sumLoop_eq _ u32 _ reducedFreq _ 0 terms (by simp [u32])
    (by simp only [u32]; omega)
  rw [Checked.ruleLargestFreqsum, summed]
  simp (disch := simp only [i32]; omega) only [zero_add, Option.bind_eq_bind, Option.some_bind,
    tryMk_of_le]
  rfl

end Rules

/-! ### The score without overflow -/

section Score

variable {self : PossiblePath}

theorem ruleLargestAvgwordlen_nonneg : 0 ≤ self.ruleLargestAvgwordlen := by
  unfold PossiblePath.ruleLargestAvgwordlen
  split
  · exact le_rfl
  · exact Int.natCast_nonneg _

theorem ruleLargestAvgwordlen_le : self.ruleLargestAvgwordlen ≤ 6 * self.ruleLargestSum := by
  unfold PossiblePath.ruleLargestAvgwordlen PossiblePath.ruleLargestSum
  split
  · omega
  · exact_mod_cast Nat.div_le_self _ _

/-- Under `25 n² + 7000 n + F < 2³¹` the checked score is the exact score: the
fixed-width computation refines the exact one. -/
theorem Checked.score_eq (nonempty : ∀ interval ∈ self.intervals, interval.start < interval.end)
    (bound : 25 * (self.intervals.map PossibleInterval.len).sum ^ 2 +
      7000 * (self.intervals.map PossibleInterval.len).sum +
      (self.intervals.map fun interval => interval.phrase.freq).sum < 2 ^ 31) :
    Checked.score self = some self.score := by
  have varianceLe := four_mul_lenVariance_le (lens_positive nonempty)
  have reducedLe := sum_reducedFreq_le self.intervals
  have averageNonneg := @ruleLargestAvgwordlen_nonneg self
  have averageLe := @ruleLargestAvgwordlen_le self
  have sumEq : self.ruleLargestSum = ((self.intervals.map PossibleInterval.len).sum : Nat) := rfl
  have varianceEq : self.ruleSmallestLenvariance =
      -((lenVariance (self.intervals.map PossibleInterval.len) : Nat) : Int) := rfl
  have freqEq : self.ruleLargestFreqsum = ((self.intervals.map reducedFreq).sum : Nat) := rfl
  simp only [Checked.score, Checked.ruleLargestSum_eq nonempty (by omega),
    Checked.ruleLargestAvgwordlen_eq nonempty (by omega),
    Checked.ruleSmallestLenvariance_eq nonempty (by omega),
    Checked.ruleLargestFreqsum_eq nonempty (by omega) (by omega),
    Option.bind_eq_bind, Option.some_bind, Scalar.mul, Scalar.add, PossiblePath.score]
  -- the remaining arithmetic is about the four rules and the two sums only
  generalize self.ruleLargestSum = sum at *
  generalize self.ruleLargestAvgwordlen = average at *
  generalize self.ruleSmallestLenvariance = variance at *
  generalize self.ruleLargestFreqsum = freq at *
  generalize (self.intervals.map PossibleInterval.len).sum = total at *
  generalize lenVariance (self.intervals.map PossibleInterval.len) = pairs at *
  simp (disch := simp only [i32]; omega) only [tryMk_of_le, Option.some_bind, zero_add]

end Score

/-- `score()` of a path of non-empty intervals with total length `n` and
frequency sum `F`, when `25 n² + 7000 n + F < 2³¹`: no operation overflows, no
`try_from` fails, and the result is the exact weighted sum of the four rules. -/
theorem Checked.score_eq_formula (self : PossiblePath)
    (nonempty : ∀ interval ∈ self.intervals, interval.start < interval.end)
    (bound : 25 * (self.intervals.map PossibleInterval.len).sum ^ 2 +
      7000 * (self.intervals.map PossibleInterval.len).sum +
      (self.intervals.map fun interval => interval.phrase.freq).sum < 2 ^ 31) :
    Checked.score self = some
      (1000 * ((self.intervals.map PossibleInterval.len).sum : Int) +
        (if self.intervals.length = 0 then 0
          else 1000 * ((6 * (self.intervals.map PossibleInterval.len).sum /
            self.intervals.length : Nat) : Int)) -
        100 * (lenVariance (self.intervals.map PossibleInterval.len) : Int) +
        (((self.intervals.map fun interval =>
          interval.phrase.freq / if interval.len = 1 then 512 else 1).sum : Nat) : Int)) := by
  have reduced : reducedFreq = fun interval =>
      interval.phrase.freq / if interval.len = 1 then 512 else 1 := rfl
  rw [Checked.score_eq nonempty bound, Option.some.injEq, PossiblePath.score,
    PossiblePath.ruleLargestSum, PossiblePath.ruleLargestAvgwordlen,
    PossiblePath.ruleSmallestLenvariance, PossiblePath.ruleLargestFreqsum]
  by_cases empty : self.intervals = []
  · simp [empty]
  · rw [if_neg (mt List.isEmpty_iff.mp empty), if_neg (mt List.length_eq_zero.mp empty), reduced]
    omega

/-- The conversion `國民 大會 代表` of the source's tests scores `18600`. -/
theorem Checked.score_eq_formula_guomin :
    (∀ interval ∈ [(⟨0, 2, ⟨"國民", 200⟩⟩ : PossibleInterval), ⟨2, 4, ⟨"大會", 200⟩⟩,
        ⟨4, 6, ⟨"代表", 200⟩⟩], interval.start < interval.end) ∧
    25 * ([(⟨0, 2, ⟨"國民", 200⟩⟩ : PossibleInterval), ⟨2, 4, ⟨"大會", 200⟩⟩,
        ⟨4, 6, ⟨"代表", 200⟩⟩].map PossibleInterval.len).sum ^ 2 +
      7000 * ([(⟨0, 2, ⟨"國民", 200⟩⟩ : PossibleInterval), ⟨2, 4, ⟨"大會", 200⟩⟩,
        ⟨4, 6, ⟨"代表", 200⟩⟩].map PossibleInterval.len).sum +
      ([(⟨0, 2, ⟨"國民", 200⟩⟩ : PossibleInterval), ⟨2, 4, ⟨"大會", 200⟩⟩,
        ⟨4, 6, ⟨"代表", 200⟩⟩].map fun interval => interval.phrase.freq).sum < 2 ^ 31 ∧
    Checked.score ⟨[⟨0, 2, ⟨"國民", 200⟩⟩, ⟨2, 4, ⟨"大會", 200⟩⟩, ⟨4, 6, ⟨"代表", 200⟩⟩]⟩ =
      some 18600 :=
  ⟨by decide, by decide, (Checked.score_eq_formula _ (by decide) (by decide)).trans (by decide)⟩

end ChewingConversion
