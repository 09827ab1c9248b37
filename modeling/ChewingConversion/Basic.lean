import Mathlib.Data.List.Basic

/-!
# Values of one conversion

The Chewing conversion engine segments a sequence of Zhuyin syllables into
dictionary phrases.  This file models the values that one call of `convert` or
`convert_next` reads and builds: the user's constraints (selected `Interval`s
and `Break` points), the candidate intervals of the search, and the paths made
of them.  Syllables are opaque: the engine only hands slices of them to the
dictionary, so they are a type parameter throughout.
-/

namespace ChewingConversion

/-- A dictionary phrase: its text and its frequency, a `u32` weight. -/
structure Phrase where
  text : String
  freq : Nat
deriving DecidableEq, Repr

/-- The dictionary contract: every phrase recorded for a syllable sequence, in
the dictionary's own iteration order. -/
structure Dictionary (Syllable : Type) where
  lookupPhrase : List Syllable → List Phrase

/-- A segment of the result, and the type of the user's selections. -/
structure Interval where
  start : Nat
  «end» : Nat
  phrase : String
deriving DecidableEq, Repr

/-- `Break(usize)`: a position that no phrase may span. -/
structure Break where
  pos : Nat
deriving DecidableEq, Repr

/-- The input of a conversion. -/
structure ChineseSequence (Syllable : Type) where
  syllables : List Syllable
  selections : List Interval
  breaks : List Break

/-- The slice `syllables[start..end]`. -/
def slice {Syllable : Type} (syllables : List Syllable) (start «end» : Nat) : List Syllable :=
  (syllables.drop start).take («end» - start)

@[simp] theorem slice_length {Syllable : Type} (syllables : List Syllable) {start «end» : Nat}
    (endLe : «end» ≤ syllables.length) : (slice syllables start «end»).length = «end» - start := by
  simp only [slice, List.length_take, List.length_drop]
  omega

/-- A candidate phrase placed on the range `[start, end)`; the `Rc` the source
shares between paths is a plain value here. -/
structure PossibleInterval where
  start : Nat
  «end» : Nat
  phrase : Phrase
deriving DecidableEq, Repr

namespace PossibleInterval

/-- `self` covers the range of `other`. -/
def contains (self other : PossibleInterval) : Bool :=
  self.start ≤ other.start && self.end ≥ other.end

def len (self : PossibleInterval) : Nat :=
  self.end - self.start

/-- `From<PossibleInterval> for Interval`: the phrase is displayed by its text. -/
def toInterval (value : PossibleInterval) : Interval :=
  ⟨value.start, value.end, value.phrase.text⟩

end PossibleInterval

/-- A sequence of candidate intervals; `Default` is the empty path. -/
structure PossiblePath where
  intervals : List PossibleInterval
deriving DecidableEq, Repr

namespace PossiblePath

instance : Inhabited PossiblePath := ⟨⟨[]⟩⟩

@[simp] theorem default_intervals : (default : PossiblePath).intervals = [] := rfl

/-- `path.intervals.push(interval)`. -/
def push (path : PossiblePath) (interval : PossibleInterval) : PossiblePath :=
  ⟨path.intervals ++ [interval]⟩

@[simp] theorem push_intervals (path : PossiblePath) (interval : PossibleInterval) :
    (path.push interval).intervals = path.intervals ++ [interval] := rfl

/-- The public result: every interval converted to an `Interval`. -/
def toIntervals (path : PossiblePath) : List Interval :=
  path.intervals.map PossibleInterval.toInterval

/-- The sequence of interval ends, which determines a path that starts at `0`. -/
def ends (path : PossiblePath) : List Nat :=
  path.intervals.map PossibleInterval.end

theorem ends_ne_of_lt {first second : PossiblePath} (ordered : List.lt first.ends second.ends) :
    first.ends ≠ second.ends := by
  intro same
  rw [same] at ordered
  exact List.lt_irrefl Nat.lt_irrefl _ ordered

/-- Paths listed in increasing order of their ends are distinct. -/
theorem ne_of_ends_lt {first second : PossiblePath} (ordered : List.lt first.ends second.ends) :
    first ≠ second := fun same => ends_ne_of_lt ordered (congrArg ends same)

theorem ends_lt_asymm {first second : PossiblePath} (ordered : List.lt first.ends second.ends) :
    ¬List.lt second.ends first.ends := fun reversed =>
  List.lt_irrefl Nat.lt_irrefl _ (List.lt_trans Nat.lt_trans (fun _ _ => by omega) ordered reversed)

end PossiblePath

/-! ### Chains and covers

A chain from `start` to `target` is a list of non-empty intervals, each one
starting where the previous one ends.  A cover of `[0, n)` is a chain from `0`
to `n`.  These are the objects the search builds; they are stated here once
and shared by the dynamic programme, the enumeration and the trimmer. -/

/-- `intervals` run contiguously from `start` to `target` by non-empty steps. -/
def IsChain : Nat → Nat → List PossibleInterval → Prop
  | start, target, [] => start = target
  | start, target, interval :: intervals =>
      interval.start = start ∧ start < interval.end ∧ IsChain interval.end target intervals

instance decidableIsChain : ∀ start target intervals, Decidable (IsChain start target intervals)
  | start, target, [] => inferInstanceAs (Decidable (start = target))
  | start, target, interval :: intervals =>
    have := decidableIsChain interval.end target intervals
    inferInstanceAs (Decidable (interval.start = start ∧ start < interval.end ∧
      IsChain interval.end target intervals))

@[simp] theorem isChain_nil {start target : Nat} : IsChain start target [] ↔ start = target :=
  Iff.rfl

@[simp] theorem isChain_cons {start target : Nat} {interval : PossibleInterval}
    {intervals : List PossibleInterval} :
    IsChain start target (interval :: intervals) ↔
      interval.start = start ∧ start < interval.end ∧ IsChain interval.end target intervals :=
  Iff.rfl

theorem IsChain.le : ∀ {start target : Nat} {intervals : List PossibleInterval},
    IsChain start target intervals → start ≤ target
  | _, _, [], chain => Nat.le_of_eq chain
  | _, _, _ :: _, ⟨_, startLt, rest⟩ => Nat.le_of_lt (Nat.lt_of_lt_of_le startLt rest.le)

/-- A chain from a position back to itself is empty. -/
theorem IsChain.eq_nil_of_eq : ∀ {start : Nat} {intervals : List PossibleInterval},
    IsChain start start intervals → intervals = []
  | _, [], _ => rfl
  | _, _ :: _, ⟨_, startLt, rest⟩ => absurd (Nat.lt_of_lt_of_le startLt rest.le) (Nat.lt_irrefl _)

theorem IsChain.append : ∀ {start middle target : Nat} {first second : List PossibleInterval},
    IsChain start middle first → IsChain middle target second →
      IsChain start target (first ++ second)
  | _, _, _, [], _, rfl, second => second
  | _, _, _, _ :: _, _, ⟨startEq, startLt, rest⟩, second => ⟨startEq, startLt, rest.append second⟩

theorem isChain_append : ∀ {start target : Nat} {first second : List PossibleInterval},
    IsChain start target (first ++ second) ↔
      ∃ middle, IsChain start middle first ∧ IsChain middle target second
  | _, _, [], _ => by simp
  | _, _, _ :: _, _ => by simp [isChain_append, and_assoc]

theorem isChain_append_singleton : ∀ {start target : Nat} {intervals : List PossibleInterval}
    {interval : PossibleInterval},
    IsChain start target (intervals ++ [interval]) ↔
      IsChain start interval.start intervals ∧ interval.start < interval.end ∧
        interval.end = target
  | _, _, [], _ => by simp only [List.nil_append, isChain_cons, isChain_nil]; omega
  | _, _, _ :: _, _ => by simp [isChain_append_singleton, and_assoc]

/-- Every interval of a chain lies inside `[start, target]` and is non-empty. -/
theorem IsChain.bounds : ∀ {start target : Nat} {intervals : List PossibleInterval},
    IsChain start target intervals → ∀ interval ∈ intervals,
      start ≤ interval.start ∧ interval.start < interval.end ∧ interval.end ≤ target
  | _, _, [], _, _, member => absurd member (List.not_mem_nil _)
  | _, _, _ :: _, ⟨startEq, startLt, rest⟩, interval, member => by
    rcases List.mem_cons.mp member with rfl | tailMember
    · exact ⟨Nat.le_of_eq startEq.symm, startEq ▸ startLt, rest.le⟩
    · have bounds := rest.bounds interval tailMember
      exact ⟨by omega, bounds.2.1, bounds.2.2⟩

/-- Two intervals of a chain do not overlap. -/
theorem IsChain.separated : ∀ {start target : Nat} {intervals : List PossibleInterval},
    IsChain start target intervals → ∀ first ∈ intervals, ∀ second ∈ intervals, first ≠ second →
      first.end ≤ second.start ∨ second.end ≤ first.start
  | _, _, [], _, _, member, _, _, _ => absurd member (List.not_mem_nil _)
  | _, _, _ :: _, ⟨_, _, restChain⟩, first, firstMember, second, secondMember, ne => by
    have after := fun interval member => (restChain.bounds interval member).1
    rcases List.mem_cons.mp firstMember with rfl | firstRest <;>
      rcases List.mem_cons.mp secondMember with rfl | secondRest
    · exact absurd rfl ne
    · exact Or.inl (after second secondRest)
    · exact Or.inr (after first firstRest)
    · exact restChain.separated first firstRest second secondRest ne

end ChewingConversion
