import ChewingConversion.CheckedPath
import ChewingConversion.ConvertNext

/-!
# `convert_next` in a debug build

`trimmed_paths.sort()` compares paths with `Ord for PossiblePath`, whose `cmp`
computes the `i32` score of both paths; an overflow there panics, and
`i32::try_from` of a frequency sum of `2³¹` or more panics in every build.  The
comparisons of the sort are modelled as those of the stable insertion sort of
`sortPaths`, each computing both scores with `Checked.score`; the search before it
is `Checked.findAllPaths`, with the assertions of the selection loop.

Every path the sort sees is a grid cover of the input, a chain of grid
intervals, so under the bound that keeps `convert` from overflowing the sort
does not overflow either, and with admissible selections the debug build's
`convert_next` returns what the exact one does.  Above the bound it need not:
with one phrase of frequency `2³¹` in a cover that the sort compares, every call
panics.
-/

namespace ChewingConversion

variable {Syllable : Type}

namespace Checked

/-- `first <= second` by `Ord for PossiblePath`: both scores are computed. -/
def scoreLe (first second : PossiblePath) : Option Bool := do
  let firstScore ← score first
  let secondScore ← score second
  pure (decide (firstScore ≤ secondScore))

/-- One insertion of the stable sort, with checked comparisons. -/
def orderedInsert (path : PossiblePath) : List PossiblePath → Option (List PossiblePath)
  | [] => some [path]
  | other :: paths => do
    if ← scoreLe path other then pure (path :: other :: paths)
    else (other :: ·) <$> orderedInsert path paths

/-- `trimmed_paths.sort()` with `i32` scores. -/
def sortPaths : List PossiblePath → Option (List PossiblePath)
  | [] => some []
  | path :: paths => do orderedInsert path (← sortPaths paths)

/-- `convert_next` in a debug build: the search of `Checked.findAllPaths` and the
sort with `i32` scores; `none` is a panic of either. -/
def convertNext (dict : Dictionary Syllable) (segment : ChineseSequence Syllable) (next : Nat) :
    Option (Except String (List Interval)) :=
  if segment.syllables.isEmpty then some (.ok [])
  else do
    match ← findAllPaths dict (segment.syllables.length + 1) Graph.empty segment 0
        segment.syllables.length none with
    | .error message => some (.error message)
    | .ok (_, paths) =>
      let sorted ← sortPaths (trimPaths paths)
      pure <| match cycleNth sorted.reverse next with
        | none => .error "should have path"
        | some path => .ok path.toIntervals

end Checked

/-! ### The checked sort -/

section Sorting

/-- A path whose `i32` score does not overflow. -/
def ScoresExactly (path : PossiblePath) : Prop :=
  Checked.score path = some path.score

theorem checkedOrderedInsert_eq {path : PossiblePath} (exact : ScoresExactly path) :
    ∀ {paths : List PossiblePath}, (∀ other ∈ paths, ScoresExactly other) →
      Checked.orderedInsert path paths =
        some (paths.orderedInsert (fun first second => first.score ≤ second.score) path)
  | [], _ => rfl
  | other :: paths, allExact => by
    have rest := checkedOrderedInsert_eq exact fun other member =>
      allExact other (List.mem_cons_of_mem _ member)
    have pathExact : Checked.score path = some path.score := exact
    have otherExact : Checked.score other = some other.score :=
      allExact other (List.mem_cons_self _ _)
    by_cases le : path.score ≤ other.score <;>
      simp [Checked.orderedInsert, Checked.scoreLe, pathExact, otherExact, le, rest]

theorem checkedSortPaths_eq : ∀ {paths : List PossiblePath}, (∀ path ∈ paths, ScoresExactly path) →
    Checked.sortPaths paths = some (sortPaths paths)
  | [], _ => rfl
  | path :: paths, allExact => by
    have rest := checkedSortPaths_eq fun other member =>
      allExact other (List.mem_cons_of_mem _ member)
    rw [Checked.sortPaths, rest]
    exact checkedOrderedInsert_eq (allExact path (List.mem_cons_self _ _)) fun other member =>
      allExact other (List.mem_cons_of_mem _ ((List.perm_insertionSort _ _).subset member))

end Sorting

section Bound

variable {dict : Dictionary Syllable} {seq : ChineseSequence Syllable}
  (emptyLookup : dict.lookupPhrase [] = [])
  (admissible : ∀ selection ∈ seq.selections, selection.Admissible)
  (bound : 25 * seq.syllables.length ^ 2 + 7000 * seq.syllables.length +
    ((findIntervals dict seq).map fun interval => interval.phrase.freq).sum < 2 ^ 31)
include emptyLookup admissible bound

/-- On a non-empty input the debug build's search is the exact one, and every path
its sort compares is a chain of grid intervals that scores exactly. -/
theorem checkedConvertNext_eq_of_nonempty (nonempty : 0 < seq.syllables.length) (next : Nat) :
    Checked.convertNext dict seq next = some (convertNext dict seq next) := by
  have notEmpty : seq.syllables.isEmpty = false :=
    Bool.not_eq_true _ ▸ mt List.isEmpty_iff.mp (List.ne_nil_of_length_pos nonempty)
  obtain ⟨graph, -, search⟩ := findAllPaths_eq emptyLookup (seq.syllables.length + 1)
    Graph.empty 0 seq.syllables.length none (by omega) (Nat.zero_le _)
    (Graph.consistent_empty dict seq) (Or.inl nonempty)
  have covers : findAllPaths dict (seq.syllables.length + 1) Graph.empty seq 0
      seq.syllables.length none = .ok (graph, gridCovers dict seq) := search
  have allExact : ∀ path ∈ trimPaths (gridCovers dict seq), ScoresExactly path := by
    intro path member
    rw [trimPaths_eq_maximalPaths (containsOrder_gridCovers emptyLookup)] at member
    obtain ⟨chain, grid⟩ := (mem_gridCovers_iff emptyLookup).mp (List.mem_of_mem_filter member)
    exact checkedScore_eq_of_isChain bound chain le_rfl fun interval inPath =>
      mem_findIntervals.mpr ⟨by have := chain.bounds interval inPath; omega,
        (chain.bounds interval inPath).2.1.le, grid interval inPath⟩
  simp only [Checked.convertNext, convertNext, notEmpty, checkedFindAllPaths_eq admissible, covers,
    checkedSortPaths_eq allExact, Option.bind_eq_bind, Option.some_bind, Bool.false_eq_true,
    if_false]
  rfl

end Bound

/-- With a dictionary that has no phrase for no syllables, admissible selections,
and under `25 n² + 7000 n + F < 2^31`, where `F` sums the frequencies of the
candidate grid, `convert_next` as a debug build runs it, with the selection loop's
assertions and the sort's `i32` scores, never panics, and returns what the exact
model does for every `next`. -/
theorem checkedConvertNext_eq_convertNext (dict : Dictionary Syllable)
    (seq : ChineseSequence Syllable) (emptyLookup : dict.lookupPhrase [] = [])
    (admissible : ∀ selection ∈ seq.selections, selection.Admissible)
    (bound : 25 * seq.syllables.length ^ 2 + 7000 * seq.syllables.length +
      ((findIntervals dict seq).map fun interval => interval.phrase.freq).sum < 2 ^ 31)
    (next : Nat) :
    Checked.convertNext dict seq next = some (convertNext dict seq next) := by
  rcases Nat.eq_zero_or_pos seq.syllables.length with empty | nonempty
  · have noSyllables : seq.syllables.isEmpty = true :=
      List.isEmpty_iff.mpr (List.eq_nil_of_length_eq_zero empty)
    simp only [Checked.convertNext, convertNext, noSyllables, if_true]
  · exact checkedConvertNext_eq_of_nonempty emptyLookup admissible bound nonempty next

theorem checkedConvertNext_eq_convertNext_ceshi :
    testDictionary.lookupPhrase [] = [] ∧
    (∀ selection ∈ [(⟨0, 2, "測試"⟩ : Interval)], selection.Admissible) ∧
    25 * 4 ^ 2 + 7000 * 4 + ((findIntervals testDictionary
      ⟨["ㄘㄜˋ", "ㄕˋ", "ㄧˊ", "ㄒㄧㄚˋ"], [⟨0, 2, "測試"⟩], []⟩).map
        fun interval => interval.phrase.freq).sum < 2 ^ 31 ∧
    Checked.convertNext testDictionary ⟨["ㄘㄜˋ", "ㄕˋ", "ㄧˊ", "ㄒㄧㄚˋ"], [⟨0, 2, "測試"⟩], []⟩ 1 =
      some (convertNext testDictionary ⟨["ㄘㄜˋ", "ㄕˋ", "ㄧˊ", "ㄒㄧㄚˋ"], [⟨0, 2, "測試"⟩], []⟩ 1) :=
  ⟨rfl, by decide, by decide,
    checkedConvertNext_eq_convertNext testDictionary _ rfl (by decide) (by decide) 1⟩

/-! ### The alternatives the debug build offers -/

/-- With a dictionary that has no phrase for no syllables, admissible selections and
under the bound, `convert_next` as a debug build runs it panics with `should have
path` when the grid has no cover; otherwise, with `M` the maximal grid covers in the
order of the search and `S` the same covers by decreasing score, ties in the reverse
order, `convert_next(seq, k)` is `S[k mod |M|]`.  So it repeats with period `|M|`,
and its alternatives are distinct covers none of which contains another. -/
theorem convertNext_cycles_maximal_covers (dict : Dictionary Syllable)
    (seq : ChineseSequence Syllable) (emptyLookup : dict.lookupPhrase [] = [])
    (nonempty : 0 < seq.syllables.length)
    (admissible : ∀ selection ∈ seq.selections, selection.Admissible)
    (bound : 25 * seq.syllables.length ^ 2 + 7000 * seq.syllables.length +
      ((findIntervals dict seq).map fun interval => interval.phrase.freq).sum < 2 ^ 31) :
    ((∀ path, ¬IsGridCover dict seq path) →
      ∀ next, Checked.convertNext dict seq next = some (.error "should have path")) ∧
    ((∃ path, IsGridCover dict seq path) →
      ∃ maximal ranked : List PossiblePath,
        (∀ path, path ∈ maximal ↔ IsMaximalCover dict seq path) ∧
        maximal.Pairwise (fun first second => List.lt first.ends second.ends) ∧
        IsRanking maximal ranked ∧ 0 < maximal.length ∧
        (∀ next, Checked.convertNext dict seq next =
          some (.ok (ranked.getD (next % maximal.length) default).toIntervals)) ∧
        (∀ next, Checked.convertNext dict seq (next + maximal.length) =
          Checked.convertNext dict seq next) ∧
        maximal.Nodup ∧
        ∀ path ∈ maximal, ∀ other ∈ maximal, other ≠ path → other.contains path = false) := by
  have checked := checkedConvertNext_eq_of_nonempty emptyLookup admissible bound nonempty
  obtain ⟨uncovered, covered⟩ := convertNext_cycle_spec dict seq emptyLookup nonempty
  refine ⟨fun noCover next => by rw [checked, uncovered noCover], fun someCover => ?_⟩
  obtain ⟨maximal, ranked, member, sorted, ranking, positive, converted, periodic, nodup,
    incomparable⟩ := covered someCover
  exact ⟨maximal, ranked, member, sorted, ranking, positive,
    fun next => by rw [checked, converted], fun next => by rw [checked, checked, periodic],
    nodup, incomparable⟩

/-- The source's cycling test: `測試一下` has the two maximal covers `測試 一下` and
`測試儀 下`, and `convert_next` alternates between them. -/
theorem convertNext_cycles_maximal_covers_ceshi :
    testDictionary.lookupPhrase [] = [] ∧ 0 < 4 ∧
    (∀ selection ∈ ([] : List Interval), selection.Admissible) ∧
    25 * 4 ^ 2 + 7000 * 4 + ((findIntervals testDictionary
      ⟨["ㄘㄜˋ", "ㄕˋ", "ㄧˊ", "ㄒㄧㄚˋ"], [], []⟩).map fun interval => interval.phrase.freq).sum <
        2 ^ 31 ∧
    ((∀ path, ¬IsGridCover testDictionary ⟨["ㄘㄜˋ", "ㄕˋ", "ㄧˊ", "ㄒㄧㄚˋ"], [], []⟩ path) →
      ∀ next, Checked.convertNext testDictionary ⟨["ㄘㄜˋ", "ㄕˋ", "ㄧˊ", "ㄒㄧㄚˋ"], [], []⟩ next =
        some (.error "should have path")) ∧
    ((∃ path, IsGridCover testDictionary ⟨["ㄘㄜˋ", "ㄕˋ", "ㄧˊ", "ㄒㄧㄚˋ"], [], []⟩ path) →
      ∃ maximal ranked : List PossiblePath,
        (∀ path, path ∈ maximal ↔
          IsMaximalCover testDictionary ⟨["ㄘㄜˋ", "ㄕˋ", "ㄧˊ", "ㄒㄧㄚˋ"], [], []⟩ path) ∧
        maximal.Pairwise (fun first second => List.lt first.ends second.ends) ∧
        IsRanking maximal ranked ∧ 0 < maximal.length ∧
        (∀ next, Checked.convertNext testDictionary ⟨["ㄘㄜˋ", "ㄕˋ", "ㄧˊ", "ㄒㄧㄚˋ"], [], []⟩ next =
          some (.ok (ranked.getD (next % maximal.length) default).toIntervals)) ∧
        (∀ next, Checked.convertNext testDictionary ⟨["ㄘㄜˋ", "ㄕˋ", "ㄧˊ", "ㄒㄧㄚˋ"], [], []⟩
            (next + maximal.length) =
          Checked.convertNext testDictionary ⟨["ㄘㄜˋ", "ㄕˋ", "ㄧˊ", "ㄒㄧㄚˋ"], [], []⟩ next) ∧
        maximal.Nodup ∧
        ∀ path ∈ maximal, ∀ other ∈ maximal, other ≠ path → other.contains path = false) :=
  ⟨rfl, by decide, by decide, by decide,
    convertNext_cycles_maximal_covers testDictionary _ rfl (by decide) (by decide) (by decide)⟩

/-- The source's test dictionary with `測試` at frequency `2³¹`, a legal `u32`. -/
def bigDictionary : Dictionary String where
  lookupPhrase syllables :=
    if syllables = ["ㄘㄜˋ", "ㄕˋ"] then [⟨"測試", 2147483648⟩]
    else testDictionary.lookupPhrase syllables

/-- On `測試一下` with `測試` at `2³¹` the grid has covers, and the exact model offers
`測試 一下` first, but the sort computes the score of `測試 一下`, whose frequency sum
does not fit in `i32`: `convert_next` panics for every `next`. -/
theorem convertNext_panics_big :
    bigDictionary.lookupPhrase [] = [] ∧
    IsGridCover bigDictionary ⟨["ㄘㄜˋ", "ㄕˋ", "ㄧˊ", "ㄒㄧㄚˋ"], [], []⟩
      ⟨[⟨0, 2, ⟨"測試", 2147483648⟩⟩, ⟨2, 4, ⟨"一下", 10576⟩⟩]⟩ ∧
    convertNext bigDictionary ⟨["ㄘㄜˋ", "ㄕˋ", "ㄧˊ", "ㄒㄧㄚˋ"], [], []⟩ 0 =
      .ok [⟨0, 2, "測試"⟩, ⟨2, 4, "一下"⟩] ∧
    ∀ next, Checked.convertNext bigDictionary ⟨["ㄘㄜˋ", "ㄕˋ", "ㄧˊ", "ㄒㄧㄚˋ"], [], []⟩ next = none :=
  ⟨rfl, by decide, rfl, fun _ => rfl⟩

end ChewingConversion
