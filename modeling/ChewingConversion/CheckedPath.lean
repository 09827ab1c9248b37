import ChewingConversion.CheckedScore
import ChewingConversion.CheckedSearch
import ChewingConversion.BestPathOrder
import ChewingConversion.Boundaries

/-!
# The best path in fixed-width arithmetic

`find_best_path` keeps its table in a vector of `len + 1` paths, indexes it at
every interval's start and end, and compares `score()`s, which compute in `i32`.
Here the vector is a list, and an index out of it panics as an overflow does:
both are `none`.

Every entry of the exact table is a chain of distinct grid intervals inside
`[0, len]`, so its total length is at most `len` and its frequency sum at most
that of the whole grid.  Under `25 len² + 7000 len + F < 2³¹`, where `F` is the
frequency sum of the grid, no score the loop computes overflows, no index leaves
the vector, and with admissible selections, on which `Checked.findIntervals` is the
exact grid, the checked conversion is the exact one.
-/

namespace ChewingConversion

variable {Syllable : Type}

namespace Checked

/-- One iteration of the loop of `find_best_path` on the vector `highest_score`. -/
def relaxInterval (highestScore : List PossiblePath) (interval : PossibleInterval) :
    Option (List PossiblePath) := do
  let candidatePath := (← highestScore[interval.start]?).push interval
  if (← score (← highestScore[interval.end]?)) < (← score candidatePath) then
    return highestScore.set interval.end candidatePath
  else
    return highestScore

/-- `find_best_path`: the vector starts as `len + 1` empty paths, and `pop` takes
its last entry. -/
def findBestPath (len : Nat) (intervals : List PossibleInterval) : Option (List Interval) := do
  let highestScore ← (intervals.insertionSort fun a b => a.end ≤ b.end).foldlM relaxInterval
    (List.replicate (len + 1) default)
  let path ← highestScore.getLast?
  return path.toIntervals

/-- `convert` in a debug build: the grid of `Checked.findIntervals`, then the
checked loop. -/
def convert (dict : Dictionary Syllable) (segment : ChineseSequence Syllable) :
    Option (List Interval) :=
  if segment.syllables.isEmpty then some []
  else do findBestPath segment.syllables.length (← findIntervals dict segment)

end Checked

/-! ### The vector of the table -/

/-- The vector of the table's entries at `0, …, len`. -/
def tableVector (len : Nat) (highestScore : Nat → PossiblePath) : List PossiblePath :=
  (List.range (len + 1)).map highestScore

section Vector

variable {len : Nat} {highestScore : Nat → PossiblePath}

theorem getElem?_tableVector {position : Nat} (inside : position ≤ len) :
    (tableVector len highestScore)[position]? = some (highestScore position) := by
  rw [tableVector, List.getElem?_map, List.getElem?_range (by omega), Option.map_some']

theorem tableVector_set {position : Nat} (inside : position ≤ len) (path : PossiblePath) :
    (tableVector len highestScore).set position path =
      tableVector len (Function.update highestScore position path) := by
  apply List.ext_getElem?
  intro index
  by_cases same : index = position
  · subst same
    rw [List.getElem?_set_self (by simp [tableVector]; omega), getElem?_tableVector inside,
      Function.update_same]
  · rw [List.getElem?_set_ne (Ne.symm same)]
    by_cases indexLe : index ≤ len
    · rw [getElem?_tableVector indexLe, getElem?_tableVector indexLe,
        Function.update_noteq same]
    · have outside : (List.range (len + 1))[index]? = none :=
        List.getElem?_eq_none (by rw [List.length_range]; omega)
      simp only [tableVector, List.getElem?_map, outside, Option.map_none']

theorem replicate_eq_tableVector :
    List.replicate (len + 1) default = tableVector len fun _ => default := by
  simp [tableVector, List.map_const']

theorem getLast?_tableVector :
    (tableVector len highestScore).getLast? = some (highestScore len) := by
  simp [tableVector, List.getLast?_range]

end Vector

/-- A checked step on the vector of a table is the exact step, when the two
scores it compares do not overflow. -/
theorem checkedRelaxInterval_tableVector {len : Nat} {highestScore : Nat → PossiblePath}
    {interval : PossibleInterval} (endLe : interval.end ≤ len) (startLe : interval.start ≤ len)
    (entryScore : Checked.score (highestScore interval.end) =
      some (highestScore interval.end).score)
    (candidateScore : Checked.score ((highestScore interval.start).push interval) =
      some ((highestScore interval.start).push interval).score) :
    Checked.relaxInterval (tableVector len highestScore) interval =
      some (tableVector len (relaxInterval highestScore interval)) := by
  by_cases better : (highestScore interval.end).score <
      ((highestScore interval.start).push interval).score
  · simp [Checked.relaxInterval, getElem?_tableVector, startLe, endLe, entryScore,
      candidateScore, better, relaxInterval_of_lt better, tableVector_set endLe]
  · simp [Checked.relaxInterval, getElem?_tableVector, startLe, endLe, entryScore,
      candidateScore, better, relaxInterval_of_not_lt better]

/-! ### The scores the loop computes -/

/-- The lengths of a chain add up to its span. -/
theorem IsChain.sum_len : ∀ {start target : Nat} {intervals : List PossibleInterval},
    IsChain start target intervals → (intervals.map PossibleInterval.len).sum = target - start
  | _, _, [], rfl => by simp
  | _, _, interval :: _, ⟨startEq, startLt, rest⟩ => by
    have := rest.le
    rw [List.map_cons, List.sum_cons, rest.sum_len, PossibleInterval.len]
    omega

/-- The intervals of a chain are distinct. -/
theorem IsChain.nodup {start target : Nat} {intervals : List PossibleInterval}
    (chain : IsChain start target intervals) : intervals.Nodup :=
  chain.pairwise.imp_of_mem fun {first _} member _ separated same => by
    have := (chain.bounds first member).2.1
    subst same
    omega

/-- Distinct intervals drawn from a list weigh at most as much as the list. -/
theorem freqSum_le_of_subset {intervals grid : List PossibleInterval} (nodup : intervals.Nodup)
    (subset : intervals ⊆ grid) :
    (intervals.map fun interval => interval.phrase.freq).sum ≤
      (grid.map fun interval => interval.phrase.freq).sum := by
  obtain ⟨common, perm, sublist⟩ := List.subperm_of_subset nodup subset
  rw [← (perm.map _).sum_eq]
  exact (sublist.map _).sum_le_sum fun _ _ => Nat.zero_le _

section Loop

variable {len : Nat} {grid : List PossibleInterval}
  (bound : 25 * len ^ 2 + 7000 * len + (grid.map fun interval => interval.phrase.freq).sum <
    2 ^ 31)
include bound

/-- A chain of grid intervals inside `[0, len]` scores without overflow. -/
theorem checkedScore_eq_of_isChain {path : PossiblePath} {origin target : Nat}
    (chain : IsChain origin target path.intervals) (targetLe : target ≤ len)
    (drawn : ∀ interval ∈ path.intervals, interval ∈ grid) :
    Checked.score path = some path.score := by
  have lenEq := chain.sum_len
  have freqLe := freqSum_le_of_subset chain.nodup drawn
  have squareLe := Nat.pow_le_pow_left
    (show (path.intervals.map PossibleInterval.len).sum ≤ len by omega) 2
  exact Checked.score_eq (fun interval member => (chain.bounds interval member).2.1) (by omega)

variable (inside : ∀ interval ∈ grid, interval.start < interval.end ∧ interval.end ≤ len)
include inside

/-- A checked step from a table that satisfies the recurrence over grid intervals
is the exact step: both scores it compares are of chains of grid intervals. -/
theorem checkedRelaxInterval_of_recurrence {processed : List PossibleInterval}
    {highestScore : Nat → PossiblePath} (recurrence : Recurrence processed highestScore)
    {interval : PossibleInterval} (drawn : ∀ other ∈ processed ++ [interval], other ∈ grid) :
    Checked.relaxInterval (tableVector len highestScore) interval =
      some (tableVector len (relaxInterval highestScore interval)) := by
  have inGrid := inside interval (drawn interval (by simp))
  have processedDrawn : ∀ other ∈ processed, other ∈ grid :=
    fun other member => drawn other (List.mem_append_left _ member)
  have entries := recurrence.exists_isChain fun other member =>
    (inside other (processedDrawn other member)).1
  obtain ⟨origin, startChain, startDrawn⟩ := entries interval.start
  obtain ⟨origin', endChain, endDrawn⟩ := entries interval.end
  have candidateChain : IsChain origin interval.end
      ((highestScore interval.start).push interval).intervals :=
    isChain_append_singleton.mpr ⟨startChain, inGrid.1, rfl⟩
  have candidateDrawn : ∀ other ∈ ((highestScore interval.start).push interval).intervals,
      other ∈ grid :=
    List.forall_mem_append.mpr ⟨fun other old => processedDrawn other (startDrawn other old),
      List.forall_mem_singleton.mpr (drawn interval (by simp))⟩
  exact checkedRelaxInterval_tableVector inGrid.2 (by omega)
    (checkedScore_eq_of_isChain bound endChain inGrid.2
      fun other member => processedDrawn other (endDrawn other member))
    (checkedScore_eq_of_isChain bound candidateChain inGrid.2 candidateDrawn)

/-- The checked loop runs as the exact one over intervals of the grid visited by
end, from a table that satisfies the recurrence. -/
theorem checkedFoldlM_relaxInterval (intervals : List PossibleInterval) :
    ∀ (processed : List PossibleInterval) (highestScore : Nat → PossiblePath),
      Recurrence processed highestScore → (∀ interval ∈ processed ++ intervals, interval ∈ grid) →
      (processed ++ intervals).Pairwise (fun a b => a.end ≤ b.end) →
      intervals.foldlM Checked.relaxInterval (tableVector len highestScore) =
        some (tableVector len (intervals.foldl relaxInterval highestScore)) := by
  induction intervals with
  | nil => intro _ _ _ _ _; rfl
  | cons interval intervals induction =>
    intro processed highestScore recurrence drawn sorted
    rw [List.append_cons] at drawn sorted
    have nonempty : ∀ other ∈ processed ++ [interval], other.start < other.end :=
      fun other member => (inside other (drawn other (List.mem_append_left _ member))).1
    have endLe : ∀ other ∈ processed, other.end ≤ interval.end := fun other member =>
      (List.pairwise_append.mp (List.pairwise_append.mp sorted).1).2.2 other member interval
        (List.mem_singleton_self _)
    rw [List.foldlM_cons, checkedRelaxInterval_of_recurrence bound inside recurrence
      fun other member => drawn other (List.mem_append_left _ member)]
    exact induction _ _ (recurrence.relax nonempty endLe) drawn sorted

end Loop

/-- Under the bound, the checked loop over the grid neither overflows nor indexes
out of its vector. -/
theorem checkedFindBestPath_findIntervals {dict : Dictionary Syllable}
    {seq : ChineseSequence Syllable} (emptyLookup : dict.lookupPhrase [] = [])
    (bound : 25 * seq.syllables.length ^ 2 + 7000 * seq.syllables.length +
      ((findIntervals dict seq).map fun interval => interval.phrase.freq).sum < 2 ^ 31) :
    Checked.findBestPath seq.syllables.length (findIntervals dict seq) =
      some (findBestPath seq.syllables.length (findIntervals dict seq)) := by
  have inside : ∀ interval ∈ findIntervals dict seq,
      interval.start < interval.end ∧ interval.end ≤ seq.syllables.length :=
    fun interval member => ⟨start_lt_end_of_mem_findIntervals emptyLookup member,
      (mem_findIntervals.mp member).2.2.1⟩
  have : IsTotal PossibleInterval fun a b => a.end ≤ b.end := ⟨fun a b => Nat.le_total _ _⟩
  have : IsTrans PossibleInterval fun a b => a.end ≤ b.end := ⟨fun _ _ _ => Nat.le_trans⟩
  have run := checkedFoldlM_relaxInterval bound inside
    ((findIntervals dict seq).insertionSort fun a b => a.end ≤ b.end) [] (fun _ => default)
    recurrence_initial (fun interval member => mem_insertionSort_end.mp (by simpa using member))
    (by simpa using List.sorted_insertionSort _ (findIntervals dict seq))
  simp only [Checked.findBestPath, replicate_eq_tableVector, run, Option.bind_eq_bind,
    Option.some_bind, getLast?_tableVector, findBestPath, highestScoreTable]
  rfl

/-- With admissible selections the debug build's grid is the exact one, and under
the bound its table is too. -/
theorem checkedConvert_eq_some_convert {dict : Dictionary Syllable}
    {seq : ChineseSequence Syllable} (emptyLookup : dict.lookupPhrase [] = [])
    (admissible : ∀ selection ∈ seq.selections, selection.Admissible)
    (bound : 25 * seq.syllables.length ^ 2 + 7000 * seq.syllables.length +
      ((findIntervals dict seq).map fun interval => interval.phrase.freq).sum < 2 ^ 31) :
    Checked.convert dict seq = some (convert dict seq) := by
  rw [Checked.convert, checkedFindIntervals_eq admissible, convert]
  split
  · rfl
  · exact checkedFindBestPath_findIntervals emptyLookup bound

/-- With a dictionary that has no phrase for no syllables, admissible selections,
and under `25 n² + 7000 n + F < 2³¹` with `F` the frequency sum of the grid,
`convert` as a debug build runs it, with the selection loop's assertions, `i32`
scores and a vector of `n + 1` paths, neither panics nor indexes out of its vector,
and returns the exact conversion. -/
theorem checkedConvert_eq_convert (dict : Dictionary Syllable) (seq : ChineseSequence Syllable)
    (emptyLookup : dict.lookupPhrase [] = [])
    (admissible : ∀ selection ∈ seq.selections, selection.Admissible)
    (bound : 25 * seq.syllables.length ^ 2 + 7000 * seq.syllables.length +
      ((findIntervals dict seq).map fun interval => interval.phrase.freq).sum < 2 ^ 31) :
    Checked.convert dict seq = some (convert dict seq) :=
  checkedConvert_eq_some_convert emptyLookup admissible bound

/-- `測試一下`, converted with `i32` scores. -/
theorem checkedConvert_eq_convert_ceshi :
    testDictionary.lookupPhrase [] = [] ∧
    (∀ selection ∈ ([] : List Interval), selection.Admissible) ∧
    25 * 4 ^ 2 + 7000 * 4 + ((findIntervals testDictionary
      ⟨["ㄘㄜˋ", "ㄕˋ", "ㄧˊ", "ㄒㄧㄚˋ"], [], []⟩).map fun interval => interval.phrase.freq).sum <
      2 ^ 31 ∧
    Checked.convert testDictionary ⟨["ㄘㄜˋ", "ㄕˋ", "ㄧˊ", "ㄒㄧㄚˋ"], [], []⟩ =
      some [⟨0, 2, "測試"⟩, ⟨2, 4, "一下"⟩] :=
  ⟨rfl, by decide, by decide,
    (checkedConvert_eq_convert testDictionary _ rfl (by decide) (by decide)).trans (by decide)⟩

/-- `find_best_path` as a debug build runs it solves the recurrence of its doc
comment, under the same bound: the conversion is the last entry of a table that
starts with the empty path, in which every entry is the empty path or the entry at
a grid interval's start extended by that interval, and no grid interval extends
the entry at its start beyond the score of the entry at its end. -/
theorem checkedConvert_solves_recurrence (dict : Dictionary Syllable)
    (seq : ChineseSequence Syllable) (emptyLookup : dict.lookupPhrase [] = [])
    (admissible : ∀ selection ∈ seq.selections, selection.Admissible)
    (bound : 25 * seq.syllables.length ^ 2 + 7000 * seq.syllables.length +
      ((findIntervals dict seq).map fun interval => interval.phrase.freq).sum < 2 ^ 31) :
    ∃ highestScore : Nat → PossiblePath,
      highestScore 0 = default ∧
      Checked.convert dict seq = some (highestScore seq.syllables.length).toIntervals ∧
      (∀ position, highestScore position = default ∨
        ∃ interval, InGrid dict seq interval ∧ interval.start < interval.end ∧
          interval.end = position ∧
          highestScore position = (highestScore interval.start).push interval) ∧
      ∀ interval, InGrid dict seq interval → interval.start < interval.end →
        ((highestScore interval.start).push interval).score ≤
          (highestScore interval.end).score := by
  obtain ⟨highestScore, initial, converted, shape, optimal⟩ :=
    exists_recurrence_table dict seq emptyLookup
  exact ⟨highestScore, initial, by rw [checkedConvert_eq_some_convert emptyLookup admissible bound,
    converted], shape, optimal⟩

theorem checkedConvert_solves_recurrence_guomin :
    testDictionary.lookupPhrase [] = [] ∧
    (∀ selection ∈ [(⟨0, 2, "國民"⟩ : Interval)], selection.Admissible) ∧
    25 * 2 ^ 2 + 7000 * 2 + ((findIntervals testDictionary
      ⟨["ㄍㄨㄛˊ", "ㄇㄧㄣˊ"], [⟨0, 2, "國民"⟩], []⟩).map fun interval => interval.phrase.freq).sum <
      2 ^ 31 ∧
    ∃ highestScore : Nat → PossiblePath,
      highestScore 0 = default ∧
      Checked.convert testDictionary ⟨["ㄍㄨㄛˊ", "ㄇㄧㄣˊ"], [⟨0, 2, "國民"⟩], []⟩ =
        some (highestScore 2).toIntervals ∧
      (∀ position, highestScore position = default ∨
        ∃ interval, InGrid testDictionary ⟨["ㄍㄨㄛˊ", "ㄇㄧㄣˊ"], [⟨0, 2, "國民"⟩], []⟩ interval ∧
          interval.start < interval.end ∧ interval.end = position ∧
          highestScore position = (highestScore interval.start).push interval) ∧
      ∀ interval, InGrid testDictionary ⟨["ㄍㄨㄛˊ", "ㄇㄧㄣˊ"], [⟨0, 2, "國民"⟩], []⟩ interval →
        interval.start < interval.end →
        ((highestScore interval.start).push interval).score ≤
          (highestScore interval.end).score :=
  ⟨rfl, by decide, by decide,
    checkedConvert_solves_recurrence testDictionary _ rfl (by decide) (by decide)⟩

end ChewingConversion
