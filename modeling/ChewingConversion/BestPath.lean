import ChewingConversion.Grid
import Mathlib.Data.List.Sort

/-!
# The best path: `find_best_path` and `convert`

`find_best_path` keeps a table `highest_score` with one path per position.  It
visits the candidate intervals in increasing order of their end and extends
the path kept at an interval's start by the interval; the result replaces the
path kept at the interval's end when it scores strictly higher.  The entry at
the last position is the conversion.

Its doc comment states the recurrence `P(0,y) = MAX(P(0,s) + P(s,y))` over the
intervals `[s, y)`.  The table is modelled as a function of the position: the
vector of `len + 1` paths is only read and written at interval ends and starts,
which never exceed `len`.
-/

namespace ChewingConversion

variable {Syllable : Type}

/-- One iteration of the loop of `find_best_path`. -/
def relaxInterval (highestScore : Nat → PossiblePath) (interval : PossibleInterval) :
    Nat → PossiblePath :=
  let candidatePath := (highestScore interval.start).push interval
  if (highestScore interval.end).score < candidatePath.score then
    Function.update highestScore interval.end candidatePath
  else highestScore

/-- The table `highest_score` after the loop of `find_best_path`.  The stable
`sort_by` on interval ends is an insertion sort: every stable sort returns the
same list. -/
def highestScoreTable (intervals : List PossibleInterval) : Nat → PossiblePath :=
  (intervals.insertionSort fun a b => a.end ≤ b.end).foldl relaxInterval fun _ => default

/-- `highest_score.pop()`: the entry at the last position, converted. -/
def findBestPath (len : Nat) (intervals : List PossibleInterval) : List Interval :=
  (highestScoreTable intervals len).toIntervals

def convert (dict : Dictionary Syllable) (segment : ChineseSequence Syllable) : List Interval :=
  if segment.syllables.isEmpty then []
  else findBestPath segment.syllables.length (findIntervals dict segment)

/-! ### One relaxation step -/

section Relax

variable (highestScore : Nat → PossiblePath) (interval : PossibleInterval)

theorem relaxInterval_of_ne {position : Nat} (ne : position ≠ interval.end) :
    relaxInterval highestScore interval position = highestScore position := by
  unfold relaxInterval
  split <;> simp [Function.update_noteq ne]

theorem relaxInterval_end :
    relaxInterval highestScore interval interval.end = highestScore interval.end ∨
      relaxInterval highestScore interval interval.end =
        (highestScore interval.start).push interval := by
  unfold relaxInterval
  split <;> simp

theorem score_le_relaxInterval (position : Nat) :
    (highestScore position).score ≤ (relaxInterval highestScore interval position).score := by
  unfold relaxInterval
  split
  · rename_i better
    by_cases atEnd : position = interval.end
    · subst atEnd
      simpa using le_of_lt better
    · simp [Function.update_noteq atEnd]
  · exact le_refl _

theorem push_score_le_relaxInterval :
    ((highestScore interval.start).push interval).score ≤
      (relaxInterval highestScore interval interval.end).score := by
  unfold relaxInterval
  split
  · simp
  · rename_i notBetter
    exact le_of_not_lt notBetter

theorem relaxInterval_cases (position : Nat) :
    relaxInterval highestScore interval position = highestScore position ∨
      relaxInterval highestScore interval position =
        (highestScore interval.start).push interval := by
  by_cases atEnd : position = interval.end
  · subst atEnd
    exact relaxInterval_end highestScore interval
  · exact Or.inl (relaxInterval_of_ne highestScore interval atEnd)

end Relax

/-! ### The table after a run of steps -/

/-- What the table satisfies after the intervals `processed`: every entry is the
empty path or the extension of the entry at some processed interval's start by
that interval, and no processed interval extends the entry at its start to a
higher score than the entry at its end. -/
structure Recurrence (processed : List PossibleInterval) (highestScore : Nat → PossiblePath) :
    Prop where
  shape : ∀ position, highestScore position = default ∨
    ∃ interval ∈ processed, interval.end = position ∧
      highestScore position = (highestScore interval.start).push interval
  optimal : ∀ interval ∈ processed,
    ((highestScore interval.start).push interval).score ≤ (highestScore interval.end).score

theorem recurrence_initial : Recurrence [] fun _ => default :=
  ⟨fun _ => Or.inl rfl, fun _ member => absurd member (List.not_mem_nil _)⟩

/-- One step keeps the recurrence when the new interval is non-empty and ends no
earlier than every processed one. -/
theorem Recurrence.relax {processed : List PossibleInterval} {highestScore : Nat → PossiblePath}
    (recurrence : Recurrence processed highestScore) {interval : PossibleInterval}
    (nonempty : ∀ other ∈ processed ++ [interval], other.start < other.end)
    (sorted : ∀ other ∈ processed, other.end ≤ interval.end) :
    Recurrence (processed ++ [interval]) (relaxInterval highestScore interval) := by
  have startFixed : ∀ other ∈ processed ++ [interval],
      relaxInterval highestScore interval other.start = highestScore other.start := by
    intro other member
    apply relaxInterval_of_ne
    rcases List.mem_append.mp member with old | new
    · have := nonempty other member
      have := sorted other old
      omega
    · rw [List.mem_singleton.mp new]
      exact Nat.ne_of_lt (nonempty interval (by simp))
  constructor
  · intro position
    have keep : ∀ other ∈ processed, other.end = position →
        highestScore position = (highestScore other.start).push other →
        ∃ other ∈ processed ++ [interval], other.end = position ∧
          highestScore position =
            (relaxInterval highestScore interval other.start).push other :=
      fun other member endEq entry => ⟨other, List.mem_append_left _ member, endEq,
        by rw [startFixed other (List.mem_append_left _ member)]; exact entry⟩
    by_cases atEnd : position = interval.end
    · subst atEnd
      rcases relaxInterval_end highestScore interval with same | extended
      · rw [same]
        rcases recurrence.shape interval.end with empty | ⟨other, member, endEq, entry⟩
        · exact Or.inl empty
        · exact Or.inr (keep other member endEq entry)
      · refine Or.inr ⟨interval, by simp, rfl, ?_⟩
        rw [extended, startFixed interval (by simp)]
    · rw [relaxInterval_of_ne _ _ atEnd]
      rcases recurrence.shape position with empty | ⟨other, member, endEq, entry⟩
      · exact Or.inl empty
      · exact Or.inr (keep other member endEq entry)
  · intro other member
    rw [startFixed other member]
    rcases List.mem_append.mp member with old | new
    · exact le_trans (recurrence.optimal other old) (score_le_relaxInterval _ _ _)
    · rw [List.mem_singleton.mp new]
      exact push_score_le_relaxInterval _ _

theorem Recurrence.foldl : ∀ (intervals processed : List PossibleInterval)
    (highestScore : Nat → PossiblePath), Recurrence processed highestScore →
    (∀ other ∈ processed ++ intervals, other.start < other.end) →
    (processed ++ intervals).Pairwise (fun a b => a.end ≤ b.end) →
    Recurrence (processed ++ intervals) (intervals.foldl relaxInterval highestScore)
  | [], processed, highestScore, recurrence, _, _ => by simpa using recurrence
  | interval :: intervals, processed, highestScore, recurrence, nonempty, sorted => by
    have shift : processed ++ interval :: intervals = (processed ++ [interval]) ++ intervals := by
      simp
    rw [shift] at nonempty sorted ⊢
    apply Recurrence.foldl intervals _ _ _ nonempty sorted
    apply recurrence.relax (fun other member => nonempty other (List.mem_append_left _ member))
    intro other member
    exact (List.pairwise_append.mp (List.pairwise_append.mp sorted).1).2.2 other member interval
      (List.mem_singleton_self _)

/-- Every interval of every entry of the table is a processed interval. -/
theorem mem_of_mem_foldl_relaxInterval : ∀ (intervals processed : List PossibleInterval)
    (highestScore : Nat → PossiblePath),
    (∀ position, ∀ interval ∈ (highestScore position).intervals, interval ∈ processed) →
    ∀ position, ∀ interval ∈ ((intervals.foldl relaxInterval highestScore) position).intervals,
      interval ∈ processed ++ intervals
  | [], processed, _, drawn => by simpa using drawn
  | next :: intervals, processed, highestScore, drawn => by
    have shift : processed ++ next :: intervals = (processed ++ [next]) ++ intervals := by simp
    rw [shift]
    apply mem_of_mem_foldl_relaxInterval intervals
    intro position interval member
    rcases relaxInterval_cases highestScore next position with same | extended
    · rw [same] at member
      exact List.mem_append_left _ (drawn position interval member)
    · rw [extended, PossiblePath.push_intervals] at member
      rcases List.mem_append.mp member with old | new
      · exact List.mem_append_left _ (drawn _ interval old)
      · exact List.mem_append_right _ new

@[simp] theorem mem_insertionSort_end {interval : PossibleInterval}
    {intervals : List PossibleInterval} :
    interval ∈ intervals.insertionSort (fun a b => a.end ≤ b.end) ↔ interval ∈ intervals :=
  List.mem_insertionSort _

theorem recurrence_highestScoreTable {intervals : List PossibleInterval}
    (nonempty : ∀ interval ∈ intervals, interval.start < interval.end) :
    Recurrence (intervals.insertionSort fun a b => a.end ≤ b.end)
      (highestScoreTable intervals) := by
  have : IsTotal PossibleInterval fun a b => a.end ≤ b.end := ⟨fun a b => Nat.le_total _ _⟩
  have : IsTrans PossibleInterval fun a b => a.end ≤ b.end := ⟨fun _ _ _ => Nat.le_trans⟩
  simpa using Recurrence.foldl _ [] _ recurrence_initial
    (fun interval member => nonempty interval (by simpa using member))
    (by simpa using List.sorted_insertionSort _ intervals)

/-- Both branches of `convert` read the table: with no syllables there is no interval. -/
theorem convert_eq_highestScoreTable (dict : Dictionary Syllable) (seq : ChineseSequence Syllable) :
    convert dict seq =
      (highestScoreTable (findIntervals dict seq) seq.syllables.length).toIntervals := by
  unfold convert
  split
  · rename_i empty
    have noSyllables : seq.syllables = [] := List.isEmpty_iff.mp empty
    simp [findIntervals, noSyllables, highestScoreTable, PossiblePath.toIntervals]
  · rfl

/-- Every interval of the conversion is an interval of the candidate grid. -/
theorem mem_findIntervals_of_mem_convert {dict : Dictionary Syllable}
    {seq : ChineseSequence Syllable} {result : Interval} (member : result ∈ convert dict seq) :
    ∃ interval ∈ findIntervals dict seq, result = interval.toInterval := by
  rw [convert_eq_highestScoreTable, PossiblePath.toIntervals, List.mem_map] at member
  obtain ⟨interval, inPath, rfl⟩ := member
  refine ⟨interval, ?_, rfl⟩
  have drawn := mem_of_mem_foldl_relaxInterval _ [] (fun _ => default)
    (fun _ _ member => absurd member (List.not_mem_nil _)) _ interval inPath
  simpa using drawn

/-- `find_best_path` solves the recurrence of its doc comment: the conversion is the
last entry of a table that starts with the empty path, in which every entry is the
empty path or the entry at a grid interval's start extended by that interval, and
no grid interval extends the entry at its start beyond the score of the entry at
its end. -/
theorem exists_recurrence_table (dict : Dictionary Syllable) (seq : ChineseSequence Syllable)
    (emptyLookup : dict.lookupPhrase [] = []) :
    ∃ highestScore : Nat → PossiblePath,
      highestScore 0 = default ∧
      convert dict seq = (highestScore seq.syllables.length).toIntervals ∧
      (∀ position, highestScore position = default ∨
        ∃ interval, InGrid dict seq interval ∧ interval.start < interval.end ∧
          interval.end = position ∧
          highestScore position = (highestScore interval.start).push interval) ∧
      ∀ interval, InGrid dict seq interval → interval.start < interval.end →
        ((highestScore interval.start).push interval).score ≤
          (highestScore interval.end).score := by
  have nonempty : ∀ interval ∈ findIntervals dict seq, interval.start < interval.end :=
    fun _ member => start_lt_end_of_mem_findIntervals emptyLookup member
  have recurrence := recurrence_highestScoreTable nonempty
  refine ⟨highestScoreTable (findIntervals dict seq), ?_, convert_eq_highestScoreTable dict seq,
    ?_, ?_⟩
  · rcases recurrence.shape 0 with empty | ⟨interval, member, endEq, -⟩
    · exact empty
    · have := nonempty interval (mem_insertionSort_end.mp member)
      omega
  · intro position
    rcases recurrence.shape position with empty | ⟨interval, member, endEq, entry⟩
    · exact Or.inl empty
    · have inGrid := mem_insertionSort_end.mp member
      exact Or.inr ⟨interval, (mem_findIntervals.mp inGrid).2.2, nonempty interval inGrid,
        endEq, entry⟩
  · intro interval inGrid startLt
    apply recurrence.optimal
    rw [mem_insertionSort_end]
    exact mem_findIntervals.mpr ⟨by have := inGrid.1; omega, startLt.le, inGrid⟩

/-- A dictionary whose single characters are frequent and whose two-character
phrase is not. -/
def frequentSingles : Dictionary String where
  lookupPhrase
    | ["ㄘㄜˋ"] => [⟨"測", 1024000⟩]
    | ["ㄕˋ"] => [⟨"試", 512000⟩]
    | ["ㄧˊ"] => [⟨"儀", 0⟩]
    | ["ㄘㄜˋ", "ㄕˋ"] => [⟨"測試", 0⟩]
    | _ => []

/-- The recurrence is not a maximum over covers: the score is not additive, and
the two-character prefix `測試` wins at position 2 while the three single
characters win over the whole input.  Every single syllable has a phrase. -/
theorem convert_not_max_score :
    frequentSingles.lookupPhrase [] = [] ∧
    (∀ position < 3,
      (gridPhrase frequentSingles ⟨["ㄘㄜˋ", "ㄕˋ", "ㄧˊ"], [], []⟩ position (position + 1)).isSome) ∧
    convert frequentSingles ⟨["ㄘㄜˋ", "ㄕˋ", "ㄧˊ"], [], []⟩ =
      (⟨[⟨0, 2, ⟨"測試", 0⟩⟩, ⟨2, 3, ⟨"儀", 0⟩⟩]⟩ : PossiblePath).toIntervals ∧
    IsGridCover frequentSingles ⟨["ㄘㄜˋ", "ㄕˋ", "ㄧˊ"], [], []⟩
      ⟨[⟨0, 2, ⟨"測試", 0⟩⟩, ⟨2, 3, ⟨"儀", 0⟩⟩]⟩ ∧
    IsGridCover frequentSingles ⟨["ㄘㄜˋ", "ㄕˋ", "ㄧˊ"], [], []⟩
      ⟨[⟨0, 1, ⟨"測", 1024000⟩⟩, ⟨1, 2, ⟨"試", 512000⟩⟩, ⟨2, 3, ⟨"儀", 0⟩⟩]⟩ ∧
    (⟨[⟨0, 2, ⟨"測試", 0⟩⟩, ⟨2, 3, ⟨"儀", 0⟩⟩]⟩ : PossiblePath).score <
      (⟨[⟨0, 1, ⟨"測", 1024000⟩⟩, ⟨1, 2, ⟨"試", 512000⟩⟩, ⟨2, 3, ⟨"儀", 0⟩⟩]⟩ :
        PossiblePath).score := by
  decide

/-- A dictionary in which the single character `下` outweighs the phrase `一下`. -/
def heavySuffix : Dictionary String where
  lookupPhrase
    | ["ㄧˊ", "ㄒㄧㄚˋ"] => [⟨"一下", 0⟩]
    | ["ㄒㄧㄚˋ"] => [⟨"下", 5120000⟩]
    | _ => []

/-- The table starts a path at a position no path from `0` reaches, because its
entry there is still the empty path of score `0`.  With the source's test
dictionary `ㄘㄜˋ` has no phrase, and the conversion of `ㄘㄜˋ ㄧˊ ㄒㄧㄚˋ` is the
suffix `一下` alone; and such a suffix can displace a real cover. -/
theorem convert_returns_suffix :
    convert testDictionary ⟨["ㄘㄜˋ", "ㄧˊ", "ㄒㄧㄚˋ"], [], []⟩ = [⟨1, 3, "一下"⟩] ∧
    IsGridCover heavySuffix ⟨["ㄧˊ", "ㄒㄧㄚˋ"], [], []⟩ ⟨[⟨0, 2, ⟨"一下", 0⟩⟩]⟩ ∧
    convert heavySuffix ⟨["ㄧˊ", "ㄒㄧㄚˋ"], [], []⟩ = [⟨1, 2, "下"⟩] := by
  decide

end ChewingConversion
