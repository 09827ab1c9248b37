import ChewingConversion.BestPathOrder
import ChewingConversion.Alternatives

/-!
# The order of the dictionary's phrases

`find_best_phrase` keeps the first phrase of highest frequency, so the order in
which the dictionary lists its phrases decides between phrases of equal
frequency, and nothing else: the frequency of the phrase that a range holds does
not depend on it.  The score of a path reads only the ranges of its intervals
and the frequencies of their phrases, so neither does the table of
`find_best_path`.  Two dictionaries that list the same phrases for every
syllable sequence, in any orders, segment every input alike; only the texts of
equally frequent phrases may differ.
-/

namespace ChewingConversion

variable {Syllable : Type}

/-- What the score reads of an interval: its range and its phrase's frequency. -/
def PossibleInterval.shape (interval : PossibleInterval) : Nat × Nat × Nat :=
  (interval.start, interval.end, interval.phrase.freq)

theorem PossibleInterval.shape_eq_shape {interval interval' : PossibleInterval} :
    interval.shape = interval'.shape ↔ interval.start = interval'.start ∧
      interval.end = interval'.end ∧ interval.phrase.freq = interval'.phrase.freq := by
  simp [PossibleInterval.shape]

/-- What the score reads of a path. -/
def PossiblePath.shape (path : PossiblePath) : List (Nat × Nat × Nat) :=
  path.intervals.map PossibleInterval.shape

@[simp] theorem PossiblePath.shape_push (path : PossiblePath) (interval : PossibleInterval) :
    (path.push interval).shape = path.shape ++ [interval.shape] := by
  simp [PossiblePath.shape]

/-- The ranges of a path's intervals, read off its shape. -/
theorem PossiblePath.toIntervals_ranges (path : PossiblePath) :
    path.toIntervals.map (fun interval => (interval.start, interval.end)) =
      path.shape.map fun shape => (shape.1, shape.2.1) := by
  rw [PossiblePath.toIntervals, PossiblePath.shape, List.map_map, List.map_map]
  rfl

/-- Paths of one shape have one list of ranges. -/
theorem PossiblePath.ranges_eq_of_shape {path path' : PossiblePath}
    (same : path.shape = path'.shape) : path.ranges = path'.ranges := by
  have ranges : ∀ path : PossiblePath,
      path.ranges = path.shape.map fun shape => (shape.1, shape.2.1) := fun path => by
    rw [PossiblePath.ranges, PossiblePath.shape, List.map_map]
    rfl
  rw [ranges, ranges, same]

/-- Paths of one shape score alike. -/
theorem PossiblePath.score_eq_of_shape {path path' : PossiblePath}
    (same : path.shape = path'.shape) : path.score = path'.score := by
  have through : ∀ {β : Type} (g : Nat × Nat × Nat → β),
      path.intervals.map (g ∘ PossibleInterval.shape) =
        path'.intervals.map (g ∘ PossibleInterval.shape) := fun g => by
    rw [← List.map_map, ← List.map_map]
    exact congrArg _ same
  have lens : path.intervals.map PossibleInterval.len = path'.intervals.map PossibleInterval.len :=
    through fun shape => shape.2.1 - shape.1
  have reduced : path.intervals.map reducedFreq = path'.intervals.map reducedFreq :=
    through fun shape => shape.2.2 / if shape.2.1 - shape.1 = 1 then 512 else 1
  have lengths : path.intervals.length = path'.intervals.length := by
    simpa [PossiblePath.shape] using congrArg List.length same
  have empties : path.intervals.isEmpty = path'.intervals.isEmpty := by
    rw [Bool.eq_iff_iff, List.isEmpty_iff_length_eq_zero, List.isEmpty_iff_length_eq_zero, lengths]
  simp only [PossiblePath.score, PossiblePath.ruleLargestSum, PossiblePath.ruleLargestAvgwordlen,
    PossiblePath.ruleSmallestLenvariance, PossiblePath.ruleLargestFreqsum, lens, reduced, lengths,
    empties]

/-! ### The grid -/

/-- The best of two permutations of one list of candidates have one frequency. -/
theorem IsBestOf.map_freq_eq_of_perm {candidates candidates' : List Phrase}
    (perm : candidates.Perm candidates') :
    ∀ {found found' : Option Phrase}, IsBestOf candidates found → IsBestOf candidates' found' →
      found.map Phrase.freq = found'.map Phrase.freq
  | none, none, _, _ => rfl
  | none, some _, empty, first' =>
    absurd (perm.symm.subset first'.mem) (by rw [show candidates = [] from empty]; simp)
  | some _, none, first, empty' =>
    absurd (perm.subset first.mem) (by rw [show candidates' = [] from empty']; simp)
  | some phrase, some phrase', first, first' =>
    congrArg some (Nat.le_antisymm (first'.le phrase (perm.subset first.mem))
      (first.le phrase' (perm.symm.subset first'.mem)))

section Permuted

variable {dict dict' : Dictionary Syllable}
  (perm : ∀ syllables, (dict.lookupPhrase syllables).Perm (dict'.lookupPhrase syllables))
include perm

theorem findBestPhrase_freq_eq (start : Nat) (syllables : List Syllable)
    (selections : List Interval) (breaks : List Break) :
    (findBestPhrase dict start syllables selections breaks).map Phrase.freq =
      (findBestPhrase dict' start syllables selections breaks).map Phrase.freq := by
  obtain ⟨free, blocked⟩ := findBestPhrase_spec dict start syllables selections breaks
  obtain ⟨free', blocked'⟩ := findBestPhrase_spec dict' start syllables selections breaks
  by_cases breakFree : BreakFree breaks start (start + syllables.length)
  · exact IsBestOf.map_freq_eq_of_perm ((perm syllables).filter _) (free breakFree)
      (free' breakFree)
  · rw [blocked breakFree, blocked' breakFree]

/-- The two grids hold the same ranges, in the same order, with phrases of the
same frequencies. -/
theorem findIntervals_shape (seq : ChineseSequence Syllable) :
    (findIntervals dict seq).map PossibleInterval.shape =
      (findIntervals dict' seq).map PossibleInterval.shape := by
  simp only [findIntervals, List.map_flatMap, List.map_filterMap, Option.map_map]
  congr 1
  funext begin
  congr 1
  funext «end»
  have factor : PossibleInterval.shape ∘ (fun phrase => ⟨begin, «end», phrase⟩) =
      (fun freq => (begin, «end», freq)) ∘ Phrase.freq := rfl
  rw [factor, ← Option.map_map, ← Option.map_map, findBestPhrase_freq_eq perm]

end Permuted

/-! ### The table -/

/-- Relaxing intervals of one shape keeps two tables of one shape. -/
theorem relaxInterval_shape {highestScore highestScore' : Nat → PossiblePath}
    (same : ∀ position, (highestScore position).shape = (highestScore' position).shape)
    {interval interval' : PossibleInterval} (sameInterval : interval.shape = interval'.shape)
    (position : Nat) :
    (relaxInterval highestScore interval position).shape =
      (relaxInterval highestScore' interval' position).shape := by
  obtain ⟨startEq, endEq, -⟩ := PossibleInterval.shape_eq_shape.mp sameInterval
  have candidate : ((highestScore interval.start).push interval).shape =
      ((highestScore' interval'.start).push interval').shape := by
    rw [PossiblePath.shape_push, PossiblePath.shape_push, same, startEq, sameInterval]
  have sameTest : (highestScore interval.end).score <
        ((highestScore interval.start).push interval).score ↔
      (highestScore' interval'.end).score <
        ((highestScore' interval'.start).push interval').score := by
    rw [← endEq, PossiblePath.score_eq_of_shape candidate,
      PossiblePath.score_eq_of_shape (same interval.end)]
  by_cases better : (highestScore interval.end).score <
      ((highestScore interval.start).push interval).score
  · rw [relaxInterval_of_lt better, relaxInterval_of_lt (sameTest.mp better), ← endEq]
    by_cases atEnd : position = interval.end
    · rw [atEnd, Function.update_same, Function.update_same, candidate]
    · rw [Function.update_noteq atEnd, Function.update_noteq atEnd, same]
  · rw [relaxInterval_of_not_lt better, relaxInterval_of_not_lt (mt sameTest.mpr better), same]

theorem foldl_relaxInterval_shape : ∀ (intervals intervals' : List PossibleInterval)
    (highestScore highestScore' : Nat → PossiblePath),
    intervals.map PossibleInterval.shape = intervals'.map PossibleInterval.shape →
    (∀ position, (highestScore position).shape = (highestScore' position).shape) →
    ∀ position, (intervals.foldl relaxInterval highestScore position).shape =
      (intervals'.foldl relaxInterval highestScore' position).shape
  | [], [], _, _, _, same => same
  | [], _ :: _, _, _, shapes, _ => by simp at shapes
  | _ :: _, [], _, _, shapes, _ => by simp at shapes
  | interval :: intervals, interval' :: intervals', highestScore, highestScore', shapes, same => by
    simp only [List.map_cons, List.cons.injEq] at shapes
    exact foldl_relaxInterval_shape intervals intervals' _ _ shapes.2
      (relaxInterval_shape same shapes.1)

/-- Two dictionaries that list the same phrases for every syllable sequence, in
any orders, give every input the same segmentation: `convert` returns the same
ranges, and the path of `find_best_path`'s table that it converts carries
phrases of the same frequencies on them. -/
theorem convert_segmentation_independent_of_order (dict dict' : Dictionary Syllable)
    (perm : ∀ syllables, (dict.lookupPhrase syllables).Perm (dict'.lookupPhrase syllables))
    (seq : ChineseSequence Syllable) :
    (convert dict seq).map (fun interval => (interval.start, interval.end)) =
      (convert dict' seq).map (fun interval => (interval.start, interval.end)) ∧
    (highestScoreTable (findIntervals dict seq) seq.syllables.length).intervals.map
        (fun interval => interval.phrase.freq) =
      (highestScoreTable (findIntervals dict' seq) seq.syllables.length).intervals.map
        (fun interval => interval.phrase.freq) := by
  have sorted : ((findIntervals dict seq).insertionSort fun a b => a.end ≤ b.end).map
      PossibleInterval.shape =
      ((findIntervals dict' seq).insertionSort fun a b => a.end ≤ b.end).map
        PossibleInterval.shape := by
    rw [List.map_insertionSort (fun a b : PossibleInterval => a.end ≤ b.end)
        (fun a b : Nat × Nat × Nat => a.2.1 ≤ b.2.1) _ _ fun _ _ _ _ => Iff.rfl,
      List.map_insertionSort (fun a b : PossibleInterval => a.end ≤ b.end)
        (fun a b : Nat × Nat × Nat => a.2.1 ≤ b.2.1) _ _ fun _ _ _ _ => Iff.rfl,
      findIntervals_shape perm]
  have tables : (highestScoreTable (findIntervals dict seq) seq.syllables.length).shape =
      (highestScoreTable (findIntervals dict' seq) seq.syllables.length).shape :=
    foldl_relaxInterval_shape _ _ (fun _ => default) (fun _ => default) sorted (fun _ => rfl) _
  have freqs : ∀ path : PossiblePath, path.intervals.map (fun interval => interval.phrase.freq) =
      path.shape.map fun shape => shape.2.2 := fun path => by
    rw [PossiblePath.shape, List.map_map]
    rfl
  rw [convert_eq_highestScoreTable, convert_eq_highestScoreTable, PossiblePath.toIntervals_ranges,
    PossiblePath.toIntervals_ranges, freqs, freqs, tables]
  exact ⟨rfl, rfl⟩

/-- The source's test dictionary with every list of phrases reversed. -/
def reversedTestDictionary : Dictionary String where
  lookupPhrase syllables := (testDictionary.lookupPhrase syllables).reverse

theorem convert_segmentation_independent_of_order_guomin :
    (∀ syllables, (testDictionary.lookupPhrase syllables).Perm
      (reversedTestDictionary.lookupPhrase syllables)) ∧
    (convert testDictionary ⟨["ㄍㄨㄛˊ", "ㄇㄧㄣˊ", "ㄉㄚˋ", "ㄏㄨㄟˋ", "ㄉㄞˋ", "ㄅㄧㄠˇ"], [], []⟩).map
        (fun interval => (interval.start, interval.end)) =
      (convert reversedTestDictionary
        ⟨["ㄍㄨㄛˊ", "ㄇㄧㄣˊ", "ㄉㄚˋ", "ㄏㄨㄟˋ", "ㄉㄞˋ", "ㄅㄧㄠˇ"], [], []⟩).map
        (fun interval => (interval.start, interval.end)) ∧
    (highestScoreTable (findIntervals testDictionary
        ⟨["ㄍㄨㄛˊ", "ㄇㄧㄣˊ", "ㄉㄚˋ", "ㄏㄨㄟˋ", "ㄉㄞˋ", "ㄅㄧㄠˇ"], [], []⟩) 6).intervals.map
        (fun interval => interval.phrase.freq) =
      (highestScoreTable (findIntervals reversedTestDictionary
        ⟨["ㄍㄨㄛˊ", "ㄇㄧㄣˊ", "ㄉㄚˋ", "ㄏㄨㄟˋ", "ㄉㄞˋ", "ㄅㄧㄠˇ"], [], []⟩) 6).intervals.map
        (fun interval => interval.phrase.freq) :=
  ⟨fun _ => (List.reverse_perm _).symm,
    convert_segmentation_independent_of_order _ _ (fun _ => (List.reverse_perm _).symm) _⟩

/-! ### The alternatives of `convert_next` -/

theorem keepPaths_shape {candidate candidate' : PossiblePath}
    (same : candidate.shape = candidate'.shape) :
    ∀ (dropCandidate : Bool) {kept kept' : List PossiblePath},
      kept.map PossiblePath.shape = kept'.map PossiblePath.shape →
      (keepPaths candidate dropCandidate kept).1 = (keepPaths candidate' dropCandidate kept').1 ∧
        (keepPaths candidate dropCandidate kept).2.map PossiblePath.shape =
          (keepPaths candidate' dropCandidate kept').2.map PossiblePath.shape
  | _, [], [], _ => ⟨rfl, rfl⟩
  | _, [], _ :: _, shapes => by simp at shapes
  | _, _ :: _, [], shapes => by simp at shapes
  | dropCandidate, path :: kept, path' :: kept', shapes => by
    simp only [List.map_cons, List.cons.injEq] at shapes
    have ranges := PossiblePath.ranges_eq_of_shape shapes.1
    have candidateRanges := PossiblePath.ranges_eq_of_shape same
    simp only [keepPaths, PossiblePath.contains_eq_of_ranges ranges candidateRanges,
      PossiblePath.contains_eq_of_ranges candidateRanges ranges]
    split_ifs
    · have rest := keepPaths_shape same true shapes.2
      exact ⟨rest.1, by simp only [List.map_cons, shapes.1, rest.2]⟩
    · exact keepPaths_shape same dropCandidate shapes.2
    · have rest := keepPaths_shape same dropCandidate shapes.2
      exact ⟨rest.1, by simp only [List.map_cons, shapes.1, rest.2]⟩

theorem foldl_trimStep_shape : ∀ (paths paths' kept kept' : List PossiblePath),
    paths.map PossiblePath.shape = paths'.map PossiblePath.shape →
    kept.map PossiblePath.shape = kept'.map PossiblePath.shape →
    (paths.foldl trimStep kept).map PossiblePath.shape =
      (paths'.foldl trimStep kept').map PossiblePath.shape
  | [], [], _, _, _, keptShapes => keptShapes
  | [], _ :: _, _, _, shapes, _ => by simp at shapes
  | _ :: _, [], _, _, shapes, _ => by simp at shapes
  | candidate :: paths, candidate' :: paths', kept, kept', shapes, keptShapes => by
    simp only [List.map_cons, List.cons.injEq] at shapes
    have step := keepPaths_shape shapes.1 false keptShapes
    apply foldl_trimStep_shape paths paths' _ _ shapes.2
    simp only [trimStep, step.1]
    split <;> simp only [List.map_append, List.map_cons, List.map_nil, step.2, shapes.1]

/-- The score of a path, as a function of its shape. -/
def shapeScore (shape : List (Nat × Nat × Nat)) : Int :=
  (PossiblePath.mk (shape.map fun interval => ⟨interval.1, interval.2.1, ⟨"", interval.2.2⟩⟩)).score

theorem score_eq_shapeScore (path : PossiblePath) : path.score = shapeScore path.shape :=
  PossiblePath.score_eq_of_shape <| by
    rw [PossiblePath.shape, PossiblePath.shape, List.map_map]
    exact (List.map_id'' (fun _ => rfl) _).symm

theorem sortPaths_shape {paths paths' : List PossiblePath}
    (same : paths.map PossiblePath.shape = paths'.map PossiblePath.shape) :
    (sortPaths paths).map PossiblePath.shape = (sortPaths paths').map PossiblePath.shape := by
  have agree : ∀ list : List PossiblePath, ∀ a ∈ list, ∀ b ∈ list,
      a.score ≤ b.score ↔ shapeScore a.shape ≤ shapeScore b.shape := fun _ a _ b _ => by
    rw [score_eq_shapeScore a, score_eq_shapeScore b]
  rw [sortPaths, sortPaths,
    List.map_insertionSort _ (fun x y => shapeScore x ≤ shapeScore y) _ _ (agree paths),
    List.map_insertionSort _ (fun x y => shapeScore x ≤ shapeScore y) _ _ (agree paths'), same]

theorem cycleNth_map {α β : Type} (f : α → β) (items : List α) (next : Nat) :
    cycleNth (items.map f) next = (cycleNth items next).map f := by
  rw [cycleNth, cycleNth, List.length_map, List.getElem?_map]

section Permuted

variable {dict dict' : Dictionary Syllable}
  (perm : ∀ syllables, (dict.lookupPhrase syllables).Perm (dict'.lookupPhrase syllables))
include perm

theorem gridChains_shape (seq : ChineseSequence Syllable) : ∀ fuel start target,
    (gridChains dict seq fuel start target).map (List.map PossibleInterval.shape) =
      (gridChains dict' seq fuel start target).map (List.map PossibleInterval.shape)
  | 0, _, _ => rfl
  | fuel + 1, start, target => by
    rw [gridChains_succ, gridChains_succ]
    split
    · rfl
    · rw [List.map_flatMap, List.map_flatMap]
      congr 1
      funext «end»
      have found : (gridPhrase dict seq start «end»).map Phrase.freq =
          (gridPhrase dict' seq start «end»).map Phrase.freq := findBestPhrase_freq_eq perm _ _ _ _
      have consShape : ∀ (interval : PossibleInterval) (chains : List (List PossibleInterval)),
          (chains.map (interval :: ·)).map (List.map PossibleInterval.shape) =
            (chains.map (List.map PossibleInterval.shape)).map (interval.shape :: ·) :=
        fun _ _ => by simp only [List.map_map, Function.comp_def, List.map_cons]
      unfold chainsThrough
      cases first : gridPhrase dict seq start «end» <;>
        cases second : gridPhrase dict' seq start «end» <;>
        simp only [first, second, Option.map_none', Option.map_some', reduceCtorEq,
          Option.some.injEq] at found <;> dsimp only
      rw [consShape, consShape, gridChains_shape seq fuel «end» target]
      simp only [PossibleInterval.shape, found]

theorem gridCovers_shape (seq : ChineseSequence Syllable) :
    (gridCovers dict seq).map PossiblePath.shape =
      (gridCovers dict' seq).map PossiblePath.shape := by
  rw [gridCovers, gridCovers, List.map_map, List.map_map]
  exact gridChains_shape perm seq _ 0 _

end Permuted

/-- With dictionaries that have no phrase for no syllables, two dictionaries that
list the same phrases for every syllable sequence, in any orders, give
`convert_next` the same alternatives in the same order, up to the texts of
equally frequent phrases: every call returns the same ranges, or fails alike. -/
theorem convertNext_segmentation_independent_of_order (dict dict' : Dictionary Syllable)
    (perm : ∀ syllables, (dict.lookupPhrase syllables).Perm (dict'.lookupPhrase syllables))
    (emptyLookup : dict.lookupPhrase [] = []) (seq : ChineseSequence Syllable) (next : Nat) :
    (convertNext dict seq next).map (List.map fun interval => (interval.start, interval.end)) =
      (convertNext dict' seq next).map
        (List.map fun interval => (interval.start, interval.end)) := by
  rcases Nat.eq_zero_or_pos seq.syllables.length with empty | nonempty
  · have noSyllables : seq.syllables.isEmpty = true :=
      List.isEmpty_iff.mpr (List.eq_nil_of_length_eq_zero empty)
    simp only [convertNext, noSyllables, if_true]
  have emptyLookup' : dict'.lookupPhrase [] = [] := (emptyLookup ▸ perm []).nil_eq.symm
  rw [convertNext_eq emptyLookup nonempty, convertNext_eq emptyLookup' nonempty,
    ← trimPaths_eq_maximalPaths (containsOrder_gridCovers emptyLookup),
    ← trimPaths_eq_maximalPaths (containsOrder_gridCovers emptyLookup')]
  have trimmed : (trimPaths (gridCovers dict seq)).map PossiblePath.shape =
      (trimPaths (gridCovers dict' seq)).map PossiblePath.shape :=
    foldl_trimStep_shape _ _ [] [] (gridCovers_shape perm seq) rfl
  have ranked := congrArg (fun paths => cycleNth paths.reverse next) (sortPaths_shape trimmed)
  simp only [← List.map_reverse, cycleNth_map] at ranked
  cases picked : cycleNth (sortPaths (trimPaths (gridCovers dict seq))).reverse next <;>
    cases picked' : cycleNth (sortPaths (trimPaths (gridCovers dict' seq))).reverse next <;>
    simp only [picked, picked', Option.map_none', Option.map_some', reduceCtorEq,
      Option.some.injEq] at ranked
  · rfl
  · simp only [Except.map, PossiblePath.toIntervals_ranges, ranked]

theorem convertNext_segmentation_independent_of_order_ceshi :
    (∀ syllables, (testDictionary.lookupPhrase syllables).Perm
      (reversedTestDictionary.lookupPhrase syllables)) ∧
    testDictionary.lookupPhrase [] = [] ∧
    ∀ next, (convertNext testDictionary ⟨["ㄘㄜˋ", "ㄕˋ", "ㄧˊ", "ㄒㄧㄚˋ"], [], []⟩ next).map
        (List.map fun interval => (interval.start, interval.end)) =
      (convertNext reversedTestDictionary ⟨["ㄘㄜˋ", "ㄕˋ", "ㄧˊ", "ㄒㄧㄚˋ"], [], []⟩ next).map
        (List.map fun interval => (interval.start, interval.end)) :=
  ⟨fun _ => (List.reverse_perm _).symm, rfl,
    convertNext_segmentation_independent_of_order _ _ (fun _ => (List.reverse_perm _).symm) rfl _⟩

end ChewingConversion
