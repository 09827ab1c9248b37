import ChewingConversion.AllPaths
import ChewingConversion.Trim
import ChewingConversion.BestPath

/-!
# Cycling through the alternatives: `convert_next`

`convert_next` enumerates every cover of the input by grid intervals with
`find_all_paths`, lets `trim_paths` drop the covers that another cover contains,
sorts the rest and returns the `next`-th of them from the last one down, round
and round.  `PossiblePath`'s `Ord` compares scores only and the sort of a `Vec` is
stable, so the alternatives come by decreasing score, and paths of equal score
in the reverse of the order of the search.

With a dictionary that has no phrase for no syllables, the alternatives are
exactly the maximal grid covers.  Every interval either conversion returns is an
interval of the candidate grid.  The first alternative is the conversion of
`convert` when that conversion is a maximal cover that no other maximal cover
outranks, and not in general: the dynamic programme keeps one path per position.
-/

namespace ChewingConversion

variable {Syllable : Type}

/-- `trimmed_paths.sort()`: a stable sort by score. -/
def sortPaths (paths : List PossiblePath) : List PossiblePath :=
  paths.insertionSort fun first second => first.score ≤ second.score

/-- `items.into_iter().cycle().nth(next)`. -/
def cycleNth {α : Type} (items : List α) (next : Nat) : Option α :=
  items[next % items.length]?

/-- `convert_next`; its `expect` is the error `"should have path"`.  The search may
recurse `n + 1` deep, as deep as a search that advances by non-empty intervals
goes. -/
def convertNext (dict : Dictionary Syllable) (segment : ChineseSequence Syllable) (next : Nat) :
    Except String (List Interval) :=
  if segment.syllables.isEmpty then .ok []
  else
    match findAllPaths dict (segment.syllables.length + 1) Graph.empty segment 0
        segment.syllables.length none with
    | .error message => .error message
    | .ok (_, paths) =>
      match cycleNth (sortPaths (trimPaths paths)).reverse next with
      | none => .error "should have path"
      | some path => .ok path.toIntervals

/-! ### What the alternatives are -/

/-- The grid covers in the order of the search. -/
def gridCovers (dict : Dictionary Syllable) (seq : ChineseSequence Syllable) : List PossiblePath :=
  (gridChains dict seq (seq.syllables.length + 1) 0 seq.syllables.length).map PossiblePath.mk

/-- A grid cover that no other grid cover contains. -/
def IsMaximalCover (dict : Dictionary Syllable) (seq : ChineseSequence Syllable)
    (path : PossiblePath) : Prop :=
  IsGridCover dict seq path ∧
    ∀ other, IsGridCover dict seq other → other ≠ path → other.contains path = false

/-- `ranked` lists `paths` by decreasing score, paths of equal score in the reverse
of their order in `paths`. -/
def IsRanking (paths ranked : List PossiblePath) : Prop :=
  ranked.Perm paths ∧ ranked.Sorted (fun first second => second.score ≤ first.score) ∧
    ∀ score : Int, ranked.filter (fun path => path.score = score) =
      (paths.filter fun path => path.score = score).reverse

/-- An output interval that the candidate grid explains: it lies inside the input
and its text is that of the phrase `find_best_phrase` gives its range, which is
one of the dictionary's phrases for its syllables, lies between the breaks, and
reads every selection inside the range at the matching offset. -/
def FromGrid (dict : Dictionary Syllable) (seq : ChineseSequence Syllable)
    (interval : Interval) : Prop :=
  ∃ phrase, interval.end ≤ seq.syllables.length ∧
    gridPhrase dict seq interval.start interval.end = some phrase ∧
    interval.phrase = phrase.text ∧ BreakFree seq.breaks interval.start interval.end ∧
    phrase ∈ dict.lookupPhrase (slice seq.syllables interval.start interval.end) ∧
    ∀ selection ∈ seq.selections, interval.start ≤ selection.start → selection.end ≤ interval.end →
      substring phrase.text (selection.start - interval.start) (selection.end - selection.start) =
        selection.phrase

/-! ### The stable sort -/

theorem sortPaths_sorted (paths : List PossiblePath) :
    (sortPaths paths).Sorted fun first second => first.score ≤ second.score :=
  @List.sorted_insertionSort _ _ _ ⟨fun first second => le_total first.score second.score⟩
    ⟨fun _ _ _ => le_trans⟩ paths

/-- The sort is stable: the paths of one score keep their order. -/
theorem filter_sortPaths (paths : List PossiblePath) (score : Int) :
    (sortPaths paths).filter (fun path => path.score = score) =
      paths.filter fun path => path.score = score := by
  have sameScore : (paths.filter fun path => path.score = score).Pairwise
      fun first second => first.score ≤ second.score :=
    List.pairwise_of_forall_mem_list fun first firstMember second secondMember => by
      simp only [List.mem_filter, decide_eq_true_eq] at firstMember secondMember
      rw [firstMember.2, secondMember.2]
  have sublist := (List.sublist_insertionSort sameScore (List.filter_sublist paths)).filter
    fun path => decide (path.score = score)
  rw [List.filter_filter, List.filter_congr (fun _ _ => Bool.and_self _)] at sublist
  exact (sublist.eq_of_length ((List.perm_insertionSort _ paths).filter _).length_eq.symm).symm

theorem isRanking_sortPaths (paths : List PossiblePath) :
    IsRanking paths (sortPaths paths).reverse :=
  ⟨(List.reverse_perm _).trans (List.perm_insertionSort _ paths),
    List.pairwise_reverse.mpr (sortPaths_sorted paths),
    fun score => by rw [List.filter_reverse, filter_sortPaths]⟩

theorem cycleNth_eq_getD {α : Type} [Inhabited α] {items : List α} (nonempty : items ≠ [])
    (next : Nat) : cycleNth items next = some (items.getD (next % items.length) default) := by
  rw [cycleNth, List.getD_eq_getElem?_getD,
    List.getElem?_eq_getElem (Nat.mod_lt _ (List.length_pos.mpr nonempty))]
  rfl

/-! ### The search, trimmed -/

section Search

variable {dict : Dictionary Syllable} {seq : ChineseSequence Syllable}

theorem mem_gridCovers_iff (emptyLookup : dict.lookupPhrase [] = []) {path : PossiblePath} :
    path ∈ gridCovers dict seq ↔ IsGridCover dict seq path := by
  have enumerated := fun chain => @mem_gridChains_iff _ dict seq emptyLookup
    (seq.syllables.length + 1) 0 seq.syllables.length chain (by omega) (Nat.zero_le _) le_rfl
  rw [gridCovers, List.mem_map, IsGridCover]
  constructor
  · rintro ⟨chain, member, rfl⟩
    exact (enumerated chain).mp member
  · exact fun cover => ⟨path.intervals, (enumerated _).mpr cover, rfl⟩

theorem gridCovers_sorted :
    (gridCovers dict seq).Pairwise fun first second => List.lt first.ends second.ends :=
  List.pairwise_map.mpr (gridChains_sorted _ 0 _)

theorem containsOrder_gridCovers (emptyLookup : dict.lookupPhrase [] = []) :
    ContainsOrder (gridCovers dict seq) :=
  containsOrder_of_covers (fun _ member => ((mem_gridCovers_iff emptyLookup).mp member).1)
    (gridCovers_sorted.imp PossiblePath.ends_ne_of_lt)

theorem mem_maximalPaths_gridCovers (emptyLookup : dict.lookupPhrase [] = [])
    {path : PossiblePath} :
    path ∈ maximalPaths (gridCovers dict seq) ↔ IsMaximalCover dict seq path := by
  simp only [maximalPaths, List.mem_filter, List.all_eq_true, mem_gridCovers_iff emptyLookup,
    Bool.or_eq_true, beq_iff_eq, Bool.not_eq_true', IsMaximalCover]
  exact and_congr_right fun _ => forall₂_congr fun _ _ => or_iff_not_imp_left

/-- With a dictionary that has no phrase for no syllables, `convert_next` cycles
through the maximal grid covers ranked by `sort` and `rev`. -/
theorem convertNext_eq (emptyLookup : dict.lookupPhrase [] = [])
    (nonempty : 0 < seq.syllables.length) (next : Nat) :
    convertNext dict seq next =
      match cycleNth (sortPaths (maximalPaths (gridCovers dict seq))).reverse next with
      | none => .error "should have path"
      | some path => .ok path.toIntervals := by
  obtain ⟨graph, -, search⟩ := findAllPaths_eq emptyLookup (seq.syllables.length + 1) Graph.empty
    0 seq.syllables.length none (by omega) (Nat.zero_le _) (Graph.consistent_empty dict seq)
    (Or.inl nonempty)
  have notEmpty : seq.syllables.isEmpty = false :=
    Bool.not_eq_true _ ▸ mt List.isEmpty_iff.mp (List.ne_nil_of_length_pos nonempty)
  rw [← trimPaths_eq_maximalPaths (containsOrder_gridCovers emptyLookup)]
  simp only [convertNext, notEmpty, search, Bool.false_eq_true, if_false]
  rfl

/-- What `convert_next` returns is a maximal grid cover. -/
theorem exists_maximalCover_of_convertNext (emptyLookup : dict.lookupPhrase [] = [])
    {next : Nat} {output : List Interval} (converted : convertNext dict seq next = .ok output) :
    ∃ path, IsMaximalCover dict seq path ∧ output = path.toIntervals := by
  rcases Nat.eq_zero_or_pos seq.syllables.length with empty | nonempty
  · have noSyllables : seq.syllables.isEmpty = true :=
      List.isEmpty_iff.mpr (List.eq_nil_of_length_eq_zero empty)
    simp only [convertNext, noSyllables, if_true, Except.ok.injEq] at converted
    refine ⟨⟨[]⟩, ⟨⟨empty.symm, fun _ member => absurd member (List.not_mem_nil _)⟩, ?_⟩,
      converted ▸ rfl⟩
    intro other ⟨isChain, _⟩ ne
    rw [empty] at isChain
    exact absurd (congrArg PossiblePath.mk isChain.eq_nil_of_eq) ne
  · rw [convertNext_eq emptyLookup nonempty] at converted
    split at converted
    · cases converted
    · rename_i path found
      have ranked : path ∈ maximalPaths (gridCovers dict seq) :=
        (List.perm_insertionSort _ _).subset (List.mem_reverse.mp (List.getElem?_mem found))
      exact ⟨path, (mem_maximalPaths_gridCovers emptyLookup).mp ranked,
        (Except.ok.inj converted).symm⟩

end Search

/-- Every interval of a maximal cover is an interval of the candidate grid. -/
theorem fromGrid_toInterval {dict : Dictionary Syllable} {seq : ChineseSequence Syllable}
    {interval : PossibleInterval} (startLe : interval.start ≤ interval.end)
    (inGrid : InGrid dict seq interval) : FromGrid dict seq interval.toInterval := by
  obtain ⟨endLe, found⟩ := inGrid
  obtain ⟨free, first⟩ := (gridPhrase_eq_some_iff dict seq startLe endLe _).mp found
  have agreeing := first.mem
  simp only [agreeingPhrases, List.mem_filter, List.all_eq_true] at agreeing
  refine ⟨interval.phrase, endLe, found, rfl, free, agreeing.1, ?_⟩
  intro selection member startLe' endLe'
  have agrees := agreeing.2 selection member
  simp only [Phrase.agrees, Bool.or_eq_true, Bool.not_eq_true', Bool.and_eq_false_iff,
    decide_eq_false_iff_not, beq_iff_eq, ge_iff_le] at agrees
  exact agrees.resolve_left (by simp only [PossibleInterval.toInterval] at *; omega)

theorem fromGrid_of_mem_convert {dict : Dictionary Syllable} {seq : ChineseSequence Syllable}
    {result : Interval} (member : result ∈ convert dict seq) : FromGrid dict seq result := by
  obtain ⟨interval, inGrid, rfl⟩ := mem_findIntervals_of_mem_convert member
  obtain ⟨-, startLe, grid⟩ := mem_findIntervals.mp inGrid
  exact fromGrid_toInterval startLe grid

theorem fromGrid_of_isGridCover {dict : Dictionary Syllable} {seq : ChineseSequence Syllable}
    {path : PossiblePath} (cover : IsGridCover dict seq path) :
    ∀ result ∈ path.toIntervals, FromGrid dict seq result := by
  intro result member
  obtain ⟨interval, inPath, rfl⟩ := List.mem_map.mp member
  exact fromGrid_toInterval (cover.1.bounds interval inPath).2.1.le (cover.2 interval inPath)

/-- Every interval `(s, e, p)` that `convert` or `convert_next` returns is an interval
of the candidate grid: `e ≤ n`, `p` is what `find_best_phrase` gives `[s, e)`, so
no break lies inside it, `p` is a phrase of the dictionary for its syllables, and
`p` reads every selection inside `[s, e]` at the matching offset. -/
theorem conversion_intervals_from_grid (dict : Dictionary Syllable)
    (seq : ChineseSequence Syllable) :
    (∀ result ∈ convert dict seq, FromGrid dict seq result) ∧
    (dict.lookupPhrase [] = [] → ∀ next output, convertNext dict seq next = .ok output →
      ∀ result ∈ output, FromGrid dict seq result) := by
  refine ⟨fun _ => fromGrid_of_mem_convert, fun emptyLookup next output converted => ?_⟩
  obtain ⟨path, ⟨cover, -⟩, rfl⟩ := exists_maximalCover_of_convertNext emptyLookup converted
  exact fromGrid_of_isGridCover cover

/-! ### The order of the alternatives -/

section Cycle

variable {dict : Dictionary Syllable} {seq : ChineseSequence Syllable}

theorem maximalPaths_gridCovers_sorted :
    (maximalPaths (gridCovers dict seq)).Pairwise
      fun first second => List.lt first.ends second.ends :=
  gridCovers_sorted.sublist (List.filter_sublist _)

theorem maximalPaths_gridCovers_ne_nil (emptyLookup : dict.lookupPhrase [] = [])
    (covered : ∃ path, IsGridCover dict seq path) : maximalPaths (gridCovers dict seq) ≠ [] :=
  have ⟨_, cover⟩ := covered
  maximalPaths_ne_nil (containsOrder_gridCovers emptyLookup)
    (List.ne_nil_of_mem ((mem_gridCovers_iff emptyLookup).mpr cover))

/-- Once the grid has a cover, `convert_next` cycles through the ranked maximal covers. -/
theorem convertNext_eq_getD (emptyLookup : dict.lookupPhrase [] = [])
    (nonempty : 0 < seq.syllables.length) (covered : ∃ path, IsGridCover dict seq path)
    (next : Nat) :
    convertNext dict seq next = .ok ((sortPaths (maximalPaths (gridCovers dict seq))).reverse.getD
      (next % (maximalPaths (gridCovers dict seq)).length) default).toIntervals := by
  have maximalNonempty := maximalPaths_gridCovers_ne_nil emptyLookup covered
  have sameLength := (isRanking_sortPaths (maximalPaths (gridCovers dict seq))).1.length_eq
  have rankedNonempty : (sortPaths (maximalPaths (gridCovers dict seq))).reverse ≠ [] :=
    List.length_pos.mp (sameLength ▸ List.length_pos.mpr maximalNonempty)
  rw [convertNext_eq emptyLookup nonempty, cycleNth_eq_getD rankedNonempty, sameLength]

/-- In the exact model, `convert_next` panics when the grid has no cover; otherwise,
with `M` the maximal grid covers in the order of the search and `S` the same covers by decreasing score,
ties in the reverse order, `convert_next(seq, k)` is `S[k mod |M|]`.  So it repeats
with period `|M|`, and its alternatives are distinct covers none of which contains
another. -/
theorem convertNext_cycle_spec (dict : Dictionary Syllable)
    (seq : ChineseSequence Syllable) (emptyLookup : dict.lookupPhrase [] = [])
    (nonempty : 0 < seq.syllables.length) :
    ((∀ path, ¬IsGridCover dict seq path) →
      ∀ next, convertNext dict seq next = .error "should have path") ∧
    ((∃ path, IsGridCover dict seq path) →
      ∃ maximal ranked : List PossiblePath,
        (∀ path, path ∈ maximal ↔ IsMaximalCover dict seq path) ∧
        maximal.Pairwise (fun first second => List.lt first.ends second.ends) ∧
        IsRanking maximal ranked ∧ 0 < maximal.length ∧
        (∀ next, convertNext dict seq next =
          .ok (ranked.getD (next % maximal.length) default).toIntervals) ∧
        (∀ next, convertNext dict seq (next + maximal.length) = convertNext dict seq next) ∧
        maximal.Nodup ∧
        ∀ path ∈ maximal, ∀ other ∈ maximal, other ≠ path → other.contains path = false) := by
  constructor
  · intro uncovered next
    have noCovers : gridCovers dict seq = [] := List.eq_nil_iff_forall_not_mem.mpr
      fun path member => uncovered path ((mem_gridCovers_iff emptyLookup).mp member)
    rw [convertNext_eq emptyLookup nonempty, noCovers]
    rfl
  · intro covered
    have converted := convertNext_eq_getD emptyLookup nonempty covered
    have member := fun path => @mem_maximalPaths_gridCovers _ dict seq emptyLookup path
    refine ⟨_, _, member, maximalPaths_gridCovers_sorted, isRanking_sortPaths _,
      List.length_pos.mpr (maximalPaths_gridCovers_ne_nil emptyLookup covered),
      converted, fun next => by rw [converted, converted, Nat.add_mod_right],
      maximalPaths_gridCovers_sorted.imp PossiblePath.ne_of_ends_lt, ?_⟩
    intro path pathMember other otherMember ne
    exact ((member path).mp pathMember).2 other ((member other).mp otherMember).1 ne

end Cycle

/-- A dictionary in which the frequent `民大會` wins position `4` of the table,
while the cover `國民 大會 代表` outscores `國 民大會 代表` over the whole input. -/
def midwayDictionary : Dictionary String where
  lookupPhrase
    | ["ㄍㄨㄛˊ"] => [⟨"國", 0⟩]
    | ["ㄍㄨㄛˊ", "ㄇㄧㄣˊ"] => [⟨"國民", 0⟩]
    | ["ㄇㄧㄣˊ", "ㄉㄚˋ", "ㄏㄨㄟˋ"] => [⟨"民大會", 300⟩]
    | ["ㄉㄚˋ", "ㄏㄨㄟˋ"] => [⟨"大會", 0⟩]
    | ["ㄉㄞˋ", "ㄅㄧㄠˇ"] => [⟨"代表", 0⟩]
    | _ => []

/-- The conversion `國 民大會 代表` (score 17900) is a maximal cover, yet the first
alternative is `國民 大會 代表` (score 18000). -/
theorem convertNext_zero_ne_convert :
    midwayDictionary.lookupPhrase [] = [] ∧
    convert midwayDictionary
        ⟨["ㄍㄨㄛˊ", "ㄇㄧㄣˊ", "ㄉㄚˋ", "ㄏㄨㄟˋ", "ㄉㄞˋ", "ㄅㄧㄠˇ"], [], []⟩ =
      (⟨[⟨0, 1, ⟨"國", 0⟩⟩, ⟨1, 4, ⟨"民大會", 300⟩⟩, ⟨4, 6, ⟨"代表", 0⟩⟩]⟩ : PossiblePath).toIntervals ∧
    IsMaximalCover midwayDictionary
      ⟨["ㄍㄨㄛˊ", "ㄇㄧㄣˊ", "ㄉㄚˋ", "ㄏㄨㄟˋ", "ㄉㄞˋ", "ㄅㄧㄠˇ"], [], []⟩
      ⟨[⟨0, 1, ⟨"國", 0⟩⟩, ⟨1, 4, ⟨"民大會", 300⟩⟩, ⟨4, 6, ⟨"代表", 0⟩⟩]⟩ ∧
    convertNext midwayDictionary
        ⟨["ㄍㄨㄛˊ", "ㄇㄧㄣˊ", "ㄉㄚˋ", "ㄏㄨㄟˋ", "ㄉㄞˋ", "ㄅㄧㄠˇ"], [], []⟩ 0 =
      .ok [⟨0, 2, "國民"⟩, ⟨2, 4, "大會"⟩, ⟨4, 6, "代表"⟩] ∧
    [(⟨0, 2, "國民"⟩ : Interval), ⟨2, 4, "大會"⟩, ⟨4, 6, "代表"⟩] ≠
      convert midwayDictionary
        ⟨["ㄍㄨㄛˊ", "ㄇㄧㄣˊ", "ㄉㄚˋ", "ㄏㄨㄟˋ", "ㄉㄞˋ", "ㄅㄧㄠˇ"], [], []⟩ :=
  ⟨rfl, by decide, (mem_maximalPaths_gridCovers rfl).mp (by decide), rfl, by decide⟩

end ChewingConversion
