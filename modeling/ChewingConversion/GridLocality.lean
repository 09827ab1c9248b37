import ChewingConversion.CheckedNext
import ChewingConversion.Constraints

/-!
# The conversion reads only the grid

The dictionary and the constraints reach `convert` and `convert_next` only
through `find_best_phrase`, called on ranges inside the input: by
`find_intervals` on every range `[begin, end]` with `end ≤ n`, and by
`find_all_paths` on the ranges `[start, end]` with `end ≤ target = n`, through
its memo table.  So two inputs of one length with the same grid, the same phrase
or none for every range inside them, convert alike, whatever their dictionaries,
selections and breaks.

Two consequences: the selections and the breaks are read as sets, so their order
and repeats among them change nothing; and a constraint that no range inside the
input can hold, a break at its start or at or past its end, or a selection that
ends past it, is ignored.  A debug build reads the grid alike as long as its
selections are admissible; an empty selection phrase fails the assertion of the
selection loop wherever it stands, and which selections that loop visits depends
on their order.
-/

namespace ChewingConversion

variable {Syllable : Type}

/-! ### The grid determines the conversion -/

section Grid

variable {dict dict' : Dictionary Syllable} {seq seq' : ChineseSequence Syllable}

theorem findIntervals_eq_of_grid (sameLength : seq.syllables.length = seq'.syllables.length)
    (sameGrid : ∀ start «end», start ≤ «end» → «end» ≤ seq.syllables.length →
      gridPhrase dict seq start «end» = gridPhrase dict' seq' start «end») :
    findIntervals dict seq = findIntervals dict' seq' := by
  unfold findIntervals
  rw [← sameLength]
  refine List.flatMap_congr fun begin _ => List.filterMap_congr fun «end» member => ?_
  have inside := List.mem_range'_1.mp member
  have found : gridPhrase dict seq begin «end» = gridPhrase dict' seq' begin «end» :=
    sameGrid begin «end» inside.1 (by omega)
  unfold gridPhrase at found
  rw [found]

/-- The loop over the ends runs alike on two grids that agree on the ranges it
looks up, when the recursive calls do. -/
theorem findAllPathsLoop_eq_of_grid {start target : Nat} {pathSoFar : Option PossiblePath}
    {recur recur' : Graph → Nat → PossiblePath → Except String (Graph × List PossiblePath)}
    (sameGrid : ∀ «end», start ≤ «end» → «end» ≤ target →
      gridPhrase dict seq start «end» = gridPhrase dict' seq' start «end»)
    (sameRecur : ∀ graph «end» path, start ≤ «end» → «end» ≤ target →
      recur graph «end» path = recur' graph «end» path) :
    ∀ (ends : List Nat) (graph : Graph) (result : List PossiblePath),
      (∀ «end» ∈ ends, start ≤ «end» ∧ «end» ≤ target) →
      findAllPathsLoop dict seq start pathSoFar recur ends graph result =
        findAllPathsLoop dict' seq' start pathSoFar recur' ends graph result
  | [], _, _, _ => rfl
  | «end» :: ends, graph, result, inRange => by
    obtain ⟨startLe, endLe⟩ := inRange «end» (List.mem_cons_self _ _)
    have found : findBestPhrase dict start (slice seq.syllables start «end») seq.selections
        seq.breaks = findBestPhrase dict' start (slice seq'.syllables start «end»)
          seq'.selections seq'.breaks := sameGrid «end» startLe endLe
    have rest : ∀ graph result, findAllPathsLoop dict seq start pathSoFar recur ends graph result =
        findAllPathsLoop dict' seq' start pathSoFar recur' ends graph result :=
      fun graph result => findAllPathsLoop_eq_of_grid sameGrid sameRecur ends graph result
        fun other member => inRange other (List.mem_cons_of_mem _ member)
    simp only [findAllPathsLoop, found, sameRecur _ «end» _ startLe endLe, rest]

/-- A search runs alike, from any table, on two grids that agree on the ranges
up to its target. -/
theorem findAllPaths_eq_of_grid {target : Nat}
    (sameGrid : ∀ start «end», start ≤ «end» → «end» ≤ target →
      gridPhrase dict seq start «end» = gridPhrase dict' seq' start «end») :
    ∀ (fuel : Nat) (graph : Graph) (start : Nat) (pathSoFar : Option PossiblePath),
      findAllPaths dict fuel graph seq start target pathSoFar =
        findAllPaths dict' fuel graph seq' start target pathSoFar
  | 0, _, _, _ => rfl
  | fuel + 1, graph, start, pathSoFar => by
    by_cases reached : start = target
    · simp only [findAllPaths, if_pos reached]
    · simp only [findAllPaths, if_neg reached]
      exact findAllPathsLoop_eq_of_grid (sameGrid start)
        (fun graph «end» path _ _ => findAllPaths_eq_of_grid sameGrid fuel graph «end» (some path))
        _ graph [] fun «end» member => by have := List.mem_range'_1.mp member; omega

theorem isEmpty_syllables_eq (sameLength : seq.syllables.length = seq'.syllables.length) :
    seq.syllables.isEmpty = seq'.syllables.isEmpty := by
  rw [Bool.eq_iff_iff, List.isEmpty_iff_length_eq_zero, List.isEmpty_iff_length_eq_zero,
    sameLength]

variable (sameLength : seq.syllables.length = seq'.syllables.length)
  (sameGrid : ∀ start «end», start ≤ «end» → «end» ≤ seq.syllables.length →
    gridPhrase dict seq start «end» = gridPhrase dict' seq' start «end»)
include sameLength sameGrid

theorem convert_eq_of_grid : convert dict seq = convert dict' seq' := by
  rw [convert, convert, isEmpty_syllables_eq sameLength, sameLength,
    findIntervals_eq_of_grid sameLength sameGrid]

theorem convertNext_eq_of_grid (next : Nat) : convertNext dict seq next = convertNext dict' seq' next := by
  simp only [convertNext, isEmpty_syllables_eq sameLength, ← sameLength,
    findAllPaths_eq_of_grid sameGrid]

variable (admissible : ∀ selection ∈ seq.selections, selection.Admissible)
  (admissible' : ∀ selection ∈ seq'.selections, selection.Admissible)
include admissible admissible'

theorem checkedConvert_eq_of_grid : Checked.convert dict seq = Checked.convert dict' seq' := by
  rw [Checked.convert, Checked.convert, isEmpty_syllables_eq sameLength, sameLength,
    checkedFindIntervals_eq admissible, checkedFindIntervals_eq admissible',
    findIntervals_eq_of_grid sameLength sameGrid]

theorem checkedConvertNext_eq_of_grid (next : Nat) :
    Checked.convertNext dict seq next = Checked.convertNext dict' seq' next := by
  simp only [Checked.convertNext, isEmpty_syllables_eq sameLength, ← sameLength,
    checkedFindAllPaths_eq admissible, checkedFindAllPaths_eq admissible',
    findAllPaths_eq_of_grid sameGrid]

end Grid

/-- Two inputs of one length with the same grid convert alike: `convert` returns
the same on both, and so does `convert_next` for every `next`, whatever their
dictionaries, selections and breaks. -/
theorem conversion_determined_by_grid (dict dict' : Dictionary Syllable)
    (seq seq' : ChineseSequence Syllable)
    (sameLength : seq.syllables.length = seq'.syllables.length)
    (sameGrid : ∀ start «end», start ≤ «end» → «end» ≤ seq.syllables.length →
      gridPhrase dict seq start «end» = gridPhrase dict' seq' start «end») :
    convert dict seq = convert dict' seq' ∧
      ∀ next, convertNext dict seq next = convertNext dict' seq' next :=
  ⟨convert_eq_of_grid sameLength sameGrid, convertNext_eq_of_grid sameLength sameGrid⟩

/-- Selecting `國民` where the grid already holds it. -/
theorem conversion_determined_by_grid_guomin :
    (∀ start «end», start ≤ «end» → «end» ≤ 2 →
      gridPhrase testDictionary ⟨["ㄍㄨㄛˊ", "ㄇㄧㄣˊ"], [], []⟩ start «end» =
        gridPhrase testDictionary ⟨["ㄍㄨㄛˊ", "ㄇㄧㄣˊ"], [⟨0, 2, "國民"⟩], []⟩ start «end») ∧
    convert testDictionary ⟨["ㄍㄨㄛˊ", "ㄇㄧㄣˊ"], [], []⟩ =
      convert testDictionary ⟨["ㄍㄨㄛˊ", "ㄇㄧㄣˊ"], [⟨0, 2, "國民"⟩], []⟩ ∧
    ∀ next, convertNext testDictionary ⟨["ㄍㄨㄛˊ", "ㄇㄧㄣˊ"], [], []⟩ next =
      convertNext testDictionary ⟨["ㄍㄨㄛˊ", "ㄇㄧㄣˊ"], [⟨0, 2, "國民"⟩], []⟩ next := by
  have sameGrid : ∀ start «end», start ≤ «end» → «end» ≤ 2 →
      gridPhrase testDictionary ⟨["ㄍㄨㄛˊ", "ㄇㄧㄣˊ"], [], []⟩ start «end» =
        gridPhrase testDictionary ⟨["ㄍㄨㄛˊ", "ㄇㄧㄣˊ"], [⟨0, 2, "國民"⟩], []⟩ start «end» := by
    have byEnd : ∀ «end», «end» ≤ 2 → ∀ start, start ≤ «end» →
        gridPhrase testDictionary ⟨["ㄍㄨㄛˊ", "ㄇㄧㄣˊ"], [], []⟩ start «end» =
          gridPhrase testDictionary ⟨["ㄍㄨㄛˊ", "ㄇㄧㄣˊ"], [⟨0, 2, "國民"⟩], []⟩ start «end» := by
      decide
    exact fun start «end» startLe endLe => byEnd «end» endLe start startLe
  exact ⟨sameGrid, conversion_determined_by_grid testDictionary testDictionary _ _ rfl sameGrid⟩

/-! ### Constraints as sets -/

/-- The phrase loop reads the selections only through the check of each phrase. -/
theorem pickBestPhrase_congr {start «end» : Nat} {selections selections' : List Interval}
    (sameChecks : ∀ phrase : Phrase,
      selections.all (phrase.agrees start «end») = selections'.all (phrase.agrees start «end»)) :
    ∀ (maxFreq : Nat) (bestPhrase : Option Phrase) (phrases : List Phrase),
      pickBestPhrase start «end» selections maxFreq bestPhrase phrases =
        pickBestPhrase start «end» selections' maxFreq bestPhrase phrases
  | _, _, [] => rfl
  | maxFreq, bestPhrase, phrase :: phrases => by
    simp only [pickBestPhrase, sameChecks phrase, pickBestPhrase_congr sameChecks]

theorem findBestPhrase_congr_of_mem_iff {selections selections' : List Interval}
    {breaks breaks' : List Break}
    (sameSelections : ∀ selection, selection ∈ selections ↔ selection ∈ selections')
    (sameBreaks : ∀ br, br ∈ breaks ↔ br ∈ breaks') (dict : Dictionary Syllable) (start : Nat)
    (syllables : List Syllable) :
    findBestPhrase dict start syllables selections breaks =
      findBestPhrase dict start syllables selections' breaks' := by
  have checks : ∀ phrase : Phrase, ∀ «end», selections.all (phrase.agrees start «end») =
      selections'.all (phrase.agrees start «end») := fun phrase «end» => by
    rw [Bool.eq_iff_iff, List.all_eq_true, List.all_eq_true]
    exact forall_congr' fun selection => imp_congr_left (sameSelections selection)
  have blocked : (breaks.any fun br => start < br.pos && br.pos < start + syllables.length) =
      breaks'.any fun br => start < br.pos && br.pos < start + syllables.length := by
    rw [Bool.eq_iff_iff, List.any_eq_true, List.any_eq_true]
    exact exists_congr fun br => and_congr (sameBreaks br) Iff.rfl
  simp only [findBestPhrase, blocked, pickBestPhrase_congr fun phrase => checks phrase _]

/-- `convert` and `convert_next` read the selections and the breaks as sets: on
two sequences of one input with the same selections and the same breaks, in any
order and with any repeats, they return the same; so do they as a debug build
runs them, with the assertions of the selection loop, when the selections are
admissible. -/
theorem conversion_reads_constraints_as_sets (dict : Dictionary Syllable)
    {seq seq' : ChineseSequence Syllable} (sameSyllables : seq.syllables = seq'.syllables)
    (sameSelections : ∀ selection, selection ∈ seq.selections ↔ selection ∈ seq'.selections)
    (sameBreaks : ∀ br, br ∈ seq.breaks ↔ br ∈ seq'.breaks) :
    (convert dict seq = convert dict seq' ∧
      ∀ next, convertNext dict seq next = convertNext dict seq' next) ∧
    ((∀ selection ∈ seq.selections, selection.Admissible) →
      Checked.convert dict seq = Checked.convert dict seq' ∧
        ∀ next, Checked.convertNext dict seq next = Checked.convertNext dict seq' next) := by
  have sameGrid : ∀ start «end», start ≤ «end» → «end» ≤ seq.syllables.length →
      gridPhrase dict seq start «end» = gridPhrase dict seq' start «end» := fun start «end» _ _ => by
    rw [gridPhrase, gridPhrase, sameSyllables,
      findBestPhrase_congr_of_mem_iff sameSelections sameBreaks]
  have sameLength := congrArg List.length sameSyllables
  refine ⟨⟨convert_eq_of_grid sameLength sameGrid, convertNext_eq_of_grid sameLength sameGrid⟩,
    fun admissible => ?_⟩
  have admissible' : ∀ selection ∈ seq'.selections, selection.Admissible :=
    fun selection member => admissible selection ((sameSelections selection).mpr member)
  exact ⟨checkedConvert_eq_of_grid sameLength sameGrid admissible admissible',
    checkedConvertNext_eq_of_grid sameLength sameGrid admissible admissible'⟩

theorem conversion_reads_constraints_as_sets_ceshi :
    (∀ selection, selection ∈ [(⟨0, 2, "側室"⟩ : Interval), ⟨2, 4, "一下"⟩] ↔
      selection ∈ [(⟨2, 4, "一下"⟩ : Interval), ⟨0, 2, "側室"⟩, ⟨2, 4, "一下"⟩]) ∧
    (∀ br, br ∈ [(⟨2⟩ : Break)] ↔ br ∈ [(⟨2⟩ : Break), ⟨2⟩]) ∧
    (convert testDictionary ⟨["ㄘㄜˋ", "ㄕˋ", "ㄧˊ", "ㄒㄧㄚˋ"], [⟨0, 2, "側室"⟩, ⟨2, 4, "一下"⟩],
        [⟨2⟩]⟩ =
      convert testDictionary ⟨["ㄘㄜˋ", "ㄕˋ", "ㄧˊ", "ㄒㄧㄚˋ"],
        [⟨2, 4, "一下"⟩, ⟨0, 2, "側室"⟩, ⟨2, 4, "一下"⟩], [⟨2⟩, ⟨2⟩]⟩ ∧
    ∀ next, convertNext testDictionary ⟨["ㄘㄜˋ", "ㄕˋ", "ㄧˊ", "ㄒㄧㄚˋ"],
        [⟨0, 2, "側室"⟩, ⟨2, 4, "一下"⟩], [⟨2⟩]⟩ next =
      convertNext testDictionary ⟨["ㄘㄜˋ", "ㄕˋ", "ㄧˊ", "ㄒㄧㄚˋ"],
        [⟨2, 4, "一下"⟩, ⟨0, 2, "側室"⟩, ⟨2, 4, "一下"⟩], [⟨2⟩, ⟨2⟩]⟩ next) ∧
    ((∀ selection ∈ [(⟨0, 2, "側室"⟩ : Interval), ⟨2, 4, "一下"⟩], selection.Admissible) →
      Checked.convert testDictionary ⟨["ㄘㄜˋ", "ㄕˋ", "ㄧˊ", "ㄒㄧㄚˋ"],
          [⟨0, 2, "側室"⟩, ⟨2, 4, "一下"⟩], [⟨2⟩]⟩ =
        Checked.convert testDictionary ⟨["ㄘㄜˋ", "ㄕˋ", "ㄧˊ", "ㄒㄧㄚˋ"],
          [⟨2, 4, "一下"⟩, ⟨0, 2, "側室"⟩, ⟨2, 4, "一下"⟩], [⟨2⟩, ⟨2⟩]⟩ ∧
      ∀ next, Checked.convertNext testDictionary ⟨["ㄘㄜˋ", "ㄕˋ", "ㄧˊ", "ㄒㄧㄚˋ"],
          [⟨0, 2, "側室"⟩, ⟨2, 4, "一下"⟩], [⟨2⟩]⟩ next =
        Checked.convertNext testDictionary ⟨["ㄘㄜˋ", "ㄕˋ", "ㄧˊ", "ㄒㄧㄚˋ"],
          [⟨2, 4, "一下"⟩, ⟨0, 2, "側室"⟩, ⟨2, 4, "一下"⟩], [⟨2⟩, ⟨2⟩]⟩ next) := by
  have sameSelections : ∀ selection, selection ∈ [(⟨0, 2, "側室"⟩ : Interval), ⟨2, 4, "一下"⟩] ↔
      selection ∈ [(⟨2, 4, "一下"⟩ : Interval), ⟨0, 2, "側室"⟩, ⟨2, 4, "一下"⟩] := fun _ => by
    simp only [List.mem_cons, List.not_mem_nil, or_false]
    tauto
  have sameBreaks : ∀ br, br ∈ [(⟨2⟩ : Break)] ↔ br ∈ [(⟨2⟩ : Break), ⟨2⟩] := fun _ => by
    simp only [List.mem_cons, List.not_mem_nil, or_false, or_self]
  exact ⟨sameSelections, sameBreaks,
    conversion_reads_constraints_as_sets testDictionary rfl sameSelections sameBreaks⟩

/-! ### Constraints outside the input -/

section Outside

variable {dict : Dictionary Syllable} {seq : ChineseSequence Syllable} {start «end» : Nat}

/-- A break at the start of the input or at or past its end is inside no range of it. -/
theorem gridPhrase_addBreak_of_outside {br : Break}
    (outside : br.pos = 0 ∨ seq.syllables.length ≤ br.pos) (startLe : start ≤ «end»)
    (endLe : «end» ≤ seq.syllables.length) :
    gridPhrase dict (seq.addBreak br) start «end» = gridPhrase dict seq start «end» := by
  rw [gridPhrase_addBreak_eq startLe endLe, if_neg (by omega)]

/-- A selection that ends past the input is inside no range of it. -/
theorem gridPhrase_addSelection_of_past {selection : Interval}
    (past : seq.syllables.length < selection.end) (startLe : start ≤ «end»)
    (endLe : «end» ≤ seq.syllables.length) :
    gridPhrase dict (seq.addSelection selection) start «end» = gridPhrase dict seq start «end» := by
  have skipped : ∀ phrase : Phrase,
      (seq.selections ++ [selection]).all (phrase.agrees start «end») =
        seq.selections.all (phrase.agrees start «end») := fun phrase => by
    have notInside : ¬«end» ≥ selection.end := by omega
    simp [Phrase.agrees, notInside]
  have endEq : start + (slice seq.syllables start «end»).length = «end» := by
    rw [slice_length _ endLe]
    omega
  simp only [gridPhrase, findBestPhrase, ChineseSequence.addSelection_syllables,
    ChineseSequence.addSelection_selections, ChineseSequence.addSelection_breaks, endEq,
    pickBestPhrase_congr skipped]

end Outside

/-- A constraint that no range inside the input can hold is ignored: a break at
the start of the input or at or past its end, and a selection that ends past the
input, change neither `convert` nor `convert_next`; nor do they as a debug build
runs them when the selections, the new one among them, are admissible. -/
theorem constraints_outside_input_ignored (dict : Dictionary Syllable)
    (seq : ChineseSequence Syllable) :
    (∀ br : Break, br.pos = 0 ∨ seq.syllables.length ≤ br.pos →
      convert dict (seq.addBreak br) = convert dict seq ∧
        (∀ next, convertNext dict (seq.addBreak br) next = convertNext dict seq next) ∧
        ((∀ selection ∈ seq.selections, selection.Admissible) →
          Checked.convert dict (seq.addBreak br) = Checked.convert dict seq ∧
            ∀ next, Checked.convertNext dict (seq.addBreak br) next =
              Checked.convertNext dict seq next)) ∧
    (∀ selection : Interval, seq.syllables.length < selection.end →
      convert dict (seq.addSelection selection) = convert dict seq ∧
        (∀ next, convertNext dict (seq.addSelection selection) next = convertNext dict seq next) ∧
        ((∀ selection ∈ seq.selections, selection.Admissible) → selection.Admissible →
          Checked.convert dict (seq.addSelection selection) = Checked.convert dict seq ∧
            ∀ next, Checked.convertNext dict (seq.addSelection selection) next =
              Checked.convertNext dict seq next)) := by
  constructor
  · intro br outside
    have sameGrid : ∀ start «end», start ≤ «end» → «end» ≤ (seq.addBreak br).syllables.length →
        gridPhrase dict (seq.addBreak br) start «end» = gridPhrase dict seq start «end» :=
      fun _ _ startLe endLe => gridPhrase_addBreak_of_outside outside startLe endLe
    exact ⟨convert_eq_of_grid rfl sameGrid, convertNext_eq_of_grid rfl sameGrid,
      fun admissible => ⟨checkedConvert_eq_of_grid rfl sameGrid admissible admissible,
        checkedConvertNext_eq_of_grid rfl sameGrid admissible admissible⟩⟩
  · intro selection past
    have sameGrid : ∀ start «end», start ≤ «end» →
        «end» ≤ (seq.addSelection selection).syllables.length →
        gridPhrase dict (seq.addSelection selection) start «end» = gridPhrase dict seq start «end» :=
      fun _ _ startLe endLe => gridPhrase_addSelection_of_past past startLe endLe
    refine ⟨convert_eq_of_grid rfl sameGrid, convertNext_eq_of_grid rfl sameGrid,
      fun admissible selectionAdmissible => ?_⟩
    have added : ∀ other ∈ (seq.addSelection selection).selections, other.Admissible :=
      List.forall_mem_append.mpr ⟨admissible, List.forall_mem_singleton.mpr selectionAdmissible⟩
    exact ⟨checkedConvert_eq_of_grid rfl sameGrid added admissible,
      checkedConvertNext_eq_of_grid rfl sameGrid added admissible⟩

/-- `國民` with a break at its start and a selection past its end. -/
theorem constraints_outside_input_ignored_guomin :
    (convert testDictionary (ChineseSequence.addBreak ⟨["ㄍㄨㄛˊ", "ㄇㄧㄣˊ"], [], []⟩ ⟨0⟩) =
        convert testDictionary ⟨["ㄍㄨㄛˊ", "ㄇㄧㄣˊ"], [], []⟩ ∧
      (∀ next, convertNext testDictionary
          (ChineseSequence.addBreak ⟨["ㄍㄨㄛˊ", "ㄇㄧㄣˊ"], [], []⟩ ⟨0⟩) next =
        convertNext testDictionary ⟨["ㄍㄨㄛˊ", "ㄇㄧㄣˊ"], [], []⟩ next) ∧
      ((∀ selection ∈ ([] : List Interval), selection.Admissible) →
        Checked.convert testDictionary
            (ChineseSequence.addBreak ⟨["ㄍㄨㄛˊ", "ㄇㄧㄣˊ"], [], []⟩ ⟨0⟩) =
          Checked.convert testDictionary ⟨["ㄍㄨㄛˊ", "ㄇㄧㄣˊ"], [], []⟩ ∧
        ∀ next, Checked.convertNext testDictionary
            (ChineseSequence.addBreak ⟨["ㄍㄨㄛˊ", "ㄇㄧㄣˊ"], [], []⟩ ⟨0⟩) next =
          Checked.convertNext testDictionary ⟨["ㄍㄨㄛˊ", "ㄇㄧㄣˊ"], [], []⟩ next)) ∧
    (convert testDictionary
        (ChineseSequence.addSelection ⟨["ㄍㄨㄛˊ", "ㄇㄧㄣˊ"], [], []⟩ ⟨1, 3, "民大"⟩) =
        convert testDictionary ⟨["ㄍㄨㄛˊ", "ㄇㄧㄣˊ"], [], []⟩ ∧
      (∀ next, convertNext testDictionary
          (ChineseSequence.addSelection ⟨["ㄍㄨㄛˊ", "ㄇㄧㄣˊ"], [], []⟩ ⟨1, 3, "民大"⟩) next =
        convertNext testDictionary ⟨["ㄍㄨㄛˊ", "ㄇㄧㄣˊ"], [], []⟩ next) ∧
      ((∀ selection ∈ ([] : List Interval), selection.Admissible) →
        (⟨1, 3, "民大"⟩ : Interval).Admissible →
        Checked.convert testDictionary
            (ChineseSequence.addSelection ⟨["ㄍㄨㄛˊ", "ㄇㄧㄣˊ"], [], []⟩ ⟨1, 3, "民大"⟩) =
          Checked.convert testDictionary ⟨["ㄍㄨㄛˊ", "ㄇㄧㄣˊ"], [], []⟩ ∧
        ∀ next, Checked.convertNext testDictionary
            (ChineseSequence.addSelection ⟨["ㄍㄨㄛˊ", "ㄇㄧㄣˊ"], [], []⟩ ⟨1, 3, "民大"⟩) next =
          Checked.convertNext testDictionary ⟨["ㄍㄨㄛˊ", "ㄇㄧㄣˊ"], [], []⟩ next)) :=
  ⟨(constraints_outside_input_ignored testDictionary _).1 ⟨0⟩ (Or.inl rfl),
    (constraints_outside_input_ignored testDictionary _).2 ⟨1, 3, "民大"⟩ (by decide)⟩

end ChewingConversion
