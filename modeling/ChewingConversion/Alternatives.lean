import ChewingConversion.CheckedNext
import ChewingConversion.Constraints

/-!
# The alternatives of `convert_next`

`trim_paths` keeps the grid covers that no other grid cover contains, and
`convert_next` cycles through all of them.  Containment reads only the ranges of
the intervals, and it is a partial order on the covers, so

* every grid cover, among them the conversion of `convert` when it covers the
  input, is contained in one of the alternatives;
* confirming what an alternative shows, by selecting one of its intervals or
  breaking the input at one of its boundaries, keeps it an alternative: the new
  constraint leaves it in the grid, and every cover of the constrained input
  has the ranges of an old cover, so none can contain it.
-/

namespace ChewingConversion

variable {Syllable : Type}

/-- The range of an interval, all that containment reads of it. -/
def PossibleInterval.range (interval : PossibleInterval) : Nat × Nat :=
  (interval.start, interval.end)

/-- The ranges of a path's intervals. -/
def PossiblePath.ranges (path : PossiblePath) : List (Nat × Nat) :=
  path.intervals.map PossibleInterval.range

theorem PossibleInterval.range_eq_range {interval interval' : PossibleInterval} :
    interval.range = interval'.range ↔
      interval.start = interval'.start ∧ interval.end = interval'.end :=
  Prod.mk.injEq _ _ _ _ ▸ Iff.rfl

/-! ### Containment reads only ranges -/

theorem seekContaining_ranges {sml sml' : PossibleInterval} (same : sml.range = sml'.range) :
    ∀ {bigs bigs' : List PossibleInterval},
      bigs.map PossibleInterval.range = bigs'.map PossibleInterval.range →
      (seekContaining sml bigs).map (List.map PossibleInterval.range) =
        (seekContaining sml' bigs').map (List.map PossibleInterval.range)
  | [], [], _ => rfl
  | [], _ :: _, ranges => by simp at ranges
  | _ :: _, [], ranges => by simp at ranges
  | big :: bigs, big' :: bigs', ranges => by
    simp only [List.map_cons, List.cons.injEq] at ranges
    obtain ⟨startEq, endEq⟩ := PossibleInterval.range_eq_range.mp ranges.1
    obtain ⟨smlStart, smlEnd⟩ := PossibleInterval.range_eq_range.mp same
    simp only [seekContaining, PossibleInterval.contains, startEq, endEq, smlStart, smlEnd]
    split_ifs
    · simp only [Option.map_some', List.map_cons, ranges.1, ranges.2]
    · exact seekContaining_ranges same ranges.2
    · rfl

theorem containsFrom_ranges : ∀ {bigs bigs' smls smls' : List PossibleInterval},
    bigs.map PossibleInterval.range = bigs'.map PossibleInterval.range →
    smls.map PossibleInterval.range = smls'.map PossibleInterval.range →
    containsFrom bigs smls = containsFrom bigs' smls'
  | _, _, [], [], _, _ => rfl
  | _, _, [], _ :: _, _, ranges => by simp at ranges
  | _, _, _ :: _, [], _, ranges => by simp at ranges
  | bigs, bigs', sml :: smls, sml' :: smls', bigRanges, ranges => by
    simp only [List.map_cons, List.cons.injEq] at ranges
    have sought := seekContaining_ranges ranges.1 bigRanges
    simp only [containsFrom]
    cases found : seekContaining sml bigs <;> cases found' : seekContaining sml' bigs' <;>
      simp only [found, found', Option.map_none', Option.map_some', reduceCtorEq,
        Option.some.injEq] at sought ⊢
    exact containsFrom_ranges sought ranges.2

theorem PossiblePath.contains_eq_of_ranges {path path' other other' : PossiblePath}
    (same : path.ranges = path'.ranges) (sameOther : other.ranges = other'.ranges) :
    path.contains other = path'.contains other' :=
  containsFrom_ranges same sameOther

/-- A chain contains itself. -/
theorem PossiblePath.contains_self {path : PossiblePath} {start target : Nat}
    (chain : IsChain start target path.intervals) : path.contains path = true :=
  (PossiblePath.contains_iff_refines chain chain).mpr fun sml member =>
    ⟨sml, member, by simp [PossibleInterval.contains]⟩

/-- Being a chain reads only ranges. -/
theorem IsChain.of_ranges : ∀ {start target : Nat} {intervals intervals' : List PossibleInterval},
    intervals.map PossibleInterval.range = intervals'.map PossibleInterval.range →
    IsChain start target intervals → IsChain start target intervals'
  | _, _, [], [], _, chain => chain
  | _, _, [], _ :: _, ranges, _ => by simp at ranges
  | _, _, _ :: _, [], ranges, _ => by simp at ranges
  | _, _, _ :: _, _ :: _, ranges, ⟨startEq, startLt, rest⟩ => by
    simp only [List.map_cons, List.cons.injEq] at ranges
    obtain ⟨sameStart, sameEnd⟩ := PossibleInterval.range_eq_range.mp ranges.1
    exact ⟨sameStart ▸ startEq, sameEnd ▸ startLt, sameEnd ▸ rest.of_ranges ranges.2⟩

/-! ### Every cover lies below an alternative -/

section Alternatives

variable {dict : Dictionary Syllable} {seq : ChineseSequence Syllable}

/-- Every maximal cover is returned for some `next`. -/
theorem exists_convertNext_of_isMaximalCover (emptyLookup : dict.lookupPhrase [] = [])
    (nonempty : 0 < seq.syllables.length) {path : PossiblePath}
    (maximal : IsMaximalCover dict seq path) :
    ∃ next, convertNext dict seq next = .ok path.toIntervals := by
  have ranked : path ∈ (sortPaths (maximalPaths (gridCovers dict seq))).reverse :=
    List.mem_reverse.mpr ((List.perm_insertionSort _ _).symm.subset
      ((mem_maximalPaths_gridCovers emptyLookup).mpr maximal))
  obtain ⟨index, found⟩ := List.mem_iff_getElem?.mp ranked
  obtain ⟨inside, -⟩ := List.getElem?_eq_some_iff.mp found
  exact ⟨index, by rw [convertNext_eq emptyLookup nonempty, cycleNth, Nat.mod_eq_of_lt inside,
    found]⟩

/-- Two covers of one grid with the same ranges are the same cover. -/
theorem eq_of_ranges_of_inGrid : ∀ {intervals intervals' : List PossibleInterval},
    (∀ interval ∈ intervals, InGrid dict seq interval) →
    (∀ interval ∈ intervals', InGrid dict seq interval) →
    intervals.map PossibleInterval.range = intervals'.map PossibleInterval.range →
    intervals = intervals'
  | [], [], _, _, _ => rfl
  | [], _ :: _, _, _, ranges => by simp at ranges
  | _ :: _, [], _, _, ranges => by simp at ranges
  | interval :: intervals, interval' :: intervals', grid, grid', ranges => by
    simp only [List.map_cons, List.cons.injEq] at ranges
    obtain ⟨startEq, endEq⟩ := PossibleInterval.range_eq_range.mp ranges.1
    have found := (grid interval (List.mem_cons_self _ _)).2
    rw [startEq, endEq, (grid' interval' (List.mem_cons_self _ _)).2, Option.some.injEq] at found
    have same : interval = interval' := by
      obtain ⟨start, «end», phrase⟩ := interval
      obtain ⟨start', end', phrase'⟩ := interval'
      exact PossibleInterval.mk.injEq .. ▸ ⟨startEq, endEq, found.symm⟩
    rw [same, eq_of_ranges_of_inGrid (fun interval member => grid interval
      (List.mem_cons_of_mem _ member)) (fun interval member => grid' interval
        (List.mem_cons_of_mem _ member)) ranges.2]

/-- With a dictionary that has no phrase for no syllables, admissible selections and
under the bound, every grid cover is contained in an alternative that
`convert_next` as a debug build runs it returns for some `next`. -/
theorem convertNext_reaches_coarser_cover (dict : Dictionary Syllable)
    (seq : ChineseSequence Syllable) (emptyLookup : dict.lookupPhrase [] = [])
    (nonempty : 0 < seq.syllables.length)
    (admissible : ∀ selection ∈ seq.selections, selection.Admissible)
    (bound : 25 * seq.syllables.length ^ 2 + 7000 * seq.syllables.length +
      ((findIntervals dict seq).map fun interval => interval.phrase.freq).sum < 2 ^ 31)
    {path : PossiblePath} (cover : IsGridCover dict seq path) :
    ∃ next maximal, IsMaximalCover dict seq maximal ∧ maximal.contains path = true ∧
      Checked.convertNext dict seq next = some (.ok maximal.toIntervals) := by
  have order : ContainsOrder (gridCovers dict seq) := containsOrder_gridCovers emptyLookup
  obtain ⟨kept, keptMember, above⟩ := (trimmed_trimPaths order).dominated path
    ((mem_gridCovers_iff emptyLookup).mpr cover)
  rw [trimPaths_eq_maximalPaths order] at keptMember
  have maximal := (mem_maximalPaths_gridCovers emptyLookup).mp keptMember
  obtain ⟨next, converted⟩ := exists_convertNext_of_isMaximalCover emptyLookup nonempty maximal
  refine ⟨next, kept, maximal, ?_, by
    rw [checkedConvertNext_eq_of_nonempty emptyLookup admissible bound nonempty, converted]⟩
  rcases above with rfl | contains
  · exact PossiblePath.contains_self cover.1
  · exact contains

theorem convertNext_reaches_coarser_cover_ceshi :
    testDictionary.lookupPhrase [] = [] ∧ 0 < 4 ∧
    (∀ selection ∈ ([] : List Interval), selection.Admissible) ∧
    25 * 4 ^ 2 + 7000 * 4 + ((findIntervals testDictionary
      ⟨["ㄘㄜˋ", "ㄕˋ", "ㄧˊ", "ㄒㄧㄚˋ"], [], []⟩).map fun interval => interval.phrase.freq).sum <
        2 ^ 31 ∧
    IsGridCover testDictionary ⟨["ㄘㄜˋ", "ㄕˋ", "ㄧˊ", "ㄒㄧㄚˋ"], [], []⟩
      ⟨[⟨0, 2, ⟨"測試", 9318⟩⟩, ⟨2, 4, ⟨"一下", 10576⟩⟩]⟩ ∧
    ∃ next maximal, IsMaximalCover testDictionary ⟨["ㄘㄜˋ", "ㄕˋ", "ㄧˊ", "ㄒㄧㄚˋ"], [], []⟩ maximal ∧
      maximal.contains ⟨[⟨0, 2, ⟨"測試", 9318⟩⟩, ⟨2, 4, ⟨"一下", 10576⟩⟩]⟩ = true ∧
      Checked.convertNext testDictionary ⟨["ㄘㄜˋ", "ㄕˋ", "ㄧˊ", "ㄒㄧㄚˋ"], [], []⟩ next =
        some (.ok maximal.toIntervals) :=
  ⟨rfl, by decide, by decide, by decide, by decide,
    convertNext_reaches_coarser_cover testDictionary _ rfl (by decide) (by decide) (by decide)
      (by decide)⟩

end Alternatives

/-! ### Confirming an alternative -/

section Confirm

variable {dict : Dictionary Syllable}

/-- A maximal cover stays maximal on an input whose covers all have the ranges
of an old cover, when it is still a cover there. -/
theorem IsMaximalCover.transfer {seq seq' : ChineseSequence Syllable} {path : PossiblePath}
    (maximal : IsMaximalCover dict seq path) (cover : IsGridCover dict seq' path)
    (back : ∀ other, IsGridCover dict seq' other →
      ∃ old, IsGridCover dict seq old ∧ old.ranges = other.ranges) :
    IsMaximalCover dict seq' path := by
  refine ⟨cover, fun other otherCover ne => ?_⟩
  obtain ⟨old, oldCover, sameRanges⟩ := back other otherCover
  rw [PossiblePath.contains_eq_of_ranges sameRanges.symm rfl]
  by_cases same : old = path
  · subst same
    exact absurd (congrArg PossiblePath.mk (eq_of_ranges_of_inGrid otherCover.2 cover.2
      sameRanges.symm)) ne
  · exact maximal.2 old oldCover same

/-- A maximal cover that stays a cover of a constrained input, all of whose covers
have the ranges of old ones, is still returned for some `next` by the debug build,
when the constrained input keeps its selections admissible and the bound. -/
theorem exists_checkedConvertNext_of_transfer (emptyLookup : dict.lookupPhrase [] = [])
    {seq seq' : ChineseSequence Syllable} {path : PossiblePath}
    (maximal : IsMaximalCover dict seq path) (cover : IsGridCover dict seq' path)
    (back : ∀ other, IsGridCover dict seq' other →
      ∃ old, IsGridCover dict seq old ∧ old.ranges = other.ranges)
    (admissible : ∀ selection ∈ seq'.selections, selection.Admissible)
    (bound : 25 * seq'.syllables.length ^ 2 + 7000 * seq'.syllables.length +
      ((findIntervals dict seq').map fun interval => interval.phrase.freq).sum < 2 ^ 31)
    (nonempty : 0 < seq'.syllables.length) :
    ∃ next, Checked.convertNext dict seq' next = some (.ok path.toIntervals) := by
  obtain ⟨next, converted⟩ :=
    exists_convertNext_of_isMaximalCover emptyLookup nonempty (maximal.transfer cover back)
  exact ⟨next, by
    rw [checkedConvertNext_eq_of_nonempty emptyLookup admissible bound nonempty, converted]⟩

variable {seq : ChineseSequence Syllable}

/-- A selection takes phrases away from ranges and never gives one to a range. -/
theorem gridPhrase_ne_none_of_addSelection {start «end» : Nat} (startLe : start ≤ «end»)
    (endLe : «end» ≤ seq.syllables.length) {selection : Interval}
    (found : gridPhrase dict (seq.addSelection selection) start «end» ≠ none) :
    gridPhrase dict seq start «end» ≠ none := by
  intro missing
  apply found
  rw [gridPhrase_eq_none_iff dict seq startLe endLe] at missing
  rw [gridPhrase_eq_none_iff dict (seq.addSelection selection) startLe endLe]
  rcases missing with blocked | empty
  · exact Or.inl blocked
  · right
    rw [ChineseSequence.addSelection_selections, agreeingPhrases_append_selection,
      ChineseSequence.addSelection_syllables, empty, List.filter_nil]

/-- Every cover of the input with a new selection has the ranges of an old cover. -/
theorem IsGridCover.of_addSelection {selection : Interval} {path : PossiblePath}
    (cover : IsGridCover dict (seq.addSelection selection) path) :
    ∃ old, IsGridCover dict seq old ∧ old.ranges = path.ranges := by
  let old : PossiblePath := ⟨path.intervals.map fun interval =>
    ⟨interval.start, interval.end, (gridPhrase dict seq interval.start interval.end).getD
      interval.phrase⟩⟩
  have ranges : old.ranges = path.ranges := by
    simp only [old, PossiblePath.ranges, List.map_map]
    rfl
  refine ⟨old, ⟨cover.1.of_ranges ranges.symm, fun interval member => ?_⟩, ranges⟩
  obtain ⟨original, originalMember, rfl⟩ := List.mem_map.mp member
  obtain ⟨endLe, found⟩ := cover.2 original originalMember
  obtain ⟨phrase, kept⟩ := Option.ne_none_iff_exists'.mp
    (gridPhrase_ne_none_of_addSelection (cover.1.bounds original originalMember).2.1.le
      (show original.end ≤ seq.syllables.length from endLe)
      (ne_of_eq_of_ne found (Option.some_ne_none _)))
  exact ⟨endLe, by simp only [kept, Option.getD_some]⟩

/-- Every cover of the input with a new break is an old cover. -/
theorem IsGridCover.of_addBreak {br : Break} {path : PossiblePath}
    (cover : IsGridCover dict (seq.addBreak br) path) : IsGridCover dict seq path :=
  ⟨cover.1, fun interval member =>
    (InGrid.of_addBreak (cover.1.bounds interval member).2.1.le (cover.2 interval member)).1⟩

/-- An interval of a grid cover, selected, passes the assertions of the debug build's
selection loop: its phrase has a character for each syllable of a non-empty range. -/
theorem IsGridCover.admissible_toInterval
    (phraseLengths : ∀ syllables, ∀ phrase ∈ dict.lookupPhrase syllables,
      phrase.text.length = syllables.length)
    {path : PossiblePath} (cover : IsGridCover dict seq path) {interval : PossibleInterval}
    (member : interval ∈ path.intervals) : interval.toInterval.Admissible := by
  have length := (fromGrid_of_isGridCover cover _ (List.mem_map_of_mem _ member)).phrase_length
    phraseLengths
  have startLt := (cover.1.bounds interval member).2.1
  refine ⟨fun emptyText => ?_, startLt.le⟩
  rw [emptyText] at length
  simp only [String.length, List.length_nil, PossibleInterval.toInterval] at length
  omega

/-! ### Constraints keep the frequency bound -/

/-- The frequency of the grid's phrase for `[start, end)`, `0` when there is none. -/
def gridFreq (dict : Dictionary Syllable) (seq : ChineseSequence Syllable) (start «end» : Nat) :
    Nat :=
  ((gridPhrase dict seq start «end»).map Phrase.freq).getD 0

theorem freqSum_filterMap_gridPhrase (begin : Nat) : ∀ ends : List Nat,
    ((ends.filterMap fun «end» => (gridPhrase dict seq begin «end»).map
        fun phrase => (⟨begin, «end», phrase⟩ : PossibleInterval)).map
      fun interval => interval.phrase.freq).sum = (ends.map (gridFreq dict seq begin)).sum
  | [] => rfl
  | «end» :: ends => by
    rw [List.map_cons, List.sum_cons, ← freqSum_filterMap_gridPhrase begin ends, gridFreq]
    cases found : gridPhrase dict seq begin «end» <;> simp [List.filterMap_cons, found]

/-- The sum of the grid's frequencies, range by range. -/
theorem freqSum_findIntervals :
    ((findIntervals dict seq).map fun interval => interval.phrase.freq).sum =
      ((List.range seq.syllables.length).map fun begin =>
        ((List.range' begin (seq.syllables.length + 1 - begin)).map
          (gridFreq dict seq begin)).sum).sum := by
  rw [findIntervals, List.map_flatMap, List.flatMap, List.sum_flatten, List.map_map]
  exact congrArg List.sum (List.map_congr_left fun begin _ => freqSum_filterMap_gridPhrase begin _)

/-- A constraint that lowers no range's frequency lowers the grid's frequency sum. -/
theorem freqSum_le_of_gridFreq_le {seq' : ChineseSequence Syllable}
    (sameLength : seq'.syllables.length = seq.syllables.length)
    (lower : ∀ start «end», start ≤ «end» → «end» ≤ seq.syllables.length →
      gridFreq dict seq' start «end» ≤ gridFreq dict seq start «end») :
    ((findIntervals dict seq').map fun interval => interval.phrase.freq).sum ≤
      ((findIntervals dict seq).map fun interval => interval.phrase.freq).sum := by
  rw [freqSum_findIntervals, freqSum_findIntervals, sameLength]
  refine List.sum_le_sum fun begin beginMember => List.sum_le_sum fun «end» endMember => ?_
  have := List.mem_range.mp beginMember
  have := List.mem_range'_1.mp endMember
  exact lower begin «end» (by omega) (by omega)

/-- A new selection leaves a range its phrase or takes it away; the phrase it leaves
was a candidate before, of at most the old best frequency. -/
theorem gridFreq_addSelection_le {start «end» : Nat} (startLe : start ≤ «end»)
    (endLe : «end» ≤ seq.syllables.length) (selection : Interval) :
    gridFreq dict (seq.addSelection selection) start «end» ≤ gridFreq dict seq start «end» := by
  unfold gridFreq
  cases found : gridPhrase dict (seq.addSelection selection) start «end» with
  | none => exact Nat.zero_le _
  | some phrase =>
    have first := ((gridPhrase_eq_some_iff dict (seq.addSelection selection) startLe endLe
      phrase).mp found).2
    rw [ChineseSequence.addSelection_selections, agreeingPhrases_append_selection] at first
    obtain ⟨old, kept⟩ := Option.ne_none_iff_exists'.mp (gridPhrase_ne_none_of_addSelection
      startLe endLe (ne_of_eq_of_ne found (Option.some_ne_none _)))
    simp only [kept, Option.map_some', Option.getD_some]
    exact ((gridPhrase_eq_some_iff dict seq startLe endLe old).mp kept).2.le phrase
      (List.mem_of_mem_filter first.mem)

theorem gridFreq_addBreak_le {start «end» : Nat} (startLe : start ≤ «end»)
    (endLe : «end» ≤ seq.syllables.length) (br : Break) :
    gridFreq dict (seq.addBreak br) start «end» ≤ gridFreq dict seq start «end» := by
  rw [gridFreq, gridFreq, gridPhrase_addBreak_eq startLe endLe]
  split
  · exact Nat.zero_le _
  · exact le_rfl

theorem freqSum_addSelection_le (selection : Interval) :
    ((findIntervals dict (seq.addSelection selection)).map
        fun interval => interval.phrase.freq).sum ≤
      ((findIntervals dict seq).map fun interval => interval.phrase.freq).sum :=
  freqSum_le_of_gridFreq_le rfl fun _ _ startLe endLe =>
    gridFreq_addSelection_le startLe endLe selection

theorem freqSum_addBreak_le (br : Break) :
    ((findIntervals dict (seq.addBreak br)).map fun interval => interval.phrase.freq).sum ≤
      ((findIntervals dict seq).map fun interval => interval.phrase.freq).sum :=
  freqSum_le_of_gridFreq_le rfl fun _ _ startLe endLe => gridFreq_addBreak_le startLe endLe br

end Confirm

/-- With a dictionary that has no phrase for no syllables and one character per
syllable, admissible selections and under the bound, confirming what
`convert_next` as a debug build runs it shows keeps it an alternative: after
selecting any of its intervals, or breaking the input at any of its interval
ends, `convert_next` still returns the same output for some `next`. -/
theorem convertNext_keeps_confirmed_alternative (dict : Dictionary Syllable)
    (seq : ChineseSequence Syllable) (emptyLookup : dict.lookupPhrase [] = [])
    (phraseLengths : ∀ syllables, ∀ phrase ∈ dict.lookupPhrase syllables,
      phrase.text.length = syllables.length)
    (admissible : ∀ selection ∈ seq.selections, selection.Admissible)
    (bound : 25 * seq.syllables.length ^ 2 + 7000 * seq.syllables.length +
      ((findIntervals dict seq).map fun interval => interval.phrase.freq).sum < 2 ^ 31)
    {next : Nat} {output : List Interval}
    (converted : Checked.convertNext dict seq next = some (.ok output)) :
    (∀ selection ∈ output, ∃ next',
      Checked.convertNext dict (seq.addSelection selection) next' = some (.ok output)) ∧
    (∀ pos ∈ output.map Interval.end, ∃ next',
      Checked.convertNext dict (seq.addBreak ⟨pos⟩) next' = some (.ok output)) := by
  rcases Nat.eq_zero_or_pos seq.syllables.length with empty | nonempty
  · have noSyllables : seq.syllables.isEmpty = true :=
      List.isEmpty_iff.mpr (List.eq_nil_of_length_eq_zero empty)
    simp only [Checked.convertNext, noSyllables, if_true, Option.some.injEq,
      Except.ok.injEq] at converted
    simp [← converted]
  rw [checkedConvertNext_eq_of_nonempty emptyLookup admissible bound nonempty,
    Option.some.injEq] at converted
  obtain ⟨path, maximal, rfl⟩ := exists_maximalCover_of_convertNext emptyLookup converted
  constructor
  · intro selection member
    obtain ⟨interval, intervalMember, rfl⟩ := List.mem_map.mp member
    exact exists_checkedConvertNext_of_transfer emptyLookup maximal
      (maximal.1.addSelection phraseLengths intervalMember) (fun _ cover => cover.of_addSelection)
      (List.forall_mem_append.mpr ⟨admissible, List.forall_mem_singleton.mpr
        (maximal.1.admissible_toInterval phraseLengths intervalMember)⟩)
      (lt_of_le_of_lt (Nat.add_le_add_left (freqSum_addSelection_le _) _) bound)
      nonempty
  · intro pos boundary
    have ends : path.toIntervals.map Interval.end = path.ends := by
      rw [PossiblePath.toIntervals, PossiblePath.ends, List.map_map]
      rfl
    rw [ends] at boundary
    exact exists_checkedConvertNext_of_transfer emptyLookup maximal (maximal.1.addBreak boundary)
      (fun other cover => ⟨other, cover.of_addBreak, rfl⟩) admissible
      (lt_of_le_of_lt (Nat.add_le_add_left (freqSum_addBreak_le _) _) bound)
      nonempty

theorem convertNext_keeps_confirmed_alternative_shiyi :
    frequentMiddle.lookupPhrase [] = [] ∧
    (∀ syllables, ∀ phrase ∈ frequentMiddle.lookupPhrase syllables,
      phrase.text.length = syllables.length) ∧
    (∀ selection ∈ ([] : List Interval), selection.Admissible) ∧
    25 * 3 ^ 2 + 7000 * 3 + ((findIntervals frequentMiddle
      ⟨["ㄘㄜˋ", "ㄕˋ", "ㄧˊ"], [], []⟩).map fun interval => interval.phrase.freq).sum < 2 ^ 31 ∧
    Checked.convertNext frequentMiddle ⟨["ㄘㄜˋ", "ㄕˋ", "ㄧˊ"], [], []⟩ 1 =
      some (.ok [⟨0, 1, "測"⟩, ⟨1, 3, "事宜"⟩]) ∧
    (∀ selection ∈ [(⟨0, 1, "測"⟩ : Interval), ⟨1, 3, "事宜"⟩], ∃ next,
      Checked.convertNext frequentMiddle
        (ChineseSequence.addSelection ⟨["ㄘㄜˋ", "ㄕˋ", "ㄧˊ"], [], []⟩ selection) next =
          some (.ok [⟨0, 1, "測"⟩, ⟨1, 3, "事宜"⟩])) ∧
    (∀ pos ∈ [(⟨0, 1, "測"⟩ : Interval), ⟨1, 3, "事宜"⟩].map Interval.end, ∃ next,
      Checked.convertNext frequentMiddle
        (ChineseSequence.addBreak ⟨["ㄘㄜˋ", "ㄕˋ", "ㄧˊ"], [], []⟩ ⟨pos⟩) next =
          some (.ok [⟨0, 1, "測"⟩, ⟨1, 3, "事宜"⟩])) :=
  ⟨rfl, frequentMiddle_phrase_length, by decide, by decide, rfl,
    convertNext_keeps_confirmed_alternative frequentMiddle _ rfl frequentMiddle_phrase_length
      (by decide) (by decide) (show Checked.convertNext _ _ 1 = _ from rfl)⟩

end ChewingConversion
