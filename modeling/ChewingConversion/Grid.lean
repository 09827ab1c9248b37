import ChewingConversion.BestPhrase

/-!
# The candidate grid

`find_intervals` asks `find_best_phrase` about every range of the input and
collects the answers.  Both searches of the engine (the dynamic programme of
`convert` and the enumeration of `convert_next`) build their paths from these
answers, so the grid, and the covers of the input made of grid intervals, are
the common vocabulary of the results about them.
-/

namespace ChewingConversion

variable {Syllable : Type}

/-- Every range `[begin, end)` with `begin < len` and `begin ≤ end ≤ len`, in the
order of the two nested loops, with the phrase `find_best_phrase` gives it. -/
def findIntervals (dict : Dictionary Syllable) (seq : ChineseSequence Syllable) :
    List PossibleInterval :=
  (List.range seq.syllables.length).flatMap fun begin =>
    (List.range' begin (seq.syllables.length + 1 - begin)).filterMap fun «end» =>
      (findBestPhrase dict begin (slice seq.syllables begin «end») seq.selections
        seq.breaks).map fun phrase => ⟨begin, «end», phrase⟩

/-- The phrase the grid holds for `[start, end)`: the call of `find_best_phrase`
that both `find_intervals` and `find_all_paths` make. -/
def gridPhrase (dict : Dictionary Syllable) (seq : ChineseSequence Syllable)
    (start «end» : Nat) : Option Phrase :=
  findBestPhrase dict start (slice seq.syllables start «end») seq.selections seq.breaks

/-- `interval` lies inside the input and carries the grid's phrase for its range. -/
def InGrid (dict : Dictionary Syllable) (seq : ChineseSequence Syllable)
    (interval : PossibleInterval) : Prop :=
  interval.end ≤ seq.syllables.length ∧
    gridPhrase dict seq interval.start interval.end = some interval.phrase

/-- A cover of `[0, n)` by non-empty intervals of the candidate grid. -/
def IsGridCover (dict : Dictionary Syllable) (seq : ChineseSequence Syllable)
    (path : PossiblePath) : Prop :=
  IsChain 0 seq.syllables.length path.intervals ∧
    ∀ interval ∈ path.intervals, InGrid dict seq interval

instance (dict : Dictionary Syllable) (seq : ChineseSequence Syllable)
    (interval : PossibleInterval) : Decidable (InGrid dict seq interval) :=
  inferInstanceAs (Decidable (_ ∧ _))

instance (dict : Dictionary Syllable) (seq : ChineseSequence Syllable) (path : PossiblePath) :
    Decidable (IsGridCover dict seq path) :=
  inferInstanceAs (Decidable (_ ∧ ∀ interval ∈ path.intervals, _))

/-- An empty range has no phrase when the dictionary has none for no syllables. -/
theorem gridPhrase_self {dict : Dictionary Syllable} (emptyLookup : dict.lookupPhrase [] = [])
    (seq : ChineseSequence Syllable) (position : Nat) :
    gridPhrase dict seq position position = none := by
  simp only [gridPhrase, findBestPhrase, slice, Nat.sub_self, List.take_zero, emptyLookup]
  split <;> rfl

theorem gridPhrase_eq_some_iff (dict : Dictionary Syllable) (seq : ChineseSequence Syllable)
    {start «end» : Nat} (startLe : start ≤ «end») (endLe : «end» ≤ seq.syllables.length)
    (phrase : Phrase) :
    gridPhrase dict seq start «end» = some phrase ↔
      BreakFree seq.breaks start «end» ∧
        IsFirstMax (agreeingPhrases start «end» seq.selections
          (dict.lookupPhrase (slice seq.syllables start «end»))) phrase := by
  have endEq : start + (slice seq.syllables start «end»).length = «end» := by
    rw [slice_length _ endLe]
    omega
  rw [gridPhrase, findBestPhrase_eq_some_iff, endEq]

theorem gridPhrase_eq_none_iff (dict : Dictionary Syllable) (seq : ChineseSequence Syllable)
    {start «end» : Nat} (startLe : start ≤ «end») (endLe : «end» ≤ seq.syllables.length) :
    gridPhrase dict seq start «end» = none ↔
      ¬BreakFree seq.breaks start «end» ∨
        agreeingPhrases start «end» seq.selections
          (dict.lookupPhrase (slice seq.syllables start «end»)) = [] := by
  have endEq : start + (slice seq.syllables start «end»).length = «end» := by
    rw [slice_length _ endLe]
    omega
  rw [gridPhrase, findBestPhrase_eq_none_iff, endEq]

theorem mem_findIntervals {dict : Dictionary Syllable} {seq : ChineseSequence Syllable}
    {interval : PossibleInterval} :
    interval ∈ findIntervals dict seq ↔
      interval.start < seq.syllables.length ∧ interval.start ≤ interval.end ∧
        InGrid dict seq interval := by
  obtain ⟨start, «end», phrase⟩ := interval
  simp only [findIntervals, List.mem_flatMap, List.mem_range, List.mem_filterMap,
    List.mem_range'_1, Option.map_eq_some', PossibleInterval.mk.injEq, InGrid, gridPhrase]
  constructor
  · rintro ⟨begin, beginLt, «end», ⟨beginLe, endLt⟩, found, found_eq, rfl, rfl, rfl⟩
    exact ⟨beginLt, beginLe, by omega, found_eq⟩
  · rintro ⟨startLt, startLe, endLe, found⟩
    exact ⟨start, startLt, «end», ⟨startLe, by omega⟩, phrase, found, rfl, rfl, rfl⟩

/-- Every interval of the grid is non-empty when the dictionary has no phrase
for no syllables. -/
theorem start_lt_end_of_mem_findIntervals {dict : Dictionary Syllable}
    (emptyLookup : dict.lookupPhrase [] = []) {seq : ChineseSequence Syllable}
    {interval : PossibleInterval} (member : interval ∈ findIntervals dict seq) :
    interval.start < interval.end := by
  obtain ⟨-, startLe, -, found⟩ := mem_findIntervals.mp member
  rcases Nat.lt_or_eq_of_le startLe with lt | eq
  · exact lt
  · rw [eq, gridPhrase_self emptyLookup] at found
    cases found

private theorem flatMap_eq_of_unique {α β : Type} {f : α → List β} :
    ∀ {l : List α} {a : α}, l.Nodup → a ∈ l → (∀ b ∈ l, b ≠ a → f b = []) →
      l.flatMap f = f a
  | [], _, _, member, _ => absurd member (List.not_mem_nil _)
  | b :: l, a, nodup, member, others => by
    rw [List.flatMap_cons]
    rcases List.mem_cons.mp member with rfl | inTail
    · rw [List.flatMap_eq_nil_iff.mpr fun c inL =>
        others c (List.mem_cons_of_mem _ inL) fun eq => (List.nodup_cons.mp nodup).1 (eq ▸ inL),
        List.append_nil]
    · have ne : b ≠ a := fun eq => (List.nodup_cons.mp nodup).1 (eq ▸ inTail)
      rw [others b (List.mem_cons_self _ _) ne, List.nil_append]
      exact flatMap_eq_of_unique (List.nodup_cons.mp nodup).2 inTail
        fun c inL => others c (List.mem_cons_of_mem _ inL)

private theorem filterMap_eq_of_unique {α β : Type} {f : α → Option β} :
    ∀ {l : List α} {a : α}, l.Nodup → a ∈ l → (∀ b ∈ l, b ≠ a → f b = none) →
      l.filterMap f = (f a).toList
  | [], _, _, member, _ => absurd member (List.not_mem_nil _)
  | b :: l, a, nodup, member, others => by
    rw [List.filterMap_cons]
    rcases List.mem_cons.mp member with rfl | inTail
    · have rest : l.filterMap f = [] := List.filterMap_eq_nil_iff.mpr fun c inL =>
        others c (List.mem_cons_of_mem _ inL) fun eq => (List.nodup_cons.mp nodup).1 (eq ▸ inL)
      cases f a <;> simp [rest]
    · have ne : b ≠ a := fun eq => (List.nodup_cons.mp nodup).1 (eq ▸ inTail)
      rw [others b (List.mem_cons_self _ _) ne]
      exact filterMap_eq_of_unique (List.nodup_cons.mp nodup).2 inTail
        fun c inL => others c (List.mem_cons_of_mem _ inL)

/-- `find_intervals` visits each range once: the grid intervals of one range are
the grid's phrase for it, if any. -/
theorem findIntervals_filter_range (dict : Dictionary Syllable)
    (seq : ChineseSequence Syllable) {start «end» : Nat}
    (startLt : start < seq.syllables.length) (startLe : start ≤ «end»)
    (endLe : «end» ≤ seq.syllables.length) :
    (findIntervals dict seq).filter
        (fun interval => interval.start = start ∧ interval.end = «end») =
      ((gridPhrase dict seq start «end»).map fun phrase => ⟨start, «end», phrase⟩).toList := by
  rw [findIntervals, List.filter_flatMap, flatMap_eq_of_unique (List.nodup_range _)
    (List.mem_range.mpr startLt), List.filter_filterMap,
    filterMap_eq_of_unique (List.nodup_range' _ _) (List.mem_range'_1.mpr ⟨startLe, by omega⟩)]
  · rw [gridPhrase]
    cases findBestPhrase dict start (slice seq.syllables start «end») seq.selections seq.breaks <;>
      simp [Option.filter_some]
  · intro other _ otherNe
    cases findBestPhrase dict start (slice seq.syllables start other) seq.selections seq.breaks <;>
      simp [Option.filter_some, otherNe]
  · intro other _ otherNe
    rw [List.filter_filterMap, List.filterMap_eq_nil_iff]
    intro «end» _
    cases findBestPhrase dict other (slice seq.syllables other «end») seq.selections seq.breaks <;>
      simp [Option.filter_some, otherNe]

/-- The candidate grid holds exactly one interval for a range `[start, end)` when
no break lies inside it and some phrase looked up for it agrees with every
selection inside it, and none otherwise; its phrase is the first of highest
frequency among the agreeing phrases. -/
theorem findIntervals_range_spec (dict : Dictionary Syllable) (seq : ChineseSequence Syllable)
    (selectionsWellFormed : ∀ selection ∈ seq.selections, selection.start < selection.end ∧
      selection.phrase.length = selection.end - selection.start)
    {start «end» : Nat} (startLt : start < «end») (endLe : «end» ≤ seq.syllables.length) :
    ((findIntervals dict seq).filter fun interval =>
        interval.start = start ∧ interval.end = «end»).length =
      (if BreakFree seq.breaks start «end» ∧
          ∃ phrase ∈ dict.lookupPhrase (slice seq.syllables start «end»),
            AgreesWithSelections seq.selections start «end» phrase then 1 else 0) ∧
    ∀ interval ∈ findIntervals dict seq, interval.start = start → interval.end = «end» →
      IsFirstMax ((dict.lookupPhrase (slice seq.syllables start «end»)).filter fun phrase =>
        AgreesWithSelections seq.selections start «end» phrase) interval.phrase := by
  have agreeing := agreeingPhrases_eq_filter
    (fun selection member => (selectionsWellFormed selection member).2) start «end»
    (dict.lookupPhrase (slice seq.syllables start «end»))
  constructor
  · rw [findIntervals_filter_range dict seq (by omega) startLt.le endLe]
    cases found : gridPhrase dict seq start «end» with
    | none =>
      rcases (gridPhrase_eq_none_iff dict seq startLt.le endLe).mp found with blocked | empty
      · simp [blocked]
      · rw [agreeing, List.filter_eq_nil_iff] at empty
        have noneAgrees : ¬∃ phrase ∈ dict.lookupPhrase (slice seq.syllables start «end»),
            AgreesWithSelections seq.selections start «end» phrase :=
          fun ⟨phrase, member, agrees⟩ => empty phrase member (decide_eq_true agrees)
        simp [noneAgrees]
    | some phrase =>
      obtain ⟨free, first⟩ := (gridPhrase_eq_some_iff dict seq startLt.le endLe phrase).mp found
      rw [agreeing] at first
      obtain ⟨member, agrees⟩ := List.mem_filter.mp first.mem
      have someAgrees : ∃ phrase ∈ dict.lookupPhrase (slice seq.syllables start «end»),
          AgreesWithSelections seq.selections start «end» phrase :=
        ⟨phrase, member, of_decide_eq_true agrees⟩
      simp [free, someAgrees]
  · intro interval member startEq endEq
    obtain ⟨-, -, -, found⟩ := mem_findIntervals.mp member
    rw [startEq, endEq] at found
    rw [← agreeing]
    exact ((gridPhrase_eq_some_iff dict seq startLt.le endLe _).mp found).2

/-- The dictionary of the source's tests, its syllables written in Zhuyin. -/
def testDictionary : Dictionary String where
  lookupPhrase
    | ["ㄍㄨㄛˊ"] => [⟨"國", 1⟩]
    | ["ㄇㄧㄣˊ"] => [⟨"民", 1⟩]
    | ["ㄉㄚˋ"] => [⟨"大", 1⟩]
    | ["ㄏㄨㄟˋ"] => [⟨"會", 1⟩]
    | ["ㄉㄞˋ"] => [⟨"代", 1⟩]
    | ["ㄅㄧㄠˇ"] => [⟨"表", 1⟩]
    | ["ㄍㄨㄛˊ", "ㄇㄧㄣˊ"] => [⟨"國民", 200⟩]
    | ["ㄉㄚˋ", "ㄏㄨㄟˋ"] => [⟨"大會", 200⟩]
    | ["ㄉㄞˋ", "ㄅㄧㄠˇ"] => [⟨"代表", 200⟩, ⟨"戴錶", 100⟩]
    | ["ㄒㄧㄣ"] => [⟨"心", 1⟩]
    | ["ㄎㄨˋ", "ㄧㄣ"] => [⟨"庫音", 300⟩]
    | ["ㄒㄧㄣ", "ㄎㄨˋ", "ㄧㄣ"] => [⟨"新酷音", 200⟩]
    | ["ㄘㄜˋ", "ㄕˋ", "ㄧˊ"] => [⟨"測試儀", 42⟩]
    | ["ㄘㄜˋ", "ㄕˋ"] => [⟨"測試", 9318⟩]
    | ["ㄧˊ", "ㄒㄧㄚˋ"] => [⟨"一下", 10576⟩]
    | ["ㄒㄧㄚˋ"] => [⟨"下", 10576⟩]
    | _ => []

/-- The source's selection test: the range of the selection `戴錶` holds `戴錶`
although `代表` is more frequent. -/
theorem findIntervals_range_spec_daibiao :
    (∀ selection ∈ [(⟨4, 6, "戴錶"⟩ : Interval)], selection.start < selection.end ∧
      selection.phrase.length = selection.end - selection.start) ∧ 4 < 6 ∧
    6 ≤ ["ㄍㄨㄛˊ", "ㄇㄧㄣˊ", "ㄉㄚˋ", "ㄏㄨㄟˋ", "ㄉㄞˋ", "ㄅㄧㄠˇ"].length ∧
    (((findIntervals testDictionary ⟨["ㄍㄨㄛˊ", "ㄇㄧㄣˊ", "ㄉㄚˋ", "ㄏㄨㄟˋ", "ㄉㄞˋ", "ㄅㄧㄠˇ"],
        [⟨4, 6, "戴錶"⟩], []⟩).filter fun interval => interval.start = 4 ∧ interval.end = 6).length =
      (if BreakFree [] 4 6 ∧
          ∃ phrase ∈ testDictionary.lookupPhrase
            (slice ["ㄍㄨㄛˊ", "ㄇㄧㄣˊ", "ㄉㄚˋ", "ㄏㄨㄟˋ", "ㄉㄞˋ", "ㄅㄧㄠˇ"] 4 6),
            AgreesWithSelections [⟨4, 6, "戴錶"⟩] 4 6 phrase then 1 else 0) ∧
    ∀ interval ∈ findIntervals testDictionary ⟨["ㄍㄨㄛˊ", "ㄇㄧㄣˊ", "ㄉㄚˋ", "ㄏㄨㄟˋ", "ㄉㄞˋ",
        "ㄅㄧㄠˇ"], [⟨4, 6, "戴錶"⟩], []⟩, interval.start = 4 → interval.end = 6 →
      IsFirstMax ((testDictionary.lookupPhrase
        (slice ["ㄍㄨㄛˊ", "ㄇㄧㄣˊ", "ㄉㄚˋ", "ㄏㄨㄟˋ", "ㄉㄞˋ", "ㄅㄧㄠˇ"] 4 6)).filter fun phrase =>
          AgreesWithSelections [⟨4, 6, "戴錶"⟩] 4 6 phrase) interval.phrase) :=
  ⟨by decide, by decide, by decide,
    findIntervals_range_spec testDictionary _ (by decide) (by decide) (by decide)⟩

end ChewingConversion
