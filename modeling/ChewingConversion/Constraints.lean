import ChewingConversion.ConvertNext

/-!
# Constraints: selections and breaks

The editor constrains a conversion by selecting a phrase for a range of syllables
or by breaking the input at a position, and converts again.  `find_best_phrase`
reads the constraints range by range: a selection is checked only on the ranges
that contain it, a break only on the ranges it lies strictly inside.  Hence

* a selection inside an output interval is shown, by that interval and at its
  position in the whole text; a selection that no output interval contains is
  not checked at all, and an output interval may straddle one of its ends;
* confirming an interval of a grid cover, or breaking the input at one of its
  boundaries, keeps that cover in the grid, but `convert` may then return
  another one: the table of `find_best_path` is not monotone in its candidates.
-/

namespace ChewingConversion

variable {Syllable : Type}

namespace ChineseSequence

/-- The sequence with one more selection. -/
def addSelection (seq : ChineseSequence Syllable) (selection : Interval) :
    ChineseSequence Syllable :=
  { seq with selections := seq.selections ++ [selection] }

/-- The sequence with one more break. -/
def addBreak (seq : ChineseSequence Syllable) (br : Break) : ChineseSequence Syllable :=
  { seq with breaks := seq.breaks ++ [br] }

@[simp] theorem addSelection_syllables (seq : ChineseSequence Syllable) (selection : Interval) :
    (seq.addSelection selection).syllables = seq.syllables := rfl

@[simp] theorem addSelection_selections (seq : ChineseSequence Syllable) (selection : Interval) :
    (seq.addSelection selection).selections = seq.selections ++ [selection] := rfl

@[simp] theorem addSelection_breaks (seq : ChineseSequence Syllable) (selection : Interval) :
    (seq.addSelection selection).breaks = seq.breaks := rfl

@[simp] theorem addBreak_syllables (seq : ChineseSequence Syllable) (br : Break) :
    (seq.addBreak br).syllables = seq.syllables := rfl

@[simp] theorem addBreak_selections (seq : ChineseSequence Syllable) (br : Break) :
    (seq.addBreak br).selections = seq.selections := rfl

@[simp] theorem addBreak_breaks (seq : ChineseSequence Syllable) (br : Break) :
    (seq.addBreak br).breaks = seq.breaks ++ [br] := rfl

end ChineseSequence

/-- The text an output shows: its phrases one after another. -/
def outputText (output : List Interval) : String :=
  ⟨output.flatMap fun interval => interval.phrase.data⟩

/-- Every selection inside an interval of `output` is shown: the interval's phrase
reads it at the matching offset, and the whole text reads it at its position. -/
def ShowsSelections (seq : ChineseSequence Syllable) (output : List Interval) : Prop :=
  ∀ selection ∈ seq.selections, ∀ interval ∈ output, interval.start ≤ selection.start →
    selection.end ≤ interval.end →
      ReadsAt interval.phrase (selection.start - interval.start) selection.phrase ∧
        ReadsAt (outputText output) selection.start selection.phrase

/-! ### The intervals of a chain -/

/-- In a chain whose phrases have one character per syllable, the text of an
interval starts as many characters into the text as the interval starts
syllables into the chain. -/
theorem IsChain.drop_text : ∀ {start target : Nat} {intervals : List PossibleInterval},
    IsChain start target intervals →
    (∀ interval ∈ intervals, interval.phrase.text.length = interval.end - interval.start) →
    ∀ interval ∈ intervals, ∃ rest,
      (intervals.flatMap fun interval => interval.phrase.text.data).drop (interval.start - start) =
        interval.phrase.text.data ++ rest
  | _, _, [], _, _, _, member => absurd member (List.not_mem_nil _)
  | start, _, head :: intervals, ⟨headStart, _, restChain⟩, lengths, interval, member => by
    rw [List.flatMap_cons]
    rcases List.mem_cons.mp member with rfl | inRest
    · exact ⟨_, by rw [headStart, Nat.sub_self, List.drop_zero]⟩
    · have headLength : head.phrase.text.data.length = head.end - start :=
        headStart ▸ lengths head (List.mem_cons_self _ _)
      have after := (restChain.bounds interval inRest).1
      obtain ⟨rest, dropped⟩ := restChain.drop_text
        (fun other member => lengths other (List.mem_cons_of_mem _ member)) interval inRest
      refine ⟨rest, ?_⟩
      rw [List.drop_append_eq_append_drop, List.drop_eq_nil_of_le (by omega), List.nil_append,
        headLength, show interval.start - start - (head.end - start) = interval.start - head.end
          by omega, dropped]

/-- What an interval of a cover reads, the text of the whole cover reads at the
interval's position. -/
theorem readsAt_outputText {path : PossiblePath} {n : Nat} (chain : IsChain 0 n path.intervals)
    (lengths : ∀ interval ∈ path.intervals,
      interval.phrase.text.length = interval.end - interval.start)
    {interval : PossibleInterval} (member : interval ∈ path.intervals) {offset : Nat}
    {piece : String} (reads : ReadsAt interval.phrase.text offset piece) :
    ReadsAt (outputText path.toIntervals) (interval.start + offset) piece := by
  obtain ⟨rest, dropped⟩ := chain.drop_text lengths interval member
  rw [Nat.sub_zero] at dropped
  intro i iLt
  have inside : offset + i < interval.phrase.text.data.length := by
    by_contra outside
    have missing := reads i iLt
    rw [List.getElem?_eq_none (by omega),
      List.getElem?_eq_getElem (show i < piece.data.length from iLt)] at missing
    exact Option.noConfusion missing
  calc (outputText path.toIntervals).data[interval.start + offset + i]?
      = ((path.intervals.flatMap fun interval => interval.phrase.text.data).drop
          interval.start)[offset + i]? := by
        rw [List.getElem?_drop, Nat.add_assoc]
        simp [outputText, PossiblePath.toIntervals, List.flatMap_map, PossibleInterval.toInterval]
    _ = interval.phrase.text.data[offset + i]? := by
        rw [dropped, List.getElem?_append_left inside]
    _ = piece.data[i]? := reads i iLt

/-! ### Selections inside the output -/

/-- A phrase of the grid has one character per syllable when the dictionary's have. -/
theorem FromGrid.phrase_length {dict : Dictionary Syllable} {seq : ChineseSequence Syllable}
    (phraseLengths : ∀ syllables, ∀ phrase ∈ dict.lookupPhrase syllables,
      phrase.text.length = syllables.length)
    {result : Interval} (fromGrid : FromGrid dict seq result) :
    result.phrase.length = result.end - result.start := by
  obtain ⟨phrase, endLe, -, textEq, -, member, -⟩ := fromGrid
  rw [textEq, phraseLengths _ phrase member, slice_length _ endLe]

theorem showsSelections_of_fromGrid {dict : Dictionary Syllable} {seq : ChineseSequence Syllable}
    (phraseLengths : ∀ syllables, ∀ phrase ∈ dict.lookupPhrase syllables,
      phrase.text.length = syllables.length)
    (selectionLengths : ∀ selection ∈ seq.selections,
      selection.phrase.length = selection.end - selection.start)
    {path : PossiblePath} (chain : IsChain 0 seq.syllables.length path.intervals)
    (fromGrid : ∀ result ∈ path.toIntervals, FromGrid dict seq result) :
    ShowsSelections seq path.toIntervals := by
  have explained : ∀ interval ∈ path.intervals, FromGrid dict seq interval.toInterval :=
    fun interval member => fromGrid _ (List.mem_map_of_mem _ member)
  intro selection selected result member startLe endLe
  obtain ⟨interval, inPath, rfl⟩ := List.mem_map.mp member
  obtain ⟨phrase, -, -, textEq, -, -, agrees⟩ := explained interval inPath
  have textEq : interval.phrase.text = phrase.text := textEq
  have reads :
      ReadsAt interval.phrase.text (selection.start - interval.start) selection.phrase := by
    rw [← substring_eq_iff_readsAt, selectionLengths selection selected, textEq]
    exact agrees selection selected startLe endLe
  refine ⟨reads, ?_⟩
  have shown := readsAt_outputText chain
    (fun other member => (explained other member).phrase_length phraseLengths) inPath reads
  rwa [Nat.add_sub_cancel' (show interval.start ≤ selection.start from startLe)] at shown

/-- A dictionary of `測`, `側室`, `事宜`, `儀` and a frequent `試`. -/
def frequentMiddle : Dictionary String where
  lookupPhrase
    | ["ㄘㄜˋ"] => [⟨"測", 0⟩]
    | ["ㄕˋ"] => [⟨"試", 1536000⟩]
    | ["ㄧˊ"] => [⟨"儀", 0⟩]
    | ["ㄘㄜˋ", "ㄕˋ"] => [⟨"側室", 0⟩]
    | ["ㄕˋ", "ㄧˊ"] => [⟨"事宜", 0⟩]
    | _ => []

theorem frequentMiddle_phrase_length :
    ∀ syllables, ∀ phrase ∈ frequentMiddle.lookupPhrase syllables,
    phrase.text.length = syllables.length := by
  intro syllables phrase member
  simp only [frequentMiddle] at member
  split at member <;> simp_all <;> decide

/-- When the dictionary's phrases have one character per syllable and every
selection's phrase one character per selected syllable, every selection inside an
interval of the output of `convert` (when it is a cover) or of `convert_next` is
shown, by that interval and in the whole text at the selection's position. -/
theorem selections_inside_output_are_shown (dict : Dictionary Syllable)
    (seq : ChineseSequence Syllable)
    (phraseLengths : ∀ syllables, ∀ phrase ∈ dict.lookupPhrase syllables,
      phrase.text.length = syllables.length)
    (selectionLengths : ∀ selection ∈ seq.selections,
      selection.phrase.length = selection.end - selection.start) :
    (∀ path : PossiblePath, IsChain 0 seq.syllables.length path.intervals →
      convert dict seq = path.toIntervals → ShowsSelections seq (convert dict seq)) ∧
    (dict.lookupPhrase [] = [] → ∀ next output, convertNext dict seq next = .ok output →
      ShowsSelections seq output) := by
  constructor
  · intro path chain converted
    rw [converted]
    exact showsSelections_of_fromGrid phraseLengths selectionLengths chain
      (converted ▸ fun _ => fromGrid_of_mem_convert)
  · intro emptyLookup next output converted
    obtain ⟨path, ⟨cover, -⟩, rfl⟩ := exists_maximalCover_of_convertNext emptyLookup converted
    exact showsSelections_of_fromGrid phraseLengths selectionLengths cover.1
      (fromGrid_of_isGridCover cover)

/-- On `ㄘㄜˋ ㄕˋ ㄧˊ` with `側室` selected. -/
theorem selections_inside_output_are_shown_ceshi :
    (∀ syllables, ∀ phrase ∈ frequentMiddle.lookupPhrase syllables,
      phrase.text.length = syllables.length) ∧
    (∀ selection ∈ [(⟨0, 2, "側室"⟩ : Interval)],
      selection.phrase.length = selection.end - selection.start) ∧
    (∀ path : PossiblePath, IsChain 0 3 path.intervals →
      convert frequentMiddle ⟨["ㄘㄜˋ", "ㄕˋ", "ㄧˊ"], [⟨0, 2, "側室"⟩], []⟩ = path.toIntervals →
      ShowsSelections ⟨["ㄘㄜˋ", "ㄕˋ", "ㄧˊ"], [⟨0, 2, "側室"⟩], []⟩
        (convert frequentMiddle ⟨["ㄘㄜˋ", "ㄕˋ", "ㄧˊ"], [⟨0, 2, "側室"⟩], []⟩)) ∧
    (frequentMiddle.lookupPhrase [] = [] → ∀ next output,
      convertNext frequentMiddle ⟨["ㄘㄜˋ", "ㄕˋ", "ㄧˊ"], [⟨0, 2, "側室"⟩], []⟩ next = .ok output →
      ShowsSelections ⟨["ㄘㄜˋ", "ㄕˋ", "ㄧˊ"], [⟨0, 2, "側室"⟩], []⟩ output) :=
  ⟨frequentMiddle_phrase_length, by decide,
    selections_inside_output_are_shown frequentMiddle ⟨["ㄘㄜˋ", "ㄕˋ", "ㄧˊ"], [⟨0, 2, "側室"⟩], []⟩
      frequentMiddle_phrase_length (by decide)⟩

/-! ### Adding a constraint -/

section Constrain

variable {dict : Dictionary Syllable} {seq : ChineseSequence Syllable}

theorem agreeingPhrases_append_selection (start «end» : Nat) (selections : List Interval)
    (selection : Interval) (phrases : List Phrase) :
    agreeingPhrases start «end» (selections ++ [selection]) phrases =
      (agreeingPhrases start «end» selections phrases).filter
        fun phrase => phrase.agrees start «end» selection := by
  rw [agreeingPhrases, agreeingPhrases, List.filter_filter]
  exact List.filter_congr fun phrase _ => by simp [List.all_append, Bool.and_comm]

/-- A new selection keeps every grid interval whose phrase reads it. -/
theorem gridPhrase_addSelection {start «end» : Nat} (startLe : start ≤ «end»)
    (endLe : «end» ≤ seq.syllables.length) {phrase : Phrase}
    (found : gridPhrase dict seq start «end» = some phrase) {selection : Interval}
    (agrees : phrase.agrees start «end» selection = true) :
    gridPhrase dict (seq.addSelection selection) start «end» = some phrase := by
  obtain ⟨free, first⟩ := (gridPhrase_eq_some_iff dict seq startLe endLe phrase).mp found
  rw [gridPhrase_eq_some_iff dict (seq.addSelection selection) startLe endLe]
  simpa [agreeingPhrases_append_selection] using And.intro free (first.filter _ agrees)

/-- A new break keeps every grid interval it does not lie strictly inside. -/
theorem gridPhrase_addBreak {start «end» : Nat} (startLe : start ≤ «end»)
    (endLe : «end» ≤ seq.syllables.length) {phrase : Phrase}
    (found : gridPhrase dict seq start «end» = some phrase) {br : Break}
    (outside : ¬(start < br.pos ∧ br.pos < «end»)) :
    gridPhrase dict (seq.addBreak br) start «end» = some phrase := by
  obtain ⟨free, first⟩ := (gridPhrase_eq_some_iff dict seq startLe endLe phrase).mp found
  rw [gridPhrase_eq_some_iff dict (seq.addBreak br) startLe endLe]
  refine ⟨fun other member => ?_, first⟩
  rcases List.mem_append.mp member with old | new
  · exact free other old
  · exact List.mem_singleton.mp new ▸ outside

/-- Confirming an interval of a grid cover keeps the cover in the grid. -/
theorem IsGridCover.addSelection
    (phraseLengths : ∀ syllables, ∀ phrase ∈ dict.lookupPhrase syllables,
      phrase.text.length = syllables.length)
    {path : PossiblePath} (cover : IsGridCover dict seq path) {interval : PossibleInterval}
    (member : interval ∈ path.intervals) :
    IsGridCover dict (seq.addSelection interval.toInterval) path := by
  refine ⟨cover.1, fun other otherMember => ?_⟩
  obtain ⟨endLe, found⟩ := cover.2 other otherMember
  have bounds := cover.1.bounds other otherMember
  refine ⟨endLe, gridPhrase_addSelection bounds.2.1.le endLe found ?_⟩
  by_cases same : other = interval
  · subst same
    have length : other.phrase.text.length = other.end - other.start :=
      (fromGrid_of_isGridCover cover _ (List.mem_map_of_mem _ otherMember)).phrase_length
        phraseLengths
    have own : substring other.phrase.text 0 (other.end - other.start) = other.phrase.text :=
      length ▸ substring_zero_length _
    simp [Phrase.agrees, PossibleInterval.toInterval, own]
  · have inner := (cover.1.bounds interval member).2.1
    have apart := cover.1.separated other otherMember interval member same
    simp only [Phrase.agrees, PossibleInterval.toInterval, Bool.or_eq_true, Bool.not_eq_true',
      Bool.and_eq_false_iff, decide_eq_false_iff_not]
    omega

/-- Breaking the input at a boundary of a grid cover keeps the cover in the grid. -/
theorem IsGridCover.addBreak {path : PossiblePath} (cover : IsGridCover dict seq path)
    {pos : Nat} (boundary : pos ∈ path.ends) : IsGridCover dict (seq.addBreak ⟨pos⟩) path := by
  obtain ⟨ending, endingMember, rfl⟩ := List.mem_map.mp boundary
  refine ⟨cover.1, fun other otherMember => ?_⟩
  obtain ⟨endLe, found⟩ := cover.2 other otherMember
  refine ⟨endLe, gridPhrase_addBreak (cover.1.bounds other otherMember).2.1.le endLe found ?_⟩
  dsimp only
  by_cases same : other = ending
  · subst same
    omega
  · have inner := (cover.1.bounds ending endingMember).2.1
    have apart := cover.1.separated other otherMember ending endingMember same
    omega

end Constrain

/-- Confirming what a grid cover shows keeps it a grid cover: adding any of its
intervals to the selections, or any of its boundaries to the breaks, leaves every
one of its intervals in the grid with the same phrase. -/
theorem confirming_keeps_grid_cover (dict : Dictionary Syllable) (seq : ChineseSequence Syllable)
    (phraseLengths : ∀ syllables, ∀ phrase ∈ dict.lookupPhrase syllables,
      phrase.text.length = syllables.length)
    (path : PossiblePath) (cover : IsGridCover dict seq path) :
    (∀ interval ∈ path.intervals, IsGridCover dict (seq.addSelection interval.toInterval) path) ∧
    (∀ pos ∈ path.ends, IsGridCover dict (seq.addBreak ⟨pos⟩) path) :=
  ⟨fun _ member => cover.addSelection phraseLengths member,
    fun _ boundary => cover.addBreak boundary⟩

/-- On `ㄘㄜˋ ㄕˋ ㄧˊ` with `側室` selected on the first two syllables, the grid still
holds `測` and `事宜`, which no check relates to the selection: both conversions
can return `測 事宜`, whose first interval ends inside the selection, and the text
reads `測事` where `側室` was selected, although the cover `側室 儀` exists. -/
theorem convert_straddles_selection :
    (∀ syllables, ∀ phrase ∈ frequentMiddle.lookupPhrase syllables,
      phrase.text.length = syllables.length) ∧
    frequentMiddle.lookupPhrase [] = [] ∧
    (∀ selection ∈ [(⟨0, 2, "側室"⟩ : Interval)], selection.start < selection.end ∧
      selection.end ≤ 3 ∧ selection.phrase.length = selection.end - selection.start) ∧
    IsGridCover frequentMiddle ⟨["ㄘㄜˋ", "ㄕˋ", "ㄧˊ"], [⟨0, 2, "側室"⟩], []⟩
      ⟨[⟨0, 2, ⟨"側室", 0⟩⟩, ⟨2, 3, ⟨"儀", 0⟩⟩]⟩ ∧
    convert frequentMiddle ⟨["ㄘㄜˋ", "ㄕˋ", "ㄧˊ"], [⟨0, 2, "側室"⟩], []⟩ =
      [⟨0, 1, "測"⟩, ⟨1, 3, "事宜"⟩] ∧
    convertNext frequentMiddle ⟨["ㄘㄜˋ", "ㄕˋ", "ㄧˊ"], [⟨0, 2, "側室"⟩], []⟩ 1 =
      .ok [⟨0, 1, "測"⟩, ⟨1, 3, "事宜"⟩] ∧
    ¬ReadsAt (outputText [⟨0, 1, "測"⟩, ⟨1, 3, "事宜"⟩]) 0 "側室" :=
  ⟨frequentMiddle_phrase_length, rfl, by decide, by decide, by decide, rfl, by decide⟩

/-- Confirming `測`, the first interval of the conversion `測 事宜` of `ㄘㄜˋ ㄕˋ ㄧˊ`,
or breaking the input after it, removes `側室` from the grid; position 2 of the
table then holds `測 試`, which extends to `測 試 儀` (12000), above `測 事宜`
(11900). -/
theorem confirming_changes_convert :
    frequentMiddle.lookupPhrase [] = [] ∧
    IsGridCover frequentMiddle ⟨["ㄘㄜˋ", "ㄕˋ", "ㄧˊ"], [], []⟩
      ⟨[⟨0, 1, ⟨"測", 0⟩⟩, ⟨1, 3, ⟨"事宜", 0⟩⟩]⟩ ∧
    convert frequentMiddle ⟨["ㄘㄜˋ", "ㄕˋ", "ㄧˊ"], [], []⟩ = [⟨0, 1, "測"⟩, ⟨1, 3, "事宜"⟩] ∧
    convert frequentMiddle
        ((⟨["ㄘㄜˋ", "ㄕˋ", "ㄧˊ"], [], []⟩ : ChineseSequence String).addSelection ⟨0, 1, "測"⟩) =
      [⟨0, 1, "測"⟩, ⟨1, 2, "試"⟩, ⟨2, 3, "儀"⟩] ∧
    convert frequentMiddle
        ((⟨["ㄘㄜˋ", "ㄕˋ", "ㄧˊ"], [], []⟩ : ChineseSequence String).addBreak ⟨1⟩) =
      [⟨0, 1, "測"⟩, ⟨1, 2, "試"⟩, ⟨2, 3, "儀"⟩] := by
  decide

/-- On the same input the confirmed cover `測 事宜` stays in the grid. -/
theorem confirming_keeps_grid_cover_ceshi :
    (∀ syllables, ∀ phrase ∈ frequentMiddle.lookupPhrase syllables,
      phrase.text.length = syllables.length) ∧
    IsGridCover frequentMiddle ⟨["ㄘㄜˋ", "ㄕˋ", "ㄧˊ"], [], []⟩
      ⟨[⟨0, 1, ⟨"測", 0⟩⟩, ⟨1, 3, ⟨"事宜", 0⟩⟩]⟩ ∧
    (∀ interval ∈ [(⟨0, 1, ⟨"測", 0⟩⟩ : PossibleInterval), ⟨1, 3, ⟨"事宜", 0⟩⟩],
      IsGridCover frequentMiddle
        ((⟨["ㄘㄜˋ", "ㄕˋ", "ㄧˊ"], [], []⟩ : ChineseSequence String).addSelection interval.toInterval)
        ⟨[⟨0, 1, ⟨"測", 0⟩⟩, ⟨1, 3, ⟨"事宜", 0⟩⟩]⟩) ∧
    (∀ pos ∈ (⟨[⟨0, 1, ⟨"測", 0⟩⟩, ⟨1, 3, ⟨"事宜", 0⟩⟩]⟩ : PossiblePath).ends,
      IsGridCover frequentMiddle
        ((⟨["ㄘㄜˋ", "ㄕˋ", "ㄧˊ"], [], []⟩ : ChineseSequence String).addBreak ⟨pos⟩)
        ⟨[⟨0, 1, ⟨"測", 0⟩⟩, ⟨1, 3, ⟨"事宜", 0⟩⟩]⟩) :=
  ⟨frequentMiddle_phrase_length, by decide,
    confirming_keeps_grid_cover frequentMiddle _ frequentMiddle_phrase_length _ (by decide)⟩

/-! ### Which covers a break keeps -/

/-- A break takes a range's phrase away exactly when it lies strictly inside the
range, and changes nothing else. -/
theorem gridPhrase_addBreak_eq {dict : Dictionary Syllable} {seq : ChineseSequence Syllable}
    {start «end» : Nat} (startLe : start ≤ «end») (endLe : «end» ≤ seq.syllables.length)
    (br : Break) :
    gridPhrase dict (seq.addBreak br) start «end» =
      if start < br.pos ∧ br.pos < «end» then none else gridPhrase dict seq start «end» := by
  have endEq : start + (slice seq.syllables start «end»).length = «end» := by
    rw [slice_length _ endLe]
    omega
  simp only [gridPhrase, findBestPhrase, ChineseSequence.addBreak_breaks,
    ChineseSequence.addBreak_syllables, ChineseSequence.addBreak_selections, endEq,
    List.any_append, List.any_cons, List.any_nil, Bool.or_false]
  by_cases inside : start < br.pos ∧ br.pos < «end»
  · simp [inside.1, inside.2]
  · have outside : (decide (start < br.pos) && decide (br.pos < «end»)) = false := by
      simpa using inside
    simp only [inside, if_false, outside, Bool.or_false]

/-- An interval in the grid after a break was in it before, and the break does not
lie strictly inside it. -/
theorem InGrid.of_addBreak {dict : Dictionary Syllable} {seq : ChineseSequence Syllable}
    {br : Break} {interval : PossibleInterval} (startLe : interval.start ≤ interval.end)
    (inGrid : InGrid dict (seq.addBreak br) interval) :
    InGrid dict seq interval ∧ ¬(interval.start < br.pos ∧ br.pos < interval.end) := by
  obtain ⟨endLe, found⟩ := inGrid
  rw [gridPhrase_addBreak_eq startLe (show interval.end ≤ seq.syllables.length from endLe)] at found
  split at found
  · cases found
  · exact ⟨⟨endLe, found⟩, ‹_›⟩

/-- Breaking the input keeps exactly the grid covers none of whose intervals the
break lies strictly inside, and adds none: the alternatives after a break are
the old ones that respect it. -/
theorem isGridCover_addBreak_iff (dict : Dictionary Syllable) (seq : ChineseSequence Syllable)
    (br : Break) (path : PossiblePath) :
    IsGridCover dict (seq.addBreak br) path ↔ IsGridCover dict seq path ∧
      ∀ interval ∈ path.intervals, ¬(interval.start < br.pos ∧ br.pos < interval.end) := by
  constructor
  · rintro ⟨chain, grid⟩
    have kept := fun interval member =>
      InGrid.of_addBreak (chain.bounds interval member).2.1.le (grid interval member)
    exact ⟨⟨chain, fun interval member => (kept interval member).1⟩,
      fun interval member => (kept interval member).2⟩
  · rintro ⟨⟨chain, grid⟩, outside⟩
    exact ⟨chain, fun interval member => ⟨(grid interval member).1,
      gridPhrase_addBreak (chain.bounds interval member).2.1.le (grid interval member).1
        (grid interval member).2 (outside interval member)⟩⟩

end ChewingConversion
