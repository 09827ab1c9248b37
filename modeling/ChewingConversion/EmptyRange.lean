import ChewingConversion.ConvertNext

/-!
# The empty range

Both loops over the ends of a range start at the range's own start:
`find_intervals` runs `end in begin..=len` and `find_all_paths` runs
`end in start..=target`.  So both ask `find_best_phrase` about the empty range
`[start, start)`.  No break lies strictly inside it, and only an empty selection
at `start` is checked on it, so it holds the dictionary's best phrase for no
syllables whenever there is one.

With such a dictionary the grid holds an empty interval at every position, and
`convert` may return one.  `find_all_paths` then recurses from `start` to `start`
before it tries any longer range, and the recursion never returns (in Rust, a
stack overflow): `convert_next` fails for every `next`.
-/

namespace ChewingConversion

variable {Syllable : Type}

/-- `dict` with `phrase` as its one phrase for no syllables. -/
def Dictionary.withEmptyEntry (dict : Dictionary Syllable) (phrase : Phrase) :
    Dictionary Syllable where
  lookupPhrase
    | [] => [phrase]
    | syllables => dict.lookupPhrase syllables

section EmptyRange

variable {dict : Dictionary Syllable} {seq : ChineseSequence Syllable}

/-- With non-empty selections, the empty range holds a phrase exactly when the
dictionary has one for no syllables. -/
theorem gridPhrase_self_eq_none_iff
    (nonemptySelections : ∀ selection ∈ seq.selections, selection.start < selection.end)
    (position : Nat) :
    gridPhrase dict seq position position = none ↔ dict.lookupPhrase [] = [] := by
  have agreeing : agreeingPhrases position position seq.selections (dict.lookupPhrase []) =
      dict.lookupPhrase [] :=
    List.filter_eq_self.mpr fun _ _ => List.all_eq_true.mpr fun selection member => by
      have := nonemptySelections selection member
      simp only [Phrase.agrees, Bool.or_eq_true, Bool.not_eq_true', Bool.and_eq_false_iff,
        decide_eq_false_iff_not]
      omega
  have breakFree : BreakFree seq.breaks position position := fun _ _ inside => by omega
  have empty : slice seq.syllables position position = [] := by simp [slice]
  rw [gridPhrase, findBestPhrase_eq_none_iff, empty, List.length_nil, Nat.add_zero, agreeing]
  simp [breakFree]

/-- When the empty range at `start` holds a phrase, the search from `start` never
returns: its first call recurses from `start` again. -/
theorem findAllPaths_eq_stackOverflow {start target : Nat} (startLt : start < target)
    (emptyPhrase : gridPhrase dict seq start start ≠ none) :
    ∀ (fuel : Nat) (graph : Graph) (pathSoFar : Option PossiblePath), graph.Consistent dict seq →
      findAllPaths dict fuel graph seq start target pathSoFar = .error "stack overflow"
  | 0, _, _, _ => rfl
  | fuel + 1, graph, pathSoFar, consistent => by
    obtain ⟨phrase, found⟩ := Option.ne_none_iff_exists'.mp emptyPhrase
    obtain ⟨entryEq, entryConsistent⟩ := consistent.orInsertWith start start
    have ends : List.range' start (target + 1 - start) =
        start :: List.range' (start + 1) (target - start) := by
      rw [show target + 1 - start = target - start + 1 by omega, List.range'_succ]
    unfold gridPhrase at found entryEq entryConsistent
    simp only [findAllPaths, Nat.ne_of_lt startLt, if_false, ends, findAllPathsLoop]
    generalize graph.orInsertWith (start, start) (findBestPhrase dict start
      (slice seq.syllables start start) seq.selections seq.breaks) = entry
      at entryEq entryConsistent ⊢
    rw [entryEq, found]
    simp only [findAllPaths_eq_stackOverflow startLt emptyPhrase fuel entry.1 _ entryConsistent]

/-- With a phrase for no syllables and non-empty selections, `convert_next`
overflows the stack on every non-empty input, whatever `next` is. -/
theorem convertNext_eq_stackOverflow (emptyEntry : dict.lookupPhrase [] ≠ [])
    (nonemptySelections : ∀ selection ∈ seq.selections, selection.start < selection.end)
    (nonempty : 0 < seq.syllables.length) (next : Nat) :
    convertNext dict seq next = .error "stack overflow" := by
  have loops := findAllPaths_eq_stackOverflow nonempty
    (mt (gridPhrase_self_eq_none_iff nonemptySelections 0).mp emptyEntry)
    (seq.syllables.length + 1) Graph.empty none (Graph.consistent_empty dict seq)
  have notEmpty : seq.syllables.isEmpty = false :=
    Bool.not_eq_true _ ▸ mt List.isEmpty_iff.mp (List.ne_nil_of_length_pos nonempty)
  simp only [convertNext, notEmpty, loops, Bool.false_eq_true, if_false]

end EmptyRange

/-- The source's test dictionary with the empty phrase, of frequency `1`, for no
syllables (it has as many characters as syllables).  On `ㄘㄜˋ ㄕˋ ㄧˊ ㄒㄧㄚˋ` the
grid holds `[0, 0)`, `convert` returns it, and both the search and `convert_next`
overflow the stack however deep the stack is. -/
theorem convert_returns_empty_interval :
    (⟨0, 0, ⟨"", 1⟩⟩ : PossibleInterval) ∈ findIntervals (testDictionary.withEmptyEntry ⟨"", 1⟩)
      ⟨["ㄘㄜˋ", "ㄕˋ", "ㄧˊ", "ㄒㄧㄚˋ"], [], []⟩ ∧
    convert (testDictionary.withEmptyEntry ⟨"", 1⟩) ⟨["ㄘㄜˋ", "ㄕˋ", "ㄧˊ", "ㄒㄧㄚˋ"], [], []⟩ =
      [⟨0, 0, ""⟩, ⟨0, 2, "測試"⟩, ⟨2, 4, "一下"⟩] ∧
    (∀ fuel, findAllPaths (testDictionary.withEmptyEntry ⟨"", 1⟩) fuel Graph.empty
      ⟨["ㄘㄜˋ", "ㄕˋ", "ㄧˊ", "ㄒㄧㄚˋ"], [], []⟩ 0 4 none = .error "stack overflow") ∧
    ∀ next, convertNext (testDictionary.withEmptyEntry ⟨"", 1⟩)
      ⟨["ㄘㄜˋ", "ㄕˋ", "ㄧˊ", "ㄒㄧㄚˋ"], [], []⟩ next = .error "stack overflow" :=
  ⟨by decide, by decide,
    fun fuel => findAllPaths_eq_stackOverflow (by decide) (by decide) fuel Graph.empty none
      (Graph.consistent_empty _ _),
    convertNext_eq_stackOverflow (by decide) (by simp) (by decide)⟩

end ChewingConversion
