import ChewingConversion.BestPath

/-!
# The order of the dynamic programme

`find_intervals` lists the grid range by range, by start and then by end, and
`find_best_path` sorts it on ends with the stable `sort_by`.  So the loop visits
the intervals of one end by increasing start, and an interval replaces the entry
at its end only when it scores strictly higher: among the intervals whose
extensions tie for the best score at a position, the table keeps the one that
starts first, the one with the longest last phrase.

Every entry of the table is a contiguous chain of grid intervals that ends at its
position, and so is the conversion.
-/

namespace ChewingConversion

variable {Syllable : Type}

/-- The order in which the loop of `find_best_path` visits the grid: by end, and
the intervals of one end by start. -/
def VisitsBefore (first second : PossibleInterval) : Prop :=
  first.end < second.end ∨ first.end = second.end ∧ first.start < second.start

theorem VisitsBefore.end_le {first second : PossibleInterval}
    (before : VisitsBefore first second) : first.end ≤ second.end :=
  before.elim Nat.le_of_lt fun same => Nat.le_of_eq same.1

theorem VisitsBefore.start_lt {first second : PossibleInterval}
    (before : VisitsBefore first second) (sameEnd : first.end = second.end) :
    first.start < second.start :=
  before.elim (fun endLt => absurd sameEnd (Nat.ne_of_lt endLt)) And.right

/-! ### The visit order -/

/-- A stable sort keeps the order of the items of one key. -/
theorem filter_insertionSort_key {α : Type} (key : α → Nat) (items : List α) (k : Nat) :
    (items.insertionSort fun a b => key a ≤ key b).filter (fun a => key a = k) =
      items.filter fun a => key a = k := by
  have sameKey : (items.filter fun a => key a = k).Pairwise fun a b => key a ≤ key b :=
    List.pairwise_of_forall_mem_list fun a aMember b bMember => by
      simp only [List.mem_filter, decide_eq_true_eq] at aMember bMember
      rw [aMember.2, bMember.2]
  have sublist := (List.sublist_insertionSort sameKey (List.filter_sublist items)).filter
    fun a => decide (key a = k)
  rw [List.filter_filter, List.filter_congr (fun _ _ => Bool.and_self _)] at sublist
  exact (sublist.eq_of_length ((List.perm_insertionSort _ items).filter _).length_eq.symm).symm

/-- `find_intervals` lists the grid by start, then by end. -/
theorem findIntervals_pairwise (dict : Dictionary Syllable) (seq : ChineseSequence Syllable) :
    (findIntervals dict seq).Pairwise fun first second =>
      first.start < second.start ∨ first.start = second.start ∧ first.end < second.end := by
  refine List.pairwise_flatMap.mpr ⟨fun begin _ => ?_, ?_⟩
  · refine List.pairwise_filterMap.mpr ((List.pairwise_lt_range' _ _).imp ?_)
    intro «end» end' endLt first firstFound second secondFound
    simp only [Option.mem_def, Option.map_eq_some'] at firstFound secondFound
    obtain ⟨_, _, rfl⟩ := firstFound
    obtain ⟨_, _, rfl⟩ := secondFound
    exact Or.inr ⟨rfl, endLt⟩
  · refine (List.pairwise_lt_range _).imp ?_
    intro begin begin' beginLt first firstMember second secondMember
    simp only [List.mem_filterMap, Option.map_eq_some'] at firstMember secondMember
    obtain ⟨_, _, _, _, rfl⟩ := firstMember
    obtain ⟨_, _, _, _, rfl⟩ := secondMember
    exact Or.inl beginLt

/-- The loop of `find_best_path` visits the grid by end, then by start. -/
theorem visitsBefore_sorted (dict : Dictionary Syllable) (seq : ChineseSequence Syllable) :
    ((findIntervals dict seq).insertionSort fun a b => a.end ≤ b.end).Pairwise VisitsBefore := by
  have : IsTotal PossibleInterval fun a b => a.end ≤ b.end := ⟨fun a b => Nat.le_total _ _⟩
  have : IsTrans PossibleInterval fun a b => a.end ≤ b.end := ⟨fun _ _ _ => Nat.le_trans⟩
  have byEnd := List.sorted_insertionSort (fun a b => a.end ≤ b.end) (findIntervals dict seq)
  refine List.pairwise_iff_forall_sublist.mpr fun {first second} pair => ?_
  rcases Nat.lt_or_eq_of_le (List.pairwise_iff_forall_sublist.mp byEnd pair) with endLt | endEq
  · exact Or.inl endLt
  · -- both lie among the intervals of one end, which the sort leaves in grid order
    have sameEnd := pair.filter fun interval => decide (interval.end = second.end)
    rw [filter_insertionSort_key PossibleInterval.end] at sameEnd
    simp only [List.filter_cons, endEq, decide_True, if_true, List.filter_nil] at sameEnd
    have byStart := List.pairwise_iff_forall_sublist.mp
      ((findIntervals_pairwise dict seq).sublist (List.filter_sublist _)) sameEnd
    exact Or.inr ⟨endEq, by omega⟩

/-! ### Ties go to the earliest start -/

/-- Every entry of the table is the empty path, or the extension by a processed
interval ending there that no processed interval of earlier start, ending there
too, ties with. -/
def EarliestBest (processed : List PossibleInterval) (highestScore : Nat → PossiblePath) :
    Prop :=
  ∀ position, highestScore position = default ∨
    ∃ interval ∈ processed, interval.end = position ∧
      highestScore position = (highestScore interval.start).push interval ∧
      ∀ other ∈ processed, other.end = position → other.start < interval.start →
        ((highestScore other.start).push other).score < (highestScore position).score

section Relax

variable {highestScore : Nat → PossiblePath} {interval : PossibleInterval}

theorem relaxInterval_of_not_lt
    (notBetter : ¬(highestScore interval.end).score <
      ((highestScore interval.start).push interval).score) :
    relaxInterval highestScore interval = highestScore := by
  simp only [relaxInterval, notBetter, if_false]

theorem relaxInterval_of_lt
    (better : (highestScore interval.end).score <
      ((highestScore interval.start).push interval).score) :
    relaxInterval highestScore interval =
      Function.update highestScore interval.end ((highestScore interval.start).push interval) := by
  simp only [relaxInterval, better, if_true]

variable {processed : List PossibleInterval}

/-- A step that keeps the table keeps the earliest best entries: the new interval
ends last and starts after every processed interval of its end. -/
theorem EarliestBest.relax_of_not_lt (earliest : EarliestBest processed highestScore)
    (sorted : ∀ other ∈ processed, VisitsBefore other interval)
    (notBetter : ¬(highestScore interval.end).score <
      ((highestScore interval.start).push interval).score) :
    EarliestBest (processed ++ [interval]) (relaxInterval highestScore interval) := by
  rw [relaxInterval_of_not_lt notBetter]
  intro position
  rcases earliest position with empty | ⟨kept, member, endEq, entry, tie⟩
  · exact Or.inl empty
  refine Or.inr ⟨kept, List.mem_append_left _ member, endEq, entry, fun other otherMember otherEnd
    otherLt => ?_⟩
  rcases List.mem_append.mp otherMember with old | new
  · exact tie other old otherEnd otherLt
  · rw [List.mem_singleton.mp new] at otherEnd otherLt
    exact absurd otherLt (Nat.lt_asymm ((sorted kept member).start_lt (endEq.trans otherEnd.symm)))

/-- A step that replaces the entry at the new interval's end keeps the earliest
best entries: every processed interval of that end extends to at most the old
entry's score, below the new one. -/
theorem EarliestBest.relax_of_lt (recurrence : Recurrence processed highestScore)
    (earliest : EarliestBest processed highestScore)
    (nonempty : ∀ other ∈ processed ++ [interval], other.start < other.end)
    (sorted : ∀ other ∈ processed, VisitsBefore other interval)
    (better : (highestScore interval.end).score <
      ((highestScore interval.start).push interval).score) :
    EarliestBest (processed ++ [interval]) (relaxInterval highestScore interval) := by
  have ends : ∀ other ∈ processed ++ [interval], other.end ≤ interval.end :=
    List.forall_mem_append.mpr ⟨fun other old => (sorted other old).end_le,
      List.forall_mem_singleton.mpr le_rfl⟩
  have startFixed : ∀ other ∈ processed ++ [interval],
      Function.update highestScore interval.end ((highestScore interval.start).push interval)
        other.start = highestScore other.start := fun other member =>
    Function.update_noteq (by have := nonempty other member; have := ends other member; omega) _ _
  have old : ∀ other ∈ processed ++ [interval], other ≠ interval → other ∈ processed :=
    fun other member ne => (List.mem_append.mp member).resolve_right (by simpa using ne)
  rw [relaxInterval_of_lt better]
  intro position
  by_cases atEnd : position = interval.end
  · subst atEnd
    refine Or.inr ⟨interval, by simp, rfl, by rw [Function.update_same, startFixed _ (by simp)],
      fun other member otherEnd otherLt => ?_⟩
    rw [startFixed other member, Function.update_same]
    calc ((highestScore other.start).push other).score
        ≤ (highestScore other.end).score :=
          recurrence.optimal other (old other member (by rintro rfl; omega))
      _ = (highestScore interval.end).score := by rw [otherEnd]
      _ < ((highestScore interval.start).push interval).score := better
  · rw [Function.update_noteq atEnd]
    rcases earliest position with empty | ⟨kept, member, endEq, entry, tie⟩
    · exact Or.inl empty
    refine Or.inr ⟨kept, List.mem_append_left _ member, endEq,
      by rw [startFixed kept (List.mem_append_left _ member)]; exact entry,
      fun other otherMember otherEnd otherLt => ?_⟩
    rw [startFixed other otherMember]
    exact tie other (old other otherMember (by rintro rfl; exact atEnd otherEnd.symm)) otherEnd
      otherLt

end Relax

theorem EarliestBest.foldl : ∀ (intervals processed : List PossibleInterval)
    (highestScore : Nat → PossiblePath), Recurrence processed highestScore →
    EarliestBest processed highestScore →
    (∀ other ∈ processed ++ intervals, other.start < other.end) →
    (processed ++ intervals).Pairwise VisitsBefore →
    EarliestBest (processed ++ intervals) (intervals.foldl relaxInterval highestScore)
  | [], processed, highestScore, _, earliest, _, _ => by simpa using earliest
  | interval :: intervals, processed, highestScore, recurrence, earliest, nonempty, sorted => by
    rw [List.append_cons] at nonempty sorted ⊢
    have before : ∀ other ∈ processed, VisitsBefore other interval := fun other member =>
      (List.pairwise_append.mp (List.pairwise_append.mp sorted).1).2.2 other member interval
        (List.mem_singleton_self _)
    have nonempty' := fun other member => nonempty other (List.mem_append_left intervals member)
    apply EarliestBest.foldl intervals _ _
      (recurrence.relax nonempty' fun other member => (before other member).end_le) _ nonempty sorted
    by_cases better : (highestScore interval.end).score <
      ((highestScore interval.start).push interval).score
    · exact earliest.relax_of_lt recurrence nonempty' before better
    · exact earliest.relax_of_not_lt before better

/-- Among the grid intervals whose extensions tie for the best score at a
position, `find_best_path` keeps the one that starts first: every grid interval
of that end with a later start extends to at most the entry's score, and every
one with an earlier start to strictly less. -/
theorem highestScoreTable_keeps_earliest_best (dict : Dictionary Syllable)
    (seq : ChineseSequence Syllable) (emptyLookup : dict.lookupPhrase [] = []) :
    EarliestBest (findIntervals dict seq) (highestScoreTable (findIntervals dict seq)) := by
  have earliest := EarliestBest.foldl
    ((findIntervals dict seq).insertionSort fun a b => a.end ≤ b.end) [] _ recurrence_initial
    (fun _ => Or.inl rfl)
    (fun interval member => start_lt_end_of_mem_findIntervals emptyLookup
      (mem_insertionSort_end.mp (by simpa using member)))
    (by simpa using visitsBefore_sorted dict seq)
  simpa only [EarliestBest, List.nil_append, mem_insertionSort_end] using earliest

theorem highestScoreTable_keeps_earliest_best_daibiao :
    testDictionary.lookupPhrase [] = [] ∧
    EarliestBest (findIntervals testDictionary ⟨["ㄉㄞˋ", "ㄅㄧㄠˇ"], [], []⟩)
      (highestScoreTable (findIntervals testDictionary ⟨["ㄉㄞˋ", "ㄅㄧㄠˇ"], [], []⟩)) :=
  ⟨rfl, highestScoreTable_keeps_earliest_best testDictionary _ rfl⟩

/-! ### Every entry is a chain -/

/-- Every entry of a table that satisfies the recurrence is a chain of processed
intervals that ends at its position. -/
theorem Recurrence.exists_isChain {processed : List PossibleInterval}
    {highestScore : Nat → PossiblePath} (recurrence : Recurrence processed highestScore)
    (nonempty : ∀ interval ∈ processed, interval.start < interval.end) (position : Nat) :
    ∃ origin, IsChain origin position (highestScore position).intervals ∧
      ∀ interval ∈ (highestScore position).intervals, interval ∈ processed := by
  induction position using Nat.strong_induction_on with
  | _ position induction =>
    rcases recurrence.shape position with empty | ⟨last, member, endEq, entry⟩
    · exact ⟨position, by simp [empty], by simp [empty]⟩
    have startLt := nonempty last member
    obtain ⟨origin, chain, drawn⟩ := induction last.start (endEq ▸ startLt)
    rw [entry, PossiblePath.push_intervals]
    exact ⟨origin, isChain_append_singleton.mpr ⟨chain, startLt, endEq⟩,
      List.forall_mem_append.mpr ⟨drawn, List.forall_mem_singleton.mpr member⟩⟩

/-- The conversion is a contiguous run of non-empty grid intervals that ends at
the last syllable. -/
theorem convert_is_grid_chain (dict : Dictionary Syllable) (seq : ChineseSequence Syllable)
    (emptyLookup : dict.lookupPhrase [] = []) :
    ∃ path : PossiblePath, convert dict seq = path.toIntervals ∧
      ∃ origin, IsChain origin seq.syllables.length path.intervals ∧
        ∀ interval ∈ path.intervals, InGrid dict seq interval := by
  have nonempty : ∀ interval ∈ findIntervals dict seq, interval.start < interval.end :=
    fun _ member => start_lt_end_of_mem_findIntervals emptyLookup member
  obtain ⟨origin, chain, drawn⟩ := (recurrence_highestScoreTable nonempty).exists_isChain
    (fun interval member => nonempty interval (mem_insertionSort_end.mp member))
    seq.syllables.length
  exact ⟨_, convert_eq_highestScoreTable dict seq, origin, chain, fun interval member =>
    (mem_findIntervals.mp (mem_insertionSort_end.mp (drawn interval member))).2.2⟩

theorem convert_is_grid_chain_yixia :
    testDictionary.lookupPhrase [] = [] ∧
    ∃ path : PossiblePath, convert testDictionary ⟨["ㄘㄜˋ", "ㄧˊ", "ㄒㄧㄚˋ"], [], []⟩ =
        path.toIntervals ∧
      ∃ origin, IsChain origin 3 path.intervals ∧
        ∀ interval ∈ path.intervals,
          InGrid testDictionary ⟨["ㄘㄜˋ", "ㄧˊ", "ㄒㄧㄚˋ"], [], []⟩ interval :=
  ⟨rfl, convert_is_grid_chain testDictionary _ rfl⟩

end ChewingConversion
