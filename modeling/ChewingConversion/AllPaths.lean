import ChewingConversion.Grid
import Mathlib.Data.List.Pairwise

/-!
# Enumerating every path: `find_all_paths`

`find_all_paths` is a depth-first search from `start` to `target`: for every
`end` in `start..=target` it asks the memo table `graph` for the phrase of
`[start, end)`, computing it with `find_best_phrase` on a miss, and recurses
from `end` with the prefix extended by that phrase.  The table is shared by all
recursive calls.  Panics are `Except` errors with the source's messages; the
recursion depth is bounded by `fuel`, and running out of it stands for a
recursion that never returns (in Rust, a stack overflow).

The search refines a plain enumeration `gridChains` of the chains of grid
intervals: the memo table is transparent.  The enumeration lists every chain
exactly once, ordered by the sequence of interval ends.
-/

namespace ChewingConversion

variable {Syllable : Type}

/-- `Graph`: the memo table from ranges to the answer of `find_best_phrase`. -/
structure Graph where
  entries : Nat × Nat → Option (Option Phrase)

namespace Graph

/-- `Graph::default()`. -/
def empty : Graph := ⟨fun _ => none⟩

/-- `graph.entry(key).or_insert_with(value)`: the table afterwards and the entry. -/
def orInsertWith (graph : Graph) (key : Nat × Nat) (value : Option Phrase) :
    Graph × Option Phrase :=
  match graph.entries key with
  | some entry => (graph, entry)
  | none => (⟨Function.update graph.entries key (some value)⟩, value)

/-- Every entry of the table is the answer of `find_best_phrase` for its range. -/
def Consistent (dict : Dictionary Syllable) (seq : ChineseSequence Syllable) (graph : Graph) :
    Prop :=
  ∀ start «end» entry, graph.entries (start, «end») = some entry →
    entry = gridPhrase dict seq start «end»

theorem consistent_empty (dict : Dictionary Syllable) (seq : ChineseSequence Syllable) :
    empty.Consistent dict seq :=
  fun _ _ _ entry => by cases entry

/-- Looking a range up in a consistent table answers as `find_best_phrase` does. -/
theorem Consistent.orInsertWith {dict : Dictionary Syllable} {seq : ChineseSequence Syllable}
    {graph : Graph} (consistent : graph.Consistent dict seq) (start «end» : Nat) :
    (graph.orInsertWith (start, «end») (gridPhrase dict seq start «end»)).2 =
        gridPhrase dict seq start «end» ∧
      (graph.orInsertWith (start, «end») (gridPhrase dict seq start «end»)).1.Consistent dict
        seq := by
  unfold Graph.orInsertWith
  split
  · rename_i entry found
    exact ⟨consistent start «end» entry found, consistent⟩
  · refine ⟨rfl, fun start' end' entry found => ?_⟩
    by_cases same : (start', end') = (start, «end»)
    · obtain ⟨rfl, rfl⟩ := Prod.mk.inj same
      have stored : Function.update graph.entries (start', end')
          (some (gridPhrase dict seq start' end')) (start', end') = some entry := found
      rw [Function.update_same, Option.some.injEq] at stored
      exact stored.symm
    · have stored : Function.update graph.entries (start, «end»)
          (some (gridPhrase dict seq start «end»)) (start', end') = some entry := found
      rw [Function.update_noteq same] at stored
      exact consistent start' end' entry stored

end Graph

/-- The loop `for end in start..=target` of `find_all_paths`; `recur` is the
recursive call for the paths that continue from `end`. -/
def findAllPathsLoop (dict : Dictionary Syllable) (sequence : ChineseSequence Syllable)
    (start : Nat) (pathSoFar : Option PossiblePath)
    (recur : Graph → Nat → PossiblePath → Except String (Graph × List PossiblePath)) :
    List Nat → Graph → List PossiblePath → Except String (Graph × List PossiblePath)
  | [], graph, result => .ok (graph, result)
  | «end» :: ends, graph, result =>
    let entry := graph.orInsertWith (start, «end»)
      (findBestPhrase dict start (slice sequence.syllables start «end») sequence.selections
        sequence.breaks)
    match entry.2 with
    | none => findAllPathsLoop dict sequence start pathSoFar recur ends entry.1 result
    | some phrase =>
      match recur entry.1 «end» ((pathSoFar.getD default).push ⟨start, «end», phrase⟩) with
      | .error message => .error message
      | .ok found =>
        findAllPathsLoop dict sequence start pathSoFar recur ends found.1 (result ++ found.2)

def findAllPaths (dict : Dictionary Syllable) :
    Nat → Graph → ChineseSequence Syllable → Nat → Nat → Option PossiblePath →
      Except String (Graph × List PossiblePath)
  | 0, _, _, _, _, _ => .error "stack overflow"
  | fuel + 1, graph, sequence, start, target, pathSoFar =>
    if start = target then
      match pathSoFar with
      | some path => .ok (graph, [path])
      | none => .error "should have prefix"
    else
      findAllPathsLoop dict sequence start pathSoFar
        (fun graph «end» path => findAllPaths dict fuel graph sequence «end» target (some path))
        (List.range' start (target + 1 - start)) graph []

/-- The chains of grid intervals from `start` to `target`, in the order of the
search and without its memo table. -/
def gridChains (dict : Dictionary Syllable) (seq : ChineseSequence Syllable) :
    Nat → Nat → Nat → List (List PossibleInterval)
  | 0, _, _ => []
  | fuel + 1, start, target =>
    if start = target then [[]]
    else (List.range' start (target + 1 - start)).flatMap fun «end» =>
      match gridPhrase dict seq start «end» with
      | none => []
      | some phrase => (gridChains dict seq fuel «end» target).map (⟨start, «end», phrase⟩ :: ·)

/-- The chains whose first interval is `[start, end)`. -/
def chainsThrough (dict : Dictionary Syllable) (seq : ChineseSequence Syllable)
    (fuel start target «end» : Nat) : List (List PossibleInterval) :=
  match gridPhrase dict seq start «end» with
  | none => []
  | some phrase => (gridChains dict seq fuel «end» target).map (⟨start, «end», phrase⟩ :: ·)

theorem gridChains_succ (dict : Dictionary Syllable) (seq : ChineseSequence Syllable)
    (fuel start target : Nat) :
    gridChains dict seq (fuel + 1) start target =
      if start = target then [[]]
      else (List.range' start (target + 1 - start)).flatMap
        (chainsThrough dict seq fuel start target) := rfl

/-! ### The memo table is transparent -/

section Transparent

variable {dict : Dictionary Syllable} {seq : ChineseSequence Syllable}

theorem findAllPathsLoop_eq (emptyLookup : dict.lookupPhrase [] = [])
    (pathSoFar : Option PossiblePath) {fuel start target : Nat}
    {recur : Graph → Nat → PossiblePath → Except String (Graph × List PossiblePath)}
    (recurEq : ∀ graph «end» path, graph.Consistent dict seq → start < «end» → «end» ≤ target →
      ∃ graph', graph'.Consistent dict seq ∧ recur graph «end» path =
        .ok (graph', (gridChains dict seq fuel «end» target).map fun chain =>
          ⟨path.intervals ++ chain⟩)) :
    ∀ (ends : List Nat) (graph : Graph) (result : List PossiblePath),
      graph.Consistent dict seq → (∀ «end» ∈ ends, start ≤ «end» ∧ «end» ≤ target) →
      ∃ graph', graph'.Consistent dict seq ∧
        findAllPathsLoop dict seq start pathSoFar recur ends graph result =
          .ok (graph', result ++ (ends.flatMap (chainsThrough dict seq fuel start target)).map
            fun chain => ⟨(pathSoFar.getD default).intervals ++ chain⟩)
  | [], graph, result, consistent, _ => ⟨graph, consistent, by simp [findAllPathsLoop]⟩
  | «end» :: ends, graph, result, consistent, inRange => by
    obtain ⟨entryEq, entryConsistent⟩ := consistent.orInsertWith start «end»
    have rest := fun graph result consistent =>
      findAllPathsLoop_eq emptyLookup pathSoFar recurEq ends graph result consistent
        fun e member => inRange e (List.mem_cons_of_mem _ member)
    unfold gridPhrase at entryEq entryConsistent
    simp only [findAllPathsLoop]
    generalize graph.orInsertWith (start, «end») (findBestPhrase dict start
      (slice seq.syllables start «end») seq.selections seq.breaks) = entry
      at entryEq entryConsistent ⊢
    rw [entryEq]
    cases found : findBestPhrase dict start (slice seq.syllables start «end») seq.selections
      seq.breaks with
    | none =>
      obtain ⟨graph', consistent', looped⟩ := rest entry.1 result entryConsistent
      exact ⟨graph', consistent', by simpa [chainsThrough, gridPhrase, found] using looped⟩
    | some phrase =>
      have startLt : start < «end» := by
        rcases Nat.lt_or_ge start «end» with lt | ge
        · exact lt
        · have same : «end» = start := Nat.le_antisymm ge (inRange «end» (by simp)).1
          rw [same, ← gridPhrase, gridPhrase_self emptyLookup] at found
          cases found
      obtain ⟨graph', consistent', recurred⟩ := recurEq entry.1 «end»
        ((pathSoFar.getD default).push ⟨start, «end», phrase⟩) entryConsistent startLt
        (inRange «end» (by simp)).2
      simp only [recurred]
      obtain ⟨graph'', consistent'', looped⟩ := rest graph' (result ++
        (gridChains dict seq fuel «end» target).map fun chain =>
          ⟨((pathSoFar.getD default).push ⟨start, «end», phrase⟩).intervals ++ chain⟩) consistent'
      refine ⟨graph'', consistent'', ?_⟩
      rw [looped]
      simp [chainsThrough, gridPhrase, found, List.map_map, Function.comp_def]

/-- With enough fuel and a dictionary that has no phrase for no syllables, the
memoised search returns the enumeration, each chain after `pathSoFar`, and
leaves a consistent table. -/
theorem findAllPaths_eq (emptyLookup : dict.lookupPhrase [] = []) : ∀ (fuel : Nat) (graph : Graph)
    (start target : Nat) (pathSoFar : Option PossiblePath), target - start < fuel →
    start ≤ target → graph.Consistent dict seq → (start < target ∨ pathSoFar ≠ none) →
    ∃ graph', graph'.Consistent dict seq ∧
      findAllPaths dict fuel graph seq start target pathSoFar =
        .ok (graph', (gridChains dict seq fuel start target).map fun chain =>
          ⟨(pathSoFar.getD default).intervals ++ chain⟩)
  | 0, _, _, _, _, enough, _, _, _ => absurd enough (Nat.not_lt_zero _)
  | fuel + 1, graph, start, target, pathSoFar, enough, startLe, consistent, started => by
    rw [gridChains_succ]
    by_cases same : start = target
    · subst same
      obtain ⟨path, rfl⟩ := Option.ne_none_iff_exists'.mp (started.resolve_left (Nat.lt_irrefl _))
      exact ⟨graph, consistent, by simp [findAllPaths]⟩
    · simp only [findAllPaths, same, if_false]
      obtain ⟨graph', consistent', looped⟩ :=
        @findAllPathsLoop_eq _ dict seq emptyLookup pathSoFar fuel start target _
          (fun graph «end» path consistent startLt endLe => by
          simpa using findAllPaths_eq emptyLookup fuel graph «end» target (some path) (by omega)
            endLe consistent (Or.inr (Option.some_ne_none _)))
        (List.range' start (target + 1 - start)) graph [] consistent
        (fun «end» member => by have := List.mem_range'_1.mp member; omega)
      exact ⟨graph', consistent', by simpa using looped⟩

end Transparent

/-! ### What the enumeration lists -/

section Enumeration

variable {dict : Dictionary Syllable} {seq : ChineseSequence Syllable}

/-- With enough fuel, the enumeration lists exactly the chains of grid intervals. -/
theorem mem_gridChains_iff (emptyLookup : dict.lookupPhrase [] = []) :
    ∀ {fuel start target : Nat} {chain : List PossibleInterval}, target - start < fuel →
      start ≤ target → target ≤ seq.syllables.length →
      (chain ∈ gridChains dict seq fuel start target ↔
        IsChain start target chain ∧ ∀ interval ∈ chain, InGrid dict seq interval)
  | 0, _, _, _, enough, _, _ => absurd enough (Nat.not_lt_zero _)
  | fuel + 1, start, target, chain, enough, startLe, targetLe => by
    rw [gridChains_succ]
    by_cases same : start = target
    · subst same
      simp only [if_true, List.mem_singleton]
      constructor
      · rintro rfl
        exact ⟨rfl, fun _ member => absurd member (List.not_mem_nil _)⟩
      · exact fun ⟨isChain, _⟩ => isChain.eq_nil_of_eq
    · simp only [same, if_false, List.mem_flatMap, List.mem_range'_1, chainsThrough]
      constructor
      · rintro ⟨«end», ⟨startLe', endLt⟩, member⟩
        cases found : gridPhrase dict seq start «end» with
        | none => simp [found] at member
        | some phrase =>
          simp only [found, List.mem_map] at member
          obtain ⟨rest, restMember, rfl⟩ := member
          have startLt : start < «end» := by
            rcases Nat.lt_or_eq_of_le startLe' with lt | eq
            · exact lt
            · rw [← eq, gridPhrase_self emptyLookup] at found
              cases found
          obtain ⟨restChain, restGrid⟩ :=
            (mem_gridChains_iff emptyLookup (by omega) (by omega) targetLe).mp restMember
          refine ⟨⟨rfl, startLt, restChain⟩, ?_⟩
          intro interval member
          rcases List.mem_cons.mp member with rfl | inRest
          · exact ⟨show «end» ≤ _ by omega, found⟩
          · exact restGrid interval inRest
      · rintro ⟨isChain, grid⟩
        cases chain with
        | nil => exact absurd isChain same
        | cons first rest =>
          obtain ⟨firstStart, startLt, restChain⟩ := isChain
          have endLe := restChain.le
          refine ⟨first.end, ⟨by omega, by omega⟩, ?_⟩
          have found := (grid first (List.mem_cons_self _ _)).2
          rw [firstStart] at found
          simp only [found, List.mem_map]
          refine ⟨rest, (mem_gridChains_iff emptyLookup (by omega) endLe targetLe).mpr
            ⟨restChain, fun interval member => grid interval (List.mem_cons_of_mem _ member)⟩, ?_⟩
          rw [← firstStart]

/-- The enumeration lists its chains in strictly increasing lexicographic order of
their interval ends. -/
theorem gridChains_sorted : ∀ (fuel start target : Nat),
    (gridChains dict seq fuel start target).Pairwise fun first second =>
      List.lt (first.map PossibleInterval.end) (second.map PossibleInterval.end)
  | 0, _, _ => List.Pairwise.nil
  | fuel + 1, start, target => by
    rw [gridChains_succ]
    split
    · exact List.pairwise_singleton _ _
    · rw [List.pairwise_flatMap]
      constructor
      · intro «end» _
        unfold chainsThrough
        split
        · exact List.Pairwise.nil
        · rw [List.pairwise_map]
          exact (gridChains_sorted fuel «end» target).imp fun ordered =>
            List.lt.tail (Nat.lt_irrefl _) (Nat.lt_irrefl _) ordered
      · apply (List.pairwise_lt_range' start (target + 1 - start)).imp
        intro «end» «end'» endLt first firstMember second secondMember
        unfold chainsThrough at firstMember secondMember
        split at firstMember
        · exact absurd firstMember (List.not_mem_nil _)
        · split at secondMember
          · exact absurd secondMember (List.not_mem_nil _)
          · obtain ⟨_, _, rfl⟩ := List.mem_map.mp firstMember
            obtain ⟨_, _, rfl⟩ := List.mem_map.mp secondMember
            exact List.lt.head _ _ endLt

end Enumeration

/-- `find_all_paths(graph, seq, 0, n, None)` from an empty table returns every
cover of the input by grid intervals exactly once, in increasing lexicographic
order of their interval ends, and nothing else; every entry left in the table
is the answer of `find_best_phrase` for its range.  Any recursion depth beyond
`n` suffices. -/
theorem findAllPaths_enumerates_covers (dict : Dictionary Syllable)
    (seq : ChineseSequence Syllable) (emptyLookup : dict.lookupPhrase [] = [])
    (nonempty : 0 < seq.syllables.length) (fuel : Nat) (enough : seq.syllables.length < fuel) :
    ∃ graph paths,
      findAllPaths dict fuel Graph.empty seq 0 seq.syllables.length none = .ok (graph, paths) ∧
      (∀ path, path ∈ paths ↔ IsGridCover dict seq path) ∧ paths.Nodup ∧
      paths.Pairwise (fun first second => List.lt first.ends second.ends) ∧
      ∀ start «end» entry, graph.entries (start, «end») = some entry →
        entry = findBestPhrase dict start (slice seq.syllables start «end») seq.selections
          seq.breaks := by
  obtain ⟨graph, consistent, search⟩ := findAllPaths_eq emptyLookup fuel Graph.empty 0
    seq.syllables.length none (by omega) (Nat.zero_le _) (Graph.consistent_empty dict seq)
    (Or.inl nonempty)
  have sorted : ((gridChains dict seq fuel 0 seq.syllables.length).map PossiblePath.mk).Pairwise
      (fun first second => List.lt first.ends second.ends) :=
    List.pairwise_map.mpr (gridChains_sorted fuel 0 _)
  refine ⟨graph, _, by simpa using search, ?_, ?_, sorted, consistent⟩
  · intro path
    rw [List.mem_map, IsGridCover]
    constructor
    · rintro ⟨chain, member, rfl⟩
      exact (mem_gridChains_iff emptyLookup (by omega) (Nat.zero_le _) le_rfl).mp member
    · intro cover
      exact ⟨path.intervals,
        (mem_gridChains_iff emptyLookup (by omega) (Nat.zero_le _) le_rfl).mpr cover, rfl⟩
  · exact sorted.imp PossiblePath.ne_of_ends_lt

theorem findAllPaths_enumerates_covers_ceshi :
    testDictionary.lookupPhrase [] = [] ∧ 0 < 4 ∧ 4 < 5 ∧
    ∃ graph paths,
      findAllPaths testDictionary 5 Graph.empty ⟨["ㄘㄜˋ", "ㄕˋ", "ㄧˊ", "ㄒㄧㄚˋ"], [], []⟩ 0 4 none =
        .ok (graph, paths) ∧
      (∀ path, path ∈ paths ↔
        IsGridCover testDictionary ⟨["ㄘㄜˋ", "ㄕˋ", "ㄧˊ", "ㄒㄧㄚˋ"], [], []⟩ path) ∧
      paths.Nodup ∧ paths.Pairwise (fun first second => List.lt first.ends second.ends) ∧
      ∀ start «end» entry, graph.entries (start, «end») = some entry →
        entry = findBestPhrase testDictionary start
          (slice ["ㄘㄜˋ", "ㄕˋ", "ㄧˊ", "ㄒㄧㄚˋ"] start «end») [] [] :=
  ⟨rfl, by decide, by decide,
    findAllPaths_enumerates_covers testDictionary _ rfl (by decide) 5 (by decide)⟩

end ChewingConversion
