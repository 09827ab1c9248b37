import ChewingConversion.AllPaths

/-!
# The memo table over a whole search

The table `graph` of `find_all_paths` is shared by every recursive call, and a
call from `start` to `target` only ever looks up the ranges `[start, end)` with
`end ≤ target`, filling a missing entry with `find_best_phrase` on the slice
`syllables[start..end]`.  So a search that returns has kept every entry of the
table it was given and added only answers of `find_best_phrase` for ranges
inside `[start, target]`: from `convert_next`, which searches `[0, n)`, no slice
leaves the input, and a table of right answers stays one.
-/

namespace ChewingConversion

variable {Syllable : Type}

namespace Graph

variable {dict : Dictionary Syllable} {seq : ChineseSequence Syllable} {start target : Nat}

/-- What a search from `start` to `target` does to the memo table: it keeps every
entry, and every entry it adds is the answer of `find_best_phrase` for a range
inside `[start, target]`. -/
structure Grows (dict : Dictionary Syllable) (seq : ChineseSequence Syllable)
    (start target : Nat) (old new : Graph) : Prop where
  keeps : ∀ key entry, old.entries key = some entry → new.entries key = some entry
  adds : ∀ first last entry, old.entries (first, last) = none →
    new.entries (first, last) = some entry →
      start ≤ first ∧ first ≤ last ∧ last ≤ target ∧ entry = gridPhrase dict seq first last

theorem Grows.refl (graph : Graph) : graph.Grows dict seq start target graph :=
  ⟨fun _ _ => id, fun _ _ _ missing found => by rw [missing] at found; cases found⟩

theorem Grows.trans {first second third : Graph}
    (grows : first.Grows dict seq start target second)
    (grows' : second.Grows dict seq start target third) :
    first.Grows dict seq start target third := by
  refine ⟨fun key entry found => grows'.keeps key entry (grows.keeps key entry found), ?_⟩
  intro low high entry missing found
  cases middle : second.entries (low, high) with
  | none => exact grows'.adds low high entry middle found
  | some entry' =>
    rw [grows'.keeps _ _ middle, Option.some.injEq] at found
    exact found ▸ grows.adds low high entry' missing middle

/-- A search from a later start grows the table within a wider range. -/
theorem Grows.widen {start' : Nat} {old new : Graph} (grows : old.Grows dict seq start target new)
    (startLe : start' ≤ start) : old.Grows dict seq start' target new :=
  ⟨grows.keeps, fun first last entry missing found =>
    let ⟨startLe', rest⟩ := grows.adds first last entry missing found
    ⟨Nat.le_trans startLe startLe', rest⟩⟩

/-- One lookup of a range inside `[start, target]`. -/
theorem grows_orInsertWith (graph : Graph) {first last : Nat} (startLe : start ≤ first)
    (firstLe : first ≤ last) (lastLe : last ≤ target) :
    graph.Grows dict seq start target
      (graph.orInsertWith (first, last) (gridPhrase dict seq first last)).1 := by
  unfold orInsertWith
  split
  · exact Grows.refl graph
  · rename_i missing
    constructor
    · intro key entry found
      have ne : key ≠ (first, last) := by rintro rfl; rw [missing] at found; cases found
      exact (Function.update_noteq ne _ _).trans found
    · intro low high entry wasMissing found
      by_cases same : (low, high) = (first, last)
      · obtain ⟨rfl, rfl⟩ := Prod.mk.inj same
        have stored : Function.update graph.entries (low, high)
            (some (gridPhrase dict seq low high)) (low, high) = some entry := found
        rw [Function.update_same, Option.some.injEq] at stored
        exact ⟨startLe, firstLe, lastLe, stored.symm⟩
      · have stored : Function.update graph.entries (first, last)
            (some (gridPhrase dict seq first last)) (low, high) = some entry := found
        rw [Function.update_noteq same, wasMissing] at stored
        cases stored

/-- A consistent table stays consistent. -/
theorem Grows.consistent {old new : Graph} (grows : old.Grows dict seq start target new)
    (consistent : old.Consistent dict seq) : new.Consistent dict seq := by
  intro first last entry found
  cases stored : old.entries (first, last) with
  | none => exact (grows.adds first last entry stored found).2.2.2
  | some entry' =>
    rw [grows.keeps _ _ stored, Option.some.injEq] at found
    exact found ▸ consistent first last entry' stored

end Graph

open Graph

section Search

variable {dict : Dictionary Syllable} {seq : ChineseSequence Syllable}

/-- The loop over the ends grows the table within `[start, target]` when every
recursive call does. -/
theorem findAllPathsLoop_grows {start target : Nat} {pathSoFar : Option PossiblePath}
    {recur : Graph → Nat → PossiblePath → Except String (Graph × List PossiblePath)}
    (recurGrows : ∀ graph «end» path graph' found, start ≤ «end» → «end» ≤ target →
      recur graph «end» path = .ok (graph', found) → graph.Grows dict seq start target graph') :
    ∀ (ends : List Nat) (graph : Graph) (result : List PossiblePath) (graph' : Graph)
      (paths : List PossiblePath), (∀ «end» ∈ ends, start ≤ «end» ∧ «end» ≤ target) →
      findAllPathsLoop dict seq start pathSoFar recur ends graph result = .ok (graph', paths) →
      graph.Grows dict seq start target graph'
  | [], graph, result, graph', paths, _, run => by
    simp only [findAllPathsLoop, Except.ok.injEq, Prod.mk.injEq] at run
    exact run.1 ▸ Grows.refl graph
  | «end» :: ends, graph, result, graph', paths, inRange, run => by
    obtain ⟨startLe, endLe⟩ := inRange «end» (List.mem_cons_self _ _)
    have restRange := fun e member => inRange e (List.mem_cons_of_mem _ member)
    have entryGrows : graph.Grows dict seq start target (graph.orInsertWith (start, «end»)
        (gridPhrase dict seq start «end»)).1 := grows_orInsertWith graph le_rfl startLe endLe
    simp only [findAllPathsLoop] at run
    unfold gridPhrase at entryGrows
    generalize graph.orInsertWith (start, «end») (findBestPhrase dict start
      (slice seq.syllables start «end») seq.selections seq.breaks) = entry at run entryGrows
    split at run
    · exact entryGrows.trans (findAllPathsLoop_grows recurGrows ends _ _ _ _ restRange run)
    · split at run
      · cases run
      · rename_i found recurred
        exact (entryGrows.trans (recurGrows _ _ _ _ _ startLe endLe recurred)).trans
          (findAllPathsLoop_grows recurGrows ends _ _ _ _ restRange run)

/-- Every search that returns, with any dictionary, from any table and at any
depth, keeps every entry of the table it was given, and adds only answers of
`find_best_phrase` for ranges inside `[start, target]`. -/
theorem findAllPaths_grows_table : ∀ (fuel : Nat) (graph : Graph) (start target : Nat)
    (pathSoFar : Option PossiblePath) (graph' : Graph) (paths : List PossiblePath),
    findAllPaths dict fuel graph seq start target pathSoFar = .ok (graph', paths) →
    graph.Grows dict seq start target graph'
  | 0, _, _, _, _, _, _, run => by cases run
  | fuel + 1, graph, start, target, pathSoFar, graph', paths, run => by
    unfold findAllPaths at run
    split at run
    · split at run
      · simp only [Except.ok.injEq, Prod.mk.injEq] at run
        exact run.1 ▸ Grows.refl graph
      · cases run
    · exact findAllPathsLoop_grows
        (fun graph «end» path graph'' found startLe _ recurred =>
          (findAllPaths_grows_table fuel graph «end» target (some path) graph'' found
            recurred).widen startLe)
        _ graph [] graph' paths (fun «end» member => by
          have := List.mem_range'_1.mp member; omega) run

theorem findAllPaths_grows_table_guomin :
    ∃ graph paths, findAllPaths testDictionary 3 Graph.empty ⟨["ㄍㄨㄛˊ", "ㄇㄧㄣˊ"], [], []⟩ 0 2 none =
        .ok (graph, paths) ∧
      Graph.empty.Grows testDictionary ⟨["ㄍㄨㄛˊ", "ㄇㄧㄣˊ"], [], []⟩ 0 2 graph :=
  ⟨_, _, rfl, findAllPaths_grows_table 3 Graph.empty 0 2 none _ _ rfl⟩

end Search

end ChewingConversion
