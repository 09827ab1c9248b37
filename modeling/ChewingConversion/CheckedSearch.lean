import ChewingConversion.AllPaths

/-!
# `find_best_phrase` and the searches in a debug build

In a debug build the selection loop of `find_best_phrase` runs
`debug_assert!(!selection.phrase.is_empty())` on every selection it visits, and
computes `selection.end - selection.start` in `usize` for every selection inside
the range, which panics when the selection ends before it starts.  A failed check
leaves the loop (`continue 'next_phrase`), so which selections are visited
depends on their order.  `find_intervals` and `find_all_paths` panic with the
first call of `find_best_phrase` that panics; `find_all_paths` calls it only for
ranges missing from its memo table.

None of this fires on admissible selections, those with a non-empty phrase that
do not end before they start: there the debug build computes what the exact
model does.
-/

namespace ChewingConversion

variable {Syllable : Type}

/-- A selection the debug build's selection loop accepts. -/
def Interval.Admissible (selection : Interval) : Prop :=
  selection.phrase ≠ "" ∧ selection.start ≤ selection.end

instance (selection : Interval) : Decidable selection.Admissible :=
  inferInstanceAs (Decidable (_ ∧ _))

/-- `graph.entry(key).or_insert_with(f)` with a closure that may panic: it runs
only for a missing key. -/
def Graph.orTryInsertWith (graph : Graph) (key : Nat × Nat) (value : Option (Option Phrase)) :
    Option (Graph × Option Phrase) :=
  match graph.entries key with
  | some entry => some (graph, entry)
  | none => value.map (graph.orInsertWith key)

@[simp] theorem Graph.orTryInsertWith_some (graph : Graph) (key : Nat × Nat) (value : Option Phrase) :
    graph.orTryInsertWith key (some value) = some (graph.orInsertWith key value) := by
  unfold Graph.orTryInsertWith Graph.orInsertWith
  cases graph.entries key <;> rfl

namespace Checked

/-- The selection loop of `find_best_phrase` for one phrase; `none` is a panic. -/
def selectionsAgree (phrase : Phrase) (start «end» : Nat) : List Interval → Option Bool
  | [] => some true
  | selection :: selections =>
    if selection.phrase = "" then none
    else if start ≤ selection.start ∧ selection.end ≤ «end» ∧ selection.end < selection.start then
      none
    else if phrase.agrees start «end» selection then selectionsAgree phrase start «end» selections
    else some false

/-- The phrase loop of `find_best_phrase` with the checked selection loop. -/
def pickBestPhrase (start «end» : Nat) (selections : List Interval) :
    Nat → Option Phrase → List Phrase → Option (Option Phrase)
  | _, bestPhrase, [] => some bestPhrase
  | maxFreq, bestPhrase, phrase :: phrases => do
    if (← selectionsAgree phrase start «end» selections) &&
        (bestPhrase.isNone || maxFreq < phrase.freq) then
      pickBestPhrase start «end» selections phrase.freq (some phrase) phrases
    else pickBestPhrase start «end» selections maxFreq bestPhrase phrases

/-- `find_best_phrase` in a debug build. -/
def findBestPhrase (dict : Dictionary Syllable) (start : Nat) (syllables : List Syllable)
    (selections : List Interval) (breaks : List Break) : Option (Option Phrase) :=
  let «end» := start + syllables.length
  if breaks.any fun br => start < br.pos && br.pos < «end» then some none
  else pickBestPhrase start «end» selections 0 none (dict.lookupPhrase syllables)

/-- `find_intervals` in a debug build: every range is asked in the order of the two
loops, and the first panic is the result. -/
def findIntervals (dict : Dictionary Syllable) (seq : ChineseSequence Syllable) :
    Option (List PossibleInterval) := do
  let rows ← (List.range seq.syllables.length).mapM fun begin =>
    (List.range' begin (seq.syllables.length + 1 - begin)).mapM fun «end» =>
      (findBestPhrase dict begin (slice seq.syllables begin «end») seq.selections
        seq.breaks).map (Option.map fun phrase => ⟨begin, «end», phrase⟩)
  pure (rows.flatMap (List.filterMap id))

/-- The loop `for end in start..=target` of `find_all_paths` in a debug build. -/
def findAllPathsLoop (dict : Dictionary Syllable) (sequence : ChineseSequence Syllable)
    (start : Nat) (pathSoFar : Option PossiblePath)
    (recur : Graph → Nat → PossiblePath → Option (Except String (Graph × List PossiblePath))) :
    List Nat → Graph → List PossiblePath → Option (Except String (Graph × List PossiblePath))
  | [], graph, result => some (.ok (graph, result))
  | «end» :: ends, graph, result => do
    let entry ← graph.orTryInsertWith (start, «end»)
      (findBestPhrase dict start (slice sequence.syllables start «end») sequence.selections
        sequence.breaks)
    match entry.2 with
    | none => findAllPathsLoop dict sequence start pathSoFar recur ends entry.1 result
    | some phrase =>
      match ← recur entry.1 «end» ((pathSoFar.getD default).push ⟨start, «end», phrase⟩) with
      | .error message => some (.error message)
      | .ok found =>
        findAllPathsLoop dict sequence start pathSoFar recur ends found.1 (result ++ found.2)

/-- `find_all_paths` in a debug build; `none` is a panic of `find_best_phrase`. -/
def findAllPaths (dict : Dictionary Syllable) :
    Nat → Graph → ChineseSequence Syllable → Nat → Nat → Option PossiblePath →
      Option (Except String (Graph × List PossiblePath))
  | 0, _, _, _, _, _ => some (.error "stack overflow")
  | fuel + 1, graph, sequence, start, target, pathSoFar =>
    if start = target then
      some <| match pathSoFar with
        | some path => .ok (graph, [path])
        | none => .error "should have prefix"
    else
      findAllPathsLoop dict sequence start pathSoFar
        (fun graph «end» path => findAllPaths dict fuel graph sequence «end» target (some path))
        (List.range' start (target + 1 - start)) graph []

end Checked

/-! ### Admissible selections never panic -/

theorem mapM_eq_some_map {α β : Type} {f : α → Option β} {g : α → β} :
    ∀ {items : List α}, (∀ item ∈ items, f item = some (g item)) →
      items.mapM f = some (items.map g)
  | [], _ => rfl
  | item :: items, computed => by
    rw [List.mapM_cons, computed item (List.mem_cons_self _ _),
      mapM_eq_some_map fun other member => computed other (List.mem_cons_of_mem _ member)]
    rfl

section Admissible

variable {selections : List Interval}
  (admissible : ∀ selection ∈ selections, selection.Admissible)
include admissible

theorem checkedSelectionsAgree_eq (phrase : Phrase) (start «end» : Nat) :
    Checked.selectionsAgree phrase start «end» selections =
      some (selections.all (phrase.agrees start «end»)) := by
  induction selections with
  | nil => rfl
  | cons selection selections induction =>
    obtain ⟨nonempty, startLe⟩ := admissible selection (List.mem_cons_self _ _)
    have rest := induction fun other member => admissible other (List.mem_cons_of_mem _ member)
    by_cases agrees : phrase.agrees start «end» selection <;>
      simp [Checked.selectionsAgree, nonempty, Nat.not_lt.mpr startLe, agrees, rest]

theorem checkedPickBestPhrase_eq (start «end» : Nat) :
    ∀ (maxFreq : Nat) (bestPhrase : Option Phrase) (phrases : List Phrase),
      Checked.pickBestPhrase start «end» selections maxFreq bestPhrase phrases =
        some (pickBestPhrase start «end» selections maxFreq bestPhrase phrases)
  | _, _, [] => rfl
  | maxFreq, bestPhrase, phrase :: phrases => by
    simp only [Checked.pickBestPhrase, pickBestPhrase, checkedSelectionsAgree_eq admissible,
      Option.bind_eq_bind, Option.some_bind, checkedPickBestPhrase_eq start «end»]
    split <;> rfl

theorem checkedFindBestPhrase_eq (dict : Dictionary Syllable) (start : Nat)
    (syllables : List Syllable) (breaks : List Break) :
    Checked.findBestPhrase dict start syllables selections breaks =
      some (findBestPhrase dict start syllables selections breaks) := by
  unfold Checked.findBestPhrase findBestPhrase
  dsimp only
  split
  · rfl
  · exact checkedPickBestPhrase_eq admissible _ _ _ _ _

end Admissible

section Search

variable {dict : Dictionary Syllable} {seq : ChineseSequence Syllable}
  (admissible : ∀ selection ∈ seq.selections, selection.Admissible)
include admissible

theorem checkedFindIntervals_eq : Checked.findIntervals dict seq = some (findIntervals dict seq) := by
  simp only [Checked.findIntervals, checkedFindBestPhrase_eq admissible, Option.map_some',
    mapM_eq_some_map fun _ _ => rfl, Option.bind_eq_bind, Option.some_bind, findIntervals,
    List.flatMap_map, List.filterMap_map]
  rfl

theorem checkedFindAllPathsLoop_eq (start : Nat) (pathSoFar : Option PossiblePath)
    {recur : Graph → Nat → PossiblePath → Option (Except String (Graph × List PossiblePath))}
    {recur' : Graph → Nat → PossiblePath → Except String (Graph × List PossiblePath)}
    (sameRecur : ∀ graph «end» path, recur graph «end» path = some (recur' graph «end» path)) :
    ∀ (ends : List Nat) (graph : Graph) (result : List PossiblePath),
      Checked.findAllPathsLoop dict seq start pathSoFar recur ends graph result =
        some (findAllPathsLoop dict seq start pathSoFar recur' ends graph result)
  | [], _, _ => rfl
  | «end» :: ends, graph, result => by
    simp only [Checked.findAllPathsLoop, findAllPathsLoop, checkedFindBestPhrase_eq admissible,
      Graph.orTryInsertWith_some, Option.bind_eq_bind, Option.some_bind]
    obtain ⟨graph', _ | phrase⟩ := graph.orInsertWith (start, «end»)
      (findBestPhrase dict start (slice seq.syllables start «end») seq.selections seq.breaks)
    · exact checkedFindAllPathsLoop_eq start pathSoFar sameRecur ends graph' result
    · simp only [sameRecur, Option.some_bind]
      cases recur' graph' «end» ((pathSoFar.getD default).push ⟨start, «end», phrase⟩) with
      | error message => rfl
      | ok found => exact checkedFindAllPathsLoop_eq start pathSoFar sameRecur ends _ _

theorem checkedFindAllPaths_eq : ∀ (fuel : Nat) (graph : Graph) (start target : Nat)
    (pathSoFar : Option PossiblePath),
    Checked.findAllPaths dict fuel graph seq start target pathSoFar =
      some (findAllPaths dict fuel graph seq start target pathSoFar)
  | 0, _, _, _, _ => rfl
  | fuel + 1, graph, start, target, pathSoFar => by
    unfold Checked.findAllPaths findAllPaths
    split
    · split <;> rfl
    · exact checkedFindAllPathsLoop_eq admissible start pathSoFar
        (fun graph «end» path => checkedFindAllPaths_eq fuel graph «end» target (some path)) _ _ _

end Search

end ChewingConversion
