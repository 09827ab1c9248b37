import ChewingConversion.Score

/-!
# The best phrase of a range

`find_best_phrase` decides which phrase the search may place on one range of
syllables: none when a break lies strictly inside the range, otherwise the
first phrase of highest frequency among those that agree with every selection
the range contains.  `find_intervals` asks it about every range and collects
the answers, the candidate grid of the conversion.
-/

namespace ChewingConversion

variable {Syllable : Type}

/-- `phrase.as_str().chars().skip(offset).take(len).collect()`. -/
def substring (text : String) (offset len : Nat) : String :=
  ⟨(text.data.drop offset).take len⟩

theorem substring_zero_length (text : String) : substring text 0 text.length = text := by
  show String.mk (text.data.take text.data.length) = text
  rw [List.take_length]

/-- The check of one selection in `find_best_phrase`: a selection inside
`[start, end]` must read the same at its offsets in the phrase. -/
def Phrase.agrees (phrase : Phrase) (start «end» : Nat) (selection : Interval) : Bool :=
  !(start ≤ selection.start && «end» ≥ selection.end) ||
    substring phrase.text (selection.start - start) (selection.end - selection.start) ==
      selection.phrase

/-- The loop of `find_best_phrase` over the dictionary's phrases with its running
`max_freq` and `best_phrase`; a phrase that fails a selection check is skipped by
`continue 'next_phrase`. -/
def pickBestPhrase (start «end» : Nat) (selections : List Interval) :
    Nat → Option Phrase → List Phrase → Option Phrase
  | _, bestPhrase, [] => bestPhrase
  | maxFreq, bestPhrase, phrase :: phrases =>
    if selections.all (phrase.agrees start «end») && (bestPhrase.isNone || maxFreq < phrase.freq)
    then pickBestPhrase start «end» selections phrase.freq (some phrase) phrases
    else pickBestPhrase start «end» selections maxFreq bestPhrase phrases

def findBestPhrase (dict : Dictionary Syllable) (start : Nat) (syllables : List Syllable)
    (selections : List Interval) (breaks : List Break) : Option Phrase :=
  let «end» := start + syllables.length
  if breaks.any fun br => start < br.pos && br.pos < «end» then none
  else pickBestPhrase start «end» selections 0 none (dict.lookupPhrase syllables)

/-! ### What `find_best_phrase` is for -/

/-- No break lies strictly inside `[start, end)`. -/
def BreakFree (breaks : List Break) (start «end» : Nat) : Prop :=
  ∀ br ∈ breaks, ¬(start < br.pos ∧ br.pos < «end»)

instance (breaks : List Break) (start «end» : Nat) : Decidable (BreakFree breaks start «end») :=
  inferInstanceAs (Decidable (∀ br ∈ breaks, _))

/-- `text` reads `piece` from character `offset` on. -/
def ReadsAt (text : String) (offset : Nat) (piece : String) : Prop :=
  ∀ i < piece.length, text.data[offset + i]? = piece.data[i]?

instance (text : String) (offset : Nat) (piece : String) : Decidable (ReadsAt text offset piece) :=
  inferInstanceAs (Decidable (∀ i < piece.length, _))

/-- `phrase`, placed on `[start, end)`, reads every selection inside the range. -/
def AgreesWithSelections (selections : List Interval) (start «end» : Nat) (phrase : Phrase) :
    Prop :=
  ∀ selection ∈ selections, start ≤ selection.start → selection.end ≤ «end» →
    ReadsAt phrase.text (selection.start - start) selection.phrase

instance (selections : List Interval) (start «end» : Nat) (phrase : Phrase) :
    Decidable (AgreesWithSelections selections start «end» phrase) :=
  inferInstanceAs (Decidable (∀ selection ∈ selections, _))

/-- `phrase` is the first phrase of highest frequency in `phrases`. -/
def IsFirstMax (phrases : List Phrase) (phrase : Phrase) : Prop :=
  ∃ before after, phrases = before ++ phrase :: after ∧
    (∀ other ∈ before, other.freq < phrase.freq) ∧ ∀ other ∈ after, other.freq ≤ phrase.freq

/-- What the phrase loop returns on its candidates: nothing when there is none,
otherwise their first phrase of highest frequency. -/
def IsBestOf (candidates : List Phrase) : Option Phrase → Prop
  | none => candidates = []
  | some phrase => IsFirstMax candidates phrase

/-- The phrases that pass every selection check of `find_best_phrase` on `[start, end]`. -/
def agreeingPhrases (start «end» : Nat) (selections : List Interval) (phrases : List Phrase) :
    List Phrase :=
  phrases.filter fun phrase => selections.all (phrase.agrees start «end»)

theorem substring_eq_iff_readsAt (text piece : String) (offset : Nat) :
    substring text offset piece.length = piece ↔ ReadsAt text offset piece := by
  rw [substring, String.ext_iff]
  constructor
  · intro equal i iLt
    rw [← equal, List.getElem?_take_of_lt iLt, List.getElem?_drop]
  · intro reads
    apply List.ext_getElem?
    intro i
    by_cases iLt : i < piece.length
    · rw [List.getElem?_take_of_lt iLt, List.getElem?_drop, reads i iLt]
    · have pieceNone : piece.data[i]? = none := List.getElem?_eq_none (Nat.le_of_not_lt iLt)
      simp [List.getElem?_take, iLt, pieceNone]

/-- The code's selection check is `AgreesWithSelections` for selections whose
phrase has as many characters as the selection has syllables. -/
theorem agrees_eq_true_iff {selection : Interval}
    (lengthEq : selection.phrase.length = selection.end - selection.start)
    (phrase : Phrase) (start «end» : Nat) :
    phrase.agrees start «end» selection = true ↔
      (start ≤ selection.start → selection.end ≤ «end» →
        ReadsAt phrase.text (selection.start - start) selection.phrase) := by
  rw [← substring_eq_iff_readsAt, lengthEq]
  by_cases first : start ≤ selection.start <;> by_cases second : selection.end ≤ «end» <;>
    simp [Phrase.agrees, first, second]

theorem agreeingPhrases_eq_filter {selections : List Interval}
    (lengthsEq : ∀ selection ∈ selections,
      selection.phrase.length = selection.end - selection.start)
    (start «end» : Nat) (phrases : List Phrase) :
    agreeingPhrases start «end» selections phrases =
      phrases.filter fun phrase => AgreesWithSelections selections start «end» phrase := by
  apply List.filter_congr
  intro phrase _
  rw [Bool.eq_iff_iff, List.all_eq_true, decide_eq_true_eq]
  exact forall₂_congr fun selection member =>
    agrees_eq_true_iff (lengthsEq selection member) phrase start «end»

@[simp] theorem agreeingPhrases_nil (start «end» : Nat) (selections : List Interval) :
    agreeingPhrases start «end» selections [] = [] := rfl

theorem agreeingPhrases_cons (start «end» : Nat) (selections : List Interval)
    (phrase : Phrase) (phrases : List Phrase) :
    agreeingPhrases start «end» selections (phrase :: phrases) =
      if selections.all (phrase.agrees start «end») then
        phrase :: agreeingPhrases start «end» selections phrases
      else agreeingPhrases start «end» selections phrases := by
  by_cases passes : selections.all (phrase.agrees start «end») <;>
    simp [agreeingPhrases, List.filter_cons, passes]

/-! ### The first phrase of highest frequency -/

namespace IsFirstMax

theorem singleton (phrase : Phrase) : IsFirstMax [phrase] phrase :=
  ⟨[], [], rfl, by simp, by simp⟩

theorem le {phrases : List Phrase} {phrase : Phrase} (first : IsFirstMax phrases phrase) :
    ∀ other ∈ phrases, other.freq ≤ phrase.freq := by
  obtain ⟨before, after, rfl, beforeLt, afterLe⟩ := first
  intro other member
  rcases List.mem_append.mp member with inBefore | inRest
  · exact Nat.le_of_lt (beforeLt other inBefore)
  · rcases List.mem_cons.mp inRest with rfl | inAfter
    · exact Nat.le_refl _
    · exact afterLe other inAfter

theorem mem {phrases : List Phrase} {phrase : Phrase} (first : IsFirstMax phrases phrase) :
    phrase ∈ phrases := by
  obtain ⟨before, after, rfl, -, -⟩ := first
  simp

theorem cons_of_lt {phrases : List Phrase} {phrase other : Phrase}
    (first : IsFirstMax phrases phrase) (otherLt : other.freq < phrase.freq) :
    IsFirstMax (other :: phrases) phrase := by
  obtain ⟨before, after, rfl, beforeLt, afterLe⟩ := first
  refine ⟨other :: before, after, rfl, ?_, afterLe⟩
  simpa [otherLt] using beforeLt

/-- A phrase that does not beat the head may be inserted after it. -/
theorem insert_of_le {phrases : List Phrase} {head phrase other : Phrase}
    (first : IsFirstMax (head :: phrases) phrase) (otherLe : other.freq ≤ head.freq) :
    IsFirstMax (head :: other :: phrases) phrase := by
  obtain ⟨before, after, split, beforeLt, afterLe⟩ := first
  cases before with
  | nil =>
    obtain ⟨rfl, rfl⟩ := List.cons.inj split
    exact ⟨[], _, rfl, by simp, List.forall_mem_cons.mpr ⟨otherLe, afterLe⟩⟩
  | cons first before =>
    obtain ⟨rfl, rfl⟩ := List.cons.inj split
    have headLt := beforeLt head (List.mem_cons_self _ _)
    refine ⟨head :: other :: before, after, rfl, ?_, afterLe⟩
    exact List.forall_mem_cons.mpr ⟨headLt, List.forall_mem_cons.mpr
      ⟨Nat.lt_of_le_of_lt otherLe headLt,
        fun o member => beforeLt o (List.mem_cons_of_mem _ member)⟩⟩

private theorem eq_of_split : ∀ {before before' after after' : List Phrase} {phrase other : Phrase},
    before ++ phrase :: after = before' ++ other :: after' →
    (∀ o ∈ before, o.freq < phrase.freq) → (∀ o ∈ after, o.freq ≤ phrase.freq) →
    (∀ o ∈ before', o.freq < other.freq) → (∀ o ∈ after', o.freq ≤ other.freq) → phrase = other
  | [], [], _, _, _, _, split, _, _, _, _ => (List.cons.inj split).1
  | [], head' :: _, _, _, _, other, split, _, afterLe, beforeLt', _ => by
    obtain ⟨headEq, rest⟩ := List.cons.inj split
    have lt := beforeLt' head' (List.mem_cons_self _ _)
    have le := afterLe other (by rw [rest]; simp)
    rw [← headEq] at lt
    omega
  | head :: _, [], _, _, phrase, _, split, beforeLt, _, _, afterLe' => by
    obtain ⟨headEq, rest⟩ := List.cons.inj split
    have lt := beforeLt head (List.mem_cons_self _ _)
    have le := afterLe' phrase (by rw [← rest]; simp)
    rw [headEq] at lt
    omega
  | _ :: _, _ :: _, _, _, _, _, split, beforeLt, afterLe, beforeLt', afterLe' =>
    eq_of_split (List.cons.inj split).2 (fun o member => beforeLt o (List.mem_cons_of_mem _ member))
      afterLe (fun o member => beforeLt' o (List.mem_cons_of_mem _ member)) afterLe'

theorem unique {phrases : List Phrase} {phrase other : Phrase}
    (first : IsFirstMax phrases phrase) (first' : IsFirstMax phrases other) : phrase = other := by
  obtain ⟨before, after, split, beforeLt, afterLe⟩ := first
  obtain ⟨before', after', split', beforeLt', afterLe'⟩ := first'
  exact eq_of_split (split.symm.trans split') beforeLt afterLe beforeLt' afterLe'

/-- Filtering the candidates keeps the first maximum, when it passes the filter. -/
theorem filter {phrases : List Phrase} {phrase : Phrase} (first : IsFirstMax phrases phrase)
    (keep : Phrase → Bool) (kept : keep phrase = true) :
    IsFirstMax (phrases.filter keep) phrase := by
  obtain ⟨before, after, rfl, beforeLt, afterLe⟩ := first
  refine ⟨before.filter keep, after.filter keep, by simp [List.filter_append, kept], ?_, ?_⟩
  · exact fun other member => beforeLt other (List.mem_of_mem_filter member)
  · exact fun other member => afterLe other (List.mem_of_mem_filter member)

end IsFirstMax

theorem IsBestOf.unique {candidates : List Phrase} :
    ∀ {found found' : Option Phrase}, IsBestOf candidates found → IsBestOf candidates found' →
      found = found'
  | none, none, _, _ => rfl
  | none, some _, empty, first => by cases empty; exact absurd first.mem (List.not_mem_nil _)
  | some _, none, first, empty => by cases empty; exact absurd first.mem (List.not_mem_nil _)
  | some _, some _, first, first' => congrArg some (IsFirstMax.unique first first')

section PickBestPhrase

variable (start «end» : Nat) (selections : List Interval)

/-- Once a phrase is held, the loop returns the first maximum of it and the
agreeing phrases still to come. -/
theorem pickBestPhrase_some : ∀ (phrases : List Phrase) (best : Phrase),
    ∃ found, pickBestPhrase start «end» selections best.freq (some best) phrases = some found ∧
      IsFirstMax (best :: agreeingPhrases start «end» selections phrases) found
  | [], best => ⟨best, rfl, IsFirstMax.singleton best⟩
  | phrase :: phrases, best => by
    rw [agreeingPhrases_cons]
    by_cases passes : selections.all (phrase.agrees start «end»)
    · by_cases beats : best.freq < phrase.freq
      · obtain ⟨found, run, first⟩ := pickBestPhrase_some phrases phrase
        refine ⟨found, by simpa [pickBestPhrase, passes, beats] using run, ?_⟩
        simpa [passes] using
          first.cons_of_lt (Nat.lt_of_lt_of_le beats (first.le phrase (List.mem_cons_self _ _)))
      · obtain ⟨found, run, first⟩ := pickBestPhrase_some phrases best
        refine ⟨found, by simpa [pickBestPhrase, passes, beats] using run, ?_⟩
        simpa [passes] using first.insert_of_le (Nat.le_of_not_lt beats)
    · obtain ⟨found, run, first⟩ := pickBestPhrase_some phrases best
      exact ⟨found, by simpa [pickBestPhrase, passes] using run, by simpa [passes] using first⟩

/-- From its initial state the loop returns the best of the agreeing phrases. -/
theorem pickBestPhrase_none : ∀ (phrases : List Phrase) (maxFreq : Nat),
    IsBestOf (agreeingPhrases start «end» selections phrases)
      (pickBestPhrase start «end» selections maxFreq none phrases)
  | [], _ => rfl
  | phrase :: phrases, maxFreq => by
    rw [agreeingPhrases_cons]
    by_cases passes : selections.all (phrase.agrees start «end»)
    · obtain ⟨found, run, first⟩ := pickBestPhrase_some start «end» selections phrases phrase
      simpa [pickBestPhrase, passes, run, IsBestOf] using first
    · simpa [pickBestPhrase, passes] using pickBestPhrase_none phrases maxFreq

end PickBestPhrase

theorem breaks_any_eq_false_iff (breaks : List Break) (start «end» : Nat) :
    (breaks.any fun br => start < br.pos && br.pos < «end») = false ↔
      BreakFree breaks start «end» := by
  simp [BreakFree]

/-- The specification of `find_best_phrase`: nothing across a break, otherwise
the best of the phrases that agree with the selections. -/
theorem findBestPhrase_spec (dict : Dictionary Syllable) (start : Nat)
    (syllables : List Syllable) (selections : List Interval) (breaks : List Break) :
    (BreakFree breaks start (start + syllables.length) →
      IsBestOf (agreeingPhrases start (start + syllables.length) selections
        (dict.lookupPhrase syllables)) (findBestPhrase dict start syllables selections breaks)) ∧
    (¬BreakFree breaks start (start + syllables.length) →
      findBestPhrase dict start syllables selections breaks = none) := by
  constructor
  · intro free
    simpa [findBestPhrase, (breaks_any_eq_false_iff _ _ _).mpr free] using
      pickBestPhrase_none start (start + syllables.length) selections _ 0
  · intro blocked
    have crossing : (breaks.any fun br => start < br.pos && br.pos < start + syllables.length) =
        true := by
      simpa [← breaks_any_eq_false_iff] using blocked
    simp only [findBestPhrase, crossing, if_true]

theorem findBestPhrase_eq_some_iff (dict : Dictionary Syllable) (start : Nat)
    (syllables : List Syllable) (selections : List Interval) (breaks : List Break)
    (phrase : Phrase) :
    findBestPhrase dict start syllables selections breaks = some phrase ↔
      BreakFree breaks start (start + syllables.length) ∧
        IsFirstMax (agreeingPhrases start (start + syllables.length) selections
          (dict.lookupPhrase syllables)) phrase := by
  obtain ⟨free, blocked⟩ := findBestPhrase_spec dict start syllables selections breaks
  constructor
  · intro found
    by_cases breakFree : BreakFree breaks start (start + syllables.length)
    · have best := free breakFree
      rw [found] at best
      exact ⟨breakFree, best⟩
    · rw [blocked breakFree] at found
      cases found
  · rintro ⟨breakFree, first⟩
    exact IsBestOf.unique (free breakFree) (first : IsBestOf _ (some phrase))

theorem findBestPhrase_eq_none_iff (dict : Dictionary Syllable) (start : Nat)
    (syllables : List Syllable) (selections : List Interval) (breaks : List Break) :
    findBestPhrase dict start syllables selections breaks = none ↔
      ¬BreakFree breaks start (start + syllables.length) ∨
        agreeingPhrases start (start + syllables.length) selections
          (dict.lookupPhrase syllables) = [] := by
  obtain ⟨free, blocked⟩ := findBestPhrase_spec dict start syllables selections breaks
  by_cases breakFree : BreakFree breaks start (start + syllables.length)
  · have best := free breakFree
    constructor
    · intro found
      rw [found] at best
      exact Or.inr best
    · rintro (blockedFree | empty)
      · exact absurd breakFree blockedFree
      · exact IsBestOf.unique best (empty : IsBestOf _ none)
  · exact ⟨fun _ => Or.inl breakFree, fun _ => blocked breakFree⟩

end ChewingConversion
