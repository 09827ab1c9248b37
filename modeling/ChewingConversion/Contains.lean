import ChewingConversion.Basic

/-!
# Containment of paths

`PossiblePath::contains` (copied from `IsRecContain` of the original C code)
decides whether one segmentation is coarser than another: it walks the smaller
path's intervals and, for each, advances an index `big` through the bigger
path until an interval containing it is found, giving up as soon as an
interval of the bigger path starts at or after the small interval's end.  The
index never moves back.

On chains this greedy walk decides the plain statement that every interval of
the smaller path lies inside an interval of the bigger one, and that relation
is transitive and, between two covers of one range, antisymmetric up to the
interval ends.  The trimmer relies on exactly these facts.
-/

namespace ChewingConversion

/-- The inner `loop` of `PossiblePath::contains`: the bigger path's intervals from
the index `big` on, advanced to the first one that contains `sml`; `none` is
`return false`. -/
def seekContaining (sml : PossibleInterval) : List PossibleInterval → Option (List PossibleInterval)
  | [] => none
  | big :: bigs =>
    if big.start < sml.end then
      if big.contains sml then some (big :: bigs) else seekContaining sml bigs
    else none

/-- The outer loop of `PossiblePath::contains` over the smaller path's intervals. -/
def containsFrom : List PossibleInterval → List PossibleInterval → Bool
  | _, [] => true
  | bigs, sml :: smls =>
    match seekContaining sml bigs with
    | none => false
    | some bigs => containsFrom bigs smls

def PossiblePath.contains (self other : PossiblePath) : Bool :=
  containsFrom self.intervals other.intervals

/-- Every interval of `smaller` lies inside some interval of `bigger`. -/
def Refines (smaller bigger : List PossibleInterval) : Prop :=
  ∀ sml ∈ smaller, ∃ big ∈ bigger, big.contains sml

theorem PossibleInterval.contains_iff (big sml : PossibleInterval) :
    big.contains sml = true ↔ big.start ≤ sml.start ∧ sml.end ≤ big.end := by
  simp [PossibleInterval.contains]

theorem Refines.trans {first second third : List PossibleInterval}
    (firstSecond : Refines first second) (secondThird : Refines second third) :
    Refines first third := by
  intro sml member
  obtain ⟨middle, middleMember, middleContains⟩ := firstSecond sml member
  obtain ⟨big, bigMember, bigContains⟩ := secondThird middle middleMember
  refine ⟨big, bigMember, ?_⟩
  rw [PossibleInterval.contains_iff] at *
  omega

/-- The intervals before any interval of a chain end no later than it starts. -/
theorem IsChain.end_le_of_mem_prefix {start target : Nat} {before after : List PossibleInterval}
    {interval : PossibleInterval} (chain : IsChain start target (before ++ interval :: after)) :
    ∀ earlier ∈ before, earlier.end ≤ interval.start := by
  induction before generalizing start with
  | nil => intro _ member; exact absurd member (List.not_mem_nil _)
  | cons first before ih =>
    obtain ⟨-, -, rest⟩ := chain
    intro earlier member
    rcases List.mem_cons.mp member with rfl | inBefore
    · have bounds := rest.bounds interval (by simp)
      exact bounds.1
    · exact ih rest earlier inBefore

section Seek

variable {sml : PossibleInterval}

/-- A failed search means no interval of the chain contains `sml`. -/
theorem seekContaining_eq_none : ∀ {start target : Nat} {bigs : List PossibleInterval},
    IsChain start target bigs → sml.start < sml.end → seekContaining sml bigs = none →
      ∀ big ∈ bigs, big.contains sml = false
  | _, _, [], _, _, _ => fun _ member => absurd member (List.not_mem_nil _)
  | _, _, big :: bigs, ⟨_, _, rest⟩, nonempty, seek => by
    intro other member
    unfold seekContaining at seek
    have later := rest.bounds
    by_cases startsBefore : big.start < sml.end
    · by_cases found : big.contains sml
      · simp [startsBefore, found] at seek
      · simp only [startsBefore, found, if_true, if_false, Bool.false_eq_true] at seek
        rcases List.mem_cons.mp member with rfl | inBigs
        · simpa using found
        · exact seekContaining_eq_none rest nonempty seek other inBigs
    · rcases List.mem_cons.mp member with rfl | inBigs
      · simp only [PossibleInterval.contains, Bool.and_eq_false_iff, decide_eq_false_iff_not]
        omega
      · have := later other inBigs
        simp only [PossibleInterval.contains, Bool.and_eq_false_iff, decide_eq_false_iff_not]
        omega

/-- A successful search stops at the first interval of the chain that contains
`sml`, and everything it skipped ends before that interval starts. -/
theorem seekContaining_eq_some : ∀ {bigs rest : List PossibleInterval},
    seekContaining sml bigs = some rest →
      ∃ before big after, bigs = before ++ big :: after ∧ rest = big :: after ∧
        big.contains sml = true
  | [], _, seek => by cases seek
  | big :: bigs, rest, seek => by
    unfold seekContaining at seek
    split at seek
    · split at seek
      · cases seek
        exact ⟨[], big, bigs, rfl, rfl, by assumption⟩
      · obtain ⟨before, found, after, split, restEq, contains⟩ := seekContaining_eq_some seek
        exact ⟨big :: before, found, after, by simp [split], restEq, contains⟩
    · cases seek

/-- The search finds an interval whenever the chain has one containing `sml`. -/
theorem seekContaining_ne_none : ∀ {start target : Nat} {bigs : List PossibleInterval},
    IsChain start target bigs → sml.start < sml.end → (∃ big ∈ bigs, big.contains sml) →
      seekContaining sml bigs ≠ none
  | _, _, [], _, _, ⟨_, member, _⟩ => absurd member (List.not_mem_nil _)
  | _, _, big :: bigs, ⟨_, _, rest⟩, nonempty, ⟨found, member, contains⟩ => by
    unfold seekContaining
    rw [PossibleInterval.contains_iff] at contains
    have startsBefore : big.start < sml.end := by
      rcases List.mem_cons.mp member with rfl | inBigs
      · omega
      · have := rest.bounds found inBigs
        omega
    by_cases here : big.contains sml
    · simp [startsBefore, here]
    · simp only [startsBefore, here, if_true, if_false, Bool.false_eq_true]
      apply seekContaining_ne_none rest nonempty
      rcases List.mem_cons.mp member with rfl | inBigs
      · exact absurd ((PossibleInterval.contains_iff _ _).mpr contains) here
      · exact ⟨found, inBigs, (PossibleInterval.contains_iff _ _).mpr contains⟩

end Seek

/-- The greedy walk decides `Refines` on chains, when the bigger chain starts no
later than the smaller one. -/
theorem containsFrom_iff_refines : ∀ {start start' target target' : Nat}
    {bigs smls : List PossibleInterval}, IsChain start target bigs →
    IsChain start' target' smls → start ≤ start' →
      (containsFrom bigs smls = true ↔ Refines smls bigs)
  | _, _, _, _, _, [], _, _, _ => by simp [containsFrom, Refines]
  | start, _, target, _, bigs, sml :: smls, bigChain, ⟨smlStart, nonempty, rest⟩, startLe => by
    unfold containsFrom
    cases seek : seekContaining sml bigs with
    | none =>
      have noneContains := seekContaining_eq_none bigChain (by omega) seek
      simp only [Bool.false_eq_true, false_iff]
      intro refines
      obtain ⟨big, member, contains⟩ := refines sml (List.mem_cons_self _ _)
      rw [noneContains big member] at contains
      cases contains
    | some found =>
      obtain ⟨before, big, after, rfl, rfl, contains⟩ := seekContaining_eq_some seek
      have suffix : IsChain big.start target (big :: after) := by
        obtain ⟨middle, -, suffix⟩ := isChain_append.mp bigChain
        rwa [← suffix.1] at suffix
      have skipped := bigChain.end_le_of_mem_prefix
      rw [PossibleInterval.contains_iff] at contains
      simp only
      rw [containsFrom_iff_refines suffix rest (by omega)]
      constructor
      · intro refines other member
        rcases List.mem_cons.mp member with rfl | inSmls
        · exact ⟨big, by simp, (PossibleInterval.contains_iff _ _).mpr contains⟩
        · obtain ⟨found, foundMember, foundContains⟩ := refines other inSmls
          exact ⟨found, List.mem_append_right _ foundMember, foundContains⟩
      · intro refines other member
        obtain ⟨found, foundMember, foundContains⟩ := refines other (List.mem_cons_of_mem _ member)
        refine ⟨found, ?_, foundContains⟩
        rcases List.mem_append.mp foundMember with inBefore | inRest
        · have := skipped found inBefore
          have := rest.bounds other member
          rw [PossibleInterval.contains_iff] at foundContains
          omega
        · exact inRest

/-- An interval that starts where a chain starts and lies inside one of its
intervals lies inside the first one. -/
theorem IsChain.end_le_of_contained {start target : Nat} {big sml : PossibleInterval}
    {bigs : List PossibleInterval} (chain : IsChain start target (big :: bigs))
    (smlStart : sml.start = start) (contained : ∃ found ∈ big :: bigs, found.contains sml) :
    sml.end ≤ big.end := by
  obtain ⟨bigStart, bigLt, rest⟩ := chain
  obtain ⟨found, member, contains⟩ := contained
  rw [PossibleInterval.contains_iff] at contains
  rcases List.mem_cons.mp member with rfl | inRest
  · exact contains.2
  · have := rest.bounds found inRest
    omega

/-- Intervals that start after `big` ends are refined by the intervals after `big`. -/
theorem Refines.of_cons {target : Nat} {big : PossibleInterval} {bigs smls : List PossibleInterval}
    (chain : IsChain big.end target smls) (refines : Refines smls (big :: bigs)) :
    Refines smls bigs := by
  intro sml member
  obtain ⟨found, foundMember, contains⟩ := refines sml member
  rcases List.mem_cons.mp foundMember with rfl | inBigs
  · have := chain.bounds sml member
    rw [PossibleInterval.contains_iff] at contains
    omega
  · exact ⟨found, inBigs, contains⟩

/-- Two chains over one range that refine each other end their intervals at the
same positions. -/
theorem Refines.ends_eq : ∀ {start target : Nat} {first second : List PossibleInterval},
    IsChain start target first → IsChain start target second →
    Refines first second → Refines second first →
      first.map PossibleInterval.end = second.map PossibleInterval.end
  | _, _, [], [], _, _, _, _ => rfl
  | _, _, [], _ :: _, empty, secondChain, _, _ => by
    subst empty
    exact absurd secondChain.eq_nil_of_eq (List.cons_ne_nil _ _)
  | _, _, _ :: _, [], firstChain, empty, _, _ => by
    subst empty
    exact absurd firstChain.eq_nil_of_eq (List.cons_ne_nil _ _)
  | _, _, first :: _, second :: _, firstChain, secondChain, firstRefines, secondRefines => by
    have endEq : first.end = second.end := Nat.le_antisymm
      (secondChain.end_le_of_contained firstChain.1 (firstRefines first (List.mem_cons_self _ _)))
      (firstChain.end_le_of_contained secondChain.1 (secondRefines second (List.mem_cons_self _ _)))
    have firstRest := firstChain.2.2
    have secondRest : IsChain first.end _ _ := endEq ▸ secondChain.2.2
    simp only [List.map_cons, endEq, List.cons.injEq, true_and]
    exact Refines.ends_eq firstRest secondRest
      (Refines.of_cons (endEq ▸ firstRest) fun sml member =>
        firstRefines sml (List.mem_cons_of_mem _ member))
      (Refines.of_cons secondRest fun sml member =>
        secondRefines sml (List.mem_cons_of_mem _ member))

/-- On chains from one start, `PossiblePath::contains` is `Refines`. -/
theorem PossiblePath.contains_iff_refines {bigger smaller : PossiblePath} {start target : Nat}
    (biggerChain : IsChain start target bigger.intervals)
    (smallerChain : IsChain start target smaller.intervals) :
    bigger.contains smaller = true ↔ Refines smaller.intervals bigger.intervals :=
  containsFrom_iff_refines biggerChain smallerChain (Nat.le_refl _)

end ChewingConversion
