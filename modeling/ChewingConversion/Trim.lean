import ChewingConversion.Contains
import Mathlib.Data.List.Pairwise

/-!
# Trimming the enumerated paths

`trim_paths` (ported from the original C code, whose comment calls it
"seems wrong") makes one pass over the enumerated paths with a list of kept
paths.  A candidate contained in a kept path is dropped; otherwise the kept
paths it contains are discarded and it is kept.  Once a kept path contains the
candidate, the scan stops comparing and keeps the remaining paths as they are.

On covers of one range with pairwise distinct boundaries, `contains` is a
partial order, and the short cut loses nothing: the kept list is always exactly
the maximal paths seen so far, in their order.
-/

namespace ChewingConversion

/-- The inner loop of `trim_paths` over the kept paths for one candidate: the flag
`drop_candidate` and the paths pushed to `keeper`. -/
def keepPaths (candidate : PossiblePath) : Bool → List PossiblePath → Bool × List PossiblePath
  | dropCandidate, [] => (dropCandidate, [])
  | dropCandidate, p :: trimmedPaths =>
    if dropCandidate || p.contains candidate then
      let rest := keepPaths candidate true trimmedPaths
      (rest.1, p :: rest.2)
    else if candidate.contains p then keepPaths candidate dropCandidate trimmedPaths
    else
      let rest := keepPaths candidate dropCandidate trimmedPaths
      (rest.1, p :: rest.2)

/-- One iteration of the outer loop of `trim_paths`. -/
def trimStep (trimmedPaths : List PossiblePath) (candidate : PossiblePath) : List PossiblePath :=
  let kept := keepPaths candidate false trimmedPaths
  if kept.1 then kept.2 else kept.2 ++ [candidate]

def trimPaths (paths : List PossiblePath) : List PossiblePath :=
  paths.foldl trimStep []

/-- The paths of `paths` that no other path of `paths` contains, in order. -/
def maximalPaths (paths : List PossiblePath) : List PossiblePath :=
  paths.filter fun p => paths.all fun q => q == p || !q.contains p

/-! ### One candidate -/

section Step

variable (candidate : PossiblePath)

theorem keepPaths_true : ∀ trimmedPaths : List PossiblePath,
    keepPaths candidate true trimmedPaths = (true, trimmedPaths)
  | [] => rfl
  | p :: trimmedPaths => by simp [keepPaths, keepPaths_true trimmedPaths]

theorem keepPaths_of_not_contained : ∀ trimmedPaths : List PossiblePath,
    (∀ p ∈ trimmedPaths, p.contains candidate = false) →
      keepPaths candidate false trimmedPaths =
        (false, trimmedPaths.filter fun p => !candidate.contains p)
  | [], _ => rfl
  | p :: trimmedPaths, notContained => by
    have rest := keepPaths_of_not_contained trimmedPaths fun q member =>
      notContained q (List.mem_cons_of_mem _ member)
    by_cases contains : candidate.contains p <;>
      simp [keepPaths, notContained p (List.mem_cons_self _ _), contains, rest, List.filter_cons]

theorem keepPaths_of_contained : ∀ trimmedPaths : List PossiblePath,
    (∃ p ∈ trimmedPaths, p.contains candidate) →
    (∀ p ∈ trimmedPaths, candidate.contains p = false) →
      keepPaths candidate false trimmedPaths = (true, trimmedPaths)
  | [], ⟨_, member, _⟩, _ => absurd member (List.not_mem_nil _)
  | p :: trimmedPaths, ⟨q, member, qContains⟩, notContaining => by
    by_cases contains : p.contains candidate
    · simp [keepPaths, contains, keepPaths_true]
    · have inRest : q ∈ trimmedPaths := by
        rcases List.mem_cons.mp member with rfl | inRest
        · exact absurd qContains contains
        · exact inRest
      have rest := keepPaths_of_contained trimmedPaths ⟨q, inRest, qContains⟩ fun r member =>
        notContaining r (List.mem_cons_of_mem _ member)
      simp [keepPaths, contains, notContaining p (List.mem_cons_self _ _), rest]

end Step

/-- What the kept list is after the paths `processed`: their maximal paths, and
every processed path lies below one of them. -/
structure Trimmed (processed kept : List PossiblePath) : Prop where
  maximal : kept = maximalPaths processed
  dominated : ∀ p ∈ processed, ∃ k ∈ kept, k = p ∨ k.contains p = true

/-- `contains` is a partial order on the members of `paths`, which are distinct. -/
structure ContainsOrder (paths : List PossiblePath) : Prop where
  trans : ∀ p ∈ paths, ∀ q ∈ paths, ∀ r ∈ paths,
    p.contains q = true → q.contains r = true → p.contains r = true
  antisymm : ∀ p ∈ paths, ∀ q ∈ paths, p.contains q = true → q.contains p = true → p = q
  nodup : paths.Nodup

theorem ContainsOrder.sublist {paths paths' : List PossiblePath} (order : ContainsOrder paths)
    (sublist : List.Sublist paths' paths) : ContainsOrder paths' :=
  ⟨fun p hp q hq r hr =>
      order.trans p (sublist.subset hp) q (sublist.subset hq) r (sublist.subset hr),
    fun p hp q hq => order.antisymm p (sublist.subset hp) q (sublist.subset hq),
    order.nodup.sublist sublist⟩

theorem maximalPaths_append_singleton {processed : List PossiblePath} {candidate : PossiblePath}
    (fresh : candidate ∉ processed) :
    maximalPaths (processed ++ [candidate]) =
      (maximalPaths processed).filter (fun p => !candidate.contains p) ++
        if processed.all fun q => !q.contains candidate then [candidate] else [] := by
  have ne : ∀ p ∈ processed, (candidate == p) = false := fun p member =>
    beq_false_of_ne fun eq => fresh (eq ▸ member)
  have ne' : ∀ q ∈ processed, (q == candidate) = false := fun q member =>
    beq_false_of_ne fun eq => fresh (eq ▸ member)
  simp only [maximalPaths, List.filter_append, List.all_append, List.all_cons, List.all_nil,
    Bool.and_true, beq_self_eq_true, Bool.true_or, List.filter_filter]
  congr 1
  · apply List.filter_congr
    intro p member
    simp [ne p member, Bool.and_comm]
  · have same : (processed.all fun q => q == candidate || !q.contains candidate) =
        processed.all fun q => !q.contains candidate := by
      rw [Bool.eq_iff_iff, List.all_eq_true, List.all_eq_true]
      exact forall₂_congr fun q member => by simp [ne' q member]
    simp [List.filter_cons, same]

theorem Trimmed.subset {processed kept : List PossiblePath} (trimmed : Trimmed processed kept) :
    ∀ k ∈ kept, k ∈ processed := by
  rw [trimmed.maximal]
  exact fun k member => List.mem_of_mem_filter member

/-- A maximal path is contained in no other path of the list. -/
theorem contains_eq_false_of_mem_maximalPaths {paths : List PossiblePath} {p q : PossiblePath}
    (maximal : p ∈ maximalPaths paths) (member : q ∈ paths) (ne : q ≠ p) :
    q.contains p = false := by
  have kept := (List.mem_filter.mp maximal).2
  simp only [List.all_eq_true, Bool.or_eq_true, beq_iff_eq, Bool.not_eq_true'] at kept
  exact (kept q member).resolve_left ne

/-- A candidate that a kept path contains leaves the kept paths as they are. -/
theorem Trimmed.step_of_contained {processed kept : List PossiblePath}
    {candidate p : PossiblePath} (trimmed : Trimmed processed kept)
    (order : ContainsOrder (processed ++ [candidate])) (fresh : candidate ∉ processed)
    (pKept : p ∈ kept) (pContains : p.contains candidate = true) :
    Trimmed (processed ++ [candidate]) (trimStep kept candidate) := by
  have pIn : p ∈ processed ++ [candidate] := List.mem_append_left _ (trimmed.subset p pKept)
  have candidateIn : candidate ∈ processed ++ [candidate] := by simp
  have notContaining : ∀ k ∈ kept, candidate.contains k = false := by
    intro k kKept
    by_contra containsK
    rw [Bool.not_eq_false] at containsK
    have pk := order.trans p pIn candidate candidateIn k
      (List.mem_append_left _ (trimmed.subset k kKept)) pContains containsK
    by_cases same : p = k
    · subst same
      exact fresh (order.antisymm _ pIn _ candidateIn pContains containsK ▸ trimmed.subset p pKept)
    · rw [contains_eq_false_of_mem_maximalPaths (trimmed.maximal ▸ kKept)
        (trimmed.subset p pKept) same] at pk
      exact Bool.false_ne_true pk
  have unchanged : trimStep kept candidate = kept := by
    simp [trimStep, keepPaths_of_contained candidate kept ⟨p, pKept, pContains⟩ notContaining]
  have someContains : ¬(processed.all fun q => !q.contains candidate) = true := by
    simp only [List.all_eq_true, Bool.not_eq_true', not_forall]
    exact ⟨p, trimmed.subset p pKept, by simp [pContains]⟩
  constructor
  · rw [unchanged, maximalPaths_append_singleton fresh, ← trimmed.maximal,
      List.filter_eq_self.mpr (by simpa using notContaining)]
    simp [someContains]
  · rw [unchanged]
    intro q member
    rcases List.mem_append.mp member with old | new
    · exact trimmed.dominated q old
    · rw [List.mem_singleton.mp new]
      exact ⟨p, pKept, Or.inr pContains⟩

/-- A candidate that no kept path contains is kept, and drops the kept paths it
contains. -/
theorem Trimmed.step_of_not_contained {processed kept : List PossiblePath}
    {candidate : PossiblePath} (trimmed : Trimmed processed kept)
    (order : ContainsOrder (processed ++ [candidate])) (fresh : candidate ∉ processed)
    (notContained : ∀ p ∈ kept, p.contains candidate = false) :
    Trimmed (processed ++ [candidate]) (trimStep kept candidate) := by
  have inOrder : ∀ p ∈ processed, p ∈ processed ++ [candidate] := fun p member =>
    List.mem_append_left _ member
  have candidateIn : candidate ∈ processed ++ [candidate] := by simp
  have grown : trimStep kept candidate =
      kept.filter (fun p => !candidate.contains p) ++ [candidate] := by
    simp [trimStep, keepPaths_of_not_contained candidate kept notContained]
  have noneContains : (processed.all fun q => !q.contains candidate) = true := by
    simp only [List.all_eq_true, Bool.not_eq_true']
    intro q member
    obtain ⟨k, kKept, below⟩ := trimmed.dominated q member
    rcases below with rfl | kContains
    · exact notContained _ kKept
    · by_contra qContains
      rw [Bool.not_eq_false] at qContains
      have kContainsCandidate := order.trans k (inOrder k (trimmed.subset k kKept)) q
        (inOrder q member) candidate candidateIn kContains qContains
      rw [notContained k kKept] at kContainsCandidate
      exact Bool.false_ne_true kContainsCandidate
  constructor
  · rw [grown, maximalPaths_append_singleton fresh, ← trimmed.maximal, noneContains, if_pos rfl]
  · rw [grown]
    intro q member
    rcases List.mem_append.mp member with old | new
    · obtain ⟨k, kKept, below⟩ := trimmed.dominated q old
      by_cases survives : candidate.contains k = true
      · refine ⟨candidate, by simp, Or.inr ?_⟩
        rcases below with rfl | kContains
        · exact survives
        · exact order.trans candidate candidateIn k (inOrder k (trimmed.subset k kKept)) q
            (inOrder q old) survives kContains
      · exact ⟨k, List.mem_append_left _ (List.mem_filter.mpr ⟨kKept, by simpa using survives⟩),
          below⟩
    · rw [List.mem_singleton.mp new]
      exact ⟨candidate, by simp, Or.inl rfl⟩

/-- One step of `trim_paths` keeps the invariant, on distinct paths ordered by
`contains`. -/
theorem Trimmed.step {processed kept : List PossiblePath} {candidate : PossiblePath}
    (trimmed : Trimmed processed kept) (order : ContainsOrder (processed ++ [candidate])) :
    Trimmed (processed ++ [candidate]) (trimStep kept candidate) := by
  have fresh : candidate ∉ processed := fun member =>
    (List.pairwise_append.mp order.nodup).2.2 candidate member candidate (by simp) rfl
  by_cases contained : ∃ p ∈ kept, p.contains candidate = true
  · obtain ⟨p, pKept, pContains⟩ := contained
    exact trimmed.step_of_contained order fresh pKept pContains
  · exact trimmed.step_of_not_contained order fresh (by simpa using contained)

theorem Trimmed.foldl : ∀ (paths processed kept : List PossiblePath),
    Trimmed processed kept → ContainsOrder (processed ++ paths) →
      Trimmed (processed ++ paths) (paths.foldl trimStep kept)
  | [], processed, kept, trimmed, _ => by simpa using trimmed
  | candidate :: paths, processed, kept, trimmed, order => by
    have shift : processed ++ candidate :: paths = (processed ++ [candidate]) ++ paths := by simp
    rw [shift] at order ⊢
    exact Trimmed.foldl paths _ _
      (trimmed.step (order.sublist (List.sublist_append_left _ _))) order

theorem trimmed_trimPaths {paths : List PossiblePath} (order : ContainsOrder paths) :
    Trimmed paths (trimPaths paths) := by
  have initial : Trimmed [] [] := ⟨rfl, fun _ member => absurd member (List.not_mem_nil _)⟩
  simpa using Trimmed.foldl paths [] [] initial (by simpa using order)

/-- `trim_paths` keeps exactly the maximal paths, in order, whenever `contains` is a
partial order on distinct paths. -/
theorem trimPaths_eq_maximalPaths {paths : List PossiblePath} (order : ContainsOrder paths) :
    trimPaths paths = maximalPaths paths :=
  (trimmed_trimPaths order).maximal

/-- Every path lies below a kept one, so some path is kept of any non-empty list. -/
theorem maximalPaths_ne_nil {paths : List PossiblePath} (order : ContainsOrder paths)
    (nonempty : paths ≠ []) : maximalPaths paths ≠ [] := by
  obtain ⟨path, member⟩ := List.exists_mem_of_ne_nil paths nonempty
  obtain ⟨kept, keptMember, -⟩ := (trimmed_trimPaths order).dominated path member
  rw [trimPaths_eq_maximalPaths order] at keptMember
  exact List.ne_nil_of_mem keptMember

/-- On covers of one range with pairwise distinct boundaries, `contains` is a
partial order. -/
theorem containsOrder_of_covers {paths : List PossiblePath} {n : Nat}
    (covers : ∀ path ∈ paths, IsChain 0 n path.intervals)
    (distinct : paths.Pairwise fun first second => first.ends ≠ second.ends) :
    ContainsOrder paths where
  trans p hp q hq r hr pq qr := by
    rw [PossiblePath.contains_iff_refines (covers p hp) (covers r hr)]
    exact ((PossiblePath.contains_iff_refines (covers q hq) (covers r hr)).mp qr).trans
      ((PossiblePath.contains_iff_refines (covers p hp) (covers q hq)).mp pq)
  antisymm p hp q hq pq qp := by
    by_contra ne
    apply List.Pairwise.forall (fun _ _ differ => Ne.symm differ) distinct hp hq ne
    exact Refines.ends_eq (covers p hp) (covers q hq)
      ((PossiblePath.contains_iff_refines (covers q hq) (covers p hp)).mp qp)
      ((PossiblePath.contains_iff_refines (covers p hp) (covers q hq)).mp pq)
  nodup := distinct.imp fun differ same => differ (congrArg PossiblePath.ends same)

/-- On covers of one range with pairwise distinct boundaries, `trim_paths` keeps
exactly the paths that no other path contains, in their order. -/
theorem trimPaths_eq_filter_maximal (paths : List PossiblePath) (n : Nat)
    (covers : ∀ path ∈ paths, IsChain 0 n path.intervals)
    (distinct : paths.Pairwise fun first second => first.ends ≠ second.ends) :
    trimPaths paths = paths.filter fun path =>
      ∀ other ∈ paths, other ≠ path → other.contains path = false := by
  rw [trimPaths_eq_maximalPaths (containsOrder_of_covers covers distinct), maximalPaths]
  apply List.filter_congr
  intro path _
  rw [Bool.eq_iff_iff, List.all_eq_true, decide_eq_true_eq]
  exact forall₂_congr fun other _ => by by_cases same : other = path <;> simp [same]

/-- The three segmentations of `測試一下` into the test dictionary's phrases, a
coarser one listed after a finer one it contains. -/
theorem trimPaths_eq_filter_maximal_ceshi :
    (∀ path ∈ [(⟨[⟨0, 2, ⟨"測試", 9318⟩⟩, ⟨2, 3, ⟨"儀", 1⟩⟩, ⟨3, 4, ⟨"下", 10576⟩⟩]⟩ : PossiblePath),
        ⟨[⟨0, 2, ⟨"測試", 9318⟩⟩, ⟨2, 4, ⟨"一下", 10576⟩⟩]⟩,
        ⟨[⟨0, 3, ⟨"測試儀", 42⟩⟩, ⟨3, 4, ⟨"下", 10576⟩⟩]⟩], IsChain 0 4 path.intervals) ∧
    [(⟨[⟨0, 2, ⟨"測試", 9318⟩⟩, ⟨2, 3, ⟨"儀", 1⟩⟩, ⟨3, 4, ⟨"下", 10576⟩⟩]⟩ : PossiblePath),
        ⟨[⟨0, 2, ⟨"測試", 9318⟩⟩, ⟨2, 4, ⟨"一下", 10576⟩⟩]⟩,
        ⟨[⟨0, 3, ⟨"測試儀", 42⟩⟩, ⟨3, 4, ⟨"下", 10576⟩⟩]⟩].Pairwise
      (fun first second => first.ends ≠ second.ends) ∧
    trimPaths [⟨[⟨0, 2, ⟨"測試", 9318⟩⟩, ⟨2, 3, ⟨"儀", 1⟩⟩, ⟨3, 4, ⟨"下", 10576⟩⟩]⟩,
        ⟨[⟨0, 2, ⟨"測試", 9318⟩⟩, ⟨2, 4, ⟨"一下", 10576⟩⟩]⟩,
        ⟨[⟨0, 3, ⟨"測試儀", 42⟩⟩, ⟨3, 4, ⟨"下", 10576⟩⟩]⟩] =
      [(⟨[⟨0, 2, ⟨"測試", 9318⟩⟩, ⟨2, 3, ⟨"儀", 1⟩⟩, ⟨3, 4, ⟨"下", 10576⟩⟩]⟩ : PossiblePath),
        ⟨[⟨0, 2, ⟨"測試", 9318⟩⟩, ⟨2, 4, ⟨"一下", 10576⟩⟩]⟩,
        ⟨[⟨0, 3, ⟨"測試儀", 42⟩⟩, ⟨3, 4, ⟨"下", 10576⟩⟩]⟩].filter fun path =>
        ∀ other ∈ [(⟨[⟨0, 2, ⟨"測試", 9318⟩⟩, ⟨2, 3, ⟨"儀", 1⟩⟩, ⟨3, 4, ⟨"下", 10576⟩⟩]⟩ :
            PossiblePath),
          ⟨[⟨0, 2, ⟨"測試", 9318⟩⟩, ⟨2, 4, ⟨"一下", 10576⟩⟩]⟩,
          ⟨[⟨0, 3, ⟨"測試儀", 42⟩⟩, ⟨3, 4, ⟨"下", 10576⟩⟩]⟩],
          other ≠ path → other.contains path = false :=
  ⟨by decide, by decide, trimPaths_eq_filter_maximal _ 4 (by decide) (by decide)⟩

end ChewingConversion
