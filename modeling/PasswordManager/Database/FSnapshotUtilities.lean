import PasswordManager.Database.FPath

/-!
This module contains what the database client asks of the keys that it is given: the children of a
received object have to be told apart by the order of keys, and no path of an update may be inside
another one.
-/

namespace FSnapshotUtilities

open FUtilities SortedEntries

variable {κ : Type} [DecidableEq κ]

-- The loop over the sorted paths at the end of `compoundWriteFromDictionary`.
def checkUpdatePaths : (prevPath : Option (FPath κ)) → List (FPath κ) → Except NSException Unit
  | _, [] => .ok ()
  | prevPath, path :: updatePaths =>
    match prevPath with
    | some prev =>
      if prev.contains path then
        .error .invalidPathInObject
      else
        checkUpdatePaths (some path) updatePaths
    | none => checkUpdatePaths (some path) updatePaths

theorem distinct_keyComparator_iff {β : Type} {children : List (NSString × β)}
    (hkeys : (children.map Prod.fst).Nodup)
    : Distinct keyComparator children
        ↔
      ∀ a ∈ children.map Prod.fst, ∀ b ∈ children.map Prod.fst, ¬ ZeroAlike a b := by
  have hpairs : Distinct keyComparator children
      ↔
    (children.map Prod.fst).Pairwise (fun a b => ¬ ZeroAlike a b ∧ ¬ ZeroAlike b a) := by
    unfold Distinct
    rw [List.pairwise_map]
    rw [List.Nodup, List.pairwise_map] at hkeys
    constructor
    . intro h
      apply (h.and hkeys).imp
      intro a b hab
      have hne := hab.left
      unfold keyComparator compareKey at hne
      rw [ne_eq, compareString_eq_iff, not_or, not_or] at hne
      exact hne.right
    . intro h
      apply (h.and hkeys).imp
      intro a b hab
      unfold keyComparator compareKey
      rw [ne_eq, compareString_eq_iff, not_or, not_or]
      exact ⟨hab.right, hab.left⟩
  rw [hpairs]
  constructor
  . intro h a ha b hb
    have hall := h.forall_of_forall_of_flip
      (fun a _ => ⟨not_zeroAlike_self a, not_zeroAlike_self a⟩) (h.imp And.symm) ha hb
    exact hall.left
  . intro h
    apply List.pairwise_of_forall_mem_list
    intro a ha b hb
    exact ⟨h a ha b hb, h b hb a ha⟩

/--
The children of a received object make a dictionary, unless two of their keys are zeros of the same
length with different signs. Then the client is stopped.
-/
theorem children_dictionary_iff {β : Type} {children : List (NSString × β)}
    (hkeys : (children.map Prod.fst).Nodup)
    : ((∃ dictionary, FImmutableSortedDictionary.fromDictionary keyComparator children
            = .ok dictionary)
          ↔ ∀ a ∈ children.map Prod.fst, ∀ b ∈ children.map Prod.fst, ¬ ZeroAlike a b)
        ∧ (FImmutableSortedDictionary.fromDictionary keyComparator children = .error .sameOrdering
          ↔ ∃ a ∈ children.map Prod.fst, ∃ b ∈ children.map Prod.fst, ZeroAlike a b) := by
  have hnot : (∃ a ∈ children.map Prod.fst, ∃ b ∈ children.map Prod.fst, ZeroAlike a b)
      ↔
    ¬ Distinct keyComparator children := by
    rw [distinct_keyComparator_iff hkeys]
    simp only [not_forall, not_not, exists_prop]
  rw [← distinct_keyComparator_iff hkeys, hnot]
  by_cases hdistinct : Distinct keyComparator children
  . obtain ⟨dictionary, hdictionary, -⟩ :=
      FImmutableSortedDictionary.fromDictionary_of_distinct hdistinct
    rw [hdictionary]
    simp [hdistinct]
  . rw [FImmutableSortedDictionary.fromDictionary_of_not_distinct hdistinct]
    simp [hdistinct]

theorem children_dictionary_iff_zeros
    : FImmutableSortedDictionary.fromDictionary keyComparator
          [([minus, zero], ()), ([zero, zero], ())] = .error .sameOrdering
        ↔
      ∃ a ∈ [[minus, zero], [zero, zero]], ∃ b ∈ [[minus, zero], [zero, zero]], ZeroAlike a b := by
  have hkeys : ([([minus, zero], ()), ([zero, zero], ())].map Prod.fst).Nodup := by decide
  exact (children_dictionary_iff hkeys).right

section Paths

variable {cmp : κ → κ → Ordering} [Std.TransCmp cmp]

theorem checkUpdatePaths_some_iff {prev : FPath κ} {sorted : List (FPath κ)}
    (hlawful : ∀ p ∈ prev :: sorted, ∀ q ∈ prev :: sorted, ∀ a ∈ p, ∀ b ∈ q,
      cmp a b = .eq → a = b)
    (hsorted : (prev :: sorted).Pairwise (fun p q => (List.compareLex cmp p q).isLE))
    : checkUpdatePaths (some prev) sorted = .ok () ↔ (prev :: sorted).Pairwise FPath.Apart := by
  induction sorted generalizing prev with
  | nil => simp [checkUpdatePaths]
  | cons path sorted ih =>
    have hrest := ih (fun p hp q hq => hlawful p (List.mem_cons_of_mem _ hp) q
      (List.mem_cons_of_mem _ hq)) hsorted.of_cons
    rw [List.pairwise_cons] at hsorted
    have hpath := hsorted.left path List.mem_cons_self
    unfold checkUpdatePaths
    dsimp only
    split
    . next hcontains =>
      rw [FPath.contains_iff] at hcontains
      simp only [reduceCtorEq, false_iff]
      intro hapart
      exact (List.rel_of_pairwise_cons hapart List.mem_cons_self).left hcontains
    . next hcontains =>
      rw [FPath.contains_iff] at hcontains
      rw [hrest]
      constructor
      . intro hapart
        rw [List.pairwise_cons]
        refine ⟨?_, hapart⟩
        intro other hother
        have hbetween : (List.compareLex cmp path other).isLE := by
          cases List.mem_cons.mp hother with
          | inl heq =>
            subst heq
            apply FPath.isLE_of_extends
            exact List.prefix_rfl
          | inr hmem => exact List.rel_of_pairwise_cons hsorted.right hmem
        have houtside : ¬ prev <+: other := by
          intro h
          apply hcontains
          apply FPath.prefix_of_between _ h hpath hbetween
          exact hlawful prev List.mem_cons_self path (by simp)
        refine ⟨houtside, ?_⟩
        -- a path inside an earlier one is not sorted behind it, unless they are the same
        intro h
        have hle : (List.compareLex cmp prev other).isLE := hsorted.left other hother
        have heq := Std.OrientedCmp.isLE_antisymm hle (FPath.isLE_of_extends h)
        have hsame := FPath.eq_of_compareLex
          (hlawful prev List.mem_cons_self other (List.mem_cons_of_mem _ hother)) heq
        subst hsame
        exact houtside h
      . intro hapart
        exact hapart.of_cons

theorem checkUpdatePaths_cases (prevPath : Option (FPath κ)) (updatePaths : List (FPath κ))
    : checkUpdatePaths prevPath updatePaths = .ok ()
        ∨ checkUpdatePaths prevPath updatePaths = .error .invalidPathInObject := by
  induction updatePaths generalizing prevPath with
  | nil => exact .inl rfl
  | cons path updatePaths ih =>
    unfold checkUpdatePaths
    split
    . split
      . exact .inr rfl
      . apply ih
    . apply ih

end Paths

/--
Looking at neighbours is enough: whatever way of sorting is used, an update passes exactly if none of
its paths is another one or inside of it, as long as no two pieces are zeros with different signs.
-/
theorem update_paths_iff {paths sorted : List (FPath NSString)}
    (hkeys : ∀ p ∈ paths, ∀ q ∈ paths, ∀ a ∈ p, ∀ b ∈ q, ¬ ZeroAlike a b)
    (hperm : sorted.Perm paths)
    (hsorted : sorted.Pairwise (fun p q => (FPath.compare keyComparator p q).isLE))
    : (checkUpdatePaths none sorted = .ok () ↔ paths.Pairwise FPath.Apart)
        ∧ (checkUpdatePaths none sorted = .error .invalidPathInObject
          ↔ ¬ paths.Pairwise FPath.Apart) := by
  have hpasses : checkUpdatePaths none sorted = .ok () ↔ sorted.Pairwise FPath.Apart := by
    rw [FPath.compare_eq_compareLex] at hsorted
    cases sorted with
    | nil => simp [checkUpdatePaths]
    | cons path sorted =>
      apply checkUpdatePaths_some_iff _ hsorted
      intro p hp q hq a ha b hb heq
      unfold keyComparator compareKey at heq
      rw [compareString_eq_iff] at heq
      rw [hperm.mem_iff] at hp hq
      cases heq with
      | inl hab => exact hab
      | inr hzero =>
        cases hzero with
        | inl hzero => exact absurd hzero (hkeys p hp q hq a ha b hb)
        | inr hzero => exact absurd hzero (hkeys q hq p hp b hb a ha)
  have hpaths : sorted.Pairwise FPath.Apart ↔ paths.Pairwise FPath.Apart := by
    apply hperm.pairwise_iff
    intro p q hpq
    exact ⟨hpq.right, hpq.left⟩
  rw [← hpaths, ← hpasses]
  refine ⟨Iff.rfl, ?_⟩
  cases checkUpdatePaths_cases none sorted with
  | inl hok => simp [hok]
  | inr herror => simp [herror]

def referencePaths : List (FPath NSString) :=
  [[[97], [98]], [[97]]]

theorem update_paths_iff_ancestor
    : checkUpdatePaths none referencePaths.reverse = .error .invalidPathInObject
        ↔
      ¬ referencePaths.Pairwise FPath.Apart := by
  have hheads : ∀ p ∈ referencePaths, ∀ a ∈ p, a.head? ≠ some minus := by
    decide
  have hkeys : ∀ p ∈ referencePaths, ∀ q ∈ referencePaths, ∀ a ∈ p, ∀ b ∈ q,
      ¬ ZeroAlike a b := by
    intro p hp q _ a ha b _
    exact not_zeroAlike_of_head (hheads p hp a ha)
  exact (update_paths_iff hkeys referencePaths.reverse_perm (by decide)).right

-- The path of one piece is an ancestor of the last one, they are no neighbours.
example
    : checkUpdatePaths none [[[zero, zero]], [[minus, zero], [97]], [[zero, zero], [98]]] = .ok () := by
  decide

end FSnapshotUtilities
