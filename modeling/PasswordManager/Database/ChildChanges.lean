import PasswordManager.Database.FSnapshotLemmas
import PasswordManager.Database.FViewProcessor
import PasswordManager.PathMaps.Rebase

/-!
This module contains what the changes say that are tracked for the children of a view: how to get from
the children before an operation to those after it. An operation may change a child several times.
-/

open FKeys FSnapshot SortedEntries Std

variable {κ ν : Type} [DecidableEq κ] [FKeys κ]

def FChildChange.Fits (self : FChildChange κ ν) (before after : PathMap κ ν) : Prop :=
  match self with
  | .childAdded node => before.Empty ∧ ¬ after.Empty ∧ node.leaves = after
  | .childRemoved node => ¬ before.Empty ∧ after.Empty ∧ node.leaves = before
  | .childChanged node oldNode =>
    ¬ before.Empty ∧ ¬ after.Empty ∧ node.leaves = after ∧ oldNode.leaves = before

namespace FChildChangeAccumulator

structure Tracks (before after : κ → PathMap κ ν) (changeMap : ChangeMap κ ν) : Prop where
  nodup : (changeMap.map Prod.fst).Nodup
  fits : ∀ entry ∈ changeMap, entry.2.Fits (before entry.1) (after entry.1)
  same : ∀ key, key ∉ changeMap.map Prod.fst → before key = after key

omit [DecidableEq κ] in
theorem tracks_nil (before : κ → PathMap κ ν) : Tracks before before [] where
  nodup := List.nodup_nil
  fits entry hentry := by cases hentry
  same key _ := rfl

variable {before after : κ → PathMap κ ν} {changeMap : ChangeMap κ ν} {key : κ} {new : PathMap κ ν}
variable {change : FChildChange κ ν}

section ChangeMap

omit [FKeys κ]

theorem keys_setObject (changeMap : ChangeMap κ ν) (key : κ) (change : FChildChange κ ν)
    : (setObject changeMap key change).map Prod.fst = changeMap.map Prod.fst := by
  unfold setObject
  rw [List.map_map]
  apply List.map_congr_left
  intro entry _
  simp only [Function.comp_apply]
  split
  . next heq => exact heq.symm
  . rfl

theorem mem_setObject {entry : κ × FChildChange κ ν} (h : entry ∈ setObject changeMap key change)
    : entry = (key, change) ∨ entry ∈ changeMap ∧ entry.1 ≠ key := by
  unfold setObject at h
  rw [List.mem_map] at h
  obtain ⟨old, hold, heq⟩ := h
  split at heq
  . left
    exact heq.symm
  . next hne =>
    right
    subst heq
    exact ⟨hold, hne⟩

end ChangeMap

theorem Tracks.append (h : Tracks before after changeMap) (hnew : key ∉ changeMap.map Prod.fst)
    (hfits : change.Fits (after key) new)
    : Tracks before (Function.update after key new) (changeMap ++ [(key, change)]) := by
  constructor
  . rw [List.map_append, List.nodup_append]
    refine ⟨h.nodup, by simp, ?_⟩
    intro other hother last hlast heq
    rw [List.map_singleton, List.mem_singleton] at hlast
    subst heq hlast
    exact hnew hother
  . intro entry hentry
    cases List.mem_append.mp hentry with
    | inl hold =>
      have hne : entry.1 ≠ key := by
        intro heq
        apply hnew
        rw [← heq]
        exact List.mem_map_of_mem hold
      rw [Function.update_of_ne hne]
      exact h.fits entry hold
    | inr hlast =>
      rw [List.mem_singleton] at hlast
      subst hlast
      rw [Function.update_self, h.same key hnew]
      exact hfits
  . intro other hother
    rw [List.map_append, List.mem_append, not_or] at hother
    have hne : other ≠ key := by
      intro heq
      subst heq
      exact hother.right List.mem_cons_self
    rw [Function.update_of_ne hne]
    exact h.same other hother.left

theorem Tracks.setObject (h : Tracks before after changeMap) (hmem : key ∈ changeMap.map Prod.fst)
    (hfits : change.Fits (before key) new)
    : Tracks before (Function.update after key new) (setObject changeMap key change) := by
  constructor
  . rw [keys_setObject]
    exact h.nodup
  . intro entry hentry
    cases mem_setObject hentry with
    | inl heq =>
      subst heq
      rw [Function.update_self]
      exact hfits
    | inr hold =>
      rw [Function.update_of_ne hold.right]
      exact h.fits entry hold.left
  . intro other hother
    rw [keys_setObject] at hother
    have hne : other ≠ key := by
      intro heq
      subst heq
      exact hother hmem
    rw [Function.update_of_ne hne]
    exact h.same other hother

theorem Tracks.removeObject (h : Tracks before after changeMap) (hsame : before key = new)
    : Tracks before (Function.update after key new)
        (changeMap.filter (fun entry => entry.1 ≠ key)) := by
  constructor
  . apply List.Sublist.nodup _ h.nodup
    exact List.filter_sublist.map Prod.fst
  . intro entry hentry
    rw [List.mem_filter, decide_eq_true_eq] at hentry
    rw [Function.update_of_ne hentry.right]
    exact h.fits entry hentry.left
  . intro other hother
    by_cases hne : other = key
    . subst hne
      rw [Function.update_self]
      exact hsame
    . rw [Function.update_of_ne hne]
      apply h.same
      intro hold
      apply hother
      obtain ⟨entry, hentry, rfl⟩ := List.mem_map.mp hold
      apply List.mem_map_of_mem
      rw [List.mem_filter, decide_eq_true_eq]
      exact ⟨hentry, hne⟩

theorem Tracks.trackChildChange (h : Tracks before after changeMap) (hkey : key ≠ priorityKey)
    (hfits : change.Fits (after key) new)
    : ∃ next, trackChildChange changeMap (key, change) = .ok next
        ∧ Tracks before (Function.update after key new) next := by
  unfold FChildChangeAccumulator.trackChildChange
  dsimp only
  rw [if_neg hkey]
  cases hfound : changeMap.find? (fun entry => entry.1 = key) with
  | none =>
    refine ⟨_, rfl, h.append ?_ hfits⟩
    intro hmem
    obtain ⟨entry, hentry, heq⟩ := List.mem_map.mp hmem
    rw [List.find?_eq_none] at hfound
    apply hfound entry hentry
    rw [decide_eq_true_eq]
    exact heq
  | some old =>
    obtain ⟨oldKey, oldChange⟩ := old
    have hmem := List.mem_of_find?_eq_some hfound
    have hkey := List.find?_some hfound
    rw [decide_eq_true_eq] at hkey
    subst hkey
    have hkeys : oldKey ∈ changeMap.map Prod.fst := List.mem_map_of_mem hmem
    have hold := h.fits _ hmem
    dsimp only at hold
    cases change with
    | childAdded node =>
      obtain ⟨hgone, hnew, hnode⟩ := hfits
      cases oldChange with
      | childAdded oldNode => exact absurd hgone hold.right.left
      | childChanged oldNode olderNode => exact absurd hgone hold.right.left
      | childRemoved oldNode =>
        refine ⟨_, rfl, h.setObject hkeys ?_⟩
        exact ⟨hold.left, hnew, hnode, hold.right.right⟩
    | childRemoved node =>
      obtain ⟨hthere, hnew, -⟩ := hfits
      cases oldChange with
      | childRemoved oldNode => exact absurd hold.right.left hthere
      | childAdded oldNode =>
        refine ⟨_, rfl, h.removeObject ?_⟩
        exact hold.left.eq hnew
      | childChanged oldNode olderNode =>
        refine ⟨_, rfl, h.setObject hkeys ?_⟩
        exact ⟨hold.left, hnew, hold.right.right.right⟩
    | childChanged node oldNode =>
      obtain ⟨hthere, hnew, hnode, -⟩ := hfits
      cases oldChange with
      | childRemoved olderNode => exact absurd hold.right.left hthere
      | childAdded olderNode =>
        refine ⟨_, rfl, h.setObject hkeys ?_⟩
        exact ⟨hold.left, hnew, hnode⟩
      | childChanged olderNode oldestNode =>
        refine ⟨_, rfl, h.setObject hkeys ?_⟩
        exact ⟨hold.left, hnew, hnode, hold.right.right.right⟩

/--
Whatever has been tracked before, the effects can come after it: no check fails.
-/
def Accounted (before after : κ → PathMap κ ν) (effects : List (Effect κ ν)) : Prop :=
  ∀ first changeMap, Tracks first before changeMap
    → ∃ next, effects.foldlM perform changeMap = .ok next ∧ Tracks first after next

theorem accounted_nil (before : κ → PathMap κ ν) : Accounted before before [] := by
  intro first changeMap h
  exact ⟨changeMap, rfl, h⟩

theorem accounted_assert (before : κ → PathMap κ ν) {condition : Prop} [Decidable condition]
    (h : condition) (exception : NSException)
    : Accounted before before (assert condition exception) := by
  unfold FChildChangeAccumulator.assert
  rw [if_pos h]
  exact accounted_nil before

theorem Accounted.append {middle : κ → PathMap κ ν} {effects later : List (Effect κ ν)}
    (h : Accounted before middle effects) (hlater : Accounted middle after later)
    : Accounted before after (effects ++ later) := by
  intro first changeMap htracks
  obtain ⟨next, hnext, htracks⟩ := h first changeMap htracks
  obtain ⟨last, hlast, htracks⟩ := hlater first next htracks
  refine ⟨last, ?_, htracks⟩
  rw [List.foldlM_append, hnext]
  exact hlast

theorem accounted_singleton (hkey : key ≠ priorityKey) (hfits : change.Fits (before key) new)
    : Accounted before (Function.update before key new) [.ok (key, change)] := by
  intro first changeMap h
  obtain ⟨next, hnext, htracks⟩ := h.trackChildChange hkey hfits
  refine ⟨next, ?_, htracks⟩
  have hperform : perform changeMap (.ok (key, change)) = .ok next := hnext
  rw [List.foldlM_cons, hperform]
  rfl

theorem accounted_of_fits {tracked : List (κ × FChildChange κ ν)}
    (hkeys : ∀ entry ∈ tracked, entry.1 ≠ priorityKey) (hnodup : (tracked.map Prod.fst).Nodup)
    (hfits : ∀ entry ∈ tracked, entry.2.Fits (before entry.1) (after entry.1))
    (hsame : ∀ key, key ∉ tracked.map Prod.fst → before key = after key)
    : Accounted before after (tracked.map .ok) := by
  induction tracked generalizing before with
  | nil =>
    have heq : before = after := by
      funext key
      apply hsame
      simp
    subst heq
    exact accounted_nil before
  | cons entry tracked ih =>
    rw [List.map_cons, List.nodup_cons] at hnodup
    have hfirst := accounted_singleton (hkeys entry List.mem_cons_self)
      (hfits entry List.mem_cons_self)
    apply hfirst.append
    apply ih
    . intro other hother
      exact hkeys other (List.mem_cons_of_mem _ hother)
    . exact hnodup.right
    . intro other hother
      have hne : other.1 ≠ entry.1 := by
        intro heq
        apply hnodup.left
        rw [← heq]
        exact List.mem_map_of_mem hother
      rw [Function.update_of_ne hne]
      exact hfits other (List.mem_cons_of_mem _ hother)
    . intro other hother
      by_cases heq : other = entry.1
      . rw [heq, Function.update_self]
      . rw [Function.update_of_ne heq]
        apply hsame
        rw [List.map_cons, List.mem_cons, not_or]
        exact ⟨heq, hother⟩

theorem Accounted.changes {effects : List (Effect κ ν)} (h : Accounted before after effects)
    : ∃ changeMap, changes effects = .ok (changeMap.map (fun entry => .child entry.1 entry.2))
        ∧ Tracks before after changeMap := by
  obtain ⟨changeMap, hchanges, htracks⟩ := h before [] (tracks_nil before)
  refine ⟨changeMap, ?_, htracks⟩
  unfold FChildChangeAccumulator.changes
  rw [hchanges]
  rfl

end FChildChangeAccumulator

namespace FIndexedFilter

open FChildChangeAccumulator

variable [DecidableEq ν] [LawfulFKeys κ]
variable {node newChildSnap oldSnap newSnap : FSnapshot κ ν} {childKey : κ} {affectedPath : FPath κ}

omit [DecidableEq ν] in
theorem hasChild_iff (h : node.WellFormed) (hkey : childKey ≠ priorityKey)
    : node.hasChild childKey = true ↔ ¬ (node.leaves.child childKey).Empty := by
  unfold PathMap.child
  rw [← leaves_getImmediateChild node hkey, (wellFormed_getImmediateChild h hkey).empty_leaves_iff]
  cases node with
  | leafNode value priorityNode =>
    unfold hasChild getImmediateChild
    simp [hkey, FSnapshot.isEmpty, emptyNode]
  | childrenNode priorityNode children =>
    unfold hasChild
    simp

omit [DecidableEq ν] in
theorem isEmpty_getImmediateChild_iff (h : node.WellFormed) (hkey : childKey ≠ priorityKey)
    : (node.getImmediateChild childKey).isEmpty = true ↔ (node.leaves.child childKey).Empty := by
  rw [← (wellFormed_getImmediateChild h hkey).empty_leaves_iff, leaves_getImmediateChild node hkey]
  rfl

theorem updateChildIn_spec (hnode : node.WellFormed) (hnew : newChildSnap.WellFormed)
    (hkey : childKey ≠ priorityKey) (hplain : Plain affectedPath)
    (hlocal : (node.leaves.child childKey).below affectedPath
        = newChildSnap.leaves.below affectedPath
      → node.leaves.child childKey = newChildSnap.leaves)
    : (updateChildIn node childKey newChildSnap affectedPath).1.WellFormed
        ∧ (updateChildIn node childKey newChildSnap affectedPath).1.leaves
          = node.leaves.overwrite [childKey] newChildSnap.leaves
        ∧ Accounted node.leaves.child (node.leaves.overwrite [childKey] newChildSnap.leaves).child
          (updateChildIn node childKey newChildSnap affectedPath).2 := by
  have hold := wellFormed_getImmediateChild hnode hkey
  have holdLeaves := leaves_getImmediateChild node hkey
  have hsame : node.leaves.child childKey = newChildSnap.leaves
      → node.leaves.overwrite [childKey] newChildSnap.leaves = node.leaves := by
    intro heq
    rw [← heq]
    exact PathMap.overwrite_below_self (discrete_leaves node) [childKey]
  have hgone : (node.leaves.child childKey).Empty → newChildSnap.isEmpty = true
      → node.leaves.overwrite [childKey] newChildSnap.leaves = node.leaves := by
    intro hempty hnewEmpty
    apply hsame
    exact hempty.eq (hnew.empty_leaves_iff.mpr hnewEmpty)
  unfold updateChildIn
  dsimp only
  split
  . next hequal =>
    have hleaves := leaves_of_isEqual (wellFormed_getChild hold hplain)
      (wellFormed_getChild hnew hplain) hequal.left
    rw [leaves_getChild _ hplain, leaves_getChild _ hplain, holdLeaves] at hleaves
    rw [hsame (hlocal hleaves)]
    exact ⟨hnode, rfl, accounted_nil _⟩
  . next hchanged =>
    split
    . next hleaf =>
      have hchild : node.hasChild childKey = false := by
        cases node with
        | leafNode value priorityNode => simp [hasChild, hkey]
        | childrenNode priorityNode children => cases hleaf.left
      have hempty : (node.leaves.child childKey).Empty := by
        by_contra hthere
        rw [← hasChild_iff hnode hkey, hchild] at hthere
        cases hthere
      rw [hgone hempty hleaf.right, hleaf.right, hchild]
      exact ⟨hnode, rfl, accounted_assert _ hleaf.left _⟩
    . next hupdated =>
      refine ⟨wellFormed_updateImmediateChild hnode hnew hkey,
        leaves_updateImmediateChild hnode hnew hkey, ?_⟩
      split
      . next hnewEmpty =>
        split
        . next hchild =>
          rw [PathMap.child_overwrite]
          apply accounted_singleton hkey
          rw [hasChild_iff hnode hkey] at hchild
          exact ⟨hchild, hnew.empty_leaves_iff.mpr hnewEmpty, holdLeaves⟩
        . next hchild =>
          -- both children are empty, and the check at the beginning has told that they are the same
          have holdEmpty : (node.getImmediateChild childKey).isEmpty = true := by
            rw [isEmpty_getImmediateChild_iff hnode hkey]
            rw [hasChild_iff hnode hkey, not_not] at hchild
            exact hchild
          apply absurd _ hchanged
          refine ⟨?_, by rw [holdEmpty, hnewEmpty]⟩
          exact isEqual_of_isEmpty (isEmpty_getChild hold holdEmpty hplain)
            (isEmpty_getChild hnew hnewEmpty hplain)
      . next hnonempty =>
        rw [← hnew.empty_leaves_iff] at hnonempty
        rw [PathMap.child_overwrite]
        split
        . next holdEmpty =>
          apply accounted_singleton hkey
          rw [isEmpty_getImmediateChild_iff hnode hkey] at holdEmpty
          exact ⟨holdEmpty, hnonempty, rfl⟩
        . next holdNonempty =>
          apply accounted_singleton hkey
          rw [isEmpty_getImmediateChild_iff hnode hkey] at holdNonempty
          exact ⟨holdNonempty, hnonempty, rfl, holdLeaves⟩

omit [DecidableEq κ] [FKeys κ] [DecidableEq ν] [LawfulFKeys κ] in
theorem keys_filterMap_sublist (entries : List (κ × FSnapshot κ ν))
    (change : κ × FSnapshot κ ν → Option (FChildChange κ ν))
    : ((entries.filterMap (fun entry => (change entry).map (fun found => (entry.1, found)))).map
        Prod.fst).Sublist (entries.map Prod.fst) := by
  induction entries with
  | nil => exact List.Sublist.slnil
  | cons entry entries ih =>
    rw [List.filterMap_cons]
    cases change entry with
    | none => exact ih.cons entry.1
    | some found => exact ih.cons_cons entry.1

omit [DecidableEq ν] [LawfulFKeys κ] in
def removedChange (newSnap : FSnapshot κ ν) (entry : κ × FSnapshot κ ν) : Option (FChildChange κ ν) :=
  if newSnap.hasChild entry.1 then none else some (.childRemoved entry.2)

omit [LawfulFKeys κ] in
def keptChange (oldSnap : FSnapshot κ ν) (entry : κ × FSnapshot κ ν) : Option (FChildChange κ ν) :=
  if oldSnap.hasChild entry.1 then
    if (oldSnap.getImmediateChild entry.1).isEqual entry.2 then
      none
    else
      some (.childChanged entry.2 (oldSnap.getImmediateChild entry.1))
  else
    some (.childAdded entry.2)

omit [LawfulFKeys κ] in
theorem updateFullNode_eq (oldSnap newSnap : FSnapshot κ ν)
    : updateFullNode oldSnap newSnap
        =
      (oldSnap.enumerateChildren.filterMap (fun entry =>
          (removedChange newSnap entry).map (fun found => (entry.1, found)))
        ++ newSnap.enumerateChildren.filterMap (fun entry =>
          (keptChange oldSnap entry).map (fun found => (entry.1, found)))).map .ok := by
  unfold updateFullNode
  dsimp only
  congr 3
  . funext entry
    unfold removedChange
    split
    . rfl
    . rfl
  . funext entry
    unfold keptChange
    split
    . split
      . rfl
      . rfl
    . rfl

omit [DecidableEq κ] [DecidableEq ν] in
theorem nodup_enumerateChildren (h : node.WellFormed)
    : (node.enumerateChildren.map Prod.fst).Nodup := by
  cases h with
  | leaf value priorityNode => exact List.nodup_nil
  | inner priorityNode children sorted wellFormed nonempty plain => exact nodup_keys sorted

omit [DecidableEq κ] [DecidableEq ν] in
theorem child_of_mem (h : node.WellFormed) {entry : κ × FSnapshot κ ν}
    (hmem : entry ∈ node.enumerateChildren)
    : entry.1 ≠ priorityKey ∧ entry.2.WellFormed ∧ node.leaves.child entry.1 = entry.2.leaves
        ∧ ¬ (node.leaves.child entry.1).Empty := by
  cases h with
  | leaf value priorityNode => cases hmem
  | inner priorityNode children sorted wellFormed nonempty plain =>
    have hfound : lookup keyComparator entry.1 children = some entry.2 := by
      rw [lookup_eq_some_iff sorted]
      exact ⟨entry, hmem, ReflCmp.compare_self, rfl⟩
    have hchild : (childrenNode priorityNode children).leaves.child entry.1 = entry.2.leaves := by
      funext rest
      apply (leaves_childrenNode_cons priorityNode children entry.1 rest).trans
      rw [hfound]
      rfl
    refine ⟨plain entry hmem, wellFormed entry hmem, hchild, ?_⟩
    rw [hchild, (wellFormed entry hmem).empty_leaves_iff, nonempty entry hmem]
    exact Bool.false_ne_true

omit [DecidableEq κ] [DecidableEq ν] in
theorem mem_of_child (h : node.WellFormed) (hchild : ¬ (node.leaves.child childKey).Empty)
    : childKey ∈ node.enumerateChildren.map Prod.fst := by
  cases h with
  | leaf value priorityNode =>
    apply absurd _ hchild
    intro rest
    rfl
  | inner priorityNode children sorted wellFormed nonempty plain =>
    cases hfound : lookup keyComparator childKey children with
    | some found =>
      apply (mem_keys_iff sorted).mpr
      rw [hfound]
      simp
    | none =>
      apply absurd _ hchild
      intro rest
      apply (leaves_childrenNode_cons priorityNode children childKey rest).trans
      rw [hfound]
      rfl

omit [DecidableEq ν] in
theorem removedChange_fits (hold : oldSnap.WellFormed) (hnew : newSnap.WellFormed)
    {entry : κ × FSnapshot κ ν} (hmem : entry ∈ oldSnap.enumerateChildren)
    {found : FChildChange κ ν} (hfound : removedChange newSnap entry = some found)
    : found.Fits (oldSnap.leaves.child entry.1) (newSnap.leaves.child entry.1) := by
  obtain ⟨hkey, -, hleaves, hthere⟩ := child_of_mem hold hmem
  unfold removedChange at hfound
  split at hfound
  . cases hfound
  . next hchild =>
    rw [hasChild_iff hnew hkey, not_not] at hchild
    cases hfound
    exact ⟨hthere, hchild, hleaves.symm⟩

theorem keptChange_fits (hold : oldSnap.WellFormed) (hnew : newSnap.WellFormed)
    {entry : κ × FSnapshot κ ν} (hmem : entry ∈ newSnap.enumerateChildren)
    {found : FChildChange κ ν} (hfound : keptChange oldSnap entry = some found)
    : found.Fits (oldSnap.leaves.child entry.1) (newSnap.leaves.child entry.1) := by
  obtain ⟨hkey, -, hleaves, hthere⟩ := child_of_mem hnew hmem
  unfold keptChange at hfound
  split at hfound
  . next hchild =>
    rw [hasChild_iff hold hkey] at hchild
    split at hfound
    . cases hfound
    . cases hfound
      exact ⟨hchild, hthere, hleaves.symm, leaves_getImmediateChild oldSnap hkey⟩
  . next hchild =>
    rw [hasChild_iff hold hkey, not_not] at hchild
    cases hfound
    exact ⟨hchild, hthere, hleaves.symm⟩

theorem eq_of_keptChange (hold : oldSnap.WellFormed) (hnew : newSnap.WellFormed)
    {entry : κ × FSnapshot κ ν} (hmem : entry ∈ newSnap.enumerateChildren)
    (hnone : keptChange oldSnap entry = none)
    : oldSnap.leaves.child entry.1 = newSnap.leaves.child entry.1 := by
  obtain ⟨hkey, hwellFormed, hleaves, -⟩ := child_of_mem hnew hmem
  unfold keptChange at hnone
  split at hnone
  . split at hnone
    . next hequal =>
      rw [hleaves, ← leaves_of_isEqual (wellFormed_getImmediateChild hold hkey) hwellFormed hequal,
        leaves_getImmediateChild oldSnap hkey]
      rfl
    . cases hnone
  . cases hnone

theorem accounted_updateFullNode (hold : oldSnap.WellFormed) (hnew : newSnap.WellFormed)
    : Accounted oldSnap.leaves.child newSnap.leaves.child (updateFullNode oldSnap newSnap) := by
  rw [updateFullNode_eq]
  apply accounted_of_fits
  . intro change hchange
    cases List.mem_append.mp hchange with
    | inl hremoved =>
      obtain ⟨entry, hmem, hentry⟩ := List.mem_filterMap.mp hremoved
      obtain ⟨found, -, rfl⟩ := Option.map_eq_some_iff.mp hentry
      exact (child_of_mem hold hmem).left
    | inr hkept =>
      obtain ⟨entry, hmem, hentry⟩ := List.mem_filterMap.mp hkept
      obtain ⟨found, -, rfl⟩ := Option.map_eq_some_iff.mp hentry
      exact (child_of_mem hnew hmem).left
  . rw [List.map_append, List.nodup_append]
    refine ⟨?_, ?_, ?_⟩
    . exact (keys_filterMap_sublist _ _).nodup (nodup_enumerateChildren hold)
    . exact (keys_filterMap_sublist _ _).nodup (nodup_enumerateChildren hnew)
    . intro key hremoved other hkept heq
      subst heq
      -- a child of the new node is not removed
      obtain ⟨kept, hmem, rfl⟩ := List.mem_map.mp ((keys_filterMap_sublist _ _).subset hkept)
      obtain ⟨hkey, -, -, hthere⟩ := child_of_mem hnew hmem
      obtain ⟨removed, hremoved, heq⟩ := List.mem_map.mp hremoved
      obtain ⟨entry, -, hentry⟩ := List.mem_filterMap.mp hremoved
      rw [Option.map_eq_some_iff] at hentry
      obtain ⟨found, hfound, rfl⟩ := hentry
      dsimp only at heq
      unfold removedChange at hfound
      rw [heq, if_pos ((hasChild_iff hnew hkey).mpr hthere)] at hfound
      cases hfound
  . intro change hchange
    cases List.mem_append.mp hchange with
    | inl hremoved =>
      obtain ⟨entry, hmem, hentry⟩ := List.mem_filterMap.mp hremoved
      obtain ⟨found, hfound, rfl⟩ := Option.map_eq_some_iff.mp hentry
      exact removedChange_fits hold hnew hmem hfound
    | inr hkept =>
      obtain ⟨entry, hmem, hentry⟩ := List.mem_filterMap.mp hkept
      obtain ⟨found, hfound, rfl⟩ := Option.map_eq_some_iff.mp hentry
      exact keptChange_fits hold hnew hmem hfound
  . intro key huntracked
    rw [List.map_append, List.mem_append, not_or] at huntracked
    obtain ⟨hremoved, hkept⟩ := huntracked
    by_cases hnewChild : (newSnap.leaves.child key).Empty
    . by_cases holdChild : (oldSnap.leaves.child key).Empty
      . exact holdChild.eq hnewChild
      . -- the child of the old node would have been removed
        obtain ⟨entry, hentry, rfl⟩ := List.mem_map.mp (mem_of_child hold holdChild)
        obtain ⟨hkey, -, -, -⟩ := child_of_mem hold hentry
        have hchild : ¬ newSnap.hasChild entry.1 = true := by
          rw [hasChild_iff hnew hkey, not_not]
          exact hnewChild
        apply absurd _ hremoved
        rw [List.mem_map]
        refine ⟨(entry.1, .childRemoved entry.2), ?_, rfl⟩
        rw [List.mem_filterMap]
        refine ⟨entry, hentry, ?_⟩
        unfold removedChange
        rw [if_neg hchild]
        rfl
    . obtain ⟨entry, hentry, rfl⟩ := List.mem_map.mp (mem_of_child hnew hnewChild)
      cases hchange : keptChange oldSnap entry with
      | none => exact eq_of_keptChange hold hnew hentry hchange
      | some found =>
        apply absurd _ hkept
        rw [List.mem_map]
        refine ⟨(entry.1, found), ?_, rfl⟩
        rw [List.mem_filterMap]
        refine ⟨entry, hentry, ?_⟩
        rw [hchange]
        rfl

end FIndexedFilter
