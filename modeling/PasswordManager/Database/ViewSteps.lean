import PasswordManager.Database.ChildChanges
import PasswordManager.Database.EventCache
import PasswordManager.Database.FSyncTree

/-!
This module contains what the single operations on a view do to the maps of its two caches, and that
the changes that they track lead from the old children to the new ones.
-/

open FKeys FSnapshot SortedEntries Std

variable {κ ν : Type} [DecidableEq κ] [FKeys κ]

structure FViewCache.Shows (view : FViewCache κ ν) (server event : PathMap κ ν) : Prop where
  serverComplete : view.cachedServerSnap.isFullyInitialized = true
  eventComplete : view.cachedEventSnap.isFullyInitialized = true
  serverWellFormed : view.cachedServerSnap.node.WellFormed
  eventWellFormed : view.cachedEventSnap.node.WellFormed
  serverLeaves : view.cachedServerSnap.node.leaves = server
  eventLeaves : view.cachedEventSnap.node.leaves = event

namespace FViewProcessor

open FIndexedFilter FChildChangeAccumulator

variable [DecidableEq ν] [LawfulFKeys κ]
variable {writesCache : FWriteTreeRef κ ν} {optCompleteCache : Option (FSnapshot κ ν)}
variable {view : FViewCache κ ν} {server event : PathMap κ ν}

theorem accounted_updateFullNode_of_shows (h : view.Shows server event) {newNode : FSnapshot κ ν}
    {after : PathMap κ ν} (hnew : newNode.WellFormed) (hleaves : newNode.leaves = after)
    : Accounted event.child after.child (updateFullNode view.cachedEventSnap.node newNode) := by
  rw [← h.eventLeaves, ← hleaves]
  exact accounted_updateFullNode h.eventWellFormed hnew

omit [DecidableEq ν] in
theorem leaves_updatedChild {node snap : FSnapshot κ ν} (hnode : node.WellFormed)
    (hsnap : snap.WellFormed) {childKey : κ} (hkey : childKey ≠ priorityKey) {rest : FPath κ}
    (hrest : Plain rest)
    : ((node.getImmediateChild childKey).updateChild rest snap).WellFormed
        ∧ ((node.getImmediateChild childKey).updateChild rest snap).leaves
          = (node.leaves.below [childKey]).overwrite rest snap.leaves := by
  have hchild := wellFormed_getImmediateChild hnode hkey
  rw [leaves_updateChild hchild hsnap hrest, leaves_getImmediateChild node hkey]
  exact ⟨wellFormed_updateChild hchild hsnap hrest, rfl⟩

theorem updateChildIn_updatedChild {node snap : FSnapshot κ ν} (hnode : node.WellFormed)
    (hsnap : snap.WellFormed) {childKey : κ} {rest : FPath κ} (hplain : Plain (childKey :: rest))
    : (updateChildIn node childKey ((node.getImmediateChild childKey).updateChild rest snap)
          rest).1.WellFormed
        ∧ (updateChildIn node childKey ((node.getImmediateChild childKey).updateChild rest snap)
          rest).1.leaves = node.leaves.overwrite (childKey :: rest) snap.leaves
        ∧ Accounted node.leaves.child (node.leaves.overwrite (childKey :: rest) snap.leaves).child
          (updateChildIn node childKey ((node.getImmediateChild childKey).updateChild rest snap)
            rest).2 := by
  have hkey := hplain.head
  have hrest := hplain.tail
  obtain ⟨hwellFormed, hleaves⟩ := leaves_updatedChild hnode hsnap hkey hrest
  have hlocal : (node.leaves.below [childKey]).below rest
        = ((node.getImmediateChild childKey).updateChild rest snap).leaves.below rest
      → node.leaves.below [childKey]
        = ((node.getImmediateChild childKey).updateChild rest snap).leaves := by
    intro hbelow
    rw [hleaves] at hbelow ⊢
    have hsnapLeaves := PathMap.below_overwrite_of_prefix (node.leaves.below [childKey]) rest []
      snap.leaves
    rw [List.append_nil] at hsnapLeaves
    rw [hsnapLeaves] at hbelow
    have hdiscrete := discrete_leaves (node.getImmediateChild childKey)
    rw [leaves_getImmediateChild node hkey] at hdiscrete
    have hself := PathMap.overwrite_below_self hdiscrete rest
    rw [hbelow] at hself
    exact hself.symm
  have hspec := updateChildIn_spec hnode hwellFormed hkey hrest hlocal
  rw [hleaves, PathMap.overwrite_below_overwrite (discrete_leaves node)] at hspec
  exact hspec

omit [DecidableEq ν] [LawfulFKeys κ] in
theorem completeChild_of_shows (h : view.Shows server event) (childKey : κ)
    : completeChild writesCache optCompleteCache view childKey
        =
      some (view.cachedEventSnap.node.getImmediateChild childKey) := by
  unfold completeChild FCacheNode.isCompleteForChild
  simp [h.eventComplete]

omit [DecidableEq ν] [LawfulFKeys κ] in
theorem newChildAfterUserOverwrite_of_shows (h : view.Shows server event) {childKey : κ}
    {rest : FPath κ} (hplain : Plain (childKey :: rest)) (writesCache : FWriteTreeRef κ ν)
    (optCompleteCache : Option (FSnapshot κ ν)) (snap : FSnapshot κ ν)
    : newChildAfterUserOverwrite writesCache optCompleteCache view childKey rest snap
        =
      (view.cachedEventSnap.node.getImmediateChild childKey).updateChild rest snap := by
  have hlast : rest.getLast? ≠ some priorityKey := by
    intro hlast
    exact hplain priorityKey (List.mem_cons_of_mem _ (List.mem_of_getLast? hlast)) rfl
  unfold newChildAfterUserOverwrite
  rw [completeChild_of_shows h]
  split
  . next hempty =>
    rw [List.isEmpty_iff] at hempty
    subst hempty
    rw [updateChild_nil]
  . dsimp only
    rw [if_neg (fun hpriority => hlast hpriority.left)]

theorem applyUserOverwriteTo_spec (h : view.Shows server event) {path : FPath κ}
    (hplain : Plain path) {snap : FSnapshot κ ν} (hsnap : snap.WellFormed)
    : (applyUserOverwriteTo writesCache optCompleteCache view path snap).1.Shows server
          (event.overwrite path snap.leaves)
        ∧ Accounted event.child (event.overwrite path snap.leaves).child
          (applyUserOverwriteTo writesCache optCompleteCache view path snap).2 := by
  cases path with
  | nil =>
    rw [PathMap.overwrite_nil]
    constructor
    . exact ⟨h.serverComplete, rfl, h.serverWellFormed, hsnap, h.serverLeaves, rfl⟩
    . exact accounted_updateFullNode_of_shows h hsnap rfl
  | cons childKey rest =>
    have hkey := hplain.head
    have hspec := updateChildIn_updatedChild h.eventWellFormed hsnap hplain
    have hnewChild := newChildAfterUserOverwrite_of_shows h hplain writesCache optCompleteCache
      snap
    unfold applyUserOverwriteTo
    dsimp only
    rw [if_neg hkey, hnewChild]
    split
    . next hequal =>
      have hrest := hplain.tail
      obtain ⟨hwellFormed, hleaves⟩ := leaves_updatedChild h.eventWellFormed hsnap hkey hrest
      have hsame := leaves_of_isEqual (wellFormed_getImmediateChild h.eventWellFormed hkey)
        hwellFormed hequal
      rw [leaves_getImmediateChild _ hkey, hleaves] at hsame
      have hself := PathMap.overwrite_below_self
        (discrete_leaves view.cachedEventSnap.node) [childKey]
      rw [hsame, PathMap.overwrite_below_overwrite (discrete_leaves view.cachedEventSnap.node),
        h.eventLeaves] at hself
      have hself : event.overwrite (childKey :: rest) snap.leaves = event := hself
      rw [hself]
      exact ⟨h, accounted_nil _⟩
    . rw [h.eventLeaves] at hspec
      exact ⟨⟨h.serverComplete, h.eventComplete, h.serverWellFormed, hspec.left, h.serverLeaves,
        hspec.right.left⟩, hspec.right.right⟩

section Writes

variable {tree : FWriteTree κ (FSnapshot κ ν)} {listenPath : FPath κ} {base result : PathMap κ ν}

omit [DecidableEq ν] [LawfulFKeys κ] in
theorem exists_value_of_shadowing (happlied : tree.visibleWrites.Applied base result)
    {path : FPath κ} (h : (FWriteTreeRef.mk listenPath tree).shadowingWriteAtPath path ≠ none)
    : ∃ r, r <+: listenPath ++ path ∧ tree.visibleWrites.valueAt r ≠ none := by
  unfold FWriteTreeRef.shadowingWriteAtPath FWriteTree.shadowingWriteAtPath
    FCompoundWrite.completeNodeAtPath at h
  cases hroot : tree.visibleWrites.writeTree.findRootMostValueAndPath
      (listenPath ++ path) with
  | none => simp [hroot] at h
  | some rootMost =>
    obtain ⟨hpre, hvalue⟩ :=
      (FImmutableTree.findRootMost_eq_some_iff happlied.wellFormed).mp hroot
    refine ⟨rootMost.1, hpre, ?_⟩
    unfold FCompoundWrite.valueAt
    rw [hvalue]
    simp

omit [DecidableEq ν] in
theorem childMerge_spec (happlied : tree.visibleWrites.Applied base result) {path : FPath κ}
    (hclear : tree.visibleWrites.completeNodeAtPath path = none)
    {node : FSnapshot κ ν} (hnode : node.WellFormed) (hleaves : node.leaves = base.below path)
    : ((tree.visibleWrites.childCompoundWriteAtPath path).applyToNode node).WellFormed
        ∧ ((tree.visibleWrites.childCompoundWriteAtPath path).applyToNode node).leaves
          = result.below path
        ∧ ((tree.visibleWrites.childCompoundWriteAtPath path).isEmpty = true
          → node.leaves = result.below path) := by
  have hchild := happlied.childCompoundWriteAtPath hclear
  rw [← hleaves] at hchild
  refine ⟨FCompoundWrite.wellFormed_applyToNode hchild hnode, hchild.leaves_applyToNode hnode, ?_⟩
  intro hempty
  exact (hchild.eq_of_isEmpty hempty).symm

omit [DecidableEq ν] in
theorem calculateEventCacheAfterServerOverwrite_spec
    (happlied : tree.visibleWrites.Applied base result) {path : FPath κ} (hplain : Plain path)
    (hclear : (FWriteTreeRef.mk listenPath tree).shadowingWriteAtPath path = none)
    {node : FSnapshot κ ν} (hnode : node.WellFormed) (hleaves : node.leaves = base.below listenPath)
    : ∃ update, (FWriteTreeRef.mk listenPath tree).calculateEventCacheAfterServerOverwrite path node
          = some update
        ∧ update.WellFormed ∧ update.leaves = result.below (listenPath ++ path) := by
  unfold FWriteTreeRef.shadowingWriteAtPath FWriteTree.shadowingWriteAtPath at hclear
  have hchild := wellFormed_getChild hnode hplain
  have hbelow : (node.getChild path).leaves = base.below (listenPath ++ path) := by
    rw [leaves_getChild node hplain, hleaves, PathMap.below_below]
  obtain ⟨hwellFormed, hmerged, hunchanged⟩ := childMerge_spec happlied hclear hchild hbelow
  unfold FWriteTreeRef.calculateEventCacheAfterServerOverwrite
    FWriteTree.calculateEventCacheAfterServerOverwriteAtPath FCompoundWrite.hasCompleteWriteAtPath
  dsimp only
  rw [hclear, if_neg (by simp)]
  split
  . next hempty => exact ⟨_, rfl, hchild, hunchanged hempty⟩
  . exact ⟨_, rfl, hwellFormed, hmerged⟩

omit [DecidableEq ν] in
theorem calculateCompleteChild_spec (happlied : tree.visibleWrites.Applied base result)
    (hlisten : Plain listenPath) (h : view.Shows (base.below listenPath) event) {childKey : κ}
    (hkey : childKey ≠ priorityKey)
    : ∃ child, (FWriteTreeRef.mk listenPath tree).calculateCompleteChild childKey
          view.cachedServerSnap = some child
        ∧ child.WellFormed ∧ child.leaves = result.below (listenPath ++ [childKey]) := by
  have hplain : Plain (listenPath ++ [childKey]) := by
    intro piece hpiece
    cases List.mem_append.mp hpiece with
    | inl hpiece => exact hlisten piece hpiece
    | inr hpiece =>
      rw [List.mem_singleton.mp hpiece]
      exact hkey
  unfold FWriteTreeRef.calculateCompleteChild
  dsimp only
  cases hnode : tree.visibleWrites.completeNodeAtPath (listenPath ++ [childKey]) with
  | some node => exact ⟨node, rfl, happlied.completeNodeAtPath hplain hnode⟩
  | none =>
    have hchild := wellFormed_getImmediateChild h.serverWellFormed hkey
    have hbelow : (view.cachedServerSnap.node.getImmediateChild childKey).leaves
        =
      base.below (listenPath ++ [childKey]) := by
      rw [leaves_getImmediateChild _ hkey, h.serverLeaves, PathMap.below_below]
    obtain ⟨hwellFormed, hmerged, -⟩ := childMerge_spec happlied hnode hchild hbelow
    dsimp only
    rw [if_pos (by simp [FCacheNode.isCompleteForChild, h.serverComplete])]
    exact ⟨_, rfl, hwellFormed, hmerged⟩

omit [DecidableEq ν] in
theorem calculateCompleteEventCache_spec (happlied : tree.visibleWrites.Applied base result)
    (hlisten : Plain listenPath) (h : view.Shows (base.below listenPath) event)
    : ∃ node, (FWriteTreeRef.mk listenPath tree).calculateCompleteEventCache view.completeServerSnap
          = some node
        ∧ node.WellFormed ∧ node.leaves = result.below listenPath := by
  have hcomplete : view.completeServerSnap = some view.cachedServerSnap.node := by
    unfold FViewCache.completeServerSnap
    rw [h.serverComplete]
    rfl
  unfold FWriteTreeRef.calculateCompleteEventCache
  rw [hcomplete]
  exact FWriteTree.calculateCompleteEventCacheAtPath_leaves happlied hlisten h.serverWellFormed
    h.serverLeaves

theorem generateEventCacheAfterServerEvent_spec (happlied : tree.visibleWrites.Applied base result)
    (hlisten : Plain listenPath) (h : view.Shows (base.below listenPath) event) {path : FPath κ}
    (hplain : Plain path)
    (hlocal : event.overwrite path (result.below (listenPath ++ path)) = result.below listenPath)
    (hshadowed : (∃ r, r <+: listenPath ++ path
      ∧ tree.visibleWrites.valueAt r ≠ none) → event = result.below listenPath)
    : (generateEventCacheAfterServerEvent ⟨listenPath, tree⟩ view path).1.Shows
          (base.below listenPath) (result.below listenPath)
        ∧ Accounted event.child (result.below listenPath).child
          (generateEventCacheAfterServerEvent ⟨listenPath, tree⟩ view path).2 := by
  unfold generateEventCacheAfterServerEvent
  dsimp only
  split
  . next hshadow =>
    rw [Option.isSome_iff_ne_none] at hshadow
    have hsame := hshadowed (exists_value_of_shadowing happlied hshadow)
    rw [hsame] at h ⊢
    exact ⟨h, accounted_nil _⟩
  . next hclear =>
    rw [Option.not_isSome_iff_eq_none] at hclear
    cases path with
    | nil =>
      obtain ⟨node, hnode, hwellFormed, hleaves⟩ :=
        calculateCompleteEventCache_spec happlied hlisten h
      dsimp only
      rw [hnode, Option.getD_some]
      constructor
      . exact ⟨h.serverComplete, rfl, h.serverWellFormed, hwellFormed, h.serverLeaves, hleaves⟩
      . apply (accounted_assert _ h.serverComplete _).append
        exact accounted_updateFullNode_of_shows h hwellFormed hleaves
    | cons childKey rest =>
      have hkey := hplain.head
      obtain ⟨update, hupdate, hwellFormed, hleaves⟩ :=
        calculateEventCacheAfterServerOverwrite_spec happlied hplain hclear h.serverWellFormed
          h.serverLeaves
      have hchild : newEventChildAfterServerEvent ⟨listenPath, tree⟩ view childKey rest
          =
        some ((view.cachedEventSnap.node.getImmediateChild childKey).updateChild rest update) := by
        unfold newEventChildAfterServerEvent FCacheNode.isCompleteForChild
        simp [h.eventComplete, hupdate]
      have hspec := updateChildIn_updatedChild h.eventWellFormed hwellFormed hplain
      rw [h.eventLeaves, hleaves, hlocal] at hspec
      dsimp only
      rw [if_neg hkey, hchild]
      exact ⟨⟨h.serverComplete, h.eventComplete, h.serverWellFormed, hspec.left, h.serverLeaves,
        hspec.right.left⟩, hspec.right.right⟩

theorem applyServerOverwriteTo_spec (happlied : tree.visibleWrites.Applied base result)
    (hlisten : Plain listenPath) (h : view.Shows server event) {path : FPath κ}
    (hplain : Plain path) {snap : FSnapshot κ ν} (hsnap : snap.WellFormed)
    (hserver : server.overwrite path snap.leaves = base.below listenPath)
    (hlocal : event.overwrite path (result.below (listenPath ++ path)) = result.below listenPath)
    (hshadowed : (∃ r, r <+: listenPath ++ path
      ∧ tree.visibleWrites.valueAt r ≠ none) → event = result.below listenPath)
    : (applyServerOverwriteTo ⟨listenPath, tree⟩ view path snap).1.Shows
          (base.below listenPath) (result.below listenPath)
        ∧ Accounted event.child (result.below listenPath).child
          (applyServerOverwriteTo ⟨listenPath, tree⟩ view path snap).2 := by
  unfold applyServerOverwriteTo
  dsimp only
  cases path with
  | nil =>
    rw [PathMap.overwrite_nil] at hserver
    apply generateEventCacheAfterServerEvent_spec happlied hlisten _ hplain hlocal hshadowed
    exact ⟨rfl, h.eventComplete, hsnap, h.eventWellFormed, hserver, h.eventLeaves⟩
  | cons childKey rest =>
    have hkey := hplain.head
    have hspec := updateChildIn_updatedChild h.serverWellFormed hsnap hplain
    rw [h.serverLeaves, hserver] at hspec
    dsimp only
    rw [if_neg (by simp [FCacheNode.isCompleteForPath, FCacheNode.isCompleteForChild,
      h.serverComplete]), if_neg hkey]
    apply generateEventCacheAfterServerEvent_spec happlied hlisten _ hplain hlocal hshadowed
    exact ⟨h.serverComplete, h.eventComplete, hspec.left, h.eventWellFormed, hspec.right.left,
      h.eventLeaves⟩

theorem ackUserWriteOn_spec (happlied : tree.visibleWrites.Applied base result)
    (hlisten : Plain listenPath) (h : view.Shows (base.below listenPath) event) {path : FPath κ}
    (hplain : Plain path) {affectedTree : FImmutableTree κ Bool} (hvalue : affectedTree.value ≠ none)
    (hlocal : event.overwrite path (result.below (listenPath ++ path)) = result.below listenPath)
    (hshadowed : (∃ r, r <+: listenPath ++ path
      ∧ tree.visibleWrites.valueAt r ≠ none) → event = result.below listenPath)
    : (ackUserWriteOn ⟨listenPath, tree⟩ view path affectedTree).1.Shows
          (base.below listenPath) (result.below listenPath)
        ∧ Accounted event.child (result.below listenPath).child
          (ackUserWriteOn ⟨listenPath, tree⟩ view path affectedTree).2 := by
  unfold ackUserWriteOn
  split
  . next hshadow =>
    rw [Option.isSome_iff_ne_none] at hshadow
    have hsame := hshadowed (exists_value_of_shadowing happlied hshadow)
    rw [hsame] at h ⊢
    exact ⟨h, accounted_nil _⟩
  . cases hoverwrite : affectedTree.value with
    | none => exact absurd hoverwrite hvalue
    | some yes =>
      have hcomplete : view.cachedServerSnap.isCompleteForPath path = true := by
        cases path with
        | nil => exact h.serverComplete
        | cons childKey rest =>
          unfold FCacheNode.isCompleteForPath FCacheNode.isCompleteForChild
          rw [h.serverComplete]
          rfl
      have hdiscrete := discrete_leaves view.cachedServerSnap.node
      rw [h.serverLeaves] at hdiscrete
      dsimp only
      rw [if_pos hcomplete]
      apply applyServerOverwriteTo_spec happlied hlisten h hplain
        (wellFormed_getChild h.serverWellFormed hplain) _ hlocal hshadowed
      rw [leaves_getChild _ hplain, h.serverLeaves]
      exact PathMap.overwrite_below_self hdiscrete path

omit [DecidableEq κ] [DecidableEq ν] [LawfulFKeys κ] in
theorem isLeafNode_iff (node : FSnapshot κ ν) : node.isLeafNode = true ↔ node.leaves [] ≠ none := by
  cases node with
  | leafNode value priorityNode => simp [isLeafNode, leaves]
  | childrenNode priorityNode children => simp [isLeafNode, leaves]

theorem revertUserWriteOn_spec (happlied : tree.visibleWrites.Applied base result)
    (hlisten : Plain listenPath) (h : view.Shows (base.below listenPath) event) {path : FPath κ}
    (hplain : Plain path)
    (hsame : event.below path = result.below (listenPath ++ path) → event = result.below listenPath)
    (hchild : ∀ childKey rest, path = childKey :: rest
      → event.overwrite [childKey] (result.below (listenPath ++ [childKey])) = result.below listenPath
        ∨ (event.overwrite [childKey] (result.below (listenPath ++ [childKey]))).Empty
          ∧ result listenPath ≠ none)
    (hshadowed : (∃ r, r <+: listenPath ++ path
      ∧ tree.visibleWrites.valueAt r ≠ none) → event = result.below listenPath)
    : (revertUserWriteOn ⟨listenPath, tree⟩ view path).1.Shows
          (base.below listenPath) (result.below listenPath)
        ∧ Accounted event.child (result.below listenPath).child
          (revertUserWriteOn ⟨listenPath, tree⟩ view path).2 := by
  obtain ⟨full, hfull, hfullWellFormed, hfullLeaves⟩ :=
    calculateCompleteEventCache_spec happlied hlisten h
  have hnewNode : newNodeAfterRevert ⟨listenPath, tree⟩ view = full := by
    unfold newNodeAfterRevert
    rw [if_pos h.serverComplete, hfull]
    rfl
  unfold revertUserWriteOn
  dsimp only
  rw [hnewNode, h.serverComplete, Bool.true_or]
  split
  . next hshadow =>
    rw [Option.isSome_iff_ne_none] at hshadow
    have hsame := hshadowed (exists_value_of_shadowing happlied hshadow)
    rw [hsame] at h ⊢
    exact ⟨h, accounted_nil _⟩
  . cases path with
    | nil =>
      constructor
      . exact ⟨h.serverComplete, rfl, h.serverWellFormed, hfullWellFormed, h.serverLeaves,
          hfullLeaves⟩
      . exact accounted_updateFullNode_of_shows h hfullWellFormed hfullLeaves
    | cons childKey rest =>
      have hkey := hplain.head
      have hrest := hplain.tail
      obtain ⟨child, hnewChild, hwellFormed, hleaves⟩ :=
        calculateCompleteChild_spec happlied hlisten h hkey
      have hafter : newChildAfterRevert ⟨listenPath, tree⟩ view childKey = some child := by
        unfold newChildAfterRevert
        dsimp only
        rw [hnewChild]
      have hlocal : (view.cachedEventSnap.node.leaves.below [childKey]).below rest
            = child.leaves.below rest
          → view.cachedEventSnap.node.leaves.below [childKey] = child.leaves := by
        rw [h.eventLeaves, hleaves, PathMap.below_below, PathMap.below_below, List.append_assoc]
        intro hbelow
        rw [hsame hbelow, PathMap.below_below]
      obtain ⟨hupdated, hupdatedLeaves, haccounted⟩ :=
        updateChildIn_spec h.eventWellFormed hwellFormed hkey hrest hlocal
      rw [h.eventLeaves, hleaves] at hupdatedLeaves haccounted
      dsimp only
      rw [if_neg hkey, hafter]
      dsimp only
      split
      . next hleaf =>
        constructor
        . exact ⟨h.serverComplete, rfl, h.serverWellFormed, hfullWellFormed, h.serverLeaves,
            hfullLeaves⟩
        . have hrest := accounted_updateFullNode hupdated hfullWellFormed
          rw [hupdatedLeaves, hfullLeaves] at hrest
          exact haccounted.append hrest
      . next hnotLeaf =>
        have hafter : event.overwrite [childKey] (result.below (listenPath ++ [childKey]))
            =
          result.below listenPath := by
          cases hchild childKey rest rfl with
          | inl heq => exact heq
          | inr hgone =>
            apply absurd _ hnotLeaf
            refine ⟨?_, rfl, ?_⟩
            . rw [← hupdated.empty_leaves_iff, hupdatedLeaves]
              exact hgone.left
            . rw [isLeafNode_iff, hfullLeaves]
              unfold PathMap.below
              rw [List.append_nil]
              exact hgone.right
        rw [hafter] at hupdatedLeaves haccounted
        exact ⟨⟨h.serverComplete, rfl, h.serverWellFormed, hupdated, h.serverLeaves,
          hupdatedLeaves⟩, haccounted⟩

end Writes

end FViewProcessor
