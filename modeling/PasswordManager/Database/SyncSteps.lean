import PasswordManager.Database.ViewSteps

/-!
This module contains how an operation comes to the listener and what it raises there.
-/

open FKeys FSnapshot FChildChangeAccumulator Std

variable {κ ν : Type} [DecidableEq κ] [FKeys κ]

namespace FOperation

theorem operationForPath_cons (operation : FOperation κ ν) {childKey : κ}
    {operationPath listenPath : FPath κ} {childOperation : FOperation κ ν}
    (hpath : operation.path = childKey :: operationPath)
    (hchild : operation.operationForChild childKey = some childOperation)
    : operation.operationForPath (childKey :: listenPath)
        =
      childOperation.operationForPath listenPath := by
  conv_lhs => unfold operationForPath
  rw [hpath, hchild]
  simp

theorem operationForPath_nil (operation : FOperation κ ν)
    : operation.operationForPath [] = some operation := by
  cases operation with
  | overwrite fromUser path snap => rfl
  | merge fromUser path children => rfl
  | ackUserWrite path affectedTree revert => rfl

theorem overwrite_at_or_below (fromUser : Bool) (listenPath rest : FPath κ) (snap : FSnapshot κ ν)
    : (overwrite fromUser (listenPath ++ rest) snap).operationForPath listenPath
        =
      some (.overwrite fromUser rest snap) := by
  induction listenPath with
  | nil => exact operationForPath_nil _
  | cons childKey listenPath ih =>
    rw [List.cons_append]
    apply Eq.trans _ ih
    apply operationForPath_cons
    . rfl
    . rfl

theorem overwrite_above (fromUser : Bool) (path : FPath κ) {rest : FPath κ} (hplain : Plain rest)
    (snap : FSnapshot κ ν)
    : (overwrite fromUser path snap).operationForPath (path ++ rest)
        =
      some (.overwrite fromUser [] (snap.getChild rest)) := by
  induction path with
  | cons childKey path ih =>
    apply Eq.trans _ ih
    apply operationForPath_cons
    . rfl
    . rfl
  | nil =>
    rw [List.nil_append]
    induction rest generalizing snap with
    | nil =>
      rw [getChild_nil]
      exact operationForPath_nil _
    | cons childKey rest ih =>
      rw [getChild_cons snap hplain]
      apply Eq.trans _ (ih hplain.tail _)
      conv_lhs => unfold operationForPath
      rfl

theorem ackUserWrite_at_or_below (listenPath rest : FPath κ) (affectedTree : FImmutableTree κ Bool)
    (revert : Bool)
    : (ackUserWrite (listenPath ++ rest) affectedTree revert : FOperation κ ν).operationForPath
          listenPath
        =
      some (.ackUserWrite rest affectedTree revert) := by
  induction listenPath with
  | nil => exact operationForPath_nil _
  | cons childKey listenPath ih =>
    rw [List.cons_append]
    apply Eq.trans _ ih
    apply operationForPath_cons
    . rfl
    . rfl

theorem ackUserWrite_above (path rest : FPath κ) {affectedTree : FImmutableTree κ Bool}
    (hvalue : affectedTree.value ≠ none) (revert : Bool)
    : (ackUserWrite path affectedTree revert : FOperation κ ν).operationForPath (path ++ rest)
        =
      some (.ackUserWrite [] affectedTree revert) := by
  obtain ⟨yes, hyes⟩ := Option.ne_none_iff_exists'.mp hvalue
  induction path with
  | cons childKey path ih =>
    apply Eq.trans _ ih
    apply operationForPath_cons
    . rfl
    . rfl
  | nil =>
    rw [List.nil_append]
    induction rest with
    | nil => exact operationForPath_nil _
    | cons childKey rest ih =>
      have hchild : (ackUserWrite [] affectedTree revert : FOperation κ ν).operationForChild childKey
          =
        some (.ackUserWrite [] affectedTree revert) := by
        unfold operationForChild
        simp only [hyes]
      apply Eq.trans _ ih
      conv_lhs => unfold operationForPath
      rw [hchild]
      rfl

theorem operationForChild_of_cons {operation : FOperation κ ν} {front : κ} {rest : FPath κ}
    (hpath : operation.path = front :: rest) (childKey : κ)
    : ∃ childOperation, operation.operationForChild childKey = some childOperation
        ∧ childOperation.path = rest := by
  cases operation with
  | overwrite fromUser path snap =>
    cases hpath
    exact ⟨_, rfl, rfl⟩
  | merge fromUser path children =>
    cases hpath
    exact ⟨_, rfl, rfl⟩
  | ackUserWrite path affectedTree revert =>
    cases hpath
    exact ⟨_, rfl, rfl⟩

theorem operationForPath_apart {operation : FOperation κ ν} {listenPath : FPath κ}
    (habove : ¬ operation.path <+: listenPath) (hbelow : ¬ listenPath <+: operation.path)
    : operation.operationForPath listenPath = none := by
  induction listenPath generalizing operation with
  | nil => exact absurd List.nil_prefix hbelow
  | cons childKey listenPath ih =>
    cases hpath : operation.path with
    | nil =>
      rw [hpath] at habove
      exact absurd List.nil_prefix habove
    | cons front rest =>
      rw [hpath] at habove hbelow
      conv_lhs => unfold operationForPath
      rw [hpath]
      by_cases hfront : front = childKey
      . subst hfront
        obtain ⟨childOperation, hchild, hrest⟩ := operationForChild_of_cons hpath front
        have hnone : childOperation.operationForPath listenPath = none := by
          apply ih
          . rw [hrest]
            intro hpre
            exact habove (List.cons_prefix_cons.mpr ⟨rfl, hpre⟩)
          . rw [hrest]
            intro hpre
            exact hbelow (List.cons_prefix_cons.mpr ⟨rfl, hpre⟩)
        rw [hchild, Option.bind_some, hnone]
        simp
      . simp [hfront]

end FOperation

/--
What an operation raises at a view: the changes that lead from the old children to the new ones, and
the new data itself whenever it is not the old one.
-/
structure Raised (before after : PathMap κ ν) (node : FSnapshot κ ν) (changes : List (FChange κ ν))
    : Prop where
  tracks : ∃ changeMap, Tracks before.child after.child changeMap
    ∧ (changes = changeMap.map (fun entry => .child entry.1 entry.2)
      ∨ changes = changeMap.map (fun entry => .child entry.1 entry.2) ++ [.value node])
  value : before ≠ after → .value node ∈ changes

omit [DecidableEq κ] in
theorem raised_nothing (before : PathMap κ ν) (node : FSnapshot κ ν)
    : Raised before before node [] where
  tracks := ⟨[], tracks_nil before.child, .inl rfl⟩
  value hne := absurd rfl hne

namespace FViewProcessor

variable [DecidableEq ν] [LawfulFKeys κ]
variable {oldView newView : FViewCache κ ν} {server server' before after : PathMap κ ν}

theorem valueChanged_of_ne (hold : oldView.Shows server before) (hnew : newView.Shows server' after)
    {changeMap : ChangeMap κ ν} (htracks : Tracks before.child after.child changeMap)
    (hne : before ≠ after)
    : valueChanged oldView newView (changeMap.map (fun entry => .child entry.1 entry.2)) = true := by
  unfold valueChanged
  dsimp only
  cases changeMap with
  | cons entry changeMap => simp
  | nil =>
    have hchild : ∀ key, before.child key = after.child key := by
      intro key
      apply htracks.same
      simp
    have hdiffers : newView.cachedEventSnap.node.isEqual oldView.cachedEventSnap.node = false := by
      rw [← Bool.not_eq_true]
      intro hequal
      have hleaves := leaves_of_isEqual hnew.eventWellFormed hold.eventWellFormed hequal
      rw [hnew.eventLeaves, hold.eventLeaves] at hleaves
      exact hne hleaves.symm
    have hleafOrEmpty : newView.cachedEventSnap.node.isLeafNode = true
        ∨ newView.cachedEventSnap.node.isEmpty = true := by
      by_cases hroot : after [] = none
      . right
        -- the old data is a leaf, so that there were no children
        have hleaf : before [] ≠ none := by
          intro hbefore
          apply hne
          apply PathMap.eq_of_child _ hchild
          rw [hbefore, hroot]
        rw [← hnew.eventWellFormed.empty_leaves_iff, hnew.eventLeaves]
        intro q
        cases q with
        | nil => exact hroot
        | cons key rest =>
          have hgone := discrete_leaves oldView.cachedEventSnap.node [] (key :: rest)
          rw [hold.eventLeaves] at hgone
          have hsame := congrFun (hchild key) rest
          exact hsame.symm.trans (hgone hleaf (by simp))
      . left
        rw [isLeafNode_iff, hnew.eventLeaves]
        exact hroot
    cases hleafOrEmpty with
    | inl hleaf => simp [hleaf, hdiffers]
    | inr hempty => simp [hempty, hdiffers]

theorem raised_of_accounted {tracked : Tracked κ ν} (hold : oldView.Shows server before)
    (hnew : tracked.1.Shows server' after) (haccounted : Accounted before.child after.child tracked.2)
    : ∃ changes, FChildChangeAccumulator.changes tracked.2 = .ok changes
        ∧ Raised before after tracked.1.cachedEventSnap.node
          (maybeAddValueFromOldViewCache oldView tracked.1 changes) := by
  obtain ⟨changeMap, hchanges, htracks⟩ := haccounted.changes
  refine ⟨_, hchanges, ?_⟩
  unfold maybeAddValueFromOldViewCache
  dsimp only
  split
  . exact ⟨⟨changeMap, htracks, .inr rfl⟩, fun _ => by simp⟩
  . next hunchanged =>
    refine ⟨⟨changeMap, htracks, .inl rfl⟩, ?_⟩
    intro hne
    apply absurd _ hunchanged
    exact ⟨hnew.eventComplete, valueChanged_of_ne hold hnew htracks hne⟩

end FViewProcessor

namespace FSyncTree

variable [DecidableEq ν] [LawfulFKeys κ]
variable {self : FSyncTree κ ν} {listenPath : FPath κ} {operation : FOperation κ ν}
variable {server before server' after : PathMap κ ν}

def Answers (listenPath : FPath κ) (self : FSyncTree κ ν) (operation : FOperation κ ν)
    (before server' after : PathMap κ ν) : Prop :=
  ∃ next, self.applyOperationToSyncPoints listenPath operation = .ok next
    ∧ next.pendingWriteTree = self.pendingWriteTree
    ∧ next.viewCache.Shows server' after
    ∧ Raised before after next.viewCache.cachedEventSnap.node next.changes

omit [LawfulFKeys κ] in
theorem answers_of_apart (h : self.viewCache.Shows server before)
    (habove : ¬ operation.path <+: listenPath) (hbelow : ¬ listenPath <+: operation.path)
    : Answers listenPath self operation before server before := by
  unfold Answers applyOperationToSyncPoints
  rw [FOperation.operationForPath_apart habove hbelow]
  exact ⟨_, rfl, rfl, h, raised_nothing before _⟩

theorem answers_of_tracked (h : self.viewCache.Shows server before)
    {childOperation : FOperation κ ν} {tracked : FViewProcessor.Tracked κ ν}
    (hoperation : operation.operationForPath listenPath = some childOperation)
    (hresult : FViewProcessor.applyOperationOn ⟨listenPath, self.pendingWriteTree⟩
        self.viewCache.completeServerSnap self.viewCache childOperation
      = (FChildChangeAccumulator.changes tracked.2).map (fun changes => {
          viewCache := tracked.1
          changes := FViewProcessor.maybeAddValueFromOldViewCache self.viewCache tracked.1 changes
        }))
    (hspec : tracked.1.Shows server' after ∧ Accounted before.child after.child tracked.2)
    : Answers listenPath self operation before server' after := by
  obtain ⟨changes, hchanges, hraised⟩ :=
    FViewProcessor.raised_of_accounted h hspec.left hspec.right
  unfold Answers applyOperationToSyncPoints FView.applyOperation
  rw [hoperation]
  dsimp only
  rw [hresult, hchanges]
  simp only [Except.map, bind, Except.bind]
  rw [if_pos (.inl hspec.left.serverComplete)]
  exact ⟨_, rfl, rfl, hspec.left, hraised⟩

end FSyncTree
