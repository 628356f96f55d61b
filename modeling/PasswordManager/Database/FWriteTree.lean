import PasswordManager.Database.FCompoundWrite

/-!
This module contains the pending writes of a client. `visibleWrites` is a tree of those that events
are raised for, kept up to date as writes come and go.
-/

inductive FWrite (κ N : Type) where
  | overwrite (node : N)
  | merge (compoundWrite : FCompoundWrite κ N)

structure FWriteRecord (κ N : Type) where
  writeId : Int
  path : FPath κ
  write : FWrite κ N
  visible : Bool

structure FWriteTree (κ N : Type) where
  visibleWrites : FCompoundWrite κ N := .emptyWrite
  allWrites : List (FWriteRecord κ N) := []
  lastWriteId : Int := -1

namespace NSException

def stackingOlderWrite : NSException where
  name := "NSInternalInconsistencyException"
  reason := "Stacking an older write on top of a newer one"

def stackingOlderMerge : NSException where
  name := "NSInternalInconsistencyException"
  reason := "Stacking an older merge on top of newer one"

def nonexistentWriteId : NSException where
  name := "NSInternalInconsistencyException"
  reason := "[FWriteTree removeWriteId:] called with nonexistent writeId."

end NSException

namespace FWriteTree

open FNode

variable {κ N : Type} [DecidableEq κ] [FKeys κ] [FNode κ N]

def addOverwriteAtPath (self : FWriteTree κ N) (path : FPath κ) (newData : N) (writeId : Int)
    (visible : Bool) : Except NSException (FWriteTree κ N) :=
  if writeId > self.lastWriteId then
    let record : FWriteRecord κ N := { writeId, path, write := .overwrite newData, visible }
    .ok {
      visibleWrites :=
        if visible then self.visibleWrites.addWrite newData path else self.visibleWrites
      allWrites := self.allWrites ++ [record]
      lastWriteId := writeId
    }
  else
    .error .stackingOlderWrite

def addMergeAtPath (self : FWriteTree κ N) (path : FPath κ) (changedChildren : FCompoundWrite κ N)
    (writeId : Int) : Except NSException (FWriteTree κ N) :=
  if writeId > self.lastWriteId then
    let record : FWriteRecord κ N :=
      { writeId, path, write := .merge changedChildren, visible := true }
    .ok {
      visibleWrites := self.visibleWrites.addCompoundWrite changedChildren path
      allWrites := self.allWrites ++ [record]
      lastWriteId := writeId
    }
  else
    .error .stackingOlderMerge

omit [FNode κ N] in
def recordContainsPath (record : FWriteRecord κ N) (path : FPath κ) : Bool :=
  match record.write with
  | .overwrite _ => record.path.contains path
  | .merge merge =>
    merge.writeTree.forEach.any (fun call => FPath.contains (record.path ++ call.1) path)

def defaultFilter (_ : FWriteRecord κ N) : Bool :=
  true

def layerTreeFromWrites (writes : List (FWriteRecord κ N)) (filter : FWriteRecord κ N → Bool)
    (treeRoot : FPath κ) : FCompoundWrite κ N :=
  writes.foldl
    (fun compoundWrite record =>
      if filter record then
        let writePath := record.path
        match record.write with
        | .overwrite overwrite =>
          if treeRoot.contains writePath then
            compoundWrite.addWrite overwrite (writePath.drop treeRoot.length)
          else if writePath.contains treeRoot then
            compoundWrite.addWrite (getChild overwrite (treeRoot.drop writePath.length)) []
          else
            compoundWrite
        | .merge merge =>
          if treeRoot.contains writePath then
            compoundWrite.addCompoundWrite merge (writePath.drop treeRoot.length)
          else if writePath.contains treeRoot then
            let relativePath := treeRoot.drop writePath.length
            if relativePath.isEmpty then
              compoundWrite.addCompoundWrite merge []
            else
              match merge.completeNodeAtPath relativePath with
              | some child => compoundWrite.addWrite (getChild child relativePath.tail) []
              | none => compoundWrite
          else
            compoundWrite
      else
        compoundWrite)
    .emptyWrite

def resetTree (self : FWriteTree κ N) : FWriteTree κ N where
  visibleWrites := layerTreeFromWrites self.allWrites defaultFilter []
  allWrites := self.allWrites
  lastWriteId :=
    match self.allWrites.getLast? with
    | some lastRecord => lastRecord.writeId
    | none => -1

def removeWriteId.loop (writeToRemove : FWriteRecord κ N) (index : Nat)
    : List (FWriteRecord κ N × Nat) → (overlaps : Bool) → Bool × Bool
  | [], overlaps => (true, overlaps)
  | (currentWrite, i) :: writes, overlaps =>
    if currentWrite.visible then
      if i ≥ index ∧ recordContainsPath currentWrite writeToRemove.path then
        -- The removed write was completely shadowed by a subsequent write.
        (false, overlaps)
      else if writeToRemove.path.contains currentWrite.path then
        removeWriteId.loop writeToRemove index writes true
      else
        removeWriteId.loop writeToRemove index writes overlaps
    else
      removeWriteId.loop writeToRemove index writes overlaps

def removeWriteId (self : FWriteTree κ N) (writeId : Int)
    : Except NSException (Bool × FWriteTree κ N) :=
  match self.allWrites.findIdx? (fun record => record.writeId = writeId) with
  | none => .error .nonexistentWriteId
  | some index =>
    match self.allWrites[index]? with
    | none => .error .nonexistentWriteId
    | some writeToRemove =>
      let self := { self with allWrites := self.allWrites.eraseIdx index }
      let (removedWriteWasVisible, removedWriteOverlapsWithOtherWrites) :=
        if writeToRemove.visible then
          removeWriteId.loop writeToRemove index self.allWrites.zipIdx.reverse false
        else
          (false, false)
      if !removedWriteWasVisible then
        .ok (false, self)
      else if removedWriteOverlapsWithOtherWrites then
        -- There's some shadowing going on. Just rebuild the visible writes from scratch.
        .ok (true, self.resetTree)
      else
        match writeToRemove.write with
        | .overwrite _ =>
          .ok (true, { self with
            visibleWrites := self.visibleWrites.removeWriteAtPath writeToRemove.path
          })
        | .merge merge =>
          .ok (true, { self with
            visibleWrites := merge.writeTree.forEach.foldl (fun visibleWrites call =>
              visibleWrites.removeWriteAtPath (writeToRemove.path ++ call.1)) self.visibleWrites
          })

def calculateCompleteEventCacheAtPath (self : FWriteTree κ N) (treePath : FPath κ)
    (completeServerCache : Option N) (writeIdsToExclude : Option (List Int))
    (includeHiddenWrites : Bool) : Option N :=
  if writeIdsToExclude = none ∧ ¬ includeHiddenWrites then
    match self.visibleWrites.completeNodeAtPath treePath with
    | some shadowingNode => some shadowingNode
    | none =>
      let subMerge := self.visibleWrites.childCompoundWriteAtPath treePath
      if subMerge.isEmpty then
        completeServerCache
      else if completeServerCache.isNone ∧ ¬ subMerge.hasCompleteWriteAtPath [] then
        none
      else
        some (subMerge.applyToNode (completeServerCache.getD emptyNode))
  else
    let merge := self.visibleWrites.childCompoundWriteAtPath treePath
    if ¬ includeHiddenWrites ∧ merge.isEmpty then
      completeServerCache
    else if ¬ includeHiddenWrites ∧ completeServerCache.isNone
        ∧ ¬ merge.hasCompleteWriteAtPath [] then
      none
    else
      let filter := fun (record : FWriteRecord κ N) =>
        (record.visible || includeHiddenWrites)
          && writeIdsToExclude.all (fun ids => !ids.contains record.writeId)
          && (record.path.contains treePath || treePath.contains record.path)
      let mergeAtPath := layerTreeFromWrites self.allWrites filter treePath
      some (mergeAtPath.applyToNode (completeServerCache.getD emptyNode))

def calculateEventCacheAfterServerOverwriteAtPath (self : FWriteTree κ N)
    (treePath childPath : FPath κ) (existingServerSnap : N) : Option N :=
  let path := treePath ++ childPath
  if self.visibleWrites.hasCompleteWriteAtPath path then
    none
  else
    let childMerge := self.visibleWrites.childCompoundWriteAtPath path
    if childMerge.isEmpty then
      some (getChild existingServerSnap childPath)
    else
      some (childMerge.applyToNode (getChild existingServerSnap childPath))

def shadowingWriteAtPath (self : FWriteTree κ N) (path : FPath κ) : Option N :=
  self.visibleWrites.completeNodeAtPath path

end FWriteTree
