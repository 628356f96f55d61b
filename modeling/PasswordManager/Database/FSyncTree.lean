import PasswordManager.Database.FViewProcessor

/-!
This module contains the client between its user and the server, with one listener: the pending writes
and the view of the listener, and what both become when operations come in from either side.
-/

inductive FSyncEvent (κ ν : Type) where
  | userOverwrite (path : FPath κ) (newData : FSnapshot κ ν) (writeId : Int) (visible : Bool)
  | userMerge (path : FPath κ) (changedChildren : FCompoundWrite κ (FSnapshot κ ν)) (writeId : Int)
  | ackUserWrite (writeId : Int) (revert : Bool)
  | serverOverwrite (path : FPath κ) (newData : FSnapshot κ ν)
  | serverMerge (path : FPath κ) (changedChildren : FCompoundWrite κ (FSnapshot κ ν))

structure FSyncTree (κ ν : Type) where
  pendingWriteTree : FWriteTree κ (FSnapshot κ ν)
  viewCache : FViewCache κ ν
  changes : List (FChange κ ν)

open FKeys

variable {κ ν : Type} [DecidableEq κ] [FKeys κ]

def FOperation.operationForPath : FOperation κ ν → (listenPath : FPath κ) → Option (FOperation κ ν)
  | operation, [] => some operation
  | operation, childKey :: rest =>
    if operation.path.head?.all (fun front => front = childKey) then
      (operation.operationForChild childKey).bind (fun childOperation =>
        childOperation.operationForPath rest)
    else
      none

omit [FKeys κ] in
def FWriteTree.writeForId (self : FWriteTree κ (FSnapshot κ ν)) (writeId : Int)
    : Option (FWriteRecord κ (FSnapshot κ ν)) :=
  self.allWrites.find? (fun record => record.writeId = writeId)

def FWriteRecord.affectedTree (write : FWriteRecord κ (FSnapshot κ ν)) : FImmutableTree κ Bool :=
  match write.write with
  | .overwrite _ => .setValue (some true) [] .empty
  | .merge merge =>
    merge.writeTree.forEach.foldl (fun affectedTree call =>
      .setValue (some true) call.1 affectedTree) .empty

namespace FSyncTree

variable [DecidableEq ν] (listenPath : FPath κ)

def applyOperationToSyncPoints (self : FSyncTree κ ν) (operation : FOperation κ ν)
    : Except NSException (FSyncTree κ ν) :=
  match operation.operationForPath listenPath with
  | none => .ok { self with changes := [] }
  | some operation =>
    let writesCache : FWriteTreeRef κ ν := ⟨listenPath, self.pendingWriteTree⟩
    let serverCache := self.viewCache.completeServerSnap
    (FView.applyOperation self.viewCache operation writesCache serverCache).map (fun result =>
      { self with viewCache := result.viewCache, changes := result.changes })

def applyUserOverwriteAtPath (self : FSyncTree κ ν) (path : FPath κ) (newData : FSnapshot κ ν)
    (writeId : Int) (visible : Bool) : Except NSException (FSyncTree κ ν) := do
  let pendingWriteTree ←
    self.pendingWriteTree.addOverwriteAtPath path newData writeId visible
  let self : FSyncTree κ ν := { self with pendingWriteTree := pendingWriteTree, changes := [] }
  if visible then
    self.applyOperationToSyncPoints listenPath (.overwrite true path newData)
  else
    .ok self

def applyUserMergeAtPath (self : FSyncTree κ ν) (path : FPath κ)
    (changedChildren : FCompoundWrite κ (FSnapshot κ ν)) (writeId : Int)
    : Except NSException (FSyncTree κ ν) := do
  let pendingWriteTree ←
    self.pendingWriteTree.addMergeAtPath path changedChildren writeId
  let self : FSyncTree κ ν := { self with pendingWriteTree := pendingWriteTree }
  self.applyOperationToSyncPoints listenPath (.merge true path changedChildren)

def ackUserWriteWithWriteId (self : FSyncTree κ ν) (writeId : Int) (revert : Bool)
    : Except NSException (FSyncTree κ ν) := do
  let write := self.pendingWriteTree.writeForId writeId
  let (needToReevaluate, pendingWriteTree) ←
    self.pendingWriteTree.removeWriteId writeId
  let self : FSyncTree κ ν := { self with pendingWriteTree := pendingWriteTree, changes := [] }
  match write with
  | some write =>
    if needToReevaluate then
      self.applyOperationToSyncPoints listenPath
        (.ackUserWrite write.path write.affectedTree revert)
    else
      .ok self
  | none => .ok self

def applyServerOverwriteAtPath (self : FSyncTree κ ν) (path : FPath κ) (newData : FSnapshot κ ν)
    : Except NSException (FSyncTree κ ν) :=
  self.applyOperationToSyncPoints listenPath (.overwrite false path newData)

def applyServerMergeAtPath (self : FSyncTree κ ν) (path : FPath κ)
    (changedChildren : FCompoundWrite κ (FSnapshot κ ν)) : Except NSException (FSyncTree κ ν) :=
  self.applyOperationToSyncPoints listenPath (.merge false path changedChildren)

def step (self : FSyncTree κ ν) : FSyncEvent κ ν → Except NSException (FSyncTree κ ν)
  | .userOverwrite path newData writeId visible =>
    self.applyUserOverwriteAtPath listenPath path newData writeId visible
  | .userMerge path changedChildren writeId =>
    self.applyUserMergeAtPath listenPath path changedChildren writeId
  | .ackUserWrite writeId revert => self.ackUserWriteWithWriteId listenPath writeId revert
  | .serverOverwrite path newData => self.applyServerOverwriteAtPath listenPath path newData
  | .serverMerge path changedChildren =>
    self.applyServerMergeAtPath listenPath path changedChildren

end FSyncTree
