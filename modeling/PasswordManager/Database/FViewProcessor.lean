import PasswordManager.Database.FSnapshot
import PasswordManager.Database.FWriteTree

/-!
This module contains a view: the caches of the data at one place, what an operation makes of them, and
the changes that it raises. The query of the view takes all of the data, so that nothing is filtered.
-/

structure FCacheNode (κ ν : Type) where
  node : FSnapshot κ ν
  isFullyInitialized : Bool

structure FViewCache (κ ν : Type) where
  cachedEventSnap : FCacheNode κ ν
  cachedServerSnap : FCacheNode κ ν

inductive FChildChange (κ ν : Type) where
  | childAdded (node : FSnapshot κ ν)
  | childRemoved (node : FSnapshot κ ν)
  | childChanged (node oldNode : FSnapshot κ ν)

inductive FChange (κ ν : Type) where
  | child (childKey : κ) (change : FChildChange κ ν)
  | value (node : FSnapshot κ ν)

inductive FOperation (κ ν : Type) where
  | overwrite (fromUser : Bool) (path : FPath κ) (snap : FSnapshot κ ν)
  | merge (fromUser : Bool) (path : FPath κ) (children : FCompoundWrite κ (FSnapshot κ ν))
  | ackUserWrite (path : FPath κ) (affectedTree : FImmutableTree κ Bool) (revert : Bool)

structure FWriteTreeRef (κ ν : Type) where
  path : FPath κ
  writeTree : FWriteTree κ (FSnapshot κ ν)

structure FViewProcessorResult (κ ν : Type) where
  viewCache : FViewCache κ ν
  changes : List (FChange κ ν)

namespace NSException

def illegalCombination : NSException where
  name := "FirebaseDatabaseInternalError"
  reason := "Illegal combination of changes"

def changeOnPriority : NSException where
  name := "NSInternalInconsistencyException"
  reason := "Changes not tracked on priority"

def removeWithoutOldChild : NSException where
  name := "NSInternalInconsistencyException"
  reason := "A child remove without an old child only makes sense on a leaf node."

def incompleteServerData : NSException where
  name := "NSInternalInconsistencyException"
  reason := "If change path is empty, we must have complete server data"

def priorityWithPath : NSException where
  name := "NSInternalInconsistencyException"
  reason := "Can't have a priority with additional path components"

def serverSnapWentBack : NSException where
  name := "NSInternalInconsistencyException"
  reason := "Once a server snap is complete, it should never go back."

end NSException

open FKeys

variable {κ ν : Type} [DecidableEq κ] [FKeys κ]

namespace FChildChangeAccumulator

abbrev ChangeMap (κ ν : Type) := List (κ × FChildChange κ ν)

omit [FKeys κ] in
def setObject (changeMap : ChangeMap κ ν) (childKey : κ) (change : FChildChange κ ν)
    : ChangeMap κ ν :=
  changeMap.map (fun entry => if entry.1 = childKey then (childKey, change) else entry)

def trackChildChange (changeMap : ChangeMap κ ν) (change : κ × FChildChange κ ν)
    : Except NSException (ChangeMap κ ν) :=
  let childKey := change.1
  if childKey = priorityKey then
    .error .changeOnPriority
  else
    match changeMap.find? (fun entry => entry.1 = childKey) with
    | none => .ok (changeMap ++ [change])
    | some oldChange =>
      match change.2, oldChange.2 with
      | .childAdded node, .childRemoved oldNode =>
        .ok (setObject changeMap childKey (.childChanged node oldNode))
      | .childRemoved _, .childAdded _ => .ok (changeMap.filter (fun entry => entry.1 ≠ childKey))
      | .childRemoved _, .childChanged _ oldNode =>
        .ok (setObject changeMap childKey (.childRemoved oldNode))
      | .childChanged node _, .childAdded _ => .ok (setObject changeMap childKey (.childAdded node))
      | .childChanged node _, .childChanged _ oldNode =>
        .ok (setObject changeMap childKey (.childChanged node oldNode))
      | _, _ => .error .illegalCombination

/--
What an operation does besides computing caches: it tracks a change, or a check of it fails.
-/
abbrev Effect (κ ν : Type) := Except NSException (κ × FChildChange κ ν)

omit [DecidableEq κ] [FKeys κ] in
def assert (condition : Prop) [Decidable condition] (exception : NSException)
    : List (Effect κ ν) :=
  if condition then [] else [.error exception]

def perform (changeMap : ChangeMap κ ν) (effect : Effect κ ν) : Except NSException (ChangeMap κ ν) :=
  effect.bind (trackChildChange changeMap)

def changes (effects : List (Effect κ ν)) : Except NSException (List (FChange κ ν)) :=
  (effects.foldlM perform []).map (fun changeMap =>
    changeMap.map (fun entry => .child entry.1 entry.2))

end FChildChangeAccumulator

namespace FCacheNode

def isCompleteForChild (self : FCacheNode κ ν) (childKey : κ) : Bool :=
  self.isFullyInitialized || self.node.hasChild childKey

def isCompleteForPath (self : FCacheNode κ ν) : FPath κ → Bool
  | [] => self.isFullyInitialized
  | childKey :: _ => self.isCompleteForChild childKey

end FCacheNode

namespace FViewCache

omit [DecidableEq κ] [FKeys κ] in
def completeServerSnap (self : FViewCache κ ν) : Option (FSnapshot κ ν) :=
  if self.cachedServerSnap.isFullyInitialized then some self.cachedServerSnap.node else none

omit [DecidableEq κ] [FKeys κ] in
def updateEventSnap (self : FViewCache κ ν) (eventSnap : FSnapshot κ ν) (complete : Bool)
    : FViewCache κ ν :=
  { self with cachedEventSnap := ⟨eventSnap, complete⟩ }

omit [DecidableEq κ] [FKeys κ] in
def updateServerSnap (self : FViewCache κ ν) (serverSnap : FSnapshot κ ν) (complete : Bool)
    : FViewCache κ ν :=
  { self with cachedServerSnap := ⟨serverSnap, complete⟩ }

end FViewCache

namespace FCompoundWrite

omit [DecidableEq κ] [FKeys κ] in
def completeChildren (self : FCompoundWrite κ (FSnapshot κ ν)) : List (κ × FSnapshot κ ν) :=
  match self.writeTree.value with
  | some node => node.enumerateChildren
  | none =>
    self.writeTree.children.filterMap (fun entry =>
      entry.2.value.map (fun node => (entry.1, node)))

omit [DecidableEq κ] [FKeys κ] in
def childCompoundWrites (self : FCompoundWrite κ (FSnapshot κ ν))
    : List (κ × FCompoundWrite κ (FSnapshot κ ν)) :=
  self.writeTree.children.map (fun entry => (entry.1, { writeTree := entry.2 }))

end FCompoundWrite

namespace FOperation

omit [DecidableEq κ] [FKeys κ] in
def path : FOperation κ ν → FPath κ
  | .overwrite _ path _ => path
  | .merge _ path _ => path
  | .ackUserWrite path _ _ => path

def operationForChild (self : FOperation κ ν) (childKey : κ) : Option (FOperation κ ν) :=
  match self with
  | .overwrite fromUser [] snap =>
    some (.overwrite fromUser [] (snap.getImmediateChild childKey))
  | .overwrite fromUser (_ :: rest) snap => some (.overwrite fromUser rest snap)
  | .merge fromUser [] children =>
    let childTree := children.childCompoundWriteAtPath [childKey]
    if childTree.isEmpty then
      none
    else
      match childTree.rootWrite with
      -- We have a snapshot for the child in question. This becomes an overwrite of the child.
      | some rootWrite => some (.overwrite fromUser [] rootWrite)
      | none => some (.merge fromUser [] childTree)
  | .merge fromUser (_ :: rest) children => some (.merge fromUser rest children)
  | .ackUserWrite (_ :: rest) affectedTree revert => some (.ackUserWrite rest affectedTree revert)
  | .ackUserWrite [] affectedTree revert =>
    match affectedTree.value with
    | some _ => some (.ackUserWrite [] affectedTree revert)
    | none => some (.ackUserWrite [] (affectedTree.subtreeAtPath [childKey]) revert)

end FOperation

namespace FWriteTreeRef

variable (self : FWriteTreeRef κ ν)

def calculateCompleteEventCache (completeServerCache : Option (FSnapshot κ ν))
    : Option (FSnapshot κ ν) :=
  self.writeTree.calculateCompleteEventCacheAtPath self.path completeServerCache none
    false

def calculateCompleteEventChildren (completeServerChildren : FSnapshot κ ν) : FSnapshot κ ν :=
  let updateAll := fun (completeChildren : FSnapshot κ ν) (entries : List (κ × FSnapshot κ ν)) =>
    entries.foldl (fun completeChildren entry =>
      completeChildren.updateImmediateChild entry.1 entry.2) completeChildren
  match self.writeTree.visibleWrites.completeNodeAtPath self.path with
  -- We're shadowing everything. Return the children.
  | some topLevelSet => updateAll .emptyNode topLevelSet.enumerateChildren
  | none =>
    -- Layer any children we have on top of this
    let merge := self.writeTree.visibleWrites.childCompoundWriteAtPath self.path
    let layered := completeServerChildren.enumerateChildren.map (fun entry =>
      (entry.1, (merge.childCompoundWriteAtPath [entry.1]).applyToNode entry.2))
    updateAll (updateAll .emptyNode layered) merge.completeChildren

def calculateEventCacheAfterServerOverwrite (childPath : FPath κ)
    (existingServerSnap : FSnapshot κ ν) : Option (FSnapshot κ ν) :=
  self.writeTree.calculateEventCacheAfterServerOverwriteAtPath self.path childPath
    existingServerSnap

def shadowingWriteAtPath (path : FPath κ) : Option (FSnapshot κ ν) :=
  self.writeTree.shadowingWriteAtPath (self.path ++ path)

def calculateCompleteChild (childKey : κ) (existingServerCache : FCacheNode κ ν)
    : Option (FSnapshot κ ν) :=
  let path := self.path ++ [childKey]
  match self.writeTree.visibleWrites.completeNodeAtPath path with
  | some shadowingNode => some shadowingNode
  | none =>
    if existingServerCache.isCompleteForChild childKey then
      let childMerge := self.writeTree.visibleWrites.childCompoundWriteAtPath path
      some (childMerge.applyToNode (existingServerCache.node.getImmediateChild childKey))
    else
      none

end FWriteTreeRef

namespace FIndexedFilter

open FChildChangeAccumulator

variable [DecidableEq ν]

def updateChildIn (node : FSnapshot κ ν) (childKey : κ) (newChildSnap : FSnapshot κ ν)
    (affectedPath : FPath κ) : FSnapshot κ ν × List (Effect κ ν) :=
  let oldChildSnap := node.getImmediateChild childKey
  if (oldChildSnap.getChild affectedPath).isEqual (newChildSnap.getChild affectedPath)
      ∧ oldChildSnap.isEmpty = newChildSnap.isEmpty then
    (node, [])
  else
    let effects :=
      if newChildSnap.isEmpty then
        if node.hasChild childKey then
          [.ok (childKey, .childRemoved oldChildSnap)]
        else
          assert node.isLeafNode .removeWithoutOldChild
      else if oldChildSnap.isEmpty then
        [.ok (childKey, .childAdded newChildSnap)]
      else
        [.ok (childKey, .childChanged newChildSnap oldChildSnap)]
    if node.isLeafNode ∧ newChildSnap.isEmpty then
      (node, effects)
    else
      (node.updateImmediateChild childKey newChildSnap, effects)

def updateFullNode (oldSnap newSnap : FSnapshot κ ν) : List (Effect κ ν) :=
  let removed := oldSnap.enumerateChildren.filterMap (fun entry =>
    if newSnap.hasChild entry.1 then none else some (entry.1, .childRemoved entry.2))
  let kept := newSnap.enumerateChildren.filterMap (fun entry =>
    if oldSnap.hasChild entry.1 then
      let oldChildSnap := oldSnap.getImmediateChild entry.1
      if oldChildSnap.isEqual entry.2 then
        none
      else
        some (entry.1, .childChanged entry.2 oldChildSnap)
    else
      some (entry.1, .childAdded entry.2))
  (removed ++ kept).map .ok

omit [DecidableEq κ] [FKeys κ] [DecidableEq ν] in
def updatePriority (priority oldSnap : FSnapshot κ ν) : FSnapshot κ ν :=
  if oldSnap.isEmpty then oldSnap else oldSnap.updatePriority priority

end FIndexedFilter

namespace FViewProcessor

open FIndexedFilter FChildChangeAccumulator

abbrev Tracked (κ ν : Type) := FViewCache κ ν × List (Effect κ ν)

variable [DecidableEq ν] (writesCache : FWriteTreeRef κ ν) (optCompleteCache : Option (FSnapshot κ ν))

omit [DecidableEq ν] in
def completeChild (viewCache : FViewCache κ ν) (childKey : κ) : Option (FSnapshot κ ν) :=
  let node := viewCache.cachedEventSnap
  if node.isCompleteForChild childKey then
    some (node.node.getImmediateChild childKey)
  else
    let serverNode : FCacheNode κ ν :=
      match optCompleteCache with
      | some completeCache => ⟨completeCache, true⟩
      | none => viewCache.cachedServerSnap
    writesCache.calculateCompleteChild childKey serverNode

omit [DecidableEq ν] in
def newEventChildAfterServerEvent (viewCache : FViewCache κ ν) (childKey : κ)
    (childChangePath : FPath κ) : Option (FSnapshot κ ν) :=
  let oldEventSnap := viewCache.cachedEventSnap
  if oldEventSnap.isCompleteForChild childKey then
    let oldEventChild := oldEventSnap.node.getImmediateChild childKey
    match writesCache.calculateEventCacheAfterServerOverwrite (childKey :: childChangePath)
        viewCache.cachedServerSnap.node with
    | some eventChildUpdate => some (oldEventChild.updateChild childChangePath eventChildUpdate)
    | none => some oldEventChild
  else
    writesCache.calculateCompleteChild childKey viewCache.cachedServerSnap

def generateEventCacheAfterServerEvent (viewCache : FViewCache κ ν) (changePath : FPath κ)
    : Tracked κ ν :=
  let oldEventSnap := viewCache.cachedEventSnap
  if (writesCache.shadowingWriteAtPath changePath).isSome then
    (viewCache, [])
  else
    match changePath with
    | [] =>
      -- if the server data is complete, there is always a node with the local writes
      let nodeWithLocalWrites :=
        (writesCache.calculateCompleteEventCache viewCache.completeServerSnap).getD .emptyNode
      (viewCache.updateEventSnap nodeWithLocalWrites true,
        assert viewCache.cachedServerSnap.isFullyInitialized .incompleteServerData
          ++ updateFullNode oldEventSnap.node nodeWithLocalWrites)
    | childKey :: childChangePath =>
      let complete := oldEventSnap.isFullyInitialized
      if childKey = priorityKey then
        let newEventCache :=
          match writesCache.calculateEventCacheAfterServerOverwrite (childKey :: childChangePath)
              viewCache.cachedServerSnap.node with
          | some updatedPriority => updatePriority updatedPriority oldEventSnap.node
          | none => oldEventSnap.node
        (viewCache.updateEventSnap newEventCache complete,
          assert childChangePath.isEmpty .priorityWithPath)
      else
        match newEventChildAfterServerEvent writesCache viewCache childKey childChangePath with
        | some newEventChild =>
          let updated := updateChildIn oldEventSnap.node childKey newEventChild childChangePath
          (viewCache.updateEventSnap updated.1 complete, updated.2)
        | none => (viewCache.updateEventSnap oldEventSnap.node complete, [])

def applyServerOverwriteTo (oldViewCache : FViewCache κ ν) (changePath : FPath κ)
    (changedSnap : FSnapshot κ ν) : Tracked κ ν :=
  let oldServerSnap := oldViewCache.cachedServerSnap
  match changePath with
  | [] =>
    let newViewCache := oldViewCache.updateServerSnap changedSnap true
    generateEventCacheAfterServerEvent writesCache newViewCache changePath
  | childKey :: childChangePath =>
    if ¬ oldServerSnap.isCompleteForPath changePath ∧ changePath.length > 1 then
      (oldViewCache, [])
    else
      let childNode := oldServerSnap.node.getImmediateChild childKey
      let newChildNode := childNode.updateChild childChangePath changedSnap
      let newServerCache :=
        if childKey = priorityKey then
          updatePriority newChildNode oldServerSnap.node
        else
          (updateChildIn oldServerSnap.node childKey newChildNode childChangePath).1
      let newViewCache :=
        oldViewCache.updateServerSnap newServerCache oldServerSnap.isFullyInitialized
      generateEventCacheAfterServerEvent writesCache newViewCache changePath

omit [DecidableEq ν] in
def newChildAfterUserOverwrite (viewCache : FViewCache κ ν) (childKey : κ) (childChangePath : FPath κ)
    (changedSnap : FSnapshot κ ν) : FSnapshot κ ν :=
  if childChangePath.isEmpty then
    changedSnap
  else
    match completeChild writesCache optCompleteCache viewCache childKey with
    | some childNode =>
      if childChangePath.getLast? = some priorityKey
          ∧ (childNode.getChild childChangePath.dropLast).isEmpty then
        childNode
      else
        childNode.updateChild childChangePath changedSnap
    | none => .emptyNode

def applyUserOverwriteTo (oldViewCache : FViewCache κ ν) (changePath : FPath κ)
    (changedSnap : FSnapshot κ ν) : Tracked κ ν :=
  let oldEventSnap := oldViewCache.cachedEventSnap
  match changePath with
  | [] =>
    (oldViewCache.updateEventSnap changedSnap true, updateFullNode oldEventSnap.node changedSnap)
  | childKey :: childChangePath =>
    if childKey = priorityKey then
      (oldViewCache.updateEventSnap (updatePriority changedSnap oldEventSnap.node)
        oldEventSnap.isFullyInitialized, [])
    else
      let oldChild := oldEventSnap.node.getImmediateChild childKey
      let newChild := newChildAfterUserOverwrite writesCache optCompleteCache oldViewCache childKey
        childChangePath changedSnap
      if oldChild.isEqual newChild then
        (oldViewCache, [])
      else
        let updated := updateChildIn oldEventSnap.node childKey newChild childChangePath
        (oldViewCache.updateEventSnap updated.1 oldEventSnap.isFullyInitialized, updated.2)

def applyEach {α : Type} (apply : FViewCache κ ν → α → Tracked κ ν) (viewCache : FViewCache κ ν)
    (steps : List α) : Tracked κ ν :=
  steps.foldl
    (fun tracked step =>
      let next := apply tracked.1 step
      (next.1, tracked.2 ++ next.2))
    (viewCache, [])

-- First the changes that affect items in view, and then the others.
def applyUserMergeTo (viewCache : FViewCache κ ν) (path : FPath κ)
    (changedChildren : FCompoundWrite κ (FSnapshot κ ν)) : Tracked κ ν :=
  let writes := changedChildren.writeTree.forEach.map (fun call => (path ++ call.1, call.2))
  let inView := fun (write : FPath κ × FSnapshot κ ν) =>
    match write.1 with
    | [] => viewCache.cachedEventSnap.isFullyInitialized
    | front :: _ => viewCache.cachedEventSnap.isCompleteForChild front
  applyEach
    (fun viewCache write =>
      applyUserOverwriteTo writesCache optCompleteCache viewCache write.1 write.2)
    viewCache (writes.filter inView ++ writes.filter (fun write => !inView write))

def applyServerMergeTo (viewCache : FViewCache κ ν) (path : FPath κ)
    (changedChildren : FCompoundWrite κ (FSnapshot κ ν)) : Tracked κ ν :=
  let serverSnap := viewCache.cachedServerSnap
  if serverSnap.node.isEmpty ∧ ¬ serverSnap.isFullyInitialized then
    (viewCache, [])
  else
    let actualMerge :=
      if path.isEmpty then
        changedChildren
      else
        FCompoundWrite.emptyWrite.addCompoundWrite changedChildren path
    let merges := actualMerge.childCompoundWrites
    let known := merges.filter (fun merge => serverSnap.node.hasChild merge.1)
    let unknown := merges.filter (fun merge =>
      let isUnknownDeepMerge :=
        !serverSnap.isCompleteForChild merge.1 && merge.2.rootWrite.isNone
      !serverSnap.node.hasChild merge.1 && !isUnknownDeepMerge)
    applyEach
      (fun viewCache merge =>
        applyServerOverwriteTo writesCache viewCache [merge.1]
          (merge.2.applyToNode (serverSnap.node.getImmediateChild merge.1)))
      viewCache (known ++ unknown)

def ackUserWriteOn (viewCache : FViewCache κ ν) (ackPath : FPath κ)
    (affectedTree : FImmutableTree κ Bool) : Tracked κ ν :=
  if (writesCache.shadowingWriteAtPath ackPath).isSome then
    (viewCache, [])
  else
    let serverCache := viewCache.cachedServerSnap
    match affectedTree.value with
    | some _ =>
      if serverCache.isCompleteForPath ackPath then
        applyServerOverwriteTo writesCache viewCache ackPath (serverCache.node.getChild ackPath)
      else if ackPath.isEmpty then
        let changedChildren := serverCache.node.enumerateChildren.foldl
          (fun changedChildren child => changedChildren.addWrite child.2 [child.1])
          FCompoundWrite.emptyWrite
        applyServerMergeTo writesCache viewCache ackPath changedChildren
      else
        (viewCache, [])
    | none =>
      let changedChildren := affectedTree.forEach.foldl
        (fun (changedChildren : FCompoundWrite κ (FSnapshot κ ν)) call =>
          let serverCachePath := ackPath ++ call.1
          if serverCache.isCompleteForPath serverCachePath then
            changedChildren.addWrite (serverCache.node.getChild serverCachePath) call.1
          else
            changedChildren)
        FCompoundWrite.emptyWrite
      applyServerMergeTo writesCache viewCache ackPath changedChildren

omit [DecidableEq ν] in
def newChildAfterRevert (viewCache : FViewCache κ ν) (childKey : κ) : Option (FSnapshot κ ν) :=
  let serverSnap := viewCache.cachedServerSnap
  let oldEventCache := viewCache.cachedEventSnap.node
  match writesCache.calculateCompleteChild childKey serverSnap with
  | some newChild => some newChild
  | none =>
    if serverSnap.isCompleteForChild childKey then
      some (oldEventCache.getImmediateChild childKey)
    else if oldEventCache.hasChild childKey then
      some .emptyNode
    else
      none

omit [DecidableEq ν] in
def newNodeAfterRevert (viewCache : FViewCache κ ν) : FSnapshot κ ν :=
  if viewCache.cachedServerSnap.isFullyInitialized then
    -- the server data is complete, there is always a node
    (writesCache.calculateCompleteEventCache viewCache.completeServerSnap).getD .emptyNode
  else
    writesCache.calculateCompleteEventChildren viewCache.cachedServerSnap.node

def revertUserWriteOn (viewCache : FViewCache κ ν) (path : FPath κ) : Tracked κ ν :=
  if (writesCache.shadowingWriteAtPath path).isSome then
    (viewCache, [])
  else
    let oldEventCache := viewCache.cachedEventSnap.node
    let serverSnap := viewCache.cachedServerSnap
    let complete :=
      serverSnap.isFullyInitialized || (writesCache.shadowingWriteAtPath []).isSome
    let newNode := newNodeAfterRevert writesCache viewCache
    match path with
    | [] => (viewCache.updateEventSnap newNode complete, updateFullNode oldEventCache newNode)
    | childKey :: affectedPath =>
      if childKey = priorityKey then
        (viewCache.updateEventSnap newNode complete, updateFullNode oldEventCache newNode)
      else
        let updated :=
          match newChildAfterRevert writesCache viewCache childKey with
          | some newChild => updateChildIn oldEventCache childKey newChild affectedPath
          | none => (oldEventCache, [])
        if updated.1.isEmpty ∧ serverSnap.isFullyInitialized ∧ newNode.isLeafNode then
          -- We might have reverted all child writes. Maybe the old event was a leaf node.
          (viewCache.updateEventSnap newNode complete,
            updated.2 ++ updateFullNode updated.1 newNode)
        else
          (viewCache.updateEventSnap updated.1 complete, updated.2)

def valueChanged (oldViewCache newViewCache : FViewCache κ ν)
    (changes : List (FChange κ ν)) : Bool :=
  let eventSnap := newViewCache.cachedEventSnap
  let oldEventSnap := oldViewCache.cachedEventSnap
  let isLeafOrEmpty := eventSnap.node.isLeafNode || eventSnap.node.isEmpty
  !changes.isEmpty || !oldEventSnap.isFullyInitialized
    || (isLeafOrEmpty && !eventSnap.node.isEqual oldEventSnap.node)
    || !eventSnap.node.getPriority.isEqual oldEventSnap.node.getPriority

def maybeAddValueFromOldViewCache (oldViewCache newViewCache : FViewCache κ ν)
    (changes : List (FChange κ ν)) : List (FChange κ ν) :=
  let eventSnap := newViewCache.cachedEventSnap
  if eventSnap.isFullyInitialized ∧ valueChanged oldViewCache newViewCache changes then
    changes ++ [.value eventSnap.node]
  else
    changes

def applyOperationOn (oldViewCache : FViewCache κ ν) (operation : FOperation κ ν)
    : Except NSException (FViewProcessorResult κ ν) :=
  let tracked :=
    match operation with
    | .overwrite true path snap =>
      applyUserOverwriteTo writesCache optCompleteCache oldViewCache path snap
    | .overwrite false path snap => applyServerOverwriteTo writesCache oldViewCache path snap
    | .merge true path children =>
      applyUserMergeTo writesCache optCompleteCache oldViewCache path children
    | .merge false path children => applyServerMergeTo writesCache oldViewCache path children
    | .ackUserWrite path affectedTree false =>
      ackUserWriteOn writesCache oldViewCache path affectedTree
    | .ackUserWrite path _ true => revertUserWriteOn writesCache oldViewCache path
  (FChildChangeAccumulator.changes tracked.2).map (fun changes => {
    viewCache := tracked.1
    changes := maybeAddValueFromOldViewCache oldViewCache tracked.1 changes
  })

end FViewProcessor

def FView.applyOperation [DecidableEq ν] (oldViewCache : FViewCache κ ν) (operation : FOperation κ ν)
    (writesCache : FWriteTreeRef κ ν) (optCompleteServerCache : Option (FSnapshot κ ν))
    : Except NSException (FViewProcessorResult κ ν) := do
  let result ← FViewProcessor.applyOperationOn writesCache optCompleteServerCache oldViewCache
    operation
  if result.viewCache.cachedServerSnap.isFullyInitialized
      ∨ ¬ oldViewCache.cachedServerSnap.isFullyInitialized then
    .ok result
  else
    .error .serverSnapWentBack
