import PasswordManager.Database.FCompoundWrite
import PasswordManager.Database.FUtilities

/-!
This module contains the nodes of the database: leaf nodes with a value and nodes with children. Both
have a node for their priority, which is a child under a key of its own.
-/

/--
A node of `FLeafNode` or of `FChildrenNode`. Only a node without children has no node for its
priority.
-/
inductive FSnapshot (κ ν : Type) where
  | leafNode (value : ν) (priorityNode : FSnapshot κ ν)
  | childrenNode (priorityNode : Option (FSnapshot κ ν)) (children : List (κ × FSnapshot κ ν))

namespace FSnapshot

open SortedEntries FKeys

variable {κ ν : Type}

def emptyNode : FSnapshot κ ν :=
  .childrenNode none []

def isLeafNode : FSnapshot κ ν → Bool
  | .leafNode _ _ => true
  | .childrenNode _ _ => false

def isEmpty : FSnapshot κ ν → Bool
  | .leafNode _ _ => false
  | .childrenNode _ children => children.isEmpty

def getPriority : FSnapshot κ ν → FSnapshot κ ν
  | .leafNode _ priorityNode => priorityNode
  | .childrenNode priorityNode _ => priorityNode.getD emptyNode

def updatePriority (self aPriority : FSnapshot κ ν) : FSnapshot κ ν :=
  match self with
  | .leafNode value _ => .leafNode value aPriority
  | .childrenNode _ children =>
    if children.isEmpty then emptyNode else .childrenNode (some aPriority) children

variable [DecidableEq κ] [FKeys κ]

def getImmediateChild (self : FSnapshot κ ν) (childName : κ) : FSnapshot κ ν :=
  if childName = priorityKey then
    self.getPriority
  else
    match self with
    | .leafNode _ _ => emptyNode
    | .childrenNode _ children => (lookup keyComparator childName children).getD emptyNode

def hasChild (self : FSnapshot κ ν) (childName : κ) : Bool :=
  match self with
  | .leafNode _ _ => childName = priorityKey && !self.getPriority.isEmpty
  | .childrenNode _ _ => !(self.getImmediateChild childName).isEmpty

def getChild : FSnapshot κ ν → FPath κ → FSnapshot κ ν
  | self, [] => self
  | .leafNode _ priorityNode, front :: _ =>
    if front = priorityKey then priorityNode else emptyNode
  | .childrenNode priorityNode children, front :: rest =>
    getChild (getImmediateChild (.childrenNode priorityNode children) front) rest

def updateImmediateChild (self : FSnapshot κ ν) (childName : κ) (newChildNode : FSnapshot κ ν)
    : FSnapshot κ ν :=
  if childName = priorityKey then
    self.updatePriority newChildNode
  else
    match self with
    | .leafNode _ priorityNode =>
      if newChildNode.isEmpty then
        self
      else
        -- a node without children gets its first child, and then the priority of the leaf
        let children := insertAs keyComparator childName childName newChildNode []
        let childrenNode := FSnapshot.childrenNode (some emptyNode) children
        childrenNode.updatePriority priorityNode
    | .childrenNode _ children =>
      let newChildren :=
        if newChildNode.isEmpty then
          erase keyComparator childName children
        else
          insertAs keyComparator childName childName newChildNode children
      if newChildren.isEmpty then
        emptyNode
      else
        .childrenNode (some self.getPriority) newChildren

def updateChild : FSnapshot κ ν → FPath κ → FSnapshot κ ν → FSnapshot κ ν
  | _, [], newChildNode => newChildNode
  | .leafNode value priorityNode, front :: rest, newChildNode =>
    if newChildNode.isEmpty ∧ front ≠ priorityKey then
      .leafNode value priorityNode
    else
      updateImmediateChild (.leafNode value priorityNode) front
        (updateChild emptyNode rest newChildNode)
  | .childrenNode priorityNode children, front :: rest, newChildNode =>
    let self := FSnapshot.childrenNode priorityNode children
    self.updateImmediateChild front (updateChild (self.getImmediateChild front) rest newChildNode)

theorem updateChild_nil (self newChildNode : FSnapshot κ ν)
    : self.updateChild [] newChildNode = newChildNode := by
  cases self with
  | leafNode value priorityNode => rfl
  | childrenNode priorityNode children => rfl

omit [DecidableEq κ] [FKeys κ] in
def enumerateChildren : FSnapshot κ ν → List (κ × FSnapshot κ ν)
  | .leafNode _ _ => []
  | .childrenNode _ children => children

section Equality

variable [DecidableEq ν]

mutual

def isEqual : FSnapshot κ ν → FSnapshot κ ν → Bool
  | .leafNode value priorityNode, .leafNode otherValue otherPriority =>
    otherValue = value && isEqual priorityNode otherPriority
  | .leafNode _ _, .childrenNode _ _ => false
  | .childrenNode _ _, .leafNode _ _ => false
  | .childrenNode priorityNode children, .childrenNode otherPriority otherChildren =>
    let other := FSnapshot.childrenNode otherPriority otherChildren
    if children.isEmpty && otherChildren.isEmpty then
      -- Empty nodes do not have priority
      true
    else if !isEqualPriority priorityNode other.getPriority then
      false
    else
      children.length = otherChildren.length && isEqualChildren children other

def isEqualPriority : Option (FSnapshot κ ν) → FSnapshot κ ν → Bool
  | some priorityNode, other => isEqual priorityNode other
  | none, other => !other.isLeafNode && other.isEmpty

def isEqualChildren : List (κ × FSnapshot κ ν) → FSnapshot κ ν → Bool
  | [], _ => true
  | (key, node) :: children, other =>
    isEqual node (other.getImmediateChild key) && isEqualChildren children other

end

end Equality

instance : FNode κ (FSnapshot κ ν) where
  priorityKey := priorityKey
  emptyNode := emptyNode
  isEmpty := isEmpty
  getChild := getChild
  updateChild := updateChild

instance : LawfulFNode κ (FSnapshot κ ν) where
  updateChild_nil := updateChild_nil

end FSnapshot
