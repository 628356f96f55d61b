import PasswordManager.Database.FImmutableTreeLemmas

/-!
This module contains the writes to several places at once: a tree with the nodes that are written at
their paths, no path inside another one.
-/

class FNode (κ : outParam Type) (N : Type) where
  priorityKey : κ
  emptyNode : N
  isEmpty : N → Bool
  getChild : N → FPath κ → N
  updateChild : N → FPath κ → N → N

class LawfulFNode (κ : outParam Type) (N : Type) [FNode κ N] : Prop where
  updateChild_nil : ∀ node newChildNode : N, FNode.updateChild node [] newChildNode = newChildNode

structure FCompoundWrite (κ N : Type) where
  writeTree : FImmutableTree κ N

namespace FCompoundWrite

open FNode

variable {κ N : Type}

def emptyWrite : FCompoundWrite κ N where
  writeTree := .initWithValue none

def isEmpty (self : FCompoundWrite κ N) : Bool :=
  self.writeTree.isEmpty

def rootWrite (self : FCompoundWrite κ N) : Option N :=
  self.writeTree.value

variable [FKeys κ]

def removeWriteAtPath (self : FCompoundWrite κ N) (path : FPath κ) : FCompoundWrite κ N :=
  if path.isEmpty then
    emptyWrite
  else
    { writeTree := .setTree .empty path self.writeTree }

variable [DecidableEq κ] [FNode κ N]

-- The root-most path is a part of the path, so that the relative path is never refused.
def addWrite (self : FCompoundWrite κ N) (node : N) (path : FPath κ) : FCompoundWrite κ N :=
  if path.isEmpty then
    { writeTree := .initWithValue (some node) }
  else
    match self.writeTree.findRootMostValueAndPath path with
    | some rootMost =>
      let relativePath := path.drop rootMost.1.length
      let value := updateChild rootMost.2 relativePath node
      { writeTree := .setValue (some value) rootMost.1 self.writeTree }
    | none =>
      let subtree := FImmutableTree.initWithValue (some node)
      { writeTree := .setTree subtree path self.writeTree }

def addCompoundWrite (self compoundWrite : FCompoundWrite κ N) (path : FPath κ)
    : FCompoundWrite κ N :=
  compoundWrite.writeTree.forEach.foldl (fun newWrite call =>
    newWrite.addWrite call.2 (path ++ call.1)) self

def completeNodeAtPath (self : FCompoundWrite κ N) (path : FPath κ) : Option N :=
  match self.writeTree.findRootMostValueAndPath path with
  | some rootMost => some (getChild rootMost.2 (path.drop rootMost.1.length))
  | none => none

def hasCompleteWriteAtPath (self : FCompoundWrite κ N) (path : FPath κ) : Bool :=
  (self.completeNodeAtPath path).isSome

def childCompoundWriteAtPath (self : FCompoundWrite κ N) (path : FPath κ) : FCompoundWrite κ N :=
  if path.isEmpty then
    self
  else
    match self.completeNodeAtPath path with
    | some shadowingNode => { writeTree := .initWithValue (some shadowingNode) }
    | none => { writeTree := .subtreeAtPath path self.writeTree }

mutual

def applySubtreeWrite (relativePath : FPath κ) : FImmutableTree κ N → N → N
  -- Since a write there is always a leaf, we're done here.
  | .node (some value) _, node => updateChild node relativePath value
  | .node none children, node =>
    let applied := applyChildren relativePath children (node, none)
    match applied.2 with
    | some priorityWrite =>
      -- If there was a priority write, we only apply it if the node is not empty
      if FNode.isEmpty (getChild applied.1 relativePath) then
        applied.1
      else
        updateChild applied.1 (relativePath ++ [priorityKey N]) priorityWrite
    | none => applied.1

def applyChildren (relativePath : FPath κ)
    : List (κ × FImmutableTree κ N) → N × Option N → N × Option N
  | [], applied => applied
  | (childKey, childTree) :: children, (blockNode, priorityWrite) =>
    if childKey = priorityKey N then
      applyChildren relativePath children (blockNode, childTree.value)
    else
      applyChildren relativePath children
        (applySubtreeWrite (relativePath ++ [childKey]) childTree blockNode, priorityWrite)

end

omit [FKeys κ] in
theorem applyChildren_cons (relativePath : FPath κ) (entry : κ × FImmutableTree κ N)
    (children : List (κ × FImmutableTree κ N)) (blockNode : N) (priorityWrite : Option N)
    : applyChildren relativePath (entry :: children) (blockNode, priorityWrite)
        =
      if entry.1 = priorityKey N then
        applyChildren relativePath children (blockNode, entry.2.value)
      else
        applyChildren relativePath children
          (applySubtreeWrite (relativePath ++ [entry.1]) entry.2 blockNode, priorityWrite) := by
  rfl

omit [FKeys κ] in
theorem applySubtreeWrite_of_children {relativePath : FPath κ}
    {children : List (κ × FImmutableTree κ N)} {node applied : N}
    (h : applyChildren relativePath children (node, none) = (applied, none))
    : applySubtreeWrite relativePath (.node none children) node = applied := by
  unfold applySubtreeWrite
  rw [h]

def applyToNode (self : FCompoundWrite κ N) (node : N) : N :=
  applySubtreeWrite [] self.writeTree node

end FCompoundWrite
