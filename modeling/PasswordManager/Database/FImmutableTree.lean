import PasswordManager.Database.FPath

/-!
This module contains the trees that hold values at some of their paths. The children of a node are
the entries of its sorted dictionary.
-/

inductive FImmutableTree (κ ν : Type) where
  | node (value : Option ν) (children : List (κ × FImmutableTree κ ν))

namespace FImmutableTree

open SortedEntries FKeys

variable {κ ν : Type}

def value : FImmutableTree κ ν → Option ν
  | .node value _ => value

def children : FImmutableTree κ ν → List (κ × FImmutableTree κ ν)
  | .node _ children => children

def empty : FImmutableTree κ ν :=
  .node none []

def initWithValue (value : Option ν) : FImmutableTree κ ν :=
  .node value []

def isEmpty (self : FImmutableTree κ ν) : Bool :=
  self.value.isNone && self.children.isEmpty

mutual

def forEachPathSoFar (pathSoFar : FPath κ) : FImmutableTree κ ν → List (FPath κ × ν)
  | .node value children =>
    enumerateChildren pathSoFar children ++ value.toList.map (fun value => (pathSoFar, value))

def enumerateChildren (pathSoFar : FPath κ) : List (κ × FImmutableTree κ ν) → List (FPath κ × ν)
  | [] => []
  | (childKey, childTree) :: children =>
    forEachPathSoFar (pathSoFar ++ [childKey]) childTree ++ enumerateChildren pathSoFar children

end

def forEach (self : FImmutableTree κ ν) : List (FPath κ × ν) :=
  forEachPathSoFar [] self

variable [FKeys κ]

def findRootMostMatchingPath (predicate : ν → Bool)
    : FPath κ → FImmutableTree κ ν → Option (FPath κ × ν)
  | relativePath, self =>
    match self.value.filter predicate with
    | some value => some ([], value)
    | none =>
      match relativePath with
      | [] => none
      | front :: rest =>
        match lookup stringComparator front self.children with
        | some child =>
          (findRootMostMatchingPath predicate rest child).map (fun existing =>
            (front :: existing.1, existing.2))
        | none => none

def findRootMostValueAndPath (self : FImmutableTree κ ν) (relativePath : FPath κ)
    : Option (FPath κ × ν) :=
  findRootMostMatchingPath (fun _ => true) relativePath self

def subtreeAtPath : FPath κ → FImmutableTree κ ν → FImmutableTree κ ν
  | [], self => self
  | front :: rest, self =>
    match lookup stringComparator front self.children with
    | some childTree => subtreeAtPath rest childTree
    | none => empty

def setValue (newValue : Option ν) : FPath κ → FImmutableTree κ ν → FImmutableTree κ ν
  | [], self => .node newValue self.children
  | front :: rest, self =>
    let child := (lookup stringComparator front self.children).getD empty
    let newChild := setValue newValue rest child
    .node self.value (insertAs stringComparator front front newChild self.children)

def valueAtPath : FPath κ → FImmutableTree κ ν → Option ν
  | [], self => self.value
  | front :: rest, self =>
    match lookup stringComparator front self.children with
    | some child => valueAtPath rest child
    | none => none

def setTree (newTree : FImmutableTree κ ν) : FPath κ → FImmutableTree κ ν → FImmutableTree κ ν
  | [], _ => newTree
  | front :: rest, self =>
    let child := (lookup stringComparator front self.children).getD empty
    let newChild := setTree newTree rest child
    if newChild.isEmpty then
      .node self.value (erase stringComparator front self.children)
    else
      .node self.value (insertAs stringComparator front front newChild self.children)

end FImmutableTree
