import PasswordManager.SortedDictionary.Removal
import Mathlib.Data.Nat.Log

/-!
This module contains the dictionary that keeps its entries in a tree, and the construction of such a
tree from entries in their order.
-/

structure NSException where
  name : String
  reason : String
  deriving DecidableEq, Repr

namespace NSException

def sameOrdering : NSException where
  name := "NSInvalidArgumentException"
  reason := "Can't create FImmutableSortedDictionary with keys with same ordering!"

def nonexistentKey : NSException where
  name := "NonexistentKey"
  reason := "getPredecessorKey called with nonexistent key."

def range : NSException where
  name := "NSRangeException"
  reason := ""

end NSException

structure FTreeSortedDictionary (α β : Type) where
  root : FLLRBNode α β
  deriving DecidableEq, Repr

namespace FTreeSortedDictionary

open SortedEntries

variable {α β : Type} (cmp : α → α → Ordering)

def count (self : FTreeSortedDictionary α β) : Nat :=
  self.root.count

def get.loop (key : α) : FLLRBNode α β → Option β
  | .empty => none
  | .node nodeKey value _ left right =>
    match cmp key nodeKey with
    | .eq => some value
    | .lt => get.loop key left
    | .gt => get.loop key right

def get (self : FTreeSortedDictionary α β) (key : α) : Option β :=
  get.loop cmp key self.root

def contains (self : FTreeSortedDictionary α β) (key : α) : Bool :=
  (self.get cmp key).isSome

def getPredecessorKey.loop (key : α)
    : FLLRBNode α β → (rightParent : Option α) → Except NSException (Option α)
  | .empty, _ => .error .nonexistentKey
  | .node nodeKey _ _ left right, rightParent =>
    match cmp key nodeKey with
    | .eq => if left.isEmpty then .ok rightParent else .ok left.maxKey
    | .lt => getPredecessorKey.loop key left rightParent
    | .gt => getPredecessorKey.loop key right (some nodeKey)

def getPredecessorKey (self : FTreeSortedDictionary α β) (key : α)
    : Except NSException (Option α) :=
  getPredecessorKey.loop cmp key self.root none

def insertKey (self : FTreeSortedDictionary α β) (aKey : α) (aValue : β)
    : FTreeSortedDictionary α β where
  root := (self.root.insertKey cmp aKey aValue).withColor .black

def removeKey (self : FTreeSortedDictionary α β) (aKey : α) : FTreeSortedDictionary α β :=
  if !self.contains cmp aKey then
    self
  else
    { root := (self.root.remove cmp aKey).withColor .black }

def enumerateKeysAndObjectsReverse {σ : Type} (self : FTreeSortedDictionary α β) (reverse : Bool)
    (block : α → β → σ → Bool × σ) (s : σ) : σ :=
  if reverse then
    (self.root.reverseTraversal block s).2
  else
    (self.root.inorderTraversal block s).2

-- The numbers fit into 32 bits, where the quotient of the logarithms is rounded down correctly.
def log_base2 (num : Nat) : Nat :=
  Nat.log2 num

def bit_mask (x : Nat) : Nat :=
  2 ^ x - 1

structure Base1_2List where
  bits : Nat
  count : Nat
  current : Nat
  deriving DecidableEq, Repr

namespace Base1_2List

def new (length : Nat) : Base1_2List :=
  let count := log_base2 (length + 1)
  let mask := bit_mask count
  {
    bits := (length + 1) &&& mask
    count
    current := count - 1
  }

def next (list : Base1_2List) : Bool × Base1_2List :=
  let result := (list.bits &&& (0x1 <<< list.current)) == 0
  (result, { list with current := list.current - 1 })

end Base1_2List

def buildBalancedTree (entries : List (α × β)) (startIndex length : Nat)
    : Except NSException (FLLRBNode α β) := do
  let length' := min (entries.length - startIndex) length
  if length' = 0 then
    return .empty
  else if length' = 1 then
    let some entry := entries[startIndex]? | throw .range
    return .node entry.1 entry.2 .black .empty .empty
  else
    let middle := length' / 2
    let left ← buildBalancedTree entries startIndex middle
    let right ← buildBalancedTree entries (startIndex + middle + 1) middle
    let some entry := entries[startIndex + middle]? | throw .range
    return .node entry.1 entry.2 .black left right
termination_by length
decreasing_by
  . omega
  . omega

structure Pennants (α β : Type) where
  index : Nat
  pennants : List (FLLRBNode α β)

def buildPennant (entries : List (α × β)) (color : FLLRBColor) (chunkSize : Nat)
    (state : Pennants α β) : Except NSException (Pennants α β) := do
  let startIndex := state.index - chunkSize + 1
  let index := state.index - chunkSize
  let some entry := entries[index]? | throw .range
  let childTree ← buildBalancedTree entries startIndex (chunkSize - 1)
  let pennant := .node entry.1 entry.2 color .empty childTree
  return { index, pennants := state.pennants ++ [pennant] }

-- `rounds` is what is left of the loop: `base1_2List->count - i`.
def rootFrom12List.loop (entries : List (α × β))
    : (rounds : Nat) → Base1_2List → Pennants α β → Except NSException (Pennants α β)
  | 0, _, state => .ok state
  | rounds + 1, base1_2List, state => do
    let (isOne, base1_2List) := base1_2List.next
    let chunkSize := 2 ^ rounds
    if isOne then
      let state ← buildPennant entries .black chunkSize state
      rootFrom12List.loop entries rounds base1_2List state
    else
      let state ← buildPennant entries .black chunkSize state
      let state ← buildPennant entries .red chunkSize state
      rootFrom12List.loop entries rounds base1_2List state

def attach : List (FLLRBNode α β) → FLLRBNode α β
  | [] => .empty
  | pennant :: pennants => pennant.withLeft (attach pennants)

def rootFrom12List (base1_2List : Base1_2List) (entries : List (α × β))
    : Except NSException (FLLRBNode α β) := do
  let state ← rootFrom12List.loop entries base1_2List.count base1_2List
    { index := entries.length, pennants := [] }
  return attach state.pennants

def fromDictionary (dictionary : List (α × β)) : Except NSException (FTreeSortedDictionary α β) := do
  let sortedEntries := sort cmp dictionary
  if !ascending cmp sortedEntries then
    throw .sameOrdering
  let root ← rootFrom12List (Base1_2List.new sortedEntries.length) sortedEntries
  return { root }

end FTreeSortedDictionary

structure FTreeSortedDictionaryEnumerator (α β : Type) where
  stack : List (FLLRBNode α β)
  isReverse : Bool

namespace FTreeSortedDictionaryEnumerator

variable {α β : Type}

def new.loop (cmp : α → α → Ordering) (startKey : Option α) (reverse : Bool)
    : FLLRBNode α β → (stack : List (FLLRBNode α β)) → List (FLLRBNode α β)
  | .empty, stack => stack
  | .node key value color left right, stack =>
    let result := match startKey with
      | some startKey => cmp key startKey
      | none => .gt
    let result := if reverse then result.swap else result
    match result with
    | .lt =>
      if reverse then
        new.loop cmp startKey reverse left stack
      else
        new.loop cmp startKey reverse right stack
    | .eq => .node key value color left right :: stack
    | .gt =>
      if reverse then
        new.loop cmp startKey reverse right (.node key value color left right :: stack)
      else
        new.loop cmp startKey reverse left (.node key value color left right :: stack)

def new (cmp : α → α → Ordering) (aDict : FTreeSortedDictionary α β) (startKey : Option α)
    (reverse : Bool) : FTreeSortedDictionaryEnumerator α β where
  stack := new.loop cmp startKey reverse aDict.root []
  isReverse := reverse

def pushAll (isReverse : Bool)
    : FLLRBNode α β → (stack : List (FLLRBNode α β)) → List (FLLRBNode α β)
  | .empty, stack => stack
  | .node key value color left right, stack =>
    if isReverse then
      pushAll isReverse right (.node key value color left right :: stack)
    else
      pushAll isReverse left (.node key value color left right :: stack)

def nextObject (self : FTreeSortedDictionaryEnumerator α β)
    : Option α × FTreeSortedDictionaryEnumerator α β :=
  match self.stack with
  | [] => (none, self)
  | .empty :: stack => (none, { self with stack })
  | .node key _ _ left right :: stack =>
    let next := if self.isReverse then left else right
    (some key, { self with stack := pushAll self.isReverse next stack })

end FTreeSortedDictionaryEnumerator
