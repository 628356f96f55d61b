import PasswordManager.SortedDictionary.FTreeSortedDictionary

/-!
This module contains the immutable sorted dictionary. It is two arrays as long as it is small, and a
tree from then on.
-/

def SORTED_DICTIONARY_ARRAY_TO_RB_TREE_SIZE_THRESHOLD : Nat := 25

namespace NSException

def noPredecessor : NSException where
  name := "NSInternalInconsistencyException"
  reason := "Can't get predecessor key for non-existent key"

end NSException

structure FArraySortedDictionary (α β : Type) where
  keys : List α
  values : List β
  deriving DecidableEq, Repr

inductive FImmutableSortedDictionary (α β : Type) where
  | array (self : FArraySortedDictionary α β)
  | tree (self : FTreeSortedDictionary α β)
  deriving DecidableEq, Repr

structure FArraySortedDictionaryEnumerator (α : Type) where
  keys : List α
  pos : Int
  reverse : Bool

namespace FArraySortedDictionaryEnumerator

variable {α : Type}

def nextObject (self : FArraySortedDictionaryEnumerator α)
    : Option α × FArraySortedDictionaryEnumerator α :=
  let pos := self.pos
  if pos ≥ 0 ∧ pos < self.keys.length then
    let self := if self.reverse then { self with pos := pos - 1 } else { self with pos := pos + 1 }
    (self.keys[pos.toNat]?, self)
  else
    (none, self)

end FArraySortedDictionaryEnumerator

namespace FArraySortedDictionary

open SortedEntries

variable {α β : Type} (cmp : α → α → Ordering)

def fromDictionary (dictionary : List (α × β))
    : Except NSException (FArraySortedDictionary α β) := do
  let sortedEntries := sort cmp dictionary
  if !ascending cmp sortedEntries then
    throw .sameOrdering
  return { keys := sortedEntries.map Prod.fst, values := sortedEntries.map Prod.snd }

def findInsertPositionForKey.loop (key : α) : List α → (newPos : Nat) → Nat
  | [], newPos => newPos
  | other :: keys, newPos =>
    if cmp other key = .lt then findInsertPositionForKey.loop key keys (newPos + 1) else newPos

def findInsertPositionForKey (self : FArraySortedDictionary α β) (key : α) : Nat :=
  findInsertPositionForKey.loop cmp key self.keys 0

def findKey.loop (key : α) : List α → (pos : Nat) → Option Nat
  | [], _ => none
  | other :: keys, pos =>
    match cmp key other with
    | .eq => some pos
    | .lt => none
    | .gt => findKey.loop key keys (pos + 1)

def findKey (self : FArraySortedDictionary α β) (key : α) : Option Nat :=
  findKey.loop cmp key self.keys 0

def count (self : FArraySortedDictionary α β) : Nat :=
  self.keys.length

def insertKey (self : FArraySortedDictionary α β) (key : α) (value : β)
    : Except NSException (FImmutableSortedDictionary α β) :=
  match self.findKey cmp key with
  | none =>
    if self.count ≥ SORTED_DICTIONARY_ARRAY_TO_RB_TREE_SIZE_THRESHOLD then do
      let dict := self.keys.zip self.values ++ [(key, value)]
      return .tree (← FTreeSortedDictionary.fromDictionary cmp dict)
    else
      let newPos := self.findInsertPositionForKey cmp key
      .ok (.array {
        keys := self.keys.insertIdx newPos key
        values := self.values.insertIdx newPos value
      })
  | some pos =>
    .ok (.array { keys := self.keys.set pos key, values := self.values.set pos value })

def removeKey (self : FArraySortedDictionary α β) (key : α) : FArraySortedDictionary α β :=
  match self.findKey cmp key with
  | none => self
  | some pos => { keys := self.keys.eraseIdx pos, values := self.values.eraseIdx pos }

def get (self : FArraySortedDictionary α β) (key : α) : Option β :=
  match self.findKey cmp key with
  | none => none
  | some pos => self.values[pos]?

def contains (self : FArraySortedDictionary α β) (key : α) : Bool :=
  (self.findKey cmp key).isSome

def getPredecessorKey (self : FArraySortedDictionary α β) (key : α)
    : Except NSException (Option α) :=
  match self.findKey cmp key with
  | none => .error .noPredecessor
  | some pos => if pos = 0 then .ok none else .ok self.keys[pos - 1]?

def enumerate {σ : Type} (block : α → β → σ → Bool × σ) : List (α × β) → σ → σ
  | [], s => s
  | (key, value) :: entries, s =>
    let (stop, s) := block key value s
    if stop then s else enumerate block entries s

def enumerateKeysAndObjectsReverse {σ : Type} (self : FArraySortedDictionary α β) (reverse : Bool)
    (block : α → β → σ → Bool × σ) (s : σ) : σ :=
  if reverse then
    enumerate block (self.keys.zip self.values).reverse s
  else
    enumerate block (self.keys.zip self.values) s

def keyEnumerator (self : FArraySortedDictionary α β) : FArraySortedDictionaryEnumerator α where
  keys := self.keys
  pos := 0
  reverse := false

def keyEnumeratorFrom (self : FArraySortedDictionary α β) (startKey : α)
    : FArraySortedDictionaryEnumerator α where
  keys := self.keys
  pos := self.findInsertPositionForKey cmp startKey
  reverse := false

def reverseKeyEnumerator (self : FArraySortedDictionary α β)
    : FArraySortedDictionaryEnumerator α where
  keys := self.keys
  pos := self.keys.length - 1
  reverse := true

def reverseKeyEnumeratorFrom (self : FArraySortedDictionary α β) (startKey : α)
    : FArraySortedDictionaryEnumerator α :=
  let startPos := self.findInsertPositionForKey cmp startKey
  let isSame : Bool := match self.keys[startPos]? with
    | some key => cmp key startKey == .eq
    | none => false
  { keys := self.keys, pos := if isSame then startPos else startPos - 1, reverse := true }

end FArraySortedDictionary

inductive FKeyEnumerator (α β : Type) where
  | array (self : FArraySortedDictionaryEnumerator α)
  | tree (self : FTreeSortedDictionaryEnumerator α β)

namespace FKeyEnumerator

variable {α β : Type}

def nextObject : FKeyEnumerator α β → Option α × FKeyEnumerator α β
  | .array self => (self.nextObject.1, .array self.nextObject.2)
  | .tree self => (self.nextObject.1, .tree self.nextObject.2)

def answers : (calls : Nat) → FKeyEnumerator α β → List (Option α)
  | 0, _ => []
  | calls + 1, self => self.nextObject.1 :: answers calls self.nextObject.2

end FKeyEnumerator

namespace FImmutableSortedDictionary

variable {α β : Type} (cmp : α → α → Ordering)

def fromDictionary (dictionary : List (α × β))
    : Except NSException (FImmutableSortedDictionary α β) :=
  if dictionary.length ≤ SORTED_DICTIONARY_ARRAY_TO_RB_TREE_SIZE_THRESHOLD then
    return .array (← FArraySortedDictionary.fromDictionary cmp dictionary)
  else
    return .tree (← FTreeSortedDictionary.fromDictionary cmp dictionary)

def insertKey (self : FImmutableSortedDictionary α β) (aKey : α) (aValue : β)
    : Except NSException (FImmutableSortedDictionary α β) :=
  match self with
  | .array self => self.insertKey cmp aKey aValue
  | .tree self => .ok (.tree (self.insertKey cmp aKey aValue))

def removeKey (self : FImmutableSortedDictionary α β) (aKey : α) : FImmutableSortedDictionary α β :=
  match self with
  | .array self => .array (self.removeKey cmp aKey)
  | .tree self => .tree (self.removeKey cmp aKey)

def get (self : FImmutableSortedDictionary α β) (key : α) : Option β :=
  match self with
  | .array self => self.get cmp key
  | .tree self => self.get cmp key

def contains (self : FImmutableSortedDictionary α β) (key : α) : Bool :=
  match self with
  | .array self => self.contains cmp key
  | .tree self => self.contains cmp key

def getPredecessorKey (self : FImmutableSortedDictionary α β) (key : α)
    : Except NSException (Option α) :=
  match self with
  | .array self => self.getPredecessorKey cmp key
  | .tree self => self.getPredecessorKey cmp key

def count : FImmutableSortedDictionary α β → Nat
  | .array self => self.count
  | .tree self => self.count

def enumerateKeysAndObjectsReverse {σ : Type} (self : FImmutableSortedDictionary α β)
    (reverse : Bool) (block : α → β → σ → Bool × σ) (s : σ) : σ :=
  match self with
  | .array self => self.enumerateKeysAndObjectsReverse reverse block s
  | .tree self => self.enumerateKeysAndObjectsReverse reverse block s

def keyEnumerator : FImmutableSortedDictionary α β → FKeyEnumerator α β
  | .array self => .array self.keyEnumerator
  | .tree self => .tree (.new cmp self none false)

def keyEnumeratorFrom (self : FImmutableSortedDictionary α β) (startKey : α) : FKeyEnumerator α β :=
  match self with
  | .array self => .array (self.keyEnumeratorFrom cmp startKey)
  | .tree self => .tree (.new cmp self (some startKey) false)

def reverseKeyEnumerator : FImmutableSortedDictionary α β → FKeyEnumerator α β
  | .array self => .array self.reverseKeyEnumerator
  | .tree self => .tree (.new cmp self none true)

def reverseKeyEnumeratorFrom (self : FImmutableSortedDictionary α β) (startKey : α)
    : FKeyEnumerator α β :=
  match self with
  | .array self => .array (self.reverseKeyEnumeratorFrom cmp startKey)
  | .tree self => .tree (.new cmp self (some startKey) true)

def isTree : FImmutableSortedDictionary α β → Bool
  | .array _ => false
  | .tree _ => true

inductive Update (α β : Type) where
  | insert (key : α) (value : β)
  | remove (key : α)
  deriving DecidableEq, Repr

def apply (self : FImmutableSortedDictionary α β)
    : Update α β → Except NSException (FImmutableSortedDictionary α β)
  | .insert key value => self.insertKey cmp key value
  | .remove key => .ok (self.removeKey cmp key)

def applyAll (self : FImmutableSortedDictionary α β)
    : List (Update α β) → Except NSException (FImmutableSortedDictionary α β)
  | [] => .ok self
  | update :: updates => do applyAll (← self.apply cmp update) updates

def run (dictionary : List (α × β)) (updates : List (Update α β))
    : Except NSException (FImmutableSortedDictionary α β) := do
  applyAll cmp (← fromDictionary cmp dictionary) updates

def allEntries (self : FImmutableSortedDictionary α β) : List (α × β) :=
  self.enumerateKeysAndObjectsReverse false (fun key value seen => (false, seen ++ [(key, value)])) []

end FImmutableSortedDictionary
