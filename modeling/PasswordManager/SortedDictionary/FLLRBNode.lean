import PasswordManager.SortedEntries.Basic
import Mathlib.Algebra.Ring.Nat

/-!
This module contains the nodes of the left-leaning red-black trees.
-/

inductive FLLRBColor where
  | red
  | black
  deriving DecidableEq, Repr

-- `[NSNumber numberWithBool:![color boolValue]]`
def FLLRBColor.flip : FLLRBColor → FLLRBColor
  | .red => .black
  | .black => .red

inductive FLLRBNode (α β : Type) where
  | empty
  | node (key : α) (value : β) (color : FLLRBColor) (left right : FLLRBNode α β)
  deriving DecidableEq, Repr

namespace FLLRBNode

variable {α β : Type}

-- The empty node has no color: `[nil boolValue]` is `NO`, which is black.
def color : FLLRBNode α β → FLLRBColor
  | .empty => .black
  | .node _ _ color _ _ => color

-- A `nil` and the empty node answer `isRed` and what follows it the same.
def left : FLLRBNode α β → FLLRBNode α β
  | .empty => .empty
  | .node _ _ _ left _ => left

def right : FLLRBNode α β → FLLRBNode α β
  | .empty => .empty
  | .node _ _ _ _ right => right

def isEmpty : FLLRBNode α β → Bool
  | .empty => true
  | .node _ _ _ _ _ => false

def isRed (self : FLLRBNode α β) : Bool :=
  self.color = .red

def withColor (self : FLLRBNode α β) (color : FLLRBColor) : FLLRBNode α β :=
  match self with
  | .empty => .empty
  | .node key value _ left right => .node key value color left right

def withLeft (self left : FLLRBNode α β) : FLLRBNode α β :=
  match self with
  | .empty => .empty
  | .node key value color _ right => .node key value color left right

def withRight (self right : FLLRBNode α β) : FLLRBNode α β :=
  match self with
  | .empty => .empty
  | .node key value color left _ => .node key value color left right

section Node

variable (key : α) (value : β) (c new : FLLRBColor) (l r other : FLLRBNode α β)

@[simp]
theorem left_node : (node key value c l r).left = l := rfl

@[simp]
theorem right_node : (node key value c l r).right = r := rfl

@[simp]
theorem color_node : (node key value c l r).color = c := rfl

@[simp]
theorem withColor_node : (node key value c l r).withColor new = node key value new l r := rfl

@[simp]
theorem withLeft_node : (node key value c l r).withLeft other = node key value c other r := rfl

@[simp]
theorem withRight_node : (node key value c l r).withRight other = node key value c l other := rfl

@[simp]
theorem isRed_red : (node key value .red l r).isRed = true := rfl

@[simp]
theorem isRed_black : (node key value .black l r).isRed = false := rfl

@[simp]
theorem isEmpty_node : (node key value c l r).isEmpty = false := rfl

@[simp]
theorem isEmpty_empty : (empty : FLLRBNode α β).isEmpty = true := rfl

@[simp]
theorem left_empty : (empty : FLLRBNode α β).left = empty := rfl

@[simp]
theorem isRed_empty : (empty : FLLRBNode α β).isRed = false := rfl

@[simp]
theorem flip_red : FLLRBColor.flip .red = .black := rfl

@[simp]
theorem flip_black : FLLRBColor.flip .black = .red := rfl

end Node

def count : FLLRBNode α β → Nat
  | .empty => 0
  | .node _ _ _ left right => left.count + 1 + right.count

def inorderTraversal {σ : Type} (action : α → β → σ → Bool × σ) : FLLRBNode α β → σ → Bool × σ
  | .empty, s => (false, s)
  | .node key value _ left right, s =>
    let (stop, s) := left.inorderTraversal action s
    if stop then
      (true, s)
    else
      let (stop, s) := action key value s
      if stop then
        (true, s)
      else
        right.inorderTraversal action s

def reverseTraversal {σ : Type} (action : α → β → σ → Bool × σ) : FLLRBNode α β → σ → Bool × σ
  | .empty, s => (false, s)
  | .node key value _ left right, s =>
    let (stop, s) := right.reverseTraversal action s
    if stop then
      (true, s)
    else
      let (stop, s) := action key value s
      if stop then
        (true, s)
      else
        left.reverseTraversal action s

def min : FLLRBNode α β → Option (α × β)
  | .empty => none
  | .node key value _ left _ => if left.isEmpty then some (key, value) else left.min

def maxKey : FLLRBNode α β → Option α
  | .empty => none
  | .node key _ _ _ right => if right.isEmpty then some key else right.maxKey

def rotateLeft (self : FLLRBNode α β) : FLLRBNode α β :=
  let nl := (self.withColor .red).withRight self.right.left
  (self.right.withColor self.color).withLeft nl

def rotateRight (self : FLLRBNode α β) : FLLRBNode α β :=
  let nr := (self.withColor .red).withLeft self.left.right
  (self.left.withColor self.color).withRight nr

def colorFlip (self : FLLRBNode α β) : FLLRBNode α β :=
  let nleft := self.left.withColor self.left.color.flip
  let nright := self.right.withColor self.right.color.flip
  ((self.withColor self.color.flip).withLeft nleft).withRight nright

def fixUp (self : FLLRBNode α β) : FLLRBNode α β :=
  let n := self
  let n := if n.right.isRed && !n.left.isRed then n.rotateLeft else n
  let n := if n.left.isRed && n.left.left.isRed then n.rotateRight else n
  let n := if n.left.isRed && n.right.isRed then n.colorFlip else n
  n

def moveRedLeft (self : FLLRBNode α β) : FLLRBNode α β :=
  let n := self.colorFlip
  if n.right.left.isRed then
    let n := n.withRight n.right.rotateRight
    let n := n.rotateLeft
    n.colorFlip
  else
    n

def moveRedRight (self : FLLRBNode α β) : FLLRBNode α β :=
  let n := self.colorFlip
  if n.left.left.isRed then
    let n := n.rotateRight
    n.colorFlip
  else
    n

section Count

theorem count_left_le (self : FLLRBNode α β) : self.left.count ≤ self.count - 1 := by
  cases self with
  | empty => simp [left, count]
  | node key value color l r =>
    simp only [left, count]
    omega

theorem count_withColor (self : FLLRBNode α β) (color : FLLRBColor)
    : (self.withColor color).count = self.count := by
  cases self with
  | empty => rfl
  | node key value color l r => rfl

theorem count_rotateLeft_le (self : FLLRBNode α β) : self.rotateLeft.count ≤ self.count := by
  cases self with
  | empty => simp [rotateLeft, right, withColor, withLeft, count]
  | node key value c l r =>
    cases r with
    | empty => simp [rotateLeft, right, withColor, withLeft, count]
    | node rkey rvalue rc rl rr =>
      simp only [rotateLeft, right, left, withColor, withLeft, withRight, count]
      omega

theorem count_rotateRight_le (self : FLLRBNode α β) : self.rotateRight.count ≤ self.count := by
  cases self with
  | empty => simp [rotateRight, left, withColor, withRight, count]
  | node key value c l r =>
    cases l with
    | empty => simp [rotateRight, left, withColor, withRight, count]
    | node lkey lvalue lc ll lr =>
      simp only [rotateRight, right, left, withColor, withLeft, withRight, count]
      omega

theorem count_colorFlip (self : FLLRBNode α β) : self.colorFlip.count = self.count := by
  cases self with
  | empty => rfl
  | node key value c l r =>
    change (l.withColor l.color.flip).count + 1 + (r.withColor r.color.flip).count = _
    rw [count_withColor, count_withColor]
    rfl

theorem count_fixUp_le (self : FLLRBNode α β) : self.fixUp.count ≤ self.count := by
  have hrotateLeft : (if self.right.isRed && !self.left.isRed then self.rotateLeft else self).count
      ≤ self.count := by
    split
    . apply count_rotateLeft_le
    . omega
  have hrotateRight : ∀ n : FLLRBNode α β,
      (if n.left.isRed && n.left.left.isRed then n.rotateRight else n).count ≤ n.count := by
    intro n
    split
    . apply count_rotateRight_le
    . omega
  have hcolorFlip : ∀ n : FLLRBNode α β,
      (if n.left.isRed && n.right.isRed then n.colorFlip else n).count ≤ n.count := by
    intro n
    split
    . apply Nat.le_of_eq
      apply count_colorFlip
    . omega
  exact Nat.le_trans (hcolorFlip _) (Nat.le_trans (hrotateRight _) hrotateLeft)

theorem count_withRight_le (self : FLLRBNode α β) {r : FLLRBNode α β}
    (h : r.count ≤ self.right.count)
    : (self.withRight r).count ≤ self.count := by
  cases self with
  | empty => simp [withRight, count]
  | node key value c l old =>
    simp only [right] at h
    simp only [withRight, count]
    omega

theorem count_withLeft_le (self : FLLRBNode α β) {l : FLLRBNode α β}
    (h : l.count ≤ self.left.count)
    : (self.withLeft l).count ≤ self.count := by
  cases self with
  | empty => simp [withLeft, count]
  | node key value c old r =>
    simp only [left] at h
    simp only [withLeft, count]
    omega

theorem count_moveRedLeft_le (self : FLLRBNode α β) : self.moveRedLeft.count ≤ self.count := by
  unfold moveRedLeft
  dsimp only
  split
  . have hright := count_withRight_le self.colorFlip (count_rotateRight_le self.colorFlip.right)
    have hleft := count_rotateLeft_le (self.colorFlip.withRight self.colorFlip.right.rotateRight)
    rw [count_colorFlip] at hright
    rw [count_colorFlip]
    omega
  . apply Nat.le_of_eq
    apply count_colorFlip

theorem count_moveRedRight_le (self : FLLRBNode α β) : self.moveRedRight.count ≤ self.count := by
  unfold moveRedRight
  dsimp only
  split
  . have hrotate := count_rotateRight_le self.colorFlip
    rw [count_colorFlip] at hrotate
    rw [count_colorFlip]
    exact hrotate
  . apply Nat.le_of_eq
    apply count_colorFlip

theorem count_pos_of_not_isEmpty {self : FLLRBNode α β} (h : self.isEmpty = false)
    : 0 < self.count := by
  cases self with
  | empty => cases h
  | node key value c l r =>
    simp only [count]
    omega

end Count

-- `removeMin` is not there for the empty node, and never called on it.
def removeMin (self : FLLRBNode α β) : FLLRBNode α β :=
  if _h : self.left.isEmpty then
    .empty
  else
    let n := if !self.left.isRed && !self.left.left.isRed then self.moveRedLeft else self
    (n.withLeft n.left.removeMin).fixUp
termination_by self.count
decreasing_by
  have hle : (if !self.left.isRed && !self.left.left.isRed then self.moveRedLeft else self).count
      ≤ self.count := by
    split
    . apply count_moveRedLeft_le
    . omega
  have hpos := count_pos_of_not_isEmpty (Bool.not_eq_true _ ▸ _h)
  have hself := count_left_le self
  have hleft := count_left_le
    (if !self.left.isRed && !self.left.left.isRed then self.moveRedLeft else self)
  simp only [dite_eq_ite] at *
  omega

theorem count_removeMin_le (self : FLLRBNode α β) : self.removeMin.count ≤ self.count := by
  fun_induction removeMin self with
  | case1 self h => simp [count]
  | case2 self h n ih =>
    have hn : n.count ≤ self.count := by
      dsimp only [n]
      split
      . apply count_moveRedLeft_le
      . omega
    have hfixUp := count_fixUp_le (n.withLeft n.left.removeMin)
    have hleft := count_withLeft_le n ih
    omega

def insertKey (cmp : α → α → Ordering) (aKey : α) (aValue : β) : FLLRBNode α β → FLLRBNode α β
  | .empty => .node aKey aValue .red .empty .empty
  | .node key value color left right =>
    match cmp aKey key with
    | .lt => fixUp (.node key value color (left.insertKey cmp aKey aValue) right)
    | .eq => fixUp (.node key aValue color left right)
    | .gt => fixUp (.node key value color left (right.insertKey cmp aKey aValue))

def readyLeft (self : FLLRBNode α β) : FLLRBNode α β :=
  if !self.left.isEmpty && !self.left.isRed && !self.left.left.isRed then self.moveRedLeft else self

def readyRight (self : FLLRBNode α β) : FLLRBNode α β :=
  let n := if self.left.isRed then self.rotateRight else self
  if !n.right.isEmpty && !n.right.isRed && !n.right.left.isRed then n.moveRedRight else n

theorem count_readyLeft_le (self : FLLRBNode α β) : self.readyLeft.count ≤ self.count := by
  unfold readyLeft
  split
  . apply count_moveRedLeft_le
  . omega

theorem count_readyRight_le (self : FLLRBNode α β) : self.readyRight.count ≤ self.count := by
  have hrotate : (if self.left.isRed then self.rotateRight else self).count ≤ self.count := by
    split
    . apply count_rotateRight_le
    . omega
  have hmove : ∀ n : FLLRBNode α β,
      (if !n.right.isEmpty && !n.right.isRed && !n.right.left.isRed then n.moveRedRight else n).count
        ≤ n.count := by
    intro n
    split
    . apply count_moveRedRight_le
    . omega
  exact Nat.le_trans (hmove _) hrotate

-- The key is looked for once more below the entry that has taken its place.
def remove (cmp : α → α → Ordering) (aKey : α) (self : FLLRBNode α β) : FLLRBNode α β :=
  match self with
  | .empty => .empty
  | .node key value color left right =>
    if cmp aKey key = .lt then
      let n := (FLLRBNode.node key value color left right).readyLeft
      (n.withLeft (n.left.remove cmp aKey)).fixUp
    else
      match _hn : (FLLRBNode.node key value color left right).readyRight with
      | .empty => .empty
      | .node key value color left right =>
        if cmp aKey key = .eq then
          match right.min with
          | none => .empty
          | some smallest =>
            fixUp (.node smallest.1 smallest.2 color left (right.removeMin.remove cmp aKey))
        else
          fixUp (.node key value color left (right.remove cmp aKey))
termination_by self.count
decreasing_by
  . have hready := count_readyLeft_le (FLLRBNode.node key value color left right)
    have hleft := count_left_le (FLLRBNode.node key value color left right).readyLeft
    simp only [count] at hready ⊢
    omega
  . have hready := Nat.le_trans (Nat.le_of_eq (congrArg count _hn.symm)) (count_readyRight_le _)
    have hremoveMin := count_removeMin_le right
    simp only [count] at hready ⊢
    omega
  . have hready := Nat.le_trans (Nat.le_of_eq (congrArg count _hn.symm)) (count_readyRight_le _)
    simp only [count] at hready ⊢
    omega

inductive CheckFailure where
  | redChild
  | rightChildRed
  | blackDepth (left right : Nat)
  deriving DecidableEq, Repr

def check : FLLRBNode α β → Except CheckFailure Nat
  | .empty => .ok 0
  | .node _ _ color left right =>
    if color = .red && left.isRed then
      .error .redChild
    else if right.isRed then
      .error .rightChildRed
    else do
      let blackDepth ← left.check
      let other ← right.check
      if blackDepth ≠ other then
        .error (.blackDepth blackDepth other)
      else
        .ok (blackDepth + if color = .red then 0 else 1)

-- `pow(2.0, blackDepth) <= ([self count] + 1)`
def checkMaxDepth (self : FLLRBNode α β) : Except CheckFailure Bool := do
  let blackDepth ← self.check
  return 2 ^ blackDepth ≤ self.count + 1

end FLLRBNode
