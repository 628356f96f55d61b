import PasswordManager.SortedDictionary.FLLRBNode

/-!
This module contains the entries of a tree from left to right, which neither the rotations nor the
change of colors touch, and what an insertion does to them.
-/

namespace FLLRBNode

open Std SortedEntries

variable {α β : Type}

def toList : FLLRBNode α β → List (α × β)
  | .empty => []
  | .node key value _ left right => left.toList ++ (key, value) :: right.toList

@[simp]
theorem toList_empty : (empty : FLLRBNode α β).toList = [] := rfl

@[simp]
theorem toList_node (key : α) (value : β) (c : FLLRBColor) (l r : FLLRBNode α β)
    : (node key value c l r).toList = l.toList ++ (key, value) :: r.toList := rfl

@[simp]
theorem toList_withColor (self : FLLRBNode α β) (c : FLLRBColor)
    : (self.withColor c).toList = self.toList := by
  cases self with
  | empty => rfl
  | node key value old l r => rfl

@[simp]
theorem length_toList (self : FLLRBNode α β) : self.toList.length = self.count := by
  induction self with
  | empty => rfl
  | node key value c l r ihl ihr =>
    simp only [toList_node, List.length_append, List.length_cons, count, ihl, ihr]
    omega

theorem toList_eq_nil_iff (self : FLLRBNode α β) : self.toList = [] ↔ self = .empty := by
  cases self with
  | empty => simp
  | node key value c l r => simp

theorem exists_node_of_isRed {self : FLLRBNode α β} (h : self.isRed = true)
    : ∃ key value l r, self = .node key value .red l r := by
  cases self with
  | empty => simp at h
  | node key value c l r =>
    cases c with
    | red => exact ⟨key, value, l, r, rfl⟩
    | black => simp at h

theorem toList_colorFlip (self : FLLRBNode α β) : self.colorFlip.toList = self.toList := by
  cases self with
  | empty => rfl
  | node key value c l r => simp [colorFlip]

theorem toList_rotateLeft {self : FLLRBNode α β} (h : self.right.isRed = true)
    : self.rotateLeft.toList = self.toList := by
  cases self with
  | empty => rfl
  | node key value c l r =>
    obtain ⟨rkey, rvalue, rl, rr, rfl⟩ := exists_node_of_isRed h
    simp [rotateLeft]

theorem toList_rotateRight {self : FLLRBNode α β} (h : self.left.isRed = true)
    : self.rotateRight.toList = self.toList := by
  cases self with
  | empty => rfl
  | node key value c l r =>
    obtain ⟨lkey, lvalue, ll, lr, rfl⟩ := exists_node_of_isRed h
    simp [rotateRight]

@[simp]
theorem toList_fixUp (self : FLLRBNode α β) : self.fixUp.toList = self.toList := by
  have hrotateLeft : (if self.right.isRed && !self.left.isRed then self.rotateLeft else self).toList
      =
    self.toList := by
    split
    . next h =>
      rw [Bool.and_eq_true] at h
      exact toList_rotateLeft h.left
    . rfl
  have hrotateRight : ∀ n : FLLRBNode α β,
      (if n.left.isRed && n.left.left.isRed then n.rotateRight else n).toList = n.toList := by
    intro n
    split
    . next h =>
      rw [Bool.and_eq_true] at h
      exact toList_rotateRight h.left
    . rfl
  have hcolorFlip : ∀ n : FLLRBNode α β,
      (if n.left.isRed && n.right.isRed then n.colorFlip else n).toList = n.toList := by
    intro n
    split
    . exact toList_colorFlip n
    . rfl
  exact (hcolorFlip _).trans ((hrotateRight _).trans hrotateLeft)

variable {cmp : α → α → Ordering} [TransCmp cmp]

theorem toList_insertKey (aKey : α) (aValue : β) {self : FLLRBNode α β}
    (h : Sorted cmp self.toList)
    : (self.insertKey cmp aKey aValue).toList
        =
      insertAs cmp (storedKey cmp aKey self.toList) aKey aValue self.toList := by
  induction self with
  | empty => rfl
  | node key value c l r ihl ihr =>
    have hparts := sorted_node_iff.mp h
    simp only [toList_node] at h ⊢
    unfold insertKey
    split
    . next hlt =>
      have hback := lt_back_of_lt h hlt
      have hne : ∀ entry ∈ (key, value) :: r.toList, cmp aKey entry.1 ≠ .eq := by
        intro entry hentry
        simp [hback entry hentry]
      rw [insertAs_append_left hback, storedKey_append_left hne]
      simp [ihl hparts.left]
    . next heq =>
      have hnotLt : cmp aKey key ≠ .lt := by simp [heq]
      have hfront := gt_front_of_not_lt h hnotLt
      have hback := lt_back_of_eq h heq
      have hne : ∀ entry ∈ l.toList, cmp aKey entry.1 ≠ .eq := by
        intro entry hentry
        simp [hfront entry hentry]
      rw [insertAs_append_right hfront, storedKey_append_right hne]
      have hstored : storedKey cmp aKey ((key, value) :: r.toList) = key := by
        simp [storedKey, heq]
      have hinsert : insertAs cmp key aKey aValue ((key, value) :: r.toList)
          =
        (key, aValue) :: r.toList := by
        have hbelow : below cmp aKey r.toList = [] := below_of_lt hback
        have habove : above cmp aKey r.toList = r.toList := above_of_lt hback
        unfold below at hbelow
        unfold above at habove
        simp [insertAs, below, above, heq, hbelow, habove]
      rw [hstored, hinsert]
      simp
    . next hgt =>
      have hnotLt : cmp aKey key ≠ .lt := by simp [hgt]
      have hfront := gt_front_of_not_lt h hnotLt
      have hne : ∀ entry ∈ l.toList ++ [(key, value)], cmp aKey entry.1 ≠ .eq := by
        intro entry hentry
        cases List.mem_append.mp hentry with
        | inl hentry => simp [hfront entry hentry]
        | inr hentry =>
          rw [List.mem_singleton] at hentry
          simp [hentry, hgt]
      have hall : ∀ entry ∈ l.toList ++ [(key, value)], cmp aKey entry.1 = .gt := by
        intro entry hentry
        cases List.mem_append.mp hentry with
        | inl hentry => exact hfront entry hentry
        | inr hentry =>
          rw [List.mem_singleton] at hentry
          rw [hentry]
          exact hgt
      have hsplit : l.toList ++ (key, value) :: r.toList
          =
        (l.toList ++ [(key, value)]) ++ r.toList := by
        simp
      rw [hsplit, insertAs_append_right hall, storedKey_append_right hne, toList_fixUp, toList_node,
        ihr hparts.right.left]
      simp

def visit {σ : Type} (action : α → β → σ → Bool × σ) : List (α × β) → σ → Bool × σ
  | [], s => (false, s)
  | (key, value) :: entries, s =>
    let (stop, s) := action key value s
    if stop then (true, s) else visit action entries s

theorem visit_append {σ : Type} (action : α → β → σ → Bool × σ) (front back : List (α × β)) (s : σ)
    : visit action (front ++ back) s
        =
      let (stop, s) := visit action front s
      if stop then (true, s) else visit action back s := by
  induction front generalizing s with
  | nil => simp [visit]
  | cons entry front ih =>
    simp only [List.cons_append, visit]
    split
    . rfl
    . apply ih

theorem inorderTraversal_eq {σ : Type} (action : α → β → σ → Bool × σ) (self : FLLRBNode α β)
    (s : σ)
    : self.inorderTraversal action s = visit action self.toList s := by
  induction self generalizing s with
  | empty => rfl
  | node key value c l r ihl ihr =>
    rw [toList_node, visit_append]
    simp only [inorderTraversal, visit, ihl, ihr]

theorem reverseTraversal_eq {σ : Type} (action : α → β → σ → Bool × σ) (self : FLLRBNode α β)
    (s : σ)
    : self.reverseTraversal action s = visit action self.toList.reverse s := by
  induction self generalizing s with
  | empty => rfl
  | node key value c l r ihl ihr =>
    rw [toList_node, List.reverse_append, List.reverse_cons, List.append_assoc, visit_append]
    simp only [reverseTraversal, visit, List.singleton_append, ihl, ihr]

theorem min_eq (self : FLLRBNode α β) : self.min = self.toList.head? := by
  induction self with
  | empty => rfl
  | node key value c l r ihl ihr =>
    unfold min
    cases l with
    | empty => rfl
    | node lkey lvalue lc ll lr => simp [ihl]

theorem maxKey_eq (self : FLLRBNode α β) : self.maxKey = self.toList.getLast?.map Prod.fst := by
  induction self with
  | empty => rfl
  | node key value c l r ihl ihr =>
    unfold maxKey
    cases r with
    | empty => simp
    | node rkey rvalue rc rl rr =>
      simp only [isEmpty_node, Bool.false_eq_true, ↓reduceIte, ihr, toList_node]
      simp [List.getLast?_append, List.getLast?_cons]

end FLLRBNode
