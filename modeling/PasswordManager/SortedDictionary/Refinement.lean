import PasswordManager.SortedDictionary.Builder
import PasswordManager.SortedDictionary.FImmutableSortedDictionary

/-!
This module contains what the two kinds of dictionaries have in common: each stands for a sorted
list of entries, and its operations are those of the list.
-/

open Std SortedEntries

variable {α β : Type} {cmp : α → α → Ordering}

namespace FTreeSortedDictionary

structure Represents (d : FTreeSortedDictionary α β) (entries : List (α × β)) : Prop where
  toList : d.root.toList = entries
  balanced : ∃ n, FLLRBNode.Balanced .black n d.root

variable [TransCmp cmp] {self : FTreeSortedDictionary α β} {entries : List (α × β)}

theorem get_loop_eq (key : α) {node : FLLRBNode α β} (h : Sorted cmp node.toList)
    : get.loop cmp key node = lookup cmp key node.toList := by
  induction node with
  | empty => rfl
  | node nodeKey value c l r ihl ihr =>
    have hparts := sorted_node_iff.mp h
    rw [FLLRBNode.toList_node] at h ⊢
    unfold get.loop
    split
    . next heq =>
      have hnotLt : cmp key nodeKey ≠ .lt := by simp [heq]
      have hfront := gt_front_of_not_lt h hnotLt
      rw [lookup_append_right, lookup_cons_of_eq heq]
      intro entry hentry
      simp [hfront entry hentry]
    . next hlt =>
      have hback := lt_back_of_lt h hlt
      rw [ihl hparts.left, lookup_append_left]
      intro entry hentry
      simp [hback entry hentry]
    . next hgt =>
      have hnotLt : cmp key nodeKey ≠ .lt := by simp [hgt]
      have hfront := gt_front_of_not_lt h hnotLt
      rw [ihr hparts.right.left, lookup_append_right]
      . simp [lookup, hgt]
      . intro entry hentry
        simp [hfront entry hentry]

theorem get_eq (h : self.Represents entries) (hsorted : Sorted cmp entries) (key : α)
    : self.get cmp key = lookup cmp key entries := by
  rw [← h.toList] at hsorted ⊢
  exact get_loop_eq key hsorted

theorem represents_insertKey (h : self.Represents entries) (hsorted : Sorted cmp entries)
    (key : α) (value : β)
    : (self.insertKey cmp key value).Represents
        (insertAs cmp (storedKey cmp key entries) key value entries) := by
  cases h.balanced with
  | intro n hbalanced =>
    have htoList := h.toList
    subst htoList
    constructor
    . rw [insertKey, FLLRBNode.toList_withColor, FLLRBNode.toList_insertKey key value hsorted]
    . exact FLLRBNode.insertKey_withColor_black cmp key value hbalanced

theorem erase_eq_self_of_lookup {key : α} (hsorted : Sorted cmp entries)
    (h : lookup cmp key entries = none)
    : erase cmp key entries = entries := by
  apply erase_of_ne
  intro entry hentry heq
  have hsome := (lookup_eq_some_iff hsorted entry.2).mpr ⟨entry, hentry, heq, rfl⟩
  rw [h] at hsome
  cases hsome

theorem represents_removeKey (h : self.Represents entries) (hsorted : Sorted cmp entries) (key : α)
    : (self.removeKey cmp key).Represents (erase cmp key entries) := by
  unfold removeKey contains
  rw [get_eq h hsorted]
  cases hlookup : lookup cmp key entries with
  | none =>
    simp only [Option.isSome_none, Bool.not_false, ↓reduceIte]
    rw [erase_eq_self_of_lookup hsorted hlookup]
    exact h
  | some value =>
    simp only [Option.isSome_some, Bool.not_true, Bool.false_eq_true, ↓reduceIte]
    cases h.balanced with
    | intro n hbalanced =>
      have htoList := h.toList
      subst htoList
      have hremove := FLLRBNode.remove_withColor_black key hsorted hbalanced
      constructor
      . rw [FLLRBNode.toList_withColor]
        exact hremove.left
      . exact hremove.right

end FTreeSortedDictionary

namespace FArraySortedDictionary

structure Represents (d : FArraySortedDictionary α β) (entries : List (α × β)) : Prop where
  keys : d.keys = entries.map Prod.fst
  values : d.values = entries.map Prod.snd

variable {self : FArraySortedDictionary α β} {entries : List (α × β)}

theorem Represents.zip (h : self.Represents entries) : self.keys.zip self.values = entries := by
  rw [h.keys, h.values]
  exact (List.zip_of_prod rfl rfl).symm

theorem Represents.parts (h : self.Represents entries) {front back : List (α × β)} {entry : α × β}
    (hsplit : entries = front ++ entry :: back)
    : self.keys = front.map Prod.fst ++ entry.1 :: back.map Prod.fst
        ∧ self.values = front.map Prod.snd ++ entry.2 :: back.map Prod.snd := by
  rw [h.keys, h.values, hsplit]
  simp

theorem findInsertPosition_loop_eq [TransCmp cmp] {key : α} {front back : List (α × β)}
    (hfront : ∀ entry ∈ front, cmp key entry.1 = .gt) (hback : ∀ entry ∈ back, cmp key entry.1 ≠ .gt)
    (newPos : Nat)
    : findInsertPositionForKey.loop cmp key ((front ++ back).map Prod.fst) newPos
        =
      newPos + front.length := by
  induction front generalizing newPos with
  | nil =>
    cases back with
    | nil => rfl
    | cons entry back =>
      have hnotLt : cmp entry.1 key ≠ .lt := by
        intro hlt
        exact hback entry List.mem_cons_self (OrientedCmp.gt_of_lt hlt)
      simp [findInsertPositionForKey.loop, hnotLt]
  | cons entry front ih =>
    have hlt : cmp entry.1 key = .lt := OrientedCmp.lt_of_gt (hfront entry List.mem_cons_self)
    have hrest : ∀ entry ∈ front, cmp key entry.1 = .gt := by
      intro other hother
      exact hfront other (List.mem_cons_of_mem _ hother)
    simp only [List.cons_append, List.map_cons, findInsertPositionForKey.loop, hlt, ↓reduceIte]
    rw [ih hrest, List.length_cons]
    omega

theorem findKey_loop_eq {key : α} {front back : List (α × β)}
    (hfront : ∀ entry ∈ front, cmp key entry.1 = .gt) (hback : ∀ entry ∈ back, cmp key entry.1 = .lt)
    (pos : Nat)
    : findKey.loop cmp key ((front ++ back).map Prod.fst) pos = none := by
  induction front generalizing pos with
  | nil =>
    cases back with
    | nil => rfl
    | cons entry back => simp [findKey.loop, hback entry List.mem_cons_self]
  | cons entry front ih =>
    have hgt := hfront entry List.mem_cons_self
    simp only [List.cons_append, List.map_cons, findKey.loop, hgt]
    apply ih
    intro other hother
    exact hfront other (List.mem_cons_of_mem _ hother)

theorem findKey_loop_eq_some {key : α} {front back : List (α × β)} {entry : α × β}
    (hfront : ∀ entry ∈ front, cmp key entry.1 = .gt) (heq : cmp key entry.1 = .eq) (pos : Nat)
    : findKey.loop cmp key ((front ++ entry :: back).map Prod.fst) pos
        =
      some (pos + front.length) := by
  induction front generalizing pos with
  | nil => simp [findKey.loop, heq]
  | cons other front ih =>
    have hgt := hfront other List.mem_cons_self
    have hrest : ∀ entry ∈ front, cmp key entry.1 = .gt := by
      intro another hanother
      exact hfront another (List.mem_cons_of_mem _ hanother)
    simp only [List.cons_append, List.map_cons, findKey.loop, hgt]
    rw [ih hrest, List.length_cons]
    congr 1
    omega

section Split

variable {key : α}

theorem findKey_of_absent (h : self.Represents entries)
    (hsplit : entries = below cmp key entries ++ above cmp key entries)
    : self.findKey cmp key = none := by
  unfold findKey
  rw [h.keys, hsplit]
  exact findKey_loop_eq below_gt above_lt 0

theorem findKey_of_present (h : self.Represents entries) {entry : α × β}
    (heq : cmp key entry.1 = .eq)
    (hsplit : entries = below cmp key entries ++ entry :: above cmp key entries)
    : self.findKey cmp key = some (below cmp key entries).length := by
  have hbelow : ∀ entry ∈ below cmp key entries, cmp key entry.1 = .gt := below_gt
  have hkeys := (h.parts hsplit).left
  have hfound : findKey.loop cmp key self.keys 0 = some (0 + (below cmp key entries).length) := by
    rw [hkeys, ← List.map_cons, ← List.map_append]
    exact findKey_loop_eq_some hbelow heq 0
  unfold findKey
  rw [hfound, Nat.zero_add]

end Split

theorem length_insertIdx {γ : Type} (front back : List γ) (a : γ)
    : (front ++ back).insertIdx front.length a = front ++ a :: back := by
  induction front with
  | nil => rfl
  | cons b front ih => simp [ih]

variable [TransCmp cmp]

theorem findInsertPosition_eq (h : self.Represents entries) (hsorted : Sorted cmp entries) (key : α)
    : self.findInsertPositionForKey cmp key = (below cmp key entries).length := by
  unfold findInsertPositionForKey
  rw [h.keys]
  cases sorted_split hsorted key with
  | inl hsplit =>
    conv_lhs => rw [hsplit.right]
    rw [findInsertPosition_loop_eq below_gt, Nat.zero_add]
    intro entry hentry
    simp [above_lt entry hentry]
  | inr hsplit =>
    obtain ⟨found, hfound, hsplit⟩ := hsplit
    conv_lhs => rw [hsplit]
    rw [findInsertPosition_loop_eq below_gt, Nat.zero_add]
    intro entry hentry
    cases List.mem_cons.mp hentry with
    | inl heq => simp [heq, hfound]
    | inr hentry => simp [above_lt entry hentry]

theorem get_eq (h : self.Represents entries) (hsorted : Sorted cmp entries) (key : α)
    : self.get cmp key = lookup cmp key entries := by
  unfold get
  cases sorted_split hsorted key with
  | inl hsplit => rw [findKey_of_absent h hsplit.right, hsplit.left]
  | inr hsplit =>
    obtain ⟨found, hfound, hsplit⟩ := hsplit
    have hlookup : lookup cmp key entries = some found.2 := by
      rw [lookup_eq_some_iff hsorted]
      refine ⟨found, ?_, hfound, rfl⟩
      rw [hsplit]
      simp
    rw [findKey_of_present h hfound hsplit, hlookup]
    dsimp only
    rw [(h.parts hsplit).right]
    simp

theorem contains_eq (h : self.Represents entries) (hsorted : Sorted cmp entries) (key : α)
    : self.contains cmp key = (lookup cmp key entries).isSome := by
  unfold contains
  cases sorted_split hsorted key with
  | inl hsplit =>
    rw [findKey_of_absent h hsplit.right, hsplit.left]
    rfl
  | inr hsplit =>
    obtain ⟨found, hfound, hsplit⟩ := hsplit
    have hlookup : lookup cmp key entries = some found.2 := by
      rw [lookup_eq_some_iff hsorted]
      refine ⟨found, ?_, hfound, rfl⟩
      rw [hsplit]
      simp
    rw [findKey_of_present h hfound hsplit, hlookup]
    rfl

theorem represents_removeKey (h : self.Represents entries) (hsorted : Sorted cmp entries) (key : α)
    : (self.removeKey cmp key).Represents (erase cmp key entries) := by
  unfold removeKey
  have hbelow : erase cmp key (below cmp key entries) = below cmp key entries := by
    apply erase_of_ne
    intro entry hentry
    simp [below_gt entry hentry]
  have habove : erase cmp key (above cmp key entries) = above cmp key entries := by
    apply erase_of_ne
    intro entry hentry
    simp [above_lt entry hentry]
  cases sorted_split hsorted key with
  | inl hsplit =>
    rw [findKey_of_absent h hsplit.right]
    have herase : erase cmp key entries = entries := by
      conv_lhs => rw [hsplit.right]
      rw [erase_append, hbelow, habove, ← hsplit.right]
    rw [herase]
    exact h
  | inr hsplit =>
    obtain ⟨found, hfound, hsplit⟩ := hsplit
    rw [findKey_of_present h hfound hsplit]
    have herase : erase cmp key entries = below cmp key entries ++ above cmp key entries := by
      have hrest : erase cmp key (found :: above cmp key entries) = above cmp key entries := by
        conv_rhs => rw [← habove]
        simp [erase, hfound]
      conv_lhs => rw [hsplit]
      rw [erase_append, hbelow, hrest]
    rw [herase]
    constructor
    . rw [(h.parts hsplit).left, List.map_append]
      simp [List.eraseIdx_append_of_length_le]
    . rw [(h.parts hsplit).right, List.map_append]
      simp [List.eraseIdx_append_of_length_le]

end FArraySortedDictionary
