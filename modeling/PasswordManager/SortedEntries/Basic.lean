import Mathlib.Data.List.Basic
import Mathlib.Order.Basic

/-!
This module contains lists of entries that are sorted by their keys. The keys are compared by a
comparator that may call two different keys the same.
-/

namespace SortedEntries

open Std

variable {α β : Type} (cmp : α → α → Ordering)

def Sorted (entries : List (α × β)) : Prop :=
  entries.Pairwise (fun before after => cmp before.1 after.1 = .lt)

def lookup (key : α) (entries : List (α × β)) : Option β :=
  (entries.find? (fun entry => cmp key entry.1 = .eq)).map Prod.snd

def below (key : α) (entries : List (α × β)) : List (α × β) :=
  entries.filter (fun entry => cmp key entry.1 = .gt)

def above (key : α) (entries : List (α × β)) : List (α × β) :=
  entries.filter (fun entry => cmp key entry.1 = .lt)

-- `stored` is the key that stands in the new entry, one that compares the same.
def insertAs (stored key : α) (value : β) (entries : List (α × β)) : List (α × β) :=
  below cmp key entries ++ (stored, value) :: above cmp key entries

def erase (key : α) (entries : List (α × β)) : List (α × β) :=
  entries.filter (fun entry => cmp key entry.1 ≠ .eq)

def storedKey (key : α) (entries : List (α × β)) : α :=
  ((entries.find? (fun entry => cmp key entry.1 = .eq)).map Prod.fst).getD key

variable {cmp}

section Append

variable {key : α} {front back : List (α × β)}

theorem below_append : below cmp key (front ++ back) = below cmp key front ++ below cmp key back := by
  simp [below]

theorem above_append : above cmp key (front ++ back) = above cmp key front ++ above cmp key back := by
  simp [above]

theorem erase_append : erase cmp key (front ++ back) = erase cmp key front ++ erase cmp key back := by
  simp [erase]

theorem below_of_lt (h : ∀ entry ∈ back, cmp key entry.1 = .lt) : below cmp key back = [] := by
  unfold below
  rw [List.filter_eq_nil_iff]
  intro entry hentry
  simp [h entry hentry]

theorem above_of_lt (h : ∀ entry ∈ back, cmp key entry.1 = .lt) : above cmp key back = back := by
  unfold above
  rw [List.filter_eq_self]
  intro entry hentry
  simp [h entry hentry]

theorem below_of_gt (h : ∀ entry ∈ front, cmp key entry.1 = .gt) : below cmp key front = front := by
  unfold below
  rw [List.filter_eq_self]
  intro entry hentry
  simp [h entry hentry]

theorem above_of_gt (h : ∀ entry ∈ front, cmp key entry.1 = .gt) : above cmp key front = [] := by
  unfold above
  rw [List.filter_eq_nil_iff]
  intro entry hentry
  simp [h entry hentry]

theorem erase_of_ne (h : ∀ entry ∈ back, cmp key entry.1 ≠ .eq) : erase cmp key back = back := by
  unfold erase
  rw [List.filter_eq_self]
  intro entry hentry
  simp [h entry hentry]

theorem lookup_of_ne (h : ∀ entry ∈ back, cmp key entry.1 ≠ .eq) : lookup cmp key back = none := by
  unfold lookup
  rw [List.find?_eq_none.mpr]
  . rfl
  . intro entry hentry
    simp [h entry hentry]

theorem insertAs_append_left {stored : α} {value : β} (h : ∀ entry ∈ back, cmp key entry.1 = .lt)
    : insertAs cmp stored key value (front ++ back)
        =
      insertAs cmp stored key value front ++ back := by
  unfold insertAs
  rw [below_append, above_append, below_of_lt h, above_of_lt h]
  simp

theorem insertAs_append_right {stored : α} {value : β} (h : ∀ entry ∈ front, cmp key entry.1 = .gt)
    : insertAs cmp stored key value (front ++ back)
        =
      front ++ insertAs cmp stored key value back := by
  unfold insertAs
  rw [below_append, above_append, below_of_gt h, above_of_gt h]
  simp

theorem storedKey_append_left (h : ∀ entry ∈ back, cmp key entry.1 ≠ .eq)
    : storedKey cmp key (front ++ back) = storedKey cmp key front := by
  have hback : back.find? (fun entry => cmp key entry.1 = .eq) = none := by
    rw [List.find?_eq_none]
    intro entry hentry
    simp [h entry hentry]
  unfold storedKey
  rw [List.find?_append, hback, Option.or_none]

theorem storedKey_append_right (h : ∀ entry ∈ front, cmp key entry.1 ≠ .eq)
    : storedKey cmp key (front ++ back) = storedKey cmp key back := by
  have hfront : front.find? (fun entry => cmp key entry.1 = .eq) = none := by
    rw [List.find?_eq_none]
    intro entry hentry
    simp [h entry hentry]
  unfold storedKey
  rw [List.find?_append, hfront, Option.none_or]

theorem lookup_append_left (h : ∀ entry ∈ back, cmp key entry.1 ≠ .eq)
    : lookup cmp key (front ++ back) = lookup cmp key front := by
  have hback : back.find? (fun entry => cmp key entry.1 = .eq) = none := by
    rw [List.find?_eq_none]
    intro entry hentry
    simp [h entry hentry]
  unfold lookup
  rw [List.find?_append, hback, Option.or_none]

theorem lookup_append_right (h : ∀ entry ∈ front, cmp key entry.1 ≠ .eq)
    : lookup cmp key (front ++ back) = lookup cmp key back := by
  have hfront : front.find? (fun entry => cmp key entry.1 = .eq) = none := by
    rw [List.find?_eq_none]
    intro entry hentry
    simp [h entry hentry]
  unfold lookup
  rw [List.find?_append, hfront, Option.none_or]

theorem lookup_cons_of_eq {entry : α × β} (h : cmp key entry.1 = .eq)
    : lookup cmp key (entry :: back) = some entry.2 := by
  simp [lookup, h]

end Append

theorem sorted_node_iff {front back : List (α × β)} {entry : α × β}
    : Sorted cmp (front ++ entry :: back)
        ↔
      Sorted cmp front ∧ Sorted cmp back ∧ (∀ other ∈ front, cmp other.1 entry.1 = .lt)
        ∧ (∀ other ∈ back, cmp entry.1 other.1 = .lt)
        ∧ (∀ before ∈ front, ∀ after ∈ back, cmp before.1 after.1 = .lt) := by
  unfold Sorted
  rw [List.pairwise_append, List.pairwise_cons]
  simp only [List.mem_cons, forall_eq_or_imp]
  constructor
  . intro h
    exact ⟨h.left, h.right.left.right, fun other hother => (h.right.right other hother).left,
      h.right.left.left, fun before hbefore => (h.right.right before hbefore).right⟩
  . intro h
    exact ⟨h.left, ⟨h.right.right.right.left, h.right.left⟩,
      fun before hbefore => ⟨h.right.right.left before hbefore,
        h.right.right.right.right before hbefore⟩⟩

variable [TransCmp cmp]

section Node

variable {key : α} {front back : List (α × β)} {entry : α × β}
  (hsorted : Sorted cmp (front ++ entry :: back))

include hsorted

theorem lt_back_of_lt (h : cmp key entry.1 = .lt)
    : ∀ other ∈ entry :: back, cmp key other.1 = .lt := by
  have hparts := sorted_node_iff.mp hsorted
  intro other hother
  cases List.mem_cons.mp hother with
  | inl heq =>
    rw [heq]
    exact h
  | inr hother => exact TransCmp.lt_trans h (hparts.right.right.right.left other hother)

theorem gt_front_of_not_lt (h : cmp key entry.1 ≠ .lt) : ∀ other ∈ front, cmp key other.1 = .gt := by
  have hparts := sorted_node_iff.mp hsorted
  intro other hother
  have hother := OrientedCmp.gt_of_lt (hparts.right.right.left other hother)
  cases hkey : cmp key entry.1 with
  | lt => exact absurd hkey h
  | eq => exact TransCmp.gt_of_eq_of_gt hkey hother
  | gt => exact TransCmp.gt_trans hkey hother

theorem lt_back_of_eq (h : cmp key entry.1 = .eq) : ∀ other ∈ back, cmp key other.1 = .lt := by
  have hparts := sorted_node_iff.mp hsorted
  intro other hother
  exact TransCmp.lt_of_eq_of_lt h (hparts.right.right.right.left other hother)

end Node

theorem sorted_insertAs {stored key : α} (hstored : cmp key stored = .eq) (value : β)
    {entries : List (α × β)} (h : Sorted cmp entries)
    : Sorted cmp (insertAs cmp stored key value entries) := by
  unfold insertAs
  rw [sorted_node_iff]
  have hbelow : ∀ other ∈ below cmp key entries, cmp other.1 stored = .lt := by
    intro other hother
    have hgt := (List.mem_filter.mp hother).right
    rw [decide_eq_true_eq] at hgt
    exact TransCmp.lt_of_lt_of_eq (OrientedCmp.lt_of_gt hgt) hstored
  have habove : ∀ other ∈ above cmp key entries, cmp stored other.1 = .lt := by
    intro other hother
    have hlt := (List.mem_filter.mp hother).right
    rw [decide_eq_true_eq] at hlt
    exact TransCmp.lt_of_eq_of_lt (OrientedCmp.eq_symm hstored) hlt
  refine ⟨h.filter _, h.filter _, hbelow, habove, ?_⟩
  intro before hbefore after hafter
  exact TransCmp.lt_trans (hbelow before hbefore) (habove after hafter)

omit [TransCmp cmp] in
theorem sorted_erase (key : α) {entries : List (α × β)} (h : Sorted cmp entries)
    : Sorted cmp (erase cmp key entries) :=
  h.filter _

def Distinct (cmp : α → α → Ordering) (entries : List (α × β)) : Prop :=
  entries.Pairwise (fun before after => cmp before.1 after.1 ≠ .eq)

omit [TransCmp cmp] in
theorem Sorted.distinct {entries : List (α × β)} (h : Sorted cmp entries) : Distinct cmp entries := by
  apply h.imp
  intro a b hab
  simp [hab]

theorem lookup_of_distinct {key : α} {entries : List (α × β)} (h : Distinct cmp entries) (value : β)
    : lookup cmp key entries = some value
        ↔
      ∃ entry ∈ entries, cmp key entry.1 = .eq ∧ entry.2 = value := by
  induction entries with
  | nil => simp [lookup]
  | cons entry entries ih =>
    have hparts := List.pairwise_cons.mp h
    by_cases heq : cmp key entry.1 = .eq
    . rw [lookup_cons_of_eq heq]
      have hback : ∀ other ∈ entries, cmp key other.1 ≠ .eq := by
        intro other hother hsame
        exact hparts.left other hother (TransCmp.eq_trans (OrientedCmp.eq_symm heq) hsame)
      constructor
      . intro hvalue
        injection hvalue with hvalue
        exact ⟨entry, List.mem_cons_self, heq, hvalue⟩
      . intro hmem
        obtain ⟨other, hother, hsame, rfl⟩ := hmem
        cases List.mem_cons.mp hother with
        | inl hentry => rw [hentry]
        | inr hother => exact absurd hsame (hback other hother)
    . have hskip : lookup cmp key (entry :: entries) = lookup cmp key entries := by
        simp [lookup, heq]
      rw [hskip, ih hparts.right]
      simp [heq]

theorem lookup_eq_some_iff {key : α} {entries : List (α × β)} (h : Sorted cmp entries) (value : β)
    : lookup cmp key entries = some value
        ↔
      ∃ entry ∈ entries, cmp key entry.1 = .eq ∧ entry.2 = value :=
  lookup_of_distinct h.distinct value

theorem lookup_insertAs {stored key : α} (hstored : cmp key stored = .eq) (value : β)
    {entries : List (α × β)} (h : Sorted cmp entries) (other : α)
    : lookup cmp other (insertAs cmp stored key value entries)
        =
      if cmp other key = .eq then some value else lookup cmp other entries := by
  have hinserted := sorted_insertAs hstored value h
  split
  . next heq =>
    rw [lookup_eq_some_iff hinserted]
    refine ⟨(stored, value), ?_, TransCmp.eq_trans heq hstored, rfl⟩
    simp [insertAs]
  . next hne =>
    apply Option.ext
    intro found
    rw [lookup_eq_some_iff hinserted, lookup_eq_some_iff h]
    have hnotStored : cmp other stored ≠ .eq := by
      intro heq
      exact hne (TransCmp.eq_trans heq (OrientedCmp.eq_symm hstored))
    constructor
    . intro hfound
      obtain ⟨entry, hentry, heq, rfl⟩ := hfound
      refine ⟨entry, ?_, heq, rfl⟩
      simp only [insertAs, List.mem_append, List.mem_cons, below, above, List.mem_filter] at hentry
      cases hentry with
      | inl hentry => exact hentry.left
      | inr hentry =>
        cases hentry with
        | inl hentry =>
          rw [hentry] at heq
          exact absurd heq hnotStored
        | inr hentry => exact hentry.left
    . intro hfound
      obtain ⟨entry, hentry, heq, rfl⟩ := hfound
      refine ⟨entry, ?_, heq, rfl⟩
      simp only [insertAs, List.mem_append, List.mem_cons, below, above, List.mem_filter,
        decide_eq_true_eq]
      cases hcmp : cmp key entry.1 with
      | lt => exact .inr (.inr ⟨hentry, rfl⟩)
      | eq => exact absurd (TransCmp.eq_trans heq (OrientedCmp.eq_symm hcmp)) hne
      | gt => exact .inl ⟨hentry, rfl⟩

theorem lookup_erase {key : α} {entries : List (α × β)} (h : Sorted cmp entries) (other : α)
    : lookup cmp other (erase cmp key entries)
        =
      if cmp other key = .eq then none else lookup cmp other entries := by
  split
  . next heq =>
    apply lookup_of_ne
    intro entry hentry hsame
    have hne := (List.mem_filter.mp hentry).right
    rw [decide_eq_true_eq] at hne
    exact hne (TransCmp.eq_trans (OrientedCmp.eq_symm heq) hsame)
  . next hne =>
    apply Option.ext
    intro found
    rw [lookup_eq_some_iff (sorted_erase key h), lookup_eq_some_iff h]
    simp only [erase, List.mem_filter, decide_eq_true_eq]
    constructor
    . intro hfound
      obtain ⟨entry, hentry, heq, rfl⟩ := hfound
      exact ⟨entry, hentry.left, heq, rfl⟩
    . intro hfound
      obtain ⟨entry, hentry, heq, rfl⟩ := hfound
      refine ⟨entry, ⟨hentry, ?_⟩, heq, rfl⟩
      intro hsame
      exact hne (TransCmp.eq_trans heq (OrientedCmp.eq_symm hsame))

theorem sorted_split {entries : List (α × β)} (h : Sorted cmp entries) (key : α)
    : (lookup cmp key entries = none ∧ entries = below cmp key entries ++ above cmp key entries)
        ∨ ∃ entry, cmp key entry.1 = .eq
          ∧ entries = below cmp key entries ++ entry :: above cmp key entries := by
  induction entries with
  | nil => exact .inl ⟨rfl, rfl⟩
  | cons entry entries ih =>
    have hparts := List.pairwise_cons.mp h
    have hnil : Sorted cmp ([] ++ entry :: entries) := h
    cases hcmp : cmp key entry.1 with
    | lt =>
      have hback := lt_back_of_lt hnil hcmp
      refine .inl ⟨?_, ?_⟩
      . apply lookup_of_ne
        intro other hother
        simp [hback other hother]
      . rw [below_of_lt hback, above_of_lt hback, List.nil_append]
    | eq =>
      have hback := lt_back_of_eq hnil hcmp
      refine .inr ⟨entry, hcmp, ?_⟩
      have hbelow : below cmp key (entry :: entries) = below cmp key entries := by
        simp [below, hcmp]
      have habove : above cmp key (entry :: entries) = above cmp key entries := by
        simp [above, hcmp]
      rw [hbelow, habove, below_of_lt hback, above_of_lt hback, List.nil_append]
    | gt =>
      have hbelow : below cmp key (entry :: entries) = entry :: below cmp key entries := by
        simp [below, hcmp]
      have habove : above cmp key (entry :: entries) = above cmp key entries := by
        simp [above, hcmp]
      rw [hbelow, habove]
      cases ih hparts.right with
      | inl hsplit =>
        refine .inl ⟨?_, ?_⟩
        . rw [← hsplit.left]
          simp [lookup, hcmp]
        . rw [List.cons_append, ← hsplit.right]
      | inr hsplit =>
        obtain ⟨found, hfound, hsplit⟩ := hsplit
        refine .inr ⟨found, hfound, ?_⟩
        rw [List.cons_append, ← hsplit]

omit [TransCmp cmp] in
theorem below_gt {key : α} {entries : List (α × β)}
    : ∀ entry ∈ below cmp key entries, cmp key entry.1 = .gt := by
  intro entry hentry
  simpa using (List.mem_filter.mp hentry).right

omit [TransCmp cmp] in
theorem above_lt {key : α} {entries : List (α × β)}
    : ∀ entry ∈ above cmp key entries, cmp key entry.1 = .lt := by
  intro entry hentry
  simpa using (List.mem_filter.mp hentry).right

theorem exists_parts {entries : List (α × β)} (h : Sorted cmp entries) (key : α)
    : ∃ front same back, entries = front ++ (same ++ back) ∧ same.length ≤ 1
        ∧ (∀ entry ∈ front, cmp key entry.1 = .gt) ∧ (∀ entry ∈ same, cmp key entry.1 = .eq)
        ∧ (∀ entry ∈ back, cmp key entry.1 = .lt) := by
  cases sorted_split h key with
  | inl hsplit =>
    exact ⟨below cmp key entries, [], above cmp key entries, hsplit.right, by simp, below_gt,
      by simp, above_lt⟩
  | inr hsplit =>
    obtain ⟨found, hfound, hsplit⟩ := hsplit
    exact ⟨below cmp key entries, [found], above cmp key entries, hsplit, by simp, below_gt,
      by simpa using hfound, above_lt⟩

omit [TransCmp cmp] in
theorem filter_from {key : α} {front same back : List (α × β)}
    (hfront : ∀ entry ∈ front, cmp key entry.1 = .gt) (hsame : ∀ entry ∈ same, cmp key entry.1 = .eq)
    (hback : ∀ entry ∈ back, cmp key entry.1 = .lt)
    : (front ++ (same ++ back)).filter (fun entry => cmp key entry.1 ≠ .gt) = same ++ back := by
  rw [List.filter_append, List.filter_eq_nil_iff.mpr, List.filter_eq_self.mpr, List.nil_append]
  . intro entry hentry
    cases List.mem_append.mp hentry with
    | inl hentry => simp [hsame entry hentry]
    | inr hentry => simp [hback entry hentry]
  . intro entry hentry
    simp [hfront entry hentry]

omit [TransCmp cmp] in
theorem filter_upTo {key : α} {front same back : List (α × β)}
    (hfront : ∀ entry ∈ front, cmp key entry.1 = .gt) (hsame : ∀ entry ∈ same, cmp key entry.1 = .eq)
    (hback : ∀ entry ∈ back, cmp key entry.1 = .lt)
    : (front ++ (same ++ back)).filter (fun entry => cmp key entry.1 ≠ .lt) = front ++ same := by
  rw [← List.append_assoc, List.filter_append, List.filter_eq_self.mpr, List.filter_eq_nil_iff.mpr,
    List.append_nil]
  . intro entry hentry
    simp [hback entry hentry]
  . intro entry hentry
    cases List.mem_append.mp hentry with
    | inl hentry => simp [hfront entry hentry]
    | inr hentry => simp [hsame entry hentry]

theorem storedKey_eq (key : α) (entries : List (α × β))
    : cmp key (storedKey cmp key entries) = .eq := by
  unfold storedKey
  cases hfind : entries.find? (fun entry => cmp key entry.1 = .eq) with
  | none => exact ReflCmp.compare_self
  | some entry => simpa using List.find?_some hfind

section Sorting

variable (cmp)

def sort (entries : List (α × β)) : List (α × β) :=
  entries.mergeSort (fun before after => (cmp before.1 after.1).isLE)

def ascending : List (α × β) → Bool
  | before :: after :: entries => cmp before.1 after.1 = .lt && ascending (after :: entries)
  | _ => true

variable {cmp} {entries : List (α × β)}

theorem ascending_iff (entries : List (α × β)) : ascending cmp entries ↔ Sorted cmp entries := by
  induction entries with
  | nil => simp [ascending, Sorted]
  | cons before entries ih =>
    cases entries with
    | nil => simp [ascending, Sorted]
    | cons after entries =>
      rw [ascending, Bool.and_eq_true, decide_eq_true_eq, ih]
      constructor
      . intro h
        apply List.pairwise_cons.mpr
        refine ⟨?_, h.right⟩
        intro other hother
        cases List.mem_cons.mp hother with
        | inl heq =>
          rw [heq]
          exact h.left
        | inr hother =>
          exact TransCmp.lt_trans h.left ((List.pairwise_cons.mp h.right).left other hother)
      . intro h
        have hparts := List.pairwise_cons.mp h
        exact ⟨hparts.left after List.mem_cons_self, hparts.right⟩

omit [TransCmp cmp] in
theorem sort_perm (entries : List (α × β)) : (sort cmp entries).Perm entries := by
  apply List.mergeSort_perm

theorem sort_pairwise (entries : List (α × β))
    : (sort cmp entries).Pairwise (fun before after => (cmp before.1 after.1).isLE) := by
  apply List.pairwise_mergeSort
  . intro a b c hab hbc
    exact TransCmp.isLE_trans hab hbc
  . intro a b
    rw [Bool.or_eq_true]
    cases hab : cmp a.1 b.1 with
    | lt => exact .inl rfl
    | eq => exact .inl rfl
    | gt =>
      rw [OrientedCmp.lt_of_gt hab]
      exact .inr rfl

theorem distinct_perm {other : List (α × β)} (h : entries.Perm other)
    : Distinct cmp entries ↔ Distinct cmp other := by
  apply h.pairwise_iff
  intro a b hab hba
  exact hab (OrientedCmp.eq_symm hba)

theorem sorted_sort_iff (entries : List (α × β))
    : Sorted cmp (sort cmp entries) ↔ Distinct cmp entries := by
  have hperm : (sort cmp entries).Perm entries := sort_perm entries
  rw [← distinct_perm hperm]
  constructor
  . exact Sorted.distinct
  . intro h
    have hsorted : (sort cmp entries).Pairwise (fun before after => (cmp before.1 after.1).isLE) :=
      sort_pairwise entries
    have hboth := hsorted.and h
    apply hboth.imp
    intro a b hab
    cases hcmp : cmp a.1 b.1 with
    | lt => rfl
    | eq => exact absurd hcmp hab.right
    | gt =>
      rw [hcmp] at hab
      cases hab.left

theorem sort_eq_of_perm {sorted : List (α × β)} (h : Sorted cmp sorted) (hperm : sorted.Perm entries)
    : sort cmp entries = sorted := by
  have hdistinct : Distinct cmp entries := by
    rw [← distinct_perm hperm]
    exact h.distinct
  have hsorted := (sorted_sort_iff entries).mpr hdistinct
  apply ((sort_perm entries).trans hperm.symm).eq_of_pairwise _ hsorted h
  intro a b _ _ hab hba
  have hgt := OrientedCmp.gt_of_lt hab
  rw [hba] at hgt
  cases hgt

theorem lookup_sort (key : α) (h : Distinct cmp entries)
    : lookup cmp key (sort cmp entries) = lookup cmp key entries := by
  apply Option.ext
  intro value
  rw [lookup_eq_some_iff ((sorted_sort_iff entries).mpr h), lookup_of_distinct h]
  simp only [(sort_perm entries).mem_iff]

omit [TransCmp cmp] in
theorem insertAs_perm {key : α} (value : β) (h : ∀ entry ∈ entries, cmp key entry.1 ≠ .eq)
    : (insertAs cmp key key value entries).Perm (entries ++ [(key, value)]) := by
  have hparts : (below cmp key entries ++ above cmp key entries).Perm entries := by
    have habove : above cmp key entries
        =
      entries.filter (fun entry => !decide (cmp key entry.1 = .gt)) := by
      apply List.filter_congr
      intro entry hentry
      cases hcmp : cmp key entry.1 with
      | lt => rfl
      | eq => exact absurd hcmp (h entry hentry)
      | gt => rfl
    rw [habove]
    apply List.filter_append_perm
  unfold insertAs
  exact List.perm_middle.trans ((hparts.cons _).trans (List.perm_append_singleton _ _).symm)

end Sorting

theorem eq_of_lookup [LawfulEqCmp cmp] {other : List (α × β)} (h : Sorted cmp entries)
    (hother : Sorted cmp other) (hlookup : ∀ key, lookup cmp key entries = lookup cmp key other)
    : entries = other := by
  have hmem : ∀ {list : List (α × β)}, Sorted cmp list → ∀ entry,
      entry ∈ list ↔ lookup cmp entry.1 list = some entry.2 := by
    intro list hlist entry
    rw [lookup_eq_some_iff hlist]
    constructor
    . intro hentry
      exact ⟨entry, hentry, ReflCmp.compare_self, rfl⟩
    . intro hfound
      obtain ⟨found, hfound, hkey, hvalue⟩ := hfound
      rw [LawfulEqCmp.compare_eq_iff_eq] at hkey
      rw [Prod.ext hkey hvalue.symm]
      exact hfound
  have hnodup : ∀ {list : List (α × β)}, Sorted cmp list → list.Nodup := by
    intro list hlist
    apply hlist.imp
    intro a b hab heq
    subst heq
    have hself : cmp a.1 a.1 = .eq := ReflCmp.compare_self
    rw [hab] at hself
    cases hself
  have hperm : other.Perm entries := by
    rw [List.perm_ext_iff_of_nodup (hnodup hother) (hnodup h)]
    intro entry
    rw [hmem hother, hmem h, hlookup]
  have hsort := sort_eq_of_perm hother hperm
  rw [← hsort]
  exact (sort_eq_of_perm h (List.Perm.refl entries)).symm

end SortedEntries
