import PasswordManager.Database.FSnapshot
import PasswordManager.PathMaps.Basic
import Mathlib.Data.List.Perm.Subperm

/-!
This module contains the nodes as maps from paths to the values of their leaves. To read a child is to
look below a path, and to update one is to overwrite the map at a path.
-/

namespace FSnapshot

open SortedEntries FKeys Std

variable {κ ν : Type} [FKeys κ]

-- The priorities are left out.
def leaves : FSnapshot κ ν → PathMap κ ν
  | .leafNode value _, [] => some value
  | .leafNode _ _, _ :: _ => none
  | .childrenNode _ _, [] => none
  | .childrenNode _ children, front :: rest =>
    match lookup keyComparator front children with
    | some child => leaves child rest
    | none => none

inductive WellFormed : FSnapshot κ ν → Prop where
  | leaf (value : ν) (priorityNode : FSnapshot κ ν) : WellFormed (.leafNode value priorityNode)
  | inner (priorityNode : Option (FSnapshot κ ν)) (children : List (κ × FSnapshot κ ν))
      (sorted : Sorted keyComparator children) (wellFormed : ∀ entry ∈ children, WellFormed entry.2)
      (nonempty : ∀ entry ∈ children, entry.2.isEmpty = false)
      (plain : ∀ entry ∈ children, entry.1 ≠ priorityKey)
    : WellFormed (.childrenNode priorityNode children)

def Plain (path : FPath κ) : Prop :=
  ∀ piece ∈ path, piece ≠ priorityKey

instance [DecidableEq κ] (path : FPath κ) : Decidable (Plain path) :=
  inferInstanceAs (Decidable (∀ piece ∈ path, piece ≠ priorityKey))

theorem plain_nil : Plain ([] : FPath κ) := by
  intro piece hpiece
  cases hpiece

theorem Plain.head {front : κ} {rest : FPath κ} (h : Plain (front :: rest)) : front ≠ priorityKey :=
  h front List.mem_cons_self

theorem Plain.tail {front : κ} {rest : FPath κ} (h : Plain (front :: rest)) : Plain rest := by
  intro piece hpiece
  exact h piece (List.mem_cons_of_mem front hpiece)

theorem Plain.right {path rest : FPath κ} (h : Plain (path ++ rest)) : Plain rest := by
  intro piece hpiece
  exact h piece (List.mem_append_right path hpiece)

theorem leaves_childrenNode_cons (priorityNode : Option (FSnapshot κ ν))
    (children : List (κ × FSnapshot κ ν)) (front : κ) (rest : FPath κ)
    : (childrenNode priorityNode children).leaves (front :: rest)
        =
      (lookup keyComparator front children).bind (fun child => child.leaves rest) := by
  conv_lhs => unfold leaves
  cases lookup keyComparator front children with
  | none => rfl
  | some child => rfl

@[simp]
theorem leaves_emptyNode (path : FPath κ) : (emptyNode : FSnapshot κ ν).leaves path = none := by
  cases path with
  | nil => rfl
  | cons front rest => rfl

theorem empty_leaves_emptyNode : (emptyNode : FSnapshot κ ν).leaves.Empty :=
  leaves_emptyNode

theorem leaves_getD (child : Option (FSnapshot κ ν)) (path : FPath κ)
    : (child.getD emptyNode).leaves path = child.bind (fun child => child.leaves path) := by
  cases child with
  | none => simp
  | some child => rfl

theorem discrete_leaves (self : FSnapshot κ ν) : self.leaves.Discrete := by
  intro q rest
  induction q generalizing self with
  | nil =>
    intro hvalue hrest
    cases self with
    | leafNode value priorityNode =>
      cases rest with
      | nil => exact absurd rfl hrest
      | cons front rest => rfl
    | childrenNode priorityNode children => exact absurd rfl hvalue
  | cons front q ih =>
    intro hvalue hrest
    cases self with
    | leafNode value priorityNode => exact absurd rfl hvalue
    | childrenNode priorityNode children =>
      rw [List.cons_append, leaves_childrenNode_cons]
      rw [leaves_childrenNode_cons] at hvalue
      cases hlookup : lookup keyComparator front children with
      | none => rfl
      | some child =>
        rw [hlookup] at hvalue
        exact ih child hvalue hrest

theorem wellFormed_emptyNode : WellFormed (emptyNode : FSnapshot κ ν) := by
  apply WellFormed.inner
  . exact List.Pairwise.nil
  . intro entry hentry
    cases hentry
  . intro entry hentry
    cases hentry
  . intro entry hentry
    cases hentry

theorem wellFormed_updatePriority {self : FSnapshot κ ν} (h : self.WellFormed)
    (aPriority : FSnapshot κ ν) : (self.updatePriority aPriority).WellFormed := by
  cases h with
  | leaf value priorityNode => exact .leaf value aPriority
  | inner priorityNode children sorted wellFormed nonempty plain =>
    unfold updatePriority
    dsimp only
    split
    . exact wellFormed_emptyNode
    . exact .inner (some aPriority) children sorted wellFormed nonempty plain

theorem leaves_updatePriority (self aPriority : FSnapshot κ ν)
    : (self.updatePriority aPriority).leaves = self.leaves := by
  funext path
  cases self with
  | leafNode value priorityNode =>
    cases path with
    | nil => rfl
    | cons front rest => rfl
  | childrenNode priorityNode children =>
    unfold updatePriority
    dsimp only
    split
    . next hempty =>
      rw [List.isEmpty_iff] at hempty
      subst hempty
      cases path with
      | nil => rfl
      | cons front rest => rfl
    . cases path with
      | nil => rfl
      | cons front rest => rfl

namespace WellFormed

variable {self newChildNode : FSnapshot κ ν}

theorem child {priorityNode : Option (FSnapshot κ ν)} {children : List (κ × FSnapshot κ ν)}
    (h : WellFormed (childrenNode priorityNode children)) {key : κ} {child : FSnapshot κ ν}
    (hlookup : lookup keyComparator key children = some child)
    : child.WellFormed ∧ child.isEmpty = false := by
  cases h with
  | inner priorityNode children sorted wellFormed nonempty plain =>
    unfold lookup at hlookup
    rw [Option.map_eq_some_iff] at hlookup
    obtain ⟨entry, hentry, rfl⟩ := hlookup
    have hmem := List.mem_of_find?_eq_some hentry
    exact ⟨wellFormed entry hmem, nonempty entry hmem⟩

variable [LawfulFKeys κ]

theorem exists_leaf (h : self.WellFormed) (hne : self.isEmpty = false)
    : ∃ path value, self.leaves path = some value := by
  induction h with
  | leaf value priorityNode => exact ⟨[], value, rfl⟩
  | inner priorityNode children sorted wellFormed nonempty plain ih =>
    cases children with
    | nil => cases hne
    | cons entry children =>
      obtain ⟨path, value, hvalue⟩ := ih entry List.mem_cons_self
        (nonempty entry List.mem_cons_self)
      refine ⟨entry.1 :: path, value, ?_⟩
      have hself : (keyComparator entry.1 entry.1 : Ordering) = .eq := ReflCmp.compare_self
      rw [leaves_childrenNode_cons, lookup_cons_of_eq hself]
      exact hvalue

theorem empty_leaves_iff (h : self.WellFormed) : self.leaves.Empty ↔ self.isEmpty = true := by
  constructor
  . intro hempty
    rw [← Bool.not_eq_false]
    intro hne
    obtain ⟨path, value, hvalue⟩ := h.exists_leaf hne
    rw [hempty path] at hvalue
    cases hvalue
  . intro hempty path
    cases self with
    | leafNode value priorityNode => cases hempty
    | childrenNode priorityNode children =>
      unfold isEmpty at hempty
      rw [List.isEmpty_iff] at hempty
      subst hempty
      cases path with
      | nil => rfl
      | cons front rest => rfl

end WellFormed

variable [DecidableEq κ]

theorem getImmediateChild_childrenNode {front : κ} (hplain : front ≠ priorityKey)
    (priorityNode : Option (FSnapshot κ ν)) (children : List (κ × FSnapshot κ ν))
    : (childrenNode priorityNode children).getImmediateChild front
        =
      (lookup keyComparator front children).getD emptyNode := by
  unfold getImmediateChild
  rw [if_neg hplain]

theorem leaves_getImmediateChild (self : FSnapshot κ ν) {front : κ} (hplain : front ≠ priorityKey)
    : (self.getImmediateChild front).leaves = self.leaves.below [front] := by
  funext rest
  cases self with
  | leafNode value priorityNode =>
    unfold getImmediateChild
    rw [if_neg hplain]
    apply leaves_emptyNode
  | childrenNode priorityNode children =>
    rw [getImmediateChild_childrenNode hplain, leaves_getD, ← leaves_childrenNode_cons]
    rfl

theorem wellFormed_getImmediateChild {self : FSnapshot κ ν} (h : self.WellFormed) {front : κ}
    (hplain : front ≠ priorityKey) : (self.getImmediateChild front).WellFormed := by
  cases self with
  | leafNode value priorityNode =>
    unfold getImmediateChild
    rw [if_neg hplain]
    exact wellFormed_emptyNode
  | childrenNode priorityNode children =>
    rw [getImmediateChild_childrenNode hplain]
    cases hlookup : lookup keyComparator front children with
    | none => exact wellFormed_emptyNode
    | some child => exact (h.child hlookup).left

theorem getChild_emptyNode {path : FPath κ} (hplain : Plain path)
    : (emptyNode : FSnapshot κ ν).getChild path = emptyNode := by
  induction path with
  | nil => rfl
  | cons front rest ih =>
    conv_lhs => unfold emptyNode getChild
    rw [getImmediateChild_childrenNode hplain.head]
    exact ih hplain.tail

theorem getChild_nil (self : FSnapshot κ ν) : self.getChild [] = self := by
  cases self with
  | leafNode value priorityNode => rfl
  | childrenNode priorityNode children => rfl

theorem getChild_cons (self : FSnapshot κ ν) {front : κ} {rest : FPath κ}
    (hplain : Plain (front :: rest))
    : self.getChild (front :: rest) = (self.getImmediateChild front).getChild rest := by
  cases self with
  | leafNode value priorityNode =>
    have hfront := hplain.head
    unfold getImmediateChild
    rw [if_neg hfront]
    dsimp only
    rw [getChild_emptyNode hplain.tail]
    unfold getChild
    rw [if_neg hfront]
  | childrenNode priorityNode children => rfl

theorem leaves_getChild (self : FSnapshot κ ν) {path : FPath κ} (hplain : Plain path)
    : (self.getChild path).leaves = self.leaves.below path := by
  induction path generalizing self with
  | nil =>
    rw [getChild_nil]
    rfl
  | cons front rest ih =>
    rw [getChild_cons self hplain]
    rw [ih _ hplain.tail]
    rw [leaves_getImmediateChild self hplain.head, PathMap.below_below]
    rfl

theorem wellFormed_getChild {self : FSnapshot κ ν} (h : self.WellFormed) {path : FPath κ}
    (hplain : Plain path) : (self.getChild path).WellFormed := by
  induction path generalizing self with
  | nil =>
    rw [getChild_nil]
    exact h
  | cons front rest ih =>
    rw [getChild_cons self hplain]
    apply ih
    . exact wellFormed_getImmediateChild h hplain.head
    . intro piece hpiece
      exact hplain piece (List.mem_cons_of_mem _ hpiece)

section Updates

variable [LawfulFKeys κ]
variable {self newChildNode : FSnapshot κ ν}

omit [DecidableEq κ] [LawfulFKeys κ] in
theorem leaves_childrenNode_or_emptyNode (priorityNode : Option (FSnapshot κ ν))
    (children : List (κ × FSnapshot κ ν))
    : (if children.isEmpty then emptyNode else childrenNode priorityNode children).leaves
        =
      (childrenNode none children).leaves := by
  funext path
  split
  . next hempty =>
    rw [List.isEmpty_iff] at hempty
    subst hempty
    rfl
  . cases path with
    | nil => rfl
    | cons front rest => rfl

omit [DecidableEq κ] [LawfulFKeys κ] in
theorem wellFormed_childrenNode_or_emptyNode {priorityNode : Option (FSnapshot κ ν)}
    {children : List (κ × FSnapshot κ ν)} (h : WellFormed (childrenNode priorityNode children))
    : WellFormed
        (if children.isEmpty then emptyNode else childrenNode priorityNode children) := by
  split
  . exact wellFormed_emptyNode
  . exact h

omit [DecidableEq κ] in
theorem wellFormed_insertAs {priorityNode : Option (FSnapshot κ ν)}
    {children : List (κ × FSnapshot κ ν)} (h : WellFormed (childrenNode priorityNode children))
    (hnew : newChildNode.WellFormed) (hne : newChildNode.isEmpty = false) {front : κ}
    (hplain : front ≠ priorityKey) (newPriority : Option (FSnapshot κ ν))
    : WellFormed
        (childrenNode newPriority (insertAs keyComparator front front newChildNode children)) := by
  cases h with
  | inner priorityNode children sorted wellFormed nonempty plain =>
    have hmem : ∀ entry ∈ insertAs keyComparator front front newChildNode children,
        entry ∈ children ∨ entry = (front, newChildNode) := by
      intro entry hentry
      simp only [insertAs, below, above, List.mem_append, List.mem_cons, List.mem_filter] at hentry
      cases hentry with
      | inl hbelow => exact .inl hbelow.left
      | inr hrest =>
        cases hrest with
        | inl heq => exact .inr heq
        | inr habove => exact .inl habove.left
    constructor
    . exact sorted_insertAs ReflCmp.compare_self newChildNode sorted
    . intro entry hentry
      cases hmem entry hentry with
      | inl hold => exact wellFormed entry hold
      | inr heq =>
        subst heq
        exact hnew
    . intro entry hentry
      cases hmem entry hentry with
      | inl hold => exact nonempty entry hold
      | inr heq =>
        subst heq
        exact hne
    . intro entry hentry
      cases hmem entry hentry with
      | inl hold => exact plain entry hold
      | inr heq =>
        subst heq
        exact hplain

omit [DecidableEq κ] [LawfulFKeys κ] in
theorem wellFormed_erase {priorityNode : Option (FSnapshot κ ν)}
    {children : List (κ × FSnapshot κ ν)} (h : WellFormed (childrenNode priorityNode children))
    (front : κ) (newPriority : Option (FSnapshot κ ν))
    : WellFormed (childrenNode newPriority (erase keyComparator front children)) := by
  cases h with
  | inner priorityNode children sorted wellFormed nonempty plain =>
    constructor
    . exact sorted_erase front sorted
    . intro entry hentry
      exact wellFormed entry (List.mem_of_mem_filter hentry)
    . intro entry hentry
      exact nonempty entry (List.mem_of_mem_filter hentry)
    . intro entry hentry
      exact plain entry (List.mem_of_mem_filter hentry)

theorem wellFormed_updateImmediateChild (h : self.WellFormed) (hnew : newChildNode.WellFormed)
    {front : κ} (hplain : front ≠ priorityKey)
    : (self.updateImmediateChild front newChildNode).WellFormed := by
  unfold updateImmediateChild
  rw [if_neg hplain]
  cases self with
  | leafNode value priorityNode =>
    dsimp only
    split
    . exact h
    . next hne =>
      rw [Bool.not_eq_true] at hne
      apply wellFormed_updatePriority
      exact wellFormed_insertAs wellFormed_emptyNode hnew hne hplain _
  | childrenNode priorityNode children =>
    apply wellFormed_childrenNode_or_emptyNode
    split
    . exact wellFormed_erase h front _
    . next hne =>
      rw [Bool.not_eq_true] at hne
      exact wellFormed_insertAs h hnew hne hplain _

omit [DecidableEq κ] in
theorem leaves_replaced (priorityNode newPriority : Option (FSnapshot κ ν))
    (children newChildren : List (κ × FSnapshot κ ν)) (front : κ) (child : Option (FSnapshot κ ν))
    (hchild : ∀ rest, child.bind (fun child => child.leaves rest) = newChildNode.leaves rest)
    (hlookup : ∀ key, lookup keyComparator key newChildren
      = if (keyComparator key front : Ordering) = .eq then child
        else lookup keyComparator key children)
    : (childrenNode newPriority newChildren).leaves
        =
      (childrenNode priorityNode children).leaves.overwrite [front] newChildNode.leaves := by
  funext q
  cases q with
  | nil =>
    rw [PathMap.overwrite_eq_none]
    . rfl
    . simp
    . rfl
  | cons key rest =>
    rw [leaves_childrenNode_cons, hlookup]
    split
    . next heq =>
      rw [LawfulEqCmp.compare_eq_iff_eq] at heq
      subst heq
      rw [hchild]
      symm
      apply PathMap.overwrite_append
    . next hne =>
      rw [LawfulEqCmp.compare_eq_iff_eq] at hne
      rw [PathMap.overwrite_apart, leaves_childrenNode_cons]
      . simp [Ne.symm hne]
      . simp [hne]

theorem leaves_updateImmediateChild (h : self.WellFormed) (hnew : newChildNode.WellFormed)
    {front : κ} (hplain : front ≠ priorityKey)
    : (self.updateImmediateChild front newChildNode).leaves
        =
      self.leaves.overwrite [front] newChildNode.leaves := by
  unfold updateImmediateChild
  rw [if_neg hplain]
  cases self with
  | leafNode value priorityNode =>
    dsimp only
    split
    . next hempty =>
      rw [← hnew.empty_leaves_iff] at hempty
      funext q
      by_cases hq : [front] <+: q
      . obtain ⟨rest, rfl⟩ := hq
        rw [PathMap.overwrite_append, hempty rest]
        rfl
      . rw [PathMap.overwrite_of_empty hq hempty]
    . next hne =>
      rw [leaves_updatePriority]
      rw [leaves_replaced none _ [] _ front (some newChildNode) (fun _ => rfl)]
      . rw [← hnew.empty_leaves_iff] at hne
        funext q
        by_cases hq : [front] <+: q
        . obtain ⟨rest, rfl⟩ := hq
          rw [PathMap.overwrite_append, PathMap.overwrite_append]
        . by_cases hle : q <+: [front]
          . rw [PathMap.overwrite_above hq hle hne, PathMap.overwrite_above hq hle hne]
          . rw [PathMap.overwrite_apart hq hle, PathMap.overwrite_apart hq hle]
            cases q with
            | nil => exact absurd List.nil_prefix hle
            | cons key rest => rfl
      . intro key
        exact lookup_insertAs ReflCmp.compare_self newChildNode List.Pairwise.nil key
  | childrenNode priorityNode children =>
    dsimp only
    have hsorted : Sorted keyComparator children := by
      cases h with
      | inner priorityNode children sorted wellFormed nonempty plain => exact sorted
    rw [leaves_childrenNode_or_emptyNode]
    split
    . next hempty =>
      rw [← hnew.empty_leaves_iff] at hempty
      apply leaves_replaced _ _ _ _ front none
      . intro rest
        exact (hempty rest).symm
      . intro key
        exact lookup_erase hsorted key
    . apply leaves_replaced _ _ _ _ front (some newChildNode) (fun _ => rfl)
      intro key
      exact lookup_insertAs ReflCmp.compare_self newChildNode hsorted key

theorem wellFormed_updateChild (h : self.WellFormed) (hnew : newChildNode.WellFormed)
    {path : FPath κ} (hplain : Plain path) : (self.updateChild path newChildNode).WellFormed := by
  induction path generalizing self with
  | nil =>
    rw [updateChild_nil]
    exact hnew
  | cons front rest ih =>
    have hfront := hplain.head
    have hrest := hplain.tail
    unfold updateChild
    cases self with
    | leafNode value priorityNode =>
      dsimp only
      split
      . exact h
      . apply wellFormed_updateImmediateChild h _ hfront
        exact ih wellFormed_emptyNode hrest
    | childrenNode priorityNode children =>
      dsimp only
      apply wellFormed_updateImmediateChild h _ hfront
      exact ih (wellFormed_getImmediateChild h hfront) hrest

theorem leaves_updateChild (h : self.WellFormed) (hnew : newChildNode.WellFormed)
    {path : FPath κ} (hplain : Plain path)
    : (self.updateChild path newChildNode).leaves
        =
      self.leaves.overwrite path newChildNode.leaves := by
  induction path generalizing self with
  | nil =>
    rw [updateChild_nil, PathMap.overwrite_nil]
  | cons front rest ih =>
    have hfront := hplain.head
    have hrest := hplain.tail
    have hsplit := PathMap.overwrite_below_overwrite (discrete_leaves self) [front] rest
      newChildNode.leaves
    rw [List.singleton_append] at hsplit
    rw [← hsplit, ← leaves_getImmediateChild self hfront]
    unfold updateChild
    cases self with
    | leafNode value priorityNode =>
      have hchild : (leafNode value priorityNode).getImmediateChild front = emptyNode := by
        unfold getImmediateChild
        rw [if_neg hfront]
      rw [hchild, ← ih wellFormed_emptyNode hrest]
      dsimp only
      split
      . next hempty =>
        rw [← hnew.empty_leaves_iff] at hempty
        have hrestEmpty : (emptyNode.updateChild rest newChildNode).leaves.Empty := by
          rw [ih wellFormed_emptyNode hrest]
          exact PathMap.empty_overwrite empty_leaves_emptyNode hempty.left
        funext q
        by_cases hq : [front] <+: q
        . obtain ⟨s, rfl⟩ := hq
          rw [PathMap.overwrite_append, hrestEmpty s]
          rfl
        . rw [PathMap.overwrite_of_empty hq hrestEmpty]
      . rw [leaves_updateImmediateChild h _ hfront]
        exact wellFormed_updateChild wellFormed_emptyNode hnew hrest
    | childrenNode priorityNode children =>
      dsimp only
      rw [leaves_updateImmediateChild h _ hfront, ih _ hrest]
      . exact wellFormed_getImmediateChild h hfront
      . exact wellFormed_updateChild (wellFormed_getImmediateChild h hfront) hnew hrest

end Updates

section Equality

variable [DecidableEq ν] [LawfulFKeys κ]

omit [LawfulFKeys κ] in
theorem isEqualChildren_iff (children : List (κ × FSnapshot κ ν)) (other : FSnapshot κ ν)
    : isEqualChildren children other = true
        ↔
      ∀ entry ∈ children, isEqual entry.2 (other.getImmediateChild entry.1) = true := by
  induction children with
  | nil => simp [isEqualChildren]
  | cons entry children ih =>
    obtain ⟨key, node⟩ := entry
    unfold isEqualChildren
    rw [Bool.and_eq_true, ih, List.forall_mem_cons]

omit [DecidableEq κ] [DecidableEq ν] in
theorem mem_keys_iff {children : List (κ × FSnapshot κ ν)} (h : Sorted keyComparator children)
    {key : κ} : key ∈ children.map Prod.fst ↔ lookup keyComparator key children ≠ none := by
  rw [List.mem_map, Option.ne_none_iff_exists']
  constructor
  . intro hkey
    obtain ⟨entry, hentry, rfl⟩ := hkey
    refine ⟨entry.2, ?_⟩
    rw [lookup_eq_some_iff h]
    exact ⟨entry, hentry, ReflCmp.compare_self, rfl⟩
  . intro hfound
    obtain ⟨child, hchild⟩ := hfound
    rw [lookup_eq_some_iff h] at hchild
    obtain ⟨entry, hentry, hkey, -⟩ := hchild
    rw [LawfulEqCmp.compare_eq_iff_eq] at hkey
    exact ⟨entry, hentry, hkey.symm⟩

omit [DecidableEq κ] [DecidableEq ν] in
theorem nodup_keys {children : List (κ × FSnapshot κ ν)} (h : Sorted keyComparator children)
    : (children.map Prod.fst).Nodup := by
  unfold List.Nodup
  rw [List.pairwise_map]
  apply List.Pairwise.imp _ h
  intro before after hlt heq
  have hself : (keyComparator after.1 after.1 : Ordering) = .eq := ReflCmp.compare_self
  rw [heq, hself] at hlt
  cases hlt

omit [DecidableEq ν] in
theorem isEmpty_getChild {self : FSnapshot κ ν} (h : self.WellFormed) (hempty : self.isEmpty = true)
    {path : FPath κ} (hplain : Plain path) : (self.getChild path).isEmpty = true := by
  rw [← h.empty_leaves_iff] at hempty
  rw [← (wellFormed_getChild h hplain).empty_leaves_iff, leaves_getChild self hplain]
  intro rest
  exact hempty (path ++ rest)

omit [LawfulFKeys κ] in
theorem isEqual_of_isEmpty {self other : FSnapshot κ ν} (h : self.isEmpty = true)
    (hother : other.isEmpty = true) : isEqual self other = true := by
  cases self with
  | leafNode value priorityNode => cases h
  | childrenNode priorityNode children =>
    cases other with
    | leafNode otherValue otherPriority => cases hother
    | childrenNode otherPriority otherChildren =>
      have hchildren : children.isEmpty = true := h
      have hotherChildren : otherChildren.isEmpty = true := hother
      unfold isEqual
      simp [hchildren, hotherChildren]

theorem leaves_of_isEqual {self other : FSnapshot κ ν} (h : self.WellFormed)
    (hother : other.WellFormed) (hequal : isEqual self other = true) : self.leaves = other.leaves := by
  induction h generalizing other with
  | leaf value priorityNode =>
    cases other with
    | childrenNode otherPriority otherChildren => simp [isEqual] at hequal
    | leafNode otherValue otherPriority =>
      unfold isEqual at hequal
      rw [Bool.and_eq_true, decide_eq_true_eq] at hequal
      rw [hequal.left]
      funext path
      cases path with
      | nil => rfl
      | cons front rest => rfl
  | inner priorityNode children sorted wellFormed nonempty plain ih =>
    cases other with
    | leafNode otherValue otherPriority => simp [isEqual] at hequal
    | childrenNode otherPriority otherChildren =>
      unfold isEqual at hequal
      dsimp only at hequal
      split at hequal
      . next hempty =>
        simp only [Bool.and_eq_true, List.isEmpty_iff] at hempty
        obtain ⟨rfl, rfl⟩ := hempty
        funext path
        cases path with
        | nil => rfl
        | cons front rest => rfl
      . split at hequal
        . cases hequal
        . rw [Bool.and_eq_true, decide_eq_true_eq, isEqualChildren_iff] at hequal
          obtain ⟨hlength, hchildren⟩ := hequal
          have hsortedOther : Sorted keyComparator otherChildren := by
            cases hother with
            | inner priorityNode children sorted wellFormed nonempty plain => exact sorted
          have hsame : ∀ key child, lookup keyComparator key children = some child
              → ∃ otherChild, lookup keyComparator key otherChildren = some otherChild
                ∧ child.leaves = otherChild.leaves := by
            intro key child hchild
            rw [lookup_eq_some_iff sorted] at hchild
            obtain ⟨entry, hentry, hkey, rfl⟩ := hchild
            rw [LawfulEqCmp.compare_eq_iff_eq] at hkey
            subst hkey
            have hequal := hchildren entry hentry
            rw [getImmediateChild_childrenNode (plain entry hentry)] at hequal
            cases hfound : lookup keyComparator entry.1 otherChildren with
            | none =>
              rw [hfound, Option.getD_none] at hequal
              have hleaves := ih entry hentry wellFormed_emptyNode hequal
              obtain ⟨path, value, hvalue⟩ := (wellFormed entry hentry).exists_leaf
                (nonempty entry hentry)
              rw [hleaves, leaves_emptyNode] at hvalue
              cases hvalue
            | some otherChild =>
              rw [hfound, Option.getD_some] at hequal
              exact ⟨otherChild, rfl, ih entry hentry (hother.child hfound).left hequal⟩
          -- all keys of the first node are keys of the second one, and it has no more of them
          have hkeys : (children.map Prod.fst).Perm (otherChildren.map Prod.fst) := by
            apply List.Subperm.perm_of_length_le
            . apply List.subperm_of_subset (nodup_keys sorted)
              intro key hkey
              rw [mem_keys_iff sorted] at hkey
              obtain ⟨child, hchild⟩ := Option.ne_none_iff_exists'.mp hkey
              obtain ⟨otherChild, hotherChild, -⟩ := hsame key child hchild
              rw [mem_keys_iff hsortedOther, hotherChild]
              simp
            . rw [List.length_map, List.length_map, hlength]
          funext path
          cases path with
          | nil => rfl
          | cons key rest =>
            rw [leaves_childrenNode_cons, leaves_childrenNode_cons]
            cases hchild : lookup keyComparator key children with
            | some child =>
              obtain ⟨otherChild, hotherChild, hleaves⟩ := hsame key child hchild
              rw [hotherChild, Option.bind_some, Option.bind_some, hleaves]
            | none =>
              have hmissing : lookup keyComparator key otherChildren = none := by
                by_contra hfound
                have hkey := (mem_keys_iff hsortedOther).mpr hfound
                rw [← hkeys.mem_iff, mem_keys_iff sorted] at hkey
                exact hkey hchild
              rw [hmissing]

end Equality

end FSnapshot
