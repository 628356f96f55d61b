import PasswordManager.Database.FImmutableTree

/-!
This module contains the trees whose values are at paths that are not inside each other, and the
proof that such a tree is determined by the values at its paths.
-/

namespace FImmutableTree

open SortedEntries FKeys Std

variable {κ ν : Type}

@[simp]
theorem value_node (v : Option ν) (children : List (κ × FImmutableTree κ ν))
    : (node v children).value = v := by
  rfl

@[simp]
theorem children_node (v : Option ν) (children : List (κ × FImmutableTree κ ν))
    : (node v children).children = children := by
  rfl

theorem isEmpty_iff {self : FImmutableTree κ ν} : self.isEmpty = true ↔ self = empty := by
  cases self with
  | node value children =>
    unfold isEmpty empty
    rw [value_node, children_node]
    simp

variable [FKeys κ]

inductive WellFormed : FImmutableTree κ ν → Prop where
  | value (value : ν) : WellFormed (.node (some value) [])
  | inner (children : List (κ × FImmutableTree κ ν)) (sorted : Sorted stringComparator children)
      (wellFormed : ∀ entry ∈ children, WellFormed entry.2)
      (nonempty : ∀ entry ∈ children, entry.2.isEmpty = false)
    : WellFormed (.node none children)

theorem wellFormed_empty : WellFormed (empty : FImmutableTree κ ν) := by
  apply WellFormed.inner
  . exact List.Pairwise.nil
  . intro entry hentry
    cases hentry
  . intro entry hentry
    cases hentry

theorem wellFormed_initWithValue (value : Option ν)
    : WellFormed (initWithValue value : FImmutableTree κ ν) := by
  cases value with
  | none => exact wellFormed_empty
  | some value => exact WellFormed.value value

theorem valueAtPath_cons (front : κ) (rest : FPath κ) (self : FImmutableTree κ ν)
    : valueAtPath (front :: rest) self
        =
      (lookup stringComparator front self.children).bind (valueAtPath rest) := by
  conv_lhs => unfold valueAtPath
  cases lookup stringComparator front self.children with
  | none => rfl
  | some child => rfl

@[simp]
theorem valueAtPath_empty (path : FPath κ)
    : valueAtPath path (empty : FImmutableTree κ ν) = none := by
  cases path with
  | nil => rfl
  | cons front rest =>
    rw [valueAtPath_cons]
    rfl

theorem valueAtPath_getD (path : FPath κ) (child : Option (FImmutableTree κ ν))
    : valueAtPath path (child.getD empty) = child.bind (valueAtPath path) := by
  cases child with
  | none => simp
  | some child => rfl

theorem mem_of_lookup {key : κ} {children : List (κ × FImmutableTree κ ν)}
    {child : FImmutableTree κ ν} (h : lookup stringComparator key children = some child)
    : ∃ entry ∈ children, entry.2 = child := by
  unfold lookup at h
  rw [Option.map_eq_some_iff] at h
  obtain ⟨entry, hentry, hchild⟩ := h
  exact ⟨entry, List.mem_of_find?_eq_some hentry, hchild⟩

namespace WellFormed

variable {self other : FImmutableTree κ ν}

theorem sorted (h : WellFormed self) : Sorted stringComparator self.children := by
  cases h with
  | value value => exact List.Pairwise.nil
  | inner children sorted wellFormed nonempty => exact sorted

theorem child (h : WellFormed self) {key : κ} {child : FImmutableTree κ ν}
    (hlookup : lookup stringComparator key self.children = some child)
    : WellFormed child ∧ child.isEmpty = false := by
  cases h with
  | value value => simp [lookup] at hlookup
  | inner children sorted wellFormed nonempty =>
    obtain ⟨entry, hentry, hchild⟩ := mem_of_lookup hlookup
    subst hchild
    exact ⟨wellFormed entry hentry, nonempty entry hentry⟩

theorem getD_child (h : WellFormed self) (key : κ)
    : WellFormed ((lookup stringComparator key self.children).getD empty) := by
  cases hlookup : lookup stringComparator key self.children with
  | none => exact wellFormed_empty
  | some child => exact (h.child hlookup).left

variable [LawfulFKeys κ]

theorem exists_value (h : WellFormed self) (hne : self.isEmpty = false)
    : ∃ path value, valueAtPath path self = some value := by
  induction h with
  | value value => exact ⟨[], value, rfl⟩
  | inner children sorted wellFormed nonempty ih =>
    cases children with
    | nil => cases hne
    | cons entry children =>
      obtain ⟨path, value, hvalue⟩ := ih entry List.mem_cons_self
        (nonempty entry List.mem_cons_self)
      refine ⟨entry.1 :: path, value, ?_⟩
      have hself : stringComparator entry.1 entry.1 = .eq := ReflCmp.compare_self
      rw [valueAtPath_cons, children_node, lookup_cons_of_eq hself]
      exact hvalue

theorem eq_of_valueAtPath (h : WellFormed self) (hother : WellFormed other)
    (hvalues : ∀ path, valueAtPath path self = valueAtPath path other) : self = other := by
  induction h generalizing other with
  | value value =>
    cases hother with
    | value otherValue =>
      have hroot := hvalues []
      cases hroot
      rfl
    | inner children sorted wellFormed nonempty => cases hvalues []
  | inner children sorted wellFormed nonempty ih =>
    cases hother with
    | value otherValue => cases hvalues []
    | inner otherChildren otherSorted otherWellFormed otherNonempty =>
      rw [eq_of_lookup sorted otherSorted]
      intro key
      have hbelow : ∀ path, (lookup stringComparator key children).bind (valueAtPath path)
          =
        (lookup stringComparator key otherChildren).bind (valueAtPath path) := by
        intro path
        have hpath := hvalues (key :: path)
        rw [valueAtPath_cons, valueAtPath_cons] at hpath
        exact hpath
      -- a subtree that is kept has a value, so that both trees keep it or neither does
      cases hchild : lookup stringComparator key children with
      | none =>
        cases hotherChild : lookup stringComparator key otherChildren with
        | none => rfl
        | some otherChild =>
          obtain ⟨entry, hentry, rfl⟩ := mem_of_lookup hotherChild
          obtain ⟨path, value, hvalue⟩ :=
            (otherWellFormed entry hentry).exists_value (otherNonempty entry hentry)
          have hpath := hbelow path
          rw [hchild, hotherChild, Option.bind_none, Option.bind_some, hvalue] at hpath
          cases hpath
      | some child =>
        obtain ⟨entry, hentry, rfl⟩ := mem_of_lookup hchild
        cases hotherChild : lookup stringComparator key otherChildren with
        | none =>
          obtain ⟨path, value, hvalue⟩ :=
            (wellFormed entry hentry).exists_value (nonempty entry hentry)
          have hpath := hbelow path
          rw [hchild, hotherChild, Option.bind_none, Option.bind_some, hvalue] at hpath
          cases hpath
        | some otherChild =>
          rw [hchild, hotherChild] at hbelow
          obtain ⟨otherEntry, hotherEntry, rfl⟩ := mem_of_lookup hotherChild
          rw [ih entry hentry (otherWellFormed otherEntry hotherEntry) hbelow]

omit [LawfulFKeys κ] in
theorem none_below (h : WellFormed self) {path : FPath κ} {value : ν}
    (hvalue : valueAtPath path self = some value) {rest : FPath κ} (hne : rest ≠ [])
    : valueAtPath (path ++ rest) self = none := by
  induction path generalizing self with
  | nil =>
    cases h with
    | value other =>
      cases rest with
      | nil => exact absurd rfl hne
      | cons front rest =>
        rw [List.nil_append, valueAtPath_cons]
        rfl
    | inner children sorted wellFormed nonempty => cases hvalue
  | cons front path ih =>
    rw [List.cons_append, valueAtPath_cons]
    rw [valueAtPath_cons] at hvalue
    cases hchild : lookup stringComparator front self.children with
    | none => rfl
    | some child =>
      rw [hchild] at hvalue
      exact ih (h.child hchild).left hvalue

omit [LawfulFKeys κ] in
theorem eq_of_prefix (h : WellFormed self) {path other : FPath κ} (hpre : path <+: other)
    {value : ν} (hvalue : valueAtPath path self = some value) {otherValue : ν}
    (hother : valueAtPath other self = some otherValue) : path = other := by
  obtain ⟨rest, rfl⟩ := hpre
  by_cases hne : rest = []
  . rw [hne, List.append_nil]
  . rw [h.none_below hvalue hne] at hother
    cases hother

end WellFormed

section SetTree

variable {self newTree : FImmutableTree κ ν}

theorem setTree_cons (front : κ) (rest : FPath κ) (newTree self : FImmutableTree κ ν)
    : setTree newTree (front :: rest) self
        =
      if (setTree newTree rest ((lookup stringComparator front self.children).getD empty)).isEmpty then
        .node self.value (erase stringComparator front self.children)
      else
        .node self.value (insertAs stringComparator front front
          (setTree newTree rest ((lookup stringComparator front self.children).getD empty))
          self.children) := by
  rfl

theorem setTree_empty_empty (path : FPath κ)
    : setTree empty path (empty : FImmutableTree κ ν) = empty := by
  induction path with
  | nil => rfl
  | cons front rest ih =>
    have hchild : (lookup stringComparator front (empty : FImmutableTree κ ν).children).getD empty
        =
      empty := by
      rfl
    rw [setTree_cons, hchild, ih]
    rfl

variable [LawfulFKeys κ]

theorem lookup_setTree (h : WellFormed self) (front : κ) (rest : FPath κ) (key : κ)
    (path : FPath κ)
    : valueAtPath (key :: path) (setTree newTree (front :: rest) self)
        =
      if stringComparator key front = .eq then
        valueAtPath path
          (setTree newTree rest ((lookup stringComparator front self.children).getD empty))
      else
        valueAtPath (key :: path) self := by
  have hself : stringComparator front front = .eq := ReflCmp.compare_self
  rw [setTree_cons, valueAtPath_cons]
  split
  . next hempty =>
    rw [isEmpty_iff] at hempty
    rw [children_node, lookup_erase h.sorted, hempty]
    split
    . simp
    . rw [valueAtPath_cons]
  . rw [children_node, lookup_insertAs hself _ h.sorted]
    split
    . rfl
    . rw [valueAtPath_cons]

theorem valueAtPath_setTree_append (h : WellFormed self) (path rest : FPath κ)
    : valueAtPath (path ++ rest) (setTree newTree path self)
        =
      valueAtPath rest newTree := by
  induction path generalizing self with
  | nil => rfl
  | cons front path ih =>
    have hself : stringComparator front front = .eq := ReflCmp.compare_self
    rw [List.cons_append, lookup_setTree h, if_pos hself]
    exact ih (h.getD_child front)

theorem valueAtPath_setTree_apart (h : WellFormed self) {path other : FPath κ}
    (hpre : ¬ path <+: other)
    : valueAtPath other (setTree newTree path self) = valueAtPath other self := by
  induction path generalizing self other with
  | nil => exact absurd List.nil_prefix hpre
  | cons front path ih =>
    cases other with
    | nil =>
      rw [setTree_cons]
      split
      . rfl
      . rfl
    | cons key other =>
      rw [lookup_setTree h]
      split
      . next heq =>
        rw [LawfulEqCmp.compare_eq_iff_eq] at heq
        subst heq
        rw [List.cons_prefix_cons, not_and] at hpre
        rw [ih (h.getD_child key) (hpre rfl), valueAtPath_getD, valueAtPath_cons]
      . rfl

theorem isEmpty_setTree (h : WellFormed self) (hnew : WellFormed newTree)
    (hne : newTree.isEmpty = false) (path : FPath κ)
    : (setTree newTree path self).isEmpty = false := by
  obtain ⟨rest, value, hvalue⟩ := hnew.exists_value hne
  rw [← valueAtPath_setTree_append h path rest] at hvalue
  rw [Bool.eq_false_iff]
  intro hempty
  rw [isEmpty_iff] at hempty
  rw [hempty, valueAtPath_empty] at hvalue
  cases hvalue

theorem WellFormed.setTree (h : WellFormed self) (hnew : WellFormed newTree)
    {path : FPath κ}
    (hfree : newTree = empty
      ∨ ∀ other, other <+: path → other ≠ path → valueAtPath other self = none)
    : WellFormed (setTree newTree path self) := by
  induction path generalizing self with
  | nil => exact hnew
  | cons front path ih =>
    have hself : stringComparator front front = .eq := ReflCmp.compare_self
    have hchild : WellFormed (FImmutableTree.setTree newTree path
        ((lookup stringComparator front self.children).getD empty)) := by
      apply ih (h.getD_child front)
      apply hfree.imp_right
      intro hnone other hother hne
      have hbelow := hnone (front :: other) (List.cons_prefix_cons.mpr ⟨rfl, hother⟩) (by simp [hne])
      rw [valueAtPath_cons] at hbelow
      rw [valueAtPath_getD]
      exact hbelow
    rw [setTree_cons]
    cases h with
    | value value =>
      have hempty : newTree = empty := by
        apply hfree.resolve_right
        intro hnone
        have hroot := hnone [] List.nil_prefix (by simp)
        cases hroot
      have hnone : (lookup stringComparator front (node (some value) []).children).getD empty
          =
        (empty : FImmutableTree κ ν) := by
        rfl
      rw [hempty, hnone, setTree_empty_empty]
      exact WellFormed.value value
    | inner children sorted wellFormed nonempty =>
      split
      . apply WellFormed.inner
        . exact sorted_erase front sorted
        . intro entry hentry
          exact wellFormed entry (List.mem_of_mem_filter hentry)
        . intro entry hentry
          exact nonempty entry (List.mem_of_mem_filter hentry)
      . next hne =>
        rw [Bool.not_eq_true] at hne
        have hentries : ∀ entry ∈ insertAs stringComparator front front
            (FImmutableTree.setTree newTree path
              ((lookup stringComparator front children).getD empty)) children,
            entry ∈ children ∨ entry.2 = FImmutableTree.setTree newTree path
              ((lookup stringComparator front children).getD empty) := by
          intro entry hentry
          unfold insertAs at hentry
          rw [List.mem_append, List.mem_cons] at hentry
          rcases hentry with hbelow | heq | habove
          . exact .inl (List.mem_of_mem_filter hbelow)
          . exact .inr (by rw [heq])
          . exact .inl (List.mem_of_mem_filter habove)
        apply WellFormed.inner
        . exact sorted_insertAs hself _ sorted
        . intro entry hentry
          cases hentries entry hentry with
          | inl hmem => exact wellFormed entry hmem
          | inr heq =>
            rw [heq]
            exact hchild
        . intro entry hentry
          cases hentries entry hentry with
          | inl hmem => exact nonempty entry hmem
          | inr heq =>
            rw [heq]
            exact hne

theorem setValue_eq_setTree (h : WellFormed self) {path : FPath κ} {old : ν}
    (hold : valueAtPath path self = some old) (new : ν)
    : setValue (some new) path self = setTree (initWithValue (some new)) path self := by
  induction path generalizing self with
  | nil =>
    cases h with
    | value value => rfl
    | inner children sorted wellFormed nonempty => cases hold
  | cons front path ih =>
    rw [valueAtPath_cons] at hold
    cases hchild : lookup stringComparator front self.children with
    | none =>
      rw [hchild] at hold
      cases hold
    | some child =>
      rw [hchild] at hold
      have hwellFormed := (h.child hchild).left
      have hnew : (initWithValue (some new) : FImmutableTree κ ν).isEmpty = false := rfl
      have hne := isEmpty_setTree hwellFormed (wellFormed_initWithValue (some new)) hnew path
      have hset : setValue (some new) (front :: path) self
          =
        .node self.value (insertAs stringComparator front front (setValue (some new) path child)
          self.children) := by
        conv_lhs => unfold setValue
        rw [hchild]
        rfl
      rw [hset, setTree_cons, hchild, Option.getD_some, ih hwellFormed hold, hne]
      rfl

end SetTree

section Observers

variable {self : FImmutableTree κ ν}

theorem findRootMost_cons (front : κ) (rest : FPath κ) (self : FImmutableTree κ ν)
    : findRootMostValueAndPath self (front :: rest)
        =
      match self.value with
      | some value => some ([], value)
      | none =>
        (lookup stringComparator front self.children).bind (fun child =>
          (findRootMostValueAndPath child rest).map (fun existing =>
            (front :: existing.1, existing.2))) := by
  unfold findRootMostValueAndPath
  conv_lhs => unfold findRootMostMatchingPath
  cases hvalue : self.value with
  | some value => rfl
  | none =>
    cases hchild : lookup stringComparator front self.children with
    | none => simp [hchild]
    | some child => simp [hchild]

theorem findRootMost_nil (self : FImmutableTree κ ν)
    : findRootMostValueAndPath self [] = self.value.map (fun value => ([], value)) := by
  unfold findRootMostValueAndPath findRootMostMatchingPath
  cases self.value with
  | none => rfl
  | some value => rfl

theorem findRootMost_eq_some_iff (h : WellFormed self) {path found : FPath κ} {value : ν}
    : findRootMostValueAndPath self path = some (found, value)
        ↔
      found <+: path ∧ valueAtPath found self = some value := by
  induction path generalizing self found with
  | nil =>
    rw [findRootMost_nil, Option.map_eq_some_iff]
    constructor
    . intro hfound
      obtain ⟨other, hother, heq⟩ := hfound
      cases heq
      exact ⟨List.nil_prefix, hother⟩
    . intro hfound
      have hnil := List.prefix_nil.mp hfound.left
      subst hnil
      exact ⟨value, hfound.right, rfl⟩
  | cons front rest ih =>
    rw [findRootMost_cons]
    cases hroot : self.value with
    | some other =>
      simp only [Option.some.injEq, Prod.mk.injEq]
      constructor
      . intro hfound
        rw [← hfound.left]
        refine ⟨List.nil_prefix, ?_⟩
        rw [← hfound.right]
        exact hroot
      . intro hfound
        have hnil : [] = found :=
          h.eq_of_prefix List.nil_prefix hroot hfound.right
        subst hnil
        refine ⟨rfl, ?_⟩
        have hvalue : self.value = some value := hfound.right
        rw [hroot] at hvalue
        exact Option.some.inj hvalue
    | none =>
      dsimp only
      cases found with
      | nil =>
        have hvalue : valueAtPath [] self = none := hroot
        rw [hvalue]
        cases lookup stringComparator front self.children with
        | none => simp
        | some child => simp
      | cons key found =>
        rw [List.cons_prefix_cons, valueAtPath_cons]
        cases hchild : lookup stringComparator front self.children with
        | none =>
          simp only [Option.bind_none, reduceCtorEq, false_iff, not_and]
          intro hfound
          rw [hfound.left, hchild]
          simp
        | some child =>
          have hih := @ih child (h.child hchild).left found
          rw [Option.bind_some, Option.map_eq_some_iff]
          constructor
          . intro hfound
            obtain ⟨existing, hexisting, heq⟩ := hfound
            cases heq
            have hbelow := hih.mp hexisting
            rw [hchild]
            exact ⟨⟨rfl, hbelow.left⟩, hbelow.right⟩
          . intro hfound
            obtain ⟨⟨hkey, hpre⟩, hvalue⟩ := hfound
            subst hkey
            rw [hchild] at hvalue
            exact ⟨(found, value), hih.mpr ⟨hpre, hvalue⟩, rfl⟩

theorem findRootMost_eq_none_iff (h : WellFormed self) {path : FPath κ}
    : findRootMostValueAndPath self path = none
        ↔
      ∀ other, other <+: path → valueAtPath other self = none := by
  constructor
  . intro hnone other hother
    cases hvalue : valueAtPath other self with
    | none => rfl
    | some value =>
      have hfound := (findRootMost_eq_some_iff h).mpr ⟨hother, hvalue⟩
      rw [hnone] at hfound
      cases hfound
  . intro hnone
    cases hfound : findRootMostValueAndPath self path with
    | none => rfl
    | some existing =>
      have hparts := (findRootMost_eq_some_iff h).mp hfound
      rw [hnone existing.1 hparts.left] at hparts
      cases hparts.right

omit [FKeys κ] in
theorem enumerateChildren_eq (pathSoFar : FPath κ) (children : List (κ × FImmutableTree κ ν))
    : enumerateChildren pathSoFar children
        =
      children.flatMap (fun entry => forEachPathSoFar (pathSoFar ++ [entry.1]) entry.2) := by
  induction children with
  | nil => rfl
  | cons entry children ih =>
    rw [List.flatMap_cons, ← ih]
    rfl

theorem valueAtPath_subtreeAtPath (path rest : FPath κ)
    : valueAtPath rest (subtreeAtPath path self) = valueAtPath (path ++ rest) self := by
  induction path generalizing self with
  | nil => rfl
  | cons front path ih =>
    rw [List.cons_append, valueAtPath_cons]
    conv_lhs => unfold subtreeAtPath
    cases lookup stringComparator front self.children with
    | none => simp
    | some child => exact ih

theorem WellFormed.subtreeAtPath (h : WellFormed self) (path : FPath κ)
    : WellFormed (subtreeAtPath path self) := by
  induction path generalizing self with
  | nil => exact h
  | cons front path ih =>
    unfold FImmutableTree.subtreeAtPath
    cases hchild : lookup stringComparator front self.children with
    | none => exact wellFormed_empty
    | some child => exact ih (h.child hchild).left

variable [LawfulFKeys κ]

theorem mem_forEachPathSoFar_iff (h : WellFormed self) {pathSoFar path : FPath κ} {value : ν}
    : (path, value) ∈ forEachPathSoFar pathSoFar self
        ↔
      ∃ rest, path = pathSoFar ++ rest ∧ valueAtPath rest self = some value := by
  induction h generalizing pathSoFar path with
  | value other =>
    have hcalls : forEachPathSoFar pathSoFar (node (some other) [])
        =
      [(pathSoFar, other)] := by
      rfl
    rw [hcalls, List.mem_singleton, Prod.mk.injEq]
    constructor
    . intro heq
      exact ⟨[], by rw [heq.left, List.append_nil], by rw [heq.right]; rfl⟩
    . intro hvalue
      obtain ⟨rest, hpath, hrest⟩ := hvalue
      cases rest with
      | nil =>
        cases hrest
        exact ⟨by rw [hpath, List.append_nil], rfl⟩
      | cons front rest => cases hrest
  | inner children sorted wellFormed nonempty ih =>
    have hcalls : forEachPathSoFar pathSoFar (node none children)
        =
      enumerateChildren pathSoFar children := by
      unfold forEachPathSoFar
      simp
    rw [hcalls, enumerateChildren_eq, List.mem_flatMap]
    constructor
    . intro hmem
      obtain ⟨entry, hentry, hcall⟩ := hmem
      obtain ⟨rest, hpath, hvalue⟩ := (ih entry hentry).mp hcall
      refine ⟨entry.1 :: rest, ?_, ?_⟩
      . rw [hpath, List.append_assoc]
        rfl
      . have hlookup : lookup stringComparator entry.1 children = some entry.2 := by
          rw [lookup_eq_some_iff sorted]
          exact ⟨entry, hentry, ReflCmp.compare_self, rfl⟩
        rw [valueAtPath_cons, children_node, hlookup]
        exact hvalue
    . intro hvalue
      obtain ⟨rest, hpath, hvalue⟩ := hvalue
      cases rest with
      | nil => cases hvalue
      | cons front rest =>
        rw [valueAtPath_cons, children_node] at hvalue
        cases hchild : lookup stringComparator front children with
        | none =>
          rw [hchild] at hvalue
          cases hvalue
        | some child =>
          rw [hchild] at hvalue
          rw [lookup_eq_some_iff sorted] at hchild
          obtain ⟨entry, hentry, hkey, rfl⟩ := hchild
          rw [LawfulEqCmp.compare_eq_iff_eq] at hkey
          subst hkey
          refine ⟨entry, hentry, (ih entry hentry).mpr ⟨rest, ?_, hvalue⟩⟩
          rw [hpath, List.append_assoc]
          rfl

theorem mem_forEach_iff (h : WellFormed self) {path : FPath κ} {value : ν}
    : (path, value) ∈ self.forEach ↔ valueAtPath path self = some value := by
  unfold forEach
  rw [mem_forEachPathSoFar_iff h]
  constructor
  . intro hcall
    obtain ⟨rest, hpath, hvalue⟩ := hcall
    rw [hpath]
    exact hvalue
  . intro hvalue
    exact ⟨path, rfl, hvalue⟩

end Observers

end FImmutableTree
