import PasswordManager.SortedDictionary.Refinement

/-!
This module contains the results about all dictionaries that come out of a sequence of updates,
across the change from the arrays to the tree.
-/

open Std SortedEntries

variable {α β : Type} {cmp : α → α → Ordering}

namespace FImmutableSortedDictionary

inductive Represents : FImmutableSortedDictionary α β → List (α × β) → Prop where
  | array {d : FArraySortedDictionary α β} {entries : List (α × β)} (h : d.Represents entries)
    (hsize : entries.length ≤ SORTED_DICTIONARY_ARRAY_TO_RB_TREE_SIZE_THRESHOLD)
    : Represents (.array d) entries
  | tree {d : FTreeSortedDictionary α β} {entries : List (α × β)} (h : d.Represents entries)
    : Represents (.tree d) entries

variable [TransCmp cmp] {d : FImmutableSortedDictionary α β} {entries : List (α × β)}

theorem get_eq (h : d.Represents entries) (hsorted : Sorted cmp entries) (key : α)
    : d.get cmp key = lookup cmp key entries := by
  cases h with
  | array h hsize => exact FArraySortedDictionary.get_eq h hsorted key
  | tree h => exact FTreeSortedDictionary.get_eq h hsorted key

theorem contains_eq (h : d.Represents entries) (hsorted : Sorted cmp entries) (key : α)
    : d.contains cmp key = (lookup cmp key entries).isSome := by
  cases h with
  | array h hsize => exact FArraySortedDictionary.contains_eq h hsorted key
  | tree h =>
    change (FTreeSortedDictionary.get cmp _ key).isSome = _
    rw [FTreeSortedDictionary.get_eq h hsorted key]

omit [TransCmp cmp] in
theorem count_eq (h : d.Represents entries) : d.count = entries.length := by
  cases h with
  | array h hsize =>
    change List.length _ = _
    rw [h.keys, List.length_map]
  | tree h =>
    change FLLRBNode.count _ = _
    rw [← FLLRBNode.length_toList, h.toList]

theorem distinct_append {key : α} (hsorted : Sorted cmp entries)
    (hne : ∀ entry ∈ entries, cmp key entry.1 ≠ .eq) (value : β)
    : Distinct cmp (entries ++ [(key, value)]) := by
  have hself : cmp key key = .eq := ReflCmp.compare_self
  have hinserted := sorted_insertAs hself value hsorted
  rw [← distinct_perm (insertAs_perm value hne)]
  exact hinserted.distinct

theorem represents_insertKey_array {d : FArraySortedDictionary α β} (h : d.Represents entries)
    (hsize : entries.length ≤ SORTED_DICTIONARY_ARRAY_TO_RB_TREE_SIZE_THRESHOLD)
    (hsorted : Sorted cmp entries) (key : α) (value : β)
    : ∃ next, d.insertKey cmp key value = .ok next
        ∧ next.Represents (insertAs cmp key key value entries) := by
  have hself : cmp key key = .eq := ReflCmp.compare_self
  unfold FArraySortedDictionary.insertKey
  cases sorted_split hsorted key with
  | inr hsplit =>
    obtain ⟨found, hfound, hsplit⟩ := hsplit
    have hparts := h.parts hsplit
    rw [FArraySortedDictionary.findKey_of_present h hfound hsplit]
    refine ⟨_, rfl, .array ?_ ?_⟩
    . constructor
      . simp [hparts.left, insertAs]
      . simp [hparts.right, insertAs]
    . have hlength := congrArg List.length hsplit
      simp only [List.length_append, List.length_cons] at hlength
      simp only [insertAs, List.length_append, List.length_cons]
      omega
  | inl hsplit =>
    have hne : ∀ entry ∈ entries, cmp key entry.1 ≠ .eq := by
      intro entry hentry heq
      have hsome := (lookup_eq_some_iff hsorted entry.2).mpr ⟨entry, hentry, heq, rfl⟩
      rw [hsplit.left] at hsome
      cases hsome
    have hcount : d.count = entries.length := by
      unfold FArraySortedDictionary.count
      rw [h.keys, List.length_map]
    rw [FArraySortedDictionary.findKey_of_absent h hsplit.right]
    dsimp only
    split
    . next hlarge =>
      obtain ⟨root, hroot, hlist, hbalanced⟩ :=
        FTreeSortedDictionary.fromDictionary_of_distinct (distinct_append hsorted hne value)
      have hsort := sort_eq_of_perm (sorted_insertAs hself value hsorted) (insertAs_perm value hne)
      rw [h.zip, hroot]
      refine ⟨_, rfl, .tree ⟨?_, hbalanced⟩⟩
      rw [hlist, hsort]
    . next hsmall =>
      have hlength := congrArg List.length hsplit.right
      have hkeys : d.keys
          =
        (below cmp key entries).map Prod.fst ++ (above cmp key entries).map Prod.fst := by
        rw [h.keys, ← List.map_append, ← hsplit.right]
      have hvalues : d.values
          =
        (below cmp key entries).map Prod.snd ++ (above cmp key entries).map Prod.snd := by
        rw [h.values, ← List.map_append, ← hsplit.right]
      rw [FArraySortedDictionary.findInsertPosition_eq h hsorted key, hkeys, hvalues]
      refine ⟨_, rfl, .array ?_ ?_⟩
      . have hfst := FArraySortedDictionary.length_insertIdx ((below cmp key entries).map Prod.fst)
          ((above cmp key entries).map Prod.fst) key
        have hsnd := FArraySortedDictionary.length_insertIdx ((below cmp key entries).map Prod.snd)
          ((above cmp key entries).map Prod.snd) value
        rw [List.length_map] at hfst hsnd
        constructor
        . simp [insertAs, hfst]
        . simp [insertAs, hsnd]
      . simp only [List.length_append] at hlength
        simp only [insertAs, List.length_append, List.length_cons]
        omega

theorem represents_insertKey (h : d.Represents entries) (hsorted : Sorted cmp entries) (key : α)
    (value : β)
    : ∃ next stored, d.insertKey cmp key value = .ok next ∧ cmp key stored = .eq
        ∧ next.Represents (insertAs cmp stored key value entries) := by
  cases h with
  | tree h =>
    exact ⟨_, _, rfl, storedKey_eq key entries,
      .tree (FTreeSortedDictionary.represents_insertKey h hsorted key value)⟩
  | array h hsize =>
    obtain ⟨next, hnext, hrepresents⟩ := represents_insertKey_array h hsize hsorted key value
    exact ⟨next, key, hnext, ReflCmp.compare_self, hrepresents⟩

theorem represents_removeKey (h : d.Represents entries) (hsorted : Sorted cmp entries) (key : α)
    : (d.removeKey cmp key).Represents (erase cmp key entries) := by
  cases h with
  | tree h => exact .tree (FTreeSortedDictionary.represents_removeKey h hsorted key)
  | array h hsize =>
    refine .array (FArraySortedDictionary.represents_removeKey h hsorted key) ?_
    have hlength := List.length_filter_le (fun entry => decide (cmp key entry.1 ≠ .eq)) entries
    exact Nat.le_trans hlength hsize

theorem fromDictionary_of_distinct {dictionary : List (α × β)} (h : Distinct cmp dictionary)
    : ∃ d, fromDictionary cmp dictionary = .ok d ∧ d.Represents (sort cmp dictionary) := by
  unfold fromDictionary
  split
  . next hsize =>
    have hascending : ascending cmp (sort cmp dictionary) = true := by
      rw [ascending_iff, sorted_sort_iff]
      exact h
    refine ⟨.array ⟨(sort cmp dictionary).map Prod.fst, (sort cmp dictionary).map Prod.snd⟩, ?_,
      .array ⟨rfl, rfl⟩ ?_⟩
    . simp [FArraySortedDictionary.fromDictionary, hascending, bind, Except.bind, pure, Except.pure]
    . rw [(sort_perm dictionary).length_eq]
      exact hsize
  . obtain ⟨d, hd, hlist, hbalanced⟩ := FTreeSortedDictionary.fromDictionary_of_distinct h
    refine ⟨.tree d, ?_, .tree ⟨hlist, hbalanced⟩⟩
    simp [hd, bind, Except.bind, pure, Except.pure]

theorem fromDictionary_of_not_distinct {dictionary : List (α × β)} (h : ¬ Distinct cmp dictionary)
    : fromDictionary cmp dictionary = .error .sameOrdering := by
  unfold fromDictionary
  split
  . have hascending : ascending cmp (sort cmp dictionary) = false := by
      rw [Bool.eq_false_iff]
      intro hascending
      rw [ascending_iff, sorted_sort_iff] at hascending
      exact h hascending
    simp [FArraySortedDictionary.fromDictionary, hascending, bind, Except.bind, throw, throwThe,
      MonadExceptOf.throw]
  . rw [FTreeSortedDictionary.fromDictionary_of_not_distinct h]
    rfl

theorem enumerate_eq {σ : Type} (block : α → β → σ → Bool × σ) (entries : List (α × β)) (s : σ)
    : FArraySortedDictionary.enumerate block entries s = (FLLRBNode.visit block entries s).2 := by
  induction entries generalizing s with
  | nil => rfl
  | cons entry entries ih =>
    unfold FArraySortedDictionary.enumerate FLLRBNode.visit
    dsimp only
    split
    . rfl
    . apply ih

omit [TransCmp cmp] in
theorem enumerateKeysAndObjectsReverse_eq {σ : Type} (h : d.Represents entries) (reverse : Bool)
    (block : α → β → σ → Bool × σ) (s : σ)
    : d.enumerateKeysAndObjectsReverse reverse block s
        =
      (FLLRBNode.visit block (if reverse then entries.reverse else entries) s).2 := by
  cases h with
  | array h hsize =>
    unfold enumerateKeysAndObjectsReverse FArraySortedDictionary.enumerateKeysAndObjectsReverse
    dsimp only
    rw [h.zip]
    split
    . apply enumerate_eq
    . apply enumerate_eq
  | tree h =>
    unfold enumerateKeysAndObjectsReverse FTreeSortedDictionary.enumerateKeysAndObjectsReverse
    dsimp only
    split
    . rw [FLLRBNode.reverseTraversal_eq, h.toList]
    . rw [FLLRBNode.inorderTraversal_eq, h.toList]

omit [TransCmp cmp] in
theorem allEntries_eq (h : d.Represents entries) : d.allEntries = entries := by
  have hvisit : ∀ (rest seen : List (α × β)),
      (FLLRBNode.visit (fun key value seen => (false, seen ++ [(key, value)])) rest seen).2
        =
      seen ++ rest := by
    intro rest
    induction rest with
    | nil => simp [FLLRBNode.visit]
    | cons entry rest ih =>
      intro seen
      simp only [FLLRBNode.visit, Bool.false_eq_true, ↓reduceIte]
      rw [ih]
      simp
  unfold allEntries
  rw [enumerateKeysAndObjectsReverse_eq h]
  simpa using hvisit entries []

def Update.onMap (cmp : α → α → Ordering) (map : α → Option β) : Update α β → α → Option β
  | .insert key value => fun other => if cmp other key = .eq then some value else map other
  | .remove key => fun other => if cmp other key = .eq then none else map other

theorem represents_apply (h : d.Represents entries) (hsorted : Sorted cmp entries)
    (update : Update α β)
    : ∃ next after, d.apply cmp update = .ok next ∧ next.Represents after ∧ Sorted cmp after
        ∧ ∀ other, lookup cmp other after
          = update.onMap cmp (fun key => lookup cmp key entries) other := by
  cases update with
  | insert key value =>
    obtain ⟨next, stored, hnext, hstored, hrepresents⟩ := represents_insertKey h hsorted key value
    exact ⟨next, _, hnext, hrepresents, sorted_insertAs hstored value hsorted,
      lookup_insertAs hstored value hsorted⟩
  | remove key =>
    exact ⟨_, _, rfl, represents_removeKey h hsorted key, sorted_erase key hsorted,
      lookup_erase hsorted⟩

theorem represents_applyAll (h : d.Represents entries) (hsorted : Sorted cmp entries)
    (updates : List (Update α β))
    : ∃ final after, d.applyAll cmp updates = .ok final ∧ final.Represents after ∧ Sorted cmp after
        ∧ ∀ other, lookup cmp other after
          = updates.foldl (fun map update => update.onMap cmp map)
              (fun key => lookup cmp key entries) other := by
  induction updates generalizing d entries with
  | nil => exact ⟨d, entries, rfl, h, hsorted, fun _ => rfl⟩
  | cons update updates ih =>
    obtain ⟨next, after, hnext, hrepresents, hafter, hmap⟩ := represents_apply h hsorted update
    obtain ⟨final, last, hfinal, hlast, hsortedLast, hlookup⟩ := ih hrepresents hafter
    refine ⟨final, last, ?_, hlast, hsortedLast, ?_⟩
    . unfold applyAll
      rw [hnext]
      exact hfinal
    . intro other
      rw [hlookup, List.foldl_cons]
      have heq : (fun key => lookup cmp key after)
          =
        update.onMap cmp (fun key => lookup cmp key entries) := funext hmap
      rw [heq]

theorem represents_run {dictionary : List (α × β)} (h : Distinct cmp dictionary)
    (updates : List (Update α β))
    : ∃ final after, run cmp dictionary updates = .ok final
        ∧ final.Represents after ∧ Sorted cmp after
        ∧ ∀ other, lookup cmp other after
          = updates.foldl (fun map update => update.onMap cmp map)
              (fun key => lookup cmp key dictionary) other := by
  obtain ⟨start, hstart, hrepresents⟩ := fromDictionary_of_distinct h
  obtain ⟨final, after, hfinal, hafter, hsorted, hlookup⟩ :=
    represents_applyAll hrepresents ((sorted_sort_iff dictionary).mpr h) updates
  refine ⟨final, after, ?_, hafter, hsorted, ?_⟩
  . unfold run
    rw [hstart]
    exact hfinal
  . have heq : (fun key => lookup cmp key (sort cmp dictionary))
        =
      (fun key => lookup cmp key dictionary) := by
      funext key
      exact lookup_sort key h
    intro other
    rw [hlookup, heq]

/--
Whatever updates a dictionary has seen, none of them raises, it has the objects of the map that has
seen the same updates, and it gives out exactly these, with the keys in their order.
-/
theorem updates_follow_map {dictionary : List (α × β)} (h : Distinct cmp dictionary)
    (updates : List (Update α β))
    : ∃ final, run cmp dictionary updates = .ok final
        ∧ (∀ key, final.get cmp key
          = updates.foldl (fun map update => update.onMap cmp map)
              (fun key => lookup cmp key dictionary) key)
        ∧ Sorted cmp final.allEntries
        ∧ (∀ key value, final.get cmp key = some value
          ↔ ∃ entry ∈ final.allEntries, cmp key entry.1 = .eq ∧ entry.2 = value)
        ∧ (∀ key, final.contains cmp key = (final.get cmp key).isSome)
        ∧ final.count = final.allEntries.length := by
  obtain ⟨final, after, hfinal, hafter, hsorted, hlookup⟩ := represents_run h updates
  have hentries := allEntries_eq hafter
  refine ⟨final, hfinal, ?_, ?_, ?_, ?_, ?_⟩
  . intro key
    rw [get_eq hafter hsorted, hlookup]
  . rw [hentries]
    exact hsorted
  . intro key value
    rw [get_eq hafter hsorted, hentries, lookup_eq_some_iff hsorted]
  . intro key
    rw [contains_eq hafter hsorted, get_eq hafter hsorted]
  . rw [hentries, count_eq hafter]

theorem updates_follow_map_reference
    : ∃ final : FImmutableSortedDictionary Nat Nat,
        run compare [(2, 20), (1, 10)] [.remove 2, .insert 3 30] = .ok final
        ∧ final.get compare 2 = none := by
  have hdistinct : Distinct compare [(2, 20), (1, 10)] := by
    simp [Distinct, compare, compareOfLessAndEq]
  obtain ⟨final, hfinal, hget, -⟩ :=
    updates_follow_map hdistinct [.remove 2, .insert 3 30]
  refine ⟨final, hfinal, ?_⟩
  rw [hget]
  decide

/--
The trees pass the checks of their own, and no key is further down than twice the logarithm.
-/
theorem updates_keep_balance {dictionary : List (α × β)} (h : Distinct cmp dictionary)
    (updates : List (Update α β)) {self : FTreeSortedDictionary α β}
    (hfinal : run cmp dictionary updates = .ok (.tree self))
    : (∃ n, self.root.check = .ok n) ∧ self.root.checkMaxDepth = .ok true
        ∧ self.root.depth ≤ 2 * Nat.log2 (self.count + 1) := by
  obtain ⟨final, after, hrun, hafter, -, -⟩ := represents_run h updates
  rw [hrun] at hfinal
  injection hfinal with hfinal
  subst hfinal
  cases hafter with
  | tree hafter =>
    cases hafter.balanced with
    | intro n hbalanced =>
      have hdepth := FLLRBNode.depth_le hbalanced
      have hcount := FLLRBNode.pow_le_count hbalanced
      have hlog : n ≤ Nat.log2 (self.root.count + 1) := by
        rw [Nat.le_log2 (by omega)]
        exact hcount
      refine ⟨⟨n, ?_⟩, FLLRBNode.checkMaxDepth_of_balanced hbalanced, ?_⟩
      . rw [FLLRBNode.check_eq_ok_iff]
        exact ⟨.black, hbalanced⟩
      . simp only [reduceCtorEq, ↓reduceIte, Nat.add_zero] at hdepth
        unfold FTreeSortedDictionary.count
        omega

def thirty : List (Nat × Nat) :=
  (List.range 30).map (fun key => (key, key))

theorem sorted_thirty : Sorted compare thirty := by
  unfold Sorted
  decide

theorem exists_tree_of_thirty
    : ∃ self : FTreeSortedDictionary Nat Nat, run compare thirty [.remove 3] = .ok (.tree self)
        ∧ Represents (.tree self) (erase compare 3 thirty) := by
  obtain ⟨d, hd, hlist, hbalanced⟩ :=
    FTreeSortedDictionary.fromDictionary_of_distinct sorted_thirty.distinct
  have hrepresents : Represents (.tree d) (sort compare thirty) := .tree ⟨hlist, hbalanced⟩
  rw [sort_eq_of_perm sorted_thirty (List.Perm.refl _)] at hrepresents
  refine ⟨d.removeKey compare 3, ?_, represents_removeKey hrepresents sorted_thirty 3⟩
  unfold run fromDictionary
  rw [if_neg (by decide), hd]
  rfl

theorem updates_keep_balance_reference
    : ∃ self : FTreeSortedDictionary Nat Nat, run compare thirty [.remove 3] = .ok (.tree self)
        ∧ self.root.checkMaxDepth = .ok true := by
  obtain ⟨self, hrun, -⟩ := exists_tree_of_thirty
  exact ⟨self, hrun, (updates_keep_balance sorted_thirty.distinct [.remove 3] hrun).right.left⟩

theorem predecessor_loop_eq {key : α} {node : FLLRBNode α β} (h : Sorted cmp node.toList)
    (rightParent : Option α)
    : FTreeSortedDictionary.getPredecessorKey.loop cmp key node rightParent
        =
      if (lookup cmp key node.toList).isSome then
        .ok (((below cmp key node.toList).getLast?.map Prod.fst).or rightParent)
      else
        .error .nonexistentKey := by
  induction node generalizing rightParent with
  | empty => rfl
  | node nodeKey value c l r ihl ihr =>
    have hparts := sorted_node_iff.mp h
    rw [FLLRBNode.toList_node] at h ⊢
    unfold FTreeSortedDictionary.getPredecessorKey.loop
    split
    . next heq =>
      have hnotLt : cmp key nodeKey ≠ .lt := by simp [heq]
      have hfront := gt_front_of_not_lt h hnotLt
      have hback := lt_back_of_eq h heq
      have hne : ∀ entry ∈ l.toList, cmp key entry.1 ≠ .eq := by
        intro entry hentry
        simp [hfront entry hentry]
      have hhere : below cmp key ((nodeKey, value) :: r.toList) = [] := by
        have hrest := below_of_lt hback
        unfold below at hrest ⊢
        rw [List.filter_cons_of_neg (by simp [heq]), hrest]
      rw [lookup_append_right hne, lookup_cons_of_eq heq, below_append, below_of_gt hfront, hhere,
        List.append_nil]
      simp only [Option.isSome_some, ↓reduceIte]
      rw [FLLRBNode.maxKey_eq]
      cases l with
      | empty => rfl
      | node lkey lvalue lc ll lr =>
        have hsome : ((FLLRBNode.node lkey lvalue lc ll lr).toList.getLast?).isSome := by
          simp
        cases hlast : (FLLRBNode.node lkey lvalue lc ll lr).toList.getLast? with
        | none =>
          rw [hlast] at hsome
          cases hsome
        | some entry => rfl
    . next hlt =>
      have hback := lt_back_of_lt h hlt
      have hne : ∀ entry ∈ (nodeKey, value) :: r.toList, cmp key entry.1 ≠ .eq := by
        intro entry hentry
        simp [hback entry hentry]
      rw [ihl hparts.left, lookup_append_left hne, below_append, below_of_lt hback, List.append_nil]
    . next hgt =>
      have hnotLt : cmp key nodeKey ≠ .lt := by simp [hgt]
      have hfront := gt_front_of_not_lt h hnotLt
      have hne : ∀ entry ∈ l.toList, cmp key entry.1 ≠ .eq := by
        intro entry hentry
        simp [hfront entry hentry]
      have hlookup : lookup cmp key ((nodeKey, value) :: r.toList) = lookup cmp key r.toList := by
        simp [lookup, hgt]
      have hhere : below cmp key ((nodeKey, value) :: r.toList)
          =
        (nodeKey, value) :: below cmp key r.toList := by
        unfold below
        rw [List.filter_cons_of_pos (by simp [hgt])]
      rw [ihr hparts.right.left, lookup_append_right hne, hlookup, below_append, below_of_gt hfront,
        hhere]
      congr 2
      rw [List.getLast?_append, List.getLast?_cons]
      cases (below cmp key r.toList).getLast? with
      | none => simp
      | some entry => simp

theorem getPredecessorKey_eq (h : d.Represents entries) (hsorted : Sorted cmp entries) (key : α)
    : d.getPredecessorKey cmp key
        =
      if (lookup cmp key entries).isSome then
        .ok ((below cmp key entries).getLast?.map Prod.fst)
      else
        .error (if d.isTree then .nonexistentKey else .noPredecessor) := by
  cases h with
  | tree h =>
    have htoList := h.toList
    subst htoList
    change FTreeSortedDictionary.getPredecessorKey.loop cmp key _ none = _
    rw [predecessor_loop_eq hsorted, Option.or_none]
    rfl
  | @array d _ h hsize =>
    change d.getPredecessorKey cmp key = _
    unfold FArraySortedDictionary.getPredecessorKey
    cases sorted_split hsorted key with
    | inl hsplit =>
      rw [FArraySortedDictionary.findKey_of_absent h hsplit.right, hsplit.left]
      rfl
    | inr hsplit =>
      obtain ⟨found, hfound, hsplit⟩ := hsplit
      have hlookup : lookup cmp key entries = some found.2 := by
        rw [lookup_eq_some_iff hsorted]
        refine ⟨found, ?_, hfound, rfl⟩
        rw [hsplit]
        simp
      rw [FArraySortedDictionary.findKey_of_present h hfound hsplit, hlookup]
      simp only [Option.isSome_some, ↓reduceIte]
      split
      . next hzero =>
        rw [List.length_eq_zero_iff] at hzero
        rw [hzero]
        rfl
      . next hpos =>
        rw [(h.parts hsplit).left, List.getLast?_eq_getElem?,
          List.getElem?_append_left (by rw [List.length_map]; omega), List.getElem?_map]

/--
The predecessor of a key that is there is the last one in front of it; the arrays and the tree raise
under different names for a key that is not.
-/
theorem predecessor_after_updates {dictionary : List (α × β)} (h : Distinct cmp dictionary)
    (updates : List (Update α β)) {final : FImmutableSortedDictionary α β}
    (hfinal : run cmp dictionary updates = .ok final) (key : α)
    : final.getPredecessorKey cmp key
        =
      if final.contains cmp key then
        .ok ((final.allEntries.map Prod.fst).filter (fun other => cmp key other = .gt)).getLast?
      else
        .error (if final.isTree then .nonexistentKey else .noPredecessor) := by
  obtain ⟨found, entries, hrun, hrepresents, hsorted, -⟩ := represents_run h updates
  rw [hrun] at hfinal
  injection hfinal with hfinal
  subst hfinal
  rw [getPredecessorKey_eq hrepresents hsorted, contains_eq hrepresents hsorted,
    allEntries_eq hrepresents, List.filter_map, List.getLast?_map]
  rfl

theorem predecessor_after_updates_tree
    : ∃ self : FTreeSortedDictionary Nat Nat, run compare thirty [.remove 3] = .ok (.tree self)
        ∧ getPredecessorKey compare (.tree self) 4 = .ok (some 2)
        ∧ getPredecessorKey compare (.tree self) 3 = .error .nonexistentKey := by
  obtain ⟨self, hrun, hrepresents⟩ := exists_tree_of_thirty
  have hsorted := sorted_erase 3 sorted_thirty
  refine ⟨self, hrun, ?_, ?_⟩
  . rw [predecessor_after_updates sorted_thirty.distinct [.remove 3] hrun,
      contains_eq hrepresents hsorted, allEntries_eq hrepresents, if_pos (by decide)]
    decide
  . rw [predecessor_after_updates sorted_thirty.distinct [.remove 3] hrun,
      contains_eq hrepresents hsorted, if_neg (by decide)]
    rfl

end FImmutableSortedDictionary
