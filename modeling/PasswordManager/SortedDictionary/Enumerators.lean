import PasswordManager.SortedDictionary.Runs

/-!
This module contains the enumerators of the keys: which keys they give out, one call after the
other, from where they start.
-/

open Std SortedEntries

variable {α β : Type} {cmp : α → α → Ordering}

namespace FTreeSortedDictionaryEnumerator

def ordered (isReverse : Bool) (entries : List (α × β)) : List α :=
  if isReverse then (entries.map Prod.fst).reverse else entries.map Prod.fst

def keysOf (isReverse : Bool) : FLLRBNode α β → List α
  | .empty => []
  | .node key _ _ l r => key :: ordered isReverse (if isReverse then l else r).toList

structure Gives (e : FTreeSortedDictionaryEnumerator α β) (keys : List α) : Prop where
  nodes : ∀ node ∈ e.stack, node.isEmpty = false
  keys : e.stack.flatMap (keysOf e.isReverse) = keys

theorem pushAll_keys (isReverse : Bool) (node : FLLRBNode α β) (stack : List (FLLRBNode α β))
    (hstack : ∀ node ∈ stack, node.isEmpty = false)
    : (∀ other ∈ pushAll isReverse node stack, other.isEmpty = false)
        ∧ (pushAll isReverse node stack).flatMap (keysOf isReverse)
          = ordered isReverse node.toList ++ stack.flatMap (keysOf isReverse) := by
  induction node generalizing stack with
  | empty =>
    refine ⟨hstack, ?_⟩
    cases isReverse with
    | true => rfl
    | false => rfl
  | node key value c l r ihl ihr =>
    have hpushed : ∀ other ∈ FLLRBNode.node key value c l r :: stack, other.isEmpty = false := by
      intro other hother
      cases List.mem_cons.mp hother with
      | inl heq => rw [heq, FLLRBNode.isEmpty_node]
      | inr hother => exact hstack other hother
    cases isReverse with
    | true =>
      obtain ⟨hnodes, hkeys⟩ := ihr _ hpushed
      refine ⟨hnodes, ?_⟩
      rw [pushAll, if_pos rfl, hkeys]
      simp [keysOf, ordered]
    | false =>
      obtain ⟨hnodes, hkeys⟩ := ihl _ hpushed
      refine ⟨hnodes, ?_⟩
      rw [pushAll, if_neg (by simp), hkeys]
      simp [keysOf, ordered]

theorem nextObject_gives {e : FTreeSortedDictionaryEnumerator α β} {keys : List α}
    (h : e.Gives keys)
    : e.nextObject.1 = keys.head? ∧ e.nextObject.2.Gives keys.tail := by
  obtain ⟨stack, isReverse⟩ := e
  obtain ⟨hnodes, hkeys⟩ := h
  dsimp only at hnodes hkeys
  subst hkeys
  unfold nextObject
  cases stack with
  | nil => exact ⟨rfl, hnodes, rfl⟩
  | cons node stack =>
    have hrest : ∀ node ∈ stack, node.isEmpty = false := by
      intro other hother
      exact hnodes other (List.mem_cons_of_mem _ hother)
    cases node with
    | empty => cases hnodes .empty List.mem_cons_self
    | node key value c l r =>
      have hpush := pushAll_keys isReverse (if isReverse then l else r) stack hrest
      exact ⟨rfl, hpush.left, hpush.right⟩

section Start

variable [TransCmp cmp] (startKey : α)

theorem loop_forward (node : FLLRBNode α β) (stack : List (FLLRBNode α β))
    (hstack : ∀ node ∈ stack, node.isEmpty = false) (hsorted : Sorted cmp node.toList)
    : (∀ other ∈ new.loop cmp (some startKey) false node stack, other.isEmpty = false)
        ∧ (new.loop cmp (some startKey) false node stack).flatMap (keysOf false)
          = (node.toList.filter (fun entry => cmp startKey entry.1 ≠ .gt)).map Prod.fst
            ++ stack.flatMap (keysOf false) := by
  induction node generalizing stack with
  | empty => exact ⟨hstack, rfl⟩
  | node key value c l r ihl ihr =>
    have hparts := sorted_node_iff.mp hsorted
    have hpushed : ∀ other ∈ FLLRBNode.node key value c l r :: stack, other.isEmpty = false := by
      intro other hother
      cases List.mem_cons.mp hother with
      | inl heq => rw [heq, FLLRBNode.isEmpty_node]
      | inr hother => exact hstack other hother
    rw [FLLRBNode.toList_node] at hsorted ⊢
    unfold new.loop
    simp only [Bool.false_eq_true, ↓reduceIte]
    rw [List.filter_append]
    split
    . next hlt =>
      -- the node and what is to its left come before the start
      have hgt := OrientedCmp.gt_of_lt hlt
      have hnotLt : cmp startKey key ≠ .lt := by simp [hgt]
      have hfront := gt_front_of_not_lt hsorted hnotLt
      have hleft : l.toList.filter (fun entry => decide (cmp startKey entry.1 ≠ .gt)) = [] := by
        rw [List.filter_eq_nil_iff]
        intro entry hentry
        simp [hfront entry hentry]
      rw [hleft, List.filter_cons_of_neg (by simp [hgt]), List.nil_append]
      exact ihr stack hstack hparts.right.left
    . next heq =>
      have hsame := OrientedCmp.eq_symm heq
      have hnotLt : cmp startKey key ≠ .lt := by simp [hsame]
      have hfront := gt_front_of_not_lt hsorted hnotLt
      have hback := lt_back_of_eq hsorted hsame
      have hleft : l.toList.filter (fun entry => decide (cmp startKey entry.1 ≠ .gt)) = [] := by
        rw [List.filter_eq_nil_iff]
        intro entry hentry
        simp [hfront entry hentry]
      have hright : r.toList.filter (fun entry => decide (cmp startKey entry.1 ≠ .gt)) = r.toList := by
        rw [List.filter_eq_self]
        intro entry hentry
        simp [hback entry hentry]
      refine ⟨hpushed, ?_⟩
      rw [hleft, List.filter_cons_of_pos (by simp [hsame]), hright]
      simp [keysOf, ordered]
    . next hgt =>
      have hlt := OrientedCmp.lt_of_gt hgt
      have hback := lt_back_of_lt hsorted hlt
      have hright : ((key, value) :: r.toList).filter
          (fun entry => decide (cmp startKey entry.1 ≠ .gt))
          =
        (key, value) :: r.toList := by
        rw [List.filter_eq_self]
        intro entry hentry
        simp [hback entry hentry]
      obtain ⟨hnodes, hkeys⟩ := ihl _ hpushed hparts.left
      refine ⟨hnodes, ?_⟩
      rw [hkeys, hright]
      simp [keysOf, ordered]

theorem loop_backward (node : FLLRBNode α β) (stack : List (FLLRBNode α β))
    (hstack : ∀ node ∈ stack, node.isEmpty = false) (hsorted : Sorted cmp node.toList)
    : (∀ other ∈ new.loop cmp (some startKey) true node stack, other.isEmpty = false)
        ∧ (new.loop cmp (some startKey) true node stack).flatMap (keysOf true)
          = ((node.toList.filter (fun entry => cmp startKey entry.1 ≠ .lt)).map Prod.fst).reverse
            ++ stack.flatMap (keysOf true) := by
  induction node generalizing stack with
  | empty => exact ⟨hstack, rfl⟩
  | node key value c l r ihl ihr =>
    have hparts := sorted_node_iff.mp hsorted
    have hpushed : ∀ other ∈ FLLRBNode.node key value c l r :: stack, other.isEmpty = false := by
      intro other hother
      cases List.mem_cons.mp hother with
      | inl heq => rw [heq, FLLRBNode.isEmpty_node]
      | inr hother => exact hstack other hother
    have hswap : (cmp key startKey).swap = cmp startKey key := OrientedCmp.eq_swap.symm
    rw [FLLRBNode.toList_node] at hsorted ⊢
    unfold new.loop
    simp only [↓reduceIte, hswap]
    rw [List.filter_append]
    split
    . next hlt =>
      -- the node and what is to its right come after the start
      have hback := lt_back_of_lt hsorted hlt
      have hright : ((key, value) :: r.toList).filter
          (fun entry => decide (cmp startKey entry.1 ≠ .lt))
          =
        [] := by
        rw [List.filter_eq_nil_iff]
        intro entry hentry
        simp [hback entry hentry]
      rw [hright, List.append_nil]
      exact ihl stack hstack hparts.left
    . next hsame =>
      have hnotLt : cmp startKey key ≠ .lt := by simp [hsame]
      have hfront := gt_front_of_not_lt hsorted hnotLt
      have hback := lt_back_of_eq hsorted hsame
      have hleft : l.toList.filter (fun entry => decide (cmp startKey entry.1 ≠ .lt)) = l.toList := by
        rw [List.filter_eq_self]
        intro entry hentry
        simp [hfront entry hentry]
      have hright : r.toList.filter (fun entry => decide (cmp startKey entry.1 ≠ .lt)) = [] := by
        rw [List.filter_eq_nil_iff]
        intro entry hentry
        simp [hback entry hentry]
      refine ⟨hpushed, ?_⟩
      rw [hleft, List.filter_cons_of_pos (by simp [hsame]), hright]
      simp [keysOf, ordered]
    . next hgt =>
      have hnotLt : cmp startKey key ≠ .lt := by simp [hgt]
      have hfront := gt_front_of_not_lt hsorted hnotLt
      have hleft : l.toList.filter (fun entry => decide (cmp startKey entry.1 ≠ .lt)) = l.toList := by
        rw [List.filter_eq_self]
        intro entry hentry
        simp [hfront entry hentry]
      obtain ⟨hnodes, hkeys⟩ := ihr _ hpushed hparts.right.left
      refine ⟨hnodes, ?_⟩
      rw [hkeys, hleft, List.filter_cons_of_pos (by simp [hgt])]
      simp [keysOf, ordered]

end Start

theorem loop_all_forward (node : FLLRBNode α β) (stack : List (FLLRBNode α β))
    : new.loop cmp none false node stack = pushAll false node stack := by
  induction node generalizing stack with
  | empty => rfl
  | node key value c l r ihl ihr =>
    unfold new.loop pushAll
    simp [ihl]

theorem loop_all_backward (node : FLLRBNode α β) (stack : List (FLLRBNode α β))
    : new.loop cmp none true node stack = stack := by
  induction node generalizing stack with
  | empty => rfl
  | node key value c l r ihl ihr =>
    unfold new.loop
    simp [ihl]

end FTreeSortedDictionaryEnumerator

namespace FArraySortedDictionaryEnumerator

structure Gives (e : FArraySortedDictionaryEnumerator α) (keys : List α) : Prop where
  forward : e.reverse = false → 0 ≤ e.pos ∧ e.keys.drop e.pos.toNat = keys
  backward : e.reverse = true → -1 ≤ e.pos ∧ e.pos < e.keys.length
    ∧ (e.keys.take (e.pos + 1).toNat).reverse = keys

theorem nextObject_gives {e : FArraySortedDictionaryEnumerator α} {keys : List α}
    (h : e.Gives keys)
    : e.nextObject.1 = keys.head? ∧ e.nextObject.2.Gives keys.tail := by
  obtain ⟨all, pos, reverse⟩ := e
  unfold nextObject
  dsimp only
  cases reverse with
  | false =>
    obtain ⟨hpos, hkeys⟩ := h.forward rfl
    dsimp only at hpos hkeys
    subst hkeys
    simp only [Bool.false_eq_true, ↓reduceIte]
    split
    . next hwithin =>
      refine ⟨?_, ?_, ?_⟩
      . rw [List.head?_drop]
      . intro _
        dsimp only
        rw [List.tail_drop]
        refine ⟨by omega, ?_⟩
        congr 1
        omega
      . intro h
        cases h
    . next hend =>
      have hlength : all.length ≤ pos.toNat := by
        omega
      rw [List.drop_of_length_le hlength]
      refine ⟨rfl, ?_, ?_⟩
      . intro _
        exact ⟨hpos, List.drop_of_length_le hlength⟩
      . intro h
        cases h
  | true =>
    obtain ⟨hpos, hlength, hkeys⟩ := h.backward rfl
    dsimp only at hpos hlength hkeys
    subst hkeys
    simp only [↓reduceIte]
    split
    . next hwithin =>
      have hsucc : (pos + 1).toNat = pos.toNat + 1 := by
        omega
      have hget : pos.toNat < all.length := by
        omega
      have htake : (all.take (pos + 1).toNat).reverse
          =
        all[pos.toNat] :: (all.take pos.toNat).reverse := by
        rw [hsucc, List.take_succ_eq_append_getElem hget, List.reverse_append]
        rfl
      rw [htake]
      refine ⟨?_, ?_, ?_⟩
      . simp [hget]
      . intro h
        cases h
      . intro _
        refine ⟨by dsimp only; omega, by dsimp only; omega, ?_⟩
        simp
    . next hend =>
      have hzero : (pos + 1).toNat = 0 := by
        omega
      rw [hzero]
      refine ⟨rfl, ?_, ?_⟩
      . intro h
        cases h
      . intro _
        refine ⟨hpos, hlength, ?_⟩
        rw [hzero]
        rfl

end FArraySortedDictionaryEnumerator

namespace FKeyEnumerator

inductive Gives : FKeyEnumerator α β → List α → Prop where
  | array {e : FArraySortedDictionaryEnumerator α} {keys : List α} (h : e.Gives keys)
    : Gives (.array e) keys
  | tree {e : FTreeSortedDictionaryEnumerator α β} {keys : List α} (h : e.Gives keys)
    : Gives (.tree e) keys

theorem answers_of_gives (calls : Nat) {e : FKeyEnumerator α β} {keys : List α} (h : e.Gives keys)
    : e.answers calls = (List.range calls).map (fun call => keys[call]?) := by
  induction calls generalizing e keys with
  | zero => rfl
  | succ calls ih =>
    have hnext : e.nextObject.1 = keys.head? ∧ e.nextObject.2.Gives keys.tail := by
      cases h with
      | array h =>
        have hstep := FArraySortedDictionaryEnumerator.nextObject_gives h
        exact ⟨hstep.left, .array hstep.right⟩
      | tree h =>
        have hstep := FTreeSortedDictionaryEnumerator.nextObject_gives h
        exact ⟨hstep.left, .tree hstep.right⟩
    rw [answers, hnext.left, ih hnext.right, List.range_succ_eq_map, List.map_cons, List.map_map]
    cases keys with
    | nil => rfl
    | cons key keys => rfl

end FKeyEnumerator

namespace FImmutableSortedDictionary

variable [TransCmp cmp] {d : FImmutableSortedDictionary α β} {entries : List (α × β)}

omit [TransCmp cmp] in
theorem keyEnumerator_gives (h : d.Represents entries)
    : (d.keyEnumerator cmp).Gives (entries.map Prod.fst) := by
  cases h with
  | array h hsize =>
    refine .array ⟨?_, ?_⟩
    . intro _
      refine ⟨Int.le_refl 0, ?_⟩
      rw [← h.keys]
      rfl
    . intro hreverse
      cases hreverse
  | @tree d _ h =>
    have hpush := FTreeSortedDictionaryEnumerator.pushAll_keys false d.root [] (by simp)
    refine .tree ⟨?_, ?_⟩
    . simp only [FTreeSortedDictionaryEnumerator.new,
        FTreeSortedDictionaryEnumerator.loop_all_forward]
      exact hpush.left
    . simp only [FTreeSortedDictionaryEnumerator.new,
        FTreeSortedDictionaryEnumerator.loop_all_forward]
      rw [hpush.right, h.toList]
      simp [FTreeSortedDictionaryEnumerator.ordered]

end FImmutableSortedDictionary

namespace FArraySortedDictionary

variable [TransCmp cmp] {d : FArraySortedDictionary α β} {entries : List (α × β)}

theorem keyEnumeratorFrom_gives (h : d.Represents entries) (hsorted : Sorted cmp entries)
    (startKey : α)
    : (d.keyEnumeratorFrom cmp startKey).Gives
        ((entries.filter (fun entry => cmp startKey entry.1 ≠ .gt)).map Prod.fst) := by
  obtain ⟨front, same, back, rfl, -, hfront, hsame, hback⟩ := exists_parts hsorted startKey
  have hrest : ∀ entry ∈ same ++ back, cmp startKey entry.1 ≠ .gt := by
    intro entry hentry
    cases List.mem_append.mp hentry with
    | inl hentry => simp [hsame entry hentry]
    | inr hentry => simp [hback entry hentry]
  have hpos : d.findInsertPositionForKey cmp startKey = front.length := by
    unfold findInsertPositionForKey
    rw [h.keys, findInsertPosition_loop_eq hfront hrest, Nat.zero_add]
  rw [filter_from hfront hsame hback]
  constructor
  . intro _
    simp only [keyEnumeratorFrom, hpos, h.keys]
    refine ⟨by omega, ?_⟩
    simp
  . intro hreverse
    cases hreverse

theorem reverseKeyEnumeratorFrom_gives (h : d.Represents entries) (hsorted : Sorted cmp entries)
    (startKey : α)
    : (d.reverseKeyEnumeratorFrom cmp startKey).Gives
        ((entries.filter (fun entry => cmp startKey entry.1 ≠ .lt)).map Prod.fst).reverse := by
  obtain ⟨front, same, back, rfl, hone, hfront, hsame, hback⟩ := exists_parts hsorted startKey
  have hrest : ∀ entry ∈ same ++ back, cmp startKey entry.1 ≠ .gt := by
    intro entry hentry
    cases List.mem_append.mp hentry with
    | inl hentry => simp [hsame entry hentry]
    | inr hentry => simp [hback entry hentry]
  have hpos : d.findInsertPositionForKey cmp startKey = front.length := by
    unfold findInsertPositionForKey
    rw [h.keys, findInsertPosition_loop_eq hfront hrest, Nat.zero_add]
  have hget : d.keys[front.length]? = ((same ++ back).map Prod.fst).head? := by
    rw [h.keys, List.map_append, List.getElem?_append_right (by simp)]
    simp [List.head?_eq_getElem?]
  have hstart : (d.reverseKeyEnumeratorFrom cmp startKey).pos = front.length + same.length - 1 := by
    simp only [reverseKeyEnumeratorFrom, hpos, hget]
    cases same with
    | nil =>
      cases back with
      | nil => simp
      | cons entry back =>
        have hlt := hback entry List.mem_cons_self
        have hne : cmp entry.1 startKey ≠ .eq := by
          intro heq
          rw [OrientedCmp.eq_symm heq] at hlt
          cases hlt
        simp [hne]
    | cons entry same =>
      have heq := OrientedCmp.eq_symm (hsame entry List.mem_cons_self)
      have hnil : same = [] := by
        rw [List.length_cons] at hone
        rw [← List.length_eq_zero_iff]
        omega
      simp [heq, hnil]
  rw [filter_upTo hfront hsame hback]
  constructor
  . intro hreverse
    cases hreverse
  . intro _
    have hkeys : (d.reverseKeyEnumeratorFrom cmp startKey).keys
        =
      (front ++ same).map Prod.fst ++ back.map Prod.fst := by
      change d.keys = _
      rw [h.keys, ← List.append_assoc, List.map_append]
    have htake : (front.length + same.length - 1 + 1 : Int).toNat
        =
      ((front ++ same).map Prod.fst).length := by
      rw [List.length_map, List.length_append]
      omega
    rw [hstart, hkeys, htake, List.take_left]
    refine ⟨by omega, ?_, rfl⟩
    simp only [List.length_append, List.length_map]
    omega

theorem reverseKeyEnumerator_gives (h : d.Represents entries)
    : d.reverseKeyEnumerator.Gives (entries.map Prod.fst).reverse := by
  constructor
  . intro hreverse
    cases hreverse
  . intro _
    simp only [reverseKeyEnumerator, h.keys]
    refine ⟨by omega, by omega, ?_⟩
    rw [List.take_of_length_le (by omega)]

end FArraySortedDictionary

namespace FImmutableSortedDictionary

variable [TransCmp cmp]

theorem keyEnumeratorFrom_gives {d : FImmutableSortedDictionary α β} {entries : List (α × β)}
    (h : d.Represents entries) (hsorted : Sorted cmp entries) (startKey : α)
    : (d.keyEnumeratorFrom cmp startKey).Gives
          ((entries.filter (fun entry => cmp startKey entry.1 ≠ .gt)).map Prod.fst)
        ∧ (d.reverseKeyEnumeratorFrom cmp startKey).Gives
          ((entries.filter (fun entry => cmp startKey entry.1 ≠ .lt)).map Prod.fst).reverse := by
  cases h with
  | array h hsize =>
    exact ⟨.array (FArraySortedDictionary.keyEnumeratorFrom_gives h hsorted startKey),
      .array (FArraySortedDictionary.reverseKeyEnumeratorFrom_gives h hsorted startKey)⟩
  | @tree d _ h =>
    have htoList := h.toList
    subst htoList
    have hforward := FTreeSortedDictionaryEnumerator.loop_forward startKey d.root [] (by simp) hsorted
    have hbackward := FTreeSortedDictionaryEnumerator.loop_backward startKey d.root [] (by simp)
      hsorted
    rw [List.flatMap_nil, List.append_nil] at hforward hbackward
    exact ⟨.tree ⟨hforward.left, hforward.right⟩, .tree ⟨hbackward.left, hbackward.right⟩⟩

/--
The keys that the enumerators give out, for any number of calls on any dictionary. A tree that is
enumerated backwards without a start gives out none.
-/
theorem enumerators_after_updates {dictionary : List (α × β)} (h : Distinct cmp dictionary)
    (updates : List (Update α β)) {final : FImmutableSortedDictionary α β}
    (hfinal : run cmp dictionary updates = .ok final) (startKey : α) (calls : Nat)
    : let upwards := final.allEntries.map Prod.fst
      (final.keyEnumerator cmp).answers calls = (List.range calls).map (fun call => upwards[call]?)
        ∧ (final.keyEnumeratorFrom cmp startKey).answers calls
          = (List.range calls).map
              (fun call => (upwards.filter (fun key => cmp startKey key ≠ .gt))[call]?)
        ∧ (final.reverseKeyEnumeratorFrom cmp startKey).answers calls
          = (List.range calls).map
              (fun call => (upwards.filter (fun key => cmp startKey key ≠ .lt)).reverse[call]?)
        ∧ (final.reverseKeyEnumerator cmp).answers calls
          = (List.range calls).map
              (fun call => if final.isTree then none else upwards.reverse[call]?) := by
  obtain ⟨found, entries, hrun, hrepresents, hsorted, -⟩ := represents_run h updates
  rw [hrun] at hfinal
  injection hfinal with hfinal
  subst hfinal
  have hfrom := keyEnumeratorFrom_gives hrepresents hsorted startKey
  intro upwards
  have hupwards : upwards = entries.map Prod.fst := by
    rw [← allEntries_eq hrepresents]
  have hfilter : ∀ p : α → Bool, upwards.filter p
      =
    (entries.filter (fun entry => p entry.1)).map Prod.fst := by
    intro p
    rw [hupwards, List.filter_map]
    rfl
  refine ⟨?_, ?_, ?_, ?_⟩
  . rw [FKeyEnumerator.answers_of_gives calls (keyEnumerator_gives hrepresents), hupwards]
  . rw [FKeyEnumerator.answers_of_gives calls hfrom.left, hfilter]
  . rw [FKeyEnumerator.answers_of_gives calls hfrom.right, hfilter]
  . cases hrepresents with
    | @array d _ hrepresents hsize =>
      have hgives : (reverseKeyEnumerator cmp (.array d)).Gives (entries.map Prod.fst).reverse :=
        .array (FArraySortedDictionary.reverseKeyEnumerator_gives hrepresents)
      exact (FKeyEnumerator.answers_of_gives calls hgives).trans (by rw [hupwards]; rfl)
    | @tree d _ hrepresents =>
      have hgives : (reverseKeyEnumerator cmp (.tree d)).Gives [] := by
        refine .tree ⟨?_, ?_⟩
        . simp [FTreeSortedDictionaryEnumerator.new,
            FTreeSortedDictionaryEnumerator.loop_all_backward]
        . simp [FTreeSortedDictionaryEnumerator.new,
            FTreeSortedDictionaryEnumerator.loop_all_backward]
      rw [FKeyEnumerator.answers_of_gives calls hgives]
      simp [isTree]

theorem enumerators_after_updates_reference
    : (keyEnumeratorFrom compare (.array ⟨[1, 2, 4], [10, 20, 40]⟩) 2).answers 3
        =
      [some 2, some 4, none] := by
  have hsorted : Sorted compare [(1, 10), (2, 20), (4, 40)] := by
    unfold Sorted
    decide
  have hdistinct : Distinct compare [(1, 10), (2, 20), (4, 40)] := hsorted.distinct
  have hsort : sort compare [(1, 10), (2, 20), (4, 40)] = [(1, 10), (2, 20), (4, 40)] :=
    sort_eq_of_perm hsorted (List.Perm.refl _)
  have hrun : run compare [(1, 10), (2, 20), (4, 40)] []
      =
    .ok (.array ⟨[1, 2, 4], [10, 20, 40]⟩) := by
    unfold run fromDictionary FArraySortedDictionary.fromDictionary
    rw [hsort]
    rfl
  rw [(enumerators_after_updates hdistinct [] hrun 2 3).right.left]
  decide

end FImmutableSortedDictionary
