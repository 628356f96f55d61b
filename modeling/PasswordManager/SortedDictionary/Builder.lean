import PasswordManager.SortedDictionary.FTreeSortedDictionary
import Mathlib.Data.List.TakeDrop

/-!
This module contains the trees that are built from entries in their order. The number of entries is
written in base two with the digits one and two: a digit one is a black node over a full tree of
black nodes, a digit two is such a black node and a red one.
-/

namespace FTreeSortedDictionary

open SortedEntries FLLRBNode

variable {α β : Type}

theorem take_drop_middle {entries : List (α × β)} {start middle : Nat} {entry : α × β}
    (h : entries[start + middle]? = some entry) (length : Nat)
    : (entries.drop start).take middle ++ entry :: (entries.drop (start + middle + 1)).take length
        =
      (entries.drop start).take (middle + (length + 1)) := by
  obtain ⟨hlt, hentry⟩ := List.getElem?_eq_some_iff.mp h
  have hdrop : (entries.drop start).drop middle = entry :: entries.drop (start + middle + 1) := by
    rw [List.drop_drop, List.drop_eq_getElem_cons hlt, hentry]
  rw [List.take_add, hdrop, List.take_succ_cons]

theorem buildBalancedTree_full (entries : List (α × β)) (k : Nat)
    : ∀ start, start + (2 ^ k - 1) ≤ entries.length →
        ∃ t, buildBalancedTree entries start (2 ^ k - 1) = .ok t ∧ Balanced .black k t
          ∧ t.toList = (entries.drop start).take (2 ^ k - 1) := by
  induction k with
  | zero =>
    intro start _
    refine ⟨.empty, ?_, .empty, by simp⟩
    unfold buildBalancedTree
    simp [pure, Except.pure]
  | succ k ih =>
    intro start hlength
    have hpos := Nat.two_pow_pos k
    rw [Nat.pow_succ] at hlength ⊢
    have hmin : min (entries.length - start) (2 ^ k * 2 - 1) = 2 ^ k * 2 - 1 := by
      omega
    have hmiddle : (2 ^ k * 2 - 1) / 2 = 2 ^ k - 1 := by
      omega
    have hget : start + (2 ^ k - 1) < entries.length := by
      omega
    obtain ⟨⟨key, value⟩, hentry⟩ : ∃ entry, entries[start + (2 ^ k - 1)]? = some entry :=
      ⟨_, List.getElem?_eq_getElem hget⟩
    have hsplit := take_drop_middle hentry (2 ^ k - 1)
    have hall : 2 ^ k - 1 + (2 ^ k - 1 + 1) = 2 ^ k * 2 - 1 := by
      omega
    rw [hall] at hsplit
    cases k with
    | zero =>
      refine ⟨.node key value .black .empty .empty, ?_, .black .empty .empty, ?_⟩
      . rw [Nat.pow_zero, Nat.sub_self, Nat.add_zero] at hentry
        rw [Nat.pow_zero] at hmin
        unfold buildBalancedTree
        simp [hmin, hentry, pure, Except.pure]
      . rw [← hsplit]
        simp
    | succ k =>
      have hlarge : 1 < 2 ^ (k + 1) * 2 - 1 := by
        have hpos := Nat.two_pow_pos k
        omega
      obtain ⟨l, hl, hbl, hll⟩ := ih start (by omega)
      obtain ⟨r, hr, hbr, hrl⟩ := ih (start + (2 ^ (k + 1) - 1) + 1) (by omega)
      refine ⟨.node key value .black l r, ?_, .black hbl hbr, ?_⟩
      . unfold buildBalancedTree
        dsimp only
        rw [hmin, if_neg (by omega), if_neg (by omega), hmiddle, hl, hr]
        simp only [bind, Except.bind]
        rw [hentry]
        rfl
      . rw [toList_node, hll, hrl]
        exact hsplit

theorem buildPennant_ok {entries : List (α × β)} {k : Nat} (state : Pennants α β)
    (color : FLLRBColor) (hchunk : 2 ^ k ≤ state.index) (hindex : state.index ≤ entries.length)
    : ∃ key value child,
        buildPennant entries color (2 ^ k) state
            =
          .ok {
            index := state.index - 2 ^ k
            pennants := state.pennants ++ [.node key value color .empty child]
          }
        ∧ Balanced .black k child
        ∧ entries.take (state.index - 2 ^ k) ++ (key, value) :: child.toList
            =
          entries.take state.index := by
  have hpos := Nat.two_pow_pos k
  have hget : state.index - 2 ^ k < entries.length := by
    omega
  obtain ⟨child, hchild, hbalanced, hlist⟩ :=
    buildBalancedTree_full entries k (state.index - 2 ^ k + 1) (by omega)
  refine ⟨entries[state.index - 2 ^ k].1, entries[state.index - 2 ^ k].2, child, ?_, hbalanced, ?_⟩
  . unfold buildPennant
    dsimp only
    rw [List.getElem?_eq_getElem hget]
    simp only [hchild, bind, Except.bind, pure, Except.pure]
  . have hdrop := List.drop_eq_getElem_cons hget
    have hsum : state.index = state.index - 2 ^ k + (2 ^ k - 1 + 1) := by
      omega
    conv_rhs => rw [hsum, List.take_add, hdrop, List.take_succ_cons]
    rw [hlist]

theorem and_two_pow_eq_zero_iff (bits n : Nat) : bits &&& 2 ^ n = 0 ↔ bits.testBit n = false := by
  constructor
  . intro h
    have hbit := congrArg (fun m => m.testBit n) h
    simpa using hbit
  . intro h
    apply Nat.eq_of_testBit_eq
    intro i
    rw [Nat.testBit_and, Nat.testBit_two_pow, Nat.zero_testBit]
    by_cases hi : n = i
    . rw [← hi, h]
      rfl
    . simp [hi]

theorem loop_ok (entries : List (α × β)) (rounds : Nat)
    : ∀ (list : Base1_2List) (state : Pennants α β), list.current = rounds - 1 →
        state.index = 2 ^ rounds - 1 + list.bits % 2 ^ rounds → state.index ≤ entries.length →
        ∃ final pennants, rootFrom12List.loop entries rounds list state = .ok final
          ∧ final.pennants = state.pennants ++ pennants
          ∧ Balanced .black rounds (attach pennants)
          ∧ (attach pennants).toList = entries.take state.index := by
  induction rounds with
  | zero =>
    intro list state _ hindex _
    have hzero : state.index = 0 := by
      rw [hindex, Nat.pow_zero, Nat.mod_one]
    refine ⟨state, [], rfl, by simp, .empty, ?_⟩
    rw [hzero]
    rfl
  | succ rounds ih =>
    intro list state hcurrent hindex hlength
    have hpos := Nat.two_pow_pos rounds
    have hlist : list.current = rounds := hcurrent
    have hbit : list.bits % 2 ^ (rounds + 1)
        =
      list.bits % 2 ^ rounds + 2 ^ rounds * (list.bits.testBit rounds).toNat := by
      rw [Nat.mod_pow_succ, Nat.toNat_testBit]
    have hresult : list.next.1 = !list.bits.testBit rounds := by
      simp only [Base1_2List.next, hlist, Nat.one_shiftLeft]
      cases hdigit : list.bits.testBit rounds with
      | false => simp [(and_two_pow_eq_zero_iff _ _).mpr hdigit]
      | true =>
        have hne : list.bits &&& 2 ^ rounds ≠ 0 := by
          rw [Ne, and_two_pow_eq_zero_iff, hdigit]
          simp
        simp [hne]
    have hbits : list.next.2.bits = list.bits := rfl
    have hnext : list.next.2.current = rounds - 1 := by
      simp [Base1_2List.next, hlist]
    rw [hbit] at hindex
    rw [Nat.pow_succ] at hindex
    unfold rootFrom12List.loop
    dsimp only
    rw [hresult]
    cases hdigit : list.bits.testBit rounds with
    | false =>
      rw [hdigit] at hindex
      simp only [Bool.toNat_false, Nat.mul_zero, Nat.add_zero] at hindex
      have hsize : 2 ^ rounds ≤ state.index := by
        omega
      obtain ⟨key, value, child, hbuild, hchild, htake⟩ :=
        buildPennant_ok state .black hsize hlength
      have hdigits : state.index - 2 ^ rounds = 2 ^ rounds - 1 + list.next.2.bits % 2 ^ rounds := by
        rw [hbits]
        omega
      obtain ⟨final, pennants, hloop, hfinal, hbalanced, hentries⟩ :=
        ih list.next.2
          {
            index := state.index - 2 ^ rounds
            pennants := state.pennants ++ [.node key value .black .empty child]
          }
          hnext hdigits (Nat.le_trans (Nat.sub_le _ _) hlength)
      refine ⟨final, .node key value .black .empty child :: pennants, ?_, ?_, ?_, ?_⟩
      . simp only [Bool.not_false, ↓reduceIte, hbuild, bind, Except.bind]
        exact hloop
      . rw [hfinal]
        simp
      . exact .black hbalanced hchild
      . rw [attach, withLeft_node, toList_node, hentries]
        exact htake
    | true =>
      rw [hdigit] at hindex
      simp only [Bool.toNat_true, Nat.mul_one] at hindex
      have hsize : 2 ^ rounds ≤ state.index := by
        omega
      obtain ⟨key, value, child, hbuild, hchild, htake⟩ :=
        buildPennant_ok state .black hsize hlength
      have hdigits : state.index - 2 ^ rounds - 2 ^ rounds
          =
        2 ^ rounds - 1 + list.next.2.bits % 2 ^ rounds := by
        rw [hbits]
        omega
      have hchunk : 2 ^ rounds ≤ state.index - 2 ^ rounds := by
        omega
      have hwithin : state.index - 2 ^ rounds ≤ entries.length := by
        omega
      obtain ⟨key', value', child', hbuild', hchild', htake'⟩ :=
        buildPennant_ok
          {
            index := state.index - 2 ^ rounds
            pennants := state.pennants ++ [.node key value .black .empty child]
          }
          .red hchunk hwithin
      obtain ⟨final, pennants, hloop, hfinal, hbalanced, hentries⟩ :=
        ih list.next.2
          {
            index := state.index - 2 ^ rounds - 2 ^ rounds
            pennants := state.pennants ++ [.node key value .black .empty child]
              ++ [.node key' value' .red .empty child']
          }
          hnext hdigits (Nat.le_trans (Nat.sub_le _ _) hwithin)
      refine ⟨final, .node key value .black .empty child
        :: .node key' value' .red .empty child' :: pennants, ?_, ?_, ?_, ?_⟩
      . simp only [Bool.not_true, Bool.false_eq_true, ↓reduceIte, hbuild, hbuild', bind, Except.bind]
        exact hloop
      . rw [hfinal]
        simp
      . exact .black (.red hbalanced hchild') hchild
      . simp only [attach, withLeft_node, toList_node]
        rw [hentries, ← htake, ← htake']

theorem rootFrom12List_ok (entries : List (α × β))
    : ∃ root, rootFrom12List (Base1_2List.new entries.length) entries = .ok root
        ∧ root.toList = entries ∧ ∃ n, Balanced .black n root := by
  have hlow : 2 ^ Nat.log2 (entries.length + 1) ≤ entries.length + 1 :=
    Nat.log2_self_le (by omega)
  have hhigh : entries.length + 1 < 2 ^ (Nat.log2 (entries.length + 1) + 1) :=
    Nat.lt_log2_self
  rw [Nat.pow_succ] at hhigh
  have hbits : (Base1_2List.new entries.length).bits
      =
    entries.length + 1 - 2 ^ Nat.log2 (entries.length + 1) := by
    simp only [Base1_2List.new, log_base2, bit_mask]
    rw [Nat.and_two_pow_sub_one_eq_mod, Nat.mod_eq_sub_mod hlow, Nat.mod_eq_of_lt (by omega)]
  have hindex : entries.length
      =
    2 ^ (Base1_2List.new entries.length).count - 1
      + (Base1_2List.new entries.length).bits % 2 ^ (Base1_2List.new entries.length).count := by
    rw [hbits]
    simp only [Base1_2List.new, log_base2]
    rw [Nat.mod_eq_of_lt (by omega)]
    omega
  obtain ⟨final, pennants, hloop, hfinal, hbalanced, hlist⟩ :=
    loop_ok entries (Base1_2List.new entries.length).count (Base1_2List.new entries.length)
      { index := entries.length, pennants := [] } rfl hindex (Nat.le_refl _)
  refine ⟨attach pennants, ?_, ?_, _, hbalanced⟩
  . unfold rootFrom12List
    rw [hloop]
    simp only [bind, Except.bind, pure, Except.pure, hfinal, List.nil_append]
  . rw [hlist, List.take_length]

variable {cmp : α → α → Ordering} [Std.TransCmp cmp]

theorem fromDictionary_of_distinct {dictionary : List (α × β)} (h : Distinct cmp dictionary)
    : ∃ d, fromDictionary cmp dictionary = .ok d ∧ d.root.toList = sort cmp dictionary
        ∧ ∃ n, Balanced .black n d.root := by
  have hascending : ascending cmp (sort cmp dictionary) = true := by
    rw [ascending_iff, sorted_sort_iff]
    exact h
  obtain ⟨root, hroot, hlist, hbalanced⟩ := rootFrom12List_ok (sort cmp dictionary)
  refine ⟨{ root }, ?_, hlist, hbalanced⟩
  unfold fromDictionary
  simp [hascending, hroot, bind, Except.bind, pure, Except.pure]

theorem fromDictionary_of_not_distinct {dictionary : List (α × β)} (h : ¬ Distinct cmp dictionary)
    : fromDictionary cmp dictionary = .error .sameOrdering := by
  have hascending : ascending cmp (sort cmp dictionary) = false := by
    rw [Bool.eq_false_iff]
    intro hascending
    rw [ascending_iff, sorted_sort_iff] at hascending
    exact h hascending
  unfold fromDictionary
  simp [hascending, bind, Except.bind, throw, throwThe, MonadExceptOf.throw]

end FTreeSortedDictionary
