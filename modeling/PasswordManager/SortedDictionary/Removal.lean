import PasswordManager.SortedDictionary.Balance
import PasswordManager.SortedDictionary.Entries

/-!
This module contains the removal from a tree. On the way down there is always a red node at hand, at
the node itself or to its left, out of which the missing black node is made up for on the way back.
-/

def FLLRBColor.over : FLLRBColor → Nat → Nat
  | .red, n => n
  | .black, n => n + 1

namespace FLLRBNode

open Std SortedEntries

variable {α β : Type}

variable {c cl c₂ : FLLRBColor} {n m : Nat} {key : α} {value : β} {l r t out : FLLRBNode α β}
  {rich : Prop}

theorem Balanced.children {c' : FLLRBColor} (h : Balanced c n (.node key value c' l r))
    : c' = c ∧ ∃ cl m, n = c.over m ∧ Balanced cl m l ∧ Balanced .black m r
        ∧ (c = .red → cl = .black) := by
  cases h with
  | red hl hr => exact ⟨rfl, .black, n, rfl, hl, hr, fun _ => rfl⟩
  | @black cl m _ _ _ _ hl hr => exact ⟨rfl, cl, m, rfl, hl, hr, fun h => nomatch h⟩

theorem Balanced.empty_of_zero (h : Balanced .black 0 t) : t = .empty := by
  cases h with
  | empty => rfl

theorem Balanced.height_of_empty (h : Balanced c n (.empty : FLLRBNode α β)) : n = 0 := by
  cases h with
  | empty => rfl

theorem Balanced.node_of_black (h : Balanced .black (m + 1) t)
    : ∃ key value cl l r, t = .node key value .black l r ∧ Balanced cl m l ∧ Balanced .black m r := by
  cases h with
  | black hl hr => exact ⟨_, _, _, _, _, rfl, hl, hr⟩

/--
What is left of a subtree. A red root may change its color; a black root stays what it is as long as
there was something red to take from, `rich`, and otherwise the tree gets lower.
-/
structure Shrunk (c : FLLRBColor) (rich : Prop) (n : Nat) (out : FLLRBNode α β) : Prop where
  red : c = .red → ∃ c', Balanced c' n out
  black : c = .black → rich → Balanced .black n out
  root : ∃ m, Balanced .black m (out.withColor .black)

theorem Balanced.shrunk (h : Balanced c n out) : Shrunk c rich n out where
  red _ := ⟨c, h⟩
  black hc _ := by
    rw [← hc]
    exact h
  root := h.withColor_black

theorem Shrunk.balanced (h : Shrunk c rich n out) (hrich : c = .black → rich)
    : ∃ c', Balanced c' n out ∧ (c = .black → c' = .black) := by
  cases c with
  | red =>
    cases h.red rfl with
    | intro c' hc' => exact ⟨c', hc', fun h => nomatch h⟩
  | black => exact ⟨.black, h.black rfl (hrich rfl), fun _ => rfl⟩

structure Descent (c : FLLRBColor) (rich : Prop) (n : Nat) (c₂ : FLLRBColor) (m : Nat)
    (wrap : FLLRBNode α β → FLLRBNode α β) : Prop where
  keeps : ∀ sub, Balanced c₂ m sub → Balanced c n (wrap sub)
  absorbs : ∀ c' sub, Balanced c' m sub → (c₂ = .black → c' = .black) → Shrunk c rich n (wrap sub)

theorem descent_left (hr : Balanced .black m r) (hred : c = .red → c₂ = .black)
    : Descent c rich (c.over m) c₂ m (fun sub => fixUp (.node key value c sub r)) := by
  have hwrap : ∀ c' sub, Balanced c' m sub → (c = .red → c' = .black) →
      Balanced c (c.over m) (fixUp (.node key value c sub r)) := by
    intro c' sub hsub hc'
    cases c with
    | red =>
      rw [hc' rfl] at hsub
      rw [fixUp_eq_self hsub.not_isRed hr.not_isRed]
      exact .red hsub hr
    | black =>
      obtain ⟨c'', hfixUp, hiff⟩ := fixUp_black key value hsub hr
      cases c'' with
      | red => simp at hiff
      | black => exact hfixUp
  constructor
  . intro sub hsub
    exact hwrap c₂ sub hsub hred
  . intro c' sub hsub hc'
    exact (hwrap c' sub hsub (fun hc => hc' (hred hc))).shrunk

theorem descent_right (hl : Balanced cl m l) (hred : c = .red → cl = .black ∧ c₂ = .black)
    (hcl : c₂ = .red → cl = .black)
    : Descent c rich (c.over m) c₂ m (fun sub => fixUp (.node key value c l sub)) := by
  have hwrap : ∀ c' sub, Balanced c' m sub → (c₂ = .black → c' = .black) →
      Balanced c (c.over m) (fixUp (.node key value c l sub)) := by
    intro c' sub hsub hc'
    cases c with
    | red =>
      rw [hc' (hred rfl).right] at hsub
      rw [(hred rfl).left] at hl
      rw [fixUp_eq_self hl.not_isRed hsub.not_isRed]
      exact .red hl hsub
    | black =>
      obtain ⟨c'', hfixUp, hiff⟩ := fixUp_black key value hl hsub
      cases c'' with
      | red =>
        have hboth := hiff.mp rfl
        cases c₂ with
        | red =>
          rw [hcl rfl] at hboth
          cases hboth.left
        | black =>
          rw [hc' rfl] at hboth
          cases hboth.right
      | black => exact hfixUp
  constructor
  . intro sub hsub
    exact hwrap c₂ sub hsub (fun h => h)
  . intro c' sub hsub hc'
    exact (hwrap c' sub hsub hc').shrunk

theorem descent_left_flip (hr : Balanced .red m r) (hrich : c = .black → ¬ rich)
    : Descent c rich (c.over (m + 1)) .red m
        (fun sub => fixUp (.node key value c.flip sub r)) := by
  cases c with
  | red =>
    constructor
    . intro sub hsub
      obtain ⟨c'', hfixUp, hiff⟩ := fixUp_black key value hsub hr
      rw [hiff.mpr ⟨rfl, rfl⟩] at hfixUp
      exact hfixUp
    . intro c' sub hsub _
      obtain ⟨c'', hfixUp, -⟩ := fixUp_black key value hsub hr
      exact ⟨fun _ => ⟨c'', hfixUp⟩, (fun h => nomatch h), hfixUp.withColor_black⟩
  | black =>
    constructor
    . intro sub hsub
      exact fixUp_red_red hsub hr
    . intro c' sub hsub _
      exact ⟨(fun h => nomatch h), fun _ h => absurd h (hrich rfl), fixUp_red hsub hr⟩

theorem descent_right_flip (hl : Balanced .red m l) (hrich : c = .black → ¬ rich)
    : Descent c rich (c.over (m + 1)) .red m
        (fun sub => fixUp (.node key value c.flip l sub)) := by
  cases c with
  | red =>
    constructor
    . intro sub hsub
      obtain ⟨c'', hfixUp, hiff⟩ := fixUp_black key value hl hsub
      rw [hiff.mpr ⟨rfl, rfl⟩] at hfixUp
      exact hfixUp
    . intro c' sub hsub _
      obtain ⟨c'', hfixUp, -⟩ := fixUp_black key value hl hsub
      exact ⟨fun _ => ⟨c'', hfixUp⟩, (fun h => nomatch h), hfixUp.withColor_black⟩
  | black =>
    constructor
    . intro sub hsub
      exact fixUp_red_red hl hsub
    . intro c' sub hsub _
      exact ⟨(fun h => nomatch h), fun _ h => absurd h (hrich rfl), fixUp_red hl hsub⟩

section Moves

variable {lkey rkey bkey : α} {lvalue rvalue bvalue : β} {ll lr rl rr bl br : FLLRBNode α β}

theorem moveRedLeft_eq_flip (h : rl.isRed = false)
    : moveRedLeft (.node key value c (.node lkey lvalue .black ll lr)
          (.node rkey rvalue .black rl rr))
        =
      .node key value c.flip (.node lkey lvalue .red ll lr) (.node rkey rvalue .red rl rr) := by
  simp [moveRedLeft, colorFlip, h]

theorem moveRedLeft_eq_borrow
    : moveRedLeft (.node key value c (.node lkey lvalue .black ll lr)
          (.node rkey rvalue .black (.node bkey bvalue .red bl br) rr))
        =
      .node bkey bvalue c (.node key value .black (.node lkey lvalue .red ll lr) bl)
        (.node rkey rvalue .black br rr) := by
  cases c with
  | red => rfl
  | black => rfl

theorem moveRedRight_eq_flip (h : ll.isRed = false)
    : moveRedRight (.node key value c (.node lkey lvalue .black ll lr)
          (.node rkey rvalue .black rl rr))
        =
      .node key value c.flip (.node lkey lvalue .red ll lr) (.node rkey rvalue .red rl rr) := by
  simp [moveRedRight, colorFlip, h]

theorem moveRedRight_eq_borrow
    : moveRedRight (.node key value c (.node lkey lvalue .black (.node bkey bvalue .red bl br) lr)
          (.node rkey rvalue .black rl rr))
        =
      .node lkey lvalue c (.node bkey bvalue .black bl br)
        (.node key value .black lr (.node rkey rvalue .red rl rr)) := by
  cases c with
  | red => rfl
  | black => rfl

end Moves

theorem readyLeft_descent (h : Balanced c n (.node key value c l r)) (hl : l.isEmpty = false)
    : ∃ key' value' c₁ l₁ r₁ more c₂ m,
        readyLeft (.node key value c l r) = .node key' value' c₁ l₁ r₁
          ∧ l₁.toList = l.toList ++ more
          ∧ more ++ (key', value') :: r₁.toList = (key, value) :: r.toList
          ∧ Balanced c₂ m l₁ ∧ (c₂ = .black → l₁.left.isRed = true)
          ∧ Descent c (l.isRed = true) n c₂ m (fun sub => fixUp (.node key' value' c₁ sub r₁)) := by
  obtain ⟨-, cl, m, rfl, hbl, hbr, hred⟩ := h.children
  by_cases hspare : l.isRed = true ∨ l.left.isRed = true
  . have hready : readyLeft (.node key value c l r) = .node key value c l r := by
      unfold readyLeft
      cases hspare with
      | inl hspare => simp [hspare]
      | inr hspare => simp [hspare]
    refine ⟨key, value, c, l, r, [], cl, m, hready, by simp, rfl, hbl, ?_, ?_⟩
    . intro hcl
      rw [hcl] at hbl
      cases hspare with
      | inl hspare =>
        rw [hbl.not_isRed] at hspare
        cases hspare
      | inr hspare => exact hspare
    . exact descent_left hbr hred
  . rw [not_or, Bool.not_eq_true, Bool.not_eq_true] at hspare
    have hready : readyLeft (.node key value c l r) = moveRedLeft (.node key value c l r) := by
      simp [readyLeft, hl, hspare]
    have hcl : cl = .black := by
      cases cl with
      | red =>
        rw [hbl.isRed] at hspare
        cases hspare.left
      | black => rfl
    subst hcl
    have hnotRich : c = .black → ¬ l.isRed = true := by
      intro _ hlred
      rw [hspare.left] at hlred
      cases hlred
    cases m with
    | zero =>
      rw [hbl.empty_of_zero] at hl
      cases hl
    | succ m =>
      obtain ⟨lkey, lvalue, cll, ll, lr, rfl, hll, hlr⟩ := hbl.node_of_black
      obtain ⟨rkey, rvalue, crl, rl, rr, rfl, hrl, hrr⟩ := hbr.node_of_black
      have hcll : cll = .black := by
        cases cll with
        | red =>
          rw [left_node, hll.isRed] at hspare
          cases hspare.right
        | black => rfl
      subst hcll
      cases crl with
      | black =>
        rw [moveRedLeft_eq_flip hrl.not_isRed] at hready
        refine ⟨key, value, c.flip, _, _, [], .red, m, hready, by simp, by simp, .red hll hlr, ?_, ?_⟩
        . intro h
          cases h
        . exact descent_left_flip (.red hrl hrr) hnotRich
      | red =>
        obtain ⟨bkey, bvalue, bl, br, rfl⟩ := exists_node_of_isRed hrl.isRed
        cases hrl with
        | red hbl' hbr' =>
          rw [moveRedLeft_eq_borrow] at hready
          refine ⟨bkey, bvalue, c, _, _, (key, value) :: bl.toList, .black, m + 1, hready, by simp,
            by simp, .black (.red hll hlr) hbl', fun _ => rfl, ?_⟩
          exact descent_left (.black hbr' hrr) (fun _ => rfl)

theorem min_of_toList {smallest : α × β} {rest : List (α × β)} (h : t.toList = smallest :: rest)
    : t.min = some smallest := by
  rw [min_eq, h]
  rfl

theorem toList_ne_nil (h : t.isEmpty = false) : t.toList ≠ [] := by
  intro hnil
  rw [toList_eq_nil_iff] at hnil
  rw [hnil] at h
  cases h

theorem removeMin_spec (t : FLLRBNode α β)
    : ∀ c n, Balanced c n t → (c = .black → t.left.isRed = true) → t.isEmpty = false →
        (∃ smallest, t.toList = smallest :: t.removeMin.toList)
          ∧ ∃ c', Balanced c' n t.removeMin ∧ (c = .black → c' = .black) := by
  fun_induction removeMin t with
  | case1 t hempty =>
    intro c n h hrich ht
    cases t with
    | empty => cases ht
    | node key value c' l r =>
      obtain ⟨hc', cl, m, rfl, hbl, hbr, hred⟩ := h.children
      cases l with
      | node lkey lvalue lc ll lr => cases hempty
      | empty =>
        have hm := hbl.height_of_empty
        subst hm
        rw [hbr.empty_of_zero]
        refine ⟨⟨(key, value), rfl⟩, .black, ?_, fun _ => rfl⟩
        cases c with
        | red => exact .empty
        | black => cases hrich rfl
  | case2 t hempty n ih =>
    intro c k h hrich ht
    cases t with
    | empty => cases ht
    | node key value c' l r =>
      have hc' := h.children.left
      subst hc'
      have hl : l.isEmpty = false := by
        cases hlempty : l.isEmpty with
        | true => exact absurd hlempty hempty
        | false => rfl
      have hready : n = readyLeft (.node key value c' l r) := by
        simp [n, readyLeft, hl]
      obtain ⟨key', value', c₁, l₁, r₁, more, c₂, m, hn, hlist, hrest, hsub, hleft, hdescent⟩ :=
        readyLeft_descent h hl
      rw [hn] at hready
      clear_value n
      subst hready
      have hl₁ : l₁.isEmpty = false := by
        cases l₁ with
        | empty =>
          have hne := toList_ne_nil hl
          rw [toList_empty, eq_comm, List.append_eq_nil_iff] at hlist
          exact absurd hlist.left hne
        | node key value c l r => rfl
      obtain ⟨⟨smallest, hsmallest⟩, c'', hbalanced, hc''⟩ := ih c₂ m hsub hleft hl₁
      constructor
      . refine ⟨smallest, ?_⟩
        simp only [withLeft_node, left_node, toList_fixUp, toList_node] at hsmallest ⊢
        rw [← List.cons_append, ← hsmallest, hlist, List.append_assoc, hrest]
      . exact (hdescent.absorbs c'' _ hbalanced hc'').balanced hrich

variable {cmp : α → α → Ordering}

theorem remove_absent (aKey : α) (t : FLLRBNode α β)
    : ∀ c n, Balanced c n t → (∀ entry ∈ t.toList, cmp aKey entry.1 = .lt) →
        (t.remove cmp aKey).toList = t.toList ∧ Balanced c n (t.remove cmp aKey) := by
  induction hcount : t.count using Nat.strongRecOn generalizing t with
  | ind size ih =>
    intro c n h hall
    cases t with
    | empty =>
      unfold remove
      exact ⟨rfl, h⟩
    | node key value c' l r =>
      have hc' := h.children.left
      subst hc'
      have hlt : cmp aKey key = .lt := hall (key, value) (by simp)
      unfold remove
      simp only [hlt, ↓reduceIte]
      cases hl : l.isEmpty with
      | true =>
        cases l with
        | node lkey lvalue lc ll lr => cases hl
        | empty =>
          obtain ⟨-, cl, m, rfl, hbl, hbr, hred⟩ := h.children
          have hm := hbl.height_of_empty
          subst hm
          rw [hbr.empty_of_zero] at h ⊢
          have hready : readyLeft (.node key value c' .empty .empty)
              =
            .node key value c' .empty .empty := rfl
          have hremove : (empty : FLLRBNode α β).remove cmp aKey = .empty := by
            unfold remove
            rfl
          rw [hready, left_node, hremove, withLeft_node, fixUp_eq_self rfl rfl]
          exact ⟨rfl, h⟩
      | false =>
        obtain ⟨key', value', c₁, l₁, r₁, more, c₂, m, hn, hlist, hrest, hsub, -, hdescent⟩ :=
          readyLeft_descent h hl
        have hall₁ : ∀ entry ∈ l₁.toList, cmp aKey entry.1 = .lt := by
          intro entry hentry
          apply hall
          rw [toList_node, ← hrest, ← List.append_assoc, ← hlist]
          exact List.mem_append_left _ hentry
        have hsmaller : l₁.count < size := by
          have hready := count_readyLeft_le (.node key value c' l r)
          rw [hn] at hready
          simp only [count] at hready hcount
          omega
        obtain ⟨hsame, hkept⟩ := ih l₁.count hsmaller l₁ rfl c₂ m hsub hall₁
        rw [hn, left_node, withLeft_node]
        constructor
        . rw [toList_fixUp, toList_node, hsame, hlist, List.append_assoc, hrest, toList_node]
        . exact hdescent.keeps _ hkept

inductive Removable (cmp : α → α → Ordering) (aKey : α)
    : FLLRBColor → Prop → Nat → FLLRBNode α β → Prop where
  | balanced {c : FLLRBColor} {n : Nat} {t : FLLRBNode α β} (h : Balanced c n t)
    : Removable cmp aKey c (t.left.isRed = true) n t
  | rightRed {n : Nat} {key : α} {value : β} {l r : FLLRBNode α β} (hl : Balanced .black n l)
    (hr : Balanced .red n r) (hkey : cmp aKey key ≠ .lt)
    : Removable cmp aKey .black True (n + 1) (.node key value .black l r)

variable {aKey : α}

theorem readyRight_of_red (key : α) (value : β) (c : FLLRBColor) (h : r.isRed = true)
    (hl : l.isRed = false)
    : readyRight (.node key value c l r) = .node key value c l r := by
  simp [readyRight, h, hl]

theorem readyRight_of_empty (hl : l.isRed = false)
    : readyRight (.node key value c l .empty) = .node key value c l .empty := by
  simp [readyRight, hl]

theorem readyRight_descent {c' : FLLRBColor}
    (h : Removable cmp aKey c rich n (.node key value c' l r)) (hkey : cmp aKey key ≠ .lt)
    (hr : l.isRed = true ∨ r.isEmpty = false)
    : ∃ key' value' c₁ l₁ r₁ c₂ rich₂ m,
        readyRight (.node key value c' l r) = .node key' value' c₁ l₁ r₁
          ∧ l₁.toList ++ (key', value') :: r₁.toList = l.toList ++ (key, value) :: r.toList
          ∧ r₁.isEmpty = false ∧ Removable cmp aKey c₂ rich₂ m r₁ ∧ (c₂ = .black → rich₂)
          ∧ ((key', value') ∈ l.toList ∨ (key' = key ∧ Balanced c₂ m r₁
            ∧ (c₂ = .black → r₁.left.isRed = true)))
          ∧ ∀ k v, Descent c rich n c₂ m (fun sub => fixUp (.node k v c₁ l₁ sub)) := by
  cases h with
  | rightRed hbl hbr hrightKey =>
    rename_i m
    have hready := readyRight_of_red key value .black hbr.isRed
      hbl.not_isRed
    obtain ⟨rkey, rvalue, rl, rr, rfl⟩ := exists_node_of_isRed hbr.isRed
    refine ⟨key, value, .black, l, _, .red, _, m, hready, rfl, rfl, .balanced hbr, ?_,
      .inr ⟨rfl, hbr, ?_⟩, ?_⟩
    . intro h
      cases h
    . intro h
      cases h
    . intro k v
      exact descent_right hbl (fun h => nomatch h) (fun _ => rfl)
  | balanced h =>
    obtain ⟨rfl, cl, m, rfl, hbl, hbr, hred⟩ := h.children
    cases cl with
    | red =>
      have hc : c' = .black := by
        cases c' with
        | red => cases hred rfl
        | black => rfl
      subst hc
      cases hbl with
      | @red _ lkey lvalue ll lr hll hlr =>
        have hready : readyRight (.node key value .black (.node lkey lvalue .red ll lr) r)
            =
          .node lkey lvalue .black ll (.node key value .red lr r) := by
          simp [readyRight, rotateRight]
        refine ⟨lkey, lvalue, .black, ll, _, .red, _, m, hready, by simp, rfl,
          .balanced (.red hlr hbr), ?_, .inl (by simp), ?_⟩
        . intro h
          cases h
        . intro k v
          exact descent_right hll (fun h => nomatch h) (fun _ => rfl)
    | black =>
      have hrne : r.isEmpty = false := by
        cases hr with
        | inl hr =>
          rw [hbl.not_isRed] at hr
          cases hr
        | inr hr => exact hr
      cases m with
      | zero =>
        rw [hbr.empty_of_zero] at hrne
        cases hrne
      | succ m =>
        obtain ⟨lkey, lvalue, cll, ll, lr, rfl, hll, hlr⟩ := hbl.node_of_black
        obtain ⟨rkey, rvalue, crl, rl, rr, rfl, hrl, hrr⟩ := hbr.node_of_black
        cases crl with
        | red =>
          have hready : readyRight (.node key value c' (.node lkey lvalue .black ll lr)
                (.node rkey rvalue .black rl rr))
              =
            .node key value c' (.node lkey lvalue .black ll lr)
              (.node rkey rvalue .black rl rr) := by
            simp [readyRight, hrl.isRed]
          refine ⟨key, value, c', _, _, .black, _, m + 1, hready, rfl, rfl, .balanced hbr,
            fun _ => hrl.isRed, .inr ⟨rfl, hbr, fun _ => hrl.isRed⟩, ?_⟩
          intro k v
          exact descent_right hbl (fun _ => ⟨rfl, rfl⟩) (fun h => nomatch h)
        | black =>
          have hready : readyRight (.node key value c' (.node lkey lvalue .black ll lr)
                (.node rkey rvalue .black rl rr))
              =
            moveRedRight (.node key value c' (.node lkey lvalue .black ll lr)
              (.node rkey rvalue .black rl rr)) := by
            simp [readyRight, hrl.not_isRed]
          cases cll with
          | black =>
            rw [moveRedRight_eq_flip hll.not_isRed] at hready
            have hnotRich : c' = .black →
                ¬ (FLLRBNode.node lkey lvalue .black ll lr).isRed = true := by
              intro _ hlred
              cases hlred
            refine ⟨key, value, c'.flip, _, _, .red, _, m, hready, by simp, rfl,
              .balanced (.red hrl hrr), ?_, .inr ⟨rfl, .red hrl hrr, ?_⟩, ?_⟩
            . intro h
              cases h
            . intro h
              cases h
            . intro k v
              exact descent_right_flip (.red hll hlr) hnotRich
          | red =>
            cases hll with
            | @red _ bkey bvalue bl br hbl' hbr' =>
              rw [moveRedRight_eq_borrow] at hready
              refine ⟨lkey, lvalue, c', _, _, .black, True, m + 1, hready, by simp, rfl,
                .rightRed hlr (.red hrl hrr) hkey, fun _ => trivial, .inl (by simp), ?_⟩
              intro k v
              exact descent_right (.black hbl' hbr') (fun _ => ⟨rfl, rfl⟩) (fun h => nomatch h)

theorem remove_left (hkey : cmp aKey key = .lt)
    : remove cmp aKey (.node key value c l r)
        =
      ((readyLeft (.node key value c l r)).withLeft
        ((readyLeft (.node key value c l r)).left.remove cmp aKey)).fixUp := by
  conv_lhs => unfold remove
  simp only [hkey, ↓reduceIte]

theorem remove_right {key' : α} {value' : β} {c₁ : FLLRBColor} {l₁ r₁ : FLLRBNode α β}
    (hkey : cmp aKey key ≠ .lt)
    (hready : readyRight (.node key value c l r) = .node key' value' c₁ l₁ r₁)
    : remove cmp aKey (.node key value c l r)
        =
      if cmp aKey key' = .eq then
        match r₁.min with
        | none => .empty
        | some smallest =>
          fixUp (.node smallest.1 smallest.2 c₁ l₁ (r₁.removeMin.remove cmp aKey))
      else
        fixUp (.node key' value' c₁ l₁ (r₁.remove cmp aKey)) := by
  conv_lhs => unfold remove
  simp only [hkey, ↓reduceIte]
  split
  . next hn =>
    rw [hready] at hn
    cases hn
  . next hn =>
    rw [hready] at hn
    cases hn
    rfl

variable [TransCmp cmp]

def Removes (cmp : α → α → Ordering) (aKey : α) (t : FLLRBNode α β) : Prop :=
  ∀ c rich n, Sorted cmp t.toList → Removable cmp aKey c rich n t →
    (t.remove cmp aKey).toList = erase cmp aKey t.toList ∧ Shrunk c rich n (t.remove cmp aKey)

theorem removes_left {c' : FLLRBColor} (hkey : cmp aKey key = .lt)
    (ih : ∀ sub : FLLRBNode α β, sub.count < (node key value c' l r).count →
      Removes cmp aKey sub)
    : Removes cmp aKey (.node key value c' l r) := by
  intro c rich n hsorted h
  rw [toList_node] at hsorted
  have hback := lt_back_of_lt hsorted hkey
  cases h with
  | rightRed hbl hbr hrightKey => exact absurd hkey hrightKey
  | balanced h =>
    have hc' := h.children.left
    subst hc'
    cases hl : l.isEmpty with
    | true =>
      -- the key is in front of all entries
      cases l with
      | node lkey lvalue lc ll lr => cases hl
      | empty =>
        obtain ⟨hsame, hkept⟩ := remove_absent aKey _ c' n h hback
        refine ⟨?_, hkept.shrunk⟩
        rw [hsame, erase_of_ne]
        intro entry hentry
        simp [hback entry hentry]
    | false =>
      obtain ⟨key', value', c₁, l₁, r₁, more, c₂, m, hn, hlist, hrest, hsub, hleft, hdescent⟩ :=
        readyLeft_descent h hl
      have hwhole : l.toList ++ (key, value) :: r.toList
          =
        l₁.toList ++ (key', value') :: r₁.toList := by
        rw [hlist, List.append_assoc, hrest]
      have hsorted₁ : Sorted cmp l₁.toList := by
        rw [hwhole] at hsorted
        exact (sorted_node_iff.mp hsorted).left
      have hsmaller : l₁.count < (node key value c' l r).count := by
        have hready := count_readyLeft_le (.node key value c' l r)
        rw [hn] at hready
        simp only [count] at hready ⊢
        omega
      obtain ⟨herased, hshrunk⟩ := ih l₁ hsmaller c₂ _ m hsorted₁ (.balanced hsub)
      obtain ⟨c'', hbalanced, hc''⟩ := hshrunk.balanced hleft
      have hne : ∀ entry ∈ (key', value') :: r₁.toList, cmp aKey entry.1 ≠ .eq := by
        intro entry hentry
        have hmem : entry ∈ (key, value) :: r.toList := by
          rw [← hrest]
          exact List.mem_append_right _ hentry
        simp [hback entry hmem]
      rw [remove_left hkey, hn, left_node, withLeft_node]
      refine ⟨?_, hdescent.absorbs c'' _ hbalanced hc''⟩
      rw [toList_fixUp, toList_node, toList_node, hwhole, erase_append, erase_of_ne hne, herased]

theorem removes_right {c' : FLLRBColor} (hkey : cmp aKey key ≠ .lt)
    (hr : l.isRed = true ∨ r.isEmpty = false)
    (ih : ∀ sub : FLLRBNode α β, sub.count < (node key value c' l r).count →
      Removes cmp aKey sub)
    : Removes cmp aKey (.node key value c' l r) := by
  intro c rich n hsorted h
  rw [toList_node] at hsorted
  obtain ⟨key', value', c₁, l₁, r₁, c₂, rich₂, m, hn, hwhole, hr₁, hsub, hrich₂, hplace,
    hdescent⟩ := readyRight_descent h hkey hr
  have hfront := gt_front_of_not_lt hsorted hkey
  rw [← hwhole] at hsorted
  have hkey' : cmp aKey key' ≠ .lt := by
    cases hplace with
    | inl hmem => simp [hfront _ hmem]
    | inr heq =>
      rw [heq.left]
      exact hkey
  have hfront₁ := gt_front_of_not_lt hsorted hkey'
  have hne₁ : ∀ entry ∈ l₁.toList, cmp aKey entry.1 ≠ .eq := by
    intro entry hentry
    simp [hfront₁ entry hentry]
  rw [remove_right hkey hn, toList_node, ← hwhole]
  by_cases heq : cmp aKey key' = .eq
  . have hback₁ := lt_back_of_eq hsorted heq
    have hneBack : ∀ entry ∈ r₁.toList, cmp aKey entry.1 ≠ .eq := by
      intro entry hentry
      simp [hback₁ entry hentry]
    have hhere : Balanced c₂ m r₁ ∧ (c₂ = .black → r₁.left.isRed = true) := by
      cases hplace with
      | inl hmem =>
        have hgt := hfront _ hmem
        rw [heq] at hgt
        cases hgt
      | inr hplace => exact hplace.right
    obtain ⟨⟨smallest, hsmallest⟩, c'', hbalanced, hc''⟩ :=
      removeMin_spec r₁ c₂ m hhere.left hhere.right hr₁
    have hrest : ∀ entry ∈ r₁.removeMin.toList, cmp aKey entry.1 = .lt := by
      intro entry hentry
      apply hback₁
      rw [hsmallest]
      exact List.mem_cons_of_mem _ hentry
    obtain ⟨hsame, hkept⟩ := remove_absent aKey r₁.removeMin c'' m hbalanced hrest
    have herase : erase cmp aKey ((key', value') :: r₁.toList) = r₁.toList := by
      have hself := erase_of_ne hneBack
      unfold erase at hself ⊢
      rw [List.filter_cons_of_neg (by simp [heq]), hself]
    rw [if_pos heq, min_of_toList hsmallest]
    dsimp only
    refine ⟨?_, (hdescent _ _).absorbs c'' _ hkept hc''⟩
    rw [toList_fixUp, toList_node, hsame, erase_append, erase_of_ne hne₁, herase, hsmallest]
  . have hsmaller : r₁.count < (node key value c' l r).count := by
      have hready := count_readyRight_le (.node key value c' l r)
      rw [hn] at hready
      simp only [count] at hready ⊢
      omega
    obtain ⟨herased, hshrunk⟩ :=
      ih r₁ hsmaller c₂ rich₂ m (sorted_node_iff.mp hsorted).right.left hsub
    obtain ⟨c'', hbalanced, hc''⟩ := hshrunk.balanced hrich₂
    have herase : erase cmp aKey ((key', value') :: r₁.toList)
        =
      (key', value') :: erase cmp aKey r₁.toList := by
      unfold erase
      rw [List.filter_cons_of_pos (by simp [heq])]
    rw [if_neg heq]
    refine ⟨?_, (hdescent _ _).absorbs c'' _ hbalanced hc''⟩
    rw [toList_fixUp, toList_node, herased, erase_append, erase_of_ne hne₁, herase]

omit [TransCmp cmp] in
theorem removes_leaf {c' : FLLRBColor} (hkey : cmp aKey key ≠ .lt) (hl : l.isRed = false)
    : Removes cmp aKey (.node key value c' l .empty) := by
  intro c rich n hsorted h
  cases h with
  | rightRed hbl hbr hrightKey => cases hbr
  | balanced h =>
    obtain ⟨rfl, cl, m, rfl, hbl, hbr, hred⟩ := h.children
    have hm := hbr.height_of_empty
    subst hm
    have hempty : l = .empty := by
      cases cl with
      | red =>
        rw [hbl.isRed] at hl
        cases hl
      | black => exact hbl.empty_of_zero
    subst hempty
    rw [remove_right hkey (readyRight_of_empty rfl)]
    by_cases heq : cmp aKey key = .eq
    . have hmin : (empty : FLLRBNode α β).min = none := rfl
      rw [if_pos heq, hmin]
      refine ⟨by simp [erase, heq], ?_⟩
      constructor
      . intro hc
        subst hc
        exact ⟨.black, .empty⟩
      . intro _ hleft
        simp at hleft
      . exact ⟨0, .empty⟩
    . have hremove : (empty : FLLRBNode α β).remove cmp aKey = .empty := by
        unfold remove
        rfl
      rw [if_neg heq, hremove, fixUp_eq_self rfl rfl]
      exact ⟨by simp [erase, heq], h.shrunk⟩

theorem removes (cmp : α → α → Ordering) [TransCmp cmp] (aKey : α) (t : FLLRBNode α β)
    : Removes cmp aKey t := by
  induction hcount : t.count using Nat.strongRecOn generalizing t with
  | ind size ih =>
    have hsmaller : ∀ sub : FLLRBNode α β, sub.count < t.count → Removes cmp aKey sub := by
      intro sub hsub
      rw [hcount] at hsub
      exact ih sub.count hsub sub rfl
    cases t with
    | empty =>
      intro c rich n _ h
      cases h with
      | balanced h =>
        unfold remove
        exact ⟨rfl, h.shrunk⟩
    | node key value c' l r =>
      by_cases hkey : cmp aKey key = .lt
      . exact removes_left hkey hsmaller
      . by_cases hr : l.isRed = true ∨ r.isEmpty = false
        . exact removes_right hkey hr hsmaller
        . rw [not_or, Bool.not_eq_true, Bool.not_eq_false] at hr
          cases r with
          | node rkey rvalue rc rl rr => cases hr.right
          | empty => exact removes_leaf hkey hr.left

theorem remove_withColor_black (aKey : α) {t : FLLRBNode α β} (hsorted : Sorted cmp t.toList)
    (h : Balanced c n t)
    : (t.remove cmp aKey).toList = erase cmp aKey t.toList
        ∧ ∃ m, Balanced .black m ((t.remove cmp aKey).withColor .black) := by
  have hremoves := removes cmp aKey t c _ n hsorted (.balanced h)
  exact ⟨hremoves.left, hremoves.right.root⟩

end FLLRBNode
