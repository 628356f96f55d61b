import PasswordManager.SortedDictionary.FLLRBNode

/-!
This module contains the shape that the trees keep: no red node has a red child, no right child is
red, and the black nodes are as many on every way down.
-/

namespace FLLRBNode

variable {α β : Type}

inductive Balanced : FLLRBColor → Nat → FLLRBNode α β → Prop where
  | empty : Balanced .black 0 .empty
  | red {n key value l r} (hl : Balanced .black n l) (hr : Balanced .black n r)
    : Balanced .red n (.node key value .red l r)
  | black {c n key value l r} (hl : Balanced c n l) (hr : Balanced .black n r)
    : Balanced .black (n + 1) (.node key value .black l r)

variable {c cl cr : FLLRBColor} {n : Nat} {key : α} {value : β} {l r t : FLLRBNode α β}

theorem Balanced.isRed_eq (h : Balanced c n t) : t.isRed = decide (c = .red) := by
  cases h with
  | empty => rfl
  | red hl hr => rfl
  | black hl hr => rfl

theorem Balanced.not_isRed (h : Balanced .black n t) : t.isRed = false := by
  rw [h.isRed_eq]
  rfl

theorem Balanced.isRed (h : Balanced .red n t) : t.isRed = true := by
  rw [h.isRed_eq]
  rfl

theorem Balanced.not_isRed_left (h : Balanced .red n t) : t.left.isRed = false := by
  cases h with
  | red hl hr => exact hl.not_isRed

theorem Balanced.withColor_black (h : Balanced c n t)
    : ∃ m, Balanced .black m (t.withColor .black) := by
  cases h with
  | empty => exact ⟨0, .empty⟩
  | red hl hr => exact ⟨_, .black hl hr⟩
  | black hl hr => exact ⟨_, .black hl hr⟩

theorem Balanced.black_of_red (h : Balanced .red n t)
    : Balanced .black (n + 1) (t.withColor .black) := by
  cases h with
  | red hl hr => exact .black hl hr

theorem fixUp_eq_self (hl : l.isRed = false) (hr : r.isRed = false)
    : fixUp (.node key value c l r) = .node key value c l r := by
  simp [fixUp, hl, hr]

theorem fixUp_eq_left (hll : l.left.isRed = false) (hr : r.isRed = false)
    : fixUp (.node key value c l r) = .node key value c l r := by
  simp [fixUp, hll, hr]

theorem fixUp_eq_colorFlip (hl : l.isRed = true) (hll : l.left.isRed = false) (hr : r.isRed = true)
    : fixUp (.node key value c l r)
        =
      .node key value c.flip (l.withColor .black) (r.withColor .black) := by
  have hlcolor : l.color = .red := by simpa [isRed] using hl
  have hrcolor : r.color = .red := by simpa [isRed] using hr
  simp [fixUp, hl, hr, hll, colorFlip, hlcolor, hrcolor]

theorem fixUp_eq_rotateLeft {rkey : α} {rvalue : β} {rl rr : FLLRBNode α β} (hl : l.isRed = false)
    (hrr : rr.isRed = false)
    : fixUp (.node key value c l (.node rkey rvalue .red rl rr))
        =
      .node rkey rvalue c (.node key value .red l rl) rr := by
  simp [fixUp, hl, hrr, rotateLeft]

theorem fixUp_eq_rotateRight {lkey : α} {lvalue : β} {ll lr : FLLRBNode α β} (hll : ll.isRed = true)
    (hr : r.isRed = false)
    : fixUp (.node key value c (.node lkey lvalue .red ll lr) r)
        =
      .node lkey lvalue c.flip (ll.withColor .black) (.node key value .black lr r) := by
  have hllcolor : ll.color = .red := by simpa [isRed] using hll
  simp [fixUp, hll, hr, rotateRight, colorFlip, hllcolor]

theorem fixUp_black (key : α) (value : β) (hl : Balanced cl n l) (hr : Balanced cr n r)
    : ∃ c', Balanced c' (n + 1) (fixUp (.node key value .black l r))
        ∧ (c' = .red ↔ cl = .red ∧ cr = .red) := by
  cases cr with
  | black =>
    refine ⟨.black, ?_, by simp⟩
    cases cl with
    | black =>
      rw [fixUp_eq_self hl.not_isRed hr.not_isRed]
      exact .black hl hr
    | red =>
      rw [fixUp_eq_left hl.not_isRed_left hr.not_isRed]
      exact .black hl hr
  | red =>
    cases cl with
    | black =>
      refine ⟨.black, ?_, by simp⟩
      cases hr with
      | red hrl hrr =>
        rw [fixUp_eq_rotateLeft hl.not_isRed hrr.not_isRed]
        exact .black (.red hl hrl) hrr
    | red =>
      refine ⟨.red, ?_, by simp⟩
      rw [fixUp_eq_colorFlip hl.isRed hl.not_isRed_left hr.isRed]
      exact .red hl.black_of_red hr.black_of_red

theorem fixUp_red_red (hl : Balanced .red n l) (hr : Balanced .red n r)
    : Balanced .black (n + 2) (fixUp (.node key value .red l r)) := by
  rw [fixUp_eq_colorFlip hl.isRed hl.not_isRed_left hr.isRed]
  exact .black hl.black_of_red hr.black_of_red

theorem fixUp_red (hl : Balanced cl n l) (hr : Balanced cr n r)
    : ∃ m, Balanced .black m ((fixUp (.node key value .red l r)).withColor .black) := by
  cases cr with
  | black =>
    cases cl with
    | black =>
      rw [fixUp_eq_self hl.not_isRed hr.not_isRed]
      exact ⟨_, .black hl hr⟩
    | red =>
      rw [fixUp_eq_left hl.not_isRed_left hr.not_isRed]
      exact ⟨_, .black hl hr⟩
  | red =>
    cases cl with
    | black =>
      cases hr with
      | red hrl hrr =>
        rw [fixUp_eq_rotateLeft hl.not_isRed hrr.not_isRed]
        exact ⟨_, .black (.red hl hrl) hrr⟩
    | red => exact (fixUp_red_red hl hr).withColor_black

inductive AlmostRed : Nat → FLLRBNode α β → Prop where
  | node {c : FLLRBColor} {n : Nat} {key : α} {value : β} {l r : FLLRBNode α β}
    (hl : Balanced c n l) (hr : Balanced .black n r)
    : AlmostRed n (.node key value .red l r)

theorem fixUp_almostRed (hl : AlmostRed n l) (hr : Balanced .black n r)
    : ∃ c', Balanced c' (n + 1) (fixUp (.node key value .black l r)) := by
  cases hl with
  | @node c n lkey lvalue ll lr hll hlr =>
    cases c with
    | black =>
      obtain ⟨c', hfixUp, -⟩ := fixUp_black _ _ (.red hll hlr) hr
      exact ⟨c', hfixUp⟩
    | red =>
      rw [fixUp_eq_rotateRight hll.isRed hr.not_isRed]
      exact ⟨.red, .red hll.black_of_red (.black hlr hr)⟩

theorem almostRed_fixUp_left (hl : Balanced cl n l) (hr : Balanced .black n r)
    : AlmostRed n (fixUp (.node key value .red l r)) := by
  cases cl with
  | black =>
    rw [fixUp_eq_self hl.not_isRed hr.not_isRed]
    exact .node hl hr
  | red =>
    rw [fixUp_eq_left hl.not_isRed_left hr.not_isRed]
    exact .node hl hr

theorem almostRed_fixUp_right (hl : Balanced .black n l) (hr : Balanced cr n r)
    : AlmostRed n (fixUp (.node key value .red l r)) := by
  cases cr with
  | black =>
    rw [fixUp_eq_self hl.not_isRed hr.not_isRed]
    exact .node hl hr
  | red =>
    cases hr with
    | red hrl hrr =>
      rw [fixUp_eq_rotateLeft hl.not_isRed hrr.not_isRed]
      exact .node (.red hl hrl) hrr

theorem insertKey_balanced (cmp : α → α → Ordering) (aKey : α) (aValue : β) (h : Balanced c n t)
    : match c with
      | .black => ∃ c', Balanced c' n (t.insertKey cmp aKey aValue)
      | .red => AlmostRed n (t.insertKey cmp aKey aValue) := by
  induction h with
  | empty => exact ⟨.red, .red .empty .empty⟩
  | @red n key value l r hl hr ihl ihr =>
    unfold insertKey
    dsimp only
    split
    . cases ihl with
      | intro c' hl' => exact almostRed_fixUp_left hl' hr
    . exact almostRed_fixUp_left hl hr
    . cases ihr with
      | intro c' hr' => exact almostRed_fixUp_right hl hr'
  | @black cl n key value l r hl hr ihl ihr =>
    have hblack : ∀ {c'} {l' : FLLRBNode α β} {cr'} {r'}, Balanced c' n l' → Balanced cr' n r' →
        ∀ newValue, ∃ c'', Balanced c'' (n + 1) (fixUp (.node key newValue .black l' r')) := by
      intro c' l' cr' r' hl' hr' newValue
      obtain ⟨c'', hfixUp, -⟩ := fixUp_black key _ hl' hr'
      exact ⟨c'', hfixUp⟩
    unfold insertKey
    dsimp only
    split
    . cases cl with
      | black =>
        cases ihl with
        | intro c' hl' => exact hblack hl' hr value
      | red => exact fixUp_almostRed ihl hr
    . exact hblack hl hr aValue
    . cases ihr with
      | intro c' hr' => exact hblack hl hr' value

theorem AlmostRed.withColor_black (h : AlmostRed n t)
    : Balanced .black (n + 1) (t.withColor .black) := by
  cases h with
  | node hl hr => exact .black hl hr

theorem insertKey_withColor_black (cmp : α → α → Ordering) (aKey : α) (aValue : β)
    (h : Balanced c n t)
    : ∃ m, Balanced .black m ((t.insertKey cmp aKey aValue).withColor .black) := by
  have hinserted := insertKey_balanced cmp aKey aValue h
  cases c with
  | black =>
    cases hinserted with
    | intro c' hc' => exact hc'.withColor_black
  | red => exact ⟨_, hinserted.withColor_black⟩

section Counting

theorem pow_le_count (h : Balanced c n t) : 2 ^ n ≤ t.count + 1 := by
  induction h with
  | empty => simp [count]
  | @red n key value l r hl hr ihl ihr =>
    simp only [count]
    omega
  | @black c n key value l r hl hr ihl ihr =>
    simp only [count, Nat.pow_succ]
    omega

theorem check_eq_ok_iff (t : FLLRBNode α β) (n : Nat)
    : t.check = .ok n ↔ ∃ c, Balanced c n t := by
  constructor
  . intro h
    induction t generalizing n with
    | empty =>
      injection h with h
      rw [← h]
      exact ⟨.black, .empty⟩
    | node key value color l r ihl ihr =>
      unfold check at h
      split at h
      . cases h
      . next hred =>
        split at h
        . cases h
        . next hright =>
          cases hlc : l.check with
          | error failure => simp [hlc, bind, Except.bind] at h
          | ok depth =>
            cases hrc : r.check with
            | error failure => simp [hlc, hrc, bind, Except.bind] at h
            | ok other =>
              simp only [hlc, hrc, bind, Except.bind] at h
              split at h
              . cases h
              . next heq =>
                have heq : depth = other := by omega
                obtain ⟨cl, hl⟩ := ihl depth hlc
                obtain ⟨cr, hr⟩ := ihr other hrc
                have hcr : cr = .black := by
                  rw [hr.isRed_eq] at hright
                  cases cr with
                  | red => simp at hright
                  | black => rfl
                injection h with h
                rw [← h]
                subst hcr
                subst heq
                cases color with
                | red =>
                  have hcl : cl = .black := by
                    rw [hl.isRed_eq] at hred
                    cases cl with
                    | red => simp at hred
                    | black => rfl
                  subst hcl
                  exact ⟨.red, .red hl hr⟩
                | black => exact ⟨.black, .black hl hr⟩
  . intro h
    obtain ⟨c, h⟩ := h
    induction h with
    | empty => rfl
    | @red n key value l r hl hr ihl ihr =>
      simp [check, hl.not_isRed, hr.not_isRed, ihl, ihr, bind, Except.bind]
    | @black c n key value l r hl hr ihl ihr =>
      simp [check, hr.not_isRed, ihl, ihr, bind, Except.bind]

theorem checkMaxDepth_of_balanced (h : Balanced c n t) : t.checkMaxDepth = .ok true := by
  have hcheck := (check_eq_ok_iff t n).mpr ⟨c, h⟩
  unfold checkMaxDepth
  rw [hcheck]
  simp [bind, Except.bind, pure, Except.pure, pow_le_count h]

-- The number of comparisons on the longest way down.
def depth : FLLRBNode α β → Nat
  | .empty => 0
  | .node _ _ _ l r => max l.depth r.depth + 1

theorem depth_le (h : Balanced c n t) : t.depth ≤ 2 * n + if c = .red then 1 else 0 := by
  induction h with
  | empty => simp [depth]
  | @red n key value l r hl hr ihl ihr =>
    simp only [reduceCtorEq, ↓reduceIte] at ihl ihr
    simp only [depth, ↓reduceIte]
    omega
  | @black c n key value l r hl hr ihl ihr =>
    simp only [reduceCtorEq, ↓reduceIte] at ihr
    have hl' : l.depth ≤ 2 * n + 1 := by
      split at ihl
      . omega
      . omega
    simp only [depth, reduceCtorEq, ↓reduceIte]
    omega

end Counting

end FLLRBNode
