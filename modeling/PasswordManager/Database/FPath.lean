import PasswordManager.Database.FUtilities
import PasswordManager.SortedDictionary.Runs

/-!
This module contains the paths of the database client and the check that the paths of one update are
not inside each other. The check sorts the paths and looks at neighbours only.
-/

/--
The pieces that are left of a path. The ones in front of `pieceNum` are never looked at again.
-/
abbrev FPath (κ : Type) := List κ

namespace NSException

def invalidPathInObject : NSException where
  name := "InvalidFirebaseData"
  reason := "Invalid path in object. Path is an ancestor of another."

end NSException

namespace FPath

variable {κ : Type}

def compare (cmp : κ → κ → Ordering) : FPath κ → FPath κ → Ordering
  | piece :: self, otherPiece :: other =>
    let comparison := cmp piece otherPiece
    if comparison ≠ .eq then comparison else compare cmp self other
  | self, other =>
    if self.length < other.length then
      .lt
    else if other.length < self.length then
      .gt
    else
      .eq

def Apart (p q : FPath κ) : Prop :=
  ¬ p <+: q ∧ ¬ q <+: p

section Order

variable {cmp : κ → κ → Ordering}

theorem compare_eq_compareLex (cmp : κ → κ → Ordering) : compare cmp = List.compareLex cmp := by
  funext self other
  induction self generalizing other with
  | nil =>
    cases other with
    | nil => rfl
    | cons otherPiece other => simp [compare, List.compareLex_nil_cons]
  | cons piece self ih =>
    cases other with
    | nil => simp [compare, List.compareLex_cons_nil]
    | cons otherPiece other =>
      rw [List.compareLex_cons_cons]
      unfold compare
      rw [ih]
      cases cmp piece otherPiece with
      | lt => rfl
      | eq => rfl
      | gt => rfl

variable [Std.TransCmp cmp]

theorem prefix_of_between {p r q : FPath κ}
    (hlawful : ∀ a ∈ p, ∀ b ∈ r, cmp a b = .eq → a = b) (hpq : p <+: q)
    (hpr : (List.compareLex cmp p r).isLE) (hrq : (List.compareLex cmp r q).isLE) : p <+: r := by
  induction p generalizing r q with
  | nil => exact List.nil_prefix
  | cons a p ih =>
    cases q with
    | nil => simp at hpq
    | cons c q =>
      rw [List.cons_prefix_cons] at hpq
      obtain ⟨rfl, hpq⟩ := hpq
      cases r with
      | nil =>
        rw [List.compareLex_cons_nil] at hpr
        cases hpr
      | cons b r =>
        rw [List.compareLex_cons_cons, Ordering.isLE_then_iff_and] at hpr hrq
        have heq : cmp a b = .eq := Std.OrientedCmp.isLE_antisymm hpr.left hrq.left
        have hab : a = b := hlawful a List.mem_cons_self b List.mem_cons_self heq
        subst hab
        rw [heq] at hpr hrq
        rw [List.cons_prefix_cons]
        refine ⟨rfl, ?_⟩
        apply ih
        . intro a ha b hb
          exact hlawful a (List.mem_cons_of_mem _ ha) b (List.mem_cons_of_mem _ hb)
        . exact hpq
        . exact hpr.right.resolve_left (by simp)
        . exact hrq.right.resolve_left (by simp)

theorem isLE_of_extends {p q : FPath κ} (h : p <+: q) : (List.compareLex cmp p q).isLE := by
  induction p generalizing q with
  | nil => exact List.isLE_compareLex_nil_left
  | cons a p ih =>
    cases q with
    | nil => simp at h
    | cons b q =>
      rw [List.cons_prefix_cons] at h
      obtain ⟨rfl, h⟩ := h
      have hself : cmp a a = .eq := Std.ReflCmp.compare_self
      rw [List.compareLex_cons_cons, hself]
      exact ih h

omit [Std.TransCmp cmp] in
theorem eq_of_compareLex {p q : FPath κ} (hlawful : ∀ a ∈ p, ∀ b ∈ q, cmp a b = .eq → a = b)
    (h : List.compareLex cmp p q = .eq) : p = q := by
  induction p generalizing q with
  | nil =>
    cases q with
    | nil => rfl
    | cons b q => simp [List.compareLex_nil_cons] at h
  | cons a p ih =>
    cases q with
    | nil => simp [List.compareLex_cons_nil] at h
    | cons b q =>
      rw [List.compareLex_cons_cons, Ordering.then_eq_eq] at h
      rw [hlawful a List.mem_cons_self b List.mem_cons_self h.left]
      rw [ih _ h.right]
      intro a ha b hb
      exact hlawful a (List.mem_cons_of_mem _ ha) b (List.mem_cons_of_mem _ hb)

end Order

variable [DecidableEq κ]

def contains.loop : (self other : FPath κ) → Bool
  | [], _ => true
  | thisSeg :: self, otherSeg :: other => if thisSeg ≠ otherSeg then false else loop self other
  -- there is no such segment, the lengths have been compared before
  | _ :: _, [] => false

def contains (self other : FPath κ) : Bool :=
  if self.length > other.length then false else contains.loop self other

theorem loop_iff {self other : FPath κ} : contains.loop self other = true ↔ self <+: other := by
  induction self generalizing other with
  | nil => simp [contains.loop]
  | cons piece self ih =>
    cases other with
    | nil => simp [contains.loop]
    | cons otherPiece other =>
      unfold contains.loop
      rw [List.cons_prefix_cons]
      split
      . next hne =>
        simp [hne]
      . next heq =>
        rw [not_not] at heq
        simp [heq, ih]

theorem contains_iff {self other : FPath κ} : self.contains other = true ↔ self <+: other := by
  unfold contains
  split
  . next hlength =>
    simp only [Bool.false_eq_true, false_iff]
    intro hpre
    have hle := hpre.length_le
    omega
  . apply loop_iff

end FPath
