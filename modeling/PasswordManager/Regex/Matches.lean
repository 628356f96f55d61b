import PasswordManager.Regex.Basic

/-!
This module contains what a regular expression means, independently of the order in which the
backtracking matcher tries things, and the proof that the matcher finds exactly the matches.
-/

namespace Regex

variable {α : Type}

def Rounds (R : List α → List α → List α → Prop) : Nat → List α → List α → List α → Prop
  | 0, _, word, _ => word = []
  | n + 1, before, word, after =>
    ∃ u v, word = u ++ v ∧ R before u (v ++ after) ∧ Rounds R n (u.reverse ++ before) v after

def Matches : Regex α → List α → List α → List α → Prop
  | .empty, _, word, _ => word = []
  | .set accepts, _, word, _ => ∃ a, word = [a] ∧ accepts a = true
  | .assertion holds, before, word, after => word = [] ∧ holds before after = true
  | .seq lhs rhs, before, word, after =>
    ∃ u v, word = u ++ v
      ∧ Matches lhs before u (v ++ after) ∧ Matches rhs (u.reverse ++ before) v after
  | .alt lhs rhs, before, word, after =>
    Matches lhs before word after ∨ Matches rhs before word after
  | .rounds body min max, before, word, after =>
    ∃ n, (∀ m, max = some m → n ≤ m - min) ∧ Rounds (Matches body) (min + n) before word after

theorem rounds_add {R : List α → List α → List α → Prop} {m n : Nat}
    {before word after : List α}
    : Rounds R (m + n) before word after
        ↔
      ∃ u v, word = u ++ v ∧ Rounds R m before u (v ++ after)
        ∧ Rounds R n (u.reverse ++ before) v after := by
  induction m generalizing before word with
  | zero => simp [Rounds]
  | succ m ih =>
    rw [Nat.add_right_comm]
    simp only [Rounds, ih]
    constructor
    . rintro ⟨u, v, rfl, hu, x, y, rfl, hx, hy⟩
      refine ⟨u ++ x, y, by simp, ⟨u, x, rfl, ?_, hx⟩, ?_⟩
      . simpa using hu
      . simpa using hy
    . rintro ⟨u, v, rfl, ⟨x, y, rfl, hx, hy⟩, hv⟩
      refine ⟨x, y ++ v, by simp, ?_, y, v, rfl, hy, ?_⟩
      . simpa using hx
      . simpa using hv

def Finds (f : Cursor α → List (Cursor α)) (R : List α → List α → List α → Prop) : Prop :=
  ∀ (before text : List α) (d : Cursor α),
    d ∈ f ⟨before, text⟩
      ↔
    ∃ word, text = word ++ d.after ∧ d.before = word.reverse ++ before ∧ R before word d.after

variable {f : Cursor α → List (Cursor α)} {R : List α → List α → List α → Prop}

theorem finds_exactly (hf : Finds f R) (n : Nat) : Finds (exactly f n) (Rounds R n) := by
  induction n with
  | zero =>
    intro before text d
    rw [exactly, List.mem_singleton]
    constructor
    . rintro rfl
      exact ⟨[], rfl, rfl, rfl⟩
    . rintro ⟨word, htext, hbefore, hword⟩
      rw [Rounds] at hword
      subst hword
      cases d
      simp_all
  | succ n ih =>
    intro before text d
    rw [exactly, List.mem_flatMap]
    constructor
    . rintro ⟨⟨mid, rest⟩, hfirst, hlast⟩
      obtain ⟨u, rfl, rfl, hu⟩ := (hf _ _ _).mp hfirst
      obtain ⟨v, rfl, hbefore, hv⟩ := (ih _ _ _).mp hlast
      exact ⟨u ++ v, by simp, by simp [hbefore], u, v, rfl, hu, hv⟩
    . rintro ⟨word, rfl, hbefore, u, v, rfl, hu, hv⟩
      refine ⟨⟨u.reverse ++ before, v ++ d.after⟩, (hf _ _ _).mpr ⟨u, ?_, rfl, hu⟩, ?_⟩
      . simp
      . exact (ih _ _ _).mpr ⟨v, rfl, by simp [hbefore], hv⟩

theorem rounds_of_mem_upTo (hf : Finds f R) {n : Nat} {before text : List α} {d : Cursor α}
    (h : d ∈ upTo f n ⟨before, text⟩)
    : ∃ k word, k ≤ n ∧ text = word ++ d.after ∧ d.before = word.reverse ++ before
        ∧ Rounds R k before word d.after := by
  induction n generalizing before text with
  | zero =>
    rw [upTo, List.mem_singleton] at h
    subst h
    exact ⟨0, [], Nat.le_refl 0, rfl, rfl, rfl⟩
  | succ n ih =>
    rw [upTo, List.mem_append, List.mem_flatMap, List.mem_singleton] at h
    rcases h with ⟨⟨mid, rest⟩, hfirst, hlast⟩ | rfl
    . obtain ⟨u, rfl, rfl, hu⟩ := (hf _ _ _).mp (List.mem_of_mem_filter hfirst)
      obtain ⟨k, v, hk, rfl, hbefore, hv⟩ := ih hlast
      exact ⟨k + 1, u ++ v, by omega, by simp, by simp [hbefore], u, v, rfl, hu, hv⟩
    . exact ⟨0, [], Nat.zero_le _, rfl, rfl, rfl⟩

-- By induction on the rounds: those that consume nothing are left out, the others fit into any
-- number of rounds that bounds either their number or the text.
theorem mem_upTo_of_rounds (hf : Finds f R) {k n : Nat} {before word : List α} {d : Cursor α}
    (hn : k ≤ n ∨ word.length ≤ n) (hbefore : d.before = word.reverse ++ before)
    (h : Rounds R k before word d.after) : d ∈ upTo f n ⟨before, word ++ d.after⟩ := by
  induction k generalizing n before word with
  | zero =>
    rw [Rounds] at h
    subst h
    have hd : d = ⟨before, [] ++ d.after⟩ := by
      cases d
      simp_all
    cases n with
    | zero =>
      rw [upTo, List.mem_singleton]
      exact hd
    | succ n =>
      rw [upTo, List.mem_append, List.mem_singleton]
      exact .inr hd
  | succ k ih =>
    obtain ⟨u, v, rfl, hu, hv⟩ := h
    cases u with
    | nil =>
      apply ih
      . rcases hn with hn | hn
        . exact .inl (by omega)
        . exact .inr hn
      . exact hbefore
      . exact hv
    | cons a u =>
      cases n with
      | zero => simp at hn
      | succ n =>
        rw [upTo, List.mem_append, List.mem_flatMap]
        refine .inl ⟨⟨(a :: u).reverse ++ before, v ++ d.after⟩, ?_, ?_⟩
        . rw [List.mem_filter]
          refine ⟨(hf _ _ _).mpr ⟨a :: u, by simp, rfl, hu⟩, ?_⟩
          simp only [decide_eq_true_eq, List.length_append, List.length_cons]
          omega
        . apply ih
          . rcases hn with hn | hn
            . exact .inl (by omega)
            . right
              simp at hn
              omega
          . simp [hbefore]
          . exact hv

theorem finds_ends (r : Regex α) : Finds (ends r) (Matches r) := by
  induction r with
  | empty =>
    intro before text d
    rw [ends, List.mem_singleton]
    constructor
    . rintro rfl
      exact ⟨[], rfl, rfl, rfl⟩
    . rintro ⟨word, htext, hbefore, rfl⟩
      cases d
      simp_all
  | set accepts =>
    intro before text d
    cases d
    cases text with
    | nil => simp [ends, Matches]
    | cons a rest =>
      by_cases ha : accepts a = true
      . simp [ends, Matches, ha]
        grind
      . simp [ends, Matches, ha]
  | assertion holds =>
    intro before text d
    cases d
    by_cases h : holds before text = true
    . simp [ends, Matches, h]
      grind
    . simp [ends, Matches, h]
      grind
  | seq lhs rhs ihl ihr =>
    intro before text d
    rw [ends, List.mem_flatMap]
    constructor
    . rintro ⟨⟨mid, rest⟩, hfirst, hlast⟩
      obtain ⟨u, rfl, rfl, hu⟩ := (ihl _ _ _).mp hfirst
      obtain ⟨v, rfl, hbefore, hv⟩ := (ihr _ _ _).mp hlast
      exact ⟨u ++ v, by simp, by simp [hbefore], u, v, rfl, hu, hv⟩
    . rintro ⟨word, rfl, hbefore, u, v, rfl, hu, hv⟩
      refine ⟨⟨u.reverse ++ before, v ++ d.after⟩, (ihl _ _ _).mpr ⟨u, ?_, rfl, hu⟩, ?_⟩
      . simp
      . exact (ihr _ _ _).mpr ⟨v, rfl, by simp [hbefore], hv⟩
  | alt lhs rhs ihl ihr =>
    intro before text d
    rw [ends, List.mem_append, ihl, ihr]
    simp only [Matches]
    grind
  | rounds body min max ih =>
    intro before text d
    rw [ends, List.mem_flatMap]
    constructor
    . rintro ⟨⟨mid, rest⟩, hfirst, hlast⟩
      obtain ⟨u, rfl, rfl, hu⟩ := (finds_exactly ih min _ _ _).mp hfirst
      cases max with
      | none =>
        obtain ⟨k, v, -, rfl, hbefore, hv⟩ := rounds_of_mem_upTo ih hlast
        refine ⟨u ++ v, by simp, by simp [hbefore], k, by simp, ?_⟩
        exact rounds_add.mpr ⟨u, v, rfl, hu, hv⟩
      | some max =>
        obtain ⟨k, v, hk, rfl, hbefore, hv⟩ := rounds_of_mem_upTo ih hlast
        refine ⟨u ++ v, by simp, by simp [hbefore], k, by simpa using hk, ?_⟩
        exact rounds_add.mpr ⟨u, v, rfl, hu, hv⟩
    . rintro ⟨word, rfl, hbefore, k, hk, hword⟩
      obtain ⟨u, v, rfl, hu, hv⟩ := rounds_add.mp hword
      have hmid : d.before = v.reverse ++ (u.reverse ++ before) := by
        simp [hbefore]
      refine ⟨⟨u.reverse ++ before, v ++ d.after⟩, ?_, ?_⟩
      . exact (finds_exactly ih min _ _ _).mpr ⟨u, by simp, rfl, hu⟩
      . cases max with
        | none => exact mem_upTo_of_rounds ih (.inr (by simp)) hmid hv
        | some max => exact mem_upTo_of_rounds ih (.inl (hk max rfl)) hmid hv

theorem mem_ends_iff (r : Regex α) {before word after : List α}
    : ⟨word.reverse ++ before, after⟩ ∈ ends r ⟨before, word ++ after⟩
        ↔
      Matches r before word after := by
  rw [finds_ends r]
  constructor
  . rintro ⟨word', htext, -, hword⟩
    rw [List.append_cancel_right htext]
    exact hword
  . intro hword
    exact ⟨word, rfl, rfl, hword⟩

instance [DecidableEq α] (r : Regex α) (before word after : List α)
    : Decidable (Matches r before word after) :=
  decidable_of_iff _ (mem_ends_iff r)

theorem ends_ne_nil_iff (r : Regex α) (before text : List α)
    : ends r ⟨before, text⟩ ≠ []
        ↔
      ∃ word after, text = word ++ after ∧ Matches r before word after := by
  constructor
  . intro hne
    obtain ⟨d, hd⟩ := List.exists_mem_of_ne_nil _ hne
    obtain ⟨word, htext, -, hword⟩ := (finds_ends r _ _ _).mp hd
    exact ⟨word, d.after, htext, hword⟩
  . rintro ⟨word, after, htext, hword⟩
    apply List.ne_nil_of_mem (a := ⟨word.reverse ++ before, after⟩)
    exact (finds_ends r _ _ _).mpr ⟨word, htext, rfl, hword⟩

theorem firstMatchFrom_isSome_iff (r : Regex α) (before text : List α)
    : (firstMatchFrom r before text).isSome = true
        ↔
      ∃ skipped word after, text = skipped ++ word ++ after
        ∧ Matches r (skipped.reverse ++ before) word after := by
  induction text generalizing before with
  | nil =>
    rw [firstMatchFrom, Option.isSome_map, List.isSome_head?, ends_ne_nil_iff]
    constructor
    . rintro ⟨word, after, htext, hword⟩
      exact ⟨[], word, after, htext, hword⟩
    . rintro ⟨skipped, word, after, htext, hword⟩
      simp only [List.nil_eq, List.append_eq_nil_iff] at htext
      obtain ⟨⟨rfl, rfl⟩, rfl⟩ := htext
      exact ⟨[], [], rfl, hword⟩
  | cons a rest ih =>
    have hends := ends_ne_nil_iff r before (a :: rest)
    unfold firstMatchFrom
    cases h : ends r ⟨before, a :: rest⟩ with
    | cons d ds =>
      rw [h] at hends
      obtain ⟨word, after, htext, hword⟩ := hends.mp (List.cons_ne_nil _ _)
      simp only [Option.isSome_some, true_iff]
      exact ⟨[], word, after, htext, hword⟩
    | nil =>
      rw [h] at hends
      dsimp only
      rw [ih]
      constructor
      . rintro ⟨skipped, word, after, rfl, hword⟩
        exact ⟨a :: skipped, word, after, rfl, by simpa using hword⟩
      . rintro ⟨skipped, word, after, htext, hword⟩
        cases skipped with
        | nil => exact absurd rfl (hends.mpr ⟨word, after, htext, hword⟩)
        | cons b skipped =>
          obtain ⟨rfl, rfl⟩ := List.cons.inj htext
          exact ⟨skipped, word, after, rfl, by simpa using hword⟩

/--
The search succeeds on a text exactly if some part of the text is a match where it stands.
-/
theorem firstMatch_isSome_iff (r : Regex α) (text : List α)
    : (firstMatch r text).isSome = true
        ↔
      ∃ before word after, text = before ++ word ++ after
        ∧ Matches r before.reverse word after := by
  unfold firstMatch
  rw [firstMatchFrom_isSome_iff]
  simp only [List.append_nil]

end Regex
