import PasswordManager.Regex.Matches

/-!
This module contains the matches of the expressions that patterns are usually made of.
-/

namespace Regex

variable {α : Type} {before word after : List α}

@[simp]
theorem matches_sym [DecidableEq α] (a : α) : Matches (.sym a) before word after ↔ word = [a] := by
  simp [sym, Matches]

theorem matches_set {accepts : α → Bool}
    : Matches (.set accepts) before word after ↔ ∃ a, word = [a] ∧ accepts a = true := by
  rfl

theorem matches_seq (lhs rhs : Regex α)
    : Matches (.seq lhs rhs) before word after
        ↔
      ∃ u v, word = u ++ v ∧ Matches lhs before u (v ++ after)
        ∧ Matches rhs (u.reverse ++ before) v after := by
  rfl

theorem matches_alt (lhs rhs : Regex α)
    : Matches (.alt lhs rhs) before word after
        ↔
      Matches lhs before word after ∨ Matches rhs before word after := by
  rfl

theorem matches_assertion (holds : List α → List α → Bool)
    : Matches (.assertion holds) before word after ↔ word = [] ∧ holds before after = true := by
  rfl

theorem matches_rounds (body : Regex α) (min : Nat) (max : Option Nat)
    : Matches (.rounds body min max) before word after
        ↔
      ∃ n, (∀ m, max = some m → n ≤ m - min)
        ∧ Rounds (Matches body) (min + n) before word after := by
  rfl

theorem matches_opt (r : Regex α)
    : Matches (.opt r) before word after ↔ word = [] ∨ Matches r before word after := by
  simp only [opt, matches_rounds, Option.some.injEq, forall_eq', Nat.sub_zero, Nat.zero_add]
  constructor
  . rintro ⟨n, hn, hrounds⟩
    obtain rfl | rfl : n = 0 ∨ n = 1 := by omega
    . exact .inl hrounds
    . obtain ⟨u, v, rfl, hu, rfl⟩ := hrounds
      right
      simpa using hu
  . rintro (rfl | h)
    . exact ⟨0, by omega, rfl⟩
    . exact ⟨1, by omega, word, [], by simp, by simpa using h, rfl⟩

theorem rounds_set {accepts : α → Bool} {n : Nat}
    : Rounds (Matches (.set accepts)) n before word after
        ↔
      word.length = n ∧ ∀ a ∈ word, accepts a = true := by
  induction n generalizing before word with
  | zero =>
    rw [Rounds, List.length_eq_zero_iff]
    constructor
    . rintro rfl
      simp
    . exact And.left
  | succ n ih =>
    simp only [Rounds, ih, matches_set]
    constructor
    . rintro ⟨u, v, rfl, ⟨a, rfl, ha⟩, rfl, hv⟩
      simpa [ha] using hv
    . rintro ⟨hlength, hall⟩
      cases word with
      | nil => cases hlength
      | cons a rest =>
        rw [List.forall_mem_cons] at hall
        exact ⟨[a], rest, rfl, ⟨a, rfl, hall.left⟩, Nat.succ.inj hlength, hall.right⟩

theorem matches_rounds_set {accepts : α → Bool} {min : Nat} {max : Option Nat}
    : Matches (.rounds (.set accepts) min max) before word after
        ↔
      min ≤ word.length ∧ (∀ m, max = some m → word.length - min ≤ m - min)
        ∧ ∀ a ∈ word, accepts a = true := by
  simp only [matches_rounds, rounds_set]
  constructor
  . rintro ⟨n, hn, hlength, hall⟩
    refine ⟨by omega, ?_, hall⟩
    intro m hm
    have := hn m hm
    omega
  . rintro ⟨hmin, hmax, hall⟩
    exact ⟨word.length - min, hmax, by omega, hall⟩

@[simp]
theorem matches_star_set {accepts : α → Bool}
    : Matches (.star (.set accepts)) before word after ↔ ∀ a ∈ word, accepts a = true := by
  simp [star, matches_rounds_set]

@[simp]
theorem matches_plus_set {accepts : α → Bool}
    : Matches (.plus (.set accepts)) before word after
        ↔
      word ≠ [] ∧ ∀ a ∈ word, accepts a = true := by
  simp [plus, matches_rounds_set, Nat.one_le_iff_ne_zero]

def Plain : Regex α → Prop
  | .empty => True
  | .set _ => True
  | .assertion _ => False
  | .seq lhs rhs => Plain lhs ∧ Plain rhs
  | .alt lhs rhs => Plain lhs ∧ Plain rhs
  | .rounds body _ _ => Plain body

theorem rounds_of_context {R : List α → List α → List α → Prop}
    (hR : ∀ b w a b' a', R b w a → R b' w a') {n : Nat} (h : Rounds R n before word after)
    (before' after' : List α) : Rounds R n before' word after' := by
  induction n generalizing before word before' with
  | zero => exact h
  | succ n ih =>
    obtain ⟨u, v, rfl, hu, hv⟩ := h
    exact ⟨u, v, rfl, hR _ _ _ _ _ hu, ih hv _⟩

theorem matches_of_plain {r : Regex α} (hr : Plain r) (h : Matches r before word after)
    (before' after' : List α) : Matches r before' word after' := by
  induction r generalizing before word after before' after' with
  | empty => exact h
  | set accepts => exact h
  | assertion holds => exact hr.elim
  | seq lhs rhs ihl ihr =>
    obtain ⟨u, v, rfl, hu, hv⟩ := h
    exact ⟨u, v, rfl, ihl hr.left hu _ _, ihr hr.right hv _ _⟩
  | alt lhs rhs ihl ihr =>
    rcases h with h | h
    . exact .inl (ihl hr.left h _ _)
    . exact .inr (ihr hr.right h _ _)
  | rounds body min max ih =>
    obtain ⟨n, hn, hrounds⟩ := h
    refine ⟨n, hn, rounds_of_context ?_ hrounds _ _⟩
    intro b w a b' a' hbody
    exact ih hr hbody b' a'

theorem matches_plain_iff {r : Regex α} (hr : Plain r)
    : Matches r before word after ↔ Matches r [] word [] := by
  constructor
  . intro h
    exact matches_of_plain hr h _ _
  . intro h
    exact matches_of_plain hr h _ _

theorem rounds_plain_iff {r : Regex α} (hr : Plain r) {n : Nat}
    : Rounds (Matches r) n before word after
        ↔
      ∃ parts : List (List α),
        parts.length = n ∧ word = parts.flatten ∧ ∀ part ∈ parts, Matches r [] part [] := by
  induction n generalizing before word with
  | zero =>
    rw [Rounds]
    constructor
    . rintro rfl
      exact ⟨[], rfl, rfl, by simp⟩
    . rintro ⟨parts, hlength, rfl, -⟩
      rw [List.length_eq_zero_iff] at hlength
      simp [hlength]
  | succ n ih =>
    simp only [Rounds, ih]
    constructor
    . rintro ⟨u, v, rfl, hu, parts, rfl, rfl, hparts⟩
      refine ⟨u :: parts, rfl, rfl, ?_⟩
      rw [List.forall_mem_cons]
      exact ⟨(matches_plain_iff hr).mp hu, hparts⟩
    . rintro ⟨parts, hlength, rfl, hparts⟩
      cases parts with
      | nil => cases hlength
      | cons u parts =>
        rw [List.forall_mem_cons] at hparts
        refine ⟨u, parts.flatten, rfl, (matches_plain_iff hr).mpr hparts.left, parts, ?_, rfl, ?_⟩
        . exact Nat.succ.inj hlength
        . exact hparts.right

theorem matches_star_plain {r : Regex α} (hr : Plain r)
    : Matches (.star r) before word after
        ↔
      ∃ parts : List (List α), word = parts.flatten ∧ ∀ part ∈ parts, Matches r [] part [] := by
  simp only [star, matches_rounds, rounds_plain_iff hr]
  constructor
  . rintro ⟨n, -, parts, -, hword, hparts⟩
    exact ⟨parts, hword, hparts⟩
  . rintro ⟨parts, hword, hparts⟩
    exact ⟨parts.length, by simp, parts, by simp, hword, hparts⟩

theorem matches_plus_plain {r : Regex α} (hr : Plain r)
    : Matches (.plus r) before word after
        ↔
      ∃ parts : List (List α),
        parts ≠ [] ∧ word = parts.flatten ∧ ∀ part ∈ parts, Matches r [] part [] := by
  simp only [plus, matches_rounds, rounds_plain_iff hr]
  constructor
  . rintro ⟨n, -, parts, hlength, hword, hparts⟩
    refine ⟨parts, ?_, hword, hparts⟩
    rintro rfl
    rw [List.length_nil] at hlength
    omega
  . rintro ⟨parts, hne, hword, hparts⟩
    have := List.length_pos_iff.mpr hne
    exact ⟨parts.length - 1, by simp, parts, by omega, hword, hparts⟩

end Regex
