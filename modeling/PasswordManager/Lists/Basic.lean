import Mathlib.Data.List.Basic

/-!
This module contains lemmas about lists that are cut into pieces.
-/

namespace List

variable {α : Type}

theorem append_cons_eq_append_cons_iff {sep : α} {u w u' w' : List α}
    : u ++ sep :: w = u' ++ sep :: w'
        ↔
      (u = u' ∧ w = w')
        ∨ (∃ t, u' = u ++ sep :: t ∧ w = t ++ sep :: w')
        ∨ (∃ t, u = u' ++ sep :: t ∧ w' = t ++ sep :: w) := by
  constructor
  . intro h
    rcases append_eq_append_iff.mp h with ⟨t, hu, hw⟩ | ⟨t, hu, hw⟩
    . cases t with
      | nil =>
        left
        simpa [eq_comm] using And.intro hu hw
      | cons x t =>
        rw [cons_append, cons.injEq] at hw
        right
        left
        exact ⟨t, by rw [hu, hw.left], hw.right⟩
    . cases t with
      | nil =>
        left
        simpa [eq_comm] using And.intro hu hw
      | cons x t =>
        rw [cons_append, cons.injEq] at hw
        right
        right
        exact ⟨t, by rw [hu, hw.left], hw.right⟩
  . rintro (⟨rfl, rfl⟩ | ⟨t, rfl, rfl⟩ | ⟨t, rfl, rfl⟩)
    . rfl
    . simp
    . simp

theorem append_cons_inj_of_notMem_left {sep : α} {u w u' w' : List α} (hu : sep ∉ u)
    (hu' : sep ∉ u') (h : u ++ sep :: w = u' ++ sep :: w') : u = u' ∧ w = w' := by
  rcases append_cons_eq_append_cons_iff.mp h with heq | ⟨t, rfl, -⟩ | ⟨t, rfl, -⟩
  . exact heq
  . simp at hu'
  . simp at hu

theorem takeWhile_eq_iff {p : α → Bool} {text word : List α}
    : text.takeWhile p = word
        ↔
      ∃ rest, text = word ++ rest ∧ (∀ c ∈ word, p c = true) ∧ ∀ c ∈ rest.head?, p c = false := by
  constructor
  . rintro rfl
    refine ⟨text.dropWhile p, by simp, ?_, ?_⟩
    . exact List.all_eq_true.mp List.all_takeWhile
    . intro c hc
      have := List.head?_dropWhile_not p text
      rw [Option.mem_def.mp hc] at this
      simpa using this
  . rintro ⟨rest, rfl, hword, hrest⟩
    rw [List.takeWhile_append_of_pos hword]
    cases rest with
    | nil => simp
    | cons c rest => simp [hrest c rfl]

theorem exists_eq_append_pair {xs : List α} (h : 2 ≤ xs.length)
    : ∃ init x y, xs = init ++ [x, y] := by
  obtain ⟨init, y, rfl⟩ := List.eq_nil_or_concat xs |>.resolve_left (by rintro rfl; simp at h)
  obtain ⟨init, x, rfl⟩ :=
    List.eq_nil_or_concat init |>.resolve_left (by rintro rfl; simp at h)
  exact ⟨init, x, y, by simp⟩

theorem exists_eq_map_iff {β : Type} {f : β → α} {q : β → Prop} {xs : List α}
    : (∃ ys : List β, xs = ys.map f ∧ ∀ y ∈ ys, q y) ↔ ∀ x ∈ xs, ∃ y, x = f y ∧ q y := by
  constructor
  . rintro ⟨ys, rfl, hys⟩ x hx
    obtain ⟨y, hy, rfl⟩ := mem_map.mp hx
    exact ⟨y, rfl, hys y hy⟩
  . intro h
    induction xs with
    | nil => exact ⟨[], rfl, by simp⟩
    | cons x xs ih =>
      rw [forall_mem_cons] at h
      obtain ⟨y, rfl, hy⟩ := h.left
      obtain ⟨ys, rfl, hys⟩ := ih h.right
      refine ⟨y :: ys, rfl, ?_⟩
      rw [forall_mem_cons]
      exact ⟨hy, hys⟩

theorem intercalate_cons_eq {sep x : List α} (xs : List (List α))
    : sep.intercalate (x :: xs) = x ++ (xs.map (fun y => sep ++ y)).flatten := by
  induction xs generalizing x with
  | nil => simp
  | cons y xs ih => simp [ih]

theorem intercalate_concat_eq {sep x : List α} (xs : List (List α))
    : sep.intercalate (xs ++ [x]) = (xs.map (fun y => y ++ sep)).flatten ++ x := by
  induction xs with
  | nil => simp
  | cons y xs ih =>
    cases xs with
    | nil => simp
    | cons z xs => simp_all

end List
