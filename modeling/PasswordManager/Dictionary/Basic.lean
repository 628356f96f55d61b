import Mathlib.Data.List.Nodup
import Mathlib.Data.List.Perm.Basic

/-!
This module contains dictionaries as lists of key value pairs in enumeration order. Lookup is
`List.lookup`.
-/

namespace Dictionary

variable {κ β : Type}

def keys (d : List (κ × β)) : List κ :=
  d.map Prod.fst

@[simp]
theorem keys_nil : keys ([] : List (κ × β)) = [] := by
  rfl

@[simp]
theorem keys_cons (e : κ × β) (d : List (κ × β)) : keys (e :: d) = e.1 :: keys d := by
  rfl

def mapValues {γ : Type} (f : β → γ) (d : List (κ × β)) : List (κ × γ) :=
  d.map (fun e => (e.1, f e.2))

@[simp]
theorem keys_mapValues {γ : Type} (f : β → γ) (d : List (κ × β))
    : keys (mapValues f d) = keys d := by
  simp [keys, mapValues]

variable [DecidableEq κ]

def set (k : κ) (v : β) : List (κ × β) → List (κ × β)
  | [] => [(k, v)]
  | e :: rest => if e.1 = k then (k, v) :: rest else e :: set k v rest

def erase (k : κ) (d : List (κ × β)) : List (κ × β) :=
  d.filter (fun e => e.1 ≠ k)

@[simp]
theorem lookup_set_self (k : κ) (v : β) (d : List (κ × β)) : (set k v d).lookup k = some v := by
  induction d with
  | nil => simp [set]
  | cons e rest ih =>
    simp only [set]
    split
    . simp
    . next hne =>
      rw [List.lookup_cons]
      have hbeq : (k == e.1) = false := by simpa using Ne.symm hne
      rw [hbeq]
      exact ih

theorem lookup_set_of_ne {j k : κ} (h : j ≠ k) (v : β) (d : List (κ × β))
    : (set k v d).lookup j = d.lookup j := by
  induction d with
  | nil =>
    simp [set, h]
  | cons e rest ih =>
    simp only [set]
    split
    . next heq =>
      subst heq
      rw [List.lookup_cons, List.lookup_cons]
      have hbeq : (j == e.1) = false := by simpa using h
      rw [hbeq]
    . rw [List.lookup_cons, List.lookup_cons, ih]

theorem lookup_set (j k : κ) (v : β) (d : List (κ × β))
    : (set k v d).lookup j = if j = k then some v else d.lookup j := by
  split
  . next heq =>
    subst heq
    exact lookup_set_self j v d
  . next hne => exact lookup_set_of_ne hne v d

theorem mem_of_mem_set {k : κ} {v : β} {d : List (κ × β)} {e : κ × β} (h : e ∈ set k v d)
    : e = (k, v) ∨ e ∈ d := by
  induction d with
  | nil =>
    rw [set, List.mem_singleton] at h
    exact .inl h
  | cons head rest ih =>
    rw [set] at h
    split at h
    . rcases List.mem_cons.mp h with heq | hmem
      . exact .inl heq
      . exact .inr (List.mem_cons_of_mem _ hmem)
    . rcases List.mem_cons.mp h with rfl | hmem
      . exact .inr List.mem_cons_self
      . exact (ih hmem).imp_right (List.mem_cons_of_mem _)

theorem mem_of_mem_erase {k : κ} {d : List (κ × β)} {e : κ × β} (h : e ∈ erase k d) : e ∈ d := by
  exact List.mem_of_mem_filter h

theorem mem_keys_set {j k : κ} {v : β} {d : List (κ × β)}
    : j ∈ keys (set k v d) ↔ j = k ∨ j ∈ keys d := by
  induction d with
  | nil => simp [set]
  | cons e rest ih =>
    simp only [set]
    split
    . next heq =>
      subst heq
      simp
    . simp only [keys_cons, List.mem_cons, ih]
      tauto

theorem set_of_notMem {k : κ} {d : List (κ × β)} (h : k ∉ keys d) (v : β)
    : set k v d = d ++ [(k, v)] := by
  induction d with
  | nil => rfl
  | cons e rest ih =>
    rw [keys_cons, List.mem_cons, not_or] at h
    rw [set, if_neg (Ne.symm h.left), ih h.right]
    rfl

theorem nodup_keys_set {d : List (κ × β)} (h : (keys d).Nodup) (k : κ) (v : β)
    : (keys (set k v d)).Nodup := by
  induction d with
  | nil => simp [set]
  | cons e rest ih =>
    simp only [keys_cons, List.nodup_cons] at h
    simp only [set]
    split
    . next heq =>
      subst heq
      simpa using h
    . next hne =>
      simp only [keys_cons, List.nodup_cons]
      refine ⟨?_, ih h.right⟩
      rw [mem_keys_set]
      rintro (heq | hmem)
      . exact hne heq
      . exact h.left hmem

theorem lookup_mapValues {γ : Type} (f : β → γ) (d : List (κ × β)) (k : κ)
    : (mapValues f d).lookup k = (d.lookup k).map f := by
  induction d with
  | nil => rfl
  | cons e rest ih =>
    have hcons : mapValues f (e :: rest) = (e.1, f e.2) :: mapValues f rest := rfl
    rw [hcons, List.lookup_cons, List.lookup_cons, ih]
    cases k == e.1 with
    | true => rfl
    | false => rfl

theorem mapValues_set {γ : Type} (f : β → γ) (k : κ) (v : β) (d : List (κ × β))
    : mapValues f (set k v d) = set k (f v) (mapValues f d) := by
  induction d with
  | nil => rfl
  | cons e rest ih =>
    simp only [mapValues, set, List.map_cons] at ih ⊢
    split
    . rfl
    . rw [List.map_cons, ih]

theorem mem_of_lookup {d : List (κ × β)} {k : κ} {v : β} (h : d.lookup k = some v)
    : (k, v) ∈ d := by
  obtain ⟨l₁, l₂, rfl, -⟩ := List.lookup_eq_some_iff.mp h
  simp

theorem lookup_eq_some_iff_mem {d : List (κ × β)} (h : (keys d).Nodup) {k : κ} {v : β}
    : d.lookup k = some v ↔ (k, v) ∈ d := by
  constructor
  . exact mem_of_lookup
  . intro hmem
    induction d with
    | nil => cases hmem
    | cons e rest ih =>
      simp only [keys_cons, List.nodup_cons] at h
      rcases List.mem_cons.mp hmem with heq | hrest
      . subst heq
        simp
      . have hne : k ≠ e.1 := by
          rintro rfl
          exact h.left (List.mem_map.mpr ⟨(e.1, v), hrest, rfl⟩)
        rw [List.lookup_cons]
        have hbeq : (k == e.1) = false := by simpa using hne
        rw [hbeq]
        exact ih h.right hrest

theorem lookup_isSome_iff_mem_keys {d : List (κ × β)} {k : κ}
    : (d.lookup k).isSome ↔ k ∈ keys d := by
  rw [List.lookup_isSome_iff]
  simp only [keys, List.mem_map, beq_iff_eq]
  constructor
  . rintro ⟨e, he, rfl⟩
    exact ⟨e, he, rfl⟩
  . rintro ⟨e, he, rfl⟩
    exact ⟨e, he, rfl⟩

def Separates {γ : Type} (f : β → γ) (d : List (κ × β)) : Prop :=
  ∀ (j k : κ) (v w : β), d.lookup j = some v → d.lookup k = some w → f v = f w → j = k

theorem separates_set_iff {γ : Type} {f : β → γ} {d : List (κ × β)} (h : Separates f d) (k : κ)
    (v : β)
    : Separates f (set k v d) ↔ ∀ (j : κ) (w : β), d.lookup j = some w → f w = f v → j = k := by
  constructor
  . intro hset j w hj hf
    by_cases hjk : j = k
    . exact hjk
    . apply hset j k w v
      . rw [lookup_set_of_ne hjk]
        exact hj
      . rw [lookup_set_self]
      . exact hf
  . intro hv i j x y hi hj hf
    rw [lookup_set] at hi hj
    split at hi
    . next hik =>
      split at hj
      . next hjk => rw [hik, hjk]
      . cases hi
        rw [hik]
        exact (hv j y hj hf.symm).symm
    . split at hj
      . next hjk =>
        cases hj
        rw [hjk]
        exact hv i x hi hf
      . exact h i j x y hi hj hf

end Dictionary
