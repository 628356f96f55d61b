import Mathlib.Logic.Function.Basic
import PasswordManager.Dictionary.Basic

/-!
This module contains registries: dictionaries of members, each of which remembers the key that it
has been entered under as long as it is entered.
-/

namespace Dictionary

variable {κ ι : Type}

structure Registers (d : List (κ × ι)) (key : ι → Option κ) : Prop where
  nodup : (keys d).Nodup
  mem_iff : ∀ k i, (k, i) ∈ d ↔ key i = some k

namespace Registers

theorem nil : Registers ([] : List (κ × ι)) (fun _ => none) := by
  constructor <;> simp

variable {d : List (κ × ι)} {key : ι → Option κ} (h : Registers d key)

include h

theorem eq_of_mem {k : κ} {i j : ι} (hi : (k, i) ∈ d) (hj : (k, j) ∈ d) : i = j := by
  have heq := List.inj_on_of_nodup_map h.nodup hi hj rfl
  cases heq
  rfl

theorem nodup_members : (d.map Prod.snd).Nodup := by
  refine List.Nodup.map_on ?_ (List.Nodup.of_map _ h.nodup)
  rintro ⟨k, i⟩ hk ⟨l, _⟩ hl rfl
  rw [h.mem_iff] at hk hl
  rw [hk] at hl
  cases hl
  rfl

theorem mem_members_iff (i : ι) : i ∈ d.map Prod.snd ↔ (key i).isSome = true := by
  rw [List.mem_map, Option.isSome_iff_exists]
  constructor
  . rintro ⟨⟨k, _⟩, hmem, rfl⟩
    exact ⟨k, (h.mem_iff k _).mp hmem⟩
  . rintro ⟨k, hk⟩
    exact ⟨(k, i), (h.mem_iff k i).mpr hk, rfl⟩

variable [DecidableEq ι]

theorem count_members (i : ι) : (d.map Prod.snd).count i = if (key i).isSome then 1 else 0 := by
  rw [h.nodup_members.count]
  simp only [h.mem_members_iff]

variable [DecidableEq κ]

theorem set {k : κ} (hk : k ∉ keys d) {i : ι} (hi : key i = none)
    : Registers (Dictionary.set k i d) (Function.update key i (some k)) where
  nodup := nodup_keys_set h.nodup k i
  mem_iff l j := by
    rw [set_of_notMem hk, List.mem_append, List.mem_singleton, h.mem_iff, Prod.mk.injEq]
    by_cases hj : j = i
    . subst hj
      rw [Function.update_self, hi]
      simp [eq_comm]
    . rw [Function.update_of_ne hj]
      simp [hj]

theorem erase {k : κ} {i : ι} (hi : key i = some k)
    : Registers (Dictionary.erase k d) (Function.update key i none) where
  nodup := by
    refine h.nodup.sublist ?_
    exact List.Sublist.map _ List.filter_sublist
  mem_iff l j := by
    rw [Dictionary.erase, List.mem_filter, h.mem_iff, decide_eq_true_eq]
    by_cases hj : j = i
    . subst hj
      rw [Function.update_self, hi]
      simp [eq_comm]
    . rw [Function.update_of_ne hj]
      constructor
      . exact fun hmem => hmem.left
      . intro hl
        refine ⟨hl, ?_⟩
        rintro rfl
        exact hj (h.eq_of_mem ((h.mem_iff _ j).mpr hl) ((h.mem_iff _ i).mpr hi))

end Registers

end Dictionary
