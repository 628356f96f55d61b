import PasswordManager.Dictionary.Basic
import Mathlib.Data.List.Dedup
import Mathlib.Data.List.Induction

/-!
This module contains the dictionary that a sequence of writes leaves behind.
-/

namespace Dictionary

variable {κ β : Type} [DecidableEq κ]

def replay (writes : List (κ × β)) : List (κ × β) :=
  writes.foldl (fun d write => set write.1 write.2 d) []

def lastWrite (writes : List (κ × β)) (k : κ) : Option β :=
  writes.reverse.lookup k

theorem replay_concat (writes : List (κ × β)) (k : κ) (v : β)
    : replay (writes ++ [(k, v)]) = set k v (replay writes) := by
  simp [replay]

theorem lastWrite_concat (writes : List (κ × β)) (j k : κ) (v : β)
    : lastWrite (writes ++ [(k, v)]) j = if j = k then some v else lastWrite writes j := by
  unfold lastWrite
  rw [List.reverse_append, List.reverse_singleton, List.singleton_append, List.lookup_cons]
  by_cases h : j = k
  . simp [h]
  . have hbeq : (j == k) = false := by simpa using h
    rw [hbeq, if_neg h]

theorem lookup_replay (writes : List (κ × β)) (k : κ)
    : (replay writes).lookup k = lastWrite writes k := by
  induction writes using List.reverseRecOn with
  | nil => rfl
  | append_singleton writes write ih =>
    rw [replay_concat, lastWrite_concat, lookup_set, ih]

theorem nodup_keys_replay (writes : List (κ × β)) : (keys (replay writes)).Nodup := by
  induction writes using List.reverseRecOn with
  | nil => simp [replay]
  | append_singleton writes write ih =>
    rw [replay_concat]
    apply nodup_keys_set
    exact ih

theorem mem_keys_replay {writes : List (κ × β)} {k : κ}
    : k ∈ keys (replay writes) ↔ k ∈ keys writes := by
  induction writes using List.reverseRecOn with
  | nil => simp [replay]
  | append_singleton writes write ih =>
    rw [replay_concat, mem_keys_set, ih]
    simp only [keys, List.map_append, List.map_cons, List.map_nil, List.mem_append,
      List.mem_singleton]
    exact or_comm

theorem keys_replay_perm (writes : List (κ × β))
    : (keys (replay writes)).Perm (keys writes).dedup := by
  rw [List.perm_ext_iff_of_nodup (nodup_keys_replay writes) (List.nodup_dedup _)]
  intro k
  rw [mem_keys_replay, List.mem_dedup]

end Dictionary
