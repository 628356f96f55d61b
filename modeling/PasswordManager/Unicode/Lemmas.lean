import PasswordManager.Unicode.Basic

/-!
This module contains the lemmas about lengths of texts: how many clusters and how many UTF-16 code
units a text has, and what a prefix of so many code units is.
-/

namespace Unicode

def utf16Units : List Char → Nat
  | [] => 0
  | c :: cs => utf16Length c + utf16Units cs

@[simp]
theorem utf16Units_nil : utf16Units [] = 0 := by
  rfl

@[simp]
theorem utf16Units_cons (c : Char) (cs : List Char)
    : utf16Units (c :: cs) = utf16Length c + utf16Units cs := by
  rfl

@[simp]
theorem utf16Units_append (xs ys : List Char)
    : utf16Units (xs ++ ys) = utf16Units xs + utf16Units ys := by
  induction xs with
  | nil => simp
  | cons x xs ih => rw [List.cons_append, utf16Units_cons, utf16Units_cons, ih, Nat.add_assoc]

theorem utf16Length_pos (c : Char) : 1 ≤ utf16Length c := by
  unfold utf16Length
  split <;> omega

theorem prefix_utf16Prefix_iff {n : Nat} {start text : List Char}
    : start <+: utf16Prefix n text ↔ start <+: text ∧ utf16Units start ≤ n := by
  induction text generalizing n start with
  | nil =>
    simp only [utf16Prefix, List.prefix_nil]
    constructor
    . rintro rfl
      simp
    . exact And.left
  | cons c cs ih =>
    cases start with
    | nil => simp
    | cons d start =>
      have hlength := utf16Length_pos c
      rw [utf16Prefix]
      split
      . next hc =>
        rw [List.cons_prefix_cons, List.cons_prefix_cons, ih, utf16Units_cons]
        constructor
        . rintro ⟨rfl, hstart, hunits⟩
          exact ⟨⟨rfl, hstart⟩, by omega⟩
        . rintro ⟨⟨rfl, hstart⟩, hunits⟩
          exact ⟨rfl, hstart, by omega⟩
      . next hc =>
        rw [List.cons_prefix_cons, utf16Units_cons]
        constructor
        . intro h
          simp at h
        . rintro ⟨⟨rfl, -⟩, hunits⟩
          omega

theorem utf16Prefix_isPrefix (n : Nat) (text : List Char) : utf16Prefix n text <+: text := by
  exact (prefix_utf16Prefix_iff.mp List.prefix_rfl).left

theorem utf16Prefix_of_le {n : Nat} {text : List Char} (h : utf16Units text ≤ n)
    : utf16Prefix n text = text := by
  have hstart := prefix_utf16Prefix_iff.mpr ⟨List.prefix_rfl, h⟩
  exact (utf16Prefix_isPrefix n text).eq_of_length_le hstart.length_le

def GraphemeBreak.Separate (b : GraphemeBreak) : Prop :=
  b = .lf ∨ b = .control ∨ b = .other

theorem BreakState.joins_of_separate {st : BreakState} {b : GraphemeBreak}
    (hprev : st.prev.Separate) (hb : b.Separate) : st.joins b = false := by
  unfold joins
  rcases hprev with h | h | h <;> rcases hb with rfl | rfl | rfl <;> rw [h]

theorem asciiBreak_separate {c : Char} (hc : c ≠ '\r') : (asciiBreak c).Separate := by
  have hne : c.toNat ≠ 13 := by
    intro h
    apply hc
    rw [← Char.ofNat_toNat c, h]
  unfold asciiBreak GraphemeBreak.Separate
  rw [if_neg hne]
  split
  . simp
  . split
    . simp
    . simp

theorem utf16Length_of_ascii {c : Char} (h : c.toNat < 128) : utf16Length c = 1 := by
  unfold utf16Length
  rw [if_pos (by omega)]

theorem utf16Units_of_ascii {text : List Char} (h : ∀ c ∈ text, c.toNat < 128)
    : utf16Units text = text.length := by
  induction text with
  | nil => rfl
  | cons c cs ih =>
    rw [List.forall_mem_cons] at h
    rw [utf16Units_cons, utf16Length_of_ascii h.left, ih h.right, List.length_cons]
    omega

namespace Tables

variable (tables : Tables)

theorem clustersAfter_of_ascii {st : BreakState} (hprev : st.prev.Separate) {text : List Char}
    (h : ∀ c ∈ text, c.toNat < 128 ∧ c ≠ '\r') : tables.clustersAfter st text = text.length := by
  induction text generalizing st with
  | nil => rfl
  | cons c cs ih =>
    rw [List.forall_mem_cons] at h
    have hbreak : (tables.graphemeBreak c).Separate := by
      rw [tables.graphemeBreak_ascii c h.left.left]
      exact asciiBreak_separate h.left.right
    have hrest : tables.clustersAfter (st.next (tables.graphemeBreak c)) cs = cs.length :=
      ih hbreak h.right
    simp only [clustersAfter, BreakState.joins_of_separate hprev hbreak, hrest, List.length_cons]
    simp
    omega

theorem clusters_of_ascii {text : List Char} (h : ∀ c ∈ text, c.toNat < 128 ∧ c ≠ '\r')
    : tables.clusters text = text.length := by
  cases text with
  | nil => rfl
  | cons c cs =>
    rw [List.forall_mem_cons] at h
    have hbreak : (tables.graphemeBreak c).Separate := by
      rw [tables.graphemeBreak_ascii c h.left.left]
      exact asciiBreak_separate h.left.right
    have hrest : tables.clustersAfter (.start (tables.graphemeBreak c)) cs = cs.length :=
      clustersAfter_of_ascii tables hbreak h.right
    rw [clusters, hrest, List.length_cons]
    omega

end Tables

theorem forall_ascii {p : Char → Prop} (h : ∀ n : Fin 128, p (Char.ofNat n)) {c : Char}
    (hc : c.toNat < 128) : p c := by
  rw [← Char.ofNat_toNat c]
  exact h ⟨c.toNat, hc⟩

theorem caseInsensitive_mono {p q : Char → Bool} (h : ∀ c, p c = true → q c = true) {c : Char}
    (hc : caseInsensitive p c = true) : caseInsensitive q c = true := by
  simp only [caseInsensitive, Bool.or_eq_true] at hc ⊢
  rcases hc with (hc | hc) | hc
  . exact .inl (.inl (h _ hc))
  . exact .inl (.inr (h _ hc))
  . exact .inr (h _ hc)

theorem caseInsensitive_of_caseless {c : Char} (hfold : foldCase c = c) (hupper : c.toUpper = c)
    (p : Char → Bool) : caseInsensitive p c = p c := by
  simp [caseInsensitive, hfold, hupper]

end Unicode
