import PasswordManager.PathMaps.Basic

/-!
This module contains what becomes of a sequence of overwrites when the map that they start from is
overwritten itself. The result changes at and below that path, and only there.
-/

namespace PathMap

variable {κ ν : Type} {base other : PathMap κ ν} {writes : List (List κ × PathMap κ ν)}
variable {path q : List κ} {new : PathMap κ ν}

def Touched (writes : List (List κ × PathMap κ ν)) (q : List κ) : Prop :=
  ∃ write ∈ writes, write.1 <+: q ∨ q <+: write.1 ∧ ¬ write.2.Empty

theorem overwrite_congr (h : base q = other q) (path : List κ) (new : PathMap κ ν)
    : base.overwrite path new q = other.overwrite path new q := by
  unfold overwrite
  rw [h]

theorem overwriteAll_congr (h : base q = other q) (writes : List (List κ × PathMap κ ν))
    : base.overwriteAll writes q = other.overwriteAll writes q := by
  induction writes generalizing base other with
  | nil => exact h
  | cons write writes ih =>
    apply ih
    exact overwrite_congr h write.1 write.2

theorem overwrite_touched (base other : PathMap κ ν)
    (h : path <+: q ∨ q <+: path ∧ ¬ new.Empty)
    : base.overwrite path new q = other.overwrite path new q := by
  by_cases hbelow : path <+: q
  . obtain ⟨rest, rfl⟩ := hbelow
    rw [overwrite_append, overwrite_append]
  . have habove := h.resolve_left hbelow
    rw [overwrite_above hbelow habove.left habove.right]
    rw [overwrite_above hbelow habove.left habove.right]

theorem overwriteAll_touched (base other : PathMap κ ν) (h : Touched writes q)
    : base.overwriteAll writes q = other.overwriteAll writes q := by
  induction writes generalizing base other with
  | nil =>
    obtain ⟨write, hwrite, -⟩ := h
    cases hwrite
  | cons write writes ih =>
    by_cases hfirst : write.1 <+: q ∨ q <+: write.1 ∧ ¬ write.2.Empty
    . exact overwriteAll_congr (overwrite_touched base other hfirst) writes
    . apply ih
      obtain ⟨later, hlater, htouches⟩ := h
      cases List.mem_cons.mp hlater with
      | inl heq =>
        subst heq
        exact absurd htouches hfirst
      | inr hmem => exact ⟨later, hmem, htouches⟩

theorem overwriteAll_untouched (base : PathMap κ ν) (h : ¬ Touched writes q)
    : base.overwriteAll writes q = base q := by
  apply overwriteAll_outside
  intro write hwrite
  constructor
  . intro hbelow
    exact h ⟨write, hwrite, .inl hbelow⟩
  . intro habove
    by_contra hnonempty
    exact h ⟨write, hwrite, .inr ⟨habove, hnonempty⟩⟩

theorem overwriteAll_of_covered (base other : PathMap κ ν) {write : List κ × PathMap κ ν}
    (hmem : write ∈ writes) (hpre : write.1 <+: q)
    : base.overwriteAll writes q = other.overwriteAll writes q :=
  overwriteAll_touched base other ⟨write, hmem, .inl hpre⟩

theorem overwriteAll_below_of_covered (base other : PathMap κ ν) {write : List κ × PathMap κ ν}
    (hmem : write ∈ writes) (hpre : write.1 <+: path)
    : (base.overwriteAll writes).below path = (other.overwriteAll writes).below path := by
  funext rest
  apply overwriteAll_of_covered base other hmem
  exact hpre.trans (List.prefix_append path rest)

theorem overwrite_below_self (h : base.Discrete) (path : List κ)
    : base.overwrite path (base.below path) = base := by
  funext q
  by_cases hq : path <+: q
  . obtain ⟨rest, rfl⟩ := hq
    rw [overwrite_append]
    rfl
  . by_cases hle : q <+: path
    . by_cases hempty : (base.below path).Empty
      . exact overwrite_of_empty hq hempty
      . rw [overwrite_above hq hle hempty]
        symm
        apply eq_none_above h hempty hle
        intro heq
        subst heq
        exact hq List.prefix_rfl
    . exact overwrite_apart hq hle

theorem overwrite_eq_of_agree (hother : other.Discrete)
    (hapart : ∀ q, ¬ path <+: q → ¬ q <+: path → base q = other q)
    (habove : (other.below path).Empty → ∀ q, q <+: path → q ≠ path → base q = other q)
    : base.overwrite path (other.below path) = other := by
  funext q
  by_cases hq : path <+: q
  . obtain ⟨rest, rfl⟩ := hq
    rw [overwrite_append]
    rfl
  . by_cases hle : q <+: path
    . have hne : q ≠ path := by
        intro heq
        subst heq
        exact hq List.prefix_rfl
      by_cases hempty : (other.below path).Empty
      . rw [overwrite_of_empty hq hempty]
        exact habove hempty q hle hne
      . rw [overwrite_above hq hle hempty]
        exact (eq_none_above hother hempty hle hne).symm
    . rw [overwrite_apart hq hle]
      exact hapart q hq hle

section Rebase

variable (hremovable : ∀ write ∈ writes, base.Removable write.1 write.2)
include hremovable

theorem not_related_of_untouched (hvalue : base q ≠ none) (h : ¬ Touched writes q)
    : ∀ write ∈ writes, ¬ write.1 <+: q ∧ ¬ q <+: write.1 := by
  intro write hwrite
  have hbelow : ¬ write.1 <+: q := fun hpre => h ⟨write, hwrite, .inl hpre⟩
  refine ⟨hbelow, ?_⟩
  intro habove
  apply h
  refine ⟨write, hwrite, .inr ⟨habove, ?_⟩⟩
  intro hempty
  apply hvalue
  apply hremovable write hwrite hempty q habove
  intro heq
  subst heq
  exact hbelow List.prefix_rfl

theorem untouched_below (hvalue : base q ≠ none) (h : ¬ Touched writes q) (hq : q <+: path)
    : ¬ Touched writes path := by
  intro htouched
  obtain ⟨write, hwrite, htouches⟩ := htouched
  obtain ⟨hbelow, habove⟩ := not_related_of_untouched hremovable hvalue h write hwrite
  cases htouches with
  | inl hpre =>
    cases List.prefix_or_prefix_of_prefix hpre hq with
    | inl hle => exact hbelow hle
    | inr hle => exact habove hle
  | inr hpast => exact habove (hq.trans hpast.left)

theorem rebase_above (new : PathMap κ ν) (hq : q <+: path)
    : base.overwriteAll writes q = (base.overwrite path new).overwriteAll writes q
      ∨ (base q ≠ none ∧ base.overwriteAll writes q = base q ∧ ¬ new.Empty
        ∧ (base.overwrite path new).overwriteAll writes q = none
        ∧ ((base.overwrite path new).overwriteAll writes).below path = new)
      ∨ q = path := by
  by_cases hsame : base q = base.overwrite path new q
  . left
    exact overwriteAll_congr hsame writes
  . by_cases htouched : Touched writes q
    . left
      exact overwriteAll_touched base _ htouched
    . right
      by_cases heq : q = path
      . right
        exact heq
      . left
        have hbelow : ¬ path <+: q := by
          intro hpre
          exact heq (hq.eq_of_length_le hpre.length_le)
        have hnew : ¬ new.Empty := by
          intro hempty
          exact hsame (overwrite_of_empty hbelow hempty).symm
        have hnone : base.overwrite path new q = none := overwrite_above hbelow hq hnew
        have hvalue : base q ≠ none := by
          rw [← hnone]
          exact hsame
        refine ⟨hvalue, overwriteAll_untouched base htouched, hnew, ?_, ?_⟩
        . rw [overwriteAll_untouched _ htouched, hnone]
        . funext rest
          unfold below
          rw [overwriteAll_untouched, overwrite_append]
          apply untouched_below hremovable hvalue htouched
          exact hq.trans (List.prefix_append path rest)

end Rebase

theorem rebase_apart (hbelow : ¬ path <+: q) (habove : ¬ q <+: path)
    : (base.overwrite path new).overwriteAll writes q = base.overwriteAll writes q := by
  apply overwriteAll_congr
  exact overwrite_apart hbelow habove

theorem below_rebase_apart {beside : List κ} (hbelow : ¬ path <+: beside) (habove : ¬ beside <+: path)
    : ((base.overwrite path new).overwriteAll writes).below beside
        =
      (base.overwriteAll writes).below beside := by
  funext q
  apply rebase_apart
  . intro hpre
    cases List.prefix_or_prefix_of_prefix hpre (List.prefix_append beside q) with
    | inl hpath => exact hbelow hpath
    | inr hpath => exact habove hpath
  . intro hpre
    exact habove ((List.prefix_append beside q).trans hpre)

theorem overwriteAll_rebase (hremovable : ∀ write ∈ writes, base.Removable write.1 write.2)
    (hdiscrete : ((base.overwrite path new).overwriteAll writes).Discrete)
    : (base.overwriteAll writes).overwrite path
          (((base.overwrite path new).overwriteAll writes).below path)
        =
      (base.overwrite path new).overwriteAll writes := by
  apply overwrite_eq_of_agree hdiscrete
  . intro q hbelow habove
    exact (rebase_apart hbelow habove).symm
  . intro hempty q hq hne
    cases rebase_above hremovable new hq with
    | inl hsame => exact hsame
    | inr hrest =>
      cases hrest with
      | inl hgives =>
        obtain ⟨-, -, hnew, -, hseen⟩ := hgives
        rw [hseen] at hempty
        exact absurd hempty hnew
      | inr heq => exact absurd heq hne

theorem overwriteAll_unbase (hfree : ∀ q, q <+: path → q ≠ path → base q = none)
    (hdiscrete : (base.overwriteAll writes).Discrete)
    : ((base.overwrite path new).overwriteAll writes).overwrite path
          ((base.overwriteAll writes).below path)
        =
      base.overwriteAll writes := by
  apply overwrite_eq_of_agree hdiscrete
  . intro q hbelow habove
    exact rebase_apart hbelow habove
  . intro _ q hq hne
    apply overwriteAll_congr
    rw [overwrite_eq_none, hfree q hq hne]
    . intro hpre
      exact hne (hq.eq_of_length_le hpre.length_le)
    . exact hfree q hq hne

theorem overwriteAll_rebase_covered (hremovable : ∀ write ∈ writes, base.Removable write.1 write.2)
    {write : List κ × PathMap κ ν} (hmem : write ∈ writes) (hpre : write.1 <+: path)
    : (base.overwrite path new).overwriteAll writes = base.overwriteAll writes := by
  funext q
  by_cases hbelow : path <+: q
  . exact overwriteAll_of_covered _ _ hmem (hpre.trans hbelow)
  . by_cases habove : q <+: path
    . cases rebase_above hremovable new habove with
      | inl hsame => exact hsame.symm
      | inr hrest =>
        cases hrest with
        | inl hgives =>
          obtain ⟨hvalue, hold, hnew, hnone, -⟩ := hgives
          have htouched : Touched writes q := by
            cases List.prefix_or_prefix_of_prefix hpre habove with
            | inl hle => exact ⟨write, hmem, .inl hle⟩
            | inr hle =>
              by_contra huntouched
              have hapart := not_related_of_untouched hremovable hvalue huntouched write hmem
              exact hapart.right hle
          exact overwriteAll_touched _ _ htouched
        | inr heq =>
          subst heq
          exact absurd List.prefix_rfl hbelow
    . exact rebase_apart hbelow habove

theorem overwriteAll_rebase_eq (hremovable : ∀ write ∈ writes, base.Removable write.1 write.2)
    (hdiscrete : (base.overwriteAll writes).Discrete)
    (hbelow : ((base.overwrite path new).overwriteAll writes).below path
      = (base.overwriteAll writes).below path)
    : (base.overwrite path new).overwriteAll writes = base.overwriteAll writes := by
  funext q
  by_cases hq : path <+: q
  . obtain ⟨rest, rfl⟩ := hq
    exact congrFun hbelow rest
  . by_cases habove : q <+: path
    . cases rebase_above hremovable new habove with
      | inl hsame => exact hsame.symm
      | inr hrest =>
        cases hrest with
        | inl hgives =>
          obtain ⟨hvalue, hold, hnew, -, hseen⟩ := hgives
          have hempty : (base.overwriteAll writes).below path |>.Empty := by
            by_contra hnonempty
            apply hvalue
            rw [← hold]
            apply eq_none_above hdiscrete hnonempty habove
            intro heq
            subst heq
            exact hq List.prefix_rfl
          rw [← hbelow, hseen] at hempty
          exact absurd hempty hnew
        | inr heq =>
          subst heq
          exact absurd List.prefix_rfl hq
    . exact rebase_apart hq habove

theorem discrete_below (h : base.Discrete) (path : List κ) : (base.below path).Discrete := by
  intro q rest hvalue hrest
  unfold below at hvalue ⊢
  rw [← List.append_assoc]
  exact h (path ++ q) rest hvalue hrest

theorem overwrite_child_unbase {node : List κ} {key : κ} {rest : List κ} {before after : PathMap κ ν}
    (hremovable : ∀ write ∈ writes, base.Removable write.1 write.2)
    (hbefore : before = (base.overwrite (node ++ key :: rest) new).overwriteAll writes)
    (hafter : after = base.overwriteAll writes) (hdiscrete : after.Discrete)
    : (before.below node).overwrite [key] (after.below (node ++ [key])) = after.below node
        ∨ ((before.below node).overwrite [key] (after.below (node ++ [key]))).Empty
          ∧ after node ≠ none := by
  have hapart : ∀ q, ¬ [key] <+: q → ¬ q <+: [key]
      → before.below node q = after.below node q := by
    intro q hbelow habove
    unfold below
    rw [hbefore, hafter]
    apply rebase_apart
    . rw [List.prefix_append_right_inj]
      intro hpre
      exact hbelow ((List.prefix_append [key] rest).trans hpre)
    . rw [List.prefix_append_right_inj]
      intro hpre
      have hkey : [key] <+: key :: rest := List.prefix_append [key] rest
      cases List.prefix_or_prefix_of_prefix hpre hkey with
      | inl hle => exact habove hle
      | inr hle => exact hbelow hle
  have hnil : ∀ q, q <+: [key] → q ≠ [key] → q = [] := by
    intro q hq hne
    cases List.prefix_cons_iff.mp hq with
    | inl hnil => exact hnil
    | inr hcons =>
      obtain ⟨t, heq, ht⟩ := hcons
      rw [List.prefix_nil.mp ht] at heq
      exact absurd heq hne
  cases rebase_above hremovable new (List.prefix_append node (key :: rest)) with
  | inl hsame =>
    left
    rw [← below_below]
    apply overwrite_eq_of_agree (discrete_below hdiscrete node) hapart
    intro _ q hq hne
    rw [hnil q hq hne]
    unfold below
    rw [List.append_nil, hbefore, hafter]
    exact hsame.symm
  | inr hrest =>
    cases hrest with
    | inr heq =>
      have hlength := congrArg List.length heq
      simp at hlength
    | inl hgives =>
      obtain ⟨hvalue, hold, -, hnone, -⟩ := hgives
      have hleaf : after node ≠ none := by
        rw [hafter, hold]
        exact hvalue
      right
      refine ⟨?_, hleaf⟩
      have hempty : (after.below (node ++ [key])).Empty := by
        intro q
        unfold below
        rw [List.append_assoc]
        exact hdiscrete node ([key] ++ q) hleaf (by simp)
      intro q
      by_cases hbelow : [key] <+: q
      . obtain ⟨s, rfl⟩ := hbelow
        rw [overwrite_append]
        exact hempty s
      . rw [overwrite_of_empty hbelow hempty]
        by_cases habove : q <+: [key]
        . rw [hnil q habove (fun heq => hbelow (heq ▸ List.prefix_rfl))]
          unfold below
          rw [List.append_nil, hbefore]
          exact hnone
        . rw [hapart q hbelow habove]
          apply hdiscrete node q hleaf
          intro heq
          subst heq
          exact habove List.nil_prefix

end PathMap
