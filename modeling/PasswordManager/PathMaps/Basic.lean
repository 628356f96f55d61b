import Mathlib.Data.List.Induction
import Mathlib.Logic.Function.Basic
import Mathlib.Tactic.ByContra

/-!
This module contains partial maps on paths, what becomes of one when it is overwritten at a path, and
overlays: several maps at paths that are not inside each other, laid over another map.
-/

abbrev PathMap (κ ν : Type) := List κ → Option ν

namespace PathMap

variable {κ ν : Type}

def Empty (self : PathMap κ ν) : Prop :=
  ∀ path, self path = none

def below (self : PathMap κ ν) (path : List κ) : PathMap κ ν :=
  fun rest => self (path ++ rest)

def child (self : PathMap κ ν) (key : κ) : PathMap κ ν :=
  self.below [key]

open Classical in
/--
All that is at or below the path is the new map. What is above it gives way, unless the new map is
empty.
-/
noncomputable def overwrite (self : PathMap κ ν) (path : List κ) (new : PathMap κ ν)
    : PathMap κ ν :=
  fun q =>
    if path <+: q then
      new (q.drop path.length)
    else if q <+: path ∧ ¬ new.Empty then
      none
    else
      self q

noncomputable def overwriteAll (self : PathMap κ ν) (writes : List (List κ × PathMap κ ν))
    : PathMap κ ν :=
  writes.foldl (fun map write => map.overwrite write.1 write.2) self

theorem Empty.eq {self other : PathMap κ ν} (h : self.Empty) (hother : other.Empty)
    : self = other := by
  funext q
  rw [h q, hother q]

theorem eq_of_child {self other : PathMap κ ν} (hroot : self [] = other [])
    (hchild : ∀ key, self.child key = other.child key) : self = other := by
  funext q
  cases q with
  | nil => exact hroot
  | cons key rest => exact congrFun (hchild key) rest

section Overwrite

variable {self new : PathMap κ ν} {path q : List κ}

@[simp]
theorem overwrite_append (self : PathMap κ ν) (path : List κ) (new : PathMap κ ν) (rest : List κ)
    : self.overwrite path new (path ++ rest) = new rest := by
  unfold overwrite
  rw [if_pos (List.prefix_append path rest), List.drop_left]

theorem overwrite_of_empty (h : ¬ path <+: q) (hempty : new.Empty)
    : self.overwrite path new q = self q := by
  unfold overwrite
  rw [if_neg h, if_neg]
  intro habove
  exact habove.right hempty

theorem overwrite_above (h : ¬ path <+: q) (habove : q <+: path) (hnew : ¬ new.Empty)
    : self.overwrite path new q = none := by
  unfold overwrite
  rw [if_neg h, if_pos ⟨habove, hnew⟩]

theorem overwrite_apart (h : ¬ path <+: q) (habove : ¬ q <+: path)
    : self.overwrite path new q = self q := by
  unfold overwrite
  rw [if_neg h, if_neg]
  intro hpre
  exact habove hpre.left

theorem overwrite_eq_none (h : ¬ path <+: q) (hnone : self q = none)
    : self.overwrite path new q = none := by
  unfold overwrite
  rw [if_neg h]
  split
  . rfl
  . exact hnone

@[simp]
theorem overwrite_nil (self new : PathMap κ ν) : self.overwrite [] new = new := by
  funext q
  exact overwrite_append self [] new q

theorem not_empty_overwrite (h : ¬ new.Empty) : ¬ (self.overwrite path new).Empty := by
  intro hempty
  apply h
  intro rest
  rw [← overwrite_append self path new rest]
  exact hempty (path ++ rest)

theorem empty_overwrite (h : self.Empty) (hnew : new.Empty) : (self.overwrite path new).Empty := by
  intro q
  by_cases hq : path <+: q
  . obtain ⟨rest, rfl⟩ := hq
    rw [overwrite_append]
    exact hnew rest
  . rw [overwrite_of_empty hq hnew]
    exact h q

theorem below_overwrite_append (self : PathMap κ ν) (path rest : List κ) (new : PathMap κ ν)
    : (self.overwrite (path ++ rest) new).below path = (self.below path).overwrite rest new := by
  funext q
  have hbelow : path ++ rest <+: path ++ q ↔ rest <+: q := List.prefix_append_right_inj path
  have habove : path ++ q <+: path ++ rest ↔ q <+: rest := List.prefix_append_right_inj path
  by_cases hq : rest <+: q
  . obtain ⟨s, rfl⟩ := hq
    unfold below
    rw [← List.append_assoc, overwrite_append, overwrite_append]
  . rw [← hbelow] at hq
    by_cases hempty : new.Empty
    . rw [overwrite_of_empty (by rwa [← hbelow]) hempty]
      exact overwrite_of_empty hq hempty
    . by_cases hle : q <+: rest
      . rw [overwrite_above (by rwa [← hbelow]) hle hempty]
        exact overwrite_above hq (habove.mpr hle) hempty
      . rw [overwrite_apart (by rwa [← hbelow]) hle]
        exact overwrite_apart hq (by rwa [habove])

def Discrete (self : PathMap κ ν) : Prop :=
  ∀ q rest, self q ≠ none → rest ≠ [] → self (q ++ rest) = none

theorem eq_none_above (h : self.Discrete) (hbelow : ¬ (self.below path).Empty) (hq : q <+: path)
    (hne : q ≠ path) : self q = none := by
  by_contra hvalue
  apply hbelow
  intro rest
  obtain ⟨s, rfl⟩ := hq
  unfold below
  rw [List.append_assoc]
  apply h q (s ++ rest) hvalue
  intro hnil
  rw [List.append_eq_nil_iff] at hnil
  apply hne
  rw [hnil.left, List.append_nil]

theorem overwrite_below_overwrite (h : self.Discrete) (path rest : List κ) (new : PathMap κ ν)
    : self.overwrite path ((self.below path).overwrite rest new)
        =
      self.overwrite (path ++ rest) new := by
  funext q
  by_cases hq : path <+: q
  . obtain ⟨s, rfl⟩ := hq
    rw [overwrite_append, ← below_overwrite_append]
    rfl
  . have hpast : ¬ path ++ rest <+: q := fun hle => hq ((List.prefix_append path rest).trans hle)
    by_cases hle : q <+: path
    . have hlong : q <+: path ++ rest := hle.trans (List.prefix_append path rest)
      by_cases hempty : new.Empty
      . rw [overwrite_of_empty hpast hempty]
        by_cases hchanged : ((self.below path).overwrite rest new).Empty
        . exact overwrite_of_empty hq hchanged
        . rw [overwrite_above hq hle hchanged]
          by_cases hbelow : (self.below path).Empty
          . exact absurd (empty_overwrite hbelow hempty) hchanged
          . symm
            apply eq_none_above h hbelow hle
            intro heq
            subst heq
            exact hq List.prefix_rfl
      . rw [overwrite_above hpast hlong hempty]
        exact overwrite_above hq hle (not_empty_overwrite hempty)
    . rw [overwrite_apart hq hle, overwrite_apart hpast]
      intro hlong
      cases List.prefix_or_prefix_of_prefix hlong (List.prefix_append path rest) with
      | inl hpre => exact hle hpre
      | inr hpre => exact hq hpre

theorem below_overwrite_of_prefix (self : PathMap κ ν) (path rest : List κ) (new : PathMap κ ν)
    : (self.overwrite path new).below (path ++ rest) = new.below rest := by
  funext q
  unfold below
  rw [List.append_assoc, overwrite_append]

theorem below_overwrite_apart {other : List κ} (h : ¬ path <+: other) (hother : ¬ other <+: path)
    : (self.overwrite path new).below other = self.below other := by
  funext q
  unfold below
  apply overwrite_apart
  . intro hpre
    cases List.prefix_or_prefix_of_prefix hpre (List.prefix_append other q) with
    | inl hpath => exact h hpath
    | inr hpath => exact hother hpath
  . intro hpre
    exact hother ((List.prefix_append other q).trans hpre)

theorem child_overwrite [DecidableEq κ] (self : PathMap κ ν) (key : κ) (new : PathMap κ ν)
    : (self.overwrite [key] new).child = Function.update self.child key new := by
  funext other
  unfold child
  by_cases heq : other = key
  . subst heq
    rw [Function.update_self]
    funext q
    apply overwrite_append
  . rw [Function.update_of_ne heq]
    apply below_overwrite_apart
    . intro hpre
      exact heq (List.cons_prefix_cons.mp hpre).left.symm
    . intro hpre
      exact heq (List.cons_prefix_cons.mp hpre).left

theorem below_below (self : PathMap κ ν) (path rest : List κ)
    : (self.below path).below rest = self.below (path ++ rest) := by
  funext q
  unfold below
  rw [List.append_assoc]

end Overwrite

structure IsOverlay (values : List κ → Option (PathMap κ ν)) (base result : PathMap κ ν) : Prop where
  inside : ∀ r value, values r = some value → ∀ rest, result (r ++ rest) = value rest
  above : ∀ r value, values r = some value → ¬ value.Empty → ∀ q, q <+: r → q ≠ r → result q = none
  outside : ∀ q, (∀ r, r <+: q → values r = none)
    → (∀ r value, q <+: r → values r = some value → value.Empty) → result q = base q

def PrefixFree (values : List κ → Option (PathMap κ ν)) : Prop :=
  ∀ p r, values p ≠ none → values r ≠ none → p <+: r → p = r

section Overlay

variable {values : List κ → Option (PathMap κ ν)} {base result other : PathMap κ ν}

theorem isOverlay_none (base : PathMap κ ν) : IsOverlay (fun _ => none) base base where
  inside r value h := by cases h
  above r value h := by cases h
  outside q _ _ := rfl

theorem IsOverlay.unique (h : IsOverlay values base result) (hother : IsOverlay values base other)
    : result = other := by
  funext q
  by_cases hinside : ∃ r value, r <+: q ∧ values r = some value
  . obtain ⟨r, value, ⟨rest, rfl⟩, hvalue⟩ := hinside
    rw [h.inside r value hvalue, hother.inside r value hvalue]
  . have hfree : ∀ r, r <+: q → values r = none := by
      intro r hr
      by_contra hne
      obtain ⟨value, hvalue⟩ := Option.ne_none_iff_exists'.mp hne
      exact hinside ⟨r, value, hr, hvalue⟩
    by_cases habove : ∃ r value, q <+: r ∧ values r = some value ∧ ¬ value.Empty
    . obtain ⟨r, value, hq, hvalue, hne⟩ := habove
      have hstrict : q ≠ r := by
        intro heq
        subst heq
        rw [hfree q List.prefix_rfl] at hvalue
        cases hvalue
      rw [h.above r value hvalue hne q hq hstrict, hother.above r value hvalue hne q hq hstrict]
    . have hall : ∀ r value, q <+: r → values r = some value → value.Empty := by
        intro r value hq hvalue
        by_contra hne
        exact habove ⟨r, value, hq, hvalue, hne⟩
      rw [h.outside q hfree hall, hother.outside q hfree hall]

theorem IsOverlay.below_inside (h : IsOverlay values base result) {r : List κ} {value : PathMap κ ν}
    (hvalue : values r = some value) (rest : List κ)
    : result.below (r ++ rest) = value.below rest := by
  funext q
  unfold below
  rw [List.append_assoc]
  exact h.inside r value hvalue (rest ++ q)

theorem IsOverlay.below (h : IsOverlay values base result) {path : List κ}
    (hclear : ∀ r, r <+: path → values r = none)
    : IsOverlay (fun q => values (path ++ q)) (base.below path) (result.below path) := by
  constructor
  . intro r value hvalue rest
    unfold PathMap.below
    rw [← List.append_assoc]
    exact h.inside (path ++ r) value hvalue rest
  . intro r value hvalue hnonempty q hq hne
    apply h.above (path ++ r) value hvalue hnonempty
    . exact (List.prefix_append_right_inj path).mpr hq
    . intro heq
      exact hne (List.append_cancel_left heq)
  . intro q hbelow habove
    apply h.outside (path ++ q)
    . intro r hr
      cases List.prefix_or_prefix_of_prefix hr (List.prefix_append path q) with
      | inl hle => exact hclear r hle
      | inr hle =>
        obtain ⟨s, rfl⟩ := hle
        exact hbelow s ((List.prefix_append_right_inj path).mp hr)
    . intro r value hr hvalue
      obtain ⟨s, rfl⟩ := (List.prefix_append path q).trans hr
      exact habove s value ((List.prefix_append_right_inj path).mp hr) hvalue

variable {path : List κ} {new : PathMap κ ν} {values' : List κ → Option (PathMap κ ν)}

def Removable (base : PathMap κ ν) (path : List κ) (new : PathMap κ ν) : Prop :=
  new.Empty → ∀ q, q <+: path → q ≠ path → base q = none

theorem IsOverlay.of_removable (h : IsOverlay values base result)
    (hremovable : base.Removable path new) (hempty : new.Empty) {q : List κ} (hq : q <+: path)
    (hne : q ≠ path) (hfree : ∀ r, r <+: q → values r = none) : result q = none := by
  by_cases habove : ∃ r value, q <+: r ∧ values r = some value ∧ ¬ value.Empty
  . obtain ⟨r, value, hr, hvalue, hnonempty⟩ := habove
    apply h.above r value hvalue hnonempty q hr
    intro heq
    subst heq
    rw [hfree q List.prefix_rfl] at hvalue
    cases hvalue
  . rw [h.outside q hfree]
    . exact hremovable hempty q hq hne
    . intro r value hr hvalue
      by_contra hnonempty
      exact habove ⟨r, value, hr, hvalue, hnonempty⟩

theorem IsOverlay.overwrite_inside (h : IsOverlay values base result) (hfree : PrefixFree values)
    {r rest : List κ} {value : PathMap κ ν} (hvalue : values r = some value)
    (hremovable : base.Removable (r ++ rest) new)
    (hsame : values' r = some (value.overwrite rest new))
    (hother : ∀ q, q ≠ r → values' q = values q)
    : IsOverlay values' base (result.overwrite (r ++ rest) new) := by
  have hr : values r ≠ none := by simp [hvalue]
  have happart : ∀ p, values p ≠ none → p ≠ r → ¬ p <+: r ∧ ¬ r <+: p := by
    intro p hp hne
    exact ⟨fun hpre => hne (hfree p r hp hr hpre),
      fun hpre => hne (hfree r p hr hp hpre).symm⟩
  have hclear : ∀ q, q <+: r → q ≠ r → ∀ p, p <+: q → values p = none := by
    intro q hq hne p hp
    by_contra hvalue
    have heq := hfree p r hvalue hr (hp.trans hq)
    subst heq
    exact hne (hq.eq_of_length_le hp.length_le)
  constructor
  . intro p found hfound s
    by_cases hp : p = r
    . subst hp
      rw [hsame] at hfound
      cases hfound
      have hbelow : result.below p = value := by
        funext s
        exact h.inside p value hvalue s
      rw [← hbelow, ← below_overwrite_append]
      rfl
    . rw [hother p hp] at hfound
      obtain ⟨hpr, hrp⟩ := happart p (by simp [hfound]) hp
      rw [overwrite_apart]
      . exact h.inside p found hfound s
      . intro hpre
        cases List.prefix_or_prefix_of_prefix ((List.prefix_append r rest).trans hpre)
          (List.prefix_append p s) with
        | inl hle => exact hrp hle
        | inr hle => exact hpr hle
      . intro hpre
        cases List.prefix_or_prefix_of_prefix (List.prefix_append r rest)
          ((List.prefix_append p s).trans hpre) with
        | inl hle => exact hrp hle
        | inr hle => exact hpr hle
  . intro p found hfound hnonempty q hq hne
    by_cases hp : p = r
    . subst hp
      have hbelow : ¬ p ++ rest <+: q := by
        intro hpre
        have hle := ((List.prefix_append p rest).trans hpre).length_le
        exact hne (hq.eq_of_length_le hle)
      have habove : q <+: p ++ rest := hq.trans (List.prefix_append p rest)
      by_cases hempty : new.Empty
      . rw [overwrite_of_empty hbelow hempty]
        apply h.of_removable hremovable hempty habove
        . intro heq
          subst heq
          exact hbelow List.prefix_rfl
        . exact hclear q hq hne
      . exact overwrite_above hbelow habove hempty
    . rw [hother p hp] at hfound
      apply overwrite_eq_none
      . intro hpre
        have hle := ((List.prefix_append r rest).trans hpre).trans hq
        exact (happart p (by simp [hfound]) hp).right hle
      . exact h.above p found hfound hnonempty q hq hne
  . intro q hbelow habove
    have hrq : ¬ r <+: q := by
      intro hpre
      have hnone := hbelow r hpre
      rw [hsame] at hnone
      cases hnone
    have hpath : ¬ r ++ rest <+: q := fun hpre => hrq ((List.prefix_append r rest).trans hpre)
    have hvalues : ∀ p, p <+: q → values p = none := by
      intro p hp
      rw [← hother p]
      . exact hbelow p hp
      . intro heq
        subst heq
        exact hrq hp
    by_cases hq : q <+: r ++ rest
    . have hqr : q <+: r :=
        (List.prefix_or_prefix_of_prefix hq (List.prefix_append r rest)).resolve_right hrq
      have hempty : new.Empty := by
        by_contra hnonempty
        exact not_empty_overwrite hnonempty (habove r _ hqr hsame)
      have hne : q ≠ r ++ rest := by
        intro heq
        subst heq
        exact hpath List.prefix_rfl
      rw [overwrite_of_empty hpath hempty, hremovable hempty q hq hne]
      exact h.of_removable hremovable hempty hq hne hvalues
    . rw [overwrite_apart hpath hq]
      apply h.outside q hvalues
      intro p found hp hfound
      apply habove p found hp
      rw [hother p]
      . exact hfound
      . intro heq
        subst heq
        exact hq (hp.trans (List.prefix_append p rest))

theorem IsOverlay.overwrite_cover (h : IsOverlay values base result)
    (hclear : ∀ r, r <+: path → r ≠ path → values r = none)
    (hremovable : base.Removable path new) (hsame : values' path = some new)
    (hinside : ∀ q, path <+: q → q ≠ path → values' q = none)
    (hother : ∀ q, ¬ path <+: q → values' q = values q)
    : IsOverlay values' base (result.overwrite path new) := by
  have hvalues : ∀ q p, q <+: path → q ≠ path → p <+: q → values p = none := by
    intro q p hq hne hp
    apply hclear p (hp.trans hq)
    intro heq
    subst heq
    exact hne (hq.eq_of_length_le hp.length_le)
  constructor
  . intro p found hfound s
    by_cases hp : path <+: p
    . have heq : p = path := by
        by_contra hne
        rw [hinside p hp hne] at hfound
        cases hfound
      subst heq
      rw [hsame] at hfound
      cases hfound
      apply overwrite_append
    . rw [hother p hp] at hfound
      have habove : ¬ p <+: path := by
        intro hpre
        rw [hclear p hpre] at hfound
        . cases hfound
        . intro heq
          subst heq
          exact hp List.prefix_rfl
      rw [overwrite_apart]
      . exact h.inside p found hfound s
      . intro hpre
        cases List.prefix_or_prefix_of_prefix hpre (List.prefix_append p s) with
        | inl hle => exact hp hle
        | inr hle => exact habove hle
      . intro hpre
        exact habove ((List.prefix_append p s).trans hpre)
  . intro p found hfound hnonempty q hq hne
    by_cases hp : path <+: p
    . have heq : p = path := by
        by_contra hne
        rw [hinside p hp hne] at hfound
        cases hfound
      subst heq
      rw [hsame] at hfound
      cases hfound
      apply overwrite_above _ hq hnonempty
      intro hpre
      exact hne (hq.eq_of_length_le hpre.length_le)
    . rw [hother p hp] at hfound
      apply overwrite_eq_none
      . intro hpre
        exact hp (hpre.trans hq)
      . exact h.above p found hfound hnonempty q hq hne
  . intro q hbelow habove
    have hpath : ¬ path <+: q := by
      intro hpre
      have hnone := hbelow path hpre
      rw [hsame] at hnone
      cases hnone
    by_cases hq : q <+: path
    . have hne : q ≠ path := by
        intro heq
        subst heq
        exact hpath List.prefix_rfl
      have hempty : new.Empty := habove path new hq hsame
      rw [overwrite_of_empty hpath hempty, hremovable hempty q hq hne]
      exact h.of_removable hremovable hempty hq hne (fun p hp => hvalues q p hq hne hp)
    . rw [overwrite_apart hpath hq]
      apply h.outside q
      . intro p hp
        rw [← hother p]
        . exact hbelow p hp
        . intro hpre
          exact hpath (hpre.trans hp)
      . intro p found hp hfound
        apply habove p found hp
        rw [hother p]
        . exact hfound
        . intro hpre
          cases List.prefix_or_prefix_of_prefix hpre hp with
          | inl hle => exact hpath hle
          | inr hle => exact hq hle

end Overlay

section Sequences

variable {base : PathMap κ ν} {writes : List (List κ × PathMap κ ν)}

theorem overwriteAll_concat (base : PathMap κ ν) (writes : List (List κ × PathMap κ ν))
    (write : List κ × PathMap κ ν)
    : base.overwriteAll (writes ++ [write])
        =
      (base.overwriteAll writes).overwrite write.1 write.2 := by
  unfold overwriteAll
  rw [List.foldl_append]
  rfl

def Coherent (writes : List (List κ × PathMap κ ν)) : Prop :=
  ∀ write ∈ writes, ∀ other ∈ writes, write.1 <+: other.1 → write = other

theorem Coherent.of_concat {write : List κ × PathMap κ ν} (h : Coherent (writes ++ [write]))
    : Coherent writes := by
  intro first hfirst second hsecond
  exact h first (List.mem_append_left _ hfirst) second (List.mem_append_left _ hsecond)

theorem overwriteAll_inside (h : Coherent writes) {write : List κ × PathMap κ ν}
    (hmem : write ∈ writes) (rest : List κ)
    : base.overwriteAll writes (write.1 ++ rest) = write.2 rest := by
  induction writes using List.reverseRecOn with
  | nil => cases hmem
  | append_singleton writes last ih =>
    have hlast : last ∈ writes ++ [last] := List.mem_append_right _ List.mem_cons_self
    rw [overwriteAll_concat]
    by_cases heq : write = last
    . subst heq
      apply overwrite_append
    . have hold : write ∈ writes := by
        cases List.mem_append.mp hmem with
        | inl hold => exact hold
        | inr hnew => exact absurd (List.mem_singleton.mp hnew) heq
      have happart : ¬ last.1 <+: write.1 ∧ ¬ write.1 <+: last.1 :=
        ⟨fun hle => heq (h last hlast write hmem hle).symm,
          fun hle => heq (h write hmem last hlast hle)⟩
      rw [overwrite_apart]
      . exact ih h.of_concat hold
      . intro hpre
        cases List.prefix_or_prefix_of_prefix hpre (List.prefix_append write.1 rest) with
        | inl hle => exact happart.left hle
        | inr hle => exact happart.right hle
      . intro hpre
        exact happart.right ((List.prefix_append write.1 rest).trans hpre)

theorem overwriteAll_above (h : Coherent writes) {write : List κ × PathMap κ ν}
    (hmem : write ∈ writes) (hnonempty : ¬ write.2.Empty) {q : List κ} (hq : q <+: write.1)
    (hne : q ≠ write.1) : base.overwriteAll writes q = none := by
  induction writes using List.reverseRecOn with
  | nil => cases hmem
  | append_singleton writes last ih =>
    have hlast : last ∈ writes ++ [last] := List.mem_append_right _ List.mem_cons_self
    have hbelow : ¬ last.1 <+: q := by
      intro hpre
      have heq := h last hlast write hmem (hpre.trans hq)
      subst heq
      exact hne (hq.eq_of_length_le hpre.length_le)
    rw [overwriteAll_concat]
    cases List.mem_append.mp hmem with
    | inl hold => exact overwrite_eq_none hbelow (ih h.of_concat hold)
    | inr hnew =>
      rw [List.mem_singleton] at hnew
      subst hnew
      exact overwrite_above hbelow hq hnonempty

theorem overwriteAll_outside {q : List κ}
    (h : ∀ write ∈ writes, ¬ write.1 <+: q ∧ (q <+: write.1 → write.2.Empty))
    : base.overwriteAll writes q = base q := by
  induction writes using List.reverseRecOn with
  | nil => rfl
  | append_singleton writes last ih =>
    have hlast := h last (List.mem_append_right _ List.mem_cons_self)
    rw [overwriteAll_concat]
    have hrest := ih (fun write hwrite => h write (List.mem_append_left _ hwrite))
    by_cases hq : q <+: last.1
    . rw [overwrite_of_empty hlast.left (hlast.right hq)]
      exact hrest
    . rw [overwrite_apart hlast.left hq]
      exact hrest

theorem isOverlay_overwriteAll {values : List κ → Option (PathMap κ ν)}
    (hvalues : ∀ p value, values p = some value ↔ (p, value) ∈ writes) (hfree : PrefixFree values)
    : IsOverlay values base (base.overwriteAll writes) := by
  have hcoherent : Coherent writes := by
    intro write hwrite other hother hpre
    have hfound := (hvalues write.1 write.2).mpr hwrite
    have hotherFound := (hvalues other.1 other.2).mpr hother
    have heq : write.1 = other.1 := hfree _ _ (by simp [hfound]) (by simp [hotherFound]) hpre
    rw [heq, hotherFound, Option.some.injEq] at hfound
    exact Prod.ext heq hfound.symm
  constructor
  . intro p value hvalue rest
    exact overwriteAll_inside hcoherent ((hvalues p value).mp hvalue) rest
  . intro p value hvalue hnonempty q hq hne
    exact overwriteAll_above hcoherent ((hvalues p value).mp hvalue) hnonempty hq hne
  . intro q hbelow habove
    apply overwriteAll_outside
    intro write hwrite
    have hvalue := (hvalues write.1 write.2).mpr hwrite
    constructor
    . intro hpre
      rw [hbelow write.1 hpre] at hvalue
      cases hvalue
    . intro hq
      exact habove write.1 write.2 hq hvalue

end Sequences

end PathMap
