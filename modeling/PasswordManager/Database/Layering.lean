import PasswordManager.Database.FWriteTree

/-!
This module contains the writes to several places as what is left of a sequence of single writes, and
what becomes of them when the first writes of the sequence are taken away.
-/

namespace FCompoundWrite

open FKeys FNode FImmutableTree Std

variable {κ N : Type} [DecidableEq κ] [FNode κ N] [FKeys κ]

def valueAt (self : FCompoundWrite κ N) (path : FPath κ) : Option N :=
  valueAtPath path self.writeTree

def addWrites (self : FCompoundWrite κ N) (writes : List (FPath κ × N))
    : FCompoundWrite κ N :=
  writes.foldl (fun compoundWrite write => compoundWrite.addWrite write.2 write.1) self

def layer (writes : List (FPath κ × N)) : FCompoundWrite κ N :=
  emptyWrite.addWrites writes

abbrev WellFormed (self : FCompoundWrite κ N) : Prop :=
  self.writeTree.WellFormed

def Covered (paths : List (FPath κ)) (path : FPath κ) : Prop :=
  ∃ other ∈ paths, other <+: path

omit [DecidableEq κ] [FNode κ N] in
theorem wellFormed_emptyWrite : (emptyWrite : FCompoundWrite κ N).WellFormed :=
  wellFormed_initWithValue none

omit [DecidableEq κ] [FNode κ N] in
@[simp]
theorem valueAt_emptyWrite (path : FPath κ)
    : (emptyWrite : FCompoundWrite κ N).valueAt path = none :=
  valueAtPath_empty path

omit [DecidableEq κ] [FNode κ N] in
theorem valueAtPath_initWithValue (value : Option N) (path : FPath κ)
    : valueAtPath path (initWithValue value) = if path.isEmpty then value else none := by
  cases path with
  | nil => rfl
  | cons front rest => rfl

variable [LawfulFKeys κ] {self other : FCompoundWrite κ N}

omit [DecidableEq κ] [FNode κ N] in
theorem eq_of_valueAt (h : self.WellFormed) (hother : other.WellFormed)
    (hvalues : ∀ path, self.valueAt path = other.valueAt path) : self = other := by
  cases self with
  | mk tree =>
    cases other with
    | mk otherTree => exact congrArg mk (h.eq_of_valueAtPath hother hvalues)

variable [LawfulFNode κ N]

theorem addWrite_below (h : self.WellFormed) {path found : FPath κ} {value : N}
    (hpre : found <+: path) (hvalue : self.valueAt found = some value) (node : N)
    : (self.addWrite node path).WellFormed
        ∧ ∀ q, (self.addWrite node path).valueAt q
          = if q = found then
              some (updateChild value (path.drop found.length) node)
            else
              self.valueAt q := by
  have hset : self.addWrite node path
      =
    { writeTree := .setTree
        (initWithValue (some (updateChild value (path.drop found.length) node))) found
        self.writeTree } := by
    unfold addWrite
    split
    . next hempty =>
      rw [List.isEmpty_iff] at hempty
      subst hempty
      have hnil := List.prefix_nil.mp hpre
      subst hnil
      rw [List.drop_nil, LawfulFNode.updateChild_nil]
      rfl
    . rw [(findRootMost_eq_some_iff h).mpr ⟨hpre, hvalue⟩]
      dsimp only
      rw [setValue_eq_setTree h hvalue]
  rw [hset]
  constructor
  . apply h.setTree (wellFormed_initWithValue _)
    right
    intro r hr hne
    cases hfound : valueAtPath r self.writeTree with
    | none => rfl
    | some x => exact absurd (h.eq_of_prefix hr hfound hvalue) hne
  . intro q
    unfold valueAt
    by_cases hq : found <+: q
    . obtain ⟨rest, rfl⟩ := hq
      rw [valueAtPath_setTree_append h, valueAtPath_initWithValue]
      cases rest with
      | nil => simp
      | cons front rest =>
        rw [h.none_below hvalue (by simp)]
        simp
    . rw [valueAtPath_setTree_apart h hq, if_neg]
      intro heq
      subst heq
      exact hq List.prefix_rfl

theorem addWrite_cover (h : self.WellFormed) {path : FPath κ}
    (hfree : ∀ r, r <+: path → r ≠ path → self.valueAt r = none) (node : N)
    : (self.addWrite node path).WellFormed
        ∧ (∀ rest, (self.addWrite node path).valueAt (path ++ rest)
          = if rest.isEmpty then some node else none)
        ∧ ∀ q, ¬ path <+: q → (self.addWrite node path).valueAt q = self.valueAt q := by
  have hset : self.addWrite node path
      =
    { writeTree := .setTree (initWithValue (some node)) path self.writeTree } := by
    unfold addWrite
    split
    . next hempty =>
      rw [List.isEmpty_iff] at hempty
      subst hempty
      rfl
    . cases hroot : self.writeTree.findRootMostValueAndPath path with
      | none => rfl
      | some rootMost =>
        have hparts := (findRootMost_eq_some_iff h).mp hroot
        have hsame : rootMost.1 = path := by
          by_contra hne
          have hnone := hfree rootMost.1 hparts.left hne
          unfold valueAt at hnone
          rw [hparts.right] at hnone
          cases hnone
        dsimp only
        rw [hsame, List.drop_length, LawfulFNode.updateChild_nil]
        rw [hsame] at hparts
        rw [setValue_eq_setTree h hparts.right]
  rw [hset]
  refine ⟨?_, ?_, ?_⟩
  . exact h.setTree (wellFormed_initWithValue _) (.inr hfree)
  . intro rest
    unfold valueAt
    rw [valueAtPath_setTree_append h, valueAtPath_initWithValue]
  . intro q hq
    exact valueAtPath_setTree_apart h hq

theorem wellFormed_addWrite (h : self.WellFormed) (node : N) (path : FPath κ)
    : (self.addWrite node path).WellFormed := by
  by_cases hfree : ∀ r, r <+: path → r ≠ path → self.valueAt r = none
  . exact (addWrite_cover h hfree node).left
  . simp only [not_forall] at hfree
    obtain ⟨r, hpre, -, hvalue⟩ := hfree
    obtain ⟨value, hvalue⟩ := Option.ne_none_iff_exists'.mp hvalue
    exact (addWrite_below h hpre hvalue node).left

section Sequences

variable {writes before after : List (FPath κ × N)}

omit [DecidableEq κ] [LawfulFKeys κ] [LawfulFNode κ N] in
theorem addWrites_append (self : FCompoundWrite κ N) (before after : List (FPath κ × N))
    : self.addWrites (before ++ after) = (self.addWrites before).addWrites after := by
  unfold addWrites
  rw [List.foldl_append]

theorem wellFormed_addWrites (h : self.WellFormed) (writes : List (FPath κ × N))
    : (self.addWrites writes).WellFormed := by
  induction writes generalizing self with
  | nil => exact h
  | cons write writes ih =>
    apply ih
    exact wellFormed_addWrite h write.2 write.1

theorem wellFormed_layer (writes : List (FPath κ × N))
    : (layer writes).WellFormed := by
  apply wellFormed_addWrites
  apply wellFormed_emptyWrite

theorem exists_write_of_valueAt (h : self.WellFormed) (writes : List (FPath κ × N))
    {path : FPath κ} (hvalue : (self.addWrites writes).valueAt path ≠ none)
    : self.valueAt path ≠ none ∨ ∃ write ∈ writes, write.1 = path := by
  induction writes generalizing self with
  | nil => exact .inl hvalue
  | cons write writes ih =>
    have hstep := ih (wellFormed_addWrite h write.2 write.1) hvalue
    cases hstep with
    | inr hlater =>
      obtain ⟨later, hlater, heq⟩ := hlater
      exact .inr ⟨later, List.mem_cons_of_mem _ hlater, heq⟩
    | inl hnow =>
      by_cases hfree : ∀ r, r <+: write.1 → r ≠ write.1 → self.valueAt r = none
      . have hcover := addWrite_cover h hfree write.2
        by_cases hbelow : write.1 <+: path
        . obtain ⟨rest, rfl⟩ := hbelow
          rw [hcover.right.left] at hnow
          cases rest with
          | nil => exact .inr ⟨write, List.mem_cons_self, by rw [List.append_nil]⟩
          | cons front rest => simp at hnow
        . rw [hcover.right.right path hbelow] at hnow
          exact .inl hnow
      . simp only [not_forall] at hfree
        obtain ⟨r, hpre, -, hsome⟩ := hfree
        obtain ⟨value, hsome⟩ := Option.ne_none_iff_exists'.mp hsome
        rw [(addWrite_below h hpre hsome write.2).right] at hnow
        split at hnow
        . next heq =>
          rw [heq, hsome]
          exact .inl (by simp)
        . exact .inl hnow

theorem exists_write_of_layer {writes : List (FPath κ × N)} {path : FPath κ}
    (hvalue : (layer writes).valueAt path ≠ none)
    : ∃ write ∈ writes, write.1 = path := by
  apply (exists_write_of_valueAt wellFormed_emptyWrite writes hvalue).resolve_left
  simp

end Sequences

theorem addWrite_agree (region : FPath κ → Prop) (h : self.WellFormed)
    (hother : other.WellFormed)
    (houtside : ∀ q, ¬ region q → self.valueAt q = other.valueAt q) {path : FPath κ}
    (habove : ∀ r, r <+: path → ¬ region r) (hbelow : ∀ r, path <+: r → ¬ region r) (node : N)
    : (∀ q, region q → (self.addWrite node path).valueAt q = self.valueAt q
          ∧ (other.addWrite node path).valueAt q = other.valueAt q)
        ∧ ∀ q, ¬ region q
          → (self.addWrite node path).valueAt q
            = (other.addWrite node path).valueAt q := by
  by_cases hfree : ∀ r, r <+: path → r ≠ path → self.valueAt r = none
  . have hotherFree : ∀ r, r <+: path → r ≠ path → other.valueAt r = none := by
      intro r hr hne
      rw [← houtside r (habove r hr)]
      exact hfree r hr hne
    obtain ⟨-, hinside, hsame⟩ := addWrite_cover h hfree node
    obtain ⟨-, hotherInside, hotherSame⟩ := addWrite_cover hother hotherFree node
    constructor
    . intro q hq
      have hnot : ¬ path <+: q := fun hpre => hbelow q hpre hq
      exact ⟨hsame q hnot, hotherSame q hnot⟩
    . intro q hq
      by_cases hpre : path <+: q
      . obtain ⟨rest, rfl⟩ := hpre
        rw [hinside, hotherInside]
      . rw [hsame q hpre, hotherSame q hpre]
        exact houtside q hq
  . simp only [not_forall] at hfree
    obtain ⟨r, hr, -, hvalue⟩ := hfree
    obtain ⟨value, hvalue⟩ := Option.ne_none_iff_exists'.mp hvalue
    have hotherValue := hvalue
    rw [houtside r (habove r hr)] at hotherValue
    obtain ⟨-, hvalues⟩ := addWrite_below h hr hvalue node
    obtain ⟨-, hotherValues⟩ := addWrite_below hother hr hotherValue node
    constructor
    . intro q hq
      have hne : q ≠ r := by
        intro heq
        subst heq
        exact habove q hr hq
      rw [hvalues, hotherValues, if_neg hne, if_neg hne]
      exact ⟨rfl, rfl⟩
    . intro q hq
      rw [hvalues, hotherValues, houtside q hq]

structure Without (paths : List (FPath κ))
    (whole left : FCompoundWrite κ N) : Prop where
  wellFormed : whole.WellFormed
  otherWellFormed : left.WellFormed
  covered : ∀ q, Covered paths q → left.valueAt q = none
  outside : ∀ q, ¬ Covered paths q → whole.valueAt q = left.valueAt q

theorem Without.addWrite {paths : List (FPath κ)} (h : Without paths self other)
    {path : FPath κ} (hapart : ∀ p ∈ paths, FPath.Apart p path) (node : N)
    : Without paths (self.addWrite node path) (other.addWrite node path) := by
  have habove : ∀ r, r <+: path → ¬ Covered paths r := by
    intro r hr hcovered
    obtain ⟨p, hp, hpr⟩ := hcovered
    exact (hapart p hp).left (hpr.trans hr)
  have hbelow : ∀ r, path <+: r → ¬ Covered paths r := by
    intro r hr hcovered
    obtain ⟨p, hp, hpr⟩ := hcovered
    cases List.prefix_or_prefix_of_prefix hpr hr with
    | inl hpre => exact (hapart p hp).left hpre
    | inr hpre => exact (hapart p hp).right hpre
  obtain ⟨hinside, houtside⟩ :=
    addWrite_agree (Covered paths) h.wellFormed h.otherWellFormed h.outside habove hbelow node
  constructor
  . exact wellFormed_addWrite h.wellFormed node path
  . exact wellFormed_addWrite h.otherWellFormed node path
  . intro q hq
    rw [(hinside q hq).right]
    exact h.covered q hq
  . exact houtside

theorem Without.addWrites {paths : List (FPath κ)} (h : Without paths self other)
    {writes : List (FPath κ × N)} (hapart : ∀ p ∈ paths, ∀ write ∈ writes, FPath.Apart p write.1)
    : Without paths (self.addWrites writes) (other.addWrites writes) := by
  induction writes generalizing self other with
  | nil => exact h
  | cons write writes ih =>
    apply ih
    . apply h.addWrite
      intro p hp
      exact hapart p hp write List.mem_cons_self
    . intro p hp later hlater
      exact hapart p hp later (List.mem_cons_of_mem _ hlater)

theorem without_layer (writes : List (FPath κ × N))
    : Without (writes.map Prod.fst) (layer writes) emptyWrite where
  wellFormed := wellFormed_layer writes
  otherWellFormed := wellFormed_emptyWrite
  covered q _ := valueAt_emptyWrite q
  outside q hq := by
    rw [valueAt_emptyWrite]
    by_contra hvalue
    obtain ⟨write, hwrite, heq⟩ := exists_write_of_layer hvalue
    apply hq
    exact ⟨q, List.mem_map.mpr ⟨write, hwrite, heq⟩, List.prefix_rfl⟩

def removeWrites (self : FCompoundWrite κ N) (paths : List (FPath κ))
    : FCompoundWrite κ N :=
  paths.foldl (fun compoundWrite path => compoundWrite.removeWriteAtPath path) self

omit [DecidableEq κ] [FNode κ N] [LawfulFNode κ N] in
theorem removeWriteAtPath_spec (h : self.WellFormed) (path : FPath κ)
    : (self.removeWriteAtPath path).WellFormed
        ∧ (∀ q, path <+: q → (self.removeWriteAtPath path).valueAt q = none)
        ∧ ∀ q, ¬ path <+: q
          → (self.removeWriteAtPath path).valueAt q = self.valueAt q := by
  unfold removeWriteAtPath
  split
  . next hempty =>
    rw [List.isEmpty_iff] at hempty
    subst hempty
    refine ⟨wellFormed_emptyWrite, fun q _ => valueAt_emptyWrite q, ?_⟩
    intro q hq
    exact absurd List.nil_prefix hq
  . refine ⟨h.setTree wellFormed_empty (.inl rfl), ?_, ?_⟩
    . intro q hq
      obtain ⟨rest, rfl⟩ := hq
      unfold valueAt
      rw [valueAtPath_setTree_append h, valueAtPath_empty]
    . intro q hq
      exact valueAtPath_setTree_apart h hq

omit [DecidableEq κ] [FNode κ N] [LawfulFNode κ N] in
theorem removeWrites_spec (h : self.WellFormed) (paths : List (FPath κ))
    : (self.removeWrites paths).WellFormed
        ∧ (∀ q, Covered paths q → (self.removeWrites paths).valueAt q = none)
        ∧ ∀ q, ¬ Covered paths q
          → (self.removeWrites paths).valueAt q = self.valueAt q := by
  induction paths generalizing self with
  | nil =>
    refine ⟨h, ?_, fun q _ => rfl⟩
    intro q hq
    obtain ⟨p, hp, -⟩ := hq
    cases hp
  | cons path paths ih =>
    obtain ⟨hfirst, hinside, houtside⟩ := removeWriteAtPath_spec h path
    obtain ⟨hrest, hcovered, huncovered⟩ := ih hfirst
    refine ⟨hrest, ?_, ?_⟩
    . intro q hq
      by_cases hlater : Covered paths q
      . exact hcovered q hlater
      . obtain ⟨p, hp, hpre⟩ := hq
        have hpath : path <+: q := by
          cases List.mem_cons.mp hp with
          | inl heq => rwa [← heq]
          | inr hmem => exact absurd ⟨p, hmem, hpre⟩ hlater
        exact (huncovered q hlater).trans (hinside q hpath)
    . intro q hq
      have hlater : ¬ Covered paths q := by
        intro hcovered
        obtain ⟨p, hp, hpre⟩ := hcovered
        exact hq ⟨p, List.mem_cons_of_mem _ hp, hpre⟩
      have hpath : ¬ path <+: q := fun hpre => hq ⟨path, List.mem_cons_self, hpre⟩
      exact (huncovered q hlater).trans (houtside q hpath)

theorem removeWrites_layer {first later : List (FPath κ × N)}
    (hapart : ∀ write ∈ first, ∀ other ∈ later, FPath.Apart write.1 other.1)
    : (layer (first ++ later)).removeWrites (first.map Prod.fst) = layer later := by
  have hwithout : Without (first.map Prod.fst) (layer (first ++ later))
      (layer later) := by
    unfold layer
    rw [addWrites_append]
    apply (without_layer first).addWrites
    intro p hp other hother
    obtain ⟨write, hwrite, rfl⟩ := List.mem_map.mp hp
    exact hapart write hwrite other hother
  obtain ⟨hremoved, hcovered, huncovered⟩ :=
    removeWrites_spec hwithout.wellFormed (first.map Prod.fst)
  apply eq_of_valueAt hremoved hwithout.otherWellFormed
  intro q
  by_cases hq : Covered (first.map Prod.fst) q
  . rw [hcovered q hq, hwithout.covered q hq]
  . rw [huncovered q hq, hwithout.outside q hq]

structure SameOutside (root : FPath κ) (left right : FCompoundWrite κ N)
    : Prop where
  leftWellFormed : left.WellFormed
  rightWellFormed : right.WellFormed
  free : ∀ r, r <+: root → r ≠ root → left.valueAt r = none
  outside : ∀ q, ¬ root <+: q → left.valueAt q = right.valueAt q

omit [DecidableEq κ] [FNode κ N] [LawfulFKeys κ] [LawfulFNode κ N] in
theorem SameOutside.rightFree {root : FPath κ} (h : SameOutside root self other)
    : ∀ r, r <+: root → r ≠ root → other.valueAt r = none := by
  intro r hr hne
  rw [← h.outside r]
  . exact h.free r hr hne
  . intro hroot
    exact hne (hr.eq_of_length_le hroot.length_le)

theorem addWrite_at_or_below (h : self.WellFormed) {root path : FPath κ}
    (hfree : ∀ r, r <+: root → r ≠ root → self.valueAt r = none) (hroot : root <+: path)
    (node : N)
    : ∀ q, ¬ root <+: q → (self.addWrite node path).valueAt q = self.valueAt q := by
  intro q hq
  by_cases hpathFree : ∀ r, r <+: path → r ≠ path → self.valueAt r = none
  . apply (addWrite_cover h hpathFree node).right.right
    intro hpath
    exact hq (hroot.trans hpath)
  . simp only [not_forall] at hpathFree
    obtain ⟨r, hr, -, hvalue⟩ := hpathFree
    have hvalue' := hvalue
    obtain ⟨value, hvalue⟩ := Option.ne_none_iff_exists'.mp hvalue
    rw [(addWrite_below h hr hvalue node).right, if_neg]
    intro heq
    subst heq
    cases List.prefix_or_prefix_of_prefix hr hroot with
    | inr hbelow => exact hq hbelow
    | inl habove =>
      apply hvalue'
      apply hfree q habove
      intro heq
      subst heq
      exact hq List.prefix_rfl

theorem SameOutside.addWrite {root : FPath κ} (h : SameOutside root self other) {path : FPath κ}
    (hpath : ¬ path <+: root) (node : N)
    : SameOutside root (self.addWrite node path) (other.addWrite node path) := by
  constructor
  . exact wellFormed_addWrite h.leftWellFormed node path
  . exact wellFormed_addWrite h.rightWellFormed node path
  . intro r hr hne
    by_contra hvalue
    have hwrite := exists_write_of_valueAt h.leftWellFormed [(path, node)] hvalue
    cases hwrite with
    | inl hold => exact hold (h.free r hr hne)
    | inr hnew =>
      obtain ⟨write, hwrite, heq⟩ := hnew
      rw [List.mem_singleton] at hwrite
      subst hwrite
      subst heq
      exact hpath hr
  . by_cases hroot : root <+: path
    . intro q hq
      rw [addWrite_at_or_below h.leftWellFormed h.free hroot node q hq]
      rw [addWrite_at_or_below h.rightWellFormed h.rightFree hroot node q hq]
      exact h.outside q hq
    . have habove : ∀ r, r <+: path → ¬ root <+: r := by
        intro r hr hbelow
        exact hroot (hbelow.trans hr)
      have hbelow : ∀ r, path <+: r → ¬ root <+: r := by
        intro r hr hbelow
        cases List.prefix_or_prefix_of_prefix hr hbelow with
        | inl hpre => exact hpath hpre
        | inr hpre => exact hroot hpre
      exact (addWrite_agree (fun q => root <+: q) h.leftWellFormed h.rightWellFormed h.outside habove
        hbelow node).right

theorem SameOutside.eq_of_cover {root : FPath κ} (h : SameOutside root self other)
    {path : FPath κ} (hpath : path <+: root) (node : N)
    : self.addWrite node path = other.addWrite node path := by
  have hfree : ∀ r, r <+: path → r ≠ path → r <+: root ∧ r ≠ root := by
    intro r hr hne
    refine ⟨hr.trans hpath, ?_⟩
    intro heq
    subst heq
    exact hne (hr.eq_of_length_le hpath.length_le)
  have hleft := addWrite_cover h.leftWellFormed
    (fun r hr hne => h.free r (hfree r hr hne).left (hfree r hr hne).right) node
  have hright := addWrite_cover h.rightWellFormed
    (fun r hr hne => h.rightFree r (hfree r hr hne).left (hfree r hr hne).right) node
  apply eq_of_valueAt hleft.left hright.left
  intro q
  by_cases hq : path <+: q
  . obtain ⟨rest, rfl⟩ := hq
    rw [hleft.right.left, hright.right.left]
  . rw [hleft.right.right q hq, hright.right.right q hq]
    apply h.outside
    intro hroot
    exact hq (hpath.trans hroot)

theorem SameOutside.addWrites {root : FPath κ} (h : SameOutside root self other)
    {writes : List (FPath κ × N)} (hwrites : ∃ write ∈ writes, write.1 <+: root)
    : self.addWrites writes = other.addWrites writes := by
  induction writes generalizing self other with
  | nil =>
    obtain ⟨write, hwrite, -⟩ := hwrites
    cases hwrite
  | cons write writes ih =>
    by_cases hcover : write.1 <+: root
    . have heq := h.eq_of_cover hcover write.2
      unfold FCompoundWrite.addWrites
      rw [List.foldl_cons, List.foldl_cons, heq]
    . apply ih (h.addWrite hcover write.2)
      obtain ⟨later, hlater, hpre⟩ := hwrites
      refine ⟨later, ?_, hpre⟩
      cases List.mem_cons.mp hlater with
      | inl heq =>
        subst heq
        exact absurd hpre hcover
      | inr hmem => exact hmem

theorem layer_of_covered {root : FPath κ} {first later : List (FPath κ × N)}
    (hfirst : ∀ write ∈ first, root <+: write.1) (hlater : ∃ write ∈ later, write.1 <+: root)
    : layer (first ++ later) = layer later := by
  have hvalue : ∀ q, ¬ root <+: q → (layer first).valueAt q = none := by
    intro q hq
    by_contra hvalue
    obtain ⟨write, hwrite, heq⟩ := exists_write_of_layer hvalue
    subst heq
    exact hq (hfirst write hwrite)
  have hsame : SameOutside root (layer first) (emptyWrite : FCompoundWrite κ N) := by
    constructor
    . exact wellFormed_layer first
    . exact wellFormed_emptyWrite
    . intro r hr hne
      apply hvalue
      intro hroot
      exact hne (hr.eq_of_length_le hroot.length_le)
    . intro q hq
      rw [hvalue q hq, valueAt_emptyWrite]
  unfold layer
  rw [addWrites_append]
  exact hsame.addWrites hlater

end FCompoundWrite
