import PasswordManager.Database.FSnapshot
import PasswordManager.Database.Layering
import PasswordManager.Transition.Basic

/-!
This module contains the runs of a client that issues writes and hears of their end, and when the tree
of its visible writes is the one that its pending writes make.
-/

inductive FWriteEvent (κ N : Type) where
  | overwrite (path : FPath κ) (newData : N) (writeId : Int) (visible : Bool)
  | merge (path : FPath κ) (changedChildren : FCompoundWrite κ N) (writeId : Int)
  | remove (writeId : Int)

namespace FWriteRecord

variable {κ N : Type}

def writes (self : FWriteRecord κ N) : List (FPath κ × N) :=
  match self.write with
  | .overwrite node => [(self.path, node)]
  | .merge merge => merge.writeTree.forEach.map (fun call => (self.path ++ call.1, call.2))

theorem prefix_of_mem_writes {self : FWriteRecord κ N} {write : FPath κ × N}
    (h : write ∈ self.writes) : self.path <+: write.1 := by
  unfold writes at h
  split at h
  . rw [List.mem_singleton] at h
    subst h
    exact List.prefix_rfl
  . rw [List.mem_map] at h
    obtain ⟨call, -, heq⟩ := h
    subst heq
    apply List.prefix_append

end FWriteRecord

namespace FWriteTree

open FCompoundWrite FNode

variable {κ N : Type} [DecidableEq κ] [FKeys κ] [FNode κ N]

def step (self : FWriteTree κ N) : FWriteEvent κ N → Except NSException (FWriteTree κ N)
  | .overwrite path newData writeId visible => self.addOverwriteAtPath path newData writeId visible
  | .merge path changedChildren writeId => self.addMergeAtPath path changedChildren writeId
  | .remove writeId => (self.removeWriteId writeId).map Prod.snd

omit [DecidableEq κ] [FNode κ N] in
def pendingWrites (records : List (FWriteRecord κ N)) : List (FPath κ × N) :=
  (records.filter (fun record => record.visible)).flatMap (fun record => record.writes)

/--
The tree is the one that the visible records make when they are layered from scratch.
-/
def Layered (self : FWriteTree κ N) : Prop :=
  self.visibleWrites = layer (pendingWrites self.allWrites)

omit [FNode κ N] in
def Shadowed (records : List (FWriteRecord κ N)) (removed : FWriteRecord κ N) : Prop :=
  ∃ record ∈ records, record.visible = true ∧ recordContainsPath record removed.path = true

omit [DecidableEq κ] [FNode κ N] in
def Overlapped (records : List (FWriteRecord κ N)) (removed : FWriteRecord κ N) : Prop :=
  ∃ record ∈ records, record.visible = true ∧ removed.path <+: record.path

omit [DecidableEq κ] [FNode κ N] in
def Straddled (records : List (FWriteRecord κ N)) (removed : FWriteRecord κ N) : Prop :=
  ∃ record ∈ records, record.visible = true ∧ record.path <+: removed.path
    ∧ ∃ write ∈ record.writes, removed.path <+: write.1

/--
A visible write is removed in its turn: it is the oldest one, no hidden write is pending when the tree
is rebuilt, and when the tree is not rebuilt no later record reaches past the path of the removed one.
The walk over the records compares the path of that one with the paths at which the records start.
-/
structure InTurn (earlier : List (FWriteRecord κ N)) (removed : FWriteRecord κ N)
    (later : List (FWriteRecord κ N)) : Prop where
  oldest : ∀ record ∈ earlier, record.visible = false
  rebuilt : ¬ Shadowed later removed → Overlapped later removed
    → ∀ record ∈ earlier ++ later, record.visible = true
  seen : ¬ Shadowed later removed → ¬ Overlapped later removed → ¬ Straddled later removed

omit [FNode κ N] in
def Orderly (self : FWriteTree κ N) : FWriteEvent κ N → Prop
  | .remove writeId => ∀ earlier removed later, self.allWrites = earlier ++ removed :: later
      → removed.writeId = writeId → (∀ record ∈ earlier, record.writeId ≠ writeId)
      → removed.visible = true → InTurn earlier removed later
  | _ => True

section Records

omit [FNode κ N]

omit [FKeys κ] in
theorem recordContainsPath_iff {record : FWriteRecord κ N} {path : FPath κ}
    : recordContainsPath record path = true ↔ ∃ write ∈ record.writes, write.1 <+: path := by
  unfold recordContainsPath FWriteRecord.writes
  cases record.write with
  | overwrite node => simp [FPath.contains_iff]
  | merge merge =>
    rw [List.any_eq_true]
    constructor
    . intro h
      obtain ⟨call, hcall, hcontains⟩ := h
      rw [FPath.contains_iff] at hcontains
      exact ⟨_, List.mem_map_of_mem hcall, hcontains⟩
    . intro h
      obtain ⟨write, hwrite, hpre⟩ := h
      obtain ⟨call, hcall, rfl⟩ := List.mem_map.mp hwrite
      exact ⟨call, hcall, FPath.contains_iff.mpr hpre⟩

omit [DecidableEq κ] [FKeys κ] in
theorem pendingWrites_append (before after : List (FWriteRecord κ N))
    : pendingWrites (before ++ after) = pendingWrites before ++ pendingWrites after := by
  unfold pendingWrites
  rw [List.filter_append, List.flatMap_append]

omit [DecidableEq κ] [FKeys κ] in
theorem pendingWrites_hidden (records : List (FWriteRecord κ N))
    (h : ∀ record ∈ records, record.visible = false) : pendingWrites records = [] := by
  unfold pendingWrites
  rw [List.filter_eq_nil_iff.mpr]
  . rfl
  . intro record hrecord
    simp [h record hrecord]

omit [DecidableEq κ] [FKeys κ] in
theorem pendingWrites_visible (records : List (FWriteRecord κ N))
    (h : ∀ record ∈ records, record.visible = true)
    : pendingWrites records = records.flatMap (fun record => record.writes) := by
  unfold pendingWrites
  rw [List.filter_eq_self.mpr]
  intro record hrecord
  exact h record hrecord

omit [DecidableEq κ] [FKeys κ] in
theorem mem_pendingWrites {records : List (FWriteRecord κ N)} {write : FPath κ × N}
    : write ∈ pendingWrites records
        ↔
      ∃ record ∈ records, record.visible = true ∧ write ∈ record.writes := by
  unfold pendingWrites
  rw [List.mem_flatMap]
  constructor
  . intro h
    obtain ⟨record, hrecord, hwrite⟩ := h
    rw [List.mem_filter] at hrecord
    exact ⟨record, hrecord.left, hrecord.right, hwrite⟩
  . intro h
    obtain ⟨record, hrecord, hvisible, hwrite⟩ := h
    exact ⟨record, List.mem_filter.mpr ⟨hrecord, hvisible⟩, hwrite⟩

omit [FKeys κ] in
theorem loop_spec (removed : FWriteRecord κ N) (index : Nat)
    (records : List (FWriteRecord κ N × Nat)) (overlaps : Bool)
    : ((∃ entry ∈ records, entry.1.visible = true ∧ entry.2 ≥ index
          ∧ recordContainsPath entry.1 removed.path = true)
        ∧ (removeWriteId.loop removed index records overlaps).1 = false)
      ∨ ((¬ ∃ entry ∈ records, entry.1.visible = true ∧ entry.2 ≥ index
          ∧ recordContainsPath entry.1 removed.path = true)
        ∧ (removeWriteId.loop removed index records overlaps).1 = true
        ∧ ((removeWriteId.loop removed index records overlaps).2 = true
          ↔ overlaps = true ∨ ∃ entry ∈ records, entry.1.visible = true
            ∧ removed.path <+: entry.1.path)) := by
  induction records generalizing overlaps with
  | nil => simp [removeWriteId.loop]
  | cons entry records ih =>
    obtain ⟨currentWrite, i⟩ := entry
    unfold removeWriteId.loop
    split
    . next hvisible =>
      split
      . next hshadows =>
        left
        exact ⟨⟨(currentWrite, i), List.mem_cons_self, hvisible, hshadows.left, hshadows.right⟩, rfl⟩
      . next hshadows =>
        split
        . next hoverlaps =>
          rw [FPath.contains_iff] at hoverlaps
          have hrest := ih true
          simp only [List.exists_mem_cons_iff, hshadows, false_or, hvisible, hoverlaps, true_and,
            and_true, true_or, or_true] at hrest ⊢
          exact hrest
        . next hoverlaps =>
          rw [FPath.contains_iff] at hoverlaps
          have hrest := ih overlaps
          simp only [List.exists_mem_cons_iff, hshadows, false_or, hvisible, hoverlaps, and_false]
            at hrest ⊢
          exact hrest
    . next hhidden =>
      rw [Bool.not_eq_true] at hhidden
      have hrest := ih overlaps
      simp only [List.exists_mem_cons_iff, hhidden, Bool.false_eq_true, false_and, false_or]
        at hrest ⊢
      exact hrest

omit [DecidableEq κ] [FKeys κ] in
theorem exists_later_of_entry {earlier later : List (FWriteRecord κ N)}
    (hhidden : ∀ record ∈ earlier, record.visible = false) {p : FWriteRecord κ N → Prop}
    (h : ∃ entry ∈ (earlier ++ later).zipIdx.reverse, entry.1.visible = true ∧ p entry.1)
    : ∃ record ∈ later, record.visible = true ∧ p record := by
  obtain ⟨entry, hentry, hvisible, hp⟩ := h
  rw [List.mem_reverse] at hentry
  have hrecord := List.fst_mem_of_mem_zipIdx hentry
  rw [List.mem_append] at hrecord
  cases hrecord with
  | inl hearlier =>
    rw [hhidden entry.1 hearlier] at hvisible
    cases hvisible
  | inr hlater => exact ⟨entry.1, hlater, hvisible, hp⟩

omit [DecidableEq κ] [FKeys κ] in
theorem exists_entry_of_later (earlier : List (FWriteRecord κ N)) {later : List (FWriteRecord κ N)}
    {p : FWriteRecord κ N → Prop} (h : ∃ record ∈ later, record.visible = true ∧ p record)
    : ∃ entry ∈ (earlier ++ later).zipIdx.reverse,
        entry.1.visible = true ∧ entry.2 ≥ earlier.length ∧ p entry.1 := by
  obtain ⟨record, hrecord, hvisible, hp⟩ := h
  obtain ⟨i, hi⟩ := List.mem_iff_getElem?.mp hrecord
  refine ⟨(record, earlier.length + i), ?_, hvisible, Nat.le_add_right _ _, hp⟩
  rw [List.mem_reverse, List.mk_mem_zipIdx_iff_getElem?, List.getElem?_append_right (by omega)]
  rw [Nat.add_sub_cancel_left]
  exact hi

omit [FKeys κ] in
theorem loop_cases {earlier : List (FWriteRecord κ N)} (removed : FWriteRecord κ N)
    (later : List (FWriteRecord κ N))
    (hhidden : ∀ record ∈ earlier, record.visible = false)
    : (Shadowed later removed
        ∧ (removeWriteId.loop removed earlier.length (earlier ++ later).zipIdx.reverse false).1
          = false)
      ∨ (¬ Shadowed later removed ∧ Overlapped later removed
        ∧ removeWriteId.loop removed earlier.length (earlier ++ later).zipIdx.reverse false
          = (true, true))
      ∨ (¬ Shadowed later removed ∧ ¬ Overlapped later removed
        ∧ removeWriteId.loop removed earlier.length (earlier ++ later).zipIdx.reverse false
          = (true, false)) := by
  have hshadowed : (∃ entry ∈ (earlier ++ later).zipIdx.reverse, entry.1.visible = true
      ∧ entry.2 ≥ earlier.length ∧ recordContainsPath entry.1 removed.path = true)
        ↔ Shadowed later removed := by
    constructor
    . intro h
      obtain ⟨entry, hentry, hvisible, -, hcontains⟩ := h
      exact exists_later_of_entry hhidden ⟨entry, hentry, hvisible, hcontains⟩
    . intro h
      exact exists_entry_of_later earlier h
  have hoverlapped : (∃ entry ∈ (earlier ++ later).zipIdx.reverse, entry.1.visible = true
      ∧ removed.path <+: entry.1.path) ↔ Overlapped later removed := by
    constructor
    . intro h
      exact exists_later_of_entry hhidden h
    . intro h
      obtain ⟨entry, hentry, hvisible, -, hpre⟩ := exists_entry_of_later earlier h
      exact ⟨entry, hentry, hvisible, hpre⟩
  have hspec := loop_spec removed earlier.length (earlier ++ later).zipIdx.reverse false
  rw [hshadowed, hoverlapped] at hspec
  cases hspec with
  | inl hshadow => exact .inl hshadow
  | inr hclear =>
    right
    obtain ⟨hnot, hvisible, hoverlaps⟩ := hclear
    simp only [Bool.false_eq_true, false_or] at hoverlaps
    by_cases hoverlap : Overlapped later removed
    . left
      exact ⟨hnot, hoverlap, Prod.ext hvisible (hoverlaps.mpr hoverlap)⟩
    . right
      refine ⟨hnot, hoverlap, Prod.ext hvisible ?_⟩
      rw [← Bool.not_eq_true]
      intro htrue
      exact hoverlap (hoverlaps.mp htrue)

end Records

theorem layerTreeFromWrites_eq (records : List (FWriteRecord κ N))
    : layerTreeFromWrites records defaultFilter []
        =
      layer (records.flatMap (fun record => record.writes)) := by
  unfold layerTreeFromWrites layer addWrites
  rw [List.foldl_flatMap]
  congr 1
  funext compoundWrite record
  unfold defaultFilter FWriteRecord.writes
  have hcontains : FPath.contains [] record.path = true := by
    rw [FPath.contains_iff]
    exact List.nil_prefix
  cases record.write with
  | overwrite node => simp [hcontains]
  | merge merge => simp [hcontains, addCompoundWrite, List.foldl_map]

variable [LawfulFKeys κ] [LawfulFNode κ N]

omit [DecidableEq κ] [LawfulFKeys κ] [LawfulFNode κ N] in
theorem addOverwriteAtPath_layered {self after : FWriteTree κ N} (h : self.Layered)
    {path : FPath κ} {newData : N} {writeId : Int} {visible : Bool}
    (hstep : self.addOverwriteAtPath path newData writeId visible = .ok after)
    : after.Layered := by
  unfold addOverwriteAtPath at hstep
  split at hstep
  . cases hstep
    unfold Layered at h ⊢
    dsimp only
    rw [pendingWrites_append]
    cases visible with
    | false =>
      rw [pendingWrites_hidden [_] (by simp), List.append_nil]
      exact h
    | true =>
      rw [pendingWrites_visible [_] (by simp)]
      unfold layer
      rw [addWrites_append]
      simp only [↓reduceIte]
      rw [h]
      rfl
  . cases hstep

omit [DecidableEq κ] [LawfulFKeys κ] [LawfulFNode κ N] in
theorem addMergeAtPath_layered {self after : FWriteTree κ N} (h : self.Layered)
    {path : FPath κ} {changedChildren : FCompoundWrite κ N} {writeId : Int}
    (hstep : self.addMergeAtPath path changedChildren writeId = .ok after)
    : after.Layered := by
  unfold addMergeAtPath at hstep
  split at hstep
  . cases hstep
    unfold Layered at h ⊢
    dsimp only
    rw [pendingWrites_append, pendingWrites_visible [_] (by simp)]
    unfold layer
    rw [addWrites_append, h]
    unfold addCompoundWrite addWrites FWriteRecord.writes
    simp [List.foldl_map, layer]
    rfl
  . cases hstep

omit [LawfulFKeys κ] [LawfulFNode κ N] in
theorem removeWriteId_cases {self after : FWriteTree κ N} {answer : Bool}
    {earlier later : List (FWriteRecord κ N)} {removed : FWriteRecord κ N}
    (hsplit : self.allWrites = earlier ++ removed :: later)
    (hfirst : ∀ record ∈ earlier, record.writeId ≠ removed.writeId)
    (hstep : self.removeWriteId removed.writeId = .ok (answer, after))
    : after.allWrites = earlier ++ later
        ∧ answer = (removed.visible && (removeWriteId.loop removed earlier.length
          (earlier ++ later).zipIdx.reverse false).1)
        ∧ (removed.visible = false ∧ after.visibleWrites = self.visibleWrites
          ∨ removed.visible = true
            ∧ (removeWriteId.loop removed earlier.length (earlier ++ later).zipIdx.reverse false).1
              = false
            ∧ after.visibleWrites = self.visibleWrites
          ∨ removed.visible = true
            ∧ removeWriteId.loop removed earlier.length (earlier ++ later).zipIdx.reverse false
              = (true, true)
            ∧ after.visibleWrites = layerTreeFromWrites (earlier ++ later) defaultFilter []
          ∨ removed.visible = true
            ∧ removeWriteId.loop removed earlier.length (earlier ++ later).zipIdx.reverse false
              = (true, false)
            ∧ after.visibleWrites
              = self.visibleWrites.removeWrites (removed.writes.map Prod.fst)) := by
  have hindex : self.allWrites.findIdx? (fun record => record.writeId = removed.writeId)
      = some earlier.length := by
    rw [hsplit, List.findIdx?_append, List.findIdx?_eq_none_iff.mpr]
    . simp [List.findIdx?_cons]
    . intro record hrecord
      simp [hfirst record hrecord]
  have hget : self.allWrites[earlier.length]? = some removed := by
    rw [hsplit, List.getElem?_append_right (Nat.le_refl _), Nat.sub_self]
    rfl
  have herase : self.allWrites.eraseIdx earlier.length = earlier ++ later := by
    rw [hsplit, List.eraseIdx_append_of_length_le (Nat.le_refl _), Nat.sub_self]
    rfl
  unfold removeWriteId at hstep
  simp only [hindex, hget, herase] at hstep
  cases hvisible : removed.visible with
  | false =>
    simp only [hvisible, Bool.false_eq_true, ↓reduceIte, Bool.not_false, Except.ok.injEq,
      Prod.mk.injEq] at hstep
    obtain ⟨rfl, rfl⟩ := hstep
    exact ⟨rfl, rfl, .inl ⟨rfl, rfl⟩⟩
  | true =>
    simp only [hvisible, ↓reduceIte] at hstep
    cases hloop : removeWriteId.loop removed earlier.length (earlier ++ later).zipIdx.reverse false
    with
    | mk wasVisible overlaps =>
      rw [hloop] at hstep
      cases wasVisible with
      | false =>
        simp only [Bool.not_false, ↓reduceIte, Except.ok.injEq, Prod.mk.injEq] at hstep
        obtain ⟨rfl, rfl⟩ := hstep
        exact ⟨rfl, rfl, .inr (.inl ⟨rfl, rfl, rfl⟩)⟩
      | true =>
        cases overlaps with
        | true =>
          simp only [Bool.not_true, Bool.false_eq_true, ↓reduceIte, Except.ok.injEq,
            Prod.mk.injEq] at hstep
          obtain ⟨rfl, rfl⟩ := hstep
          exact ⟨rfl, rfl, .inr (.inr (.inl ⟨rfl, rfl, rfl⟩))⟩
        | false =>
          simp only [Bool.not_true, Bool.false_eq_true, ↓reduceIte] at hstep
          unfold FWriteRecord.writes
          cases hwrite : removed.write with
          | overwrite node =>
            simp only [hwrite, Except.ok.injEq, Prod.mk.injEq] at hstep
            obtain ⟨rfl, rfl⟩ := hstep
            exact ⟨rfl, rfl, .inr (.inr (.inr ⟨rfl, rfl, rfl⟩))⟩
          | merge merge =>
            simp only [hwrite, Except.ok.injEq, Prod.mk.injEq] at hstep
            obtain ⟨rfl, rfl⟩ := hstep
            refine ⟨rfl, rfl, .inr (.inr (.inr ⟨rfl, rfl, ?_⟩))⟩
            unfold removeWrites
            rw [List.map_map, List.foldl_map]
            rfl

section Removals

variable {earlier later : List (FWriteRecord κ N)} {removed : FWriteRecord κ N}

omit [FNode κ N] [LawfulFNode κ N] [LawfulFKeys κ] [FKeys κ] in
theorem apart_of_inTurn (h : InTurn earlier removed later) (hshadowed : ¬ Shadowed later removed)
    (hoverlapped : ¬ Overlapped later removed)
    : ∀ write ∈ removed.writes, ∀ other ∈ pendingWrites later, FPath.Apart write.1 other.1 := by
  intro write hwrite other hother
  have hbelow := FWriteRecord.prefix_of_mem_writes hwrite
  rw [mem_pendingWrites] at hother
  obtain ⟨record, hrecord, hvisible, hother⟩ := hother
  have hstart := FWriteRecord.prefix_of_mem_writes hother
  have hpast : ¬ removed.path <+: other.1 := by
    intro hpast
    cases List.prefix_or_prefix_of_prefix hstart hpast with
    | inl habove =>
      apply h.seen hshadowed hoverlapped
      exact ⟨record, hrecord, hvisible, habove, other, hother, hpast⟩
    | inr hinside => exact hoverlapped ⟨record, hrecord, hvisible, hinside⟩
  constructor
  . intro hpre
    exact hpast (hbelow.trans hpre)
  . intro hpre
    cases List.prefix_or_prefix_of_prefix hpre hbelow with
    | inl hcontains =>
      apply hshadowed
      exact ⟨record, hrecord, hvisible, recordContainsPath_iff.mpr ⟨other, hother, hcontains⟩⟩
    | inr hinside => exact hpast hinside

omit [DecidableEq κ] [FNode κ N] [LawfulFNode κ N] [LawfulFKeys κ] [FKeys κ] in
theorem pendingWrites_of_oldest (holdest : ∀ record ∈ earlier, record.visible = false)
    (hvisible : removed.visible = true)
    : pendingWrites (earlier ++ removed :: later) = removed.writes ++ pendingWrites later := by
  rw [pendingWrites_append, pendingWrites_hidden earlier holdest, List.nil_append]
  unfold pendingWrites
  rw [List.filter_cons_of_pos hvisible, List.flatMap_cons]

theorem layer_of_shadowed (hshadowed : Shadowed later removed)
    : layer (removed.writes ++ pendingWrites later) = layer (pendingWrites later) := by
  apply layer_of_covered
  . intro write hwrite
    exact FWriteRecord.prefix_of_mem_writes hwrite
  . obtain ⟨record, hrecord, hvisible, hcontains⟩ := hshadowed
    obtain ⟨write, hwrite, hpre⟩ := recordContainsPath_iff.mp hcontains
    exact ⟨write, mem_pendingWrites.mpr ⟨record, hrecord, hvisible, hwrite⟩, hpre⟩

theorem removeWriteId_layered {self after : FWriteTree κ N} {answer : Bool} (h : self.Layered)
    (hsplit : self.allWrites = earlier ++ removed :: later)
    (hfirst : ∀ record ∈ earlier, record.writeId ≠ removed.writeId)
    (hturn : removed.visible = true → InTurn earlier removed later)
    (hstep : self.removeWriteId removed.writeId = .ok (answer, after))
    : after.Layered := by
  obtain ⟨hwrites, -, hcases⟩ := removeWriteId_cases hsplit hfirst hstep
  unfold Layered at h ⊢
  rw [hwrites]
  rw [hsplit] at h
  cases hvisible : removed.visible with
  | false =>
    simp only [hvisible, true_and, Bool.false_eq_true, false_and, or_false] at hcases
    rw [hcases, h, pendingWrites_append, pendingWrites_append]
    unfold pendingWrites
    rw [List.filter_cons_of_neg (by simp [hvisible])]
  | true =>
    have holdest := (hturn hvisible).oldest
    rw [pendingWrites_of_oldest holdest hvisible] at h
    have hlater : pendingWrites (earlier ++ later) = pendingWrites later := by
      rw [pendingWrites_append, pendingWrites_hidden earlier holdest, List.nil_append]
    simp only [hvisible, Bool.true_eq_false, false_and, true_and, false_or] at hcases
    have hloop := loop_cases removed later holdest
    cases hloop with
    | inl hshadow =>
      have hsame : after.visibleWrites = self.visibleWrites := by
        cases hcases with
        | inl hkept => exact hkept.right
        | inr hrest =>
          cases hrest with
          | inl hreset => simp [hreset.left] at hshadow
          | inr hremoved => simp [hremoved.left] at hshadow
      rw [hsame, h, hlater]
      exact layer_of_shadowed hshadow.left
    | inr hclear =>
      cases hclear with
      | inl hoverlap =>
        obtain ⟨hshadowed, hoverlapped, hloop⟩ := hoverlap
        simp only [hloop, Bool.true_eq_false, false_and, true_and, false_or, Prod.mk.injEq,
          and_false, or_false] at hcases
        have hall := (hturn hvisible).rebuilt hshadowed hoverlapped
        rw [hcases, layerTreeFromWrites_eq, pendingWrites_visible _ hall]
      | inr hapart =>
        obtain ⟨hshadowed, hoverlapped, hloop⟩ := hapart
        simp only [hloop, Bool.true_eq_false, false_and, true_and, false_or, Prod.mk.injEq,
          Bool.false_eq_true, and_false] at hcases
        rw [hcases, h, hlater]
        apply removeWrites_layer
        exact apart_of_inTurn (hturn hvisible) hshadowed hoverlapped

end Removals

omit [LawfulFNode κ N] [LawfulFKeys κ] in
theorem exists_split_of_removeWriteId {self : FWriteTree κ N} {writeId : Int}
    {answer : Bool × FWriteTree κ N} (hstep : self.removeWriteId writeId = .ok answer)
    : ∃ earlier removed later, self.allWrites = earlier ++ removed :: later
        ∧ removed.writeId = writeId ∧ ∀ record ∈ earlier, record.writeId ≠ writeId := by
  cases hindex : self.allWrites.findIdx? (fun record => record.writeId = writeId) with
  | none =>
    unfold removeWriteId at hstep
    simp [hindex] at hstep
  | some index =>
    rw [List.findIdx?_eq_some_iff_getElem] at hindex
    obtain ⟨hlength, hid, hbefore⟩ := hindex
    refine ⟨self.allWrites.take index, self.allWrites[index], self.allWrites.drop (index + 1),
      ?_, ?_, ?_⟩
    . rw [List.getElem_cons_drop, List.take_append_drop]
    . simpa using hid
    . intro record hrecord
      obtain ⟨i, hi, rfl⟩ := List.mem_take_iff_getElem.mp hrecord
      have hne := hbefore i (by omega)
      simpa using hne

omit [LawfulFKeys κ] [LawfulFNode κ N] in
theorem exception_of_removeWriteId {self : FWriteTree κ N} {writeId : Int} {exception : NSException}
    (h : self.removeWriteId writeId = .error exception) : exception = .nonexistentWriteId := by
  unfold removeWriteId at h
  split at h
  . cases h
    rfl
  . split at h
    . cases h
      rfl
    . dsimp only at h
      split at h
      . split at h
        . cases h
        . split at h
          . cases h
          . split at h
            . cases h
            . cases h
      . simp at h

theorem step_layered {self after : FWriteTree κ N} (h : self.Layered) {event : FWriteEvent κ N}
    (horderly : self.Orderly event) (hstep : step self event = .ok after)
    : after.Layered := by
  cases event with
  | overwrite path newData writeId visible => exact addOverwriteAtPath_layered h hstep
  | merge path changedChildren writeId => exact addMergeAtPath_layered h hstep
  | remove writeId =>
    simp only [step] at hstep
    cases hremove : self.removeWriteId writeId with
    | error exception => simp only [hremove, Except.map, reduceCtorEq] at hstep
    | ok answer =>
      simp only [hremove, Except.map, Except.ok.injEq] at hstep
      subst hstep
      obtain ⟨earlier, removed, later, hsplit, rfl, hfirst⟩ := exists_split_of_removeWriteId hremove
      apply removeWriteId_layered h hsplit hfirst
      . exact horderly earlier removed later hsplit rfl hfirst
      . exact hremove

/--
In every run that removes visible writes in their turn, the tree that is kept up to date write by
write is the one that a fresh client would make of the pending writes.
-/
theorem visibleWrites_of_orderly_run {events : List (FWriteEvent κ N)} {final : FWriteTree κ N}
    (horderly : Transition.Meets step Orderly {} events)
    (hrun : Transition.run step {} events = .ok final)
    : final.visibleWrites = layer (pendingWrites final.allWrites) := by
  apply Transition.run_keeps step (I := fun self => self.Layered) _ _ horderly hrun
  . intro self event after h hevent hstep
    exact step_layered h hevent hstep
  . rfl

section Reference

def referenceRecord : FWriteRecord (FChildKey .ascii) (FSnapshot (FChildKey .ascii) Nat) where
  writeId := 2
  path := [.reference, .reference]
  write := .overwrite (.leafNode 2 .emptyNode)
  visible := true

def referenceEvents : List (FWriteEvent (FChildKey .ascii) (FSnapshot (FChildKey .ascii) Nat)) :=
  [.overwrite [.reference] (.leafNode 1 .emptyNode) 1 true,
    .overwrite referenceRecord.path (.leafNode 2 .emptyNode) 2 true, .remove 1]

theorem exists_run_referenceEvents
    : ∃ final, Transition.run step {} referenceEvents = .ok final
        ∧ final.allWrites = [referenceRecord] := by
  apply Transition.exists_run_of_observe step (fun final => final.allWrites)
  rfl

theorem orderly_referenceEvents
    : Transition.Meets step Orderly {} referenceEvents := by
  unfold referenceEvents
  rw [Transition.meets_cons]
  intro first hfirst
  injection hfirst with hfirst
  subst hfirst
  refine ⟨trivial, ?_⟩
  rw [Transition.meets_cons]
  intro second hsecond
  injection hsecond with hsecond
  subst hsecond
  refine ⟨trivial, ?_⟩
  rw [Transition.meets_cons]
  intro third _
  refine ⟨?_, Transition.meets_nil _ _ _⟩
  intro earlier removed later hsplit _ hearlier _
  cases earlier with
  | cons record earlier =>
    injection hsplit with hrecord _
    subst hrecord
    exact absurd rfl (hearlier _ List.mem_cons_self)
  | nil =>
    injection hsplit with hremoved hlater
    subst hremoved hlater
    constructor
    . intro record hrecord
      cases hrecord
    . intro _ _ record hrecord
      have hlast : record = referenceRecord := List.mem_singleton.mp hrecord
      rw [hlast]
      rfl
    . intro _ hoverlapped
      apply absurd _ hoverlapped
      exact ⟨referenceRecord, List.mem_cons_self, rfl, List.prefix_append _ _⟩

theorem visibleWrites_of_orderly_run_nested
    : ∃ final, Transition.run step {} referenceEvents = .ok final
        ∧ final.visibleWrites = layer (pendingWrites final.allWrites) := by
  obtain ⟨final, hrun, -⟩ := exists_run_referenceEvents
  exact ⟨final, hrun, visibleWrites_of_orderly_run orderly_referenceEvents hrun⟩

end Reference

end FWriteTree
