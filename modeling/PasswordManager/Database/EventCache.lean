import PasswordManager.Database.AppliedWrites
import PasswordManager.Database.PendingWrites

/-!
This module contains what a client raises events for at a path: the data of the server with all
pending writes carried out on it.
-/

namespace FCompoundWrite

open FImmutableTree FSnapshot FKeys Std

variable {κ ν : Type} [DecidableEq κ] [FKeys κ] {self : FCompoundWrite κ (FSnapshot κ ν)}
variable {base result : PathMap κ ν} {path : FPath κ}

theorem wellFormed_applyToNode [LawfulFKeys κ] (h : self.Applied base result)
    {node : FSnapshot κ ν} (hnode : node.WellFormed) : (self.applyToNode node).WellFormed := by
  unfold applyToNode
  rw [applySubtreeWrite_eq h.wellFormed]
  . apply wellFormed_updates hnode
    intro call hcall
    exact h.nodes call.1 call.2 ((mem_forEach_iff h.wellFormed).mp hcall)
  . intro path hvalue
    obtain ⟨found, hfound⟩ := Option.ne_none_iff_exists'.mp hvalue
    exact (h.nodes path found hfound).left

theorem completeNodeAtPath_eq_none (h : self.WellFormed)
    (hnone : self.completeNodeAtPath path = none)
    : ∀ r, r <+: path → self.valueAt r = none := by
  unfold completeNodeAtPath at hnone
  cases hroot : self.writeTree.findRootMostValueAndPath path with
  | none => exact (findRootMost_eq_none_iff h).mp hroot
  | some rootMost => simp [hroot] at hnone

theorem Applied.completeNodeAtPath (h : self.Applied base result) (hplain : Plain path)
    {node : FSnapshot κ ν} (hnode : self.completeNodeAtPath path = some node)
    : node.WellFormed ∧ node.leaves = result.below path := by
  unfold FCompoundWrite.completeNodeAtPath at hnode
  cases hroot : self.writeTree.findRootMostValueAndPath path with
  | none => simp [hroot] at hnode
  | some rootMost =>
    obtain ⟨r, value⟩ := rootMost
    simp only [hroot, Option.some.injEq] at hnode
    subst hnode
    obtain ⟨hpre, hvalue⟩ := (findRootMost_eq_some_iff h.wellFormed).mp hroot
    obtain ⟨rest, rfl⟩ := hpre
    rw [List.drop_left]
    have hrest := hplain.right
    have hfound := h.nodes r value hvalue
    have hwritten : self.written r = some value.leaves := by
      unfold written valueAt
      rw [hvalue]
      rfl
    constructor
    . exact wellFormed_getChild hfound.right hrest
    . rw [h.overlay.below_inside hwritten]
      exact leaves_getChild value hrest

theorem Applied.childCompoundWriteAtPath (h : self.Applied base result)
    (hnone : self.completeNodeAtPath path = none)
    : (self.childCompoundWriteAtPath path).Applied (base.below path)
        (result.below path) := by
  have hclear := completeNodeAtPath_eq_none h.wellFormed hnone
  have htree : self.childCompoundWriteAtPath path
      =
    { writeTree := .subtreeAtPath path self.writeTree } := by
    unfold FCompoundWrite.childCompoundWriteAtPath
    split
    . next hempty =>
      rw [List.isEmpty_iff] at hempty
      subst hempty
      rfl
    . rw [hnone]
  have hvalues : ∀ rest, (self.childCompoundWriteAtPath path).valueAt rest
      =
    self.valueAt (path ++ rest) := by
    intro rest
    rw [htree]
    unfold valueAt
    apply valueAtPath_subtreeAtPath
  constructor
  . rw [htree]
    exact WellFormed.subtreeAtPath h.wellFormed path
  . intro rest node hvalue
    rw [hvalues] at hvalue
    have hfound := h.nodes (path ++ rest) node hvalue
    exact ⟨hfound.left.right, hfound.right⟩
  . have hwritten : written (self.childCompoundWriteAtPath path)
        =
      fun rest => self.written (path ++ rest) := by
      funext rest
      unfold written
      rw [hvalues]
    rw [hwritten]
    apply h.overlay.below
    intro r hr
    unfold written
    rw [hclear r hr]
    rfl

omit [DecidableEq κ] in
theorem Applied.eq_of_isEmpty (h : self.Applied base result) (hempty : self.isEmpty = true)
    : result = base := by
  have htree : self = emptyWrite := by
    cases self with
    | mk tree =>
      have htree : tree = FImmutableTree.empty := FImmutableTree.isEmpty_iff.mp hempty
      rw [htree]
      rfl
  subst htree
  exact h.overlay.unique (applied_emptyWrite base).overlay

end FCompoundWrite

namespace FWriteTree

open FCompoundWrite FSnapshot FKeys Std

variable {κ ν : Type} [DecidableEq κ] [FKeys κ] [LawfulFKeys κ]
variable {self : FWriteTree κ (FSnapshot κ ν)} {base result : PathMap κ ν}

theorem calculateCompleteEventCacheAtPath_leaves (h : self.visibleWrites.Applied base result)
    {treePath : FPath κ} (hplain : Plain treePath) {server : FSnapshot κ ν}
    (hserver : server.WellFormed) (hbase : server.leaves = base.below treePath)
    : ∃ node, self.calculateCompleteEventCacheAtPath treePath (some server) none false
          = some node
        ∧ node.WellFormed ∧ node.leaves = result.below treePath := by
  unfold calculateCompleteEventCacheAtPath
  rw [if_pos (by simp)]
  cases hnode : self.visibleWrites.completeNodeAtPath treePath with
  | some node => exact ⟨node, rfl, h.completeNodeAtPath hplain hnode⟩
  | none =>
    have hchild := h.childCompoundWriteAtPath hnode
    dsimp only
    split
    . next hempty => exact ⟨server, rfl, hserver, by rw [hchild.eq_of_isEmpty hempty, hbase]⟩
    . simp only [Option.isNone_some, Bool.false_eq_true, false_and, ↓reduceIte, Option.getD_some,
        Option.some.injEq, exists_eq_left']
      rw [← hbase] at hchild
      exact ⟨wellFormed_applyToNode hchild hserver, hchild.leaves_applyToNode hserver⟩

/--
After every orderly run, the cache of events at a path is what the server will have there once it has
carried out the pending writes in their order.
-/
theorem eventCache_of_orderly_run {events : List (FWriteEvent κ (FSnapshot κ ν))}
    {final : FWriteTree κ (FSnapshot κ ν)}
    (horderly : Transition.Meets step Orderly {} events)
    (hrun : Transition.run step {} events = .ok final)
    {server : FSnapshot κ ν} (hserver : server.WellFormed)
    (hwritable : ∀ write ∈ pendingWrites final.allWrites, Writable server write)
    {treePath : FPath κ} (hplain : Plain treePath)
    : ∃ node, final.calculateCompleteEventCacheAtPath treePath
          (some (server.getChild treePath)) none false = some node
        ∧ node.leaves
          = (((pendingWrites final.allWrites).foldl
              (fun node write => node.updateChild write.1 write.2)
              server).getChild treePath).leaves := by
  have happlied := applied_layer (pendingWrites final.allWrites) hwritable
  have hlayered : final.Layered := by
    apply Transition.run_keeps step (I := fun self => self.Layered)
      _ _ horderly hrun
    . intro self event after h hevent hstep
      exact step_layered h hevent hstep
    . rfl
  rw [← hlayered] at happlied
  obtain ⟨node, hnode, -, hleaves⟩ := calculateCompleteEventCacheAtPath_leaves happlied hplain
    (wellFormed_getChild hserver hplain) (leaves_getChild server hplain)
  refine ⟨node, hnode, ?_⟩
  rw [hleaves, leaves_getChild _ hplain, leaves_updates hserver]
  intro write hwrite
  exact ⟨(hwritable write hwrite).plain, (hwritable write hwrite).wellFormed⟩

theorem eventCache_of_orderly_run_nested
    : ∃ final, Transition.run step {} referenceEvents = .ok final
        ∧ ∃ node, final.calculateCompleteEventCacheAtPath [.reference]
              (some ((emptyNode : FSnapshot (FChildKey .ascii) Nat).getChild [.reference])) none false
                = some node
            ∧ node.leaves
              = (((pendingWrites final.allWrites).foldl
                  (fun node write => node.updateChild write.1 write.2) emptyNode).getChild
                  [.reference]).leaves := by
  obtain ⟨final, hrun, hwrites⟩ := exists_run_referenceEvents
  have hplain : Plain [FChildKey.reference] := by decide
  refine ⟨final, hrun, ?_⟩
  apply eventCache_of_orderly_run orderly_referenceEvents hrun wellFormed_emptyNode _ hplain
  intro write hwrite
  rw [hwrites] at hwrite
  have heq : write = (referenceRecord.path, .leafNode 2 .emptyNode) := List.mem_singleton.mp hwrite
  subst heq
  constructor
  . decide
  . exact .leaf 2 .emptyNode
  . intro _ q _ _
    apply leaves_emptyNode

end FWriteTree
