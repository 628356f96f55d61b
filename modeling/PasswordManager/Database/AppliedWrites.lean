import PasswordManager.Database.FSnapshotLemmas
import PasswordManager.Database.Layering

/-!
This module contains what is left of a node when the writes to several places are applied to it: the
same as when the single writes that they come from are carried out on it one after the other.
-/

namespace FCompoundWrite

open FImmutableTree SortedEntries Std FKeys

section Calls

variable {κ N : Type} [DecidableEq κ] [FNode κ N] [FKeys κ] [LawfulFKeys κ]

omit [LawfulFKeys κ] [FKeys κ] in
theorem applyChildren_eq {children : List (κ × FImmutableTree κ N)}
    (hplain : ∀ entry ∈ children, entry.1 ≠ FNode.priorityKey N) (relativePath : FPath κ) (node : N)
    (priorityWrite : Option N)
    : applyChildren relativePath children (node, priorityWrite)
        =
      (children.foldl
        (fun node entry => applySubtreeWrite (relativePath ++ [entry.1]) entry.2 node) node,
        priorityWrite) := by
  induction children generalizing node with
  | nil => rfl
  | cons entry children ih =>
    rw [applyChildren_cons, if_neg (hplain entry List.mem_cons_self)]
    apply ih
    intro entry hentry
    exact hplain entry (List.mem_cons_of_mem _ hentry)

theorem applySubtreeWrite_eq {self : FImmutableTree κ N} (h : self.WellFormed)
    (hplain : ∀ path, valueAtPath path self ≠ none → ∀ piece ∈ path, piece ≠ FNode.priorityKey N)
    (relativePath : FPath κ) (node : N)
    : applySubtreeWrite relativePath self node
        =
      (forEachPathSoFar relativePath self).foldl
        (fun node call => FNode.updateChild node call.1 call.2) node := by
  induction h generalizing relativePath node with
  | value value => rfl
  | inner children sorted wellFormed nonempty ih =>
    have hlookup : ∀ entry ∈ children, lookup stringComparator entry.1 children = some entry.2 := by
      intro entry hentry
      rw [lookup_eq_some_iff sorted]
      exact ⟨entry, hentry, ReflCmp.compare_self, rfl⟩
    have hvalues : ∀ entry ∈ children, ∀ path,
        valueAtPath (entry.1 :: path) (.node none children) = valueAtPath path entry.2 := by
      intro entry hentry path
      rw [valueAtPath_cons, children_node, hlookup entry hentry]
      rfl
    have hkeys : ∀ entry ∈ children, entry.1 ≠ FNode.priorityKey N := by
      intro entry hentry
      obtain ⟨path, value, hvalue⟩ := (wellFormed entry hentry).exists_value (nonempty entry hentry)
      apply hplain (entry.1 :: path) _ entry.1 List.mem_cons_self
      rw [hvalues entry hentry, hvalue]
      simp
    have hbelow : ∀ entry ∈ children, ∀ path, valueAtPath path entry.2 ≠ none
        → ∀ piece ∈ path, piece ≠ FNode.priorityKey N := by
      intro entry hentry path hvalue piece hpiece
      apply hplain (entry.1 :: path) _ piece (List.mem_cons_of_mem _ hpiece)
      rwa [hvalues entry hentry]
    have hcalls : forEachPathSoFar relativePath (.node none children)
        =
      children.flatMap (fun entry => forEachPathSoFar (relativePath ++ [entry.1]) entry.2) := by
      conv_lhs => unfold forEachPathSoFar
      rw [enumerateChildren_eq]
      simp
    rw [hcalls, List.foldl_flatMap, applySubtreeWrite_of_children (applyChildren_eq hkeys _ _ _)]
    apply List.foldl_ext
    intro node entry hentry
    exact ih entry hentry (hbelow entry hentry) (relativePath ++ [entry.1]) node

end Calls

section Snapshots

open FSnapshot

variable {κ ν : Type} [DecidableEq κ] [FKeys κ]

def written (self : FCompoundWrite κ (FSnapshot κ ν)) : List κ → Option (PathMap κ ν) :=
  fun path => (self.valueAt path).map (fun node => node.leaves)

def overwrites (writes : List (FPath κ × FSnapshot κ ν)) : List (List κ × PathMap κ ν) :=
  writes.map (fun write => (write.1, write.2.leaves))

structure Writable (node : FSnapshot κ ν) (write : FPath κ × FSnapshot κ ν) : Prop where
  plain : Plain write.1
  wellFormed : write.2.WellFormed
  removable : node.leaves.Removable write.1 write.2.leaves

structure Applied (writes : FCompoundWrite κ (FSnapshot κ ν)) (base result : PathMap κ ν)
    : Prop where
  wellFormed : writes.WellFormed
  nodes : ∀ path node, writes.valueAt path = some node
    → Plain path ∧ node.WellFormed
  overlay : PathMap.IsOverlay writes.written base result

variable [LawfulFKeys κ]
variable {self : FCompoundWrite κ (FSnapshot κ ν)} {base result : PathMap κ ν}

omit [DecidableEq κ] [LawfulFKeys κ] in
theorem prefixFree_written (h : self.WellFormed) : PathMap.PrefixFree self.written := by
  intro p r hp hr hpre
  unfold written at hp hr
  cases hfirst : self.valueAt p with
  | none => simp [hfirst] at hp
  | some first =>
    cases hsecond : self.valueAt r with
    | none => simp [hsecond] at hr
    | some second => exact h.eq_of_prefix hpre hfirst hsecond

theorem Applied.addWrite (h : self.Applied base result) {path : FPath κ} {node : FSnapshot κ ν}
    (hplain : Plain path) (hnode : node.WellFormed)
    (hremovable : base.Removable path node.leaves)
    : (self.addWrite node path).Applied base (result.overwrite path node.leaves) := by
  by_cases hfree : ∀ r, r <+: path → r ≠ path → self.valueAt r = none
  . obtain ⟨hwellFormed, hinside, houtside⟩ := addWrite_cover h.wellFormed hfree node
    constructor
    . exact hwellFormed
    . intro q found hfound
      by_cases hq : path <+: q
      . obtain ⟨rest, rfl⟩ := hq
        rw [hinside] at hfound
        cases rest with
        | nil =>
          rw [List.append_nil]
          cases hfound
          exact ⟨hplain, hnode⟩
        | cons front rest => cases hfound
      . rw [houtside q hq] at hfound
        exact h.nodes q found hfound
    . apply h.overlay.overwrite_cover
      . intro r hr hne
        unfold written
        rw [hfree r hr hne]
        rfl
      . exact hremovable
      . have hself := hinside []
        rw [List.append_nil] at hself
        unfold written
        rw [hself]
        rfl
      . intro q hq hne
        obtain ⟨rest, rfl⟩ := hq
        unfold written
        rw [hinside]
        cases rest with
        | nil => exact absurd (List.append_nil path) hne
        | cons front rest => rfl
      . intro q hq
        unfold written
        rw [houtside q hq]
  . simp only [not_forall] at hfree
    obtain ⟨r, hr, -, hvalue⟩ := hfree
    obtain ⟨value, hvalue⟩ := Option.ne_none_iff_exists'.mp hvalue
    obtain ⟨hwellFormed, hvalues⟩ := addWrite_below h.wellFormed hr hvalue node
    obtain ⟨rest, rfl⟩ := hr
    rw [List.drop_left] at hvalues
    have hrest := hplain.right
    have hfound := h.nodes r value hvalue
    constructor
    . exact hwellFormed
    . intro q found
      rw [hvalues]
      split
      . next heq =>
        intro hsome
        cases hsome
        subst heq
        exact ⟨hfound.left, wellFormed_updateChild hfound.right hnode hrest⟩
      . exact h.nodes q found
    . apply h.overlay.overwrite_inside (prefixFree_written h.wellFormed)
      . unfold written
        rw [hvalue]
        rfl
      . exact hremovable
      . unfold written
        rw [hvalues, if_pos rfl, Option.map_some]
        exact congrArg some (leaves_updateChild hfound.right hnode hrest)
      . intro q hq
        unfold written
        rw [hvalues, if_neg hq]

omit [DecidableEq κ] [LawfulFKeys κ] in
theorem applied_emptyWrite (base : PathMap κ ν)
    : (emptyWrite : FCompoundWrite κ (FSnapshot κ ν)).Applied base base where
  wellFormed := wellFormed_emptyWrite
  nodes path node hvalue := by simp at hvalue
  overlay := by
    have hnone : written (emptyWrite : FCompoundWrite κ (FSnapshot κ ν)) = fun _ => none := by
      funext path
      unfold written
      rw [valueAt_emptyWrite]
      rfl
    rw [hnone]
    exact PathMap.isOverlay_none base

theorem applied_layer {node : FSnapshot κ ν} (writes : List (FPath κ × FSnapshot κ ν))
    (h : ∀ write ∈ writes, Writable node write)
    : (layer writes).Applied node.leaves
        (node.leaves.overwriteAll (overwrites writes)) := by
  induction writes using List.reverseRecOn with
  | nil => exact applied_emptyWrite node.leaves
  | append_singleton writes write ih =>
    have hwrite := h write (List.mem_append_right _ List.mem_cons_self)
    have hlayer : layer (writes ++ [write])
        =
      (layer writes).addWrite write.2 write.1 := by
      unfold layer
      rw [addWrites_append]
      rfl
    have hmap : node.leaves.overwriteAll (overwrites (writes ++ [write]))
        =
      (node.leaves.overwriteAll (overwrites writes)).overwrite write.1 write.2.leaves := by
      unfold overwrites
      rw [List.map_append]
      apply PathMap.overwriteAll_concat
    rw [hlayer, hmap]
    apply Applied.addWrite
    . apply ih
      intro other hother
      exact h other (List.mem_append_left _ hother)
    . exact hwrite.plain
    . exact hwrite.wellFormed
    . exact hwrite.removable

theorem wellFormed_updates {node : FSnapshot κ ν} (hnode : node.WellFormed)
    {writes : List (FPath κ × FSnapshot κ ν)}
    (h : ∀ write ∈ writes, Plain write.1 ∧ write.2.WellFormed)
    : (writes.foldl (fun node write => node.updateChild write.1 write.2) node).WellFormed := by
  induction writes generalizing node with
  | nil => exact hnode
  | cons write writes ih =>
    have hwrite := h write List.mem_cons_self
    apply ih
    . exact wellFormed_updateChild hnode hwrite.right hwrite.left
    . intro other hother
      exact h other (List.mem_cons_of_mem _ hother)

theorem leaves_updates {node : FSnapshot κ ν} (hnode : node.WellFormed)
    {writes : List (FPath κ × FSnapshot κ ν)}
    (h : ∀ write ∈ writes, Plain write.1 ∧ write.2.WellFormed)
    : (writes.foldl (fun node write => node.updateChild write.1 write.2) node).leaves
        =
      node.leaves.overwriteAll (overwrites writes) := by
  induction writes generalizing node with
  | nil => rfl
  | cons write writes ih =>
    have hwrite := h write List.mem_cons_self
    rw [List.foldl_cons, ih]
    . rw [leaves_updateChild hnode hwrite.right hwrite.left]
      rfl
    . exact wellFormed_updateChild hnode hwrite.right hwrite.left
    . intro other hother
      exact h other (List.mem_cons_of_mem _ hother)

theorem Applied.leaves_applyToNode {node : FSnapshot κ ν} (h : self.Applied node.leaves result)
    (hnode : node.WellFormed) : (self.applyToNode node).leaves = result := by
  have hcalls : ∀ call ∈ self.writeTree.forEach, Plain call.1 ∧ call.2.WellFormed := by
    intro call hcall
    exact h.nodes call.1 call.2 ((mem_forEach_iff h.wellFormed).mp hcall)
  unfold applyToNode
  rw [applySubtreeWrite_eq h.wellFormed]
  . have hleaves := leaves_updates hnode hcalls
    apply Eq.trans hleaves
    refine PathMap.IsOverlay.unique ?_ h.overlay
    apply PathMap.isOverlay_overwriteAll
    . intro path value
      unfold written overwrites
      rw [Option.map_eq_some_iff, List.mem_map]
      constructor
      . intro hvalue
        obtain ⟨found, hfound, rfl⟩ := hvalue
        exact ⟨(path, found), (mem_forEach_iff h.wellFormed).mpr hfound, rfl⟩
      . intro hvalue
        obtain ⟨call, hcall, heq⟩ := hvalue
        cases heq
        exact ⟨call.2, (mem_forEach_iff h.wellFormed).mp hcall, rfl⟩
    . exact prefixFree_written h.wellFormed
  . intro path hvalue
    obtain ⟨found, hfound⟩ := Option.ne_none_iff_exists'.mp hvalue
    exact (h.nodes path found hfound).left

/--
To apply the tree of the visible writes at once is to carry the writes out one after the other.
-/
theorem applyToNode_layer {node : FSnapshot κ ν} (hnode : node.WellFormed)
    {writes : List (FPath κ × FSnapshot κ ν)} (h : ∀ write ∈ writes, Writable node write)
    : ((layer writes).applyToNode node).leaves
        =
      (writes.foldl (fun node write => node.updateChild write.1 write.2) node).leaves := by
  rw [(applied_layer writes h).leaves_applyToNode hnode, leaves_updates hnode]
  intro write hwrite
  exact ⟨(h write hwrite).plain, (h write hwrite).wellFormed⟩

theorem applyToNode_layer_removal
    : let writes : List (FPath (FChildKey .ascii) × FSnapshot (FChildKey .ascii) Nat) :=
        [([.reference], .leafNode 1 .emptyNode), ([.reference, .reference], .leafNode 2 .emptyNode),
          ([.reference, .reference], .emptyNode)]
      ((layer writes).applyToNode emptyNode).leaves
          =
        (writes.foldl (fun node write => node.updateChild write.1 write.2) emptyNode).leaves := by
  apply applyToNode_layer wellFormed_emptyNode
  intro write hwrite
  constructor
  . have hplain : ∀ write ∈ [([FChildKey.reference], leafNode 1 emptyNode),
        ([.reference, .reference], leafNode 2 emptyNode), ([.reference, .reference], emptyNode)],
        Plain (write : FPath (FChildKey .ascii) × FSnapshot (FChildKey .ascii) Nat).1 := by
      decide
    exact hplain write hwrite
  . simp only [List.mem_cons, List.not_mem_nil, or_false] at hwrite
    cases hwrite with
    | inl heq => exact heq ▸ .leaf 1 emptyNode
    | inr hwrite =>
      cases hwrite with
      | inl heq => exact heq ▸ .leaf 2 emptyNode
      | inr heq => exact heq ▸ wellFormed_emptyNode
  . intro _ q _ _
    apply leaves_emptyNode

end Snapshots

end FCompoundWrite
