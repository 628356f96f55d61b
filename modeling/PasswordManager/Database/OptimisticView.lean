import PasswordManager.Database.SyncSteps

/-!
This module contains the database as a client should show it: the data of the server with the writes
carried out on it that the server has not answered yet. The view of a listener follows it.
-/

open FKeys FSnapshot FCompoundWrite FWriteTree Std

variable {κ ν : Type} [DecidableEq κ] [FKeys κ]

structure OptimisticDatabase (κ ν : Type) where
  server : FSnapshot κ ν
  -- the writes without an answer, in the order in which they were made
  pending : List (FWriteRecord κ (FSnapshot κ ν))

namespace OptimisticDatabase

def step (self : OptimisticDatabase κ ν) : FSyncEvent κ ν → OptimisticDatabase κ ν
  | .userOverwrite path newData writeId visible =>
    let record : FWriteRecord κ (FSnapshot κ ν) :=
      { writeId, path, write := .overwrite newData, visible }
    { self with pending := self.pending ++ [record] }
  | .userMerge path changedChildren writeId =>
    let record : FWriteRecord κ (FSnapshot κ ν) :=
      { writeId, path, write := .merge changedChildren, visible := true }
    { self with pending := self.pending ++ [record] }
  | .ackUserWrite writeId _ =>
    { self with pending := self.pending.eraseP (fun record => record.writeId = writeId) }
  | .serverOverwrite path newData => { self with server := self.server.updateChild path newData }
  | .serverMerge path changedChildren =>
    { self with
      server := changedChildren.writeTree.forEach.foldl
        (fun server call => server.updateChild (path ++ call.1) call.2) self.server }

/--
What the server will have once it has carried out the pending writes that events are raised for.
-/
def expected (self : OptimisticDatabase κ ν) : FSnapshot κ ν :=
  (pendingWrites self.pending).foldl (fun node write => node.updateChild write.1 write.2) self.server

noncomputable def events (self : OptimisticDatabase κ ν) : PathMap κ ν :=
  self.server.leaves.overwriteAll (overwrites (pendingWrites self.pending))

/--
The writes set a node at a path. The server does not put a leaf above the path of a pending removal,
and takes the leaf above the path of another write away before it acknowledges the write. The answers
come in turn.
-/
def Allowed (self : OptimisticDatabase κ ν) : FSyncEvent κ ν → Prop
  | .userOverwrite path newData _ visible => visible = true → Writable self.server (path, newData)
  | .userMerge _ _ _ => False
  | .ackUserWrite writeId revert =>
    ∀ earlier removed later, self.pending = earlier ++ removed :: later → removed.writeId = writeId
      → (∀ record ∈ earlier, record.writeId ≠ writeId) → removed.visible = true
      → InTurn earlier removed later
        ∧ (revert = false
          → ∀ q, q <+: removed.path → q ≠ removed.path → self.server.leaves q = none)
  | .serverOverwrite path newData => Plain path ∧ newData.WellFormed
    ∧ ∀ write ∈ pendingWrites self.pending, Writable (self.server.updateChild path newData) write
  | .serverMerge _ _ => False

structure Keeps (db : OptimisticDatabase κ ν) (tree : FWriteTree κ (FSnapshot κ ν)) : Prop where
  pending : tree.allWrites = db.pending
  layered : tree.Layered
  overwrites : ∀ record ∈ db.pending, ∃ node, record.write = .overwrite node
  server : db.server.WellFormed
  writable : ∀ write ∈ pendingWrites db.pending, Writable db.server write

variable {self : OptimisticDatabase κ ν} {tree : FWriteTree κ (FSnapshot κ ν)}
variable [LawfulFKeys κ]

theorem Keeps.leaves_expected (h : self.Keeps tree) : self.expected.leaves = self.events := by
  apply leaves_updates h.server
  intro write hwrite
  exact ⟨(h.writable write hwrite).plain, (h.writable write hwrite).wellFormed⟩

theorem Keeps.discrete_events (h : self.Keeps tree) : self.events.Discrete := by
  rw [← h.leaves_expected]
  exact discrete_leaves self.expected

omit [LawfulFKeys κ] in
theorem Keeps.visibleWrites (h : self.Keeps tree)
    : tree.visibleWrites = layer (pendingWrites self.pending) := by
  rw [← h.pending]
  exact h.layered

theorem Keeps.applied (h : self.Keeps tree)
    : tree.visibleWrites.Applied self.server.leaves self.events := by
  rw [h.visibleWrites]
  exact applied_layer (pendingWrites self.pending) h.writable

omit [DecidableEq κ] [LawfulFKeys κ] in
theorem removable_overwrites {server : FSnapshot κ ν} {writes : List (FPath κ × FSnapshot κ ν)}
    (h : ∀ write ∈ writes, Writable server write)
    : ∀ write ∈ FCompoundWrite.overwrites writes, server.leaves.Removable write.1 write.2 := by
  intro write hwrite
  obtain ⟨original, horiginal, rfl⟩ := List.mem_map.mp hwrite
  exact (h original horiginal).removable

theorem Keeps.exists_write (h : self.Keeps tree) {r : FPath κ}
    (hvalue : tree.visibleWrites.valueAt r ≠ none)
    : ∃ write ∈ FCompoundWrite.overwrites (pendingWrites self.pending), write.1 = r := by
  rw [h.visibleWrites] at hvalue
  obtain ⟨write, hwrite, heq⟩ := exists_write_of_layer hvalue
  exact ⟨_, List.mem_map_of_mem hwrite, heq⟩

end OptimisticDatabase

namespace FSyncTree

structure Moves (tree : FWriteTree κ (FSnapshot κ ν)) (listenPath path : FPath κ)
    (before after : PathMap κ ν) : Prop where
  covered : ∀ r, r <+: path → tree.visibleWrites.valueAt r ≠ none → before = after
  coveredView : ∀ r, r <+: listenPath → tree.visibleWrites.valueAt r ≠ none
    → before.below listenPath = after.below listenPath
  apart : ¬ path <+: listenPath → ¬ listenPath <+: path
    → before.below listenPath = after.below listenPath

variable {tree : FWriteTree κ (FSnapshot κ ν)} {listenPath path : FPath κ}
variable {base before after new : PathMap κ ν}

omit [DecidableEq κ] in
theorem Moves.symm (h : Moves tree listenPath path before after)
    : Moves tree listenPath path after before where
  covered r hr hvalue := (h.covered r hr hvalue).symm
  coveredView r hr hvalue := (h.coveredView r hr hvalue).symm
  apart hbelow habove := (h.apart hbelow habove).symm

omit [DecidableEq κ] in
theorem Moves.shadowed {rest : FPath κ} (h : Moves tree listenPath (listenPath ++ rest) before after)
    (hshadowed : ∃ r, r <+: listenPath ++ rest ∧ tree.visibleWrites.valueAt r ≠ none)
    : before.below listenPath = after.below listenPath := by
  obtain ⟨r, hr, hvalue⟩ := hshadowed
  rw [h.covered r hr hvalue]

omit [DecidableEq κ] in
theorem Moves.shadowedView (h : Moves tree listenPath path before after)
    (hshadowed : ∃ r, r <+: listenPath ++ [] ∧ tree.visibleWrites.valueAt r ≠ none)
    : before.below listenPath = after.below listenPath := by
  obtain ⟨r, hr, hvalue⟩ := hshadowed
  rw [List.append_nil] at hr
  exact h.coveredView r hr hvalue

omit [DecidableEq κ] in
theorem moves_rebase {writes : List (List κ × PathMap κ ν)}
    (hremovable : ∀ write ∈ writes, base.Removable write.1 write.2)
    (hvalues : ∀ r, tree.visibleWrites.valueAt r ≠ none
      → ∃ write ∈ writes, write.1 = r) (listenPath path : FPath κ) (new : PathMap κ ν)
    : Moves tree listenPath path (base.overwriteAll writes)
        ((base.overwrite path new).overwriteAll writes) := by
  constructor
  . intro r hr hvalue
    obtain ⟨write, hwrite, rfl⟩ := hvalues r hvalue
    exact (PathMap.overwriteAll_rebase_covered hremovable hwrite hr).symm
  . intro r hr hvalue
    obtain ⟨write, hwrite, rfl⟩ := hvalues r hvalue
    exact PathMap.overwriteAll_below_of_covered _ _ hwrite hr
  . intro hbelow habove
    exact (PathMap.below_rebase_apart hbelow habove).symm

variable [DecidableEq ν] [LawfulFKeys κ]
variable {self : FSyncTree κ ν} {server : PathMap κ ν} {snap : FSnapshot κ ν}

theorem answers_userOverwrite (h : self.viewCache.Shows server (before.below listenPath))
    (hplain : Plain path) (hlisten : Plain listenPath) (hsnap : snap.WellFormed)
    : Answers listenPath self (.overwrite true path snap) (before.below listenPath) server
        ((before.overwrite path snap.leaves).below listenPath) := by
  by_cases habove : path <+: listenPath
  . obtain ⟨rest, rfl⟩ := habove
    have hrest := hlisten.right
    apply answers_of_tracked h (FOperation.overwrite_above true path hrest snap) rfl
    have hafter : (before.overwrite path snap.leaves).below (path ++ rest)
        =
      (before.below (path ++ rest)).overwrite [] (snap.getChild rest).leaves := by
      rw [PathMap.overwrite_nil, leaves_getChild snap hrest, PathMap.below_overwrite_of_prefix]
    rw [hafter]
    exact FViewProcessor.applyUserOverwriteTo_spec h plain_nil (wellFormed_getChild hsnap hrest)
  . by_cases hbelow : listenPath <+: path
    . obtain ⟨rest, rfl⟩ := hbelow
      apply answers_of_tracked h (FOperation.overwrite_at_or_below true listenPath rest snap) rfl
      rw [PathMap.below_overwrite_append]
      exact FViewProcessor.applyUserOverwriteTo_spec h hplain.right hsnap
    . rw [PathMap.below_overwrite_apart habove hbelow]
      exact answers_of_apart h habove hbelow

variable (happlied : self.pendingWriteTree.visibleWrites.Applied base after)
  (hmoves : Moves self.pendingWriteTree listenPath path before after) (hplain : Plain path)
  (hlisten : Plain listenPath)
include happlied hmoves hplain hlisten

theorem answers_serverOverwrite {old : PathMap κ ν}
    (h : self.viewCache.Shows (old.below listenPath) (before.below listenPath))
    (hbase : base = old.overwrite path snap.leaves) (hsnap : snap.WellFormed)
    (hlocal : before.overwrite path (after.below path) = after)
    : Answers listenPath self (.overwrite false path snap) (before.below listenPath)
        (base.below listenPath) (after.below listenPath) := by
  by_cases habove : path <+: listenPath
  . obtain ⟨rest, rfl⟩ := habove
    have hrest := hlisten.right
    apply answers_of_tracked h (FOperation.overwrite_above false path hrest snap) rfl
    apply FViewProcessor.applyServerOverwriteTo_spec happlied hlisten h plain_nil
      (wellFormed_getChild hsnap hrest)
    . rw [PathMap.overwrite_nil, leaves_getChild snap hrest, hbase,
        PathMap.below_overwrite_of_prefix]
    . rw [PathMap.overwrite_nil, List.append_nil]
    . exact hmoves.shadowedView
  . by_cases hbelow : listenPath <+: path
    . obtain ⟨rest, rfl⟩ := hbelow
      apply answers_of_tracked h (FOperation.overwrite_at_or_below false listenPath rest snap) rfl
      apply FViewProcessor.applyServerOverwriteTo_spec happlied hlisten h hplain.right hsnap
      . rw [hbase, PathMap.below_overwrite_append]
      . rw [← PathMap.below_overwrite_append, hlocal]
      . exact hmoves.shadowed
    . rw [← hmoves.apart habove hbelow, hbase, PathMap.below_overwrite_apart habove hbelow]
      exact answers_of_apart h habove hbelow

variable {affectedTree : FImmutableTree κ Bool} (hvalue : affectedTree.value ≠ none)
  (h : self.viewCache.Shows (base.below listenPath) (before.below listenPath))
include hvalue h

theorem answers_ackUserWrite (hlocal : before.overwrite path (after.below path) = after)
    : Answers listenPath self (.ackUserWrite path affectedTree false) (before.below listenPath)
        (base.below listenPath) (after.below listenPath) := by
  by_cases habove : path <+: listenPath
  . obtain ⟨rest, rfl⟩ := habove
    apply answers_of_tracked h (FOperation.ackUserWrite_above path rest hvalue false) rfl
    apply FViewProcessor.ackUserWriteOn_spec happlied hlisten h plain_nil hvalue
    . rw [PathMap.overwrite_nil, List.append_nil]
    . exact hmoves.shadowedView
  . by_cases hbelow : listenPath <+: path
    . obtain ⟨rest, rfl⟩ := hbelow
      apply answers_of_tracked h
        (FOperation.ackUserWrite_at_or_below listenPath rest affectedTree false) rfl
      apply FViewProcessor.ackUserWriteOn_spec happlied hlisten h hplain.right hvalue
      . rw [← PathMap.below_overwrite_append, hlocal]
      . exact hmoves.shadowed
    . rw [← hmoves.apart habove hbelow]
      exact answers_of_apart h habove hbelow

theorem answers_revert (hsame : before.below path = after.below path → before = after)
    (hchild : ∀ node key rest, path = node ++ key :: rest
      → (before.below node).overwrite [key] (after.below (node ++ [key])) = after.below node
        ∨ ((before.below node).overwrite [key] (after.below (node ++ [key]))).Empty
          ∧ after node ≠ none)
    : Answers listenPath self (.ackUserWrite path affectedTree true) (before.below listenPath)
        (base.below listenPath) (after.below listenPath) := by
  by_cases habove : path <+: listenPath
  . obtain ⟨rest, rfl⟩ := habove
    apply answers_of_tracked h (FOperation.ackUserWrite_above path rest hvalue true) rfl
    apply FViewProcessor.revertUserWriteOn_spec happlied hlisten h plain_nil
    . intro hview
      rw [List.append_nil] at hview
      exact hview
    . intro key rest hcons
      cases hcons
    . exact hmoves.shadowedView
  . by_cases hbelow : listenPath <+: path
    . obtain ⟨rest, rfl⟩ := hbelow
      apply answers_of_tracked h
        (FOperation.ackUserWrite_at_or_below listenPath rest affectedTree true) rfl
      apply FViewProcessor.revertUserWriteOn_spec happlied hlisten h hplain.right
      . intro hview
        rw [PathMap.below_below] at hview
        rw [hsame hview]
      . intro key inside hcons
        apply hchild listenPath key inside
        rw [hcons]
      . exact hmoves.shadowed
    . rw [← hmoves.apart habove hbelow]
      exact answers_of_apart h habove hbelow

end FSyncTree

namespace OptimisticDatabase

variable {self : OptimisticDatabase κ ν} {tree after : FWriteTree κ (FSnapshot κ ν)}
variable {path : FPath κ} {newData : FSnapshot κ ν} {writeId : Int} {visible : Bool}

omit [DecidableEq κ] [FKeys κ] in
theorem pendingWrites_concat (pending : List (FWriteRecord κ (FSnapshot κ ν)))
    : pendingWrites (pending ++ [{ writeId, path, write := .overwrite newData, visible }])
        =
      pendingWrites pending ++ if visible then [(path, newData)] else [] := by
  rw [pendingWrites_append]
  congr 1
  cases visible with
  | false => exact pendingWrites_hidden [_] (by simp)
  | true => exact pendingWrites_visible [_] (by simp)

theorem events_userOverwrite (self : OptimisticDatabase κ ν) (path : FPath κ)
    (newData : FSnapshot κ ν) (writeId : Int) (visible : Bool)
    : (self.step (.userOverwrite path newData writeId visible)).events
        =
      if visible then self.events.overwrite path newData.leaves else self.events := by
  unfold events step
  dsimp only
  rw [pendingWrites_concat]
  cases visible with
  | false => simp
  | true =>
    unfold FCompoundWrite.overwrites
    rw [if_pos rfl, if_pos rfl, List.map_append]
    apply PathMap.overwriteAll_concat

theorem Keeps.userOverwrite (h : self.Keeps tree)
    (hwritable : visible = true → Writable self.server (path, newData))
    (hadd : tree.addOverwriteAtPath path newData writeId visible = .ok after)
    : (self.step (.userOverwrite path newData writeId visible)).Keeps after := by
  constructor
  . unfold addOverwriteAtPath at hadd
    split at hadd
    . cases hadd
      unfold step
      dsimp only
      rw [h.pending]
    . cases hadd
  . exact addOverwriteAtPath_layered h.layered hadd
  . intro record hrecord
    cases List.mem_append.mp hrecord with
    | inl hold => exact h.overwrites record hold
    | inr hnew => exact ⟨newData, by rw [List.mem_singleton.mp hnew]⟩
  . exact h.server
  . intro write hwrite
    unfold step at hwrite
    dsimp only at hwrite
    rw [pendingWrites_concat] at hwrite
    cases List.mem_append.mp hwrite with
    | inl hold => exact h.writable write hold
    | inr hnew =>
      cases visible with
      | false => cases hnew
      | true =>
        have heq : write = (path, newData) := List.mem_singleton.mp hnew
        rw [heq]
        exact hwritable rfl

variable [LawfulFKeys κ]

theorem Keeps.serverOverwrite (h : self.Keeps tree)
    (hallowed : self.Allowed (.serverOverwrite path newData))
    : (self.step (.serverOverwrite path newData)).Keeps tree where
  pending := h.pending
  layered := h.layered
  overwrites := h.overwrites
  server := wellFormed_updateChild h.server hallowed.right.left hallowed.left
  writable := hallowed.right.right

theorem leaves_serverOverwrite (h : self.Keeps tree)
    (hallowed : self.Allowed (.serverOverwrite path newData))
    : (self.step (.serverOverwrite path newData)).server.leaves
        =
      self.server.leaves.overwrite path newData.leaves :=
  leaves_updateChild h.server hallowed.right.left hallowed.left

section Answer

variable {earlier later : List (FWriteRecord κ (FSnapshot κ ν))}
variable {removed : FWriteRecord κ (FSnapshot κ ν)} {answer revert : Bool}

omit [LawfulFKeys κ] in
theorem step_ackUserWrite (hsplit : self.pending = earlier ++ removed :: later)
    (hfirst : ∀ record ∈ earlier, record.writeId ≠ removed.writeId)
    : self.step (.ackUserWrite removed.writeId revert)
        =
      { self with pending := earlier ++ later } := by
  unfold step
  dsimp only
  rw [hsplit, List.eraseP_append_right]
  . simp
  . intro record hrecord
    simpa using hfirst record hrecord

omit [DecidableEq κ] [FKeys κ] [LawfulFKeys κ] in
theorem pendingWrites_sublist (earlier later : List (FWriteRecord κ (FSnapshot κ ν)))
    (removed : FWriteRecord κ (FSnapshot κ ν)) {write : FPath κ × FSnapshot κ ν}
    (h : write ∈ pendingWrites (earlier ++ later))
    : write ∈ pendingWrites (earlier ++ removed :: later) := by
  obtain ⟨record, hrecord, hvisible, hwrite⟩ := mem_pendingWrites.mp h
  apply mem_pendingWrites.mpr
  refine ⟨record, ?_, hvisible, hwrite⟩
  rw [List.mem_append] at hrecord ⊢
  cases hrecord with
  | inl hearlier => exact .inl hearlier
  | inr hlater => exact .inr (List.mem_cons_of_mem removed hlater)

theorem Keeps.ackUserWrite (h : self.Keeps tree) (hsplit : self.pending = earlier ++ removed :: later)
    (hfirst : ∀ record ∈ earlier, record.writeId ≠ removed.writeId)
    (hturn : removed.visible = true → InTurn earlier removed later)
    (hremove : tree.removeWriteId removed.writeId = .ok (answer, after))
    : ({ self with pending := earlier ++ later } : OptimisticDatabase κ ν).Keeps after := by
  have htree : tree.allWrites = earlier ++ removed :: later := by
    rw [h.pending, hsplit]
  constructor
  . exact (removeWriteId_cases htree hfirst hremove).left
  . exact removeWriteId_layered h.layered htree hfirst hturn hremove
  . intro record hrecord
    apply h.overwrites
    rw [hsplit]
    rw [List.mem_append] at hrecord ⊢
    cases hrecord with
    | inl hearlier => exact .inl hearlier
    | inr hlater => exact .inr (List.mem_cons_of_mem removed hlater)
  . exact h.server
  . intro write hwrite
    apply h.writable
    rw [hsplit]
    exact pendingWrites_sublist earlier later removed hwrite

omit [LawfulFKeys κ] in
theorem events_oldest (hsplit : self.pending = earlier ++ removed :: later)
    (hturn : InTurn earlier removed later) (hvisible : removed.visible = true)
    {node : FSnapshot κ ν} (hwrite : removed.write = .overwrite node)
    : self.events
        =
      (self.server.leaves.overwrite removed.path node.leaves).overwriteAll
        (FCompoundWrite.overwrites (pendingWrites (earlier ++ later))) := by
  have hlater : pendingWrites (earlier ++ later) = pendingWrites later := by
    rw [pendingWrites_append, pendingWrites_hidden earlier hturn.oldest, List.nil_append]
  unfold events
  rw [hsplit, pendingWrites_of_oldest hturn.oldest hvisible, hlater]
  unfold FWriteRecord.writes
  rw [hwrite]
  rfl

omit [LawfulFKeys κ]
  [DecidableEq κ] in
theorem events_hidden (hsplit : self.pending = earlier ++ removed :: later)
    (hhidden : removed.visible = false)
    : self.events = ({ self with pending := earlier ++ later } : OptimisticDatabase κ ν).events := by
  have hpending : pendingWrites (earlier ++ removed :: later) = pendingWrites (earlier ++ later) := by
    rw [pendingWrites_append, pendingWrites_append]
    unfold pendingWrites
    rw [List.filter_cons_of_neg (by simp [hhidden])]
  unfold events
  dsimp only
  rw [hsplit, hpending]

end Answer

end OptimisticDatabase

namespace FSyncTree

variable [DecidableEq ν] [LawfulFKeys κ]

structure Follows (listenPath : FPath κ) (client : FSyncTree κ ν) (db : OptimisticDatabase κ ν)
    : Prop where
  keeps : db.Keeps client.pendingWriteTree
  shows : client.viewCache.Shows (db.server.leaves.below listenPath) (db.events.below listenPath)

def Reaches (listenPath : FPath κ) (result : Except NSException (FSyncTree κ ν))
    (before : PathMap κ ν) (db : OptimisticDatabase κ ν) : Prop :=
  ∃ client, result = .ok client ∧ client.Follows listenPath db
    ∧ Raised before (db.events.below listenPath) client.viewCache.cachedEventSnap.node client.changes

variable {client : FSyncTree κ ν} {db : OptimisticDatabase κ ν} {listenPath : FPath κ}
variable {before : PathMap κ ν} {operation : FOperation κ ν}

omit [LawfulFKeys κ] in
theorem reaches_of_answers (client : FSyncTree κ ν) (hkeeps : db.Keeps client.pendingWriteTree)
    (h : Answers listenPath client operation before (db.server.leaves.below listenPath)
      (db.events.below listenPath))
    : Reaches listenPath (client.applyOperationToSyncPoints listenPath operation) before db := by
  obtain ⟨next, hnext, htree, hshows, hraised⟩ := h
  refine ⟨next, hnext, ⟨?_, hshows⟩, hraised⟩
  rw [htree]
  exact hkeeps

omit [LawfulFKeys κ]
  [DecidableEq ν] in
theorem reaches_quietly {tree : FWriteTree κ (FSnapshot κ ν)} {next : OptimisticDatabase κ ν}
    (h : client.Follows listenPath db) (hkeeps : next.Keeps tree) (hserver : next.server = db.server)
    (hsame : db.events = next.events)
    : Reaches listenPath (.ok { client with pendingWriteTree := tree, changes := [] })
        (db.events.below listenPath) next := by
  have hshows := h.shows
  rw [← hserver, hsame] at hshows
  refine ⟨_, rfl, ⟨hkeeps, hshows⟩, ?_⟩
  rw [hsame]
  exact raised_nothing _ _

omit [LawfulFKeys κ] [DecidableEq ν] in
theorem Follows.plain_of_mem (h : client.Follows listenPath db)
    {record : FWriteRecord κ (FSnapshot κ ν)} (hmem : record ∈ db.pending)
    (hvisible : record.visible = true) {node : FSnapshot κ ν} (hwrite : record.write = .overwrite node)
    : Plain record.path := by
  have hpending : (record.path, node) ∈ pendingWrites db.pending := by
    apply mem_pendingWrites.mpr
    refine ⟨record, hmem, hvisible, ?_⟩
    unfold FWriteRecord.writes
    rw [hwrite]
    exact List.mem_cons_self
  exact (h.keeps.writable _ hpending).plain

theorem step_userOverwrite (h : client.Follows listenPath db) (hlisten : Plain listenPath)
    {path : FPath κ} {newData : FSnapshot κ ν} {writeId : Int} {visible : Bool}
    (hwritable : visible = true → Writable db.server (path, newData))
    : client.step listenPath (.userOverwrite path newData writeId visible)
        =
      .error .stackingOlderWrite
        ∨ Reaches listenPath (client.step listenPath (.userOverwrite path newData writeId visible))
          (db.events.below listenPath) (db.step (.userOverwrite path newData writeId visible)) := by
  unfold FSyncTree.step applyUserOverwriteAtPath
  dsimp only
  cases hadd : client.pendingWriteTree.addOverwriteAtPath path newData writeId
      visible with
  | error exception =>
    left
    unfold addOverwriteAtPath at hadd
    split at hadd
    . cases hadd
    . cases hadd
      rfl
  | ok tree =>
    right
    have hkeeps := h.keeps.userOverwrite hwritable hadd
    have hevents := OptimisticDatabase.events_userOverwrite db path newData writeId visible
    cases visible with
    | false =>
      rw [if_neg Bool.false_ne_true] at hevents
      exact reaches_quietly h hkeeps rfl hevents.symm
    | true =>
      rw [if_pos rfl] at hevents
      apply reaches_of_answers { client with pendingWriteTree := tree, changes := [] } hkeeps
      rw [hevents]
      exact answers_userOverwrite h.shows (hwritable rfl).plain hlisten (hwritable rfl).wellFormed

theorem step_serverOverwrite (h : client.Follows listenPath db) (hlisten : Plain listenPath)
    {path : FPath κ} {newData : FSnapshot κ ν}
    (hallowed : db.Allowed (.serverOverwrite path newData))
    : Reaches listenPath (client.step listenPath (.serverOverwrite path newData))
        (db.events.below listenPath) (db.step (.serverOverwrite path newData)) := by
  have hkeeps := h.keeps.serverOverwrite hallowed
  have hleaves := OptimisticDatabase.leaves_serverOverwrite h.keeps hallowed
  have hremovable := OptimisticDatabase.removable_overwrites h.keeps.writable
  have hdiscrete := hkeeps.discrete_events
  have hevents : (db.step (.serverOverwrite path newData)).events
      =
    (db.server.leaves.overwrite path newData.leaves).overwriteAll
      (FCompoundWrite.overwrites (pendingWrites db.pending)) := by
    unfold OptimisticDatabase.events
    rw [hleaves]
    rfl
  apply reaches_of_answers client hkeeps
  apply answers_serverOverwrite hkeeps.applied _ hallowed.left hlisten h.shows hleaves
    hallowed.right.left
  . rw [hevents]
    rw [hevents] at hdiscrete
    exact PathMap.overwriteAll_rebase hremovable hdiscrete
  . rw [hevents]
    apply moves_rebase hremovable
    intro r hvalue
    exact h.keeps.exists_write hvalue

omit [DecidableEq κ] [FKeys κ] [DecidableEq ν] [LawfulFKeys κ] in
theorem writeForId_of_split {tree : FWriteTree κ (FSnapshot κ ν)}
    {earlier later : List (FWriteRecord κ (FSnapshot κ ν))}
    {removed : FWriteRecord κ (FSnapshot κ ν)}
    (hsplit : tree.allWrites = earlier ++ removed :: later)
    (hfirst : ∀ record ∈ earlier, record.writeId ≠ removed.writeId)
    : tree.writeForId removed.writeId = some removed := by
  unfold FWriteTree.writeForId
  rw [hsplit, List.find?_append, List.find?_eq_none.mpr]
  . simp
  . intro record hrecord
    simpa using hfirst record hrecord

omit [DecidableEq κ] [DecidableEq ν] [LawfulFKeys κ] in
theorem affectedTree_of_overwrite {write : FWriteRecord κ (FSnapshot κ ν)} {node : FSnapshot κ ν}
    (hwrite : write.write = .overwrite node) : write.affectedTree.value ≠ none := by
  unfold FWriteRecord.affectedTree
  rw [hwrite]
  simp [FImmutableTree.setValue, FImmutableTree.value]

theorem answers_removed {earlier later : List (FWriteRecord κ (FSnapshot κ ν))}
    {removed : FWriteRecord κ (FSnapshot κ ν)} {node : FSnapshot κ ν} {revert : Bool}
    (h : client.viewCache.Shows (db.server.leaves.below listenPath) (db.events.below listenPath))
    (hlisten : Plain listenPath) (hplain : Plain removed.path)
    (hwrite : removed.write = .overwrite node)
    (hkeeps : ({ db with pending := earlier ++ later } : OptimisticDatabase κ ν).Keeps
      client.pendingWriteTree)
    (hevents : db.events
      = (db.server.leaves.overwrite removed.path node.leaves).overwriteAll
          (FCompoundWrite.overwrites (pendingWrites (earlier ++ later))))
    (hfree : revert = false
      → ∀ q, q <+: removed.path → q ≠ removed.path → db.server.leaves q = none)
    : Answers listenPath client (.ackUserWrite removed.path removed.affectedTree revert)
        (db.events.below listenPath) (db.server.leaves.below listenPath)
        (({ db with pending := earlier ++ later } : OptimisticDatabase κ ν).events.below
          listenPath) := by
  have hremovable := OptimisticDatabase.removable_overwrites hkeeps.writable
  have hdiscrete := hkeeps.discrete_events
  have hvalue := affectedTree_of_overwrite hwrite
  have hmoves : Moves client.pendingWriteTree listenPath removed.path db.events
      ({ db with pending := earlier ++ later } : OptimisticDatabase κ ν).events := by
    rw [hevents]
    apply Moves.symm
    apply moves_rebase hremovable
    intro r hvalue
    exact hkeeps.exists_write hvalue
  cases revert with
  | false =>
    apply answers_ackUserWrite hkeeps.applied hmoves hplain hlisten hvalue h
    rw [hevents]
    exact PathMap.overwriteAll_unbase (hfree rfl) hdiscrete
  | true =>
    apply answers_revert hkeeps.applied hmoves hplain hlisten hvalue h
    . intro hbelow
      rw [hevents] at hbelow ⊢
      exact PathMap.overwriteAll_rebase_eq hremovable hdiscrete hbelow
    . intro node key rest hpath
      rw [hpath] at hevents
      exact PathMap.overwrite_child_unbase hremovable hevents rfl hdiscrete

omit [DecidableEq ν] [LawfulFKeys κ] in
theorem events_shadowed {earlier later : List (FWriteRecord κ (FSnapshot κ ν))}
    {removed : FWriteRecord κ (FSnapshot κ ν)} {node : FSnapshot κ ν}
    {tree : FWriteTree κ (FSnapshot κ ν)}
    (hkeeps : ({ db with pending := earlier ++ later } : OptimisticDatabase κ ν).Keeps tree)
    (hevents : db.events
      = (db.server.leaves.overwrite removed.path node.leaves).overwriteAll
          (FCompoundWrite.overwrites (pendingWrites (earlier ++ later))))
    (hshadowed : Shadowed later removed)
    : db.events = ({ db with pending := earlier ++ later } : OptimisticDatabase κ ν).events := by
  have hremovable := OptimisticDatabase.removable_overwrites hkeeps.writable
  obtain ⟨record, hrecord, hvisible, hcontains⟩ := hshadowed
  obtain ⟨write, hwrite, hpre⟩ := recordContainsPath_iff.mp hcontains
  have hmem : (write.1, write.2.leaves)
      ∈ FCompoundWrite.overwrites (pendingWrites (earlier ++ later)) := by
    unfold FCompoundWrite.overwrites
    rw [List.mem_map]
    refine ⟨write, ?_, rfl⟩
    exact mem_pendingWrites.mpr ⟨record, List.mem_append_right _ hrecord, hvisible, hwrite⟩
  rw [hevents]
  exact PathMap.overwriteAll_rebase_covered hremovable hmem hpre

theorem step_ackUserWrite (h : client.Follows listenPath db) (hlisten : Plain listenPath)
    {writeId : Int} {revert : Bool} (hallowed : db.Allowed (.ackUserWrite writeId revert))
    : client.step listenPath (.ackUserWrite writeId revert) = .error .nonexistentWriteId
        ∨ Reaches listenPath (client.step listenPath (.ackUserWrite writeId revert))
          (db.events.below listenPath) (db.step (.ackUserWrite writeId revert)) := by
  unfold FSyncTree.step ackUserWriteWithWriteId
  dsimp only
  cases hremove : client.pendingWriteTree.removeWriteId writeId with
  | error exception =>
    left
    rw [exception_of_removeWriteId hremove]
    rfl
  | ok result =>
    right
    obtain ⟨answer, tree⟩ := result
    obtain ⟨earlier, removed, later, hsplit, rfl, hfirst⟩ := exists_split_of_removeWriteId hremove
    have hpending : db.pending = earlier ++ removed :: later := by
      rw [← h.keeps.pending, hsplit]
    have hallowed := hallowed earlier removed later hpending rfl hfirst
    have hturn : removed.visible = true → InTurn earlier removed later :=
      fun hvisible => (hallowed hvisible).left
    have hkeeps := h.keeps.ackUserWrite hpending hfirst hturn hremove
    obtain ⟨-, hanswer, -⟩ := removeWriteId_cases hsplit hfirst hremove
    rw [OptimisticDatabase.step_ackUserWrite hpending hfirst, writeForId_of_split hsplit hfirst]
    cases hvisible : removed.visible with
    | false =>
      rw [hvisible, Bool.false_and] at hanswer
      subst hanswer
      have hsame := OptimisticDatabase.events_hidden hpending hvisible
      exact reaches_quietly h hkeeps rfl hsame
    | true =>
      have hmem : removed ∈ db.pending := by
        rw [hpending]
        exact List.mem_append_right _ List.mem_cons_self
      obtain ⟨node, hwrite⟩ := h.keeps.overwrites removed hmem
      have hevents := OptimisticDatabase.events_oldest hpending (hturn hvisible) hvisible hwrite
      rw [hvisible, Bool.true_and] at hanswer
      cases loop_cases removed later (hturn hvisible).oldest with
      | inl hshadow =>
        rw [hshadow.right] at hanswer
        subst hanswer
        have hsame := events_shadowed hkeeps hevents hshadow.left
        exact reaches_quietly h hkeeps rfl hsame
      | inr hseen =>
        have hanswer : answer = true := by
          cases hseen with
          | inl hoverlaps => rw [hanswer, hoverlaps.right.right]
          | inr happart => rw [hanswer, happart.right.right]
        subst hanswer
        have hplain := h.plain_of_mem hmem hvisible hwrite
        apply reaches_of_answers { client with pendingWriteTree := tree, changes := [] } hkeeps
        exact answers_removed h.shows hlisten hplain hwrite hkeeps hevents (hallowed hvisible).right

theorem step_follows (h : client.Follows listenPath db) (hlisten : Plain listenPath)
    {event : FSyncEvent κ ν} (hallowed : db.Allowed event)
    : client.step listenPath event = .error .stackingOlderWrite
        ∨ client.step listenPath event = .error .nonexistentWriteId
        ∨ Reaches listenPath (client.step listenPath event) (db.events.below listenPath)
          (db.step event) := by
  cases event with
  | userOverwrite path newData writeId visible =>
    cases step_userOverwrite h hlisten hallowed with
    | inl hfails => exact .inl hfails
    | inr hreaches => exact .inr (.inr hreaches)
  | userMerge path changedChildren writeId => cases hallowed
  | ackUserWrite writeId revert =>
    cases step_ackUserWrite h hlisten hallowed with
    | inl hfails => exact .inr (.inl hfails)
    | inr hreaches => exact .inr (.inr hreaches)
  | serverOverwrite path newData => exact .inr (.inr (step_serverOverwrite h hlisten hallowed))
  | serverMerge path changedChildren => cases hallowed

theorem reaches_of_step (h : client.Follows listenPath db) (hlisten : Plain listenPath)
    {event : FSyncEvent κ ν} (hallowed : db.Allowed event) {next : FSyncTree κ ν}
    (hstep : client.step listenPath event = .ok next)
    : next.Follows listenPath (db.step event)
        ∧ Raised (db.events.below listenPath) ((db.step event).events.below listenPath)
          next.viewCache.cachedEventSnap.node next.changes := by
  have hcases := step_follows h hlisten hallowed
  simp only [hstep, reduceCtorEq, false_or] at hcases
  obtain ⟨reached, hreached, hfollows, hraised⟩ := hcases
  cases hreached
  exact ⟨hfollows, hraised⟩

section Runs

def listening (listenPath : FPath κ) (server : FSnapshot κ ν) : FSyncTree κ ν where
  pendingWriteTree := {}
  viewCache := {
    cachedEventSnap := ⟨server.getChild listenPath, true⟩
    cachedServerSnap := ⟨server.getChild listenPath, true⟩
  }
  changes := []

omit [DecidableEq ν] [LawfulFKeys κ] in
theorem follows_listening {server : FSnapshot κ ν} (hserver : server.WellFormed)
    (hlisten : Plain listenPath)
    : (listening listenPath server).Follows listenPath ⟨server, []⟩ := by
  have hchild := wellFormed_getChild hserver hlisten
  have hleaves := leaves_getChild server hlisten
  constructor
  . constructor
    . rfl
    . rfl
    . intro record hrecord
      cases hrecord
    . exact hserver
    . intro write hwrite
      cases hwrite
  . exact ⟨rfl, rfl, hchild, hchild, hleaves, hleaves⟩

variable {server : FSnapshot κ ν} {events : List (FSyncEvent κ ν)} {event : FSyncEvent κ ν}
variable {final after : FSyncTree κ ν}

theorem run_follows (hserver : server.WellFormed) (hlisten : Plain listenPath)
    (hallowed : Transition.Meets
      (fun db event => (.ok (OptimisticDatabase.step db event) : Except NSException _))
      OptimisticDatabase.Allowed ⟨server, []⟩ events)
    (hrun : Transition.run (step listenPath) (listening listenPath server) events = .ok final)
    : final.Follows listenPath (events.foldl OptimisticDatabase.step ⟨server, []⟩) := by
  apply Transition.run_follows (step listenPath) OptimisticDatabase.step
    (R := fun client db => client.Follows listenPath db) _ (follows_listening hserver hlisten)
    hallowed hrun
  intro client db event next h hevent hstep
  exact (reaches_of_step h hlisten hevent hstep).left

omit [DecidableEq ν] [LawfulFKeys κ] in
theorem allowed_concat
    (hallowed : Transition.Meets
      (fun db event => (.ok (OptimisticDatabase.step db event) : Except NSException _))
      OptimisticDatabase.Allowed ⟨server, []⟩ (events ++ [event]))
    : Transition.Meets
          (fun db event => (.ok (OptimisticDatabase.step db event) : Except NSException _))
          OptimisticDatabase.Allowed ⟨server, []⟩ events
        ∧ (events.foldl OptimisticDatabase.step ⟨server, []⟩).Allowed event := by
  rw [Transition.meets_concat] at hallowed
  refine ⟨hallowed.left, ?_⟩
  apply hallowed.right _ _ _ rfl
  apply Transition.run_total

omit [DecidableEq ν] in
theorem leaves_expected_of_follows (h : final.Follows listenPath db) (hlisten : Plain listenPath)
    : (db.expected.getChild listenPath).leaves = db.events.below listenPath := by
  rw [leaves_getChild _ hlisten, h.keeps.leaves_expected]

section Reference

def referenceSession : List (FSyncEvent (FChildKey .ascii) Nat) :=
  [.userOverwrite [.reference, .reference] (.leafNode 1 .emptyNode) 1 true,
    .serverOverwrite [.reference, .reference] (.leafNode 1 .emptyNode)]

def referenceAnswer : FSyncEvent (FChildKey .ascii) Nat :=
  .ackUserWrite 1 false

theorem plain_reference : Plain [FChildKey.reference, .reference] := by
  decide

theorem writable_reference (server : FSnapshot (FChildKey .ascii) Nat)
    : Writable server ([.reference, .reference], .leafNode 1 .emptyNode) := by
  constructor
  . exact plain_reference
  . exact .leaf 1 .emptyNode
  . intro hempty
    have hleaf := hempty []
    cases hleaf

theorem allowed_reference
    : Transition.Meets
        (fun db event => (.ok (OptimisticDatabase.step db event) : Except NSException _))
        OptimisticDatabase.Allowed ⟨.emptyNode, []⟩ (referenceSession ++ [referenceAnswer]) := by
  rw [Transition.meets_concat]
  constructor
  . unfold referenceSession
    rw [Transition.meets_cons]
    intro first hfirst
    cases hfirst
    refine ⟨fun _ => writable_reference _, ?_⟩
    rw [Transition.meets_cons]
    intro second hsecond
    cases hsecond
    refine ⟨⟨plain_reference, .leaf 1 .emptyNode, ?_⟩, Transition.meets_nil _ _ _⟩
    intro write hwrite
    have heq : write = ([.reference, .reference], .leafNode 1 .emptyNode) :=
      List.mem_singleton.mp hwrite
    rw [heq]
    apply writable_reference
  . intro db next hrun _
    rw [Transition.run_total] at hrun
    cases hrun
    intro earlier removed later hsplit _ _ _
    cases earlier with
    | cons record earlier =>
      injection hsplit with _ hrest
      have hlength := congrArg List.length hrest
      simp at hlength
    | nil =>
      injection hsplit with hremoved hlater
      subst hremoved hlater
      constructor
      . constructor
        . intro record hrecord
          cases hrecord
        . intro _ _ record hrecord
          cases hrecord
        . intro _ _ hstraddled
          obtain ⟨record, hrecord, -⟩ := hstraddled
          cases hrecord
      . intro _ q hq hne
        have hleaves : ((emptyNode : FSnapshot (FChildKey .ascii) Nat).updateChild
              [.reference, .reference]
            (.leafNode 1 .emptyNode)).leaves = _ :=
          leaves_updateChild wellFormed_emptyNode (.leaf 1 .emptyNode) plain_reference
        apply (congrFun hleaves q).trans
        apply PathMap.overwrite_above _ hq
        . intro hempty
          have hleaf := hempty []
          cases hleaf
        . intro hpre
          exact hne (hq.eq_of_length_le hpre.length_le)

theorem exists_run_reference
    : ∃ final, Transition.run (step [.reference]) (listening [.reference] .emptyNode)
          (referenceSession ++ [referenceAnswer]) = .ok final
        ∧ final.pendingWriteTree.allWrites.length = 0 := by
  apply Transition.exists_run_of_observe (step [.reference])
    (fun final : FSyncTree (FChildKey .ascii) Nat => final.pendingWriteTree.allWrites.length)
  rfl

end Reference

/--
However writes, their answers and data of the server interleave, the view of a listener shows the data
of the server with all pending writes carried out on it in their order.
-/
theorem view_of_allowed_run (hserver : server.WellFormed) (hlisten : Plain listenPath)
    (hallowed : Transition.Meets
      (fun db event => (.ok (OptimisticDatabase.step db event) : Except NSException _))
      OptimisticDatabase.Allowed ⟨server, []⟩ events)
    (hrun : Transition.run (step listenPath) (listening listenPath server) events = .ok final)
    : final.viewCache.cachedEventSnap.node.leaves
        =
      ((events.foldl OptimisticDatabase.step ⟨server, []⟩).expected.getChild listenPath).leaves := by
  have hfollows := run_follows hserver hlisten hallowed hrun
  rw [leaves_expected_of_follows hfollows hlisten]
  exact hfollows.shows.eventLeaves

theorem view_of_allowed_run_answered
    : ∃ final, Transition.run (step [.reference]) (listening [.reference] .emptyNode)
          (referenceSession ++ [referenceAnswer]) = .ok final
        ∧ final.viewCache.cachedEventSnap.node.leaves
          = (((referenceSession ++ [referenceAnswer]).foldl OptimisticDatabase.step
              ⟨.emptyNode, []⟩).expected.getChild [.reference]).leaves := by
  obtain ⟨final, hrun, -⟩ := exists_run_reference
  have hlisten : Plain [FChildKey.reference] := by decide
  exact ⟨final, hrun, view_of_allowed_run wellFormed_emptyNode hlisten allowed_reference hrun⟩

/--
What a step of such a run raises leads from the old data to the new data: for each child that is
another one the right kind of change, for no child more than one, and the new data whenever it is not
the old one.
-/
theorem changes_of_allowed_run (hserver : server.WellFormed) (hlisten : Plain listenPath)
    (hallowed : Transition.Meets
      (fun db event => (.ok (OptimisticDatabase.step db event) : Except NSException _))
      OptimisticDatabase.Allowed ⟨server, []⟩ (events ++ [event]))
    (hrun : Transition.run (step listenPath) (listening listenPath server) events = .ok final)
    (hstep : final.step listenPath event = .ok after)
    : Raised
        ((events.foldl OptimisticDatabase.step ⟨server, []⟩).expected.getChild listenPath).leaves
        (((events ++ [event]).foldl OptimisticDatabase.step ⟨server, []⟩).expected.getChild
          listenPath).leaves
        after.viewCache.cachedEventSnap.node after.changes := by
  obtain ⟨hbefore, hevent⟩ := allowed_concat hallowed
  have hfollows := run_follows hserver hlisten hbefore hrun
  obtain ⟨hnext, hraised⟩ := reaches_of_step hfollows hlisten hevent hstep
  rw [leaves_expected_of_follows hfollows hlisten, List.foldl_append, List.foldl_cons,
    List.foldl_nil, leaves_expected_of_follows hnext hlisten]
  exact hraised

theorem changes_of_allowed_run_answered
    : ∃ final after, Transition.run (step [.reference]) (listening [.reference] .emptyNode)
          referenceSession = .ok final
        ∧ final.step [.reference] referenceAnswer = .ok after
        ∧ Raised
          ((referenceSession.foldl OptimisticDatabase.step ⟨.emptyNode, []⟩).expected.getChild
            [.reference]).leaves
          (((referenceSession ++ [referenceAnswer]).foldl OptimisticDatabase.step
            ⟨.emptyNode, []⟩).expected.getChild [.reference]).leaves
          after.viewCache.cachedEventSnap.node after.changes := by
  obtain ⟨after, hrun, -⟩ := exists_run_reference
  obtain ⟨final, hbefore, hstep⟩ := (Transition.run_concat_ok _).mp hrun
  have hlisten : Plain [FChildKey.reference] := by decide
  exact ⟨final, after, hbefore, hstep,
    changes_of_allowed_run wellFormed_emptyNode hlisten allowed_reference hbefore hstep⟩

/--
No step of such a run stops the client but for the id of a write that is not new, or of one that is
not pending.
-/
theorem exception_of_allowed_run (hserver : server.WellFormed) (hlisten : Plain listenPath)
    (hallowed : Transition.Meets
      (fun db event => (.ok (OptimisticDatabase.step db event) : Except NSException _))
      OptimisticDatabase.Allowed ⟨server, []⟩ (events ++ [event]))
    (hrun : Transition.run (step listenPath) (listening listenPath server) events = .ok final)
    {exception : NSException} (hstep : final.step listenPath event = .error exception)
    : exception = .stackingOlderWrite ∨ exception = .nonexistentWriteId := by
  obtain ⟨hbefore, hevent⟩ := allowed_concat hallowed
  have hfollows := run_follows hserver hlisten hbefore hrun
  cases step_follows hfollows hlisten hevent with
  | inl hfails =>
    rw [hfails] at hstep
    cases hstep
    exact .inl rfl
  | inr hrest =>
    cases hrest with
    | inl hfails =>
      rw [hfails] at hstep
      cases hstep
      exact .inr rfl
    | inr hreaches =>
      obtain ⟨reached, hreached, -⟩ := hreaches
      rw [hreached] at hstep
      cases hstep

theorem exception_of_allowed_run_unknown
    : ∃ exception : NSException,
        (listening [.reference] .emptyNode).step [.reference] referenceAnswer = .error exception
          ∧ (exception = .stackingOlderWrite ∨ exception = .nonexistentWriteId) := by
  have hallowed : Transition.Meets
      (fun db event => (.ok (OptimisticDatabase.step db event) : Except NSException _))
      OptimisticDatabase.Allowed ⟨.emptyNode, []⟩ ([] ++ [referenceAnswer]) := by
    rw [List.nil_append, Transition.meets_cons]
    intro next _
    refine ⟨?_, Transition.meets_nil _ _ _⟩
    intro earlier removed later hsplit
    have hlength := congrArg List.length hsplit
    simp at hlength
  have hlisten : Plain [FChildKey.reference] := by decide
  refine ⟨.nonexistentWriteId, rfl, ?_⟩
  exact exception_of_allowed_run wellFormed_emptyNode hlisten hallowed rfl rfl

end Runs

end FSyncTree
