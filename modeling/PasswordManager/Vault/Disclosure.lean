import PasswordManager.Vault.Refinement

/-!
This module contains what a reader of the whole database learns who is no user of the app. The
password that a record is encrypted with is the key of the subtree that the record is stored in.
-/

namespace Vault

variable (P : Platform)

def disclosed (db : Json) : List (String × String × Credential) :=
  (db.get ["Credentials"]).entries.flatMap (fun user =>
    user.2.entries.filterMap (fun entry =>
      (ListViewController.entryDecryption P user.1 entry.2).map (fun credential =>
        (user.1, entry.1, credential))))

def savedBy (uid : String) (call : SaveCall) : Bool :=
  match call.user.uidHash P with
  | .ok other => other = uid
  | .error _ => false

variable {P} {uid : String} {db db' : Json} {call : SaveCall}

theorem savedBy_iff : savedBy P uid call = true ↔ call.user.uidHash P = .ok uid := by
  unfold savedBy
  cases call.user.uidHash P with
  | error trap => simp
  | ok other => simp

theorem subtree_eq (uid : String) (db : Json)
    : subtree uid db
        =
      (((db.get ["Credentials"]).entries.lookup uid).getD .null).entries := by
  rfl

theorem pathPieces_below (huid : call.user.uidHash P = .ok uid) (key : String)
    : Json.pathPieces ("Credentials/" ++ uid ++ "/" ++ key)
        =
      ["Credentials"] ++ uid :: Json.pathPieces key := by
  have hsplit : "Credentials/" ++ uid ++ "/" ++ key
      = "Credentials" ++ "/" ++ (uid ++ "/" ++ key) := by
    simp [← String.toList_inj]
  rw [hsplit, Json.pathPieces_cons (by decide) (by decide)]
  rw [Json.pathPieces_cons]
  . rfl
  . exact AuthenticatedUser.uidHash_ne_empty huid
  . exact AuthenticatedUser.uidHash_not_slash huid

theorem users_of_step (hcall : Accepted P uid db call) (hstep : step P db call = .ok db')
    : ∃ node, (db'.get ["Credentials"]).entries
        =
      Dictionary.set uid node (db.get ["Credentials"]).entries := by
  have hvalid := hcall.valid
  obtain ⟨username, website, password, hfields, -, -⟩ := Credential.validate_fields hvalid
  rw [hfields] at hvalid
  obtain ⟨_, _, _, hsave, -⟩ :=
    Credential.save_of_validate hcall.user hvalid call.salts call.credId
  rw [← hfields, key_of_fields call hfields] at hsave
  simp only [step, hsave, bind, Except.bind, pure, Except.pure, Except.ok.injEq] at hstep
  subst hstep
  unfold setValue
  rw [pathPieces_below hcall.user, Json.get_set_append, Json.set, Json.entries_dictionary]
  exact ⟨_, rfl⟩

theorem represents_of_foreign_step {other : String} {stored : List (String × Credential)}
    (h : Represents P uid db stored) (hcall : Accepted P other db call) (hne : uid ≠ other)
    (hstep : step P db call = .ok db') : Represents P uid db' stored := by
  obtain ⟨node, husers⟩ := users_of_step hcall hstep
  have hsubtree : subtree uid db' = subtree uid db := by
    rw [subtree_eq, subtree_eq, husers, Dictionary.lookup_set_of_ne hne]
  constructor
  . exact h.digest
  . rw [hsubtree]
    exact h.decrypts

structure Holds (P : Platform) (uid : String) (db : Json) (stored : List (String × Credential))
    : Prop where
  users : (Dictionary.keys (db.get ["Credentials"]).entries).Nodup
  keys : (Dictionary.keys stored).Nodup
  represents : Represents P uid db stored

def follow (P : Platform) (uid : String) (stored : List (String × Credential)) (call : SaveCall)
    : List (String × Credential) :=
  if savedBy P uid call then Dictionary.set (call.key P) call.credential stored else stored

theorem holds_of_step {stored : List (String × Credential)} (h : Holds P uid db stored)
    (hcall : ∃ other, Accepted P other db call) (hstep : step P db call = .ok db')
    : Holds P uid db' (follow P uid stored call) := by
  obtain ⟨other, hcall⟩ := hcall
  have husers : (Dictionary.keys (db'.get ["Credentials"]).entries).Nodup := by
    obtain ⟨node, husers⟩ := users_of_step hcall hstep
    rw [husers]
    exact Dictionary.nodup_keys_set h.users other node
  unfold follow
  split
  . next hown =>
    rw [savedBy_iff, hcall.user] at hown
    cases hown
    constructor
    . exact husers
    . exact Dictionary.nodup_keys_set h.keys _ _
    . exact represents_of_step h.represents hcall hstep
  . next hforeign =>
    rw [savedBy_iff, hcall.user] at hforeign
    constructor
    . exact husers
    . exact h.keys
    . apply represents_of_foreign_step h.represents hcall _ hstep
      intro heq
      exact hforeign (by rw [heq])

theorem mem_disclosed_iff {stored : List (String × Credential)} (h : Holds P uid db stored)
    {k : String} {credential : Credential}
    : (uid, k, credential) ∈ disclosed P db ↔ stored.lookup k = some credential := by
  have hkeys : (Dictionary.keys (subtree uid db)).Nodup := by
    rw [h.represents.keys_eq]
    exact h.keys
  rw [← h.represents.storedAt_iff]
  unfold disclosed StoredAt
  rw [List.mem_flatMap]
  constructor
  . intro hmem
    obtain ⟨⟨other, node⟩, huser, hentry⟩ := hmem
    rw [List.mem_filterMap] at hentry
    obtain ⟨⟨j, cred⟩, hcred, hopened⟩ := hentry
    obtain ⟨found, hfound, heq⟩ := Option.map_eq_some_iff.mp hopened
    simp only [Prod.mk.injEq] at heq
    obtain ⟨rfl, rfl, rfl⟩ := heq
    -- each user is listed once, so this is the subtree that a lookup of the user finds
    rw [← Dictionary.lookup_eq_some_iff_mem h.users] at huser
    refine ⟨cred, ?_, hfound⟩
    rw [Dictionary.lookup_eq_some_iff_mem hkeys, subtree_eq, huser]
    exact hcred
  . intro hstored
    obtain ⟨cred, hcred, hopened⟩ := hstored
    have hmem := Dictionary.mem_of_lookup hcred
    rw [subtree_eq] at hmem
    cases huser : (db.get ["Credentials"]).entries.lookup uid with
    | none =>
      rw [huser] at hmem
      simp [Json.entries, Json.asDictionary] at hmem
    | some node =>
      rw [huser, Option.getD_some] at hmem
      refine ⟨(uid, node), Dictionary.mem_of_lookup huser, ?_⟩
      rw [List.mem_filterMap]
      exact ⟨(k, cred), hmem, by rw [hopened]; rfl⟩

theorem follow_eq_replay (calls : List SaveCall)
    : calls.foldl (follow P uid) []
        =
      Dictionary.replay (writes P (calls.filter (savedBy P uid))) := by
  unfold Dictionary.replay writes follow
  rw [List.foldl_map, List.foldl_filter]

/--
However the saves of any number of users interleave, the database alone, without any password,
gives away the credential that each user has saved last under each key, and no other.
-/
theorem database_discloses_iff {db₀ : Json} (hempty : (db₀.get ["Credentials"]).entries = [])
    {calls : List SaveCall}
    (haccepted : Transition.Meets (step P) (fun db call => ∃ uid, Accepted P uid db call) db₀ calls)
    (hrun : Transition.run (step P) db₀ calls = .ok db) (uid k : String) (credential : Credential)
    : (uid, k, credential) ∈ disclosed P db
        ↔
      lastSave P (calls.filter (savedBy P uid)) k = some credential := by
  have hstart : Holds P uid db₀ [] := by
    constructor
    . rw [hempty]
      exact List.nodup_nil
    . exact List.nodup_nil
    . apply represents_nil
      rw [subtree_eq, hempty]
      rfl
  have hholds : Holds P uid db (calls.foldl (follow P uid) []) := by
    apply Transition.run_simulates (step P) (follow P uid) (R := Holds P uid) _ hstart haccepted hrun
    intro db stored call db' hholds hcall hstep
    exact holds_of_step hholds hcall hstep
  rw [mem_disclosed_iff hholds, follow_eq_replay, Dictionary.lookup_replay]
  rfl

def otherUsersCall : SaveCall :=
  { referenceCall none "me@x.co" "xx.com" with
    user := { observers := [], user := some ⟨"v"⟩ } }

def interleavedCalls : List SaveCall :=
  [referenceCall none "me@x.co" "yy.com", otherUsersCall, referenceEdit]

theorem exists_interleaved_run
    : ∃ db, Transition.Meets (step .reference) (fun db call => ∃ uid, Accepted .reference uid db call)
          .null interleavedCalls
        ∧ Transition.run (step .reference) .null interleavedCalls = .ok db := by
  have hne : Platform.reference.digest "u" ≠ Platform.reference.digest "v" := by decide +kernel
  have hsave : Accepted .reference (Platform.reference.digest "u") .null
      (referenceCall none "me@x.co" "yy.com") :=
    referenceCall_accepted (by decide +kernel) (by simp)
  obtain ⟨db₁, hstep₁, h₁⟩ := (represents_nil rfl).step_ok hsave
  have hother : ∀ db, Accepted .reference (Platform.reference.digest "v") db otherUsersCall :=
    fun db => ⟨rfl, by decide +kernel, by simp [otherUsersCall, referenceCall]⟩
  have hforeign : Represents .reference (Platform.reference.digest "v") db₁ [] :=
    represents_of_foreign_step (represents_nil rfl) hsave hne.symm hstep₁
  obtain ⟨db₂, hstep₂, -⟩ := hforeign.step_ok (hother db₁)
  have h₂ := represents_of_foreign_step h₁ (hother db₁) hne hstep₂
  have hedit : Accepted .reference (Platform.reference.digest "u") db₂ referenceEdit := by
    apply referenceCall_accepted
    . decide +kernel
    . intro k hk
      cases hk
      rw [h₂.keys_eq]
      decide +kernel
  obtain ⟨db₃, hstep₃, -⟩ := h₂.step_ok hedit
  refine ⟨db₃, ?_, ?_⟩
  . unfold interleavedCalls
    simp only [Transition.meets_cons, hstep₁, hstep₂, hstep₃, Except.ok.injEq, forall_eq']
    exact ⟨⟨_, hsave⟩, ⟨_, hother db₁⟩, ⟨_, hedit⟩, Transition.meets_nil _ _ _⟩
  . unfold interleavedCalls
    simp only [Transition.run_cons_ok, Transition.run_nil]
    exact ⟨db₁, hstep₁, db₂, hstep₂, db₃, hstep₃, rfl⟩

theorem database_discloses_iff_two_users
    : ∃ db : Json, Transition.run (step .reference) .null interleavedCalls = .ok db
        ∧ (Platform.reference.digest "u", Credential.credHash .reference "me@x.co" "yy.com",
            ⟨some "me@x.co", some "zz.com", some "pw"⟩) ∈ disclosed .reference db
        ∧ (Platform.reference.digest "v", Credential.credHash .reference "me@x.co" "xx.com",
            ⟨some "me@x.co", some "xx.com", some "pw"⟩) ∈ disclosed .reference db
        ∧ (Platform.reference.digest "u", Credential.credHash .reference "me@x.co" "yy.com",
            ⟨some "me@x.co", some "yy.com", some "pw"⟩) ∉ disclosed .reference db := by
  obtain ⟨db, haccepted, hrun⟩ := exists_interleaved_run
  refine ⟨db, hrun, ?_⟩
  simp only [database_discloses_iff rfl haccepted hrun]
  decide +kernel

end Vault
