import PasswordManager.Vault.Refinement

/-!
This module contains what the saves of a history do to each other: which credentials a new save
destroys, and when two keys end up with the same username and website. Both come from edits, which
change a credential and keep its key.
-/

namespace Vault

variable (P : Platform) (uid : String)

def Stored (db : Json) (credential : Credential) : Prop :=
  ∃ k, StoredAt P uid db k credential

def newSave (user : AuthenticatedUser Nat) (username website password : String) (salts : Salts)
    : SaveCall where
  user
  credential := ⟨some username, some website, some password⟩
  salts

def UniquePairs (db : Json) : Prop :=
  ∀ (j k : String) (credential credential' : Credential),
    StoredAt P uid db j credential
      → StoredAt P uid db k credential'
      → pair credential = pair credential'
      → j = k

variable {P uid}

theorem newSave_key (user : AuthenticatedUser Nat) (username website password : String)
    (salts : Salts)
    : (newSave user username website password salts).key P
        =
      Credential.credHash P username website := by
  rfl

/--
A new save keeps all credentials with another pair exactly if the one that was last saved under its
key, if there is one, has the same pair or has a copy under another key.
-/
theorem new_save_keeps_others_iff {db₀ db : Json} {calls : List SaveCall}
    (h : History P uid db₀ calls db) {user : AuthenticatedUser Nat}
    {username website password : String} {salts : Salts}
    (hcall : Accepted P uid db (newSave user username website password salts))
    : (∃ db', step P db (newSave user username website password salts) = .ok db'
        ∧ ∀ credential, Stored P uid db credential
            → pair credential ≠ (some username, some website)
            → Stored P uid db' credential)
        ↔
      ∀ credential, lastSave P calls (Credential.credHash P username website) = some credential
        → pair credential = (some username, some website)
          ∨ ∃ k, k ≠ Credential.credHash P username website
              ∧ lastSave P calls k = some credential := by
  obtain ⟨db', hstep, hnext⟩ := h.concat hcall
  have hstored' : ∀ k credential, StoredAt P uid db' k credential
      ↔ (if k = Credential.credHash P username website
          then some ⟨some username, some website, some password⟩
          else lastSave P calls k) = some credential := by
    intro k credential
    rw [hnext.storedAt_iff, lastSave_concat, newSave_key]
    rfl
  constructor
  . rintro ⟨db'', hstep', hkeeps⟩ credential hlast
    rw [hstep] at hstep'
    cases hstep'
    by_cases hpair : pair credential = (some username, some website)
    . exact .inl hpair
    . right
      obtain ⟨k, hk⟩ := hkeeps credential ⟨_, h.storedAt_iff.mpr hlast⟩ hpair
      rw [hstored'] at hk
      split at hk
      . cases hk
        exact (hpair rfl).elim
      . next hne => exact ⟨k, hne, hk⟩
  . intro hcondition
    refine ⟨db', hstep, ?_⟩
    rintro credential ⟨k, hk⟩ hpair
    rw [h.storedAt_iff] at hk
    by_cases heq : k = Credential.credHash P username website
    . -- the entry is overwritten, only a copy of it can survive
      rw [heq] at hk
      cases hcondition credential hk with
      | inl hsame => exact (hpair hsame).elim
      | inr hcopy =>
        obtain ⟨j, hne, hj⟩ := hcopy
        refine ⟨j, ?_⟩
        rw [hstored', if_neg hne]
        exact hj
    . refine ⟨k, ?_⟩
      rw [hstored', if_neg heq]
      exact hk

theorem new_save_keeps_others_three_sites
    : ∃ db db', History .reference (Platform.reference.digest "u") .null referenceHistory db
        ∧ step .reference db
            (newSave (referenceCall none "" "").user "me@x.co" "xx.com" "new" ⟨[], [], []⟩)
              = .ok db'
        ∧ Stored .reference (Platform.reference.digest "u") db
            ⟨some "me@x.co", some "zz.com", some "pw"⟩
        ∧ Stored .reference (Platform.reference.digest "u") db'
            ⟨some "me@x.co", some "zz.com", some "pw"⟩ := by
  obtain ⟨db, h⟩ := exists_referenceHistory
  have haccepted : Accepted .reference (Platform.reference.digest "u") db
      (newSave (referenceCall none "" "").user "me@x.co" "xx.com" "new" ⟨[], [], []⟩) :=
    ⟨rfl, by decide +kernel, by simp [newSave]⟩
  have hlast : lastSave .reference referenceHistory
      (Credential.credHash .reference "me@x.co" "xx.com")
        = some ⟨some "me@x.co", some "xx.com", some "pw"⟩ := by
    decide +kernel
  obtain ⟨db', hstep, hkeeps⟩ := (new_save_keeps_others_iff h haccepted).mpr (by
    intro credential hcredential
    rw [hlast] at hcredential
    cases hcredential
    exact .inl rfl)
  have hedited : Stored .reference (Platform.reference.digest "u") db
      ⟨some "me@x.co", some "zz.com", some "pw"⟩ := by
    refine ⟨Credential.credHash .reference "me@x.co" "yy.com", ?_⟩
    rw [h.storedAt_iff]
    decide +kernel
  exact ⟨db, db', h, hstep, hedited, hkeeps _ hedited (by decide)⟩

theorem new_save_destroys_edited_credential
    : ∃ db, History .reference (Platform.reference.digest "u") .null
          [referenceCall none "me@x.co" "xx.com",
            referenceCall (some (Credential.credHash .reference "me@x.co" "xx.com")) "me@x.co"
              "yy.com"] db
        ∧ Accepted .reference (Platform.reference.digest "u") db
            (newSave (referenceCall none "" "").user "me@x.co" "xx.com" "pw" ⟨[], [], []⟩)
        ∧ Credential.credHash .reference "me@x.co" "xx.com"
            ≠ Credential.credHash .reference "me@x.co" "yy.com"
        ∧ ¬ ∃ db', step .reference db
              (newSave (referenceCall none "" "").user "me@x.co" "xx.com" "pw" ⟨[], [], []⟩)
                = .ok db'
            ∧ ∀ credential, Stored .reference (Platform.reference.digest "u") db credential
                → pair credential ≠ (some "me@x.co", some "xx.com")
                → Stored .reference (Platform.reference.digest "u") db' credential := by
  obtain ⟨db₁, h₁⟩ := history_one_save
  have hedit : Accepted .reference (Platform.reference.digest "u") db₁
      (referenceCall (some (Credential.credHash .reference "me@x.co" "xx.com")) "me@x.co"
        "yy.com") := by
    apply referenceCall_accepted
    . decide +kernel
    . intro k hk
      cases hk
      rw [h₁.mem_keys_iff]
      exact ⟨referenceCall none "me@x.co" "xx.com", by simp, rfl⟩
  obtain ⟨db, -, h⟩ := h₁.concat hedit
  have hnew : Accepted .reference (Platform.reference.digest "u") db
      (newSave (referenceCall none "" "").user "me@x.co" "xx.com" "pw" ⟨[], [], []⟩) :=
    ⟨rfl, by decide +kernel, by simp [newSave]⟩
  refine ⟨db, h, hnew, by decide +kernel, ?_⟩
  rintro ⟨db', hstep, hkeeps⟩
  obtain ⟨db'', hstep', h'⟩ := h.concat hnew
  rw [hstep] at hstep'
  cases hstep'
  have hedited : Stored .reference (Platform.reference.digest "u") db
      ⟨some "me@x.co", some "yy.com", some "pw"⟩ := by
    refine ⟨Credential.credHash .reference "me@x.co" "xx.com", ?_⟩
    rw [h.storedAt_iff]
    decide +kernel
  obtain ⟨k, hk⟩ := hkeeps _ hedited (by simp [pair])
  rw [h'.storedAt_iff] at hk
  -- all saves of the history go to the key that the new save has overwritten
  have hkey : k = Credential.credHash .reference "me@x.co" "xx.com" := by
    obtain ⟨call, hcall, hkey, -⟩ := exists_call_of_lastSave hk
    simp only [List.mem_append, List.mem_singleton] at hcall
    rw [← hkey]
    rcases hcall with (hcall | hcall) | hcall
    . rw [hcall]
      rfl
    . rw [hcall]
      rfl
    . rw [hcall]
      rfl
  rw [hkey, lastSave_concat, newSave_key, if_pos rfl] at hk
  simp [newSave] at hk

theorem uniquePairs_iff {db : Json} {stored : List (String × Credential)}
    (h : Represents P uid db stored) : UniquePairs P uid db ↔ Dictionary.Separates pair stored := by
  unfold UniquePairs Dictionary.Separates
  simp only [h.storedAt_iff]

/--
There is one entry for each username and website in all states of a run exactly if no call of the
run saves a pair that is stored under another key than its own.
-/
theorem one_entry_per_pair_iff {db₀ : Json} {calls : List SaveCall} (hempty : subtree uid db₀ = [])
    (hcalls : Transition.Meets (step P) (Accepted P uid) db₀ calls)
    : Transition.Always (step P) (UniquePairs P uid) db₀ calls
        ↔
      Transition.Meets (step P)
        (fun db call =>
          ∀ k credential, StoredAt P uid db k credential
            → pair credential = pair call.credential
            → k = call.key P)
        db₀ calls := by
  apply Transition.always_iff_meets_of_kind (step P) (A := Accepted P uid)
    (I := fun db => ∃ stored, Represents P uid db stored)
  . rintro db call db' ⟨stored, hdb⟩ hcall hstep
    exact ⟨_, represents_of_step hdb hcall hstep⟩
  . rintro db call db' ⟨stored, hdb⟩ hcall hunique hstep
    rw [uniquePairs_iff hdb] at hunique
    rw [uniquePairs_iff (represents_of_step hdb hcall hstep), Dictionary.separates_set_iff hunique]
    simp only [hdb.storedAt_iff]
  . exact ⟨[], represents_nil hempty⟩
  . rw [uniquePairs_iff (represents_nil hempty)]
    intro j k v w hj
    cases hj
  . exact hcalls

theorem own_key_of_pairwise {db₀ db : Json} {calls : List SaveCall}
    (h : History P uid db₀ calls db)
    (hpairs : calls.Pairwise (fun call other => pair call.credential ≠ pair other.credential))
    : Transition.Meets (step P)
        (fun db call =>
          ∀ k credential, StoredAt P uid db k credential
            → pair credential = pair call.credential
            → k = call.key P)
        db₀ calls := by
  intro pre call t u hpre hrun hstep k credential hstored hpair
  have hbefore : History P uid db₀ pre t :=
    h.of_prefix ((List.prefix_append pre [call]).trans hpre) hrun
  rw [hbefore.storedAt_iff] at hstored
  obtain ⟨other, hother, -, rfl⟩ := exists_call_of_lastSave hstored
  -- an earlier call would have saved the pair of this one
  have hne := List.pairwise_append.mp (hpairs.sublist hpre.sublist)
  exact absurd hpair (hne.right.right other hother call (by simp))

theorem one_entry_per_pair_three_sites
    : Transition.Always (step .reference) (UniquePairs .reference (Platform.reference.digest "u"))
        .null referenceHistory := by
  obtain ⟨db, h⟩ := exists_referenceHistory
  rw [one_entry_per_pair_iff h.empty h.accepted]
  apply own_key_of_pairwise h
  decide

theorem edit_duplicates_pair
    : Transition.Meets (step .reference)
          (Accepted .reference (Platform.reference.digest "u")) .null
          [referenceCall none "me@x.co" "xx.com", referenceCall none "me@x.co" "yy.com",
            referenceCall (some (Credential.credHash .reference "me@x.co" "yy.com")) "me@x.co"
              "xx.com"]
        ∧ ¬ Transition.Always (step .reference)
          (UniquePairs .reference (Platform.reference.digest "u")) .null
          [referenceCall none "me@x.co" "xx.com", referenceCall none "me@x.co" "yy.com",
            referenceCall (some (Credential.credHash .reference "me@x.co" "yy.com")) "me@x.co"
              "xx.com"] := by
  obtain ⟨db₁, h₁⟩ := history_one_save
  have hsecond : Accepted .reference (Platform.reference.digest "u") db₁
      (referenceCall none "me@x.co" "yy.com") :=
    referenceCall_accepted (by decide +kernel) (by simp)
  obtain ⟨db₂, -, h₂⟩ := h₁.concat hsecond
  have hedit : Accepted .reference (Platform.reference.digest "u") db₂
      (referenceCall (some (Credential.credHash .reference "me@x.co" "yy.com")) "me@x.co"
        "xx.com") := by
    apply referenceCall_accepted
    . decide +kernel
    . intro k hk
      cases hk
      rw [h₂.mem_keys_iff]
      exact ⟨referenceCall none "me@x.co" "yy.com", by simp, rfl⟩
  obtain ⟨db, -, h⟩ := h₂.concat hedit
  refine ⟨h.accepted, ?_⟩
  intro halways
  have hunique := halways _ db List.prefix_rfl h.run
  have hkeys : Credential.credHash .reference "me@x.co" "xx.com"
      ≠ Credential.credHash .reference "me@x.co" "yy.com" := by
    decide +kernel
  apply hkeys
  apply hunique _ _ ⟨some "me@x.co", some "xx.com", some "pw"⟩
    ⟨some "me@x.co", some "xx.com", some "pw"⟩
  . rw [h.storedAt_iff]
    decide +kernel
  . rw [h.storedAt_iff]
    decide +kernel
  . rfl

end Vault
