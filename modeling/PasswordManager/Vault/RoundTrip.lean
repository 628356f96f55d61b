import PasswordManager.App.Loading
import PasswordManager.Vault.Refinement

/-!
This module contains the way of credentials through the database: what a list shows after it has
been reloaded from a database that was written by `Credential.save`.
-/

namespace Vault

open ListViewController

variable (P : Platform)

structure ShowsHistory (calls : List SaveCall) (self : ListViewController) : Prop where
  credentials_length : self.credentials.length = (calls.map (fun call => call.key P)).dedup.length
  credentialIDs_length :
    self.credentialIDs.length = (calls.map (fun call => call.key P)).dedup.length
  nodup : self.credentialIDs.Nodup
  credentialIDs : ∀ k, k ∈ self.credentialIDs ↔ ∃ call ∈ calls, call.key P = k
  rows : ∀ (i : Nat) (credId : String), self.credentialIDs[i]? = some credId
    → ∃ credential, self.credentials[i]? = some credential
        ∧ lastSave P calls credId = some credential

variable {P} {uid : String}

namespace History

variable {db₀ db : Json} {calls : List SaveCall} (h : History P uid db₀ calls db)
  {order : List (String × Json)} (hperm : order.Perm (subtree uid db))

include h hperm

theorem nodup_of_perm : (Dictionary.keys order).Nodup := by
  rw [Dictionary.keys, (hperm.map Prod.fst).nodup_iff]
  exact h.nodup_keys

theorem keys_perm : (Dictionary.keys order).Perm (calls.map (fun call => call.key P)).dedup := by
  have hwrites : calls.map (fun call => call.key P) = Dictionary.keys (writes P calls) := by
    simp [Dictionary.keys, writes]
  apply (hperm.map Prod.fst).trans
  have hkeys := h.keys_eq
  unfold Dictionary.keys at hkeys
  rw [hkeys, hwrites]
  apply Dictionary.keys_replay_perm

theorem entryDecryption_eq {entry : String × Json} (hmem : entry ∈ order)
    : ∃ credential, entryDecryption P uid entry.2 = some credential
        ∧ lastSave P calls entry.1 = some credential := by
  have hsubtree : entry ∈ subtree uid db := by rwa [← hperm.mem_iff]
  have hlookup := (Dictionary.lookup_eq_some_iff_mem h.nodup_keys).mpr hsubtree
  have hkey : entry.1 ∈ Dictionary.keys (Dictionary.replay (writes P calls)) := by
    rw [← h.keys_eq]
    exact List.mem_map.mpr ⟨entry, hsubtree, rfl⟩
  rw [← Dictionary.lookup_isSome_iff_mem_keys, Dictionary.lookup_replay,
    Option.isSome_iff_exists] at hkey
  obtain ⟨credential, hlast⟩ := hkey
  obtain ⟨cred, hcred, hdecrypts⟩ := h.storedAt_iff.mpr hlast
  rw [hlookup] at hcred
  cases hcred
  exact ⟨credential, hdecrypts, hlast⟩

theorem decrypts_of_mem {entry : String × Json} (hmem : entry ∈ order)
    : (entryDecryption P uid entry.2).isSome := by
  obtain ⟨credential, hdecrypts, -⟩ := h.entryDecryption_eq hperm hmem
  simp [hdecrypts]

theorem showsHistory_of_arrays {self : ListViewController}
    (hcredentials : self.credentials = order.filterMap (fun entry => entryDecryption P uid entry.2))
    (hids : self.credentialIDs = Dictionary.keys order) : ShowsHistory P calls self := by
  have hall : ∀ entry ∈ order, (entryDecryption P uid entry.2).isSome := by
    intro entry hmem
    exact h.decrypts_of_mem hperm hmem
  have hlength : (Dictionary.keys order).length
      = (calls.map (fun call => call.key P)).dedup.length := (h.keys_perm hperm).length_eq
  constructor
  . rw [hcredentials, List.filterMap_length_eq_length.mpr hall, ← hlength, Dictionary.keys,
      List.length_map]
  . rw [hids, hlength]
  . rw [hids]
    exact h.nodup_of_perm hperm
  . intro k
    rw [hids, (h.keys_perm hperm).mem_iff, List.mem_dedup, List.mem_map]
  . intro i credId hcredId
    rw [hids, Dictionary.keys, List.getElem?_map] at hcredId
    obtain ⟨entry, hentry, rfl⟩ := Option.map_eq_some_iff.mp hcredId
    obtain ⟨credential, hdecrypts, hlast⟩ :=
      h.entryDecryption_eq hperm (List.mem_of_getElem? hentry)
    refine ⟨credential, ?_, hlast⟩
    rw [hcredentials, List.getElem?_filterMap_of_forall_isSome hall, hentry]
    exact hdecrypts

end History

theorem showsHistory_of_snapshot {db₀ db : Json} {calls : List SaveCall}
    (h : History P uid db₀ calls db) {app : App} {index list : Nat} {path : String}
    (hrequest : app.pending[index]? = some (.observeSingleEvent list path))
    (huid : app.authenticatedUser.uidHash P = .ok uid) {snapshot : DataSnapshot}
    {order : List (String × Json)} (hvalue : snapshot.value.asDictionary = some order)
    (hperm : order.Perm (subtree uid db))
    : ∃ app', app.step P (.complete index (.snapshot snapshot)) = .ok app'
        ∧ ShowsHistory P calls (app'.lists list) := by
  have hall : order.all (fun entry => isRecord entry.2) = true := by
    rw [List.all_eq_true]
    intro entry hmem
    exact isRecord_of_decrypts (h.decrypts_of_mem hperm hmem)
  have hcrash : ∀ entry ∈ order, ¬ EntryCrashes P uid entry.2 := by
    intro entry hmem
    exact not_entryCrashes_of_decrypts huid (h.decrypts_of_mem hperm hmem)
  have hentries : snapshot.value.entries = order := by simp [Json.entries, hvalue]
  have hok := App.step_snapshot_ok_iff hrequest huid snapshot
  rw [hentries, reached_eq_self hall] at hok
  obtain ⟨app', hstep⟩ := hok.mpr hcrash
  refine ⟨app', hstep, ?_⟩
  have hsnapshot := App.lists_of_snapshot hrequest hstep
  rcases onSnapshot_of_dictionary huid hvalue hsnapshot with ⟨-, hlist, -⟩ | ⟨hfalse, -, -⟩
  . rw [hlist]
    apply h.showsHistory_of_arrays hperm
    . simp [reloadTable, rebuilt, reached_eq_self hall]
    . simp [reloadTable, rebuilt, reached_eq_self hall]
  . rw [hall] at hfalse
    cases hfalse

/--
Reloading a list makes a query, and whenever that query is answered with what the history has left
at its path, in whatever order, the list shows the history.
-/
theorem save_reload_round_trip {db₀ db : Json} {calls : List SaveCall}
    (h : History P uid db₀ calls db) {app : App} {list : Nat}
    (hsetUp : (app.lists list).isSetUp = true)
    (huid : app.authenticatedUser.uidHash P = .ok uid)
    : ∃ asked, app.reloadData P list = .ok asked
        ∧ asked.pending = app.pending ++ [.observeSingleEvent list ("Credentials/" ++ uid)]
        ∧ ∀ (later : App) (index : Nat) (snapshot : DataSnapshot) (order : List (String × Json)),
            later.pending[index]? = some (.observeSingleEvent list ("Credentials/" ++ uid))
              → later.authenticatedUser.uidHash P = .ok uid
              → snapshot.value.asDictionary = some order
              → order.Perm (db.get (Json.pathPieces ("Credentials/" ++ uid))).entries
              → ∃ app', later.step P (.complete index (.snapshot snapshot)) = .ok app'
                  ∧ ShowsHistory P calls (app'.lists list) := by
  refine ⟨_, App.reloadData_of_user hsetUp huid, rfl, ?_⟩
  intro later index snapshot order hrequest huid' hvalue hperm
  rw [pathPieces_subtree] at hperm
  . exact showsHistory_of_snapshot h hrequest huid' hvalue hperm
  . exact AuthenticatedUser.uidHash_ne_empty huid
  . exact AuthenticatedUser.uidHash_not_slash huid

def referenceApp : App where
  sharedInstance := some { authenticatedUser := (referenceCall none "" "").user, listener := {} }
  lists _ := { isSetUp := true }

theorem save_reload_round_trip_three_sites
    : ∃ (db : Json) (asked app' : App) (snapshot : DataSnapshot),
        History .reference (Platform.reference.digest "u") .null referenceHistory db
          ∧ referenceApp.reloadData .reference 0 = .ok asked
          ∧ snapshot.value = .dictionary (subtree (Platform.reference.digest "u") db)
          ∧ asked.step .reference (.complete 0 (.snapshot snapshot)) = .ok app'
          ∧ ShowsHistory .reference referenceHistory (app'.lists 0) := by
  obtain ⟨db, hhistory⟩ := exists_referenceHistory
  have hsetUp : (referenceApp.lists 0).isSetUp = true := rfl
  obtain ⟨asked, hasked, hpending, hanswered⟩ := save_reload_round_trip hhistory hsetUp rfl
  have huid := (App.reloads_of_reloadData hasked).authenticatedUser_eq
  obtain ⟨app', hstep, hshows⟩ := hanswered asked 0
    ⟨.dictionary (subtree (Platform.reference.digest "u") db), hhistory.nodup_keys⟩
    (subtree (Platform.reference.digest "u") db) (by rw [hpending]; rfl) (by rw [huid]; rfl) rfl
    (by
      rw [pathPieces_subtree]
      . rfl
      . apply Platform.digest_ne_empty
      . apply Platform.digest_not_slash)
  exact ⟨db, asked, app', _, hhistory, hasked, rfl, hstep, hshows⟩

end Vault
