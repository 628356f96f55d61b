import PasswordManager.Vault.Basic

/-!
This module contains the proof that the encrypted database behaves like a dictionary of credentials
in which each accepted call sets the credential of its key.
-/

namespace Vault

open ListViewController

variable {P : Platform} {uid : String}

theorem pathPieces_entry {k : String} (huid : uid ≠ "") (huid' : '/' ∉ uid.toList) (hk : k ≠ "")
    (hk' : '/' ∉ k.toList)
    : Json.pathPieces ("Credentials/" ++ uid ++ "/" ++ k) = ["Credentials", uid, k] := by
  have hjoin : "Credentials/" ++ uid ++ "/" ++ k
      = String.ofList (['/'].intercalate (["Credentials", uid, k].map String.toList)) := by
    rw [← String.toList_inj]
    simp [List.intercalate]
  rw [hjoin]
  apply Json.pathPieces_join
  . simp
  . simp [huid', hk']
  . simp [huid, hk]

theorem pathPieces_subtree (huid : uid ≠ "") (huid' : '/' ∉ uid.toList)
    : Json.pathPieces ("Credentials/" ++ uid) = ["Credentials", uid] := by
  have hjoin : "Credentials/" ++ uid
      = String.ofList (['/'].intercalate (["Credentials", uid].map String.toList)) := by
    rw [← String.toList_inj]
    simp [List.intercalate]
  rw [hjoin]
  apply Json.pathPieces_join
  . simp
  . simp [huid']
  . simp [huid]

theorem subtree_setValue {path k : String} (h : Json.pathPieces path = ["Credentials", uid, k])
    (db value : Json)
    : subtree uid (setValue db ⟨path, value⟩) = Dictionary.set k value (subtree uid db) := by
  have happend : ["Credentials", uid, k] = ["Credentials", uid] ++ [k] := rfl
  unfold subtree setValue
  rw [h, happend, Json.get_set_append, Json.entries_set_singleton]

theorem entryDecryption_record {username website password : String}
    {encryptedUsername encryptedWebsite encryptedPassword : String}
    (husername : encryptedUsername.plaintext P uid = some username)
    (hwebsite : encryptedWebsite.plaintext P uid = some website)
    (hpassword : encryptedPassword.plaintext P uid = some password)
    : entryDecryption P uid (Credential.record encryptedUsername encryptedWebsite encryptedPassword)
        =
      some ⟨some username, some website, some password⟩ := by
  simp [entryDecryption, Credential.record, Json.asDictionary, rawCredential, Json.asString,
    Credential.decryption, husername, hwebsite, hpassword, List.lookup_cons]

theorem key_of_fields (call : SaveCall) {username website password : String}
    (h : call.credential = ⟨some username, some website, some password⟩)
    : Credential.dbPath P uid call.credId username website
        =
      "Credentials/" ++ uid ++ "/" ++ call.key P := by
  unfold Credential.dbPath SaveCall.key
  cases call.credId with
  | none => simp [h]
  | some credId => rfl

structure Represents (P : Platform) (uid : String) (db : Json) (stored : List (String × Credential))
    : Prop where
  digest : ∀ k ∈ Dictionary.keys stored, ∃ text, k = P.digest text
  decrypts : Dictionary.mapValues (entryDecryption P uid) (subtree uid db)
    = Dictionary.mapValues some stored

namespace Represents

variable {db : Json} {stored : List (String × Credential)} (h : Represents P uid db stored)

include h

theorem keys_eq : Dictionary.keys (subtree uid db) = Dictionary.keys stored := by
  rw [← Dictionary.keys_mapValues (entryDecryption P uid), h.decrypts, Dictionary.keys_mapValues]

theorem storedAt_iff {k : String} {credential : Credential}
    : StoredAt P uid db k credential ↔ stored.lookup k = some credential := by
  have hlookup : ((subtree uid db).lookup k).map (entryDecryption P uid)
      = (stored.lookup k).map some := by
    rw [← Dictionary.lookup_mapValues, h.decrypts, Dictionary.lookup_mapValues]
  unfold StoredAt
  cases hcred : (subtree uid db).lookup k with
  | none =>
    rw [hcred] at hlookup
    cases hstored : stored.lookup k with
    | none => simp
    | some other => simp [hstored] at hlookup
  | some cred =>
    rw [hcred] at hlookup
    cases hstored : stored.lookup k with
    | none => simp [hstored] at hlookup
    | some other =>
      simp only [hstored, Option.map_some, Option.some.injEq] at hlookup
      simp [hlookup]

theorem key_digest {call : SaveCall} (hcall : Accepted P uid db call)
    : ∃ text, call.key P = P.digest text := by
  unfold SaveCall.key
  cases hcredId : call.credId with
  | none => exact ⟨_, rfl⟩
  | some k =>
    apply h.digest
    rw [← h.keys_eq]
    exact hcall.present k hcredId

theorem step_ok {call : SaveCall} (hcall : Accepted P uid db call)
    : ∃ db', step P db call = .ok db'
        ∧ Represents P uid db' (Dictionary.set (call.key P) call.credential stored) := by
  obtain ⟨username, website, password, hfields, -, -⟩ := Credential.validate_fields hcall.valid
  have hvalid := hcall.valid
  rw [hfields] at hvalid
  obtain ⟨encryptedUsername, encryptedWebsite, encryptedPassword, hsave, husername, hwebsite,
    hpassword⟩ := Credential.save_of_validate hcall.user hvalid call.salts call.credId
  obtain ⟨text, htext⟩ := h.key_digest hcall
  have hpath : Json.pathPieces (Credential.dbPath P uid call.credId username website)
      = ["Credentials", uid, call.key P] := by
    rw [key_of_fields call hfields]
    apply pathPieces_entry
    . exact AuthenticatedUser.uidHash_ne_empty hcall.user
    . exact AuthenticatedUser.uidHash_not_slash hcall.user
    . rw [htext]
      apply Platform.digest_ne_empty
    . rw [htext]
      apply Platform.digest_not_slash
  rw [← hfields] at hsave
  simp only [step, hsave, bind, Except.bind, pure, Except.pure]
  refine ⟨_, rfl, ?_, ?_⟩
  . intro k hk
    rw [Dictionary.mem_keys_set] at hk
    cases hk with
    | inl heq => exact ⟨text, heq.trans htext⟩
    | inr hmem => exact h.digest k hmem
  . rw [subtree_setValue hpath, Dictionary.mapValues_set, Dictionary.mapValues_set, h.decrypts]
    rw [entryDecryption_record husername hwebsite hpassword, hfields]

end Represents

theorem represents_nil {db : Json} (h : subtree uid db = []) : Represents P uid db [] := by
  constructor
  . simp
  . rw [h]
    rfl

theorem represents_of_step {db db' : Json} {stored : List (String × Credential)} {call : SaveCall}
    (h : Represents P uid db stored) (hcall : Accepted P uid db call)
    (hstep : step P db call = .ok db')
    : Represents P uid db' (Dictionary.set (call.key P) call.credential stored) := by
  obtain ⟨db'', hstep', hnext⟩ := h.step_ok hcall
  rw [hstep] at hstep'
  cases hstep'
  exact hnext

namespace History

variable {db₀ db : Json} {calls : List SaveCall} (h : History P uid db₀ calls db)

include h

theorem represents : Represents P uid db (Dictionary.replay (writes P calls)) := by
  have hrun := Transition.run_simulates (step P)
    (fun stored call => Dictionary.set (call.key P) call.credential stored)
    (R := Represents P uid) (A := Accepted P uid)
    (fun _ _ _ _ hrepresents hcall hstep => represents_of_step hrepresents hcall hstep)
    (represents_nil h.empty) h.accepted h.run
  unfold Dictionary.replay writes
  rw [List.foldl_map]
  exact hrun

theorem storedAt_iff {k : String} {credential : Credential}
    : StoredAt P uid db k credential ↔ lastSave P calls k = some credential := by
  rw [h.represents.storedAt_iff, Dictionary.lookup_replay]
  rfl

theorem keys_eq
    : Dictionary.keys (subtree uid db)
        =
      Dictionary.keys (Dictionary.replay (writes P calls)) := by
  exact h.represents.keys_eq

theorem nodup_keys : (Dictionary.keys (subtree uid db)).Nodup := by
  rw [h.keys_eq]
  apply Dictionary.nodup_keys_replay

theorem mem_keys_iff {k : String}
    : k ∈ Dictionary.keys (subtree uid db) ↔ ∃ call ∈ calls, call.key P = k := by
  rw [h.keys_eq, Dictionary.mem_keys_replay]
  simp [Dictionary.keys, writes]

theorem concat {call : SaveCall} (hcall : Accepted P uid db call)
    : ∃ db', step P db call = .ok db' ∧ History P uid db₀ (calls ++ [call]) db' := by
  obtain ⟨db', hstep, -⟩ := h.represents.step_ok hcall
  refine ⟨db', hstep, h.empty, ?_, ?_⟩
  . rw [Transition.meets_concat]
    refine ⟨h.accepted, ?_⟩
    intro t u hrun _
    rw [h.run] at hrun
    cases hrun
    exact hcall
  . rw [Transition.run_concat_ok]
    exact ⟨db, h.run, hstep⟩

theorem of_prefix {pre : List SaveCall} {t : Json}
    (hpre : pre <+: calls) (hrun : Transition.run (step P) db₀ pre = .ok t)
    : History P uid db₀ pre t where
  empty := h.empty
  accepted := fun before call u v hbefore => h.accepted before call u v (hbefore.trans hpre)
  run := hrun

end History

theorem history_nil {db : Json} (h : subtree uid db = []) : History P uid db [] db where
  empty := h
  accepted := Transition.meets_nil _ _ _
  run := rfl

theorem lastSave_concat (calls : List SaveCall) (call : SaveCall) (k : String)
    : lastSave P (calls ++ [call]) k
        =
      if k = call.key P then some call.credential else lastSave P calls k := by
  unfold lastSave writes
  rw [List.map_append, List.map_singleton, Dictionary.lastWrite_concat]

theorem exists_call_of_lastSave {calls : List SaveCall} {k : String} {credential : Credential}
    (h : lastSave P calls k = some credential)
    : ∃ call ∈ calls, call.key P = k ∧ call.credential = credential := by
  have hmem := Dictionary.mem_of_lookup h
  rw [List.mem_reverse, writes, List.mem_map] at hmem
  obtain ⟨call, hcall, heq⟩ := hmem
  rw [Prod.mk.injEq] at heq
  exact ⟨call, hcall, heq.left, heq.right⟩

def referenceCall (credId : Option String) (username website : String) : SaveCall where
  user := { observers := [], user := some ⟨"u"⟩ }
  credId
  credential := ⟨some username, some website, some "pw"⟩
  salts := ⟨[], [], []⟩

theorem referenceCall_uidHash (credId : Option String) (username website : String)
    : (referenceCall credId username website).user.uidHash .reference
        =
      .ok (Platform.reference.digest "u") := by
  rfl

theorem referenceCall_accepted {db : Json} {credId : Option String} {username website : String}
    (hvalid : (referenceCall credId username website).credential.validate .reference = true)
    (hpresent : ∀ k, credId = some k
      → k ∈ Dictionary.keys (subtree (Platform.reference.digest "u") db))
    : Accepted .reference (Platform.reference.digest "u") db
        (referenceCall credId username website) where
  user := referenceCall_uidHash credId username website
  valid := hvalid
  present := hpresent

theorem history_one_save
    : ∃ db, History .reference (Platform.reference.digest "u") .null
        [referenceCall none "me@x.co" "xx.com"] db := by
  have haccepted : Accepted .reference (Platform.reference.digest "u") .null
      (referenceCall none "me@x.co" "xx.com") :=
    referenceCall_accepted (by decide +kernel) (by simp)
  obtain ⟨db, -, h⟩ := (history_nil rfl).concat haccepted
  exact ⟨db, h⟩

theorem history_two_saves
    : ∃ db, History .reference (Platform.reference.digest "u") .null
        [referenceCall none "me@x.co" "xx.com", referenceCall none "me@x.co" "yy.com"] db := by
  obtain ⟨db, h⟩ := history_one_save
  have haccepted : Accepted .reference (Platform.reference.digest "u") db
      (referenceCall none "me@x.co" "yy.com") :=
    referenceCall_accepted (by decide +kernel) (by simp)
  obtain ⟨db', -, h'⟩ := h.concat haccepted
  exact ⟨db', h'⟩

def referenceEdit : SaveCall :=
  referenceCall (some (Credential.credHash .reference "me@x.co" "yy.com")) "me@x.co" "zz.com"

def referenceHistory : List SaveCall :=
  [referenceCall none "me@x.co" "xx.com", referenceCall none "me@x.co" "yy.com", referenceEdit]

theorem referenceEdit_accepted {db : Json} {calls : List SaveCall}
    (h : History .reference (Platform.reference.digest "u") .null calls db)
    (hmem : referenceCall none "me@x.co" "yy.com" ∈ calls)
    : Accepted .reference (Platform.reference.digest "u") db referenceEdit := by
  apply referenceCall_accepted
  . decide +kernel
  . intro k hk
    cases hk
    rw [h.mem_keys_iff]
    exact ⟨_, hmem, rfl⟩

theorem exists_referenceHistory
    : ∃ db, History .reference (Platform.reference.digest "u") .null referenceHistory db := by
  obtain ⟨db, h⟩ := history_two_saves
  obtain ⟨db', -, h'⟩ := h.concat (referenceEdit_accepted h (by simp))
  exact ⟨db', h'⟩

end Vault
