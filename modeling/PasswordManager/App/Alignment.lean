import PasswordManager.App.Queries

/-!
This module contains the relation between the two arrays of a list, the credentials it shows and the
keys it saves them under, along every run of the app.
-/

namespace App

structure Traced where
  app : App
  processed : Option (String × Json)

namespace Traced

variable (P : Platform) (list : Nat)

def nextProcessed (t : Traced) : Event → Option (String × Json)
  | .complete index (.snapshot snapshot) =>
    match t.app.pending[index]? with
    | some (.observeSingleEvent other _) =>
      if other = list then
        (t.app.authenticatedUser.uidHash P).toOption.map (fun uid => (uid, snapshot.value))
      else
        t.processed
    | _ => t.processed
  | _ => t.processed

def step (t : Traced) (e : Event) : Except Trap Traced :=
  (t.app.step P e).map (fun app => { app, processed := t.nextProcessed P list e })

def launch (currentUser : Option User) : Traced where
  app := App.launch currentUser
  processed := none

def ReadUnder (t : Traced) (uid : String) (credential : Credential) (credId : String) : Prop :=
  ∃ value cred,
    t.processed = some (uid, value)
      ∧ value.entries.lookup credId = some cred
      ∧ ListViewController.entryDecryption P uid cred = some credential

def Shows (t : Traced) (credential : Credential) (credId : String) : Prop :=
  ∃ uid, t.ReadUnder P uid credential credId

def Aligned (t : Traced) : Prop :=
  (t.app.lists list).credentials.length = (t.app.lists list).credentialIDs.length
    ∧ ∀ (i : Nat) (credential : Credential) (credId : String),
        (t.app.lists list).credentials[i]? = some credential
          → (t.app.lists list).credentialIDs[i]? = some credId
          → t.Shows P credential credId

/--
Whatever row is selected, the editor gets the credential that the row shows and the key of its
entry, and whatever the user turns the credential into, saving it writes to that key. While the
account is the one that the rows were read under, that is the entry of the row.
-/
def EditsOwnEntry (t : Traced) : Prop :=
  ∀ (row : Nat) (blank editor : EditCredentialsViewController),
    ((t.app.lists list).didSelectRowAt row).prepareForSegue blank = .ok editor
      → ∃ credential credId uid,
          editor.credential = some credential
            ∧ (t.app.lists list).cellForRowAt row = .ok (credential.username, credential.website)
            ∧ t.ReadUnder P uid credential credId
            ∧ ∀ (edited : Credential) (salts : Salts) (write : Write),
                { editor with credential := some edited }.onSaveButtonPressed P
                    t.app.authenticatedUser salts = .ok (some write)
                  → ∃ saved, t.app.authenticatedUser.uidHash P = .ok saved
                      ∧ write.path = "Credentials/" ++ saved ++ "/" ++ credId
                      ∧ (t.app.authenticatedUser.uidHash P = .ok uid
                        → write.path = "Credentials/" ++ uid ++ "/" ++ credId)

/--
The condition on a step: a list appears only while it has no keys, a snapshot without a dictionary
comes only while the list is empty, and of a dictionary every entry up to the first one that is no
record decrypts.
-/
def KeepsAligned (t : Traced) : Event → Prop
  | .viewWillAppear other _ => other = list → (t.app.lists list).credentialIDs = []
  | .complete index (.snapshot snapshot) =>
    ∀ path, t.app.pending[index]? = some (.observeSingleEvent list path)
      → match snapshot.value.asDictionary with
        | none => (t.app.lists list).credentials = []
        | some creds =>
          ∀ uid, t.app.authenticatedUser.uidHash P = .ok uid
            → ∀ entry ∈ ListViewController.reached creds,
                (ListViewController.entryDecryption P uid entry.2).isSome
  | _ => True

variable {P list}

theorem step_ok {t t' : Traced} {e : Event} (h : t.step P list e = .ok t')
    : t.app.step P e = .ok t'.app ∧ t'.processed = t.nextProcessed P list e := by
  unfold step at h
  cases hstep : t.app.step P e with
  | error trap => simp [hstep, Except.map] at h
  | ok app =>
    simp only [hstep, Except.map, Except.ok.injEq] at h
    subst h
    exact ⟨rfl, rfl⟩

theorem nextProcessed_of_not_concerns {t : Traced} {e : Event} (h : ¬ t.app.concerns list e)
    : t.nextProcessed P list e = t.processed := by
  unfold nextProcessed
  split
  . split
    . next other path hrequest =>
      split
      . next heq =>
        subst heq
        exact (h ⟨path, hrequest⟩).elim
      . rfl
    . rfl
  . rfl

theorem keepsAligned_of_not_concerns {t : Traced} {e : Event} (h : ¬ t.app.concerns list e)
    : t.KeepsAligned P list e := by
  unfold KeepsAligned
  split
  . intro heq
    exact (h heq).elim
  . intro path hrequest
    exact (h ⟨path, hrequest⟩).elim
  . trivial

theorem aligned_congr {t t' : Traced}
    (hcredentials : (t'.app.lists list).credentials = (t.app.lists list).credentials)
    (hids : (t'.app.lists list).credentialIDs = (t.app.lists list).credentialIDs)
    (hprocessed : t'.processed = t.processed) : t'.Aligned P list ↔ t.Aligned P list := by
  unfold Aligned Shows ReadUnder
  rw [hcredentials, hids, hprocessed]

theorem aligned_rebuilt_iff {t : Traced} {creds : List (String × Json)} {uid : String}
    {value : Json}
    (hcredentials : (t.app.lists list).credentials
      = (ListViewController.reached creds).filterMap
          (fun entry => ListViewController.entryDecryption P uid entry.2))
    (hids : (t.app.lists list).credentialIDs
      = Dictionary.keys (ListViewController.reached creds))
    (hprocessed : t.processed = some (uid, value)) (hvalue : value.entries = creds)
    (hnodup : (Dictionary.keys creds).Nodup)
    : t.Aligned P list
        ↔
      ∀ entry ∈ ListViewController.reached creds,
        (ListViewController.entryDecryption P uid entry.2).isSome := by
  have hlength : (t.app.lists list).credentials.length = (t.app.lists list).credentialIDs.length
      ↔ ∀ entry ∈ ListViewController.reached creds,
          (ListViewController.entryDecryption P uid entry.2).isSome := by
    rw [hcredentials, hids, Dictionary.keys, List.length_map]
    exact List.filterMap_length_eq_length
  constructor
  . rintro ⟨hlen, -⟩
    exact hlength.mp hlen
  . intro hall
    refine ⟨hlength.mpr hall, ?_⟩
    intro i credential credId hcredential hcredId
    rw [hcredentials, List.getElem?_filterMap_of_forall_isSome hall] at hcredential
    rw [hids, Dictionary.keys, List.getElem?_map] at hcredId
    obtain ⟨entry, hentry, hdecrypts⟩ := Option.bind_eq_some_iff.mp hcredential
    rw [hentry] at hcredId
    cases hcredId
    refine ⟨uid, value, entry.2, hprocessed, ?_, hdecrypts⟩
    rw [hvalue, Dictionary.lookup_eq_some_iff_mem hnodup]
    exact (List.takeWhile_sublist _).subset (List.mem_of_getElem? hentry)

theorem nextProcessed_of_snapshot {t : Traced} {index : Nat} {path uid : String}
    (hrequest : t.app.pending[index]? = some (.observeSingleEvent list path))
    (huid : t.app.authenticatedUser.uidHash P = .ok uid) (snapshot : DataSnapshot)
    : t.nextProcessed P list (.complete index (.snapshot snapshot))
        =
      some (uid, snapshot.value) := by
  simp [nextProcessed, hrequest, huid, Except.toOption]

theorem aligned_after_no_dictionary {t t' : Traced} (ht : t.Aligned P list)
    (hlists : t'.app.lists list = t.app.lists list) {uid : String} {value : Json}
    (hprocessed : t'.processed = some (uid, value)) (hvalue : value.asDictionary = none)
    : t'.Aligned P list ↔ (t.app.lists list).credentials = [] := by
  constructor
  . rintro ⟨hlen, hshows⟩
    rw [hlists] at hlen hshows
    cases hcredentials : (t.app.lists list).credentials with
    | nil => rfl
    | cons credential rest =>
      cases hids : (t.app.lists list).credentialIDs with
      | nil => simp [hcredentials, hids] at hlen
      | cons credId ids =>
        obtain ⟨uid', value', cred, heq, hlookup, -⟩ :=
          hshows 0 credential credId (by simp [hcredentials]) (by simp [hids])
        rw [hprocessed] at heq
        cases heq
        simp [Json.entries, hvalue] at hlookup
  . intro hnil
    have hids : (t.app.lists list).credentialIDs = [] := by
      rw [← List.length_eq_zero_iff, ← ht.left, hnil, List.length_nil]
    unfold Aligned
    rw [hlists, hnil, hids]
    simp

theorem step_aligned_iff {t t' : Traced} {e : Event} (hqueries : t.app.QueriesHaveUser)
    (ht : t.Aligned P list) (h : t.step P list e = .ok t')
    : t'.Aligned P list ↔ t.KeepsAligned P list e := by
  obtain ⟨hstep, hprocessed⟩ := step_ok h
  by_cases hconcerns : t.app.concerns list e
  . rcases concerns_cases hconcerns
      with ⟨uuid, rfl⟩ | rfl | ⟨index, path, snapshot, rfl, hrequest⟩
    . -- viewWillAppear
      have hlists := lists_of_viewWillAppear hstep
      unfold Aligned
      rw [hlists]
      simp only [List.length_nil, List.getElem?_nil, reduceCtorEq, false_implies, implies_true,
        and_true, KeepsAligned, true_implies]
      rw [eq_comm, List.length_eq_zero_iff]
    . -- viewWillDisappear
      have hlists := lists_of_viewWillDisappear hstep
      rw [aligned_congr (by rw [hlists]) (by rw [hlists]) hprocessed]
      exact ⟨fun _ => trivial, fun _ => ht⟩
    . -- a snapshot for the list
      obtain ⟨uid, huid⟩ := uidHash_of_query (P := P) hqueries hrequest
      have hsnapshot := lists_of_snapshot hrequest hstep
      rw [nextProcessed_of_snapshot hrequest huid] at hprocessed
      cases hvalue : snapshot.value.asDictionary with
      | none =>
        rw [ListViewController.onSnapshot_of_not_dictionary hvalue] at hsnapshot
        have hlists := congrArg Prod.fst (Except.ok.inj hsnapshot)
        rw [aligned_after_no_dictionary ht hlists.symm hprocessed hvalue]
        simp [KeepsAligned, hrequest, hvalue]
      | some creds =>
        have hentries : snapshot.value.entries = creds := by simp [Json.entries, hvalue]
        have hnodup := snapshot.nodup
        rw [hentries] at hnodup
        -- the table is not part of the relation, so both ways to leave the loop are alike
        have harrays : (t'.app.lists list).credentials
              = (ListViewController.rebuilt P uid creds (t.app.lists list)).credentials
            ∧ (t'.app.lists list).credentialIDs
              = (ListViewController.rebuilt P uid creds (t.app.lists list)).credentialIDs := by
          rcases ListViewController.onSnapshot_of_dictionary huid hvalue hsnapshot
            with ⟨-, hlist, -⟩ | ⟨-, hlist, -⟩
          . rw [hlist]
            exact ⟨rfl, rfl⟩
          . rw [hlist]
            exact ⟨rfl, rfl⟩
        rw [aligned_rebuilt_iff harrays.left harrays.right hprocessed hentries hnodup]
        simp [KeepsAligned, hrequest, hvalue, huid]
  . rw [nextProcessed_of_not_concerns hconcerns] at hprocessed
    have hlists := (step_frame hstep).lists list hconcerns
    rw [aligned_congr (by rw [hlists]) (by rw [hlists]) hprocessed]
    exact ⟨fun _ => keepsAligned_of_not_concerns hconcerns, fun _ => ht⟩

theorem launch_aligned (currentUser : Option User) : (launch currentUser).Aligned P list := by
  simp [Aligned, launch, App.launch]

theorem editsOwnEntry_of_aligned {t : Traced} (ht : t.Aligned P list) : t.EditsOwnEntry P list := by
  intro row blank editor hprepare
  simp only [ListViewController.prepareForSegue, ListViewController.didSelectRowAt] at hprepare
  cases hcredential : ListViewController.elementAt (t.app.lists list).credentials row with
  | error trap => simp [hcredential, bind, Except.bind] at hprepare
  | ok credential =>
    cases hcredId : ListViewController.elementAt (t.app.lists list).credentialIDs row with
    | error trap => simp [hcredential, hcredId, bind, Except.bind] at hprepare
    | ok credId =>
      simp only [hcredential, hcredId, bind, Except.bind, pure, Except.pure,
        Except.ok.injEq] at hprepare
      subst hprepare
      have hat := ListViewController.elementAt_ok_iff.mp hcredential
      obtain ⟨read, hread⟩ :=
        ht.right row credential credId hat (ListViewController.elementAt_ok_iff.mp hcredId)
      refine ⟨credential, credId, read, rfl, ?_, hread, ?_⟩
      . simp [ListViewController.cellForRowAt, hat]
      . intro edited salts write hsave
        simp only [EditCredentialsViewController.onSaveButtonPressed,
          EditCredentialsViewController.editFor, Bool.false_eq_true, ↓reduceIte] at hsave
        obtain ⟨-, uid, username, website, -, huid, -, hpath⟩ := Credential.save_eq_some hsave
        refine ⟨uid, huid, hpath, ?_⟩
        intro hread
        rw [huid] at hread
        cases hread
        exact hpath

/--
Row and key alignment, and what it means for the editor: it holds in all states of a run exactly if
all steps of the run meet the condition.
-/
theorem list_rows_aligned_iff (P : Platform) (list : Nat) (currentUser : Option User)
    (events : List Event)
    : Transition.Always (step P list)
          (fun t => t.Aligned P list ∧ t.EditsOwnEntry P list) (launch currentUser) events
        ↔
      Transition.Meets (step P list) (fun t e => t.KeepsAligned P list e) (launch currentUser)
        events := by
  apply Transition.always_iff_meets (I := fun t => t.app.QueriesHaveUser)
  . intro t e t' hqueries h
    exact step_queriesHaveUser (step_ok h).left hqueries
  . intro t e t' hqueries ht h
    rw [← step_aligned_iff hqueries ht.left h]
    exact ⟨fun h => h.left, fun h => ⟨h, editsOwnEntry_of_aligned h⟩⟩
  . exact launch_queriesHaveUser currentUser
  . have haligned : (launch currentUser).Aligned P list := launch_aligned currentUser
    exact ⟨haligned, editsOwnEntry_of_aligned haligned⟩

def undecryptableFirst : DataSnapshot where
  value :=
    .dictionary
      [("a", Credential.record "" "" ""),
        ("b", Credential.referenceRecord "u" "me@x.co" "xx.com" "pw")]
  nodup := by decide

theorem undecryptable_entry_misaligns
    : ¬ Transition.Always (step .reference 0)
        (fun t => t.Aligned .reference 0 ∧ t.EditsOwnEntry .reference 0) (launch (some ⟨"u"⟩))
        [.viewWillAppear 0 "id", .authStateDidChange,
          .complete 0 (.snapshot undecryptableFirst)] := by
  apply Transition.not_always_of_run (step .reference 0)
    (fun t => ((t.app.lists 0).credentials, (t.app.lists 0).credentialIDs))
    (b := ([⟨some "me@x.co", some "xx.com", some "pw"⟩], ["a", "b"]))
  . decide +kernel
  . rintro t heq ⟨⟨hlen, -⟩, -⟩
    rw [Prod.mk.injEq] at heq
    rw [heq.left, heq.right] at hlen
    simp at hlen

end Traced

end App
