import PasswordManager.App.Queries

/-!
This module contains what the answer to a query does, in every state of every run: when the app
survives it, and when the list shows all good entries of the snapshot.
-/

namespace App

open ListViewController

variable (P : Platform) (list : Nat)

/--
The completion has run to its end, the list shows the decryptions of all good entries of `creds` in
some order, and the table has been told to reload.
-/
def ShowsGoodEntries (app : App) (uid : String) (creds : List (String × Json)) (index : Nat)
    (snapshot : DataSnapshot) : Prop :=
  ∃ app', app.step P (.complete index (.snapshot snapshot)) = .ok app'
    ∧ ((app'.lists list).credentials).Perm
        (creds.filterMap (fun entry => entryDecryption P uid entry.2))
    ∧ (app'.lists list).tableView.reloads = (app.lists list).tableView.reloads + 1

variable {P list}

theorem always_queriesHaveUser (P : Platform) (currentUser : Option User) (events : List Event)
    : Transition.Always (step P) QueriesHaveUser (launch currentUser) events := by
  apply Transition.always_of_invariant
  . intro app e app' hqueries h
    apply step_queriesHaveUser h hqueries
  . apply launch_queriesHaveUser

theorem step_snapshot_ok_iff {app : App} {index : Nat} {path uid : String}
    (hrequest : app.pending[index]? = some (.observeSingleEvent list path))
    (huid : app.authenticatedUser.uidHash P = .ok uid) (snapshot : DataSnapshot)
    : (∃ app', app.step P (.complete index (.snapshot snapshot)) = .ok app')
        ↔
      ∀ entry ∈ reached snapshot.value.entries, ¬ EntryCrashes P uid entry.2 := by
  rw [← onSnapshot_ok_iff huid snapshot (app.lists list) app.window]
  constructor
  . intro h
    cases h with
    | intro app' h => exact ⟨_, lists_of_snapshot hrequest h⟩
  . intro h
    cases h with
    | intro result h =>
      have huser : authenticatedUser { app with pending := app.pending.eraseIdx index }
          = app.authenticatedUser := rfl
      simp only [step, complete, hrequest, onResponse, Option.getD_some, huser, h, bind,
        Except.bind]
      exact ⟨_, rfl⟩

def query : Request → Option (Nat × String)
  | .observeSingleEvent list path => some (list, path)
  | _ => none

theorem pending_of_query {app : App} {index : Nat} {path : String}
    (h : app.pending[index]?.bind query = some (list, path))
    : app.pending[index]? = some (.observeSingleEvent list path) := by
  cases hrequest : app.pending[index]? with
  | none => simp [hrequest] at h
  | some request =>
    rw [hrequest, Option.bind_some] at h
    unfold query at h
    split at h
    . cases h
      rfl
    . cases h

theorem exists_reference_query
    : ∃ app, Transition.run (step .reference) (launch (some ⟨"u"⟩))
          [.viewWillAppear 0 "id", .authStateDidChange] = .ok app
        ∧ app.pending[0]?
            = some (.observeSingleEvent 0 ("Credentials/" ++ Platform.reference.digest "u"))
        ∧ app.authenticatedUser.uidHash .reference = .ok (Platform.reference.digest "u") := by
  have hrun : (Transition.run (step .reference) (launch (some ⟨"u"⟩))
        [.viewWillAppear 0 "id", .authStateDidChange]).toOption.map
          (fun app =>
            (app.pending[0]?.bind query, app.authenticatedUser.uidHash .reference))
      = some (some (0, "Credentials/" ++ Platform.reference.digest "u"),
          .ok (Platform.reference.digest "u")) := by
    decide +kernel
  obtain ⟨app, happ, hobserve⟩ := Transition.exists_run_of_observe (step .reference) _ hrun
  rw [Prod.mk.injEq] at hobserve
  exact ⟨app, happ, pending_of_query hobserve.left, hobserve.right⟩

/--
A string decrypts or throws exactly if it is base64, and a snapshot is processed to the end exactly
if no entry that the loop gets to has a field that makes the decryption trap.
-/
theorem loading_survives_iff (P : Platform) (currentUser : Option User) (events : List Event)
    : (∀ (c password : String), password ≠ "" →
        ((∃ result, c.decrypt P password = .ok result) ↔ Base64.IsValid c.toList))
      ∧ Transition.Always (step P)
          (fun app =>
            ∀ (index list : Nat) (path : String) (snapshot : DataSnapshot),
              app.pending[index]? = some (.observeSingleEvent list path)
                → ((∃ app', app.step P (.complete index (.snapshot snapshot)) = .ok app')
                    ↔
                  ∀ uid, app.authenticatedUser.uidHash P = .ok uid
                    → ∀ entry ∈ reached snapshot.value.entries, ¬ EntryCrashes P uid entry.2))
          (launch currentUser) events := by
  constructor
  . intro c password hpassword
    apply String.decrypt_ok_iff
    exact hpassword
  . refine Transition.always_mono (step P) ?_ (always_queriesHaveUser P currentUser events)
    intro app hqueries index list path snapshot hrequest
    obtain ⟨uid, huid⟩ := uidHash_of_query (P := P) hqueries hrequest
    rw [step_snapshot_ok_iff hrequest huid]
    simp only [huid, Except.ok.injEq, forall_eq']

def mixed : DataSnapshot where
  value :=
    .dictionary
      [("a", Credential.record "" "" ""),
        ("b", Credential.referenceRecord "u" "me@x.co" "xx.com" "pw"),
        ("c", .dictionary [("username", .string "!"), ("website", .string "")])]
  nodup := by decide

theorem mixed_survives
    : ∀ entry ∈ mixed.value.entries, isRecord entry.2 = true
        ∧ ¬ EntryCrashes .reference (Platform.reference.digest "u") entry.2 := by
  intro entry hmem
  rcases List.mem_cons.mp hmem with rfl | hmem
  . refine ⟨rfl, ?_⟩
    unfold Credential.record
    rw [entryCrashes_dictionary]
    change ¬ (_ ∨ _)
    decide +kernel
  rcases List.mem_cons.mp hmem with rfl | hmem
  . refine ⟨rfl, ?_⟩
    let user : AuthenticatedUser Nat := { observers := [], user := some ⟨"u"⟩ }
    have huid : user.uidHash .reference = .ok (Platform.reference.digest "u") := rfl
    apply not_entryCrashes_of_decrypts huid
    decide +kernel
  rcases List.mem_singleton.mp hmem with rfl
  refine ⟨rfl, ?_⟩
  rw [entryCrashes_dictionary]
  exact id

theorem loading_survives_mixed
    : (∃ result, String.decrypt .reference "AwE=" "p" = .ok result)
      ∧ ∃ app app', Transition.run (step .reference) (launch (some ⟨"u"⟩))
            [.viewWillAppear 0 "id", .authStateDidChange] = .ok app
          ∧ (∃ path, app.pending[0]? = some (.observeSingleEvent 0 path))
          ∧ app.step .reference (.complete 0 (.snapshot mixed)) = .ok app' := by
  have hsurvives := loading_survives_iff .reference (some ⟨"u"⟩)
    [.viewWillAppear 0 "id", .authStateDidChange]
  constructor
  . rw [hsurvives.left "AwE=" "p" (by decide)]
    decide
  . obtain ⟨app, happ, hrequest, huid⟩ := exists_reference_query
    obtain ⟨app', hstep⟩ :=
      (hsurvives.right _ app List.prefix_rfl happ 0 0 _ mixed hrequest).mpr (by
        intro uid huid' entry hmem
        rw [huid] at huid'
        cases huid'
        exact (mixed_survives entry ((List.takeWhile_sublist _).subset hmem)).right)
    exact ⟨app, app', happ, ⟨_, hrequest⟩, hstep⟩

def notBase64 : DataSnapshot where
  value := .dictionary [("a", Credential.record "!" "" "")]
  nodup := by decide

theorem loading_traps_on_not_base64
    : String.decrypt .reference "!" "p" = .error .unexpectedlyFoundNil
      ∧ (Transition.run (step .reference) (launch (some ⟨"u"⟩))
          [.viewWillAppear 0 "id", .authStateDidChange]).toOption.isSome = true
      ∧ (Transition.run (step .reference) (launch (some ⟨"u"⟩))
          [.viewWillAppear 0 "id", .authStateDidChange,
            .complete 0 (.snapshot notBase64)]).toOption.isSome = false := by
  decide +kernel

theorem all_isRecord_perm {order creds : List (String × Json)} (hperm : order.Perm creds)
    : order.all (fun entry => isRecord entry.2) = true
        ↔
      ∀ entry ∈ creds, isRecord entry.2 = true := by
  rw [List.all_eq_true]
  constructor
  . intro h entry hmem
    apply h
    rwa [hperm.mem_iff]
  . intro h entry hmem
    apply h
    rwa [← hperm.mem_iff]

theorem step_showsGoodEntries_iff {app : App} {index : Nat} {path uid : String}
    (hrequest : app.pending[index]? = some (.observeSingleEvent list path))
    (huid : app.authenticatedUser.uidHash P = .ok uid) {snapshot : DataSnapshot}
    {order creds : List (String × Json)} (hvalue : snapshot.value.asDictionary = some order)
    (hperm : order.Perm creds)
    : app.ShowsGoodEntries P list uid creds index snapshot
        ↔
      ∀ entry ∈ creds, isRecord entry.2 = true ∧ ¬ EntryCrashes P uid entry.2 := by
  have hentries : snapshot.value.entries = order := by simp [Json.entries, hvalue]
  have hok := step_snapshot_ok_iff hrequest huid snapshot
  rw [hentries] at hok
  constructor
  . rintro ⟨app', h, -, hreloads⟩
    have hsnapshot := lists_of_snapshot hrequest h
    rcases onSnapshot_of_dictionary huid hvalue hsnapshot with ⟨hall, -, -⟩ | ⟨-, hlist, -⟩
    . have hcrash := hok.mp ⟨app', h⟩
      rw [reached_eq_self hall] at hcrash
      rw [all_isRecord_perm hperm] at hall
      intro entry hmem
      refine ⟨hall entry hmem, ?_⟩
      apply hcrash
      rwa [hperm.mem_iff]
    . -- the completion has returned early, so the table was not told anything
      rw [hlist] at hreloads
      simp [rebuilt] at hreloads
  . intro hcreds
    have hall : order.all (fun entry => isRecord entry.2) = true := by
      rw [all_isRecord_perm hperm]
      exact fun entry hmem => (hcreds entry hmem).left
    have hcrash : ∀ entry ∈ reached order, ¬ EntryCrashes P uid entry.2 := by
      rw [reached_eq_self hall]
      intro entry hmem
      rw [hperm.mem_iff] at hmem
      exact (hcreds entry hmem).right
    obtain ⟨app', h⟩ := hok.mpr hcrash
    have hsnapshot := lists_of_snapshot hrequest h
    rcases onSnapshot_of_dictionary huid hvalue hsnapshot with ⟨-, hlist, -⟩ | ⟨hfalse, -, -⟩
    . refine ⟨app', h, ?_, ?_⟩
      . rw [hlist]
        simp only [reloadTable, rebuilt, reached_eq_self hall]
        apply hperm.filterMap
      . rw [hlist]
        rfl
    . rw [hall] at hfalse
      cases hfalse

/--
In whatever order the dictionary is enumerated, no entry hides a good one exactly if all entries are
records and none makes the decryption trap.
-/
theorem good_entries_shown_iff (P : Platform) (currentUser : Option User) (events : List Event)
    : Transition.Always (step P)
        (fun app =>
          ∀ (index list : Nat) (path uid : String) (snapshot : DataSnapshot)
              (order creds : List (String × Json)),
            app.pending[index]? = some (.observeSingleEvent list path)
              → app.authenticatedUser.uidHash P = .ok uid
              → snapshot.value.asDictionary = some order
              → order.Perm creds
              → (app.ShowsGoodEntries P list uid creds index snapshot
                  ↔
                ∀ entry ∈ creds, isRecord entry.2 = true ∧ ¬ EntryCrashes P uid entry.2))
        (launch currentUser) events := by
  refine Transition.always_mono (step P) ?_ (always_queriesHaveUser P currentUser events)
  intro app _ index list path uid snapshot order creds hrequest huid hvalue hperm
  apply step_showsGoodEntries_iff hrequest huid hvalue hperm

theorem good_entries_shown_mixed
    : ∃ app, Transition.run (step .reference) (launch (some ⟨"u"⟩))
          [.viewWillAppear 0 "id", .authStateDidChange] = .ok app
        ∧ app.ShowsGoodEntries .reference 0 (Platform.reference.digest "u") mixed.value.entries 0
            mixed
        ∧ mixed.value.entries.filterMap
              (fun entry => entryDecryption .reference (Platform.reference.digest "u") entry.2)
            = [⟨some "me@x.co", some "xx.com", some "pw"⟩] := by
  obtain ⟨app, happ, hrequest, huid⟩ := exists_reference_query
  have hiff := good_entries_shown_iff .reference (some ⟨"u"⟩)
    [.viewWillAppear 0 "id", .authStateDidChange] _ app List.prefix_rfl happ 0 0 _ _ mixed _ _
    hrequest huid rfl (List.Perm.refl _)
  exact ⟨app, happ, hiff.mpr mixed_survives, by decide +kernel⟩

def malformedFirst : DataSnapshot where
  value :=
    .dictionary
      [("a", .string "x"), ("b", Credential.referenceRecord "u" "me@x.co" "xx.com" "pw")]
  nodup := by decide

theorem malformed_entry_hides_good_entry
    : ∃ app, Transition.run (step .reference) (launch (some ⟨"u"⟩))
          [.viewWillAppear 0 "id", .authStateDidChange] = .ok app
        ∧ (∃ path, app.pending[0]? = some (.observeSingleEvent 0 path))
        ∧ app.authenticatedUser.uidHash .reference = .ok (Platform.reference.digest "u")
        ∧ entryDecryption .reference (Platform.reference.digest "u")
            (Credential.referenceRecord "u" "me@x.co" "xx.com" "pw")
          = some ⟨some "me@x.co", some "xx.com", some "pw"⟩
        ∧ ¬ app.ShowsGoodEntries .reference 0 (Platform.reference.digest "u")
            malformedFirst.value.entries 0 malformedFirst := by
  obtain ⟨app, happ, hrequest, huid⟩ := exists_reference_query
  refine ⟨app, happ, ⟨_, hrequest⟩, huid, by decide +kernel, ?_⟩
  rw [step_showsGoodEntries_iff hrequest huid rfl (List.Perm.refl _)]
  intro h
  have hfirst := (h ("a", .string "x") (by simp [malformedFirst])).left
  cases hfirst

end App
