import PasswordManager.App.Loading
import PasswordManager.App.Session

/-!
This module contains how the singleton and its observers come about, and which steps trap as long as
the hash of the user is only asked for while there is one.
-/

namespace App

structure Wired (app : App) : Prop where
  created : ∀ list, (app.lists list).isSetUp = true → app.sharedInstance ≠ none
  observers : ∀ observer ∈ app.authenticatedUser.observers,
    (app.lists observer.2).isSetUp = true

/--
The traps that have nothing to do with the hash of a missing user: an editor without a credential,
and a record that is no Base64 under the hash of a user that exists.
-/
inductive OtherTrap (P : Platform) (app : App) : Event → Prop where
  | credential (editor : EditCredentialsViewController) (salts : Salts)
    (hcredential : editor.credential = none) : OtherTrap P app (.onSaveButtonPressed editor salts)
  | record (index list : Nat) (path uid : String) (snapshot : DataSnapshot)
    (entry : String × Json) (hrequest : app.pending[index]? = some (.observeSingleEvent list path))
    (huid : app.authenticatedUser.uidHash P = .ok uid)
    (hentry : entry ∈ ListViewController.reached snapshot.value.entries)
    (hcrash : ListViewController.EntryCrashes P uid entry.2)
    : OtherTrap P app (.complete index (.snapshot snapshot))

/--
While the event is handled, `uidHash` is not evaluated without a user: not by `reloadData`, not by
`Credential.save` and not by `Credential.decrypt`.
-/
structure UidHashHasUser (P : Platform) (app : App) (e : Event) : Prop where
  reloadData : (∃ list uuid, e = .viewWillAppear list uuid) ∨ e = .authStateDidChange
    → ∃ app', app.step P e = .ok app'
  save : ∀ editor salts, e = .onSaveButtonPressed editor salts → app.HasUser
  decrypt : ∀ index list path snapshot, e = .complete index (.snapshot snapshot)
    → app.pending[index]? = some (.observeSingleEvent list path) → app.HasUser
  traps : ∀ trap, app.step P e = .error trap → app.OtherTrap P e

variable {P : Platform} {app app' : App}

namespace Wired

theorem of_le (hwired : app.Wired)
    (hlists : ∀ list, (app'.lists list).isSetUp = (app.lists list).isSetUp)
    (hcreated : app.sharedInstance ≠ none → app'.sharedInstance ≠ none)
    (hobservers : ∀ observer ∈ app'.authenticatedUser.observers,
      observer ∈ app.authenticatedUser.observers)
    : app'.Wired where
  created list hsetUp := by
    rw [hlists] at hsetUp
    exact hcreated (hwired.created list hsetUp)
  observers observer hmem := by
    rw [hlists]
    exact hwired.observers observer (hobservers observer hmem)

theorem of_reloads (hwired : app.Wired) (hreloads : Reloads app app') : app'.Wired := by
  apply hwired.of_le
  . simp [hreloads.lists_eq]
  . rw [hreloads.sharedInstance_eq]
    exact id
  . rw [hreloads.authenticatedUser_eq]
    exact fun _ => id

theorem setCurrentUser (hwired : app.Wired) (user : Option User)
    : (app.setCurrentUser user).Wired := by
  apply hwired.of_le
  . simp
  . unfold App.setCurrentUser
    split <;> simp
  . simp

theorem appeared (hwired : app.Wired) (list : Nat) (uuid : String)
    : (app.appeared list uuid).Wired := by
  have hlist : ((app.appeared list uuid).lists list).isSetUp = true := by
    rw [appeared_lists, Function.update_self]
  have hlists : ∀ other, (app.lists other).isSetUp = true
      → ((app.appeared list uuid).lists other).isSetUp = true := by
    intro other hsetUp
    by_cases heq : other = list
    . rw [heq]
      exact hlist
    . rw [appeared_lists, Function.update_of_ne heq]
      exact hsetUp
  constructor
  . simp [App.appeared]
  . intro observer hmem
    rw [appeared_observers] at hmem
    rcases Dictionary.mem_of_mem_set hmem with rfl | hold
    . exact hlist
    . exact hlists _ (hwired.observers observer hold)

theorem viewWillDisappear (hwired : app.Wired) (list : Nat)
    : (app.viewWillDisappear list).Wired := by
  cases hid : (app.lists list).observerId with
  | none =>
    unfold App.viewWillDisappear
    rw [hid]
    exact hwired
  | some id =>
    obtain ⟨hobservers, hlists⟩ := viewWillDisappear_of_observerId hid
    apply hwired.of_le
    . intro other
      rw [hlists]
      by_cases heq : other = list
      . rw [heq, Function.update_self]
      . rw [Function.update_of_ne heq]
    . simp [App.viewWillDisappear, hid]
    . intro observer hmem
      rw [hobservers] at hmem
      exact Dictionary.mem_of_mem_erase hmem

end Wired

theorem launch_wired (currentUser : Option User) : (launch currentUser).Wired := by
  constructor
  . intro list hsetUp
    cases hsetUp
  . intro observer hmem
    cases hmem

theorem wired_of_authStateDidChange (hwired : app.Wired)
    (h : app.authStateDidChange P = .ok app') : app'.Wired := by
  rcases authStateDidChange_cases h
    with ⟨rfl, -⟩ | ⟨shared, hshared, -, -, rfl⟩ | ⟨shared, user, hshared, -, -, -, hreloads⟩
  . exact hwired
  . apply hwired.of_le
    . simp
    . simp
    . simp [authenticatedUser, hshared]
  . refine Wired.of_reloads ?_ hreloads
    apply hwired.of_le
    . simp
    . simp
    . simp [authenticatedUser, hshared]

theorem step_wired {e : Event} (h : app.step P e = .ok app') (hqueries : app.QueriesHaveUser)
    (hwired : app.Wired) : app'.Wired := by
  cases step_cases h with
  | requested window requests _ _ => exact hwired.of_le (fun _ => rfl) id (fun _ => id)
  | appeared list uuid hreloads => exact (hwired.appeared list uuid).of_reloads hreloads
  | disappeared list => exact hwired.viewWillDisappear list
  | reloaded list hreloads => exact hwired.of_reloads hreloads
  | unanswered index response => exact hwired
  | snapshot index list path snapshot self window hrequest hsnapshot =>
    obtain ⟨uid, huid⟩ := uidHash_of_query (P := P) hqueries hrequest
    apply hwired.of_le
    . intro other
      by_cases heq : other = list
      . rw [heq]
        simpa using (ListViewController.onSnapshot_keeps huid hsnapshot).left
      . simp [heq]
    . exact id
    . exact fun _ => id
  | answered index request response base window _ hbase =>
    have hrest : Wired { app with pending := app.pending.eraseIdx index } :=
      hwired.of_le (fun _ => rfl) id (fun _ => id)
    have hbase' : base.Wired := by
      rcases hbase with rfl | ⟨user, rfl⟩
      . exact hrest
      . exact hrest.setCurrentUser (some user)
    exact hbase'.of_le (fun _ => rfl) id (fun _ => id)
  | stayed fails => exact hwired
  | signedOut _ => exact hwired.setCurrentUser none
  | notified happ => exact wired_of_authStateDidChange hwired happ

theorem reloadData_total {list : Nat} (hsetUp : (app.lists list).isSetUp = true)
    (huser : app.HasUser) : ∃ app', app.reloadData P list = .ok app' := by
  obtain ⟨uid, huid⟩ := hasUser_iff_uidHash (P := P).mp huser
  exact ⟨_, reloadData_of_user hsetUp huid⟩

theorem informObserversSignedIn_total {observers : List (String × Nat)}
    (hsetUp : ∀ observer ∈ observers, (app.lists observer.2).isSetUp = true)
    (huser : app.HasUser) : ∃ app', app.informObserversSignedIn P observers = .ok app' := by
  unfold informObserversSignedIn
  induction observers generalizing app with
  | nil => exact ⟨app, rfl⟩
  | cons observer observers ih =>
    obtain ⟨mid, hfirst⟩ := reloadData_total (P := P) (hsetUp observer List.mem_cons_self) huser
    have hreloads := reloads_of_reloadData hfirst
    obtain ⟨app', hrest⟩ : ∃ app', mid.informObserversSignedIn P observers = .ok app' := by
      apply ih
      . intro other hmem
        rw [hreloads.lists_eq]
        exact hsetUp other (List.mem_cons_of_mem _ hmem)
      . exact hreloads.hasUser_iff.mpr huser
    refine ⟨app', ?_⟩
    rw [List.foldlM_cons, onSignedIn, hfirst]
    exact hrest

theorem viewWillAppear_total (list : Nat) (uuid : String)
    : ∃ app', app.viewWillAppear P list uuid = .ok app' := by
  unfold viewWillAppear
  dsimp only
  split
  . next hsignedIn =>
    have hsetUp : ((app.appeared list uuid).lists list).isSetUp = true := by
      simp [appeared, modifyList]
    exact reloadData_total hsetUp (Option.isSome_iff_exists.mp hsignedIn)
  . exact ⟨_, rfl⟩

theorem authStateDidChange_total (hwired : app.Wired)
    : ∃ app', app.authStateDidChange P = .ok app' := by
  unfold authStateDidChange
  split
  . exact ⟨app, rfl⟩
  . next shared hshared =>
    split
    . exact ⟨app, rfl⟩
    . dsimp only
      split
      . unfold onAuthState
        split
        . exact ⟨_, rfl⟩
        . next user _ =>
          apply informObserversSignedIn_total
          . intro observer hmem
            have hobserver : observer ∈ app.authenticatedUser.observers := by
              rw [authenticatedUser, hshared]
              exact hmem
            exact hwired.observers observer hobserver
          . exact ⟨user, rfl⟩
      . exact ⟨_, rfl⟩

theorem otherTrap_of_onSaveButtonPressed {editor : EditCredentialsViewController} {salts : Salts}
    {trap : Trap} (huser : app.HasUser)
    (h : app.onSaveButtonPressed P editor salts = .error trap)
    : app.OtherTrap P (.onSaveButtonPressed editor salts) := by
  cases hcredential : editor.credential with
  | none => exact .credential editor salts hcredential
  | some credential =>
    obtain ⟨uid, huid⟩ := hasUser_iff_uidHash (P := P).mp huser
    have hsave : ∃ issued,
        editor.onSaveButtonPressed P app.authenticatedUser salts = .ok issued := by
      simp only [EditCredentialsViewController.onSaveButtonPressed, hcredential]
      split
      . exact Credential.save_total huid credential salts none
      . exact Credential.save_total huid credential salts editor.credId
    obtain ⟨issued, hissued⟩ := hsave
    cases issued <;> simp [onSaveButtonPressed, hissued, bind, Except.bind, pure, Except.pure] at h

theorem otherTrap_of_complete {index : Nat} {response : Response} {trap : Trap}
    (hqueries : app.QueriesHaveUser) (h : app.complete P index response = .error trap)
    : app.OtherTrap P (.complete index response) := by
  cases hrequest : app.pending[index]? with
  | none => simp [complete, hrequest] at h
  | some request =>
    cases request with
    | observeSingleEvent list path =>
      cases response with
      | snapshot snapshot =>
        obtain ⟨uid, huid⟩ := uidHash_of_query (P := P) hqueries hrequest
        have hnot : ¬ ∃ app', app.step P (.complete index (.snapshot snapshot)) = .ok app' := by
          rintro ⟨app', hok⟩
          rw [step, h] at hok
          cases hok
        rw [step_snapshot_ok_iff hrequest huid] at hnot
        simp only [not_forall, not_not] at hnot
        obtain ⟨entry, hentry, hcrash⟩ := hnot
        exact .record index list path uid snapshot entry hrequest huid hentry hcrash
      | _ => simp [complete, hrequest, onResponse] at h
    | _ =>
      rcases response with (error | user) | error | (_ | error) | snapshot
      all_goals simp [complete, hrequest, onResponse] at h

theorem uidHashHasUser_of_wired {e : Event} (hqueries : app.QueriesHaveUser) (hwired : app.Wired)
    (hsave : ∀ editor salts, e = .onSaveButtonPressed editor salts → app.HasUser)
    (hevent : ∀ list, e ≠ .onSignedIn list) : app.UidHashHasUser P e where
  reloadData h := by
    rcases h with ⟨list, uuid, rfl⟩ | rfl
    . exact viewWillAppear_total list uuid
    . exact authStateDidChange_total hwired
  save := hsave
  decrypt index list path snapshot heq hrequest :=
    hqueries list path (List.mem_of_getElem? hrequest)
  traps trap h := by
    cases e with
    | login email password => cases h
    | register email password => cases h
    | resetPassword currentPassword newPassword => cases h
    | onSaveButtonPressed editor salts =>
      exact otherTrap_of_onSaveButtonPressed (hsave editor salts rfl) h
    | viewWillAppear list uuid =>
      obtain ⟨app', hok⟩ := app.viewWillAppear_total (P := P) list uuid
      rw [step, hok] at h
      cases h
    | viewWillDisappear list => cases h
    | onSignedIn list => exact (hevent list rfl).elim
    | complete index response => exact otherTrap_of_complete hqueries h
    | signOut fails => cases h
    | authServiceSignOut => cases h
    | authStateDidChange =>
      obtain ⟨app', hok⟩ := authStateDidChange_total (P := P) hwired
      rw [step, hok] at h
      cases h

end App
