import PasswordManager.App.Lemmas
import PasswordManager.ViewController.ListViewControllerLemmas

/-!
This module contains what a step does to one list, and the invariant that a query is only ever
waiting for its snapshot while the singleton has a user.
-/

namespace App

def QueriesHaveUser (app : App) : Prop :=
  ∀ list path, .observeSingleEvent list path ∈ app.pending → app.HasUser

def concerns (app : App) (list : Nat) : Event → Prop
  | .viewWillAppear other _ => other = list
  | .viewWillDisappear other => other = list
  | .complete index (.snapshot _) =>
    ∃ path, app.pending[index]? = some (.observeSingleEvent list path)
  | _ => False

theorem concerns_cases {app : App} {list : Nat} {e : Event} (h : app.concerns list e)
    : (∃ uuid, e = .viewWillAppear list uuid)
      ∨ e = .viewWillDisappear list
      ∨ ∃ index path snapshot, e = .complete index (.snapshot snapshot)
        ∧ app.pending[index]? = some (.observeSingleEvent list path) := by
  unfold concerns at h
  split at h
  . next other uuid =>
    subst h
    exact .inl ⟨uuid, rfl⟩
  . next other =>
    subst h
    exact .inr (.inl rfl)
  . next index snapshot =>
    obtain ⟨path, hrequest⟩ := h
    exact .inr (.inr ⟨index, path, snapshot, rfl, hrequest⟩)
  . exact h.elim

structure Frame (app : App) (e : Event) (app' : App) : Prop where
  hasUser : app.HasUser → app'.HasUser
  queries : ∀ list path, .observeSingleEvent list path ∈ app'.pending
    → .observeSingleEvent list path ∈ app.pending ∨ app'.HasUser
  lists : ∀ list, ¬ app.concerns list e → app'.lists list = app.lists list

namespace Frame

theorem of_same_user {app app' : App} {e : Event}
    (huser : app'.authenticatedUser.user = app.authenticatedUser.user)
    (hqueries : ∀ list path, .observeSingleEvent list path ∈ app'.pending
      → .observeSingleEvent list path ∈ app.pending)
    (hlists : ∀ list, ¬ app.concerns list e → app'.lists list = app.lists list)
    : Frame app e app' where
  hasUser h := by
    unfold HasUser at h ⊢
    rw [huser]
    exact h
  queries list path hmem := .inl (hqueries list path hmem)
  lists := hlists

theorem of_reloads {app mid app' : App} {e : Event} (hframe : Frame app e mid)
    (hreloads : Reloads mid app') : Frame app e app' where
  hasUser h := hreloads.hasUser_iff.mpr (hframe.hasUser h)
  queries list path hmem := by
    rw [hreloads.hasUser_iff]
    rcases hreloads.mem_pending hmem with hold | huser
    . exact hframe.queries list path hold
    . exact .inr huser
  lists list hconcerns := by
    rw [hreloads.lists_eq]
    exact hframe.lists list hconcerns

end Frame

theorem frame_setCurrentUser (app : App) (user : Option User) (e : Event)
    : Frame app e (app.setCurrentUser user) := by
  apply Frame.of_same_user
  . rw [setCurrentUser_authenticatedUser]
  . intro list path hmem
    rwa [setCurrentUser_pending] at hmem
  . intro list _
    rw [setCurrentUser_lists]

theorem step_frame {P : Platform} {app app' : App} {e : Event} (h : app.step P e = .ok app')
    : Frame app e app' := by
  cases step_cases h with
  | requested window requests _ hrequests =>
    apply Frame.of_same_user
    . rfl
    . intro list path hmem
      rcases List.mem_append.mp hmem with hold | hnew
      . exact hold
      . exact (e.not_requests_query (hrequests _ hnew)).elim
    . exact fun _ _ => rfl
  | appeared other uuid hreloads =>
    apply Frame.of_reloads _ hreloads
    apply Frame.of_same_user
    . rw [appeared_user]
    . simp [appeared, modifyList]
    . intro list hconcerns
      exact Function.update_of_ne (Ne.symm hconcerns) _ _
  | disappeared other =>
    apply Frame.of_same_user
    . rw [viewWillDisappear_user]
    . rw [viewWillDisappear_pending]
      exact fun _ _ => id
    . intro list hconcerns
      unfold viewWillDisappear
      split
      . rfl
      . exact Function.update_of_ne (Ne.symm hconcerns) _ _
  | reloaded other hreloads =>
    apply Frame.of_reloads _ hreloads
    apply Frame.of_same_user <;> simp
  | unanswered index response => apply Frame.of_same_user <;> simp
  | snapshot index other path snapshot self window hrequest _ =>
    apply Frame.of_same_user
    . rfl
    . exact fun _ _ => List.mem_of_mem_eraseIdx
    . intro list hconcerns
      have hne : list ≠ other := by
        rintro rfl
        exact hconcerns ⟨path, hrequest⟩
      exact Function.update_of_ne hne _ _
  | answered index request response base window _ hbase =>
    rcases hbase with rfl | ⟨user, rfl⟩
    . apply Frame.of_same_user
      . rfl
      . exact fun _ _ => List.mem_of_mem_eraseIdx
      . simp
    . apply Frame.of_same_user
      . exact congrArg _ (setCurrentUser_authenticatedUser _ (some user))
      . intro _ _ hmem
        simp only [setCurrentUser_pending] at hmem
        exact List.mem_of_mem_eraseIdx hmem
      . simp
  | stayed fails => apply Frame.of_same_user <;> simp
  | signedOut _ => exact frame_setCurrentUser app none _
  | notified happ =>
    rcases authStateDidChange_cases happ
      with ⟨rfl, -⟩ | ⟨shared, hshared, -, -, rfl⟩ | ⟨shared, user, -, -, -, -, hreloads⟩
    . apply Frame.of_same_user <;> simp
    . apply Frame.of_same_user <;> simp [authenticatedUser, hshared]
    . apply Frame.of_reloads _ hreloads
      constructor
      . intro _
        exact ⟨user, rfl⟩
      . intro list path hmem
        exact .inl hmem
      . intro list _
        rfl

theorem step_queriesHaveUser {P : Platform} {app app' : App} {e : Event}
    (h : app.step P e = .ok app') (hqueries : app.QueriesHaveUser) : app'.QueriesHaveUser := by
  intro list path hmem
  rcases (step_frame h).queries list path hmem with hold | huser
  . exact (step_frame h).hasUser (hqueries list path hold)
  . exact huser

theorem uidHash_of_query {P : Platform} {app : App} (hqueries : app.QueriesHaveUser) {index : Nat}
    {list : Nat} {path : String}
    (hrequest : app.pending[index]? = some (.observeSingleEvent list path))
    : ∃ uid, app.authenticatedUser.uidHash P = .ok uid := by
  rw [← hasUser_iff_uidHash]
  exact hqueries list path (List.mem_of_getElem? hrequest)

theorem lists_of_viewWillAppear {P : Platform} {app app' : App} {list : Nat} {uuid : String}
    (h : app.step P (.viewWillAppear list uuid) = .ok app')
    : app'.lists list
        =
      { app.lists list with isSetUp := true, credentials := [], observerId := some uuid } := by
  rw [(reloads_of_viewWillAppear h).lists_eq]
  simp [appeared, modifyList]

theorem lists_of_viewWillDisappear {P : Platform} {app app' : App} {list : Nat}
    (h : app.step P (.viewWillDisappear list) = .ok app')
    : app'.lists list = { app.lists list with observerId := none } := by
  cases h
  unfold viewWillDisappear
  split
  . next hnone => rw [← hnone]
  . simp [modifyList]

theorem lists_of_snapshot {P : Platform} {app app' : App} {list index : Nat} {path : String}
    {snapshot : DataSnapshot}
    (hrequest : app.pending[index]? = some (.observeSingleEvent list path))
    (h : app.step P (.complete index (.snapshot snapshot)) = .ok app')
    : (app.lists list).onSnapshot P app.authenticatedUser snapshot app.window
        =
      .ok (app'.lists list, app'.window) := by
  simp only [step, complete, hrequest, onResponse, Option.getD_some] at h
  have huser : authenticatedUser { app with pending := app.pending.eraseIdx index }
      = app.authenticatedUser := rfl
  rw [huser] at h
  cases hsnapshot : (app.lists list).onSnapshot P app.authenticatedUser snapshot app.window with
  | error trap => simp [hsnapshot, bind, Except.bind] at h
  | ok result =>
    simp only [hsnapshot, bind, Except.bind, pure, Except.pure, Except.ok.injEq] at h
    subst h
    simp

def launch (currentUser : Option User) : App :=
  { currentUser }

theorem launch_queriesHaveUser (currentUser : Option User)
    : (launch currentUser).QueriesHaveUser := by
  intro list path hmem
  cases hmem

end App
