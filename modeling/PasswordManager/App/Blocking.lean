import PasswordManager.App.Queries

/-!
This module contains the relation between the blocking overlays and the requests that wait for their
completion, along every run of the app.
-/

namespace App

open ListViewController

variable (P : Platform)

def NotStuck (app : App) : Prop :=
  app.window.overlays ≠ [] → app.pending ≠ []

/--
The condition on a step. If nothing else is waiting, then nobody resets a password without being
signed in and nobody saves a credential that is not valid. If nothing else is waiting and an overlay
is showing, then no snapshot with an entry that is no record comes.
-/
def KeepsUnblocked (app : App) : Event → Prop
  | .resetPassword _ _ => app.currentUser ≠ none ∨ app.pending ≠ []
  | .onSaveButtonPressed editor _ =>
    (∀ credential, editor.credential = some credential → credential.validate P = true)
      ∨ app.pending ≠ []
  | .complete index (.snapshot snapshot) =>
    ∀ list path, app.pending[index]? = some (.observeSingleEvent list path)
      → snapshot.value.entries.all (fun entry => isRecord entry.2) = true
        ∨ app.window.overlays = []
        ∨ 1 < app.pending.length
  | _ => True

variable {P}

theorem notStuck_congr {app app' : App} (hoverlays : app'.window.overlays = app.window.overlays)
    (hpending : app'.pending = app.pending) : app'.NotStuck ↔ app.NotStuck := by
  unfold NotStuck
  rw [hoverlays, hpending]

theorem notStuck_of_overlays {app : App} (h : app.window.overlays = []) : app.NotStuck := by
  intro hne
  exact (hne h).elim

theorem notStuck_of_pending {app : App} (h : app.pending ≠ []) : app.NotStuck := by
  intro _
  exact h

theorem notStuck_of_reloads {app app' : App} (h : Reloads app app') (hn : app.NotStuck)
    : app'.NotStuck := by
  obtain ⟨window, requests, rfl, -, hsame, -⟩ := h
  by_cases hnil : requests = []
  . rw [notStuck_congr]
    . exact hn
    . rw [hsame hnil]
    . simp [hnil]
  . apply notStuck_of_pending
    simp [hnil]

theorem notStuck_overlay_iff {app : App} {text : String}
    : NotStuck { app with window := app.window.showBlockingWaitOverlayWithText text }
        ↔
      app.pending ≠ [] := by
  simp [NotStuck]

theorem validate_of_onSaveButtonPressed {Observer : Type} {user : AuthenticatedUser Observer}
    {editor : EditCredentialsViewController} {salts : Salts} {issued : Option Write}
    (h : editor.onSaveButtonPressed P user salts = .ok issued)
    : (∀ credential, editor.credential = some credential → credential.validate P = true)
        ↔
      issued ≠ none := by
  unfold EditCredentialsViewController.onSaveButtonPressed at h
  cases hcredential : editor.credential with
  | none =>
    rw [hcredential] at h
    cases h
  | some credential =>
    simp only [hcredential] at h
    simp only [Option.some.injEq, forall_eq']
    have hsave : ∃ credId, credential.save P user salts credId = .ok issued := by
      split at h
      . exact ⟨_, h⟩
      . exact ⟨_, h⟩
    obtain ⟨credId, hsave⟩ := hsave
    cases issued with
    | none => simp [Credential.save_eq_none hsave]
    | some write => simp [(Credential.save_eq_some hsave).left]

theorem snapshot_notStuck_iff {app : App} {index list : Nat} {path uid : String}
    {snapshot : DataSnapshot} {self : ListViewController} {window : Window}
    (hrequest : app.pending[index]? = some (.observeSingleEvent list path))
    (huid : app.authenticatedUser.uidHash P = .ok uid)
    (h : (app.lists list).onSnapshot P app.authenticatedUser snapshot app.window
      = .ok (self, window))
    : (window.overlays ≠ [] → app.pending.eraseIdx index ≠ [])
        ↔
      app.KeepsUnblocked P (.complete index (.snapshot snapshot)) := by
  have hindex : index < app.pending.length := by
    rw [List.getElem?_eq_some_iff] at hrequest
    exact hrequest.choose
  have hrest : app.pending.eraseIdx index ≠ [] ↔ 1 < app.pending.length := by
    rw [← List.length_pos_iff, List.length_eraseIdx_of_lt hindex]
    omega
  have hcondition : app.KeepsUnblocked P (.complete index (.snapshot snapshot))
      ↔ snapshot.value.entries.all (fun entry => isRecord entry.2) = true
          ∨ app.window.overlays = [] ∨ 1 < app.pending.length := by
    simp [KeepsUnblocked, hrequest]
  rw [hrest, hcondition, onSnapshot_overlays huid h]
  cases snapshot.value.entries.all (fun entry => isRecord entry.2) with
  | true => simp
  | false =>
    simp only [Bool.false_eq_true, ↓reduceIte, false_or]
    tauto

theorem complete_notStuck_iff {app app' : App} {index : Nat} {response : Response}
    (hqueries : app.QueriesHaveUser) (hn : app.NotStuck)
    (h : app.complete P index response = .ok app')
    : app'.NotStuck ↔ app.KeepsUnblocked P (.complete index response) := by
  rcases complete_cases h with ⟨rfl, hnone⟩ | ⟨request, hrequest, hresponse⟩
  . refine ⟨fun _ => ?_, fun _ => hn⟩
    cases response with
    | snapshot snapshot =>
      intro list path hpending
      have hquery := hnone _ hpending
      cases hquery
    | _ => trivial
  . rcases onResponse_cases hresponse
      with ⟨list, path, snapshot, self, window, rfl, rfl, hsnapshot, rfl⟩
        | ⟨hother, base, window, hbase, hoverlays, rfl⟩
    . obtain ⟨uid, huid⟩ := uidHash_of_query (P := P) hqueries hrequest
      exact snapshot_notStuck_iff hrequest huid hsnapshot
    . refine ⟨fun _ => ?_, fun _ => notStuck_of_overlays hoverlays⟩
      cases response with
      | snapshot snapshot =>
        intro list path hpending
        rw [hrequest] at hpending
        exact (hother list path (Option.some.inj hpending)).elim
      | _ => trivial

theorem step_notStuck_iff {app app' : App} {e : Event} (hqueries : app.QueriesHaveUser)
    (hn : app.NotStuck) (h : app.step P e = .ok app')
    : app'.NotStuck ↔ app.KeepsUnblocked P e := by
  cases e with
  | login email password =>
    cases h
    simp [NotStuck, KeepsUnblocked, login]
  | register email password =>
    cases h
    simp [NotStuck, KeepsUnblocked, register]
  | resetPassword currentPassword newPassword =>
    cases h
    rcases app.resetPassword_cases currentPassword newPassword with ⟨hnone, heq⟩ | ⟨hsome, heq⟩
    . rw [heq, notStuck_overlay_iff]
      simp [KeepsUnblocked, hnone]
    . rw [heq]
      simp [NotStuck, KeepsUnblocked, hsome]
  | onSaveButtonPressed editor salts =>
    rcases onSaveButtonPressed_cases h with ⟨hsave, rfl⟩ | ⟨write, hsave, rfl⟩
    . rw [notStuck_overlay_iff]
      simp [KeepsUnblocked, validate_of_onSaveButtonPressed hsave]
    . simp [NotStuck, KeepsUnblocked, validate_of_onSaveButtonPressed hsave]
  | viewWillAppear list uuid =>
    refine ⟨fun _ => trivial, fun _ => ?_⟩
    apply notStuck_of_reloads (reloads_of_viewWillAppear h)
    exact hn
  | viewWillDisappear list =>
    cases h
    refine ⟨fun _ => trivial, fun _ => ?_⟩
    unfold viewWillDisappear
    split
    . exact hn
    . exact hn
  | onSignedIn list =>
    refine ⟨fun _ => trivial, fun _ => ?_⟩
    apply notStuck_of_reloads (reloads_of_reloadData h)
    exact hn
  | complete index response => exact complete_notStuck_iff hqueries hn h
  | signOut fails =>
    cases h
    refine ⟨fun _ => trivial, fun _ => ?_⟩
    rcases app.signOut_cases fails with heq | heq
    . rw [heq]
      exact hn
    . rw [heq, notStuck_congr]
      . exact hn
      . rw [setCurrentUser_window]
      . rw [setCurrentUser_pending]
  | authServiceSignOut =>
    cases h
    refine ⟨fun _ => trivial, fun _ => ?_⟩
    rw [notStuck_congr]
    . exact hn
    . rw [setCurrentUser_window]
    . rw [setCurrentUser_pending]
  | authStateDidChange =>
    refine ⟨fun _ => trivial, fun _ => ?_⟩
    rcases authStateDidChange_cases h
      with ⟨rfl, -⟩ | ⟨shared, -, -, -, rfl⟩ | ⟨shared, user, -, -, -, -, hreloads⟩
    . exact hn
    . exact hn
    . apply notStuck_of_reloads hreloads
      exact hn

theorem overlay_waits_for_request_iff (P : Platform) (currentUser : Option User)
    (events : List Event)
    : Transition.Always (step P) NotStuck (launch currentUser) events
        ↔
      Transition.Meets (step P) (KeepsUnblocked P) (launch currentUser) events := by
  apply Transition.always_iff_meets (I := QueriesHaveUser)
  . intro app e app' hqueries h
    exact step_queriesHaveUser h hqueries
  . intro app e app' hqueries hn h
    exact step_notStuck_iff hqueries hn h
  . exact launch_queriesHaveUser currentUser
  . exact notStuck_of_overlays rfl

theorem reset_without_user_blocks
    : ¬ Transition.Always (step .reference) NotStuck (launch none)
        [.resetPassword "old" "new"] := by
  apply Transition.not_always_of_run (step .reference)
    (fun app => (app.window.overlays, app.pending.length)) (b := (["resetting"], 0))
  . decide
  . intro app heq hn
    rw [Prod.mk.injEq] at heq
    apply hn
    . rw [heq.left]
      simp
    . rw [← List.length_eq_zero_iff]
      exact heq.right

end App
