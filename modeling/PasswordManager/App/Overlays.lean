import PasswordManager.App.Queries

/-!
This module contains the relation between the requests that wait for their completion and the
overlays that should keep the user away until all of them are done, along every run of the app.
-/

namespace App

open ListViewController

/--
While a request waits for its completion, the user cannot touch anything. Every request of the app
has shown an overlay when it was made.
-/
def Covered (app : App) : Prop :=
  app.pending ≠ [] → app.window.overlays ≠ []

/--
The condition on a step: the completion that comes is the one of the only request that is waiting,
or the one of a snapshot with an entry that is no record, which returns early.
-/
def KeepsCovered (app : App) : Event → Prop
  | .complete index response =>
    ∀ request, app.pending[index]? = some request → request.answers response = true
      → app.pending.length = 1
        ∨ ∃ snapshot, response = .snapshot snapshot
          ∧ snapshot.value.entries.all (fun entry => isRecord entry.2) = false
  | _ => True

variable {P : Platform} {app app' : App}

theorem covered_of_overlays (h : app.window.overlays ≠ []) : app.Covered := by
  intro _
  exact h

theorem covered_iff_of_no_overlays (h : app.window.overlays = [])
    : app.Covered ↔ app.pending = [] := by
  simp [Covered, h]

theorem covered_congr (hwindow : app'.window = app.window) (hpending : app'.pending = app.pending)
    : app'.Covered ↔ app.Covered := by
  unfold Covered
  rw [hwindow, hpending]

theorem overlays_of_reloadData {list : Nat} (h : app.reloadData P list = .ok app')
    : app'.window.overlays ≠ [] := by
  obtain ⟨uid, -, rfl⟩ := reloadData_ok h
  simp

theorem overlays_of_informObserversSignedIn {observers : List (String × Nat)}
    (h : app.informObserversSignedIn P observers = .ok app')
    : app' = app ∨ app'.window.overlays ≠ [] := by
  unfold informObserversSignedIn at h
  induction observers generalizing app with
  | nil =>
    cases h
    exact .inl rfl
  | cons observer observers ih =>
    rw [List.foldlM_cons] at h
    cases hfirst : app.onSignedIn P observer.2 with
    | error trap => simp [hfirst, bind, Except.bind] at h
    | ok mid =>
      simp only [hfirst, bind, Except.bind] at h
      rcases ih h with rfl | hoverlays
      . exact .inr (overlays_of_reloadData hfirst)
      . exact .inr hoverlays

theorem covered_of_viewWillAppear {list : Nat} {uuid : String} (hc : app.Covered)
    (h : app.viewWillAppear P list uuid = .ok app') : app'.Covered := by
  unfold viewWillAppear at h
  dsimp only at h
  split at h
  . exact covered_of_overlays (overlays_of_reloadData h)
  . cases h
    exact hc

theorem covered_of_authStateDidChange (hc : app.Covered) (h : app.authStateDidChange P = .ok app')
    : app'.Covered := by
  unfold authStateDidChange at h
  split at h
  . cases h
    exact hc
  . split at h
    . cases h
      exact hc
    . dsimp only at h
      split at h
      . unfold onAuthState at h
        split at h
        . cases h
          exact hc
        . rcases overlays_of_informObserversSignedIn h with rfl | hoverlays
          . exact hc
          . exact covered_of_overlays hoverlays
      . cases h
        exact hc

theorem eraseIdx_eq_nil_iff {index : Nat} {request : Request}
    (h : app.pending[index]? = some request)
    : app.pending.eraseIdx index = [] ↔ app.pending.length = 1 := by
  have hindex : index < app.pending.length := by
    rw [List.getElem?_eq_some_iff] at h
    exact h.choose
  rw [← List.length_eq_zero_iff, List.length_eraseIdx_of_lt hindex]
  omega

theorem complete_covered_iff {index : Nat} {response : Response} (hqueries : app.QueriesHaveUser)
    (hc : app.Covered) (h : app.complete P index response = .ok app')
    : app'.Covered ↔ app.KeepsCovered (.complete index response) := by
  rcases complete_cases h with ⟨rfl, hnone⟩ | ⟨request, hrequest, hresponse⟩
  . refine ⟨fun _ => ?_, fun _ => hc⟩
    intro request hrequest hanswers
    have hmisfit := onResponse_eq_none_iff.mp (hnone request hrequest)
    rw [hanswers] at hmisfit
    cases hmisfit
  . have hanswers : request.answers response = true := by
      rw [← Bool.not_eq_false, ← onResponse_eq_none_iff, hresponse]
      simp
    have hlast := eraseIdx_eq_nil_iff hrequest
    have hcondition : app.KeepsCovered (.complete index response)
        ↔ app.pending.eraseIdx index = []
          ∨ ∃ snapshot, response = .snapshot snapshot
            ∧ snapshot.value.entries.all (fun entry => isRecord entry.2) = false := by
      simp [KeepsCovered, hrequest, hanswers, hlast]
    rw [hcondition]
    rcases onResponse_cases hresponse
      with ⟨list, path, snapshot, self, window, rfl, rfl, hsnapshot, rfl⟩
        | ⟨hother, base, window, hbase, hoverlays, rfl⟩
    . have hshowing : app.window.overlays ≠ [] :=
        hc (List.ne_nil_of_mem (List.mem_of_getElem? hrequest))
      obtain ⟨uid, huid⟩ := uidHash_of_query (P := P) hqueries hrequest
      have hoverlays := onSnapshot_overlays huid hsnapshot
      simp only [Response.snapshot.injEq, exists_eq_left']
      cases hall : snapshot.value.entries.all (fun entry => isRecord entry.2) with
      | true =>
        rw [hall] at hoverlays
        rw [covered_iff_of_no_overlays hoverlays]
        simp only [Bool.true_eq_false, or_false]
      | false =>
        rw [hall] at hoverlays
        have hcovered : window.overlays ≠ [] := by
          rw [hoverlays]
          exact hshowing
        exact ⟨fun _ => .inr rfl, fun _ => covered_of_overlays hcovered⟩
    . have hpending : base.pending = app.pending.eraseIdx index := by
        rcases hbase with rfl | ⟨user, rfl⟩
        . rfl
        . exact setCurrentUser_pending _ _
      have hnoSnapshot : ¬ ∃ snapshot, response = .snapshot snapshot
          ∧ snapshot.value.entries.all (fun entry => isRecord entry.2) = false := by
        rintro ⟨snapshot, rfl, -⟩
        cases request with
        | observeSingleEvent list path => exact hother list path rfl
        | _ => cases hanswers
      rw [covered_iff_of_no_overlays hoverlays, or_iff_left hnoSnapshot]
      simp only [hpending]

theorem step_covered_iff {e : Event} (hqueries : app.QueriesHaveUser) (hc : app.Covered)
    (h : app.step P e = .ok app') : app'.Covered ↔ app.KeepsCovered e := by
  cases e with
  | complete index response => exact complete_covered_iff hqueries hc h
  | login email password =>
    cases h
    simp [Covered, KeepsCovered, login]
  | register email password =>
    cases h
    simp [Covered, KeepsCovered, register]
  | resetPassword currentPassword newPassword =>
    cases h
    rcases app.resetPassword_cases currentPassword newPassword with ⟨-, heq⟩ | ⟨-, heq⟩
    . rw [heq]
      simp [Covered, KeepsCovered]
    . rw [heq]
      simp [Covered, KeepsCovered]
  | onSaveButtonPressed editor salts =>
    rcases onSaveButtonPressed_cases h with ⟨-, rfl⟩ | ⟨write, -, rfl⟩
    . simp [Covered, KeepsCovered]
    . simp [Covered, KeepsCovered]
  | viewWillAppear list uuid =>
    exact ⟨fun _ => trivial, fun _ => covered_of_viewWillAppear hc h⟩
  | viewWillDisappear list =>
    cases h
    refine ⟨fun _ => trivial, fun _ => ?_⟩
    unfold viewWillDisappear
    split
    . exact hc
    . exact hc
  | onSignedIn list =>
    exact ⟨fun _ => trivial, fun _ => covered_of_overlays (overlays_of_reloadData h)⟩
  | signOut fails =>
    cases h
    refine ⟨fun _ => trivial, fun _ => ?_⟩
    rcases app.signOut_cases fails with heq | heq
    . rw [heq]
      exact hc
    . rw [heq, covered_congr (setCurrentUser_window _ _) (setCurrentUser_pending _ _)]
      exact hc
  | authServiceSignOut =>
    cases h
    refine ⟨fun _ => trivial, fun _ => ?_⟩
    rw [covered_congr (setCurrentUser_window _ _) (setCurrentUser_pending _ _)]
    exact hc
  | authStateDidChange =>
    exact ⟨fun _ => trivial, fun _ => covered_of_authStateDidChange hc h⟩

theorem overlay_covers_requests_iff (P : Platform) (currentUser : Option User)
    (events : List Event)
    : Transition.Always (step P) Covered (launch currentUser) events
        ↔
      Transition.Meets (step P) KeepsCovered (launch currentUser) events := by
  apply Transition.always_iff_meets (I := QueriesHaveUser)
  . intro app e app' hqueries h
    exact step_queriesHaveUser h hqueries
  . intro app e app' hqueries hc h
    exact step_covered_iff hqueries hc h
  . exact launch_queriesHaveUser currentUser
  . intro h
    exact absurd rfl h

theorem first_completion_uncovers_second_reload
    : ¬ Transition.Always (step .reference) Covered (launch (some ⟨"u"⟩))
        [.viewWillAppear 0 "l", .authStateDidChange, .viewWillAppear 0 "m",
          .complete 0 (.snapshot ⟨.null, List.nodup_nil⟩)] := by
  apply Transition.not_always_of_run (step .reference)
    (fun app => (app.window.overlays, app.pending.length)) (b := ([], 1))
  . decide +kernel
  . intro app heq hc
    rw [Prod.mk.injEq] at heq
    apply hc
    . rw [← List.length_pos_iff, heq.right]
      exact Nat.one_pos
    . exact heq.left

end App
