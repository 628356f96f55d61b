import PasswordManager.App.Basic

def Request.answers : Request → Response → Bool
  | .signIn _ _, .auth _ => true
  | .createUser _ _, .auth _ => true
  | .updatePassword _, .updated _ => true
  | .setValue _, .stored _ => true
  | .observeSingleEvent _ _, .snapshot _ => true
  | _, _ => false

namespace Event

def makesRequest : Event → Bool
  | .login _ _ => true
  | .register _ _ => true
  | .resetPassword _ _ => true
  | .onSaveButtonPressed _ _ => true
  | _ => false

def Requests : Event → Request → Prop
  | .login _ _, .signIn _ _ => True
  | .register _ _, .createUser _ _ => True
  | .resetPassword _ _, .updatePassword _ => True
  | .onSaveButtonPressed _ _, .setValue _ => True
  | _, _ => False

def signsOut : Event → Bool
  | .signOut _ => true
  | .authServiceSignOut => true
  | _ => false

theorem not_requests_query (e : Event) {list : Nat} {path : String}
    : ¬ e.Requests (.observeSingleEvent list path) := by
  cases e <;> exact id

end Event

namespace App

def HasUser (app : App) : Prop :=
  ∃ user, app.authenticatedUser.user = some user

def Reloads (app app' : App) : Prop :=
  ∃ (window : Window) (requests : List Request),
    app' = { app with window, pending := app.pending ++ requests }
      ∧ (∀ request ∈ requests, ∃ list path, request = .observeSingleEvent list path)
      ∧ (requests = [] → window = app.window)
      ∧ (requests ≠ [] → app.HasUser)

namespace Reloads

theorem refl (app : App) : Reloads app app := by
  refine ⟨app.window, [], ?_, ?_, ?_, ?_⟩
  . simp
  . simp
  . simp
  . simp

theorem trans {a b c : App} (hab : Reloads a b) (hbc : Reloads b c) : Reloads a c := by
  obtain ⟨window, requests, rfl, hobserve, hsame, huser⟩ := hab
  obtain ⟨window', requests', rfl, hobserve', hsame', huser'⟩ := hbc
  refine ⟨window', requests ++ requests', ?_, ?_, ?_, ?_⟩
  . simp
  . intro request hmem
    rcases List.mem_append.mp hmem with h | h
    . exact hobserve request h
    . exact hobserve' request h
  . intro hnil
    rw [List.append_eq_nil_iff] at hnil
    rw [hsame' hnil.right]
    exact hsame hnil.left
  . intro hne
    by_cases h : requests = []
    . apply huser'
      rintro rfl
      exact hne (by simp [h])
    . exact huser h

variable {app app' : App} (h : Reloads app app')

include h

theorem lists_eq : app'.lists = app.lists := by
  obtain ⟨_, _, rfl, -⟩ := h
  rfl

theorem sharedInstance_eq : app'.sharedInstance = app.sharedInstance := by
  obtain ⟨_, _, rfl, -⟩ := h
  rfl

theorem currentUser_eq : app'.currentUser = app.currentUser := by
  obtain ⟨_, _, rfl, -⟩ := h
  rfl

theorem authenticatedUser_eq : app'.authenticatedUser = app.authenticatedUser := by
  unfold authenticatedUser
  rw [h.sharedInstance_eq]

theorem hasUser_iff : app'.HasUser ↔ app.HasUser := by
  unfold HasUser
  rw [h.authenticatedUser_eq]

theorem mem_pending {request : Request} (hmem : request ∈ app'.pending)
    : request ∈ app.pending ∨ app.HasUser := by
  obtain ⟨_, requests, rfl, -, -, huser⟩ := h
  rcases List.mem_append.mp hmem with hold | hnew
  . exact .inl hold
  . exact .inr (huser (List.ne_nil_of_mem hnew))

end Reloads

theorem dbCredentialsPath_ok {P : Platform} {user : AuthenticatedUser Nat} {path : String}
    (h : user.dbCredentialsPath P = .ok path)
    : ∃ uid, user.uidHash P = .ok uid ∧ path = "Credentials/" ++ uid := by
  unfold AuthenticatedUser.dbCredentialsPath at h
  cases hhash : user.uidHash P with
  | error trap => simp [hhash, Except.map] at h
  | ok uid =>
    simp only [hhash, Except.map, Except.ok.injEq] at h
    exact ⟨uid, rfl, h.symm⟩

theorem hasUser_iff_uidHash {P : Platform} {app : App}
    : app.HasUser ↔ ∃ uid, app.authenticatedUser.uidHash P = .ok uid := by
  rw [AuthenticatedUser.uidHash_ok_iff, Option.isSome_iff_exists]
  rfl

theorem reloadData_ok {P : Platform} {app app' : App} {list : Nat}
    (h : app.reloadData P list = .ok app')
    : ∃ uid, app.authenticatedUser.uidHash P = .ok uid
        ∧ app' = { app with
            window := app.window.showBlockingWaitOverlayWithText "Loading..."
            pending := app.pending ++ [.observeSingleEvent list ("Credentials/" ++ uid)]
          } := by
  unfold reloadData at h
  split at h
  . cases hpath : app.authenticatedUser.dbCredentialsPath P with
    | error trap => simp [hpath, bind, Except.bind] at h
    | ok path =>
      obtain ⟨uid, huid, rfl⟩ := dbCredentialsPath_ok hpath
      simp only [hpath, bind, Except.bind, pure, Except.pure, Except.ok.injEq] at h
      exact ⟨uid, huid, h.symm⟩
  . cases h

theorem reloadData_of_user {P : Platform} {app : App} {list : Nat} {uid : String}
    (hsetUp : (app.lists list).isSetUp = true) (huid : app.authenticatedUser.uidHash P = .ok uid)
    : app.reloadData P list
        =
      .ok { app with
        window := app.window.showBlockingWaitOverlayWithText "Loading..."
        pending := app.pending ++ [.observeSingleEvent list ("Credentials/" ++ uid)]
      } := by
  unfold reloadData AuthenticatedUser.dbCredentialsPath
  rw [hsetUp, huid]
  rfl

theorem reloads_of_reloadData {P : Platform} {app app' : App} {list : Nat}
    (h : app.reloadData P list = .ok app') : Reloads app app' := by
  obtain ⟨uid, huid, rfl⟩ := reloadData_ok h
  refine ⟨_, _, rfl, ?_, ?_, ?_⟩
  . intro request hmem
    rw [List.mem_singleton] at hmem
    exact ⟨list, _, hmem⟩
  . simp
  . intro _
    exact hasUser_iff_uidHash.mpr ⟨uid, huid⟩

theorem reloads_of_informObserversSignedIn {P : Platform} {app app' : App}
    {observers : List (String × Nat)} (h : app.informObserversSignedIn P observers = .ok app')
    : Reloads app app' := by
  unfold informObserversSignedIn at h
  induction observers generalizing app with
  | nil =>
    cases h
    exact .refl _
  | cons observer observers ih =>
    rw [List.foldlM_cons] at h
    cases hfirst : app.onSignedIn P observer.2 with
    | error trap => simp [hfirst, bind, Except.bind] at h
    | ok mid =>
      simp only [hfirst, bind, Except.bind] at h
      exact (reloads_of_reloadData hfirst).trans (ih h)

def appeared (app : App) (list : Nat) (uuid : String) : App :=
  let user := app.shared.authenticatedUser.addObserver uuid list
  let app := { app with sharedInstance := some { app.shared with authenticatedUser := user } }
  app.modifyList list (fun self =>
    { self with isSetUp := true, credentials := [], observerId := some uuid })

theorem reloads_of_viewWillAppear {P : Platform} {app app' : App} {list : Nat} {uuid : String}
    (h : app.viewWillAppear P list uuid = .ok app') : Reloads (app.appeared list uuid) app' := by
  unfold viewWillAppear at h
  dsimp only at h
  split at h
  . exact reloads_of_reloadData h
  . cases h
    exact .refl _

@[simp]
theorem appeared_user (app : App) (list : Nat) (uuid : String)
    : (app.appeared list uuid).authenticatedUser.user = app.authenticatedUser.user := by
  unfold appeared authenticatedUser shared
  cases hshared : app.sharedInstance with
  | none => rfl
  | some shared => rfl

theorem appeared_observers (app : App) (list : Nat) (uuid : String)
    : (app.appeared list uuid).authenticatedUser.observers
        =
      Dictionary.set uuid list app.authenticatedUser.observers := by
  unfold appeared authenticatedUser shared
  cases app.sharedInstance with
  | none => rfl
  | some shared => rfl

theorem appeared_lists (app : App) (list : Nat) (uuid : String)
    : (app.appeared list uuid).lists
        =
      Function.update app.lists list
        { app.lists list with isSetUp := true, credentials := [], observerId := some uuid } := by
  rfl

@[simp]
theorem modifyList_sharedInstance (app : App) (list : Nat)
    (f : ListViewController → ListViewController)
    : (app.modifyList list f).sharedInstance = app.sharedInstance := by
  rfl

@[simp]
theorem setCurrentUser_lists (app : App) (user : Option User)
    : (app.setCurrentUser user).lists = app.lists := by
  unfold setCurrentUser
  split <;> rfl

@[simp]
theorem setCurrentUser_pending (app : App) (user : Option User)
    : (app.setCurrentUser user).pending = app.pending := by
  unfold setCurrentUser
  split <;> rfl

@[simp]
theorem setCurrentUser_window (app : App) (user : Option User)
    : (app.setCurrentUser user).window = app.window := by
  unfold setCurrentUser
  split <;> rfl

@[simp]
theorem setCurrentUser_authenticatedUser (app : App) (user : Option User)
    : (app.setCurrentUser user).authenticatedUser = app.authenticatedUser := by
  unfold setCurrentUser
  split
  . rfl
  . unfold authenticatedUser
    cases app.sharedInstance with
    | none => rfl
    | some shared => rfl

theorem viewWillDisappear_user (app : App) (list : Nat)
    : (app.viewWillDisappear list).authenticatedUser.user = app.authenticatedUser.user := by
  unfold viewWillDisappear
  split
  . rfl
  . unfold authenticatedUser
    dsimp only [modifyList]
    cases app.sharedInstance with
    | none => rfl
    | some shared => rfl

theorem viewWillDisappear_of_observerId {app : App} {list : Nat} {id : String}
    (h : (app.lists list).observerId = some id)
    : (app.viewWillDisappear list).authenticatedUser.observers
          = Dictionary.erase id app.authenticatedUser.observers
        ∧ (app.viewWillDisappear list).lists
          = Function.update app.lists list { app.lists list with observerId := none } := by
  unfold viewWillDisappear
  simp only [h]
  refine ⟨?_, rfl⟩
  unfold authenticatedUser
  dsimp only [modifyList]
  cases app.sharedInstance with
  | none => rfl
  | some shared => rfl

theorem viewWillDisappear_pending (app : App) (list : Nat)
    : (app.viewWillDisappear list).pending = app.pending := by
  unfold viewWillDisappear
  split <;> rfl

theorem authStateDidChange_cases {P : Platform} {app app' : App}
    (h : app.authStateDidChange P = .ok app')
    : (app' = app
        ∧ ∀ shared, app.sharedInstance = some shared → shared.listener.outstanding = 0)
      ∨ (∃ shared, app.sharedInstance = some shared
        ∧ shared.listener.outstanding ≠ 0
        ∧ (app.currentUser = none
          ∨ shared.listener.shouldCallListener app.currentUser = false)
        ∧ app' = { app with
            sharedInstance :=
              some { shared with listener := shared.listener.delivered app.currentUser }
          })
      ∨ (∃ shared user, app.sharedInstance = some shared
        ∧ shared.listener.outstanding ≠ 0
        ∧ app.currentUser = some user
        ∧ shared.listener.shouldCallListener app.currentUser = true
        ∧ Reloads
            { app with
              sharedInstance := some {
                authenticatedUser := { shared.authenticatedUser with user := some user }
                listener := shared.listener.delivered app.currentUser
              }
            }
            app') := by
  unfold authStateDidChange at h
  cases hshared : app.sharedInstance with
  | none =>
    simp only [hshared, Except.ok.injEq] at h
    exact .inl ⟨h.symm, by simp⟩
  | some shared =>
    simp only [hshared] at h
    split at h
    . next hzero =>
      cases h
      refine .inl ⟨rfl, ?_⟩
      intro other hother
      cases hother
      exact hzero
    . next hne =>
      right
      split at h
      . next hcall =>
        unfold onAuthState at h
        cases huser : app.currentUser with
        | none =>
          simp only [huser, Except.ok.injEq] at h
          exact .inl ⟨shared, rfl, hne, .inl rfl, h.symm⟩
        | some user =>
          simp only [huser] at h
          rw [huser] at hcall
          exact .inr ⟨shared, user, rfl, hne, rfl, hcall, reloads_of_informObserversSignedIn h⟩
      . next hcall =>
        cases h
        exact .inl ⟨shared, rfl, hne, .inr (by simpa using hcall), rfl⟩

theorem onResponse_cases {P : Platform} {app app' : App} {request : Request} {response : Response}
    (h : app.onResponse P request response = some (.ok app'))
    : (∃ list path snapshot self window,
        request = .observeSingleEvent list path
          ∧ response = .snapshot snapshot
          ∧ (app.lists list).onSnapshot P app.authenticatedUser snapshot app.window
              = .ok (self, window)
          ∧ app' = { app with lists := Function.update app.lists list self, window })
      ∨ ((∀ list path, request ≠ .observeSingleEvent list path)
        ∧ ∃ base window,
            (base = app ∨ ∃ user, base = app.setCurrentUser (some user))
              ∧ window.overlays = []
              ∧ app' = { base with window }) := by
  unfold onResponse at h
  split at h
  case h_8 list path snapshot =>
    left
    cases hsnapshot : (app.lists list).onSnapshot P app.authenticatedUser snapshot app.window with
    | error trap => simp [hsnapshot, bind, Except.bind] at h
    | ok result =>
      obtain ⟨self, window⟩ := result
      simp only [hsnapshot, bind, Except.bind, pure, Except.pure, Option.some.injEq,
        Except.ok.injEq] at h
      exact ⟨list, path, snapshot, self, window, rfl, rfl, hsnapshot, h.symm⟩
  case h_9 => cases h
  case h_2 user =>
    cases h
    exact .inr ⟨by simp, _, _, .inr ⟨user, rfl⟩, by simp, rfl⟩
  case h_4 user =>
    cases h
    exact .inr ⟨by simp, _, _, .inr ⟨user, rfl⟩, by simp, rfl⟩
  all_goals
    cases h
    exact .inr ⟨by simp, app, _, .inl rfl, by simp, rfl⟩

theorem onResponse_eq_none_iff {P : Platform} {app : App} {request : Request} {response : Response}
    : app.onResponse P request response = none ↔ request.answers response = false := by
  cases request <;> rcases response with (error | user) | error | (_ | error) | snapshot
  all_goals simp [onResponse, Request.answers]

theorem complete_cases {P : Platform} {app app' : App} {index : Nat} {response : Response}
    (h : app.complete P index response = .ok app')
    : (app' = app
        ∧ ∀ request, app.pending[index]? = some request
            → onResponse P { app with pending := app.pending.eraseIdx index } request response
                = none)
      ∨ ∃ request, app.pending[index]? = some request
        ∧ onResponse P { app with pending := app.pending.eraseIdx index } request response
            = some (.ok app') := by
  unfold complete at h
  cases hrequest : app.pending[index]? with
  | none =>
    simp only [hrequest, Except.ok.injEq] at h
    exact .inl ⟨h.symm, by simp⟩
  | some request =>
    simp only [hrequest] at h
    cases hresponse : onResponse P { app with pending := app.pending.eraseIdx index } request
        response with
    | none =>
      simp only [hresponse, Option.getD_none, Except.ok.injEq] at h
      left
      refine ⟨h.symm, ?_⟩
      intro other hother
      cases hother
      exact hresponse
    | some result =>
      simp only [hresponse, Option.getD_some] at h
      subst h
      exact .inr ⟨request, rfl, hresponse⟩

theorem onSaveButtonPressed_cases {P : Platform} {app app' : App}
    {editor : EditCredentialsViewController} {salts : Salts}
    (h : app.onSaveButtonPressed P editor salts = .ok app')
    : (editor.onSaveButtonPressed P app.authenticatedUser salts = .ok none
        ∧ app' = { app with window := app.window.showBlockingWaitOverlayWithText "Saving" })
      ∨ (∃ write, editor.onSaveButtonPressed P app.authenticatedUser salts = .ok (some write)
        ∧ app' = { app with
            window := app.window.showBlockingWaitOverlayWithText "Saving"
            pending := app.pending ++ [.setValue write]
          }) := by
  unfold onSaveButtonPressed at h
  cases hsave : editor.onSaveButtonPressed P app.authenticatedUser salts with
  | error trap => simp [hsave, bind, Except.bind] at h
  | ok issued =>
    cases issued with
    | none =>
      simp only [hsave, bind, Except.bind, pure, Except.pure, Except.ok.injEq] at h
      exact .inl ⟨rfl, h.symm⟩
    | some write =>
      simp only [hsave, bind, Except.bind, pure, Except.pure, Except.ok.injEq] at h
      exact .inr ⟨write, rfl, h.symm⟩

theorem resetPassword_cases (app : App) (currentPassword newPassword : String)
    : (app.currentUser = none
        ∧ app.resetPassword currentPassword newPassword
            = { app with window := app.window.showBlockingWaitOverlayWithText "resetting" })
      ∨ (app.currentUser ≠ none
        ∧ app.resetPassword currentPassword newPassword
            = { app with
                window := app.window.showBlockingWaitOverlayWithText "resetting"
                pending := app.pending ++ [.updatePassword newPassword]
              }) := by
  unfold resetPassword
  cases huser : app.currentUser with
  | none => exact .inl ⟨rfl, rfl⟩
  | some user => exact .inr ⟨by simp, rfl⟩

theorem signOut_cases (app : App) (fails : Bool)
    : app.signOut fails = app ∨ app.signOut fails = app.setCurrentUser none := by
  unfold signOut
  split
  . exact .inl rfl
  . exact .inr rfl

inductive StepCases (P : Platform) (app : App) : Event → App → Prop where
  | requested {e : Event} (window : Window) (requests : List Request)
    (hmakes : e.makesRequest = true) (hrequests : ∀ request ∈ requests, e.Requests request)
    : StepCases P app e { app with window, pending := app.pending ++ requests }
  | appeared {app' : App} (list : Nat) (uuid : String)
    (hreloads : Reloads (app.appeared list uuid) app')
    : StepCases P app (.viewWillAppear list uuid) app'
  | disappeared (list : Nat)
    : StepCases P app (.viewWillDisappear list) (app.viewWillDisappear list)
  | reloaded {app' : App} (list : Nat) (hreloads : Reloads app app')
    : StepCases P app (.onSignedIn list) app'
  | unanswered (index : Nat) (response : Response)
    : StepCases P app (.complete index response) app
  | snapshot (index list : Nat) (path : String) (snapshot : DataSnapshot)
    (self : ListViewController) (window : Window)
    (hrequest : app.pending[index]? = some (.observeSingleEvent list path))
    (hsnapshot : (app.lists list).onSnapshot P app.authenticatedUser snapshot app.window
      = .ok (self, window))
    : StepCases P app (.complete index (.snapshot snapshot)) { app with
        window
        lists := Function.update app.lists list self
        pending := app.pending.eraseIdx index
      }
  | answered (index : Nat) (request : Request) (response : Response) (base : App) (window : Window)
    (hrequest : app.pending[index]? = some request)
    (hbase : base = { app with pending := app.pending.eraseIdx index }
      ∨ ∃ user, base
          = setCurrentUser { app with pending := app.pending.eraseIdx index } (some user))
    : StepCases P app (.complete index response) { base with window }
  | stayed (fails : Bool) : StepCases P app (.signOut fails) app
  | signedOut {e : Event} (hsignsOut : e.signsOut = true)
    : StepCases P app e (app.setCurrentUser none)
  | notified {app' : App} (happ : app.authStateDidChange P = .ok app')
    : StepCases P app .authStateDidChange app'

theorem StepCases.of_window {P : Platform} {app : App} {e : Event} (window : Window)
    (hmakes : e.makesRequest = true) : StepCases P app e { app with window } := by
  have hcase : StepCases P app e { app with window, pending := app.pending ++ [] } :=
    .requested window [] hmakes (by simp)
  rwa [List.append_nil] at hcase

theorem stepCases_complete {P : Platform} {app app' : App} {index : Nat} {response : Response}
    (h : app.complete P index response = .ok app')
    : StepCases P app (.complete index response) app' := by
  rcases complete_cases h with ⟨rfl, -⟩ | ⟨request, hrequest, hresponse⟩
  . exact .unanswered index response
  . rcases onResponse_cases hresponse
      with ⟨list, path, snapshot, self, window, rfl, rfl, hsnapshot, rfl⟩
        | ⟨-, base, window, hbase, -, rfl⟩
    . exact .snapshot index list path snapshot self window hrequest hsnapshot
    . exact .answered index request response base window hrequest hbase

theorem step_cases {P : Platform} {app app' : App} {e : Event} (h : app.step P e = .ok app')
    : StepCases P app e app' := by
  cases e with
  | login email password =>
    cases h
    exact .requested _ [.signIn email password] rfl (by simp [Event.Requests])
  | register email password =>
    cases h
    exact .requested _ [.createUser email password] rfl (by simp [Event.Requests])
  | resetPassword currentPassword newPassword =>
    cases h
    rcases app.resetPassword_cases currentPassword newPassword with ⟨-, heq⟩ | ⟨-, heq⟩
    . rw [heq]
      exact .of_window _ rfl
    . rw [heq]
      exact .requested _ [.updatePassword newPassword] rfl (by simp [Event.Requests])
  | onSaveButtonPressed editor salts =>
    rcases onSaveButtonPressed_cases h with ⟨-, rfl⟩ | ⟨write, -, rfl⟩
    . exact .of_window _ rfl
    . exact .requested _ [.setValue write] rfl (by simp [Event.Requests])
  | viewWillAppear list uuid => exact .appeared list uuid (reloads_of_viewWillAppear h)
  | viewWillDisappear list =>
    cases h
    exact .disappeared list
  | onSignedIn list => exact .reloaded list (reloads_of_reloadData h)
  | complete index response => exact stepCases_complete h
  | signOut fails =>
    cases h
    rcases app.signOut_cases fails with heq | heq
    . rw [heq]
      exact .stayed fails
    . rw [heq]
      exact .signedOut rfl
  | authServiceSignOut =>
    cases h
    exact .signedOut rfl
  | authStateDidChange => exact .notified h

end App
