import PasswordManager.App.Singleton
import PasswordManager.Dictionary.Registry

/-!
This module contains the relation between the observers of the singleton and the lists on screen,
along every run of the app.
-/

def Request.reloads (list : Nat) : Request → Bool
  | .observeSingleEvent other _ => other = list
  | _ => false

namespace Event

def isObserverEvent : Event → Bool
  | .viewWillAppear _ _ => true
  | .viewWillDisappear _ => true
  | .authStateDidChange => true
  | .login _ _ => true
  | .register _ _ => true
  | .complete _ (.auth _) => true
  | .signOut _ => true
  | .authServiceSignOut => true
  | _ => false

end Event

structure Screens where
  visible : Nat → Bool := fun _ => false
  issued : List String := []

namespace Screens

def next (self : Screens) : Event → Screens
  | .viewWillAppear list uuid =>
    { visible := Function.update self.visible list true, issued := uuid :: self.issued }
  | .viewWillDisappear list => { self with visible := Function.update self.visible list false }
  | _ => self

def step (self : Screens) (e : Event) : Except Trap Screens :=
  .ok (self.next e)

def Fits (self : Screens) : Event → Prop
  | .viewWillAppear list uuid => self.visible list = false ∧ uuid ∉ self.issued
  | .viewWillDisappear list => self.visible list = true
  | _ => True

def after (events : List Event) : Screens :=
  events.foldl next {}

theorem next_eq_self (self : Screens) {e : Event} (h : e.makesRequest = true ∨ e.signsOut = true)
    : self.next e = self := by
  cases e with
  | viewWillAppear list uuid => simp [Event.makesRequest, Event.signsOut] at h
  | viewWillDisappear list => simp [Event.makesRequest, Event.signsOut] at h
  | _ => rfl

end Screens

namespace App

def NotifiesUser (app : App) : Prop :=
  ∃ shared user, app.sharedInstance = some shared
    ∧ shared.listener.outstanding ≠ 0
    ∧ app.currentUser = some user
    ∧ shared.listener.shouldCallListener app.currentUser = true

def ReloadsVisible (screens : Screens) (started : List Request) : Prop :=
  ∀ list, started.countP (Request.reloads list) = if screens.visible list then 1 else 0

structure MirrorsVisible (P : Platform) (screens : Screens) (app : App) : Prop where
  registered : ∀ list, (app.authenticatedUser.observers.map Prod.snd).count list
    = if screens.visible list then 1 else 0
  called : ∀ shared user, app.sharedInstance = some shared →
    ∃ app' started, app.onAuthState P shared (some user) = .ok app'
      ∧ app'.pending = app.pending ++ started
      ∧ ReloadsVisible screens started
  notified : ∃ app' started, app.step P .authStateDidChange = .ok app'
    ∧ app'.pending = app.pending ++ started
    ∧ (app.NotifiesUser → ReloadsVisible screens started)
    ∧ (¬ app.NotifiesUser → started = [])

def observerIds (app : App) : Nat → Option String :=
  ListViewController.observerId ∘ app.lists

structure Registered (screens : Screens) (app : App) : Prop where
  registers : Dictionary.Registers app.authenticatedUser.observers app.observerIds
  visible : screens.visible = Option.isSome ∘ app.observerIds
  issued : ∀ id ∈ Dictionary.keys app.authenticatedUser.observers, id ∈ screens.issued

variable {P : Platform} {app app' : App} {screens : Screens}

namespace Registered

theorem congr (h : Registered screens app)
    (hobservers : app'.authenticatedUser.observers = app.authenticatedUser.observers)
    (hids : app'.observerIds = app.observerIds) : Registered screens app' := by
  constructor
  . rw [hobservers, hids]
    exact h.registers
  . rw [hids]
    exact h.visible
  . rw [hobservers]
    exact h.issued

theorem of_reloads (h : Registered screens app) (hreloads : Reloads app app')
    : Registered screens app' := by
  apply h.congr
  . rw [hreloads.authenticatedUser_eq]
  . rw [observerIds, hreloads.lists_eq, observerIds]

theorem setCurrentUser (h : Registered screens app) (user : Option User)
    : Registered screens (app.setCurrentUser user) := by
  apply h.congr
  . rw [setCurrentUser_authenticatedUser]
  . rw [observerIds, setCurrentUser_lists, observerIds]

theorem appeared (h : Registered screens app) {list : Nat} {uuid : String}
    (hfits : screens.Fits (.viewWillAppear list uuid))
    : Registered (screens.next (.viewWillAppear list uuid)) (app.appeared list uuid) := by
  obtain ⟨hhidden, hfresh⟩ := hfits
  have hid : app.observerIds list = none := by
    rw [h.visible] at hhidden
    simpa using hhidden
  have hids : (app.appeared list uuid).observerIds
      = Function.update app.observerIds list (some uuid) := by
    rw [observerIds, appeared_lists, Function.comp_update]
    rfl
  constructor
  . rw [appeared_observers, hids]
    exact h.registers.set (fun hmem => hfresh (h.issued uuid hmem)) hid
  . rw [hids, Function.comp_update, ← h.visible]
    rfl
  . intro id hmem
    rw [appeared_observers, Dictionary.mem_keys_set] at hmem
    rw [Screens.next, List.mem_cons]
    exact hmem.imp_right (h.issued id)

theorem viewWillDisappear (h : Registered screens app) (list : Nat)
    : Registered (screens.next (.viewWillDisappear list)) (app.viewWillDisappear list) := by
  cases hid : (app.lists list).observerId with
  | none =>
    have hvisible : screens.next (.viewWillDisappear list) = screens := by
      have hhidden : screens.visible list = false := by
        rw [h.visible, Function.comp_apply, observerIds, Function.comp_apply, hid]
        rfl
      rw [Screens.next, Function.update_eq_self_iff.mpr hhidden.symm]
    rw [hvisible]
    unfold App.viewWillDisappear
    rw [hid]
    exact h
  | some id =>
    obtain ⟨hobservers, hlists⟩ := viewWillDisappear_of_observerId hid
    have hids : (app.viewWillDisappear list).observerIds
        = Function.update app.observerIds list none := by
      rw [observerIds, hlists, Function.comp_update]
      rfl
    constructor
    . rw [hobservers, hids]
      exact h.registers.erase hid
    . rw [hids, Function.comp_update, ← h.visible]
      rfl
    . intro other hmem
      rw [hobservers] at hmem
      obtain ⟨entry, hentry, rfl⟩ := List.mem_map.mp hmem
      exact h.issued _ (List.mem_map_of_mem (Dictionary.mem_of_mem_erase hentry))

end Registered

theorem launch_registered (currentUser : Option User) : Registered {} (launch currentUser) where
  registers := .nil
  visible := rfl
  issued _ hmem := by cases hmem

theorem registered_of_authStateDidChange (hregistered : Registered screens app)
    (h : app.authStateDidChange P = .ok app') : Registered screens app' := by
  rcases authStateDidChange_cases h
    with ⟨rfl, -⟩ | ⟨shared, hshared, -, -, rfl⟩ | ⟨shared, user, hshared, -, -, -, hreloads⟩
  . exact hregistered
  . apply hregistered.congr
    . simp [authenticatedUser, hshared]
    . rfl
  . refine Registered.of_reloads ?_ hreloads
    apply hregistered.congr
    . simp [authenticatedUser, hshared]
    . rfl

theorem step_registered {e : Event} (hqueries : app.QueriesHaveUser)
    (hregistered : Registered screens app) (hfits : screens.Fits e)
    (h : app.step P e = .ok app') : Registered (screens.next e) app' := by
  cases step_cases h with
  | requested window requests hmakes _ =>
    rw [screens.next_eq_self (.inl hmakes)]
    exact hregistered.congr rfl rfl
  | appeared list uuid hreloads => exact (hregistered.appeared hfits).of_reloads hreloads
  | disappeared list => exact hregistered.viewWillDisappear list
  | reloaded list hreloads => exact hregistered.of_reloads hreloads
  | unanswered index response => exact hregistered
  | snapshot index list path snapshot self window hrequest hsnapshot =>
    obtain ⟨uid, huid⟩ := uidHash_of_query (P := P) hqueries hrequest
    apply hregistered.congr
    . rfl
    . have hid := (ListViewController.onSnapshot_keeps huid hsnapshot).right
      unfold observerIds
      rw [Function.comp_update, hid, Function.update_eq_self_iff]
      rfl
  | answered index request response base window _ hbase =>
    have hrest : Registered screens { app with pending := app.pending.eraseIdx index } :=
      hregistered.congr rfl rfl
    have hbase' : Registered screens base := by
      rcases hbase with rfl | ⟨user, rfl⟩
      . exact hrest
      . exact hrest.setCurrentUser (some user)
    exact hbase'.congr rfl rfl
  | stayed fails => exact hregistered
  | signedOut hsignsOut =>
    rw [screens.next_eq_self (.inr hsignsOut)]
    exact hregistered.setCurrentUser none
  | notified happ => exact registered_of_authStateDidChange hregistered happ

theorem pending_of_informObserversSignedIn {uid : String} {observers : List (String × Nat)}
    (h : app.informObserversSignedIn P observers = .ok app')
    (huid : app.authenticatedUser.uidHash P = .ok uid)
    : app'.pending
        =
      app.pending ++ observers.map
        (fun observer => .observeSingleEvent observer.2 ("Credentials/" ++ uid)) := by
  unfold informObserversSignedIn at h
  induction observers generalizing app with
  | nil =>
    cases h
    simp
  | cons observer observers ih =>
    rw [List.foldlM_cons] at h
    cases hfirst : app.onSignedIn P observer.2 with
    | error trap => simp [hfirst, bind, Except.bind] at h
    | ok mid =>
      simp only [hfirst, bind, Except.bind] at h
      obtain ⟨uid', huid', hmid⟩ := reloadData_ok hfirst
      rw [huid] at huid'
      cases huid'
      have huser : mid.authenticatedUser = app.authenticatedUser :=
        (reloads_of_reloadData hfirst).authenticatedUser_eq
      rw [← huser] at huid
      rw [ih h huid, hmid]
      simp

theorem countP_reloads (list : Nat) (path : String) (observers : List (String × Nat))
    : (observers.map (fun observer => Request.observeSingleEvent observer.2 path)).countP
          (Request.reloads list)
        =
      (observers.map Prod.snd).count list := by
  rw [List.countP_map, List.count_eq_countP, List.countP_map]
  rfl

theorem onAuthState_reloads (app : App) (shared : SharedInstance) (user : User)
    (hsetUp : ∀ observer ∈ shared.authenticatedUser.observers,
      (app.lists observer.2).isSetUp = true)
    (hcount : ∀ list, (shared.authenticatedUser.observers.map Prod.snd).count list
      = if screens.visible list then 1 else 0)
    : ∃ app' started, app.onAuthState P shared (some user) = .ok app'
        ∧ app'.pending = app.pending ++ started
        ∧ ReloadsVisible screens started := by
  obtain ⟨app', happ⟩ : ∃ app', app.onAuthState P shared (some user) = .ok app' := by
    unfold onAuthState
    exact informObserversSignedIn_total hsetUp ⟨user, rfl⟩
  have hpending := pending_of_informObserversSignedIn happ (AuthenticatedUser.uidHash_of_user rfl)
  refine ⟨app', _, happ, hpending, ?_⟩
  intro list
  rw [countP_reloads]
  exact hcount list

theorem authStateDidChange_of_notifiesUser (h : app.NotifiesUser)
    : ∃ shared user listener, app.sharedInstance = some shared
        ∧ app.authStateDidChange P
          = onAuthState P { app with sharedInstance := some { shared with listener } }
              { shared with listener } (some user) := by
  obtain ⟨shared, user, hshared, hout, huser, hcall⟩ := h
  refine ⟨shared, user, shared.listener.delivered app.currentUser, hshared, ?_⟩
  simp only [authStateDidChange, hshared, hout, ↓reduceIte, hcall]
  rw [huser]

theorem started_of_not_notifiesUser (h : ¬ app.NotifiesUser)
    (happ : app.authStateDidChange P = .ok app') : app'.pending = app.pending := by
  rcases authStateDidChange_cases happ
    with ⟨rfl, -⟩ | ⟨shared, -, -, -, rfl⟩ | ⟨shared, user, hshared, hout, huser, hcall, -⟩
  . rfl
  . rfl
  . exact (h ⟨shared, user, hshared, hout, huser, hcall⟩).elim

theorem Registered.count_observers (h : Registered screens app) (list : Nat)
    : (app.authenticatedUser.observers.map Prod.snd).count list
        =
      if screens.visible list then 1 else 0 := by
  rw [h.registers.count_members, h.visible]
  rfl

theorem Registered.called (h : Registered screens app) (hwired : app.Wired)
    {shared : SharedInstance} (hshared : app.sharedInstance = some shared) (listener : AuthListener)
    (user : User)
    : ∃ app' started,
        onAuthState P { app with sharedInstance := some { shared with listener } }
            { shared with listener } (some user) = .ok app'
          ∧ app'.pending = app.pending ++ started
          ∧ ReloadsVisible screens started := by
  have hobservers : app.authenticatedUser.observers = shared.authenticatedUser.observers := by
    rw [authenticatedUser, hshared]
  apply onAuthState_reloads
  . rw [← hobservers]
    exact hwired.observers
  . rw [← hobservers]
    exact h.count_observers

theorem mirrorsVisible_of_registered (hwired : app.Wired) (h : Registered screens app)
    : MirrorsVisible P screens app := by
  constructor
  . exact h.count_observers
  . intro shared user hshared
    have hsame : { app with sharedInstance := some { shared with listener := shared.listener } }
        = app := by
      rw [← hshared]
    have hcalled := h.called (P := P) hwired hshared shared.listener user
    rw [hsame] at hcalled
    exact hcalled
  . by_cases hnotifies : app.NotifiesUser
    . obtain ⟨shared, user, listener, hshared, happ⟩ :=
        authStateDidChange_of_notifiesUser (P := P) hnotifies
      obtain ⟨app', started, hok, hpending, hreloads⟩ := h.called hwired hshared listener user
      refine ⟨app', started, ?_, hpending, fun _ => hreloads, fun hnot => (hnot hnotifies).elim⟩
      rw [step, happ]
      exact hok
    . obtain ⟨app', happ⟩ := authStateDidChange_total (P := P) hwired
      refine ⟨app', [], happ, ?_, fun h => (hnotifies h).elim, fun _ => rfl⟩
      rw [List.append_nil]
      exact started_of_not_notifiesUser hnotifies happ

theorem step_total {e : Event} (hqueries : app.QueriesHaveUser) (hwired : app.Wired)
    (hevent : e.isObserverEvent = true) : ∃ app', app.step P e = .ok app' := by
  cases hstep : app.step P e with
  | ok app' => exact ⟨app', rfl⟩
  | error trap =>
    have hwithUser : app.UidHashHasUser P e := by
      apply uidHashHasUser_of_wired hqueries hwired
      . rintro editor salts rfl
        cases hevent
      . rintro list rfl
        cases hevent
    cases hwithUser.traps trap hstep with
    | credential editor salts _ => cases hevent
    | record index list path uid snapshot entry _ _ _ _ => cases hevent

/--
As long as lists appear and disappear in turn, under ids that are distinct, the observers of the
singleton are the lists on screen, and a notification with a user reloads each of them once.
Appearances, disappearances and notifications never trap.
-/
theorem observers_mirror_visible (P : Platform) (currentUser : Option User) {events : List Event}
    (hfits : Transition.Meets Screens.step Screens.Fits {} events)
    : (∀ app, Transition.run (step P) (launch currentUser) events = .ok app
        → MirrorsVisible P (Screens.after events) app)
      ∧ ((∀ e ∈ events, e.isObserverEvent = true)
        → ∃ app, Transition.run (step P) (launch currentUser) events = .ok app) := by
  constructor
  . intro app hrun
    have hinv : app.QueriesHaveUser ∧ app.Wired ∧ Registered (Screens.after events) app := by
      apply Transition.run_follows (step P) Screens.next
        (R := fun app screens => app.QueriesHaveUser ∧ app.Wired ∧ Registered screens app) _
        ⟨launch_queriesHaveUser currentUser, launch_wired currentUser,
          launch_registered currentUser⟩ hfits hrun
      rintro app screens e app' ⟨hqueries, hwired, hregistered⟩ he h
      exact ⟨step_queriesHaveUser h hqueries, step_wired h hqueries hwired,
        step_registered hqueries hregistered he h⟩
    exact mirrorsVisible_of_registered hinv.right.left hinv.right.right
  . intro hevents
    have hstep : ∀ (app : App) e, app.QueriesHaveUser ∧ app.Wired → e.isObserverEvent = true →
        ∃ app', app.step P e = .ok app' ∧ app'.QueriesHaveUser ∧ app'.Wired := by
      rintro app e ⟨hqueries, hwired⟩ he
      obtain ⟨app', h⟩ := step_total (P := P) hqueries hwired he
      exact ⟨app', h, step_queriesHaveUser h hqueries, step_wired h hqueries hwired⟩
    obtain ⟨app, hrun, -⟩ := Transition.exists_run_of_step (step P) hstep
      ⟨launch_queriesHaveUser currentUser, launch_wired currentUser⟩ hevents
    exact ⟨app, hrun⟩

def twoLists : List Event :=
  [.viewWillAppear 0 "a", .authStateDidChange, .viewWillAppear 1 "b", .viewWillDisappear 0,
    .viewWillAppear 0 "c", .signOut false, .authStateDidChange]

theorem fits_twoLists : Transition.Meets Screens.step Screens.Fits {} twoLists := by
  simp [twoLists, Transition.meets_cons, Transition.meets_nil, Screens.step, Screens.next,
    Screens.Fits]

theorem observers_mirror_visible_two_lists
    : ∃ app, Transition.run (step .reference) (launch (some ⟨"u"⟩)) twoLists = .ok app
        ∧ MirrorsVisible .reference (Screens.after twoLists) app := by
  have hmirrors := observers_mirror_visible .reference (some ⟨"u"⟩) fits_twoLists
  obtain ⟨app, hrun⟩ := hmirrors.right (by simp [twoLists, Event.isObserverEvent])
  exact ⟨app, hrun, hmirrors.left app hrun⟩

end App
