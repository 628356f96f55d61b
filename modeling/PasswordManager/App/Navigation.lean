import PasswordManager.App.Singleton

/-!
This module contains the app together with the two screens in front of its main tabs, whose
listeners are the only way into them.
-/

inductive AuthScreen where
  | login
  | register
  deriving DecidableEq, Repr

structure ScreenListener where
  listener : AuthListener := {}
  removed : Bool := false

structure Navigation where
  app : App
  -- The listeners that the two screens have added, in the order in which they have done so.
  listeners : List ScreenListener := []
  -- The places of `loginHandler` and `registerHandler` among them.
  handlers : AuthScreen → Option Nat := fun _ => none
  entered : Bool := false

inductive NavigationEvent where
  | viewDidAppear (screen : AuthScreen)
  | viewDidDisappear (screen : AuthScreen)
  | authStateDidChange (index : Nat)
  | app (event : Event)

namespace Navigation

def viewDidAppear (nav : Navigation) (screen : AuthScreen) : Navigation :=
  { nav with
    listeners := nav.listeners ++ [{}]
    handlers := Function.update nav.handlers screen (some nav.listeners.length)
  }

def viewDidDisappear (nav : Navigation) (screen : AuthScreen) : Except Trap Navigation :=
  match nav.handlers screen with
  -- the handle is implicitly unwrapped
  | none => .error .unexpectedlyFoundNil
  | some index =>
    .ok { nav with
      listeners := nav.listeners.modify index (fun entry => { entry with removed := true })
    }

def performSegue (nav : Navigation) : Navigation :=
  { nav with entered := true }

def onAuthState (nav : Navigation) (user : Option User) : Navigation :=
  match user with
  | none => nav
  | some _ => nav.performSegue

/--
A listener that has been removed still receives what was on its way, the initial notification
included.
-/
def authStateDidChange (nav : Navigation) (index : Nat) : Navigation :=
  match nav.listeners[index]? with
  | none => nav
  | some entry =>
    if entry.listener.outstanding = 0 then
      nav
    else
      let called := entry.listener.shouldCallListener nav.app.currentUser
      let listener := entry.listener.delivered nav.app.currentUser
      let nav := { nav with listeners := nav.listeners.set index { entry with listener } }
      if called then nav.onAuthState nav.app.currentUser else nav

def notified (entry : ScreenListener) : ScreenListener :=
  if entry.removed then entry else { entry with listener := entry.listener.notified }

def step (P : Platform) (nav : Navigation) : NavigationEvent → Except Trap Navigation
  | .viewDidAppear screen => .ok (nav.viewDidAppear screen)
  | .viewDidDisappear screen => nav.viewDidDisappear screen
  | .authStateDidChange index => .ok (nav.authStateDidChange index)
  | .app event => do
    let app ← nav.app.step P event
    if app.currentUser = nav.app.currentUser then
      return { nav with app }
    else
      return { nav with app, listeners := nav.listeners.map notified }

def launch (currentUser : Option User) : Navigation where
  app := .launch currentUser

def Settled (nav : Navigation) : Prop :=
  (∀ shared, nav.app.sharedInstance = some shared → shared.listener.firstInvocation = false)
    ∧ ∀ entry ∈ nav.listeners, entry.listener.firstInvocation = false

def ListShown (nav : Navigation) : Prop :=
  ∃ list, (nav.app.lists list).isSetUp = true

/--
What is assumed of the order of the events: a list appears only after one of the segues, the other
tabs are used only after a list has appeared, the user acts only while all listeners are settled,
and nobody but `SettingsViewController` signs the account out.
-/
def Assumed (nav : Navigation) : NavigationEvent → Prop
  | .app (.viewWillAppear _ _) => nav.entered = true
  | .app (.login _ _) => nav.Settled
  | .app (.register _ _) => nav.Settled
  | .app (.onSaveButtonPressed _ _) => nav.ListShown ∧ nav.Settled
  | .app (.resetPassword _ _) => nav.ListShown ∧ nav.Settled
  | .app (.signOut _) => nav.ListShown ∧ nav.Settled
  | .app .authServiceSignOut => False
  -- `onSignedIn` is called as a part of `App.authStateDidChange` only
  | .app (.onSignedIn _) => False
  | _ => True

end Navigation

namespace App

variable {P : Platform} {app app' : App} {e : Event}

def AwaitsUser (app : App) : Prop :=
  ∀ s, app.session = some s → s.user = none
    → s.listener.firstInvocation = true ∧ app.currentUser ≠ none

theorem session_eq_none_iff : app.session = none ↔ app.sharedInstance = none := by
  unfold session
  rw [Option.map_eq_none_iff]

theorem hasUser_of_session {s : Session} {user : User} (hs : app.session = some s)
    (huser : s.user = some user) : app.HasUser := by
  obtain ⟨shared, hshared, rfl⟩ := Option.map_eq_some_iff.mp hs
  refine ⟨user, ?_⟩
  rw [authenticatedUser, hshared]
  exact huser

theorem setCurrentUser_currentUser (app : App) (user : Option User)
    : (app.setCurrentUser user).currentUser = user := by
  unfold setCurrentUser
  split
  . next heq => exact heq.symm
  . rfl

structure AccountStep (app : App) (e : Event) (app' : App) : Prop where
  currentUser : app.currentUser ≠ none → app'.currentUser ≠ none ∨ e.signsOut = true
  sharedInstance : app.sharedInstance = none
    → app'.sharedInstance = none ∨ ∃ list uuid, e = .viewWillAppear list uuid

namespace AccountStep

theorem of_same (huser : app'.currentUser = app.currentUser)
    (hshared : app'.sharedInstance = app.sharedInstance) : AccountStep app e app' where
  currentUser h := .inl (by rwa [huser])
  sharedInstance h := .inl (by rwa [hshared])

theorem of_reloads (h : Reloads app app') : AccountStep app e app' := by
  exact .of_same h.currentUser_eq h.sharedInstance_eq

end AccountStep

theorem setCurrentUser_sharedInstance (user : Option User) (h : app.sharedInstance = none)
    : (app.setCurrentUser user).sharedInstance = none := by
  unfold setCurrentUser
  split
  . exact h
  . simp [h]

theorem accountStep_setCurrentUser {base : App} {user : Option User} {window : Window}
    (hshared : base.sharedInstance = app.sharedInstance)
    (huser : user ≠ none ∨ e.signsOut = true)
    : AccountStep app e { base.setCurrentUser user with window } where
  currentUser _ := by
    rw [setCurrentUser_currentUser]
    exact huser
  sharedInstance hnone := by
    rw [← hshared] at hnone
    exact .inl (setCurrentUser_sharedInstance user hnone)

theorem step_account (h : app.step P e = .ok app') : AccountStep app e app' := by
  cases step_cases h with
  | requested window requests _ _ => exact .of_same rfl rfl
  | appeared list uuid hreloads =>
    constructor
    . rw [hreloads.currentUser_eq]
      exact .inl
    . intro _
      exact .inr ⟨list, uuid, rfl⟩
  | disappeared list =>
    unfold viewWillDisappear
    split
    . exact .of_same rfl rfl
    . refine ⟨.inl, ?_⟩
      intro hnone
      simp [hnone]
  | reloaded list hreloads => exact .of_reloads hreloads
  | unanswered index response => exact .of_same rfl rfl
  | snapshot index list path snapshot self window _ _ => exact .of_same rfl rfl
  | answered index request response base window _ hbase =>
    rcases hbase with rfl | ⟨user, rfl⟩
    . exact .of_same rfl rfl
    . exact accountStep_setCurrentUser rfl (.inl (by simp))
  | stayed fails => exact .of_same rfl rfl
  | signedOut hsignsOut => exact accountStep_setCurrentUser rfl (.inr hsignsOut)
  | notified happ =>
    rcases authStateDidChange_cases happ
      with ⟨rfl, -⟩ | ⟨shared, hshared, -, -, rfl⟩ | ⟨shared, user, hshared, -, -, -, hreloads⟩
    . exact .of_same rfl rfl
    . refine ⟨.inl, ?_⟩
      rw [hshared]
      exact nofun
    . constructor
      . rw [hreloads.currentUser_eq]
        exact .inl
      . rw [hshared]
        exact nofun

theorem session_of_step (h : app.step P e = .ok app') (hnone : app'.session = none)
    : app.session = none := by
  cases step_session h with
  | stays hsame _ _ => rwa [hsame] at hnone
  | created hfresh _ _ _ => exact hfresh
  | changed hchanged _ =>
    rw [hchanged] at hnone
    exact Option.map_eq_none_iff.mp hnone
  | delivered before _ _ hdelivered _ _ =>
    rw [hdelivered] at hnone
    cases hnone

theorem step_awaitsUser (h : app.step P e = .ok app') (hawaits : app.AwaitsUser)
    (hcreated : app.session = none → (∃ list uuid, e = .viewWillAppear list uuid)
      → app.currentUser ≠ none)
    (hsignOut : e.signsOut = true
      → ∀ s, app.session = some s → s.listener.firstInvocation = false)
    : app'.AwaitsUser := by
  intro s hs hnone
  cases step_session h with
  | stays hsame huser _ =>
    rw [huser]
    rw [hsame] at hs
    exact hawaits s hs hnone
  | created hfresh hnew huser _ =>
    rw [hnew] at hs
    cases hs
    rw [huser]
    refine ⟨rfl, ?_⟩
    rcases (step_account h).sharedInstance (session_eq_none_iff.mp hfresh) with hgone | hevent
    . rw [← session_eq_none_iff, hnew] at hgone
      cases hgone
    . exact hcreated hfresh hevent
  | changed hchanged _ =>
    rw [hchanged] at hs
    obtain ⟨before, hbefore, rfl⟩ := Option.map_eq_some_iff.mp hs
    obtain ⟨hfirst, huser⟩ := hawaits before hbefore hnone
    refine ⟨hfirst, ?_⟩
    rcases (step_account h).currentUser huser with hsome | hsignsOut
    . exact hsome
    . rw [hsignOut hsignsOut before hbefore] at hfirst
      cases hfirst
  | delivered before hbefore _ hdelivered huser _ =>
    rw [hdelivered] at hs
    cases hs
    -- the first notification comes while somebody is signed in, it sets the user
    exfalso
    have hbeforeNone : before.user = none := by
      simp only [Session.delivered] at hnone
      split at hnone
      . exact (Option.or_eq_none_iff.mp hnone).right
      . exact hnone
    obtain ⟨hfirst, hcurrent⟩ := hawaits before hbefore hbeforeNone
    simp only [Session.delivered, AuthListener.shouldCallListener, hfirst, Bool.true_or, ↓reduceIte,
      Option.or_eq_none_iff] at hnone
    exact hcurrent hnone.left

end App

namespace Navigation

structure Guarded (nav : Navigation) : Prop where
  entered : nav.entered = true → nav.app.session = none → nav.app.currentUser ≠ none
  awaits : nav.app.AwaitsUser
  wired : nav.app.Wired
  queries : nav.app.QueriesHaveUser

variable {P : Platform} {nav nav' : Navigation}

theorem step_app_ok {event : Event} (h : nav.step P (.app event) = .ok nav')
    : nav.app.step P event = .ok nav'.app ∧ nav'.entered = nav.entered := by
  cases hstep : nav.app.step P event with
  | error trap => simp [step, hstep, bind, Except.bind] at h
  | ok app =>
    simp only [step, hstep, bind, Except.bind, pure, Except.pure] at h
    split at h
    . cases h
      exact ⟨rfl, rfl⟩
    . cases h
      exact ⟨rfl, rfl⟩

theorem authStateDidChange_cases (nav : Navigation) (index : Nat)
    : (nav.authStateDidChange index).app = nav.app
        ∧ ((nav.authStateDidChange index).entered = nav.entered
          ∨ nav.app.currentUser ≠ none) := by
  unfold authStateDidChange
  split
  . exact ⟨rfl, .inl rfl⟩
  . split
    . exact ⟨rfl, .inl rfl⟩
    . dsimp only
      split
      . unfold onAuthState
        split
        . exact ⟨rfl, .inl rfl⟩
        . next user huser =>
          refine ⟨rfl, .inr ?_⟩
          rw [huser]
          exact nofun
      . exact ⟨rfl, .inl rfl⟩

theorem Guarded.session_ne_none (hguarded : nav.Guarded) (hshown : nav.ListShown)
    : nav.app.session ≠ none := by
  obtain ⟨list, hsetUp⟩ := hshown
  rw [ne_eq, App.session_eq_none_iff]
  exact hguarded.wired.created list hsetUp

theorem Settled.session (hsettled : nav.Settled) {s : Session} (hs : nav.app.session = some s)
    : s.listener.firstInvocation = false := by
  obtain ⟨shared, hshared, rfl⟩ := Option.map_eq_some_iff.mp hs
  exact hsettled.left shared hshared

theorem Guarded.hasUser (hguarded : nav.Guarded) (hshown : nav.ListShown)
    (hsettled : nav.Settled) : nav.app.HasUser := by
  obtain ⟨s, hs⟩ := Option.ne_none_iff_exists'.mp (hguarded.session_ne_none hshown)
  cases huser : s.user with
  | some user => exact App.hasUser_of_session hs huser
  | none =>
    obtain ⟨hfirst, -⟩ := hguarded.awaits s hs huser
    rw [hsettled.session hs] at hfirst
    cases hfirst

theorem Assumed.signOut {event : Event} (hassumed : nav.Assumed (.app event))
    (hsignsOut : event.signsOut = true) : nav.ListShown ∧ nav.Settled := by
  cases event with
  | signOut fails => exact hassumed
  | authServiceSignOut => exact hassumed.elim
  | _ => cases hsignsOut

theorem guarded_of_app {event : Event} (hguarded : nav.Guarded)
    (hassumed : nav.Assumed (.app event)) (h : nav.app.step P event = .ok nav'.app)
    (hentered : nav'.entered = nav.entered) : nav'.Guarded := by
  constructor
  . intro hin hnone
    rw [hentered] at hin
    have hfresh := App.session_of_step h hnone
    rcases (App.step_account h).currentUser (hguarded.entered hin hfresh) with hsome | hsignsOut
    . exact hsome
    . exact (hguarded.session_ne_none (hassumed.signOut hsignsOut).left hfresh).elim
  . apply App.step_awaitsUser h hguarded.awaits
    . rintro hnone ⟨list, uuid, rfl⟩
      exact hguarded.entered hassumed hnone
    . intro hsignsOut s hs
      exact (hassumed.signOut hsignsOut).right.session hs
  . exact App.step_wired h hguarded.queries hguarded.wired
  . exact App.step_queriesHaveUser h hguarded.queries

theorem step_guarded {e : NavigationEvent} (hguarded : nav.Guarded) (hassumed : nav.Assumed e)
    (h : nav.step P e = .ok nav') : nav'.Guarded := by
  cases e with
  | viewDidAppear screen =>
    cases h
    exact ⟨hguarded.entered, hguarded.awaits, hguarded.wired, hguarded.queries⟩
  | viewDidDisappear screen =>
    simp only [step, viewDidDisappear] at h
    split at h
    . cases h
    . cases h
      exact ⟨hguarded.entered, hguarded.awaits, hguarded.wired, hguarded.queries⟩
  | authStateDidChange index =>
    cases h
    obtain ⟨happ, hentered⟩ := nav.authStateDidChange_cases index
    constructor
    . rw [happ]
      intro hin
      rcases hentered with hsame | huser
      . rw [hsame] at hin
        exact hguarded.entered hin
      . exact fun _ => huser
    . rw [happ]
      exact hguarded.awaits
    . rw [happ]
      exact hguarded.wired
    . rw [happ]
      exact hguarded.queries
  | app event =>
    obtain ⟨hstep, hentered⟩ := step_app_ok h
    exact guarded_of_app hguarded hassumed hstep hentered

theorem launch_guarded (currentUser : Option User) : (launch currentUser).Guarded where
  entered h := by cases h
  awaits s hs := by cases hs
  wired := App.launch_wired currentUser
  queries := App.launch_queriesHaveUser currentUser

theorem uidHashHasUser_of_guarded {event : Event} (hguarded : nav.Guarded)
    (hassumed : nav.Assumed (.app event)) : nav.app.UidHashHasUser P event := by
  apply App.uidHashHasUser_of_wired hguarded.queries hguarded.wired
  . rintro editor salts rfl
    exact hguarded.hasUser hassumed.left hassumed.right
  . rintro list rfl
    exact hassumed

/--
In every state that the app reaches under the assumptions, and for every event that may come next,
the hash of the user is not asked for while there is no user.
-/
theorem uidHash_has_user (P : Platform) (currentUser : Option User)
    {events : List NavigationEvent} {nav : Navigation}
    (hassumed : Transition.Meets (step P) Assumed (launch currentUser) events)
    (hrun : Transition.run (step P) (launch currentUser) events = .ok nav)
    : ∀ event, nav.Assumed (.app event) → nav.app.UidHashHasUser P event := by
  intro event hevent
  have hguarded : nav.Guarded := by
    apply Transition.run_keeps (step P) (I := Guarded) _ (launch_guarded currentUser) hassumed hrun
    intro nav e nav' hguarded he h
    exact step_guarded hguarded he h
  exact uidHashHasUser_of_guarded hguarded hevent

def signedOutEvents : List NavigationEvent :=
  [.viewDidAppear .login, .authStateDidChange 0, .app (.viewWillAppear 0 "l"),
    .app .authStateDidChange, .viewDidDisappear .login, .app (.signOut false)]

theorem meets_signedOutEvents
    : Transition.Meets (step .reference) Assumed (launch (some ⟨"u"⟩)) signedOutEvents := by
  simp only [signedOutEvents, Transition.meets_cons]
  intro _ h
  cases h
  refine ⟨trivial, ?_⟩
  intro _ h
  cases h
  refine ⟨trivial, ?_⟩
  intro _ h
  cases h
  refine ⟨rfl, ?_⟩
  intro _ h
  cases h
  refine ⟨trivial, ?_⟩
  intro _ h
  cases h
  refine ⟨trivial, ?_⟩
  intro _ h
  cases h
  refine ⟨⟨⟨0, rfl⟩, ?_, ?_⟩, ?_⟩
  . rintro shared ⟨⟩
    rfl
  . rintro entry (_ | ⟨_, ⟨⟩⟩)
    rfl
  . apply Transition.meets_nil

theorem uidHash_has_user_late_snapshot
    : ∃ nav : Navigation,
        Transition.run (step .reference) (launch (some ⟨"u"⟩)) signedOutEvents = .ok nav
          ∧ nav.app.currentUser = none
          ∧ nav.app.UidHashHasUser .reference
              (.complete 0 (.snapshot ⟨.null, List.nodup_nil⟩)) := by
  have hobserved : (Transition.run (step .reference) (launch (some ⟨"u"⟩))
      signedOutEvents).toOption.map (fun nav => nav.app.currentUser) = some none := by
    decide +kernel
  obtain ⟨nav, hrun, hnone⟩ := Transition.exists_run_of_observe _ _ hobserved
  refine ⟨nav, hrun, hnone, ?_⟩
  exact uidHash_has_user .reference (some ⟨"u"⟩) meets_signedOutEvents hrun _ trivial

end Navigation
