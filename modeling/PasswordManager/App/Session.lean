import PasswordManager.App.Queries

/-!
This module contains the relation between the singleton and the current user of the authentication
service, along every run of the app.
-/

structure Session where
  listener : AuthListener := {}
  user : Option User := none

namespace Session

def notified (self : Session) : Session :=
  { self with listener := self.listener.notified }

def delivered (self : Session) (user : Option User) : Session where
  listener := self.listener.delivered user
  user := if self.listener.shouldCallListener user then user.or self.user else self.user

structure Consistent (s : Session) (currentUser : Option User) : Prop where
  outstanding_of_first : s.listener.firstInvocation = true → s.listener.outstanding ≠ 0
  user_of_previous : s.listener.firstInvocation = false
    → ∀ id, s.listener.previousUserID = some id → s.user = some ⟨id⟩
  previous_of_delivered : s.listener.outstanding = 0
    → s.listener.previousUserID = currentUser.map User.uid

theorem consistent_new (currentUser : Option User) : Consistent {} currentUser := by
  constructor
  . simp
  . simp
  . simp

theorem Consistent.notified {self : Session} {currentUser : Option User}
    (h : self.Consistent currentUser) (user : Option User) : self.notified.Consistent user := by
  constructor
  . intro _
    apply Nat.succ_ne_zero
  . exact h.user_of_previous
  . intro hzero
    cases hzero

theorem Consistent.delivered {self : Session} {currentUser : Option User}
    (h : self.Consistent currentUser) : (self.delivered currentUser).Consistent currentUser := by
  constructor
  . intro hfirst
    cases hfirst
  . intro _ id hid
    cases currentUser with
    | none => cases hid
    | some user =>
      cases hid
      simp only [Session.delivered]
      split
      . rfl
      . next hcall =>
        -- the listener is not called because it has seen the same user before
        simp only [AuthListener.shouldCallListener, Option.map_some, ne_eq, Bool.or_eq_true,
          decide_eq_true_eq, not_or, Bool.not_eq_true, Decidable.not_not] at hcall
        apply h.user_of_previous hcall.left
        exact hcall.right
  . intro _
    rfl

theorem Consistent.user_eq_iff {self : Session} {currentUser : Option User}
    (h : self.Consistent currentUser) (hzero : self.listener.outstanding = 0)
    : self.user = currentUser ↔ (currentUser = none → self.user = none) := by
  have hfirst : self.listener.firstInvocation = false := by
    cases hfirst : self.listener.firstInvocation with
    | false => rfl
    | true => exact (h.outstanding_of_first hfirst hzero).elim
  have hprevious := h.previous_of_delivered hzero
  cases currentUser with
  | none => simp
  | some user =>
    simp only [reduceCtorEq, false_implies, iff_true]
    apply h.user_of_previous hfirst
    exact hprevious

end Session

namespace App

variable (P : Platform)

def session (app : App) : Option Session :=
  app.sharedInstance.map (fun shared =>
    { listener := shared.listener, user := shared.authenticatedUser.user })

def FollowsAccount (app : App) : Prop :=
  ∀ shared, app.sharedInstance = some shared
    → shared.listener.outstanding = 0
    → shared.authenticatedUser.user = app.currentUser
      ∧ shared.authenticatedUser.hasSignedIn = app.currentUser.isSome
      ∧ (∀ uid, shared.authenticatedUser.uidHash P = .ok uid
          → ∃ user, app.currentUser = some user ∧ uid = P.digest user.uid)
      ∧ (∀ path, shared.authenticatedUser.dbCredentialsPath P = .ok path
          → ∃ user, app.currentUser = some user ∧ path = "Credentials/" ++ P.digest user.uid)

/--
The condition on a step: the last outstanding notification is not delivered while nobody is signed
in and the singleton has a user.
-/
def KeepsSession (app : App) : Event → Prop
  | .authStateDidChange =>
    ∀ shared, app.sharedInstance = some shared
      → shared.listener.outstanding = 1
      → app.currentUser = none
      → shared.authenticatedUser.user = none
  | _ => True

def SessionConsistent (app : App) : Prop :=
  ∀ s, app.session = some s → s.Consistent app.currentUser

inductive SessionStep (app : App) (e : Event) (app' : App) : Prop where
  | stays (hsession : app'.session = app.session) (huser : app'.currentUser = app.currentUser)
    (hevent : e = .authStateDidChange → ∀ s, app.session = some s → s.listener.outstanding = 0)
  | created (hnone : app.session = none) (hsession : app'.session = some {})
    (huser : app'.currentUser = app.currentUser) (hevent : e ≠ .authStateDidChange)
  | changed (hsession : app'.session = app.session.map Session.notified)
    (hevent : e ≠ .authStateDidChange)
  | delivered (s : Session) (hs : app.session = some s) (hne : s.listener.outstanding ≠ 0)
    (hsession : app'.session = some (s.delivered app.currentUser))
    (huser : app'.currentUser = app.currentUser) (hevent : e = .authStateDidChange)

variable {P}

theorem session_of_reloads {app app' : App} (h : Reloads app app')
    : app'.session = app.session := by
  unfold session
  rw [h.sharedInstance_eq]

theorem sessionStep_setCurrentUser {app app' : App} (base : App) (user : Option User) {e : Event}
    (hevent : e ≠ .authStateDidChange)
    (hsession : base.session = app.session) (huser : base.currentUser = app.currentUser)
    (hsession' : app'.session = (base.setCurrentUser user).session)
    (huser' : app'.currentUser = (base.setCurrentUser user).currentUser)
    : SessionStep app e app' := by
  by_cases hsame : user = base.currentUser
  . have hbase : base.setCurrentUser user = base := if_pos hsame
    rw [hbase] at hsession' huser'
    apply SessionStep.stays
    . rw [hsession', hsession]
    . rw [huser', huser]
    . intro heq
      exact (hevent heq).elim
  . have hnotified : (base.setCurrentUser user).session = base.session.map Session.notified := by
      unfold setCurrentUser
      rw [if_neg hsame]
      simp only [session, Option.map_map]
      rfl
    apply SessionStep.changed
    . rw [hsession', hnotified, hsession]
    . exact hevent

theorem sessionStep_viewWillAppear {P : Platform} {app app' : App} {list : Nat} {uuid : String}
    (h : app.viewWillAppear P list uuid = .ok app')
    : SessionStep app (.viewWillAppear list uuid) app' := by
  have hreloads := reloads_of_viewWillAppear h
  have hsession := session_of_reloads hreloads
  have huser := hreloads.currentUser_eq
  cases hshared : app.sharedInstance with
  | none =>
    apply SessionStep.created
    . simp [session, hshared]
    . rw [hsession]
      simp [session, appeared, shared, hshared]
    . exact huser
    . simp
  | some shared =>
    apply SessionStep.stays
    . rw [hsession]
      simp [session, appeared, App.shared, hshared]
    . exact huser
    . simp

theorem sessionStep_authStateDidChange {P : Platform} {app app' : App}
    (h : app.authStateDidChange P = .ok app') : SessionStep app .authStateDidChange app' := by
  rcases authStateDidChange_cases h
    with ⟨rfl, hzero⟩ | ⟨shared, hshared, hne, hignored, rfl⟩
      | ⟨shared, user, hshared, hne, huser, hcall, hreloads⟩
  . apply SessionStep.stays
    . rfl
    . rfl
    . intro _ s hs
      obtain ⟨shared, hshared, rfl⟩ := Option.map_eq_some_iff.mp hs
      exact hzero shared hshared
  . apply SessionStep.delivered
    . simp only [session, hshared, Option.map_some]
      rfl
    . exact hne
    . simp only [session, Option.map_some, Session.delivered, Option.some.injEq, Session.mk.injEq,
        true_and]
      cases hignored with
      | inl hnone => simp [hnone]
      | inr hcall => simp [hcall]
    . rfl
    . rfl
  . apply SessionStep.delivered
    . simp only [session, hshared, Option.map_some]
      rfl
    . exact hne
    . rw [session_of_reloads hreloads]
      simp [session, Session.delivered, hcall]
      simp [huser]
    . rw [hreloads.currentUser_eq]
    . rfl

theorem step_session {app app' : App} {e : Event} (h : app.step P e = .ok app')
    : SessionStep app e app' := by
  cases step_cases h with
  | requested window requests hmakes _ =>
    apply SessionStep.stays
    . rfl
    . rfl
    . rintro rfl
      cases hmakes
  | appeared list uuid _ => exact sessionStep_viewWillAppear h
  | disappeared list =>
    unfold viewWillDisappear
    split
    . apply SessionStep.stays <;> simp
    . apply SessionStep.stays
      . simp only [session, modifyList_sharedInstance, Option.map_map]
        rfl
      . rfl
      . simp
  | reloaded list hreloads =>
    apply SessionStep.stays
    . exact session_of_reloads hreloads
    . exact hreloads.currentUser_eq
    . simp
  | unanswered index response => apply SessionStep.stays <;> simp
  | snapshot index list path snapshot self window _ _ =>
    apply SessionStep.stays <;> simp [session]
  | answered index request response base window _ hbase =>
    rcases hbase with rfl | ⟨user, rfl⟩
    . apply SessionStep.stays <;> simp [session]
    . exact sessionStep_setCurrentUser { app with pending := app.pending.eraseIdx index }
        (some user) (by simp) rfl rfl rfl rfl
  | stayed fails => apply SessionStep.stays <;> simp
  | signedOut hsignsOut =>
    have hevent : e ≠ .authStateDidChange := by
      rintro rfl
      cases hsignsOut
    exact sessionStep_setCurrentUser app none hevent rfl rfl rfl rfl
  | notified _ => exact sessionStep_authStateDidChange h

theorem step_sessionConsistent {app app' : App} {e : Event} (h : app.step P e = .ok app')
    (hsession : app.SessionConsistent) : app'.SessionConsistent := by
  intro s hs
  cases step_session h with
  | stays hsame huser _ =>
    rw [hsame] at hs
    rw [huser]
    exact hsession s hs
  | created _ hnew _ _ =>
    rw [hnew] at hs
    cases hs
    apply Session.consistent_new
  | changed hchanged _ =>
    rw [hchanged] at hs
    obtain ⟨before, hbefore, rfl⟩ := Option.map_eq_some_iff.mp hs
    apply (hsession before hbefore).notified
  | delivered before hbefore _ hdelivered huser _ =>
    rw [hdelivered] at hs
    cases hs
    rw [huser]
    exact (hsession before hbefore).delivered

theorem followsAccount_iff {app : App}
    : app.FollowsAccount P
        ↔
      ∀ s, app.session = some s → s.listener.outstanding = 0 → s.user = app.currentUser := by
  constructor
  . intro h s hs hzero
    obtain ⟨shared, hshared, rfl⟩ := Option.map_eq_some_iff.mp hs
    exact (h shared hshared hzero).left
  . intro h shared hshared hzero
    have huser : shared.authenticatedUser.user = app.currentUser :=
      h _ (by rw [session, hshared, Option.map_some]) hzero
    have huid : ∀ uid, shared.authenticatedUser.uidHash P = .ok uid
        → ∃ user, app.currentUser = some user ∧ uid = P.digest user.uid := by
      intro uid huid
      obtain ⟨user, hsome⟩ :=
        Option.isSome_iff_exists.mp (AuthenticatedUser.uidHash_ok_iff.mp ⟨uid, huid⟩)
      rw [AuthenticatedUser.uidHash_of_user hsome] at huid
      cases huid
      refine ⟨user, ?_, rfl⟩
      rw [← huser, hsome]
    refine ⟨huser, ?_, huid, ?_⟩
    . rw [AuthenticatedUser.hasSignedIn, huser]
    . intro path hpath
      obtain ⟨uid, hhash, rfl⟩ := dbCredentialsPath_ok hpath
      obtain ⟨user, hcurrent, rfl⟩ := huid uid hhash
      exact ⟨user, hcurrent, rfl⟩

theorem keepsSession_of_ne {app : App} {e : Event} (h : e ≠ .authStateDidChange)
    : app.KeepsSession e := by
  cases e with
  | authStateDidChange => exact (h rfl).elim
  | _ => trivial

theorem keepsSession_iff {app : App} {s : Session} (hs : app.session = some s)
    : app.KeepsSession .authStateDidChange
        ↔
      (s.listener.outstanding = 1 → app.currentUser = none → s.user = none) := by
  obtain ⟨shared, hshared, rfl⟩ := Option.map_eq_some_iff.mp hs
  unfold KeepsSession
  simp only [hshared, Option.some.injEq, forall_eq']

theorem delivered_user_eq_iff {app : App} {s : Session} (hs : s.Consistent app.currentUser)
    (hne : s.listener.outstanding ≠ 0)
    : ((s.delivered app.currentUser).listener.outstanding = 0
        → (s.delivered app.currentUser).user = app.currentUser)
        ↔
      (s.listener.outstanding = 1 → app.currentUser = none → s.user = none) := by
  have hlast : (s.delivered app.currentUser).listener.outstanding = 0
      ↔ s.listener.outstanding = 1 := by
    simp only [Session.delivered, AuthListener.delivered]
    omega
  rw [hlast]
  apply imp_congr_right
  intro hone
  rw [hs.delivered.user_eq_iff (hlast.mpr hone)]
  apply imp_congr_right
  intro hnone
  -- without a current user the listener changes nothing, whether it is called or not
  simp [hnone, Session.delivered]

theorem step_followsAccount_iff {app app' : App} {e : Event} (hsession : app.SessionConsistent)
    (hfollows : app.FollowsAccount P) (h : app.step P e = .ok app')
    : app'.FollowsAccount P ↔ app.KeepsSession e := by
  rw [followsAccount_iff] at hfollows ⊢
  cases step_session h with
  | stays hsame huser hevent =>
    rw [hsame, huser]
    refine ⟨fun _ => ?_, fun _ => hfollows⟩
    by_cases heq : e = .authStateDidChange
    . subst heq
      intro shared hshared hone
      have hzero : shared.listener.outstanding = 0 :=
        hevent rfl _ (by rw [session, hshared, Option.map_some])
      omega
    . exact keepsSession_of_ne heq
  | created _ hnew _ hevent =>
    rw [hnew]
    simp [keepsSession_of_ne hevent]
  | changed hchanged hevent =>
    rw [hchanged]
    simp only [keepsSession_of_ne hevent, iff_true]
    intro s hs hzero
    obtain ⟨before, -, rfl⟩ := Option.map_eq_some_iff.mp hs
    cases hzero
  | delivered s hs hne hdelivered huser hevent =>
    subst hevent
    rw [hdelivered, huser, keepsSession_iff hs, ← delivered_user_eq_iff (hsession s hs) hne]
    simp

theorem session_follows_account_iff (P : Platform) (currentUser : Option User)
    (events : List Event)
    : Transition.Always (step P) (FollowsAccount P) (launch currentUser) events
        ↔
      Transition.Meets (step P) KeepsSession (launch currentUser) events := by
  apply Transition.always_iff_meets (I := SessionConsistent)
  . intro app e app' hsession h
    exact step_sessionConsistent h hsession
  . intro app e app' hsession hfollows h
    exact step_followsAccount_iff hsession hfollows h
  . intro s hs
    cases hs
  . intro shared hshared
    cases hshared

theorem session_keeps_signed_out_user
    : ¬ Transition.Always (step .reference) (FollowsAccount .reference) (launch (some ⟨"u"⟩))
        [.viewWillAppear 0 "id", .authStateDidChange, .signOut false, .authStateDidChange] := by
  apply Transition.not_always_of_run (step .reference)
    (fun app =>
      (app.currentUser, app.sharedInstance.map (fun shared =>
        (shared.listener.outstanding, shared.authenticatedUser.user))))
    (b := (none, some (0, some ⟨"u"⟩)))
  . decide +kernel
  . intro app heq hfollows
    rw [Prod.mk.injEq] at heq
    obtain ⟨shared, hshared, hpair⟩ := Option.map_eq_some_iff.mp heq.right
    rw [Prod.mk.injEq] at hpair
    have huser := (hfollows shared hshared hpair.left).left
    rw [hpair.right, heq.left] at huser
    cases huser

end App
