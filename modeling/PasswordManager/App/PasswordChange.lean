import PasswordManager.App.Accounts

/-!
This module contains when the password of an account changes while nobody enters the current one,
along every run of the app.
-/

namespace App

variable {P : Platform} {app app' : App}

theorem pending_of_reloads (h : Reloads app app')
    : ∃ requests, app'.pending = app.pending ++ requests
        ∧ ∀ newPassword, .updatePassword newPassword ∉ requests := by
  obtain ⟨_, requests, rfl, hobserve, -⟩ := h
  refine ⟨requests, rfl, ?_⟩
  intro newPassword hmem
  obtain ⟨list, path, heq⟩ := hobserve _ hmem
  cases heq

theorem pending_of_step {e : Event} (huses : e.usesAccount = false) (h : app.step P e = .ok app')
    : ∃ requests, app'.pending = app.pending ++ requests
        ∧ ∀ newPassword, .updatePassword newPassword ∉ requests := by
  have hsame : app'.pending = app.pending → ∃ requests,
      app'.pending = app.pending ++ requests
        ∧ ∀ newPassword, .updatePassword newPassword ∉ requests := by
    intro heq
    exact ⟨[], by simp [heq], by simp⟩
  cases step_cases h with
  | requested window requests hmakes hrequests =>
    refine ⟨requests, rfl, ?_⟩
    intro newPassword hmem
    have hrequest := hrequests _ hmem
    cases e with
    | resetPassword currentPassword newPassword => cases huses
    | _ => exact hrequest
  | appeared list uuid hreloads =>
    have hrequests := pending_of_reloads hreloads
    exact hrequests
  | disappeared list => exact hsame (app.viewWillDisappear_pending list)
  | reloaded list hreloads => exact pending_of_reloads hreloads
  | unanswered index response => cases huses
  | snapshot => cases huses
  | answered => cases huses
  | stayed fails => exact hsame rfl
  | signedOut _ => exact hsame (setCurrentUser_pending app none)
  | notified happ =>
    rcases authStateDidChange_cases happ
      with ⟨rfl, -⟩ | ⟨shared, -, -, -, rfl⟩ | ⟨shared, user, -, -, -, -, hreloads⟩
    . exact hsame rfl
    . exact hsame rfl
    . have hrequests := pending_of_reloads hreloads
      exact hrequests

theorem pending_of_complete {index : Nat} {request : Request} {response : Response}
    (hrequest : app.pending[index]? = some request) (hanswers : request.answers response = true)
    (h : app.complete P index response = .ok app')
    : app'.pending = app.pending.eraseIdx index := by
  rcases complete_cases h with ⟨-, hnone⟩ | ⟨other, -, hresponse⟩
  . rw [onResponse_eq_none_iff.mp (hnone request hrequest)] at hanswers
    cases hanswers
  . rcases onResponse_cases hresponse
      with ⟨_, _, _, _, _, -, -, -, rfl⟩ | ⟨-, base, _, hbase, -, rfl⟩
    . rfl
    . rcases hbase with rfl | ⟨user, rfl⟩
      . rfl
      . exact setCurrentUser_pending _ _

end App

namespace AccountSystem

structure PasswordChange where
  user : User
  newPassword : String
  deriving DecidableEq

/--
The change that a tap on Save in the account settings asks for.
-/
def asksFor (P : Platform) (self : AccountSystem) : Option PasswordChange :=
  let currentPassword := self.accountSettings.text .currentPassword
  let newPassword := self.accountSettings.text .newPassword
  if self.accountSettings.buttonIsEnabled
      ∧ P.unicode.canonical currentPassword ≠ P.unicode.canonical newPassword then
    self.app.currentUser.map (fun user => { user, newPassword })
  else
    none

def isAnswered (self : AccountSystem) (index : Nat) (response : Response) : Bool :=
  match self.app.pending[index]? with
  | none => false
  | some request =>
    request.answers response
      && (self.service.answered self.requesters[index]?.join request response).isSome

/--
The system and the taps on Save that wait for an answer. The list has the places of the pending
requests, it is made from what the user does and not from what the app has requested.
-/
structure Watched where
  system : AccountSystem
  asked : List (Option PasswordChange) := []

namespace Watched

def askedAfter (P : Platform) (self : Watched) (next : AccountSystem)
    : AccountEvent → List (Option PasswordChange)
  | .saveTapped => self.asked ++ (self.system.asksFor P).toList.map some
  | .complete index response =>
    if self.system.isAnswered index response then self.asked.eraseIdx index else self.asked
  -- whatever is requested there is not a change
  | _ =>
    self.asked ++ List.replicate (next.app.pending.length - self.system.app.pending.length) none

def step (P : Platform) (self : Watched) (e : AccountEvent) : Except Trap Watched :=
  (self.system.step P e).map (fun next => { system := next, asked := self.askedAfter P next e })

/--
The condition on a step: it does not answer a tap on Save with success that has asked for a change of
the password of `user`.
-/
def KeepsPassword (user : User) (self : Watched) : AccountEvent → Prop
  | .complete index (.updated none) =>
    ∀ change, self.asked[index]? = some (some change) → change.user ≠ user
  | _ => True

def passwordAfter (user : User) (p : String) (self : Watched) : AccountEvent → String
  | .complete index (.updated none) =>
    match self.asked[index]? with
    | some (some change) => if change.user = user then change.newPassword else p
    | _ => p
  | _ => p

end Watched

def NeverEntered (user : User) (system : AccountSystem) : AccountEvent → Prop
  | .loginEdited _ text => system.service.password user ≠ some text
  | .registerEdited _ text => system.service.password user ≠ some text
  | .accountSettingsEdited _ text => system.service.password user ≠ some text
  | _ => True

instance (user : User) (system : AccountSystem)
    : ∀ e : AccountEvent, Decidable (system.NeverEntered user e)
  | .loginEdited _ text => inferInstanceAs (Decidable (system.service.password user ≠ some text))
  | .registerEdited _ text => inferInstanceAs (Decidable (system.service.password user ≠ some text))
  | .accountSettingsEdited _ text =>
    inferInstanceAs (Decidable (system.service.password user ≠ some text))
  | .loginDidLoad => .isTrue trivial
  | .registerDidLoad => .isTrue trivial
  | .accountSettingsDidLoad => .isTrue trivial
  | .signIn => .isTrue trivial
  | .signUp => .isTrue trivial
  | .saveTapped => .isTrue trivial
  | .complete _ _ => .isTrue trivial
  | .app _ => .isTrue trivial

structure Matches (pending : List Request) (requesters : List (Option User))
    (asked : List (Option PasswordChange)) : Prop where
  length_requesters : requesters.length = pending.length
  length_asked : asked.length = pending.length
  change_iff : ∀ (index : Nat) (user : User) (newPassword : String),
    asked[index]? = some (some { user, newPassword })
        ↔
      pending[index]? = some (.updatePassword newPassword) ∧ requesters[index]? = some (some user)

section Matches

variable {pending pending' : List Request} {requesters requesters' : List (Option User)}
variable {asked asked' : List (Option PasswordChange)}

theorem matches_nil : Matches [] [] [] := by
  constructor
  . rfl
  . rfl
  . simp

theorem Matches.append (h : Matches pending requesters asked)
    (h' : Matches pending' requesters' asked')
    : Matches (pending ++ pending') (requesters ++ requesters') (asked ++ asked') := by
  constructor
  . rw [List.length_append, List.length_append, h.length_requesters, h'.length_requesters]
  . rw [List.length_append, List.length_append, h.length_asked, h'.length_asked]
  . intro index user newPassword
    rw [List.getElem?_append, List.getElem?_append, List.getElem?_append, h.length_requesters,
      h.length_asked]
    split
    . apply h.change_iff
    . apply h'.change_iff

theorem Matches.eraseIdx (h : Matches pending requesters asked) (i : Nat)
    : Matches (pending.eraseIdx i) (requesters.eraseIdx i) (asked.eraseIdx i) := by
  constructor
  . rw [List.length_eraseIdx, List.length_eraseIdx, h.length_requesters]
  . rw [List.length_eraseIdx, List.length_eraseIdx, h.length_asked]
  . intro index user newPassword
    rw [List.getElem?_eraseIdx, List.getElem?_eraseIdx, List.getElem?_eraseIdx]
    split
    . apply h.change_iff
    . apply h.change_iff

theorem matches_others (user : Option User)
    (hnone : ∀ newPassword, .updatePassword newPassword ∉ pending)
    : Matches pending (List.replicate pending.length user)
        (List.replicate pending.length none) := by
  constructor
  . rw [List.length_replicate]
  . rw [List.length_replicate]
  . intro index user newPassword
    constructor
    . intro hasked
      have hmem := List.mem_of_getElem? hasked
      rw [List.mem_replicate] at hmem
      cases hmem.right
    . rintro ⟨hpending, -⟩
      exact absurd (List.mem_of_getElem? hpending) (hnone newPassword)

theorem matches_changes (changes : List PasswordChange)
    : Matches (changes.map (fun change => .updatePassword change.newPassword))
        (changes.map (fun change => some change.user)) (changes.map some) := by
  constructor
  . rw [List.length_map, List.length_map]
  . rw [List.length_map, List.length_map]
  . intro index user newPassword
    rw [List.getElem?_map, List.getElem?_map, List.getElem?_map]
    cases changes[index]? with
    | none => simp
    | some change =>
      cases change
      simp [and_comm]

end Matches

variable {P : Platform} {user : User} {p : String} {system system' : AccountSystem}

theorem tap_saveTapped (P : Platform) (system : AccountSystem)
    : let tapped := system.tap system.accountSettings.buttonIsEnabled
        (system.accountSettings.saveTapped P)
      tapped.app.pending
          = system.app.pending
            ++ (system.asksFor P).toList.map (fun change => .updatePassword change.newPassword)
        ∧ tapped.requesters
          = system.requesters ++ (system.asksFor P).toList.map (fun change => some change.user) := by
  unfold tap asksFor
  dsimp only
  cases system.accountSettings.buttonIsEnabled with
  | false => simp
  | true =>
    unfold AccountSettingsTableViewController.saveTapped
    simp only [↓reduceIte, true_and]
    by_cases hsame : P.unicode.canonical (system.accountSettings.text .currentPassword)
        = P.unicode.canonical (system.accountSettings.text .newPassword)
    . simp [hsame, proceed]
    . rw [if_neg hsame, if_pos hsame]
      unfold proceed App.resetPassword
      cases system.app.currentUser with
      | none => simp
      | some user => simp

theorem tap_others {buttonIsEnabled : Bool} {handler : App → App}
    (hhandler : ∃ requests, (handler system.app).pending = system.app.pending ++ requests
      ∧ ∀ newPassword, .updatePassword newPassword ∉ requests)
    : ∃ requests, (system.tap buttonIsEnabled handler).app.pending = system.app.pending ++ requests
        ∧ (system.tap buttonIsEnabled handler).requesters
          = system.requesters ++ List.replicate requests.length system.app.currentUser
        ∧ ∀ newPassword, .updatePassword newPassword ∉ requests := by
  unfold tap
  split
  . obtain ⟨requests, hpending, hnone⟩ := hhandler
    refine ⟨requests, hpending, ?_, hnone⟩
    unfold proceed
    dsimp only
    rw [hpending, List.length_append, Nat.add_sub_cancel_left]
  . exact ⟨[], by simp⟩

theorem signIn_pending (self : LoginViewController) (app : App)
    : ∃ requests, (self.signIn app).pending = app.pending ++ requests
        ∧ ∀ newPassword, .updatePassword newPassword ∉ requests := by
  exact ⟨_, rfl, by simp⟩

theorem signUp_pending (P : Platform) (self : RegisterViewController) (app : App)
    : ∃ requests, (self.signUp P app).pending = app.pending ++ requests
        ∧ ∀ newPassword, .updatePassword newPassword ∉ requests := by
  unfold RegisterViewController.signUp
  split
  . exact ⟨[], by simp⟩
  . exact ⟨_, rfl, by simp⟩

theorem step_complete_cases {index : Nat} {response : Response}
    (h : system.complete P index response = .ok system')
    : (system' = system ∧ system.isAnswered index response = false)
      ∨ ∃ request, system.app.pending[index]? = some request
        ∧ system.isAnswered index response = true
        ∧ system.service.answered system.requesters[index]?.join request response
            = some system'.service
        ∧ system'.app.pending = system.app.pending.eraseIdx index
        ∧ system'.requesters = system.requesters.eraseIdx index
        ∧ system'.accountSettings = system.accountSettings := by
  unfold complete at h
  unfold isAnswered
  cases hrequest : system.app.pending[index]? with
  | none =>
    simp only [hrequest, Except.ok.injEq] at h
    exact .inl ⟨h.symm, rfl⟩
  | some request =>
    simp only [hrequest] at h
    split at h
    . next hanswers =>
      cases hservice : system.service.answered system.requesters[index]?.join request response with
      | none =>
        simp only [hservice, Except.ok.injEq] at h
        exact .inl ⟨h.symm, by simp [hservice]⟩
      | some service =>
        simp only [hservice] at h
        cases hcomplete : system.app.complete P index response with
        | error trap => simp [hcomplete, bind, Except.bind] at h
        | ok app =>
          simp only [hcomplete, bind, Except.bind, pure, Except.pure, Except.ok.injEq] at h
          subst h
          have hpending := App.pending_of_complete hrequest hanswers hcomplete
          exact .inr ⟨request, rfl, by simp [hanswers, hservice], hservice, hpending, rfl, rfl⟩
    . next hanswers =>
      cases h
      exact .inl ⟨rfl, by simp [hanswers]⟩

theorem step_app_ok {event : { event : Event // event.usesAccount = false }}
    (h : system.step P (.app event) = .ok system')
    : ∃ app, system.app.step P event.val = .ok app ∧ system' = system.proceed app := by
  cases happ : system.app.step P event.val with
  | error trap => simp [step, happ, bind, Except.bind] at h
  | ok app =>
    simp only [step, happ, bind, Except.bind, pure, Except.pure, Except.ok.injEq] at h
    exact ⟨app, rfl, h.symm⟩

theorem step_others {e : AccountEvent} (hsave : e ≠ .saveTapped)
    (hcomplete : ∀ index response, e ≠ .complete index response)
    (h : system.step P e = .ok system')
    : ∃ requests, system'.app.pending = system.app.pending ++ requests
        ∧ system'.requesters
          = system.requesters ++ List.replicate requests.length system.app.currentUser
        ∧ ∀ newPassword, .updatePassword newPassword ∉ requests := by
  cases e with
  | saveTapped => contradiction
  | complete index response => exact absurd rfl (hcomplete index response)
  | signIn =>
    cases h
    apply tap_others
    apply signIn_pending
  | signUp =>
    cases h
    apply tap_others
    apply signUp_pending
  | app event =>
    obtain ⟨app, happ, rfl⟩ := step_app_ok h
    obtain ⟨requests, hpending, hnone⟩ := App.pending_of_step event.property happ
    refine ⟨requests, hpending, ?_, hnone⟩
    unfold proceed
    dsimp only
    rw [hpending, List.length_append, Nat.add_sub_cancel_left]
  | _ =>
    cases h
    exact ⟨[], by simp⟩

theorem tap_service (system : AccountSystem) (buttonIsEnabled : Bool) (handler : App → App)
    : (system.tap buttonIsEnabled handler).service = system.service := by
  unfold tap
  split <;> rfl

theorem service_of_step {e : AccountEvent}
    (hcomplete : ∀ index response, e ≠ .complete index response)
    (h : system.step P e = .ok system') : system'.service = system.service := by
  cases e with
  | complete index response => exact absurd rfl (hcomplete index response)
  | app event =>
    obtain ⟨app, -, rfl⟩ := step_app_ok h
    rfl
  | signIn =>
    cases h
    apply tap_service
  | signUp =>
    cases h
    apply tap_service
  | saveTapped =>
    cases h
    apply tap_service
  | _ =>
    cases h
    rfl

namespace Watched

variable {self next : Watched} {e : AccountEvent}

theorem step_ok (h : self.step P e = .ok next)
    : self.system.step P e = .ok next.system ∧ next.asked = self.askedAfter P next.system e := by
  unfold step at h
  cases hsystem : self.system.step P e with
  | error trap => simp [hsystem, Except.map] at h
  | ok system =>
    simp only [hsystem, Except.map, Except.ok.injEq] at h
    subst h
    exact ⟨rfl, rfl⟩

theorem askedAfter_others (P : Platform) (self : Watched) (system : AccountSystem)
    (hsave : e ≠ .saveTapped) (hcomplete : ∀ index response, e ≠ .complete index response)
    : self.askedAfter P system e
        =
      self.asked
        ++ List.replicate (system.app.pending.length - self.system.app.pending.length) none := by
  cases e with
  | saveTapped => contradiction
  | complete index response => exact absurd rfl (hcomplete index response)
  | _ => rfl

def Aligned (self : Watched) : Prop :=
  Matches self.system.app.pending self.system.requesters self.asked

theorem step_aligned (h : self.Aligned) (hstep : self.step P e = .ok next) : next.Aligned := by
  obtain ⟨hsystem, hasked⟩ := step_ok hstep
  unfold Aligned
  rw [hasked]
  by_cases hsave : e = .saveTapped
  . subst hsave
    obtain ⟨hpending, hrequesters⟩ := tap_saveTapped P self.system
    injection hsystem with hsystem
    rw [← hsystem, hpending, hrequesters]
    exact h.append (matches_changes _)
  . by_cases hcomplete : ∃ index response, e = .complete index response
    . obtain ⟨index, response, rfl⟩ := hcomplete
      unfold askedAfter
      dsimp only
      rcases step_complete_cases hsystem
        with ⟨hsame, hanswered⟩ | ⟨request, -, hanswered, -, hpending, hrequesters, -⟩
      . rw [hsame, hanswered]
        exact h
      . rw [hanswered, hpending, hrequesters]
        exact h.eraseIdx index
    . simp only [not_exists] at hcomplete
      obtain ⟨requests, hpending, hrequesters, hnone⟩ := step_others hsave hcomplete hsystem
      rw [askedAfter_others P self _ hsave hcomplete, hpending, hrequesters, List.length_append,
        Nat.add_sub_cancel_left]
      exact h.append (matches_others self.system.app.currentUser hnone)

theorem isAnswered_of_asked (h : self.Aligned) {index : Nat} {user : User} {newPassword : String}
    (hasked : self.asked[index]? = some (some { user, newPassword }))
    : self.system.isAnswered index (.updated none) = true := by
  obtain ⟨hrequest, hrequester⟩ := (h.change_iff index user newPassword).mp hasked
  unfold isAnswered
  simp [hrequest, hrequester, Request.answers, AuthService.answered]

theorem step_password (h : self.Aligned) (hpassword : self.system.service.password user = some p)
    (hstep : self.step P e = .ok next)
    : next.system.service.password user = some (self.passwordAfter user p e) := by
  obtain ⟨hsystem, -⟩ := step_ok hstep
  have hkept : (∀ index newPassword, e = .complete index (.updated none)
      → self.asked[index]? ≠ some (some { user, newPassword }))
        → self.passwordAfter user p e = p := by
    intro hnone
    unfold passwordAfter
    split
    . next index =>
      split
      . next change hasked =>
        split
        . next heq =>
          subst heq
          exact absurd hasked (hnone index change.newPassword rfl)
        . rfl
      . rfl
    . rfl
  by_cases hcomplete : ∃ index response, e = .complete index response
  . obtain ⟨index, response, rfl⟩ := hcomplete
    rcases step_complete_cases hsystem
      with ⟨hsame, hanswered⟩ | ⟨request, hrequest, -, hservice, -⟩
    . rw [hsame, hpassword, hkept]
      rintro _ newPassword ⟨⟩ hasked
      rw [isAnswered_of_asked h hasked] at hanswered
      cases hanswered
    . rcases AuthService.password_answered hservice hpassword
        with ⟨newPassword, rfl, rfl, hrequester, hnew⟩ | ⟨hother, hsame⟩
      . have hasked := (h.change_iff index user newPassword).mpr
          ⟨hrequest, Option.join_eq_some_iff.mp hrequester⟩
        rw [hnew]
        unfold passwordAfter
        simp [hasked]
      . rw [hsame, hkept]
        rintro _ newPassword ⟨⟩ hasked
        obtain ⟨hupdate, hrequester⟩ := (h.change_iff index user newPassword).mp hasked
        rw [hrequest, Option.some.injEq] at hupdate
        exact hother newPassword hupdate rfl (Option.join_eq_some_iff.mpr hrequester)
  . simp only [not_exists] at hcomplete
    rw [service_of_step hcomplete hsystem, hpassword, hkept]
    intro index newPassword heq
    exact absurd heq (hcomplete index _)

structure Unentered (p : String) (watched : Watched) : Prop where
  text : ∀ field, watched.system.accountSettings.text field ≠ ""
    → watched.system.accountSettings.text field ≠ p
  filled : watched.system.accountSettings.Filled [.newPassword, .currentPassword]
  asked : ∀ change, some change ∈ watched.asked → change.newPassword ≠ p
  aligned : watched.Aligned

theorem asksFor_ne (h : self.Unentered p) {change : PasswordChange}
    (hasks : self.system.asksFor P = some change) : change.newPassword ≠ p := by
  unfold asksFor at hasks
  dsimp only at hasks
  split at hasks
  . next henabled =>
    obtain ⟨user, -, rfl⟩ := Option.map_eq_some_iff.mp hasks
    exact h.text .newPassword (h.filled henabled.left .newPassword (by simp))
  . cases hasks

theorem asked_of_step (hstep : self.step P e = .ok next) {change : PasswordChange}
    (hchange : some change ∈ next.asked)
    : some change ∈ self.asked ∨ self.system.asksFor P = some change := by
  obtain ⟨-, hasked⟩ := step_ok hstep
  rw [hasked] at hchange
  by_cases hsave : e = .saveTapped
  . subst hsave
    simp only [askedAfter, List.mem_append, List.mem_map, Option.mem_toList] at hchange
    cases hchange with
    | inl hold => exact .inl hold
    | inr hnew =>
      obtain ⟨other, hother, heq⟩ := hnew
      cases heq
      exact .inr hother
  . left
    by_cases hcomplete : ∃ index response, e = .complete index response
    . obtain ⟨index, response, rfl⟩ := hcomplete
      unfold askedAfter at hchange
      dsimp only at hchange
      split at hchange
      . exact List.mem_of_mem_eraseIdx hchange
      . exact hchange
    . simp only [not_exists] at hcomplete
      rw [askedAfter_others P self _ hsave hcomplete, List.mem_append, List.mem_replicate]
        at hchange
      cases hchange with
      | inl hold => exact hold
      | inr hnew => cases hnew.right

theorem accountSettings_of_step (hedited : ∀ field text, e ≠ .accountSettingsEdited field text)
    (hload : e ≠ .accountSettingsDidLoad) (hstep : self.system.step P e = .ok system')
    : system'.accountSettings = self.system.accountSettings := by
  have htap : ∀ buttonIsEnabled handler,
      (self.system.tap buttonIsEnabled handler).accountSettings = self.system.accountSettings := by
    intro buttonIsEnabled handler
    unfold tap
    split <;> rfl
  cases e with
  | accountSettingsDidLoad => contradiction
  | accountSettingsEdited field text => exact absurd rfl (hedited field text)
  | signIn =>
    cases hstep
    apply htap
  | signUp =>
    cases hstep
    apply htap
  | saveTapped =>
    cases hstep
    apply htap
  | complete index response =>
    rcases step_complete_cases hstep with ⟨rfl, -⟩ | ⟨_, -, -, -, -, -, hsettings⟩
    . rfl
    . exact hsettings
  | app event =>
    obtain ⟨app, -, rfl⟩ := step_app_ok hstep
    rfl
  | _ =>
    cases hstep
    rfl

theorem step_unentered (h : self.Unentered p) (hnever : self.system.NeverEntered user e)
    (hpassword : self.system.service.password user = some p) (hstep : self.step P e = .ok next)
    : next.Unentered p := by
  have haligned := step_aligned h.aligned hstep
  have hasked : ∀ change, some change ∈ next.asked → change.newPassword ≠ p := by
    intro change hchange
    cases asked_of_step hstep hchange with
    | inl hold => exact h.asked change hold
    | inr hnew => exact asksFor_ne h hnew
  obtain ⟨hsystem, -⟩ := step_ok hstep
  by_cases hload : e = .accountSettingsDidLoad
  . subst hload
    have hfresh : next.system.accountSettings = {} := by
      injection hsystem with hsystem
      rw [← hsystem]
    refine ⟨?_, ?_, hasked, haligned⟩
    . rw [hfresh]
      intro field hne
      exact absurd rfl hne
    . rw [hfresh]
      intro henabled
      cases henabled
  . by_cases hedited : ∃ field text, e = .accountSettingsEdited field text
    . obtain ⟨field, text, rfl⟩ := hedited
      have hform : next.system.accountSettings
          =
        AccountSettingsTableViewController.editingChanged P field
          (self.system.accountSettings.setText field text) := by
        injection hsystem with hsystem
        rw [← hsystem]
      refine ⟨?_, ?_, hasked, haligned⟩
      . rw [hform]
        unfold AccountSettingsTableViewController.editingChanged
        rw [TextForm.editingChanged_text]
        intro other
        by_cases heq : other = field
        . rw [heq, Function.update_self]
          rintro - rfl
          exact hnever hpassword
        . rw [Function.update_of_ne heq]
          exact h.text other
      . rw [hform]
        exact TextForm.filled_editingChanged h.filled field text
    . simp only [not_exists] at hedited
      have hsame := accountSettings_of_step hedited hload hsystem
      refine ⟨?_, ?_, hasked, haligned⟩
      . rw [hsame]
        exact h.text
      . rw [hsame]
        exact h.filled

theorem passwordAfter_iff (h : self.Unentered p) (user : User) (e : AccountEvent)
    : self.passwordAfter user p e = p ↔ self.KeepsPassword user e := by
  unfold passwordAfter KeepsPassword
  split
  . next index =>
    cases hasked : self.asked[index]? with
    | none => simp
    | some asked =>
      cases asked with
      | none => simp
      | some change =>
        have hne := h.asked change (List.mem_of_getElem? hasked)
        simp [hne]
  . simp

theorem launch_unentered (service : AuthService) (user : User)
    : ({ system := launch service user } : Watched).Unentered p where
  text field hne := absurd rfl hne
  filled henabled := by cases henabled
  asked change hmem := by cases hmem
  aligned := matches_nil

end Watched

/--
In a run in which the current password of the account is never entered, it stays the same in all
states exactly if no tap on Save that asks for a change of it is answered with success.
-/
theorem password_unchanged_iff (P : Platform) (service : AuthService) (user : User) (p : String)
    (hpassword : service.password user = some p) (events : List AccountEvent)
    (hnever : Transition.Meets (step P) (NeverEntered user) (launch service user) events)
    : Transition.Always (step P) (fun system => system.service.password user = some p)
          (launch service user) events
        ↔
      Transition.Meets (Watched.step P) (Watched.KeepsPassword user)
        { system := launch service user } events := by
  have hforget : ∀ (self : Watched) (e : AccountEvent),
      (self.step P e).map Watched.system = self.system.step P e := by
    intro self e
    unfold Watched.step
    cases self.system.step P e with
    | error trap => rfl
    | ok system => rfl
  have hwatched := (Transition.meets_history (step P) hforget (NeverEntered user)
    { system := launch service user } events).mp hnever
  rw [Transition.always_history (step P) hforget (fun system => system.service.password user = some p)
    { system := launch service user } events]
  refine Transition.always_iff_meets_inside (Watched.step P) (I := Watched.Unentered p) ?_ ?_
    (Watched.launch_unentered service user) hpassword hwatched
  . intro self e next h hnever hpassword hstep
    exact Watched.step_unentered h hnever hpassword hstep
  . intro self e next h _ hpassword hstep
    rw [Watched.step_password h.aligned hpassword hstep, Option.some.injEq]
    exact Watched.passwordAfter_iff h user e

def referenceService : AuthService where
  accounts := [⟨"a@b.co", ⟨"u"⟩, "secret"⟩]
  distinct := List.pairwise_singleton _ _

def guessedEvents (error : Option AuthError) : List AccountEvent :=
  [.accountSettingsDidLoad, .accountSettingsEdited .currentPassword "guess",
    .accountSettingsEdited .newPassword "mine", .saveTapped, .complete 0 (.updated error)]

theorem password_unchanged_refused
    : (Transition.run (step .reference) (launch referenceService ⟨"u"⟩)
          (guessedEvents (some ⟨.other 17014, "log in again"⟩))).toOption.isSome = true
        ∧ (Transition.Always (step .reference)
              (fun system => system.service.password ⟨"u"⟩ = some "secret")
              (launch referenceService ⟨"u"⟩) (guessedEvents (some ⟨.other 17014, "log in again"⟩))
            ↔
          Transition.Meets (Watched.step .reference) (Watched.KeepsPassword ⟨"u"⟩)
            { system := launch referenceService ⟨"u"⟩ }
            (guessedEvents (some ⟨.other 17014, "log in again"⟩))) := by
  refine ⟨by decide +kernel, ?_⟩
  exact password_unchanged_iff .reference referenceService ⟨"u"⟩ "secret" (by decide +kernel) _
    (by decide +kernel)

theorem guess_replaces_password
    : Transition.Meets (step .reference) (NeverEntered ⟨"u"⟩) (launch referenceService ⟨"u"⟩)
          (guessedEvents none)
        ∧ ¬ Transition.Always (step .reference)
              (fun system => system.service.password ⟨"u"⟩ = some "secret")
              (launch referenceService ⟨"u"⟩) (guessedEvents none) := by
  refine ⟨by decide +kernel, ?_⟩
  apply Transition.not_always_of_run (step .reference)
    (fun system => system.service.password ⟨"u"⟩) (b := some "mine")
  . decide +kernel
  . intro system heq hsame
    rw [heq] at hsame
    simp at hsame

end AccountSystem
