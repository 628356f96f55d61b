import PasswordManager.App.Queries
import PasswordManager.ViewController.TextForm

/-!
This module contains the app together with the forms in which an account is used and with the
accounts that the authentication service keeps.
-/

structure Account where
  email : String
  user : User
  password : String
  deriving DecidableEq, Repr

structure AuthService where
  accounts : List Account
  distinct : accounts.Pairwise (fun a b => a.email ≠ b.email ∧ a.user ≠ b.user)

namespace AuthService

def password (self : AuthService) (user : User) : Option String :=
  (self.accounts.find? (fun account => account.user = user)).map Account.password

def Fresh (self : AuthService) (email : String) (user : User) : Prop :=
  ∀ account ∈ self.accounts, account.email ≠ email ∧ account.user ≠ user

instance (self : AuthService) (email : String) (user : User) : Decidable (self.Fresh email user) :=
  inferInstanceAs (Decidable (∀ account ∈ self.accounts, _))

def createUser (self : AuthService) (email password : String) (user : User)
    (h : self.Fresh email user) : AuthService where
  accounts := self.accounts ++ [⟨email, user, password⟩]
  distinct := by
    rw [List.pairwise_append]
    refine ⟨self.distinct, List.pairwise_singleton _ _, ?_⟩
    intro account haccount other hother
    rw [List.mem_singleton] at hother
    subst hother
    exact h account haccount

def setPassword (user : User) (newPassword : String) (account : Account) : Account :=
  if account.user = user then { account with password := newPassword } else account

@[simp]
theorem setPassword_email (user : User) (newPassword : String) (account : Account)
    : (setPassword user newPassword account).email = account.email := by
  unfold setPassword
  split <;> rfl

@[simp]
theorem setPassword_user (user : User) (newPassword : String) (account : Account)
    : (setPassword user newPassword account).user = account.user := by
  unfold setPassword
  split <;> rfl

-- The old password is not asked for.
def updatePassword (self : AuthService) (user : User) (newPassword : String) : AuthService where
  accounts := self.accounts.map (setPassword user newPassword)
  distinct := by
    rw [List.pairwise_map]
    simpa using self.distinct

def answered (self : AuthService) (requester : Option User)
    : Request → Response → Option AuthService
  | .signIn email password, .auth (.ok user) =>
    if ⟨email, user, password⟩ ∈ self.accounts then some self else none
  | .createUser email password, .auth (.ok user) =>
    if h : self.Fresh email user then some (self.createUser email password user h) else none
  | .updatePassword newPassword, .updated none =>
    requester.map (fun user => self.updatePassword user newPassword)
  | _, _ => some self

theorem password_createUser {self : AuthService} {email password : String} {user : User}
    (h : self.Fresh email user) {other : User} {p : String} (hp : self.password other = some p)
    : (self.createUser email password user h).password other = some p := by
  obtain ⟨account, haccount, rfl⟩ := Option.map_eq_some_iff.mp hp
  simp only [AuthService.password, createUser, List.find?_append, haccount, Option.some_or,
    Option.map_some]

theorem find?_setPassword (accounts : List Account) (user other : User) (newPassword : String)
    : (accounts.map (setPassword user newPassword)).find? (fun account => account.user = other)
        =
      (accounts.find? (fun account => account.user = other)).map
        (setPassword user newPassword) := by
  rw [List.find?_map]
  congr 2
  funext account
  simp

theorem password_updatePassword_self {self : AuthService} {user : User} {p : String}
    (hp : self.password user = some p) (newPassword : String)
    : (self.updatePassword user newPassword).password user = some newPassword := by
  obtain ⟨account, haccount, rfl⟩ := Option.map_eq_some_iff.mp hp
  have huser : account.user = user := by simpa using List.find?_some haccount
  unfold password updatePassword
  rw [find?_setPassword, haccount]
  simp [setPassword, huser]

theorem password_updatePassword_of_ne {self : AuthService} {user other : User} (h : other ≠ user)
    (newPassword : String)
    : (self.updatePassword user newPassword).password other = self.password other := by
  unfold password updatePassword
  rw [find?_setPassword]
  cases haccount : self.accounts.find? (fun account => account.user = other) with
  | none => rfl
  | some account =>
    have huser : account.user = other := by simpa using List.find?_some haccount
    simp [setPassword, huser, h]

theorem password_answered {self self' : AuthService} {requester : Option User} {request : Request}
    {response : Response} {user : User} {p : String}
    (h : self.answered requester request response = some self') (hp : self.password user = some p)
    : (∃ newPassword, request = .updatePassword newPassword ∧ response = .updated none
        ∧ requester = some user ∧ self'.password user = some newPassword)
      ∨ ((∀ newPassword, request = .updatePassword newPassword → response = .updated none
          → requester ≠ some user)
        ∧ self'.password user = some p) := by
  unfold answered at h
  split at h
  . split at h
    . cases h
      exact .inr ⟨by simp, hp⟩
    . cases h
  . split at h
    . next hfresh =>
      cases h
      exact .inr ⟨by simp, password_createUser hfresh hp⟩
    . cases h
  . next newPassword =>
    obtain ⟨other, rfl, rfl⟩ := Option.map_eq_some_iff.mp h
    by_cases heq : user = other
    . subst heq
      exact .inl ⟨newPassword, rfl, rfl, rfl, password_updatePassword_self hp newPassword⟩
    . right
      rw [password_updatePassword_of_ne heq]
      refine ⟨?_, hp⟩
      rintro _ - - ⟨⟩
      exact heq rfl
  . next hother =>
    cases h
    refine .inr ⟨?_, hp⟩
    rintro newPassword rfl rfl
    exact (hother newPassword rfl rfl).elim

end AuthService

def LoginViewController.signIn (self : LoginViewController) (app : App) : App :=
  app.login (self.text .email) (self.text .password)

def RegisterViewController.signUp (P : Platform) (self : RegisterViewController) (app : App)
    : App :=
  if P.unicode.canonical (self.text .password)
      ≠ P.unicode.canonical (self.text .passwordConfirm) then
    { app with
      window := app.window.showAlert "Register Error" "Please check your password"
    }
  else
    app.register (self.text .email) (self.text .password)

def AccountSettingsTableViewController.saveTapped (P : Platform)
    (self : AccountSettingsTableViewController) (app : App) : App :=
  if P.unicode.canonical (self.text .currentPassword)
      = P.unicode.canonical (self.text .newPassword) then
    { app with
      window := app.window.showAlert "Reset Error" "New password is same with the old one"
    }
  else
    app.resetPassword (self.text .currentPassword) (self.text .newPassword)

def Event.usesAccount : Event → Bool
  | .login _ _ => true
  | .register _ _ => true
  | .resetPassword _ _ => true
  | .complete _ _ => true
  | _ => false

inductive AccountEvent where
  | loginDidLoad
  | registerDidLoad
  | accountSettingsDidLoad
  | loginEdited (field : LoginField) (text : String)
  | registerEdited (field : RegisterField) (text : String)
  | accountSettingsEdited (field : AccountSettingsField) (text : String)
  | signIn
  | signUp
  | saveTapped
  | complete (index : Nat) (response : Response)
  | app (event : { event : Event // event.usesAccount = false })

structure AccountSystem where
  app : App
  service : AuthService
  -- Who was signed in when the pending requests of the app were made.
  requesters : List (Option User) := []
  login : LoginViewController := {}
  register : RegisterViewController := {}
  accountSettings : AccountSettingsTableViewController := {}

namespace AccountSystem

def launch (service : AuthService) (user : User) : AccountSystem where
  app := .launch (some user)
  service := service

def proceed (self : AccountSystem) (app : App) : AccountSystem :=
  let made := app.pending.length - self.app.pending.length
  { self with
    app
    requesters := self.requesters ++ List.replicate made self.app.currentUser
  }

-- Taps on a disabled button do nothing.
def tap (self : AccountSystem) (buttonIsEnabled : Bool) (handler : App → App) : AccountSystem :=
  if buttonIsEnabled then self.proceed (handler self.app) else self

def complete (P : Platform) (self : AccountSystem) (index : Nat) (response : Response)
    : Except Trap AccountSystem :=
  match self.app.pending[index]? with
  | none => .ok self
  | some request =>
    if request.answers response then
      match self.service.answered self.requesters[index]?.join request response with
      | none => .ok self
      | some service => do
        let app ← self.app.complete P index response
        return { self with app, service, requesters := self.requesters.eraseIdx index }
    else
      .ok self

def step (P : Platform) (self : AccountSystem) : AccountEvent → Except Trap AccountSystem
  | .loginDidLoad => .ok { self with login := {} }
  | .registerDidLoad => .ok { self with register := {} }
  | .accountSettingsDidLoad => .ok { self with accountSettings := {} }
  | .loginEdited field text =>
    .ok { self with
      login := LoginViewController.editingChanged P field (self.login.setText field text)
    }
  | .registerEdited field text =>
    .ok { self with
      register := RegisterViewController.editingChanged P field (self.register.setText field text)
    }
  | .accountSettingsEdited field text =>
    .ok { self with
      accountSettings :=
        AccountSettingsTableViewController.editingChanged P field
          (self.accountSettings.setText field text)
    }
  | .signIn => .ok (self.tap self.login.buttonIsEnabled self.login.signIn)
  | .signUp => .ok (self.tap self.register.buttonIsEnabled (self.register.signUp P))
  | .saveTapped =>
    .ok (self.tap self.accountSettings.buttonIsEnabled (self.accountSettings.saveTapped P))
  | .complete index response => self.complete P index response
  | .app event => do
    let app ← self.app.step P event.val
    return self.proceed app

end AccountSystem
