import PasswordManager.Models.Credential

/-!
This module contains the editor of a credential. Its `credential` is implicitly unwrapped, so each
handler that touches it may trap.
-/

structure EditCredentialsViewController where
  credential : Option Credential := none
  isNewCredential : Bool := true
  credId : Option String := none
  usernameField : String := ""
  passwordField : String := ""
  websiteField : String := ""
  -- The storyboard leaves the button enabled.
  saveButtonIsEnabled : Bool := true
  title : String := ""
  deriving DecidableEq, Repr

namespace EditCredentialsViewController

variable {Observer : Type}

def modifyCredential (self : EditCredentialsViewController) (f : Credential → Credential)
    : Except Trap EditCredentialsViewController :=
  match self.credential with
  | none => .error .unexpectedlyFoundNil
  | some credential => .ok { self with credential := some (f credential) }

def validateCredentials (P : Platform) (self : EditCredentialsViewController)
    : Except Trap EditCredentialsViewController :=
  match self.credential with
  | none => .error .unexpectedlyFoundNil
  | some credential => .ok { self with saveButtonIsEnabled := credential.validate P }

def regeneratePassword (generated : String) (self : EditCredentialsViewController)
    : Except Trap EditCredentialsViewController := do
  let self ← self.modifyCredential
    (fun credential => { credential with password := some generated })
  return { self with passwordField := generated }

def viewWillAppear (P : Platform) (generated : String) (self : EditCredentialsViewController)
    : Except Trap EditCredentialsViewController :=
  if self.isNewCredential then do
    let self := { self with usernameField := "", passwordField := "", websiteField := "" }
    let self := { self with credential := some {} }
    let self ← self.regeneratePassword generated
    let self ← self.validateCredentials P
    return { self with title := "New Password" }
  else
    match self.credential with
    | none => .error .unexpectedlyFoundNil
    | some credential =>
      .ok { self with
        usernameField := credential.username.getD ""
        passwordField := credential.password.getD ""
        websiteField := credential.website.getD ""
        title := "Edit Password"
      }

def editFor (cred : Credential) (credId : String) (self : EditCredentialsViewController)
    : EditCredentialsViewController :=
  { self with isNewCredential := false, credential := some cred, credId := some credId }

def onRegenerateTapped (generated : String) (self : EditCredentialsViewController)
    : Except Trap EditCredentialsViewController :=
  self.regeneratePassword generated

def onUsernameChanged (P : Platform) (self : EditCredentialsViewController)
    : Except Trap EditCredentialsViewController := do
  let self ← self.modifyCredential
    (fun credential => { credential with username := some self.usernameField })
  self.validateCredentials P

def onPasswordChanged (P : Platform) (self : EditCredentialsViewController)
    : Except Trap EditCredentialsViewController := do
  let self ← self.modifyCredential
    (fun credential => { credential with password := some self.passwordField })
  self.validateCredentials P

def onWebsiteChanged (P : Platform) (self : EditCredentialsViewController)
    : Except Trap EditCredentialsViewController := do
  let self ← self.modifyCredential
    (fun credential => { credential with website := some self.websiteField })
  self.validateCredentials P

def onSaveButtonPressed (P : Platform) (user : AuthenticatedUser Observer) (salts : Salts)
    (self : EditCredentialsViewController) : Except Trap (Option Write) :=
  match self.credential with
  | none => .error .unexpectedlyFoundNil
  | some credential =>
    if self.isNewCredential then
      credential.save P user salts none
    else
      credential.save P user salts self.credId

end EditCredentialsViewController
