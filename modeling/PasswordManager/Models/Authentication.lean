import PasswordManager.Models.AuthenticatedUser
import PasswordManager.ViewController.Window

/-!
This module contains the completions of the requests that the app makes to the authentication
service, and the registration of a listener with that service.
-/

inductive AuthErrorCode where
  | wrongPassword
  | userNotFound
  | emailAlreadyInUse
  | other (rawValue : Int)
  deriving DecidableEq, Repr

structure AuthError where
  code : AuthErrorCode
  localizedDescription : String
  deriving DecidableEq, Repr

namespace Authentication

def onLogin (window : Window) (error : Option AuthError) : Window :=
  match error with
  | some error =>
    match error.code with
    | .wrongPassword =>
      (window.showAlert "Login Error" "Wrong Password").removeAllBlockingOverlays
    | .userNotFound =>
      (window.showAlert "Login Error" "user not found").removeAllBlockingOverlays
    | _ =>
      (window.showAlert "Login Error" error.localizedDescription).removeAllBlockingOverlays
  | none => window.removeAllBlockingOverlays

def onRegister (window : Window) (error : Option AuthError) : Window :=
  match error with
  | some error =>
    match error.code with
    | .emailAlreadyInUse =>
      (window.showAlert "Reigster Error" "email already in use").removeAllBlockingOverlays
    | _ =>
      (window.showAlert "Reigster Error" error.localizedDescription).removeAllBlockingOverlays
  | none => window.removeAllBlockingOverlays

def onResetPassword (window : Window) (error : Option AuthError) : Window :=
  match error with
  | some error =>
    (window.showAlert "Reset Error" error.localizedDescription).removeAllBlockingOverlays
  | none => (window.showAlert "Reset Successfully" "Successful").removeAllBlockingOverlays

@[simp]
theorem onLogin_overlays (window : Window) (error : Option AuthError)
    : (onLogin window error).overlays = [] := by
  unfold onLogin
  split
  . split <;> rfl
  . rfl

@[simp]
theorem onRegister_overlays (window : Window) (error : Option AuthError)
    : (onRegister window error).overlays = [] := by
  unfold onRegister
  split
  . split <;> rfl
  . rfl

@[simp]
theorem onResetPassword_overlays (window : Window) (error : Option AuthError)
    : (onResetPassword window error).overlays = [] := by
  unfold onResetPassword
  split <;> rfl

end Authentication

structure AuthListener where
  firstInvocation : Bool := true
  previousUserID : Option String := none
  -- The notifications that the service still has to deliver, registration posts the first one.
  outstanding : Nat := 1
  deriving DecidableEq, Repr

namespace AuthListener

def shouldCallListener (self : AuthListener) (user : Option User) : Bool :=
  self.firstInvocation || self.previousUserID ≠ user.map User.uid

def delivered (self : AuthListener) (user : Option User) : AuthListener where
  firstInvocation := false
  previousUserID := user.map User.uid
  outstanding := self.outstanding - 1

def notified (self : AuthListener) : AuthListener :=
  { self with outstanding := self.outstanding + 1 }

end AuthListener
