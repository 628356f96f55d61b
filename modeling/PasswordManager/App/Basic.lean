import PasswordManager.Models.Authentication
import PasswordManager.Transition.Basic
import PasswordManager.ViewController.ListViewController

/-!
This module contains the app as a machine that reacts to user actions, to the authentication service
and to the answers of the requests it has made. The state holds any number of instances of
`ListViewController`, which are referred to by numbers.
-/

inductive Request where
  | signIn (email password : String)
  | createUser (email password : String)
  | updatePassword (newPassword : String)
  | setValue (write : Write)
  | observeSingleEvent (list : Nat) (path : String)

inductive Response where
  | auth (result : Except AuthError User)
  | updated (error : Option AuthError)
  | stored (error : Option String)
  | snapshot (snapshot : DataSnapshot)

structure SharedInstance where
  authenticatedUser : AuthenticatedUser Nat
  listener : AuthListener

structure App where
  window : Window := {}
  currentUser : Option User := none
  sharedInstance : Option SharedInstance := none
  lists : Nat → ListViewController := fun _ => {}
  pending : List Request := []

inductive Event where
  | login (email password : String)
  | register (email password : String)
  | resetPassword (currentPassword newPassword : String)
  -- The Save button of an editor in the given state.
  | onSaveButtonPressed (editor : EditCredentialsViewController) (salts : Salts)
  -- `uuid` is the string of the `NSUUID` that the list registers under.
  | viewWillAppear (list : Nat) (uuid : String)
  | viewWillDisappear (list : Nat)
  | onSignedIn (list : Nat)
  -- The completion of the request at the given place of the pending ones.
  | complete (index : Nat) (response : Response)
  -- `SettingsViewController.signOut`, which may fail.
  | signOut (fails : Bool)
  | authServiceSignOut
  | authStateDidChange

namespace App

def authenticatedUser (app : App) : AuthenticatedUser Nat :=
  match app.sharedInstance with
  | none => .new
  | some shared => shared.authenticatedUser

def modifyList (app : App) (list : Nat) (f : ListViewController → ListViewController) : App :=
  { app with lists := Function.update app.lists list (f (app.lists list)) }

def setCurrentUser (app : App) (user : Option User) : App :=
  if user = app.currentUser then
    app
  else
    { app with
      currentUser := user
      sharedInstance := app.sharedInstance.map (fun shared =>
        { shared with listener := shared.listener.notified })
    }

def login (app : App) (email password : String) : App :=
  { app with
    window := app.window.showBlockingWaitOverlayWithText "logging in"
    pending := app.pending ++ [.signIn email password]
  }

def register (app : App) (email password : String) : App :=
  { app with
    window := app.window.showBlockingWaitOverlayWithText "registering"
    pending := app.pending ++ [.createUser email password]
  }

def resetPassword (app : App) (_currentPassword newPassword : String) : App :=
  let app := { app with window := app.window.showBlockingWaitOverlayWithText "resetting" }
  match app.currentUser with
  -- the call is chained to an optional, without a user nothing is requested
  | none => app
  | some _ => { app with pending := app.pending ++ [.updatePassword newPassword] }

def onSaveButtonPressed (P : Platform) (app : App) (editor : EditCredentialsViewController)
    (salts : Salts) : Except Trap App := do
  let window := app.window.showBlockingWaitOverlayWithText "Saving"
  match ← editor.onSaveButtonPressed P app.authenticatedUser salts with
  | none => return { app with window }
  | some write => return { app with window, pending := app.pending ++ [.setValue write] }

def reloadData (P : Platform) (app : App) (list : Nat) : Except Trap App :=
  let window := app.window.showBlockingWaitOverlayWithText "Loading..."
  if (app.lists list).isSetUp then do
    let path ← app.authenticatedUser.dbCredentialsPath P
    return { app with window, pending := app.pending ++ [.observeSingleEvent list path] }
  else
    -- `dbRef` is still `nil`
    .error .unexpectedlyFoundNil

def onSignedIn (P : Platform) (app : App) (list : Nat) : Except Trap App :=
  app.reloadData P list

def shared (app : App) : SharedInstance :=
  app.sharedInstance.getD { authenticatedUser := .new, listener := {} }

def viewWillAppear (P : Platform) (app : App) (list : Nat) (uuid : String) : Except Trap App :=
  let user := app.shared.authenticatedUser.addObserver uuid list
  let app := { app with sharedInstance := some { app.shared with authenticatedUser := user } }
  let app := app.modifyList list (fun self =>
    { self with isSetUp := true, credentials := [], observerId := some uuid })
  if user.hasSignedIn then
    app.reloadData P list
  else
    .ok app

def viewWillDisappear (app : App) (list : Nat) : App :=
  match (app.lists list).observerId with
  | none => app
  | some id =>
    let app : App := { app with
      sharedInstance := app.sharedInstance.map (fun shared =>
        { shared with authenticatedUser := shared.authenticatedUser.removeObserver id })
    }
    app.modifyList list (fun self => { self with observerId := none })

def informObserversSignedIn (P : Platform) (app : App) (observers : List (String × Nat))
    : Except Trap App :=
  observers.foldlM (fun app observer => app.onSignedIn P observer.2) app

def onAuthState (P : Platform) (app : App) (shared : SharedInstance) (user : Option User)
    : Except Trap App :=
  match user with
  | none => .ok app
  | some user =>
    let authenticatedUser := { shared.authenticatedUser with user := some user }
    let app := { app with sharedInstance := some { shared with authenticatedUser } }
    app.informObserversSignedIn P authenticatedUser.observers

def authStateDidChange (P : Platform) (app : App) : Except Trap App :=
  match app.sharedInstance with
  | none => .ok app
  | some shared =>
    if shared.listener.outstanding = 0 then
      .ok app
    else
      let called := shared.listener.shouldCallListener app.currentUser
      let shared := { shared with listener := shared.listener.delivered app.currentUser }
      let app := { app with sharedInstance := some shared }
      if called then
        app.onAuthState P shared app.currentUser
      else
        .ok app

def onResponse (P : Platform) (app : App) : Request → Response → Option (Except Trap App)
  | .signIn _ _, .auth (.error error) =>
    some (.ok { app with window := Authentication.onLogin app.window (some error) })
  | .signIn _ _, .auth (.ok user) =>
    let app := app.setCurrentUser (some user)
    some (.ok { app with window := Authentication.onLogin app.window none })
  | .createUser _ _, .auth (.error error) =>
    some (.ok { app with window := Authentication.onRegister app.window (some error) })
  | .createUser _ _, .auth (.ok user) =>
    let app := app.setCurrentUser (some user)
    some (.ok { app with window := Authentication.onRegister app.window none })
  | .updatePassword _, .updated error =>
    some (.ok { app with window := Authentication.onResetPassword app.window error })
  | .setValue _, .stored (some _) =>
    some (.ok { app with
      window := app.window.removeAllBlockingOverlays.showAlert "Save error"
        "Could not save to Firebase" })
  | .setValue _, .stored none =>
    some (.ok { app with
      window := app.window.removeAllBlockingOverlays.showAlert "Saved"
        "Credential saved successfully" })
  | .observeSingleEvent list _, .snapshot snapshot =>
    some (do
      let (self, window) ← (app.lists list).onSnapshot P app.authenticatedUser snapshot app.window
      return { app with lists := Function.update app.lists list self, window })
  | _, _ => none

def complete (P : Platform) (app : App) (index : Nat) (response : Response) : Except Trap App :=
  match app.pending[index]? with
  | none => .ok app
  | some request =>
    let rest := { app with pending := app.pending.eraseIdx index }
    (rest.onResponse P request response).getD (.ok app)

def signOut (app : App) (fails : Bool) : App :=
  if fails then app else app.setCurrentUser none

def step (P : Platform) (app : App) : Event → Except Trap App
  | .login email password => .ok (app.login email password)
  | .register email password => .ok (app.register email password)
  | .resetPassword currentPassword newPassword =>
    .ok (app.resetPassword currentPassword newPassword)
  | .onSaveButtonPressed editor salts => app.onSaveButtonPressed P editor salts
  | .viewWillAppear list uuid => app.viewWillAppear P list uuid
  | .viewWillDisappear list => .ok (app.viewWillDisappear list)
  | .onSignedIn list => app.onSignedIn P list
  | .complete index response => app.complete P index response
  | .signOut fails => .ok (app.signOut fails)
  | .authServiceSignOut => .ok (app.setCurrentUser none)
  | .authStateDidChange => app.authStateDidChange P

end App
