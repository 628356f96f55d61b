import PasswordManager.ViewController.EditCredentialsViewController
import PasswordManager.ViewController.Window

/-!
This module contains the list of credentials: the table that shows it and the completion that
rebuilds it from a snapshot of the database.
-/

/--
The answer to a database query. The keys of a dictionary are pairwise distinct.
-/
structure DataSnapshot where
  value : Json
  nodup : (Dictionary.keys value.entries).Nodup

structure UITableView where
  rows : Nat := 0
  reloads : Nat := 0
  deriving DecidableEq, Repr

structure ListViewController where
  -- `user` and `dbRef` have been set, both happens in `viewWillAppear`.
  isSetUp : Bool := false
  observerId : Option String := none
  credentials : List Credential := []
  credentialIDs : List String := []
  credEditIndex : Int := -1
  tableView : UITableView := {}
  deriving DecidableEq, Repr

namespace ListViewController

variable {Observer : Type}

def numberOfRowsInSection (self : ListViewController) : Nat :=
  self.credentials.length

def reloadTable (self : ListViewController) : ListViewController :=
  { self with
    tableView := { rows := self.numberOfRowsInSection, reloads := self.tableView.reloads + 1 }
  }

def rawCredential (credentialRaw : List (String × Json)) : Credential where
  username := (credentialRaw.lookup "username").bind Json.asString
  password := (credentialRaw.lookup "password").bind Json.asString
  website := (credentialRaw.lookup "website").bind Json.asString

def showDecryptionError (window : Window) : ThrownError → Window
  | .crypto .invalidPassword => window.showAlert "Decryption error" "Invalid password"
  | .credential .incompleteCredential =>
    window.showAlert "Decryption error" "Incomplete credential"
  | .other => window.showAlert "Unknown error" "This error is not supposed to happen"

def rebuild (P : Platform) (user : AuthenticatedUser Observer)
    : List (Json × Json) → ListViewController → Window
        → Except Trap (Bool × ListViewController × Window)
  | [], self, window => .ok (true, self, window)
  | (credId, cred) :: rest, self, window =>
    match cred.asDictionary with
    | none => .ok (false, self, window)
    | some credentialRaw =>
      match credId.asString with
      | none => .ok (false, self, window)
      | some credentialID =>
        match (rawCredential credentialRaw).decrypt P user with
        | .error trap => .error trap
        | .ok (credential, .ok ()) =>
          rebuild P user rest
            { self with
              credentials := self.credentials ++ [credential]
              credentialIDs := self.credentialIDs ++ [credentialID]
            }
            window
        | .ok (_, .error thrown) =>
          -- the key is saved after all `catch` clauses
          rebuild P user rest
            { self with credentialIDs := self.credentialIDs ++ [credentialID] }
            (showDecryptionError window thrown)

def keyValuePairs (creds : List (String × Json)) : List (Json × Json) :=
  List.zip (creds.map (fun entry => Json.string entry.1)) (creds.map (fun entry => entry.2))

def onSnapshot (P : Platform) (user : AuthenticatedUser Observer) (snapshot : DataSnapshot)
    (self : ListViewController) (window : Window) : Except Trap (ListViewController × Window) :=
  match snapshot.value.asDictionary with
  | none => .ok (self, window.removeAllBlockingOverlays)
  | some creds => do
    let self := { self with credentials := [], credentialIDs := [] }
    let (finished, self, window) ← rebuild P user (keyValuePairs creds) self window
    if finished then
      return (self.reloadTable, window.removeAllBlockingOverlays)
    else
      return (self, window)

def cellForRowAt (self : ListViewController) (row : Nat)
    : Except Trap (Option String × Option String) :=
  match self.credentials[row]? with
  | none => .error .indexOutOfRange
  | some credential => .ok (credential.username, credential.website)

def didSelectRowAt (self : ListViewController) (row : Nat) : ListViewController :=
  { self with credEditIndex := row }

def elementAt {α : Type} (xs : List α) (index : Int) : Except Trap α :=
  match index with
  | .ofNat i =>
    match xs[i]? with
    | none => .error .indexOutOfRange
    | some x => .ok x
  | .negSucc _ => .error .indexOutOfRange

def prepareForSegue (self : ListViewController) (editVC : EditCredentialsViewController)
    : Except Trap EditCredentialsViewController := do
  let credential ← elementAt self.credentials self.credEditIndex
  let credentialID ← elementAt self.credentialIDs self.credEditIndex
  return editVC.editFor credential credentialID

end ListViewController
