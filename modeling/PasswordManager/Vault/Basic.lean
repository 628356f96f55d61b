import PasswordManager.Dictionary.Replay
import PasswordManager.Transition.Basic
import PasswordManager.ViewController.ListViewControllerLemmas

/-!
This module contains the database as a machine that reacts to the saves of any number of devices,
and the dictionary of credentials that it stands for.
-/

structure SaveCall where
  user : AuthenticatedUser Nat
  credId : Option String := none
  credential : Credential
  salts : Salts

namespace SaveCall

variable (P : Platform)

def key (call : SaveCall) : String :=
  call.credId.getD
    (Credential.credHash P (call.credential.username.getD "") (call.credential.website.getD ""))

end SaveCall

namespace Vault

variable (P : Platform) (uid : String)

def setValue (db : Json) (write : Write) : Json :=
  Json.set (Json.pathPieces write.path) write.value db

def step (db : Json) (call : SaveCall) : Except Trap Json := do
  match ← call.credential.save P call.user call.salts call.credId with
  | none => return db
  | some write => return setValue db write

def subtree (db : Json) : List (String × Json) :=
  (db.get ["Credentials", uid]).entries

/--
A device of the user saves a valid credential, an edit goes to a key that is there.
-/
structure Accepted (db : Json) (call : SaveCall) : Prop where
  user : call.user.uidHash P = .ok uid
  valid : call.credential.validate P = true
  present : ∀ k, call.credId = some k → k ∈ Dictionary.keys (subtree uid db)

/--
The calls lead from a database without entries for the user to `db`, each of them is accepted.
-/
structure History (db₀ : Json) (calls : List SaveCall) (db : Json) : Prop where
  empty : subtree uid db₀ = []
  accepted : Transition.Meets (step P) (Accepted P uid) db₀ calls
  run : Transition.run (step P) db₀ calls = .ok db

def writes (calls : List SaveCall) : List (String × Credential) :=
  calls.map (fun call => (call.key P, call.credential))

def lastSave (calls : List SaveCall) (k : String) : Option Credential :=
  Dictionary.lastWrite (writes P calls) k

def StoredAt (db : Json) (k : String) (credential : Credential) : Prop :=
  ∃ cred, (subtree uid db).lookup k = some cred
    ∧ ListViewController.entryDecryption P uid cred = some credential

def pair (credential : Credential) : Option String × Option String :=
  (credential.username, credential.website)

end Vault
