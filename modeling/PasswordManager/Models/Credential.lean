import PasswordManager.Extensions.StringExtensions
import PasswordManager.Json.Basic
import PasswordManager.Models.AuthenticatedUser

/-!
This module contains a credential: when it may be saved, what saving it writes to the database, and
its decryption in place.
-/

inductive CredentialError where
  | incompleteCredential
  deriving DecidableEq, Repr

inductive ThrownError where
  | crypto (error : CryptoError)
  | credential (error : CredentialError)
  | other
  deriving DecidableEq, Repr

structure Credential where
  username : Option String := none
  website : Option String := none
  password : Option String := none
  deriving DecidableEq, Repr

-- the random bytes that one save draws for each of the fields
structure Salts where
  password : List UInt8
  username : List UInt8
  website : List UInt8
  deriving DecidableEq, Repr

structure Write where
  path : String
  value : Json

namespace Credential

variable {Observer : Type}

def validate (P : Platform) (self : Credential) : Bool :=
  match self.username, self.website, self.password with
  | some username, some website, some _ => username.isValidEmail P && website.isValidUrl P
  | _, _, _ => false

def credHash (P : Platform) (username website : String) : String :=
  P.digest (username ++ "+" ++ website)

def record (username website password : String) : Json :=
  .dictionary
    [("username", .string username), ("website", .string website), ("password", .string password)]

def dbPath (P : Platform) (uid : String) (credId : Option String) (username website : String)
    : String :=
  -- Structure: [PWMRoot]/Credentials/UID/hashOf(USN+URL)/[json]
  match credId with
  | some credId => "Credentials/" ++ uid ++ "/" ++ credId
  | none => "Credentials/" ++ uid ++ "/" ++ credHash P username website

def save (P : Platform) (user : AuthenticatedUser Observer) (salts : Salts) (credId : Option String)
    (self : Credential) : Except Trap (Option Write) :=
  if self.validate P then
    match self.password, self.username, self.website with
    | some password, some username, some website => do
      let uid ← user.uidHash P
      let encryptedPassword ← password.encrypt P salts.password uid
      let encryptedUsername ← username.encrypt P salts.username uid
      let encryptedWebsite ← website.encrypt P salts.website uid
      return some {
        path := dbPath P uid credId username website
        value := record encryptedUsername encryptedWebsite encryptedPassword
      }
    | _, _, _ => .error .unexpectedlyFoundNil
  else
    -- nothing is written, and nobody is told
    .ok none

def decrypt (P : Platform) (user : AuthenticatedUser Observer) (self : Credential)
    : Except Trap (Credential × Except ThrownError Unit) :=
  match self.username, self.password, self.website with
  | some usn, some pw, some url => do
    let uid ← user.uidHash P
    -- the fields are written one after the other, those before a failing one stay written
    match ← usn.decrypt P uid with
    | .error err => return (self, .error (.crypto err))
    | .ok username =>
      let self := { self with username := some username }
      match ← pw.decrypt P uid with
      | .error err => return (self, .error (.crypto err))
      | .ok password =>
        let self := { self with password := some password }
        match ← url.decrypt P uid with
        | .error err => return (self, .error (.crypto err))
        | .ok website => return ({ self with website := some website }, .ok ())
  | _, _, _ => .ok (self, .error (.credential .incompleteCredential))

end Credential
