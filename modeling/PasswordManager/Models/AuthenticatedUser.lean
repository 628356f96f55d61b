import PasswordManager.Dictionary.Basic
import PasswordManager.Platform

/-!
This module contains the signed in user: its observers, its hash and its place in the database.
-/

-- A user of the authentication service. Two users are the same account if their `uid` is the same.
structure User where
  uid : String
  deriving DecidableEq, Repr

structure AuthenticatedUser (Observer : Type) where
  observers : List (String × Observer)
  user : Option User
  deriving DecidableEq, Repr

namespace AuthenticatedUser

variable {Observer : Type}

def new : AuthenticatedUser Observer where
  observers := []
  user := none

def addObserver (self : AuthenticatedUser Observer) (id : String) (observer : Observer)
    : AuthenticatedUser Observer :=
  { self with observers := Dictionary.set id observer self.observers }

def removeObserver (self : AuthenticatedUser Observer) (id : String) : AuthenticatedUser Observer :=
  { self with observers := Dictionary.erase id self.observers }

def hasSignedIn (self : AuthenticatedUser Observer) : Bool :=
  self.user.isSome

def uidHash (P : Platform) (self : AuthenticatedUser Observer) : Except Trap String :=
  match self.user with
  -- `user` is implicitly unwrapped
  | none => .error .unexpectedlyFoundNil
  | some user => .ok (P.digest user.uid)

def dbCredentialsPath (P : Platform) (self : AuthenticatedUser Observer) : Except Trap String :=
  (self.uidHash P).map (fun uidHash => "Credentials/" ++ uidHash)

@[simp]
theorem new_user : (new : AuthenticatedUser Observer).user = none := by
  rfl

@[simp]
theorem addObserver_user (self : AuthenticatedUser Observer) (id : String) (observer : Observer)
    : (self.addObserver id observer).user = self.user := by
  rfl

theorem uidHash_of_user {P : Platform} {self : AuthenticatedUser Observer} {user : User}
    (h : self.user = some user) : self.uidHash P = .ok (P.digest user.uid) := by
  simp [uidHash, h]

theorem uidHash_ne_empty {P : Platform} {self : AuthenticatedUser Observer} {uid : String}
    (h : self.uidHash P = .ok uid) : uid ≠ "" := by
  unfold uidHash at h
  split at h
  . cases h
  . cases h
    apply Platform.digest_ne_empty

theorem uidHash_not_slash {P : Platform} {self : AuthenticatedUser Observer} {uid : String}
    (h : self.uidHash P = .ok uid) : '/' ∉ uid.toList := by
  unfold uidHash at h
  split at h
  . cases h
  . cases h
    apply Platform.digest_not_slash

theorem uidHash_ok_iff {P : Platform} {self : AuthenticatedUser Observer}
    : (∃ uid, self.uidHash P = .ok uid) ↔ self.user.isSome := by
  unfold uidHash
  cases self.user with
  | none => simp
  | some user => simp

end AuthenticatedUser
