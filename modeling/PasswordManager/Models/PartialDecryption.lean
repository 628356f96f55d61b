import PasswordManager.Models.CredentialLemmas

/-!
This module contains what `Credential.decrypt` leaves behind when one of the fields does not
decrypt.
-/

namespace Credential

variable {Observer : Type}

/--
A `decrypt` that throws leaves all three fields as they were, and one that returns has replaced each
of them by its decryption.
-/
structure AllOrNothing (P : Platform) (user : AuthenticatedUser Observer) (uid : String)
    (before : Credential) : Prop where
  nothing : ∀ after thrown, before.decrypt P user = .ok (after, .error thrown) → after = before
  all : ∀ after, before.decrypt P user = .ok (after, .ok ()) →
    ∃ usn pw url username password website,
      before = { username := some usn, password := some pw, website := some url }
        ∧ usn.decrypt P uid = .ok (.ok username)
        ∧ pw.decrypt P uid = .ok (.ok password)
        ∧ url.decrypt P uid = .ok (.ok website)
        ∧ after = { username := some username, password := some password, website := some website }

-- The text is base64, but not what encryption under the key makes of any text.
def Refused (P : Platform) (uid text : String) : Prop :=
  Base64.IsValid text.toList ∧ text.plaintext P uid = none

/--
A field is refused after an earlier one has been replaced by a text other than itself.
-/
def RefusedHalfway (P : Platform) (uid : String) (self : Credential) : Prop :=
  ∃ usn pw url username,
    self = { username := some usn, password := some pw, website := some url }
      ∧ usn.plaintext P uid = some username
      ∧ ((Refused P uid pw ∧ username ≠ usn)
        ∨ ∃ password, pw.plaintext P uid = some password ∧ Refused P uid url
          ∧ (username ≠ usn ∨ password ≠ pw))

theorem decrypt_of_incomplete {P : Platform} {user : AuthenticatedUser Observer} {self : Credential}
    (h : self.username = none ∨ self.password = none ∨ self.website = none)
    : self.decrypt P user = .ok (self, .error (.credential .incompleteCredential)) := by
  unfold decrypt
  split
  . next husername hpassword hwebsite => simp [husername, hpassword, hwebsite] at h
  . rfl

theorem allOrNothing_of_trap {P : Platform} {user : AuthenticatedUser Observer} {uid : String}
    {self : Credential} {trap : Trap} (h : self.decrypt P user = .error trap)
    : AllOrNothing P user uid self := by
  constructor
  . intro after thrown hdecrypt
    rw [h] at hdecrypt
    cases hdecrypt
  . intro after hdecrypt
    rw [h] at hdecrypt
    cases hdecrypt

theorem allOrNothing_iff_of_throw {P : Platform} {user : AuthenticatedUser Observer} {uid : String}
    {self after : Credential} {thrown : ThrownError}
    (h : self.decrypt P user = .ok (after, .error thrown))
    : AllOrNothing P user uid self ↔ after = self := by
  constructor
  . intro hall
    exact hall.nothing after thrown h
  . rintro rfl
    constructor
    . intro other thrown' hdecrypt
      rw [h] at hdecrypt
      cases hdecrypt
      rfl
    . intro other hdecrypt
      rw [h] at hdecrypt
      cases hdecrypt

theorem allOrNothing_of_return {P : Platform} {user : AuthenticatedUser Observer} {uid : String}
    {usn pw url username password website : String}
    (h : decrypt P user { username := some usn, password := some pw, website := some url }
      = .ok
        ({ username := some username, password := some password, website := some website }, .ok ()))
    (hu : usn.decrypt P uid = .ok (.ok username))
    (hp : pw.decrypt P uid = .ok (.ok password))
    (hw : url.decrypt P uid = .ok (.ok website))
    : AllOrNothing P user uid
        { username := some usn, password := some pw, website := some url } := by
  constructor
  . intro after thrown hdecrypt
    rw [h] at hdecrypt
    cases hdecrypt
  . intro after hdecrypt
    rw [h] at hdecrypt
    cases hdecrypt
    exact ⟨usn, pw, url, username, password, website, rfl, hu, hp, hw, rfl⟩

/--
Decryption is all or nothing exactly of the credentials that are not refused halfway.
-/
theorem allOrNothing_iff (P : Platform) (observers : List (String × Observer)) (user : User)
    (self : Credential)
    : AllOrNothing P { observers, user := some user } (P.digest user.uid) self
        ↔
      ¬ RefusedHalfway P (P.digest user.uid) self := by
  have hne := P.digest_ne_empty user.uid
  generalize hsession : ({ observers, user := some user } : AuthenticatedUser Observer) = session
  have huid : session.uidHash P = .ok (P.digest user.uid) := by
    rw [← hsession]
    rfl
  generalize P.digest user.uid = uid at *
  by_cases hincomplete : self.username = none ∨ self.password = none ∨ self.website = none
  . rw [allOrNothing_iff_of_throw (decrypt_of_incomplete hincomplete)]
    simp only [true_iff]
    rintro ⟨usn, pw, url, _, rfl, -⟩
    simp at hincomplete
  . obtain ⟨usn, pw, url, rfl⟩ : ∃ usn pw url,
        self = { username := some usn, password := some pw, website := some url } := by
      rcases self with ⟨_ | usn, _ | url, _ | pw⟩ <;> simp_all
    -- the fields are decrypted in this order, a later one only if the earlier ones succeeded
    rcases String.decrypt_cases P usn hne
      with ⟨-, hp, t, hd⟩ | ⟨-, hp, e, hd⟩ | ⟨-, u, hp, hd⟩
    . have htrap : decrypt P session ⟨some usn, some url, some pw⟩ = .error t := by
        simp [decrypt, huid, hd, bind, Except.bind]
      simp [RefusedHalfway, hp, allOrNothing_of_trap htrap]
    . have hthrow : decrypt P session ⟨some usn, some url, some pw⟩
          = .ok (⟨some usn, some url, some pw⟩, .error (.crypto e)) := by
        simp [decrypt, huid, hd, bind, Except.bind, pure, Except.pure]
      simp [RefusedHalfway, hp, allOrNothing_iff_of_throw hthrow]
    . rcases String.decrypt_cases P pw hne
        with ⟨hv', hp', t, hd'⟩ | ⟨hv', hp', e, hd'⟩ | ⟨hv', p, hp', hd'⟩
      . have htrap : decrypt P session ⟨some usn, some url, some pw⟩ = .error t := by
          simp [decrypt, huid, hd, hd', bind, Except.bind]
        simp [RefusedHalfway, Refused, hv', hp', allOrNothing_of_trap htrap]
      . have hthrow : decrypt P session ⟨some usn, some url, some pw⟩
            = .ok (⟨some u, some url, some pw⟩, .error (.crypto e)) := by
          simp [decrypt, huid, hd, hd', bind, Except.bind, pure, Except.pure]
        simp [RefusedHalfway, Refused, hp, hv', hp', allOrNothing_iff_of_throw hthrow]
      . rcases String.decrypt_cases P url hne
          with ⟨hv'', hp'', t, hd''⟩ | ⟨hv'', hp'', e, hd''⟩ | ⟨hv'', w, hp'', hd''⟩
        . have htrap : decrypt P session ⟨some usn, some url, some pw⟩ = .error t := by
            simp [decrypt, huid, hd, hd', hd'', bind, Except.bind]
          simp [RefusedHalfway, Refused, hp', hv'', allOrNothing_of_trap htrap]
        . have hthrow : decrypt P session ⟨some usn, some url, some pw⟩
              = .ok (⟨some u, some url, some p⟩, .error (.crypto e)) := by
            simp [decrypt, huid, hd, hd', hd'', bind, Except.bind, pure, Except.pure]
          simp [RefusedHalfway, Refused, hp, hp', hv'', hp'', allOrNothing_iff_of_throw hthrow]
        . have hreturn : decrypt P session ⟨some usn, some url, some pw⟩
              = .ok (⟨some u, some w, some p⟩, .ok ()) := by
            simp [decrypt, huid, hd, hd', hd'', bind, Except.bind, pure, Except.pure]
          have hall := allOrNothing_of_return hreturn hd hd' hd''
          simp [RefusedHalfway, Refused, hp', hp'', hall]

def referenceCiphertext (uid text : String) : String :=
  ((text.encrypt .reference [] (Platform.reference.digest uid)).toOption).getD ""

theorem foreign_password_mixes_fields
    : ¬ AllOrNothing .reference
        ({ observers := [], user := some ⟨"u"⟩ } : AuthenticatedUser Nat)
        (Platform.reference.digest "u")
        {
          username := some (referenceCiphertext "u" "a@b.co")
          password := some (referenceCiphertext "v" "pw")
          website := some (referenceCiphertext "u" "ab.com")
        } := by
  intro h
  have hthrow := h.nothing
    {
      username := some "a@b.co"
      password := some (referenceCiphertext "v" "pw")
      website := some (referenceCiphertext "u" "ab.com")
    }
    (.crypto .invalidPassword) (by decide +kernel)
  revert hthrow
  decide +kernel

end Credential
