import PasswordManager.Models.Credential
import PasswordManager.Platform.Reference

namespace String

def plaintext (P : Platform) (self : String) (password : String) : Option String := do
  let encrypted ← Base64.decode self.toList
  let decryptedData ← (P.cryptor.decrypt encrypted password).toOption
  String.ofUtf8Data decryptedData

theorem decrypt_cases (P : Platform) (self : String) {password : String} (hpassword : password ≠ "")
    : (¬ Base64.IsValid self.toList ∧ self.plaintext P password = none
        ∧ ∃ trap, self.decrypt P password = .error trap)
      ∨ (Base64.IsValid self.toList ∧ self.plaintext P password = none
        ∧ ∃ err, self.decrypt P password = .ok (.error err))
      ∨ (Base64.IsValid self.toList ∧ ∃ text, self.plaintext P password = some text
        ∧ self.decrypt P password = .ok (.ok text)) := by
  rw [← Base64.decode_isSome_iff]
  unfold plaintext decrypt
  cases Base64.decode self.toList with
  | none => exact .inl ⟨by simp, rfl, _, rfl⟩
  | some encrypted =>
    right
    simp only [Option.isSome_some, hpassword, ↓reduceIte, Option.bind_eq_bind, Option.bind_some]
    cases P.cryptor.decrypt encrypted password with
    | error err => exact .inl ⟨trivial, rfl, _, rfl⟩
    | ok data =>
      simp only [Except.toOption, Option.bind_some]
      cases String.ofUtf8Data data with
      | none => exact .inl ⟨trivial, rfl, _, rfl⟩
      | some text => exact .inr ⟨trivial, text, rfl, rfl⟩

theorem plaintext_of_encrypt {P : Platform} {self password encrypted : String}
    {random : List UInt8} (hpassword : password ≠ "")
    (h : self.encrypt P random password = .ok encrypted)
    : encrypted.plaintext P password = some self := by
  have hdecrypt := decrypt_of_encrypt h
  rcases decrypt_cases P encrypted hpassword
    with ⟨-, -, trap, htrap⟩ | ⟨-, -, err, herr⟩ | ⟨-, text, htext, hok⟩
  . rw [hdecrypt] at htrap
    cases htrap
  . rw [hdecrypt] at herr
    cases herr
  . rw [hdecrypt] at hok
    cases hok
    exact htext

end String

namespace Credential

variable {Observer : Type}

theorem validate_fields {P : Platform} {self : Credential} (h : self.validate P = true)
    : ∃ username website password,
        self = ⟨some username, some website, some password⟩
          ∧ username.isValidEmail P = true
          ∧ website.isValidUrl P = true := by
  unfold validate at h
  rcases self with ⟨_ | username, _ | website, _ | password⟩ <;> simp at h
  exact ⟨username, website, password, rfl, h.left, h.right⟩

theorem save_encrypts {P : Platform} {user : AuthenticatedUser Observer} {uid : String}
    {username website password : String} (huid : user.uidHash P = .ok uid)
    (hvalid : validate P ⟨some username, some website, some password⟩ = true)
    (salts : Salts) (credId : Option String)
    : ∃ encryptedUsername encryptedWebsite encryptedPassword,
        save P user salts credId ⟨some username, some website, some password⟩
            =
          .ok (some {
            path := dbPath P uid credId username website
            value := record encryptedUsername encryptedWebsite encryptedPassword
          })
          ∧ username.encrypt P salts.username uid = .ok encryptedUsername
          ∧ website.encrypt P salts.website uid = .ok encryptedWebsite
          ∧ password.encrypt P salts.password uid = .ok encryptedPassword := by
  have hne := AuthenticatedUser.uidHash_ne_empty huid
  have husername := String.encrypt_eq_ok (P := P) hne salts.username username
  have hwebsite := String.encrypt_eq_ok (P := P) hne salts.website website
  have hpassword := String.encrypt_eq_ok (P := P) hne salts.password password
  refine ⟨_, _, _, ?_, husername, hwebsite, hpassword⟩
  unfold save
  rw [hvalid, huid]
  simp only [↓reduceIte, bind, Except.bind, hpassword, husername, hwebsite]
  rfl

theorem save_of_validate {P : Platform} {user : AuthenticatedUser Observer} {uid : String}
    {username website password : String} (huid : user.uidHash P = .ok uid)
    (hvalid : validate P ⟨some username, some website, some password⟩ = true)
    (salts : Salts) (credId : Option String)
    : ∃ encryptedUsername encryptedWebsite encryptedPassword,
        save P user salts credId ⟨some username, some website, some password⟩
            =
          .ok (some {
            path := dbPath P uid credId username website
            value := record encryptedUsername encryptedWebsite encryptedPassword
          })
          ∧ encryptedUsername.plaintext P uid = some username
          ∧ encryptedWebsite.plaintext P uid = some website
          ∧ encryptedPassword.plaintext P uid = some password := by
  have hne := AuthenticatedUser.uidHash_ne_empty huid
  obtain ⟨encryptedUsername, encryptedWebsite, encryptedPassword, hsave, husername, hwebsite,
    hpassword⟩ := save_encrypts huid hvalid salts credId
  exact ⟨encryptedUsername, encryptedWebsite, encryptedPassword, hsave,
    String.plaintext_of_encrypt hne husername, String.plaintext_of_encrypt hne hwebsite,
    String.plaintext_of_encrypt hne hpassword⟩

theorem save_of_not_validate {P : Platform} {user : AuthenticatedUser Observer} {self : Credential}
    (hvalid : self.validate P = false) (salts : Salts) (credId : Option String)
    : self.save P user salts credId = .ok none := by
  simp [save, hvalid]

theorem save_total {P : Platform} {user : AuthenticatedUser Observer} {uid : String}
    (huid : user.uidHash P = .ok uid) (self : Credential) (salts : Salts) (credId : Option String)
    : ∃ issued, self.save P user salts credId = .ok issued := by
  cases hvalid : self.validate P with
  | false => exact ⟨none, save_of_not_validate hvalid salts credId⟩
  | true =>
    obtain ⟨username, website, password, rfl, -, -⟩ := validate_fields hvalid
    obtain ⟨_, _, _, hsave, -⟩ := save_of_validate huid hvalid salts credId
    exact ⟨_, hsave⟩

theorem save_cases (P : Platform) (user : AuthenticatedUser Observer) (self : Credential)
    (salts : Salts) (credId : Option String)
    : (self.validate P = false ∧ self.save P user salts credId = .ok none)
      ∨ (∃ trap, self.save P user salts credId = .error trap)
      ∨ (self.validate P = true
        ∧ ∃ uid username website password write,
            user.uidHash P = .ok uid
              ∧ self = ⟨some username, some website, some password⟩
              ∧ write.path = dbPath P uid credId username website
              ∧ self.save P user salts credId = .ok (some write)) := by
  cases hvalid : self.validate P with
  | false => exact .inl ⟨rfl, save_of_not_validate hvalid salts credId⟩
  | true =>
    right
    obtain ⟨username, website, password, rfl, -, -⟩ := validate_fields hvalid
    cases huid : user.uidHash P with
    | error trap =>
      left
      simp [save, hvalid, huid, bind, Except.bind]
    | ok uid =>
      right
      obtain ⟨_, _, _, hsave, -⟩ := save_of_validate huid hvalid salts credId
      exact ⟨rfl, uid, username, website, password, _, rfl, rfl, rfl, hsave⟩

theorem save_eq_some {P : Platform} {user : AuthenticatedUser Observer} {self : Credential}
    {salts : Salts} {credId : Option String} {write : Write}
    (h : self.save P user salts credId = .ok (some write))
    : self.validate P = true
        ∧ ∃ uid username website password,
            user.uidHash P = .ok uid
              ∧ self = ⟨some username, some website, some password⟩
              ∧ write.path = dbPath P uid credId username website := by
  rcases save_cases P user self salts credId
    with ⟨-, hsave⟩ | ⟨trap, hsave⟩
      | ⟨hvalid, uid, username, website, password, _, huid, hfields, hpath, hsave⟩
  . rw [hsave] at h
    cases h
  . rw [hsave] at h
    cases h
  . rw [hsave] at h
    cases h
    exact ⟨hvalid, uid, username, website, password, huid, hfields, hpath⟩

theorem save_eq_none {P : Platform} {user : AuthenticatedUser Observer} {self : Credential}
    {salts : Salts} {credId : Option String} (h : self.save P user salts credId = .ok none)
    : self.validate P = false := by
  rcases save_cases P user self salts credId
    with ⟨hvalid, -⟩ | ⟨trap, hsave⟩ | ⟨-, _, _, _, _, _, -, -, -, hsave⟩
  . exact hvalid
  . rw [hsave] at h
    cases h
  . rw [hsave] at h
    cases h

def decryption (P : Platform) (uid : String) (self : Credential) : Option Credential :=
  match self.username, self.password, self.website with
  | some usn, some pw, some url => do
    let username ← usn.plaintext P uid
    let password ← pw.plaintext P uid
    let website ← url.plaintext P uid
    return { username := some username, website := some website, password := some password }
  | _, _, _ => none

/--
The credential is complete and the first of its fields that does not decrypt, in the order username,
password, website, is not even base64.
-/
def Crashes (P : Platform) (uid : String) (self : Credential) : Prop :=
  match self.username, self.password, self.website with
  | some usn, some pw, some url =>
    ¬ Base64.IsValid usn.toList
      ∨ ((usn.plaintext P uid).isSome
        ∧ (¬ Base64.IsValid pw.toList
          ∨ ((pw.plaintext P uid).isSome ∧ ¬ Base64.IsValid url.toList)))
  | _, _, _ => False

theorem decrypt_cases {P : Platform} {user : AuthenticatedUser Observer} {uid : String}
    (huid : user.uidHash P = .ok uid) (self : Credential)
    : (self.Crashes P uid ∧ self.decryption P uid = none
        ∧ ∃ trap, self.decrypt P user = .error trap)
      ∨ (¬ self.Crashes P uid ∧ self.decryption P uid = none
        ∧ ∃ halfway err, self.decrypt P user = .ok (halfway, .error err))
      ∨ (¬ self.Crashes P uid ∧ ∃ credential, self.decryption P uid = some credential
        ∧ self.decrypt P user = .ok (credential, .ok ())) := by
  have hne := AuthenticatedUser.uidHash_ne_empty huid
  rcases self with ⟨username, website, password⟩
  cases username with
  | none => simp [Crashes, decryption, decrypt]
  | some usn =>
    cases password with
    | none => simp [Crashes, decryption, decrypt]
    | some pw =>
      cases website with
      | none => simp [Crashes, decryption, decrypt]
      | some url =>
        simp only [Crashes, decryption, decrypt, huid, bind, Except.bind, pure, Except.pure]
        -- the fields are decrypted in this order, a later one only if the earlier ones succeeded
        rcases String.decrypt_cases P usn hne
          with ⟨hv, hp, t, hd⟩ | ⟨hv, hp, e, hd⟩ | ⟨hv, u, hp, hd⟩
        . simp [hv, hp, hd]
        . simp [hv, hp, hd]
        . rcases String.decrypt_cases P pw hne
            with ⟨hv', hp', t, hd'⟩ | ⟨hv', hp', e, hd'⟩ | ⟨hv', p, hp', hd'⟩
          . simp [hv, hp, hd, hv', hp', hd']
          . simp [hv, hp, hd, hv', hp', hd']
          . rcases String.decrypt_cases P url hne
              with ⟨hv'', hp'', t, hd''⟩ | ⟨hv'', hp'', e, hd''⟩ | ⟨hv'', w, hp'', hd''⟩
            . simp [hv, hp, hd, hv', hp', hd', hv'', hp'', hd'']
            . simp [hv, hp, hd, hv', hp', hd', hv'', hp'', hd'']
            . simp [hv, hp, hd, hv', hp', hd', hv'', hp'', hd'']

theorem decrypt_of_decryption {P : Platform} {user : AuthenticatedUser Observer} {uid : String}
    (huid : user.uidHash P = .ok uid) {self credential : Credential}
    (h : self.decryption P uid = some credential)
    : self.decrypt P user = .ok (credential, .ok ()) := by
  rcases decrypt_cases huid self with ⟨-, hnone, -⟩ | ⟨-, hnone, -⟩ | ⟨-, result, hresult, hok⟩
  . rw [h] at hnone
    cases hnone
  . rw [h] at hnone
    cases hnone
  . rw [h] at hresult
    cases hresult
    exact hok

theorem fields_of_decrypt {P : Platform} {user : AuthenticatedUser Observer}
    {self credential : Credential} (h : self.decrypt P user = .ok (credential, .ok ()))
    : ∃ username website password,
        credential = ⟨some username, some website, some password⟩ := by
  cases huid : user.uidHash P with
  | error trap =>
    unfold decrypt at h
    split at h
    . simp [huid, bind, Except.bind] at h
    . simp at h
  | ok uid =>
    rcases decrypt_cases huid self with ⟨-, -, trap, htrap⟩ | ⟨-, -, _, err, herr⟩
      | ⟨-, result, hresult, hok⟩
    . rw [h] at htrap
      cases htrap
    . rw [h] at herr
      cases herr
    . rw [h] at hok
      cases hok
      unfold decryption at hresult
      split at hresult
      . simp only [Option.bind_eq_bind, Option.bind_eq_some_iff, Option.pure_def,
          Option.some.injEq] at hresult
        obtain ⟨username, -, password, -, website, -, rfl⟩ := hresult
        exact ⟨username, website, password, rfl⟩
      . cases hresult

def referenceRecord (uid username website password : String) : Json :=
  let encrypted (text : String) : String :=
    ((text.encrypt .reference [] (Platform.reference.digest uid)).toOption).getD ""
  record (encrypted username) (encrypted website) (encrypted password)

end Credential
