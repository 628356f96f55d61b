import PasswordManager.Extensions.EmailPattern
import PasswordManager.Vault.EditorSession

/-!
This module contains the records that an editor writes in the course of a session, and when all of
them are encryptions of texts that are not empty.
-/

namespace EditCredentialsViewController

-- A list has decrypted the credential, whoever has put it into the database.
def Decrypted (P : Platform) (credential : Credential) : Prop :=
  ∃ (reader : AuthenticatedUser Nat) (raw : Credential),
    raw.decrypt P reader = .ok (credential, .ok ())

inductive OpenedByList (P : Platform) : EditCredentialsViewController → Prop where
  | new : OpenedByList P {}
  | edit (credential : Credential) (credId : String) (h : Decrypted P credential)
    : OpenedByList P (editFor credential credId {})

structure Recording where
  editor : EditCredentialsViewController
  stored : List (String × Write) := []

def writes (P : Platform) (self : EditCredentialsViewController) : Event → List (String × Write)
  | .saveTapped user salts =>
    if self.saveButtonIsEnabled then
      match self.onSaveButtonPressed P (session user) salts with
      | .ok (some write) => [(P.digest user.uid, write)]
      | _ => []
    else
      []
  | _ => []

def Recording.step (P : Platform) (self : Recording) (e : Event) : Except Trap Recording := do
  let editor ← self.editor.step P e
  return { editor, stored := self.stored ++ self.editor.writes P e }

def IsFilled (P : Platform) (uid : String) (write : Write) : Prop :=
  ∃ (username website password : String) (salts : Salts)
      (encryptedUsername encryptedWebsite encryptedPassword : String),
    username ≠ "" ∧ website ≠ "" ∧ password ≠ ""
      ∧ username.encrypt P salts.username uid = .ok encryptedUsername
      ∧ website.encrypt P salts.website uid = .ok encryptedWebsite
      ∧ password.encrypt P salts.password uid = .ok encryptedPassword
      ∧ write.value = Credential.record encryptedUsername encryptedWebsite encryptedPassword

def Recording.OnlyFilled (P : Platform) (self : Recording) : Prop :=
  ∀ entry ∈ self.stored, IsFilled P entry.1 entry.2

structure SavesEmptyPassword (P : Platform) (editor : EditCredentialsViewController) (e : Event)
    : Prop where
  tap : ∃ user salts, e = .saveTapped user salts
  enabled : editor.saveButtonIsEnabled = true
  username : editor.usernameField.isValidEmail P = true
  website : editor.websiteField.isValidUrl P = true
  password : editor.passwordField = ""

variable {P : Platform} {editor : EditCredentialsViewController}

theorem decryption_of_isFilled {uid : String} {write : Write} (huid : uid ≠ "")
    (h : IsFilled P uid write)
    : ∃ username website password,
        username ≠ "" ∧ website ≠ "" ∧ password ≠ ""
          ∧ ListViewController.entryDecryption P uid write.value
            = some ⟨some username, some website, some password⟩ := by
  obtain ⟨username, website, password, salts, _, _, _, husername, hwebsite, hpassword, heu, hew,
    hep, hvalue⟩ := h
  refine ⟨username, website, password, husername, hwebsite, hpassword, ?_⟩
  rw [hvalue]
  exact Vault.entryDecryption_record (String.plaintext_of_encrypt huid heu)
    (String.plaintext_of_encrypt huid hew) (String.plaintext_of_encrypt huid hep)

theorem isFilled_save_iff {user : AuthenticatedUser Nat} {uid : String} {credential : Credential}
    {salts : Salts} {credId : Option String} {write : Write} (huid : user.uidHash P = .ok uid)
    (hsave : credential.save P user salts credId = .ok (some write))
    : IsFilled P uid write ↔ credential.password ≠ some "" := by
  have hne := AuthenticatedUser.uidHash_ne_empty huid
  obtain ⟨hvalid, -⟩ := Credential.save_eq_some hsave
  obtain ⟨username, website, password, rfl, hemail, hurl⟩ := Credential.validate_fields hvalid
  obtain ⟨eu, ew, ep, hsave', heu, hew, hep⟩ := Credential.save_encrypts huid hvalid salts credId
  rw [hsave] at hsave'
  cases hsave'
  constructor
  . intro hfilled hempty
    cases hempty
    obtain ⟨_, _, other, -, -, hother, hentry⟩ := decryption_of_isFilled hne hfilled
    -- the entry decrypts to what has been encrypted, so there is no other text behind it
    rw [Vault.entryDecryption_record (String.plaintext_of_encrypt hne heu)
      (String.plaintext_of_encrypt hne hew) (String.plaintext_of_encrypt hne hep)] at hentry
    cases hentry
    exact hother rfl
  . intro hpassword
    refine ⟨username, website, password, salts, eu, ew, ep, ?_, ?_, ?_, heu, hew, hep, rfl⟩
    . exact String.ne_empty_of_isValidEmail hemail
    . exact String.ne_empty_of_isValidUrl hurl
    . rintro rfl
      exact hpassword rfl

theorem validate_displayed {credential : Credential} (h : Displays editor credential)
    : credential.validate P = true
        ↔
      editor.usernameField.isValidEmail P = true ∧ editor.websiteField.isValidUrl P = true := by
  obtain ⟨password, hpassword⟩ := Option.isSome_iff_exists.mp h.hasPassword
  rw [h.username, h.website]
  constructor
  . intro hvalid
    obtain ⟨username, website, _, rfl, hemail, hurl⟩ := Credential.validate_fields hvalid
    exact ⟨hemail, hurl⟩
  . rintro ⟨hemail, hurl⟩
    rcases credential with ⟨_ | username, _ | website, _⟩
    . exact (String.ne_empty_of_isValidEmail hemail rfl).elim
    . exact (String.ne_empty_of_isValidEmail hemail rfl).elim
    . exact (String.ne_empty_of_isValidUrl hurl rfl).elim
    . cases hpassword
      simp only [Option.getD_some] at hemail hurl
      simp [Credential.validate, hemail, hurl]

theorem password_displayed {credential : Credential} (h : Displays editor credential)
    : editor.passwordField = "" ↔ credential.password = some "" := by
  obtain ⟨password, hpassword⟩ := Option.isSome_iff_exists.mp h.hasPassword
  rw [h.password, hpassword, Option.getD_some, Option.some.injEq]

theorem writes_filled_iff {credential : Credential} (h : Displays editor credential) (e : Event)
    : (∀ entry ∈ editor.writes P e, IsFilled P entry.1 entry.2)
        ↔
      ¬ SavesEmptyPassword P editor e := by
  cases e with
  | saveTapped user salts =>
    have huid : (session user).uidHash P = .ok (P.digest user.uid) := rfl
    obtain ⟨credId, hpressed⟩ := onSaveButtonPressed_eq (P := P) h.credential_eq (session user)
      salts
    simp only [writes]
    split
    . next henabled =>
      obtain ⟨issued, hissued⟩ := Credential.save_total huid credential salts credId
      rw [hpressed, hissued]
      cases issued with
      | none =>
        have hinvalid := Credential.save_eq_none hissued
        simp only [List.not_mem_nil, false_implies, implies_true, true_iff]
        intro hempty
        have hvalid := (validate_displayed h).mpr ⟨hempty.username, hempty.website⟩
        rw [hinvalid] at hvalid
        cases hvalid
      | some write =>
        obtain ⟨hvalid, -⟩ := Credential.save_eq_some hissued
        obtain ⟨hemail, hurl⟩ := (validate_displayed h).mp hvalid
        simp only [List.mem_singleton, forall_eq, isFilled_save_iff huid hissued]
        rw [ne_eq, ← password_displayed h, not_iff_not]
        constructor
        . intro hpassword
          exact ⟨⟨user, salts, rfl⟩, henabled, hemail, hurl, hpassword⟩
        . exact fun hempty => hempty.password
    . next hdisabled =>
      simp only [List.not_mem_nil, false_implies, implies_true, true_iff]
      exact fun hempty => hdisabled hempty.enabled
  | _ =>
    simp only [writes, List.not_mem_nil, false_implies, implies_true, true_iff]
    rintro ⟨⟨user, salts, heq⟩, -⟩
    cases heq

namespace Recording

theorem step_ok_iff {self self' : Recording} {e : Event}
    : self.step P e = .ok self'
        ↔
      self.editor.step P e = .ok self'.editor
        ∧ self'.stored = self.stored ++ self.editor.writes P e := by
  unfold step
  cases self.editor.step P e with
  | error trap => simp [bind, Except.bind]
  | ok editor =>
    rcases self' with ⟨editor', stored'⟩
    simp only [bind, Except.bind, pure, Except.pure, Except.ok.injEq, mk.injEq]
    tauto

theorem step_onlyFilled_iff {self self' : Recording} {credential : Credential} {e : Event}
    (hdisplays : Displays self.editor credential) (hfilled : self.OnlyFilled P)
    (h : self.step P e = .ok self')
    : self'.OnlyFilled P ↔ ¬ SavesEmptyPassword P self.editor e := by
  rw [← writes_filled_iff hdisplays]
  unfold OnlyFilled
  rw [(step_ok_iff.mp h).right]
  constructor
  . intro hall entry hmem
    exact hall entry (List.mem_append_right _ hmem)
  . intro hnew entry hmem
    rcases List.mem_append.mp hmem with hold | hnew'
    . exact hfilled entry hold
    . exact hnew entry hnew'

end Recording

theorem exists_displayed_of_opened (hopened : OpenedByList P editor) (generated : String)
    : ∃ appeared credential, editor.viewWillAppear P generated = .ok appeared
        ∧ Displays appeared credential := by
  have hcredential : editor.isNewCredential = true
      ∨ ∃ credential, editor.credential = some credential ∧ credential.password.isSome := by
    cases hopened with
    | new => exact .inl rfl
    | edit credential credId h =>
      obtain ⟨reader, raw, hdecrypt⟩ := h
      obtain ⟨_, _, _, rfl⟩ := Credential.fields_of_decrypt hdecrypt
      exact .inr ⟨_, rfl, rfl⟩
  obtain ⟨appeared, credential, happeared, hdisplays, -⟩ :=
    viewWillAppear_keeps (P := P) generated hcredential
  exact ⟨appeared, credential, happeared, hdisplays⟩

/--
All that a session ever writes are encryptions of texts that are not empty, exactly if Save is never
tapped with an empty password between valid fields.
-/
theorem only_filled_stored_iff (hopened : OpenedByList P editor) (generated : String)
    (events : List Event)
    : ∃ appeared, editor.viewWillAppear P generated = .ok appeared
        ∧ (Transition.Always (Recording.step P) (Recording.OnlyFilled P) { editor := appeared }
              events
            ↔
          Transition.Meets (Recording.step P)
            (fun self e => ¬ SavesEmptyPassword P self.editor e) { editor := appeared }
            events) := by
  obtain ⟨appeared, credential, happeared, hdisplays⟩ :=
    exists_displayed_of_opened hopened generated
  refine ⟨appeared, happeared, ?_⟩
  apply Transition.always_iff_meets (I := fun self => ∃ credential, Displays self.editor credential)
  . rintro self e self' ⟨credential, hdisplays⟩ h
    obtain ⟨editor', credential', hstep, hdisplays', -⟩ := step_keeps (P := P) e hdisplays
    rw [(Recording.step_ok_iff.mp h).left] at hstep
    cases hstep
    exact ⟨credential', hdisplays'⟩
  . rintro self e self' ⟨credential, hdisplays⟩ hfilled h
    exact Recording.step_onlyFilled_iff hdisplays hfilled h
  . exact ⟨credential, hdisplays⟩
  . simp [Recording.OnlyFilled]

theorem only_filled_stored_iff_saved_entry
    : ∃ appeared,
        viewWillAppear .reference "pw" (editFor ⟨some "a@b.co", some "ab.com", some "pw"⟩ "k" {})
            = .ok appeared
          ∧ (Transition.Always (Recording.step .reference) (Recording.OnlyFilled .reference)
                { editor := appeared } [.passwordEdited "new", .saveTapped ⟨"u"⟩ ⟨[], [], []⟩]
              ↔
            Transition.Meets (Recording.step .reference)
              (fun self e => ¬ SavesEmptyPassword .reference self.editor e)
              { editor := appeared } [.passwordEdited "new", .saveTapped ⟨"u"⟩ ⟨[], [], []⟩]) := by
  apply only_filled_stored_iff
  apply OpenedByList.edit
  have hvalid : Credential.validate .reference ⟨some "a@b.co", some "ab.com", some "pw"⟩
      = true := by
    decide +kernel
  obtain ⟨_, reader, _, _, _, _, _, -, -, -, hdecrypt⟩ := wasSaved_of_validate hvalid
  exact ⟨reader, _, hdecrypt⟩

theorem cleared_password_stored
    : ∃ appeared, viewWillAppear .reference "generated" {} = .ok appeared
        ∧ ¬ Transition.Always (Recording.step .reference) (Recording.OnlyFilled .reference)
            { editor := appeared }
            [.usernameEdited "a@b.co", .websiteEdited "ab.com", .passwordEdited "",
              .saveTapped ⟨"u"⟩ ⟨[], [], []⟩] := by
  refine ⟨_, rfl, ?_⟩
  apply Transition.not_always_of_run _
    (fun self => self.stored.map (fun entry => (entry.1,
      ListViewController.entryDecryption .reference entry.1 entry.2.value)))
    (b := [(Platform.reference.digest "u", some ⟨some "a@b.co", some "ab.com", some ""⟩)])
  . decide +kernel
  . intro self heq hfilled
    obtain ⟨⟨uid, write⟩, hstored, hentry⟩ := List.map_eq_singleton_iff.mp heq
    simp only [Prod.mk.injEq] at hentry
    obtain ⟨rfl, hentry⟩ := hentry
    have hwrite := hfilled (Platform.reference.digest "u", write) (by simp [hstored])
    obtain ⟨_, _, password, -, -, hpassword, hother⟩ :=
      decryption_of_isFilled (Platform.digest_ne_empty _ "u") hwrite
    rw [hentry] at hother
    cases hother
    exact hpassword rfl

end EditCredentialsViewController
