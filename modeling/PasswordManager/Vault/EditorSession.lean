import PasswordManager.Vault.Refinement

/-!
This module contains the editor as a machine that reacts to what the user does with it, and the
proof that its fields, its credential and its button always agree.
-/

namespace EditCredentialsViewController

inductive Event where
  | viewWillAppear (generated : String)
  | usernameEdited (text : String)
  | passwordEdited (text : String)
  | websiteEdited (text : String)
  | onRegenerateTapped (generated : String)
  -- A tap on Save, which reaches the editor if the button is enabled.
  | saveTapped (user : User) (salts : Salts)

def session (user : User) : AuthenticatedUser Nat :=
  { observers := [], user := some user }

def step (P : Platform) (self : EditCredentialsViewController)
    : Event → Except Trap EditCredentialsViewController
  | .viewWillAppear generated => self.viewWillAppear P generated
  | .usernameEdited text => onUsernameChanged P { self with usernameField := text }
  | .passwordEdited text => onPasswordChanged P { self with passwordField := text }
  | .websiteEdited text => onWebsiteChanged P { self with websiteField := text }
  | .onRegenerateTapped generated => self.onRegenerateTapped generated
  | .saveTapped user salts =>
    if self.saveButtonIsEnabled then
      (self.onSaveButtonPressed P (session user) salts).map (fun _ => self)
    else
      .ok self

def WasSaved (P : Platform) (credential : Credential) : Prop :=
  ∃ (writer reader : AuthenticatedUser Nat) (saved : Credential) (salts : Salts)
      (credId : Option String) (write : Write) (credentialRaw : List (String × Json)),
    saved.save P writer salts credId = .ok (some write)
      ∧ reader.uidHash P = writer.uidHash P
      ∧ write.value.asDictionary = some credentialRaw
      ∧ (ListViewController.rawCredential credentialRaw).decrypt P reader
          = .ok (credential, .ok ())

inductive Opened (P : Platform) : EditCredentialsViewController → Prop where
  | new : Opened P {}
  | edit (credential : Credential) (credId : String) (h : WasSaved P credential)
    : Opened P (editFor credential credId {})

structure InStep (P : Platform) (editor : EditCredentialsViewController) (credential : Credential)
    : Prop where
  credential_eq : editor.credential = some credential
  username : editor.usernameField = credential.username.getD ""
  password : editor.passwordField = credential.password.getD ""
  website : editor.websiteField = credential.website.getD ""
  button : editor.saveButtonIsEnabled = credential.validate P

def SavesDisplayed (P : Platform) (editor : EditCredentialsViewController) : Prop :=
  ∀ (user : User) (salts : Salts), ∃ write username website password,
    editor.onSaveButtonPressed P (session user) salts = .ok (some write)
      ∧ editor.usernameField.encrypt P salts.username (P.digest user.uid) = .ok username
      ∧ editor.websiteField.encrypt P salts.website (P.digest user.uid) = .ok website
      ∧ editor.passwordField.encrypt P salts.password (P.digest user.uid) = .ok password
      ∧ write.value = Credential.record username website password

structure Consistent (P : Platform) (editor : EditCredentialsViewController) : Prop where
  inStep : ∃ credential, InStep P editor credential
  saves : editor.saveButtonIsEnabled = true → SavesDisplayed P editor

def Invariant (P : Platform) (editor : EditCredentialsViewController) : Prop :=
  ∃ credential, InStep P editor credential ∧ credential.password.isSome

structure Displays (editor : EditCredentialsViewController) (credential : Credential) : Prop where
  credential_eq : editor.credential = some credential
  username : editor.usernameField = credential.username.getD ""
  password : editor.passwordField = credential.password.getD ""
  website : editor.websiteField = credential.website.getD ""
  hasPassword : credential.password.isSome

def ButtonInStep (P : Platform) (editor : EditCredentialsViewController) : Prop :=
  ∀ credential, editor.credential = some credential
    → editor.saveButtonIsEnabled = credential.validate P

def KeepsDisplaying (P : Platform) (editor : EditCredentialsViewController)
    (result : Except Trap EditCredentialsViewController) : Prop :=
  ∃ editor' credential, result = .ok editor' ∧ Displays editor' credential
    ∧ (ButtonInStep P editor → ButtonInStep P editor')

variable {P : Platform} {editor : EditCredentialsViewController}

theorem validate_of_password {credential : Credential} (h : credential.password.isSome)
    (generated : String)
    : Credential.validate P { credential with password := some generated }
        =
      credential.validate P := by
  rcases credential with ⟨_ | username, _ | website, _ | password⟩
  all_goals
    first
    | rfl
    | cases h

theorem fields_of_wasSaved {credential : Credential} (h : WasSaved P credential)
    : credential.validate P = true ∧ credential.password.isSome := by
  obtain ⟨writer, reader, saved, salts, credId, write, credentialRaw, hsave, hreader, hraw,
    hdecrypt⟩ := h
  obtain ⟨hvalid, uid, username, website, password, hwriter, rfl, -⟩ :=
    Credential.save_eq_some hsave
  obtain ⟨encryptedUsername, encryptedWebsite, encryptedPassword, hsave', husername, hwebsite,
    hpassword⟩ := Credential.save_of_validate hwriter hvalid salts credId
  rw [hsave] at hsave'
  cases hsave'
  have hentry := Vault.entryDecryption_record husername hwebsite hpassword
  simp only [ListViewController.entryDecryption, hraw, Option.bind_some] at hentry
  rw [hwriter] at hreader
  -- what the list decrypts is what has been saved
  rw [Credential.decrypt_of_decryption hreader hentry] at hdecrypt
  cases hdecrypt
  exact ⟨hvalid, rfl⟩

theorem wasSaved_of_validate {credential : Credential} (h : credential.validate P = true)
    : WasSaved P credential := by
  obtain ⟨username, website, password, rfl, -, -⟩ := Credential.validate_fields h
  have huid : (session ⟨""⟩).uidHash P = .ok (P.digest "") := rfl
  obtain ⟨encryptedUsername, encryptedWebsite, encryptedPassword, hsave, husername, hwebsite,
    hpassword⟩ := Credential.save_of_validate huid h ⟨[], [], []⟩ none
  have hentry := Vault.entryDecryption_record husername hwebsite hpassword
  simp only [ListViewController.entryDecryption, Credential.record, Json.asDictionary,
    Option.bind_some] at hentry
  refine ⟨_, _, _, _, _, _, _, hsave, rfl, rfl, ?_⟩
  exact Credential.decrypt_of_decryption huid hentry

theorem invariant_iff
    : Invariant P editor ↔ (∃ credential, Displays editor credential) ∧ ButtonInStep P editor := by
  constructor
  . rintro ⟨credential, hstep, hpassword⟩
    refine ⟨⟨credential, ?_⟩, ?_⟩
    . exact ⟨hstep.credential_eq, hstep.username, hstep.password, hstep.website, hpassword⟩
    . intro other hother
      rw [hstep.credential_eq] at hother
      cases hother
      exact hstep.button
  . rintro ⟨⟨credential, h⟩, hbutton⟩
    refine ⟨credential, ?_, h.hasPassword⟩
    exact ⟨h.credential_eq, h.username, h.password, h.website, hbutton _ h.credential_eq⟩

theorem viewWillAppear_keeps (generated : String)
    (h : editor.isNewCredential = true
      ∨ ∃ credential, editor.credential = some credential ∧ credential.password.isSome)
    : KeepsDisplaying P editor (editor.viewWillAppear P generated) := by
  unfold viewWillAppear
  cases hnew : editor.isNewCredential with
  | true =>
    refine ⟨_, { password := some generated }, rfl, ⟨rfl, rfl, rfl, rfl, rfl⟩, ?_⟩
    rintro - credential hcredential
    cases hcredential
    rfl
  | false =>
    rw [hnew] at h
    obtain ⟨credential, hcredential, hpassword⟩ := h.resolve_left (by simp)
    simp only [Bool.false_eq_true, ↓reduceIte, hcredential]
    refine ⟨_, credential, rfl, ⟨rfl, rfl, rfl, rfl, hpassword⟩, ?_⟩
    rintro hbutton other hother
    cases hother
    exact hbutton credential hcredential

theorem onRegenerateTapped_keeps {credential : Credential} (generated : String)
    (h : Displays editor credential)
    : KeepsDisplaying P editor (editor.onRegenerateTapped generated) := by
  simp only [onRegenerateTapped, regeneratePassword, modifyCredential, h.credential_eq, bind,
    Except.bind, pure, Except.pure]
  refine ⟨_, { credential with password := some generated }, rfl,
    ⟨rfl, h.username, rfl, h.website, rfl⟩, ?_⟩
  rintro hbutton other hother
  cases hother
  rw [validate_of_password h.hasPassword]
  exact hbutton credential h.credential_eq

theorem changed_keeps (edited : EditCredentialsViewController) {f : Credential → Credential}
    {credential : Credential} (hcredential : edited.credential = some credential)
    (h : Displays
      { edited with
        credential := some (f credential)
        saveButtonIsEnabled := (f credential).validate P
      }
      (f credential))
    : KeepsDisplaying P editor (edited.modifyCredential f >>= validateCredentials P) := by
  simp only [modifyCredential, validateCredentials, hcredential, bind, Except.bind]
  refine ⟨_, f credential, rfl, h, ?_⟩
  rintro - other hother
  cases hother
  rfl

theorem onUsernameChanged_keeps {credential : Credential} (text : String)
    (h : Displays editor credential)
    : KeepsDisplaying P editor (onUsernameChanged P { editor with usernameField := text }) := by
  exact changed_keeps { editor with usernameField := text } h.credential_eq
    ⟨rfl, rfl, h.password, h.website, h.hasPassword⟩

theorem onPasswordChanged_keeps {credential : Credential} (text : String)
    (h : Displays editor credential)
    : KeepsDisplaying P editor (onPasswordChanged P { editor with passwordField := text }) := by
  exact changed_keeps { editor with passwordField := text } h.credential_eq
    ⟨rfl, h.username, rfl, h.website, rfl⟩

theorem onWebsiteChanged_keeps {credential : Credential} (text : String)
    (h : Displays editor credential)
    : KeepsDisplaying P editor (onWebsiteChanged P { editor with websiteField := text }) := by
  exact changed_keeps { editor with websiteField := text } h.credential_eq
    ⟨rfl, h.username, h.password, rfl, h.hasPassword⟩

theorem onSaveButtonPressed_eq {credential : Credential}
    (h : editor.credential = some credential) (user : AuthenticatedUser Nat) (salts : Salts)
    : ∃ credId,
        editor.onSaveButtonPressed P user salts = credential.save P user salts credId := by
  unfold onSaveButtonPressed
  rw [h]
  cases editor.isNewCredential with
  | true => exact ⟨none, rfl⟩
  | false => exact ⟨editor.credId, rfl⟩

theorem savesDisplayed_of_inStep {credential : Credential} (h : InStep P editor credential)
    (henabled : editor.saveButtonIsEnabled = true) : SavesDisplayed P editor := by
  intro user salts
  have hvalid : credential.validate P = true := by rw [← h.button, henabled]
  obtain ⟨username, website, password, rfl, -, -⟩ := Credential.validate_fields hvalid
  have huid : (session user).uidHash P = .ok (P.digest user.uid) := rfl
  obtain ⟨credId, hsave⟩ := onSaveButtonPressed_eq (P := P) h.credential_eq (session user) salts
  rw [hsave, h.username, h.website, h.password]
  obtain ⟨eu, ew, ep, hwrite, heu, hew, hep⟩ := Credential.save_encrypts huid hvalid salts credId
  exact ⟨_, eu, ew, ep, hwrite, heu, hew, hep, rfl⟩

theorem consistent_of_invariant (h : Invariant P editor) : Consistent P editor := by
  obtain ⟨credential, hstep, -⟩ := h
  exact ⟨⟨credential, hstep⟩, savesDisplayed_of_inStep hstep⟩

theorem step_keeps {credential : Credential} (e : Event) (h : Displays editor credential)
    : KeepsDisplaying P editor (step P editor e) := by
  cases e with
  | viewWillAppear generated =>
    exact viewWillAppear_keeps generated (.inr ⟨credential, h.credential_eq, h.hasPassword⟩)
  | usernameEdited text => exact onUsernameChanged_keeps text h
  | passwordEdited text => exact onPasswordChanged_keeps text h
  | websiteEdited text => exact onWebsiteChanged_keeps text h
  | onRegenerateTapped generated => exact onRegenerateTapped_keeps generated h
  | saveTapped user salts =>
    refine ⟨editor, credential, ?_, h, id⟩
    simp only [step]
    split
    . have huid : (session user).uidHash P = .ok (P.digest user.uid) := rfl
      obtain ⟨credId, hsave⟩ :=
        onSaveButtonPressed_eq (P := P) h.credential_eq (session user) salts
      obtain ⟨issued, hissued⟩ := Credential.save_total huid credential salts credId
      rw [hsave, hissued]
      rfl
    . rfl

theorem step_ok (e : Event) (h : Invariant P editor)
    : ∃ editor', step P editor e = .ok editor' ∧ Invariant P editor' := by
  obtain ⟨⟨credential, hdisplays⟩, hbutton⟩ := invariant_iff.mp h
  obtain ⟨editor', credential', hstep, hdisplays', hbutton'⟩ := step_keeps (P := P) e hdisplays
  exact ⟨editor', hstep, invariant_iff.mpr ⟨⟨credential', hdisplays'⟩, hbutton' hbutton⟩⟩

theorem run_ok (events : List Event) (h : Invariant P editor)
    : ∃ editor', Transition.run (step P) editor events = .ok editor' := by
  obtain ⟨editor', hrun, -⟩ := Transition.exists_run_of_step (step P) (A := fun _ => True)
    (fun _ e hinv _ => step_ok e hinv) h (fun _ _ => trivial)
  exact ⟨editor', hrun⟩

/--
From the first appearance of an editor on, whatever the user does, its fields show its credential,
its button tells whether the credential is valid, and a tap on Save writes what is on the screen.
-/
theorem session_consistent (hopened : Opened P editor) (generated : String) (events : List Event)
    : ∃ appeared, editor.viewWillAppear P generated = .ok appeared
        ∧ (∃ last, Transition.run (step P) appeared events = .ok last)
        ∧ Transition.Always (step P) (Consistent P) appeared events := by
  obtain ⟨hcredential, hbutton⟩ : (editor.isNewCredential = true
      ∨ ∃ credential, editor.credential = some credential ∧ credential.password.isSome)
        ∧ ButtonInStep P editor := by
    cases hopened with
    | new => exact ⟨.inl rfl, by simp [ButtonInStep]⟩
    | edit credential credId h =>
      obtain ⟨hvalid, hpassword⟩ := fields_of_wasSaved h
      refine ⟨.inr ⟨credential, rfl, hpassword⟩, ?_⟩
      -- the storyboard leaves the button enabled, and what has been saved is valid
      intro other hother
      cases hother
      exact hvalid.symm
  obtain ⟨appeared, credential, happeared, hdisplays, hkeeps⟩ :=
    viewWillAppear_keeps (P := P) generated hcredential
  have hinv := invariant_iff.mpr ⟨⟨credential, hdisplays⟩, hkeeps hbutton⟩
  refine ⟨appeared, happeared, run_ok events hinv, ?_⟩
  refine Transition.always_mono _ (fun _ => consistent_of_invariant) ?_
  refine Transition.always_of_invariant _ ?_ hinv events
  intro s e t hs ht
  obtain ⟨t', ht', hinv'⟩ := step_ok e hs
  rw [ht] at ht'
  cases ht'
  exact hinv'

theorem session_consistent_saved_entry
    : ∃ appeared,
        viewWillAppear .reference "pw"
            (editFor ⟨some "a@b.co", some "ab.com", some "pw"⟩ "k" {}) = .ok appeared
          ∧ (∃ last, Transition.run (step .reference) appeared
              [.usernameEdited "", .onRegenerateTapped "secret", .viewWillAppear "other"]
                = .ok last)
          ∧ Transition.Always (step .reference) (Consistent .reference) appeared
              [.usernameEdited "", .onRegenerateTapped "secret", .viewWillAppear "other"] := by
  apply session_consistent
  apply Opened.edit
  apply wasSaved_of_validate
  decide +kernel

end EditCredentialsViewController
