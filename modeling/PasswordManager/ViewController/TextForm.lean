import PasswordManager.Platform

/-!
This module contains the forms in which an account is used: login, register and account settings.
All of them watch their text fields in the same way to enable or disable their button.
-/

structure TextForm (Field : Type) where
  text : Field → String := fun _ => ""
  -- `viewDidLoad` disables the button.
  buttonIsEnabled : Bool := false

namespace TextForm

variable {Field : Type} [DecidableEq Field]

def setText (field : Field) (text : String) (self : TextForm Field) : TextForm Field :=
  { self with text := Function.update self.text field text }

-- A text of one character is a space exactly if it is the text that consists of a space.
def isFirstSpace (P : Platform) (text : String) : Bool :=
  P.unicode.clusters text.toList = 1 && text = " "

def editingChanged (P : Platform) (required : List Field) (textField : Field)
    (self : TextForm Field) : TextForm Field :=
  if isFirstSpace P (self.text textField) then
    -- the button stays as it is
    self.setText textField " "
  else
    { self with buttonIsEnabled := required.all (fun field => !(self.text field).isEmpty) }

end TextForm

inductive LoginField where
  | email
  | password
  deriving DecidableEq, Repr

abbrev LoginViewController := TextForm LoginField

def LoginViewController.editingChanged (P : Platform)
    : LoginField → LoginViewController → LoginViewController :=
  TextForm.editingChanged P [.email, .password]

inductive RegisterField where
  | email
  | password
  | passwordConfirm
  deriving DecidableEq, Repr

abbrev RegisterViewController := TextForm RegisterField

def RegisterViewController.editingChanged (P : Platform)
    : RegisterField → RegisterViewController → RegisterViewController :=
  TextForm.editingChanged P [.email, .password, .passwordConfirm]

inductive AccountSettingsField where
  | currentPassword
  | newPassword
  deriving DecidableEq, Repr

abbrev AccountSettingsTableViewController := TextForm AccountSettingsField

def AccountSettingsTableViewController.editingChanged (P : Platform)
    : AccountSettingsField → AccountSettingsTableViewController
        → AccountSettingsTableViewController :=
  TextForm.editingChanged P [.newPassword, .currentPassword]

namespace TextForm

variable {Field : Type} [DecidableEq Field] {P : Platform}

@[simp]
theorem isFirstSpace_iff {text : String} : isFirstSpace P text = true ↔ text = " " := by
  unfold isFirstSpace
  rw [Bool.and_eq_true, decide_eq_true_eq, decide_eq_true_eq]
  constructor
  . exact fun h => h.right
  . rintro rfl
    exact ⟨rfl, rfl⟩

theorem editingChanged_text (required : List Field) (field : Field) (text : String)
    (self : TextForm Field)
    : ((self.setText field text).editingChanged P required field).text
        =
      Function.update self.text field text := by
  unfold editingChanged
  split
  . next hspace =>
    rw [isFirstSpace_iff] at hspace
    simp only [setText, Function.update_self] at hspace ⊢
    rw [hspace, Function.update_idem]
  . rfl

theorem editingChanged_buttonIsEnabled (required : List Field) (field : Field) (text : String)
    (self : TextForm Field)
    : ((self.setText field text).editingChanged P required field).buttonIsEnabled
        =
      if text = " " then
        self.buttonIsEnabled
      else
        required.all (fun other => !(Function.update self.text field text other).isEmpty) := by
  unfold editingChanged
  split
  . next hspace =>
    rw [isFirstSpace_iff] at hspace
    simp only [setText, Function.update_self] at hspace
    rw [if_pos hspace]
    rfl
  . next hspace =>
    rw [isFirstSpace_iff] at hspace
    simp only [setText, Function.update_self] at hspace
    rw [if_neg hspace]
    rfl

def Filled (required : List Field) (self : TextForm Field) : Prop :=
  self.buttonIsEnabled = true → ∀ field ∈ required, self.text field ≠ ""

theorem filled_editingChanged {required : List Field} {self : TextForm Field}
    (h : self.Filled required) (field : Field) (text : String)
    : ((self.setText field text).editingChanged P required field).Filled required := by
  unfold Filled
  rw [editingChanged_text, editingChanged_buttonIsEnabled]
  split
  . next hspace =>
    intro henabled other hother
    by_cases heq : other = field
    . rw [heq, Function.update_self, hspace]
      decide
    . rw [Function.update_of_ne heq]
      exact h henabled other hother
  . intro henabled other hother
    rw [List.all_eq_true] at henabled
    simpa using henabled other hother

end TextForm
