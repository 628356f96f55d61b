import PasswordManager.Platform.Reference
import PasswordManager.Transition.Basic
import PasswordManager.ViewController.TextForm

/-!
This module contains the forms as machines that are driven by the edits of their fields, and when
the button of a form tells whether its fields are filled.
-/

namespace TextForm

variable {Field : Type} [DecidableEq Field]

def edit (editingChanged : Field → TextForm Field → TextForm Field) (self : TextForm Field)
    (change : Field × String) : Except Trap (TextForm Field) :=
  .ok (editingChanged change.1 (self.setText change.1 change.2))

def ButtonFollowsFields (self : TextForm Field) : Prop :=
  self.buttonIsEnabled = true ↔ ∀ field, self.text field ≠ ""

structure SpaceFillsLast (form : TextForm Field) (change : Field × String) : Prop where
  space : change.2 = " "
  empty : form.text change.1 = ""
  others : ∀ other, other ≠ change.1 → form.text other ≠ ""

/--
The button follows the fields in all states of a run exactly if no edit of the run fills the last
field with a space, and after such runs the button is determined by the texts.
-/
structure ButtonRule (editingChanged : Field → TextForm Field → TextForm Field) : Prop where
  follows : ∀ edits,
    Transition.Always (edit editingChanged) ButtonFollowsFields {} edits
      ↔
    Transition.Meets (edit editingChanged) (fun self change => ¬ self.SpaceFillsLast change) {}
      edits
  same : ∀ edits edits' self self',
    Transition.Meets (edit editingChanged) (fun self change => ¬ self.SpaceFillsLast change) {}
        edits
      → Transition.Meets (edit editingChanged)
          (fun self change => ¬ self.SpaceFillsLast change) {} edits'
      → Transition.run (edit editingChanged) {} edits = .ok self
      → Transition.run (edit editingChanged) {} edits' = .ok self'
      → self.text = self'.text
      → self.buttonIsEnabled = self'.buttonIsEnabled

variable {P : Platform} {required : List Field}

theorem filled_update_space_iff {self : TextForm Field} {field : Field}
    : (∀ other, Function.update self.text field " " other ≠ "")
        ↔
      ∀ other, other ≠ field → self.text other ≠ "" := by
  constructor
  . intro h other hne
    rw [← Function.update_of_ne hne " " self.text]
    exact h other
  . intro h other
    by_cases heq : other = field
    . rw [heq, Function.update_self]
      decide
    . rw [Function.update_of_ne heq]
      exact h other heq

theorem editingChanged_follows_iff (hrequired : ∀ field, field ∈ required)
    {self : TextForm Field} (h : self.ButtonFollowsFields) (field : Field) (text : String)
    : ((self.setText field text).editingChanged P required field).ButtonFollowsFields
        ↔
      ¬ self.SpaceFillsLast (field, text) := by
  unfold ButtonFollowsFields at h ⊢
  rw [editingChanged_text, editingChanged_buttonIsEnabled]
  split
  . next hspace =>
    subst hspace
    rw [filled_update_space_iff, h]
    constructor
    . intro hfollows hlast
      exact hfollows.mpr hlast.others field hlast.empty
    . intro hlast
      constructor
      . exact fun hall other _ => hall other
      . intro hothers other
        by_cases heq : other = field
        . subst heq
          exact fun hempty => hlast ⟨rfl, hempty, hothers⟩
        . exact hothers other heq
  . next hspace =>
    have hlast : ¬ self.SpaceFillsLast (field, text) := fun hlast => hspace hlast.space
    simp [hlast, hrequired]

theorem always_follows_iff (hrequired : ∀ field, field ∈ required) {self : TextForm Field}
    (h : self.ButtonFollowsFields) (edits : List (Field × String))
    : Transition.Always (edit (editingChanged P required)) ButtonFollowsFields self edits
        ↔
      Transition.Meets (edit (editingChanged P required))
        (fun self change => ¬ self.SpaceFillsLast change) self edits := by
  apply Transition.always_iff_meets (I := fun _ => True)
  . exact fun _ _ _ _ _ => trivial
  . rintro self ⟨field, text⟩ self' - hfollows hedit
    cases hedit
    exact editingChanged_follows_iff hrequired hfollows field text
  . trivial
  . exact h

theorem buttonRule_of_required [Nonempty Field] (hrequired : ∀ field, field ∈ required)
    : ButtonRule (editingChanged P required) where
  follows edits := by
    apply always_follows_iff hrequired
    simp [ButtonFollowsFields]
  same edits edits' self self' hmeets hmeets' hrun hrun' htext := by
    have hinit : ({} : TextForm Field).ButtonFollowsFields := by simp [ButtonFollowsFields]
    have hself := (always_follows_iff hrequired hinit edits).mpr hmeets edits self
      List.prefix_rfl hrun
    have hself' := (always_follows_iff hrequired hinit edits').mpr hmeets' edits' self'
      List.prefix_rfl hrun'
    unfold ButtonFollowsFields at hself hself'
    rw [Bool.eq_iff_iff, hself, hself', htext]

/--
In each of the three forms the button tells whether the fields are filled exactly as long as the
last empty field is not filled with a single space.
-/
theorem button_follows_fields_iff (P : Platform)
    : ButtonRule (LoginViewController.editingChanged P)
        ∧ ButtonRule (RegisterViewController.editingChanged P)
        ∧ ButtonRule (AccountSettingsTableViewController.editingChanged P) := by
  refine ⟨?_, ?_, ?_⟩
  . have : Nonempty LoginField := ⟨.email⟩
    apply buttonRule_of_required
    intro field
    cases field <;> decide
  . have : Nonempty RegisterField := ⟨.email⟩
    apply buttonRule_of_required
    intro field
    cases field <;> decide
  . have : Nonempty AccountSettingsField := ⟨.newPassword⟩
    apply buttonRule_of_required
    intro field
    cases field <;> decide

theorem last_space_leaves_button_disabled
    : ¬ Transition.Always (edit (LoginViewController.editingChanged .reference))
          ButtonFollowsFields {} [(.password, "x"), (.email, " ")]
        ∧ ∃ self self',
          Transition.run (edit (LoginViewController.editingChanged .reference)) {}
              [(.password, "x"), (.email, " ")] = .ok self
            ∧ Transition.run (edit (LoginViewController.editingChanged .reference)) {}
              [(.email, " "), (.password, "x")] = .ok self'
            ∧ self.text = self'.text
            ∧ self.buttonIsEnabled ≠ self'.buttonIsEnabled := by
  constructor
  . apply Transition.not_always_of_run _
      (fun self => (self.buttonIsEnabled, self.text .email, self.text .password))
      (b := (false, " ", "x"))
    . decide +kernel
    . rintro self heq hfollows
      simp only [Prod.mk.injEq] at heq
      obtain ⟨hbutton, hemail, hpassword⟩ := heq
      have hfilled : ∀ field, self.text field ≠ "" := by
        intro field
        cases field with
        | email =>
          rw [hemail]
          decide
        | password =>
          rw [hpassword]
          decide
      rw [hfollows.mpr hfilled] at hbutton
      cases hbutton
  . refine ⟨_, _, rfl, rfl, ?_, ?_⟩
    . funext field
      cases field <;> decide +kernel
    . decide +kernel

end TextForm
