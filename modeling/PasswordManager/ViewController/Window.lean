import Mathlib.Data.List.Basic

/-!
This module contains the part of the main window that the app controls: blocking overlays, which
keep the user from touching anything, and alerts.
-/

structure Alert where
  title : String
  subTitle : String
  deriving DecidableEq, Repr

structure Window where
  overlays : List String := []
  alerts : List Alert := []
  deriving DecidableEq, Repr

namespace Window

def showBlockingWaitOverlayWithText (self : Window) (text : String) : Window :=
  { self with overlays := self.overlays ++ [text] }

def removeAllBlockingOverlays (self : Window) : Window :=
  { self with overlays := [] }

def showAlert (self : Window) (title subTitle : String) : Window :=
  { self with alerts := self.alerts ++ [⟨title, subTitle⟩] }

@[simp]
theorem showBlockingWaitOverlayWithText_overlays (self : Window) (text : String)
    : (self.showBlockingWaitOverlayWithText text).overlays = self.overlays ++ [text] := by
  rfl

@[simp]
theorem removeAllBlockingOverlays_overlays (self : Window)
    : self.removeAllBlockingOverlays.overlays = [] := by
  rfl

@[simp]
theorem showAlert_overlays (self : Window) (title subTitle : String)
    : (self.showAlert title subTitle).overlays = self.overlays := by
  rfl

end Window
