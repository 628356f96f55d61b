import PasswordManager.Lists.Basic
import PasswordManager.Vault.Refinement

/-!
This module contains the keys under which new credentials are written, and when they keep different
credentials apart.
-/

namespace Vault

/--
The username of the second pair is the one of the first pair and a piece of its website.
-/
def Overlaps (u w u' w' : String) : Prop :=
  ∃ t, u' = u ++ "+" ++ t ∧ w = t ++ "+" ++ w'

theorem overlaps_iff_toList {u w u' w' : String}
    : Overlaps u w u' w'
        ↔
      ∃ t, u'.toList = u.toList ++ '+' :: t ∧ w.toList = t ++ '+' :: w'.toList := by
  constructor
  . rintro ⟨t, rfl, rfl⟩
    exact ⟨t.toList, by simp, by simp⟩
  . rintro ⟨t, hu, hw⟩
    refine ⟨String.ofList t, ?_, ?_⟩
    . rw [← String.toList_inj]
      simp [hu]
    . rw [← String.toList_inj]
      simp [hw]

theorem key_text_eq_iff {u w u' w' : String}
    : u ++ "+" ++ w = u' ++ "+" ++ w'
        ↔
      (u, w) = (u', w') ∨ Overlaps u w u' w' ∨ Overlaps u' w' u w := by
  rw [← String.toList_inj, overlaps_iff_toList, overlaps_iff_toList]
  simp only [String.toList_append, List.append_assoc]
  rw [Prod.mk.injEq, ← String.toList_inj, ← String.toList_inj]
  exact List.append_cons_eq_append_cons_iff

/--
Two valid credentials with different pairs are written under different keys exactly if neither pair
overlaps the other.
-/
theorem new_saves_separate_iff {P : Platform} {Observer : Type} {user : AuthenticatedUser Observer}
    {uid : String} (huid : user.uidHash P = .ok uid) {u w p u' w' p' : String}
    (hvalid : Credential.validate P ⟨some u, some w, some p⟩ = true)
    (hvalid' : Credential.validate P ⟨some u', some w', some p'⟩ = true)
    (hpair : (u, w) ≠ (u', w'))
    (hdigest : P.digest (u ++ "+" ++ w) = P.digest (u' ++ "+" ++ w')
      → u ++ "+" ++ w = u' ++ "+" ++ w')
    (salts salts' : Salts)
    : ∃ write write',
        Credential.save P user salts none ⟨some u, some w, some p⟩ = .ok (some write)
          ∧ Credential.save P user salts' none ⟨some u', some w', some p'⟩ = .ok (some write')
          ∧ (write.path ≠ write'.path ↔ ¬ Overlaps u w u' w' ∧ ¬ Overlaps u' w' u w) := by
  obtain ⟨_, _, _, hsave, -⟩ := Credential.save_of_validate huid hvalid salts none
  obtain ⟨_, _, _, hsave', -⟩ := Credential.save_of_validate huid hvalid' salts' none
  refine ⟨_, _, hsave, hsave', ?_⟩
  have hpath : Credential.dbPath P uid none u w = Credential.dbPath P uid none u' w'
      ↔ u ++ "+" ++ w = u' ++ "+" ++ w' := by
    unfold Credential.dbPath Credential.credHash
    rw [String.append_right_inj]
    exact ⟨hdigest, fun h => by rw [h]⟩
  rw [← not_or, not_iff_not, hpath, key_text_eq_iff]
  simp only [hpair, false_or]

theorem not_overlaps_self (u w w' : String) : ¬ Overlaps u w u w' := by
  rintro ⟨t, hu, -⟩
  have hlength := congrArg String.length hu
  have hplus : "+".length = 1 := by decide
  simp only [String.length_append] at hlength
  omega

theorem new_saves_separate_two_sites
    : ∃ write write',
        Credential.save .reference (referenceCall none "" "").user ⟨[], [], []⟩ none
            ⟨some "a@b.co", some "xx.com", some "p"⟩ = .ok (some write)
          ∧ Credential.save .reference (referenceCall none "" "").user ⟨[], [], []⟩ none
            ⟨some "a@b.co", some "yy.com", some "q"⟩ = .ok (some write')
          ∧ write.path ≠ write'.path := by
  have hvalid : Credential.validate .reference ⟨some "a@b.co", some "xx.com", some "p"⟩
      = true := by
    decide +kernel
  have hvalid' : Credential.validate .reference ⟨some "a@b.co", some "yy.com", some "q"⟩
      = true := by
    decide +kernel
  have hdigest : Platform.reference.digest ("a@b.co" ++ "+" ++ "xx.com")
      ≠ Platform.reference.digest ("a@b.co" ++ "+" ++ "yy.com") := by
    decide +kernel
  obtain ⟨write, write', hsave, hsave', hiff⟩ := new_saves_separate_iff
    (referenceCall_uidHash none "" "") hvalid hvalid' (by decide) (fun h => (hdigest h).elim)
    ⟨[], [], []⟩ ⟨[], [], []⟩
  refine ⟨write, write', hsave, hsave', hiff.mpr ⟨?_, ?_⟩⟩
  . apply not_overlaps_self
  . apply not_overlaps_self

theorem overlapping_pairs_share_key
    : ∃ write write',
        ("a@b.co", "xx+yy.com") ≠ ("a@b.co+xx", "yy.com")
          ∧ Credential.validate .reference ⟨some "a@b.co", some "xx+yy.com", some "p"⟩ = true
          ∧ Credential.validate .reference ⟨some "a@b.co+xx", some "yy.com", some "q"⟩ = true
          ∧ Credential.save .reference (referenceCall none "" "").user ⟨[], [], []⟩ none
            ⟨some "a@b.co", some "xx+yy.com", some "p"⟩ = .ok (some write)
          ∧ Credential.save .reference (referenceCall none "" "").user ⟨[], [], []⟩ none
            ⟨some "a@b.co+xx", some "yy.com", some "q"⟩ = .ok (some write')
          ∧ write.path = write'.path := by
  have hvalid : Credential.validate .reference ⟨some "a@b.co", some "xx+yy.com", some "p"⟩
      = true := by
    decide +kernel
  have hvalid' : Credential.validate .reference ⟨some "a@b.co+xx", some "yy.com", some "q"⟩
      = true := by
    decide +kernel
  obtain ⟨_, _, _, hsave, -⟩ := Credential.save_of_validate
    (referenceCall_uidHash none "" "") hvalid ⟨[], [], []⟩ none
  obtain ⟨_, _, _, hsave', -⟩ := Credential.save_of_validate
    (referenceCall_uidHash none "" "") hvalid' ⟨[], [], []⟩ none
  have htext : "a@b.co" ++ "+" ++ "xx+yy.com" = "a@b.co+xx" ++ "+" ++ "yy.com" := by decide
  refine ⟨_, _, by decide, hvalid, hvalid', hsave, hsave', ?_⟩
  unfold Credential.dbPath Credential.credHash
  rw [htext]

end Vault
