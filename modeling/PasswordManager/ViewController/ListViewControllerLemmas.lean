import PasswordManager.Models.CredentialLemmas
import PasswordManager.ViewController.ListViewController
import Mathlib.Data.List.TakeWhile

theorem List.getElem?_filterMap_of_forall_isSome {α β : Type} {f : α → Option β} {l : List α}
    (h : ∀ a ∈ l, (f a).isSome) (i : Nat) : (l.filterMap f)[i]? = l[i]?.bind f := by
  induction l generalizing i with
  | nil => simp
  | cons a l ih =>
    obtain ⟨b, hb⟩ := Option.isSome_iff_exists.mp (h a (by simp))
    rw [List.filterMap_cons_some hb]
    cases i with
    | zero => simp [hb]
    | succ i =>
      rw [List.getElem?_cons_succ, List.getElem?_cons_succ]
      exact ih (fun a' ha' => h a' (List.mem_cons_of_mem a ha')) i

namespace ListViewController

variable {Observer : Type}

def isRecord (cred : Json) : Bool :=
  cred.asDictionary.isSome

def entryDecryption (P : Platform) (uid : String) (cred : Json) : Option Credential :=
  cred.asDictionary.bind (fun credentialRaw => (rawCredential credentialRaw).decryption P uid)

/--
The entry has all three fields and one that is not base64 is reached by its decryption.
-/
def EntryCrashes (P : Platform) (uid : String) (cred : Json) : Prop :=
  ∃ credentialRaw,
    cred.asDictionary = some credentialRaw ∧ (rawCredential credentialRaw).Crashes P uid

def reached (creds : List (String × Json)) : List (String × Json) :=
  creds.takeWhile (fun entry => isRecord entry.2)

def rebuilt (P : Platform) (uid : String) (creds : List (String × Json)) (self : ListViewController)
    : ListViewController :=
  { self with
    credentials := (reached creds).filterMap (fun entry => entryDecryption P uid entry.2)
    credentialIDs := Dictionary.keys (reached creds)
  }

@[simp]
theorem keyValuePairs_nil : keyValuePairs [] = [] := by
  rfl

@[simp]
theorem keyValuePairs_cons (entry : String × Json) (creds : List (String × Json))
    : keyValuePairs (entry :: creds) = (.string entry.1, entry.2) :: keyValuePairs creds := by
  rfl

@[simp]
theorem showDecryptionError_overlays (window : Window) (thrown : ThrownError)
    : (showDecryptionError window thrown).overlays = window.overlays := by
  unfold showDecryptionError
  split <;> rfl

theorem reached_cons_record {entry : String × Json} (h : isRecord entry.2 = true)
    (creds : List (String × Json)) : reached (entry :: creds) = entry :: reached creds := by
  simp [reached, h]

theorem reached_cons_malformed {entry : String × Json} (h : isRecord entry.2 = false)
    (creds : List (String × Json)) : reached (entry :: creds) = [] := by
  simp [reached, h]

theorem reached_eq_self {creds : List (String × Json)}
    (h : creds.all (fun entry => isRecord entry.2) = true) : reached creds = creds := by
  unfold reached
  rw [List.takeWhile_eq_self_iff]
  exact List.all_eq_true.mp h

theorem entryDecryption_of_not_record {P : Platform} {uid : String} {cred : Json}
    (h : isRecord cred = false) : entryDecryption P uid cred = none := by
  unfold isRecord at h
  unfold entryDecryption
  rw [Option.isSome_eq_false_iff, Option.isNone_iff_eq_none] at h
  rw [h]
  rfl

theorem isRecord_of_decrypts {P : Platform} {uid : String} {cred : Json}
    (h : (entryDecryption P uid cred).isSome) : isRecord cred = true := by
  cases hrecord : isRecord cred with
  | true => rfl
  | false => simp [entryDecryption_of_not_record hrecord] at h

theorem entryCrashes_dictionary {P : Platform} {uid : String} {credentialRaw : List (String × Json)}
    : EntryCrashes P uid (.dictionary credentialRaw)
        ↔
      (rawCredential credentialRaw).Crashes P uid := by
  simp [EntryCrashes, Json.asDictionary]

theorem not_entryCrashes_of_decrypts {P : Platform} {user : AuthenticatedUser Observer}
    {uid : String} (huid : user.uidHash P = .ok uid) {cred : Json}
    (h : (entryDecryption P uid cred).isSome) : ¬ EntryCrashes P uid cred := by
  rintro ⟨credentialRaw, hcred, hcrash⟩
  simp only [entryDecryption, hcred, Option.bind_some] at h
  rcases Credential.decrypt_cases huid (rawCredential credentialRaw)
    with ⟨-, hnone, -⟩ | ⟨hc, -⟩ | ⟨hc, -⟩
  . simp [hnone] at h
  . exact hc hcrash
  . exact hc hcrash

theorem rebuild_ok_iff {P : Platform} {user : AuthenticatedUser Observer} {uid : String}
    (huid : user.uidHash P = .ok uid) (creds : List (String × Json)) (self : ListViewController)
    (window : Window)
    : (∃ result, rebuild P user (keyValuePairs creds) self window = .ok result)
        ↔
      ∀ entry ∈ reached creds, ¬ EntryCrashes P uid entry.2 := by
  induction creds generalizing self window with
  | nil => simp [rebuild, reached]
  | cons entry creds ih =>
    rw [keyValuePairs_cons, rebuild]
    cases hcred : entry.2.asDictionary with
    | none =>
      have hrecord : isRecord entry.2 = false := by simp [isRecord, hcred]
      rw [reached_cons_malformed hrecord]
      simp
    | some credentialRaw =>
      have hrecord : isRecord entry.2 = true := by simp [isRecord, hcred]
      rw [reached_cons_record hrecord]
      have hcrash : EntryCrashes P uid entry.2 ↔ (rawCredential credentialRaw).Crashes P uid := by
        simp [EntryCrashes, hcred]
      simp only [List.mem_cons, forall_eq_or_imp, hcrash, Json.asString]
      rcases Credential.decrypt_cases huid (rawCredential credentialRaw)
        with ⟨hc, -, t, hd⟩ | ⟨hc, -, c, e, hd⟩ | ⟨hc, c, -, hd⟩
      . simp [hd, hc]
      . simp only [hd, hc, not_false_eq_true, true_and]
        apply ih
      . simp only [hd, hc, not_false_eq_true, true_and]
        apply ih

theorem rebuild_eq {P : Platform} {user : AuthenticatedUser Observer} {uid : String}
    (huid : user.uidHash P = .ok uid) (creds : List (String × Json)) (self : ListViewController)
    (window : Window) {finished : Bool} {self' : ListViewController} {window' : Window}
    (h : rebuild P user (keyValuePairs creds) self window = .ok (finished, self', window'))
    : finished = creds.all (fun entry => isRecord entry.2)
        ∧ self' = { self with
            credentials := self.credentials ++ (rebuilt P uid creds self).credentials
            credentialIDs := self.credentialIDs ++ (rebuilt P uid creds self).credentialIDs
          }
        ∧ window'.overlays = window.overlays := by
  induction creds generalizing self window with
  | nil =>
    cases h
    simp [rebuilt, reached]
  | cons entry creds ih =>
    rw [keyValuePairs_cons, rebuild] at h
    cases hcred : entry.2.asDictionary with
    | none =>
      have hrecord : isRecord entry.2 = false := by simp [isRecord, hcred]
      simp only [hcred, Except.ok.injEq, Prod.mk.injEq] at h
      obtain ⟨rfl, rfl, rfl⟩ := h
      simp [rebuilt, reached_cons_malformed hrecord, hrecord]
    | some credentialRaw =>
      have hrecord : isRecord entry.2 = true := by simp [isRecord, hcred]
      have hentry : entryDecryption P uid entry.2
          = (rawCredential credentialRaw).decryption P uid := by
        simp [entryDecryption, hcred]
      simp only [hcred, Json.asString] at h
      rcases Credential.decrypt_cases huid (rawCredential credentialRaw)
        with ⟨-, -, t, hd⟩ | ⟨-, hn, c, e, hd⟩ | ⟨-, c, hs, hd⟩
      . simp [hd] at h
      . -- the entry throws: its key is kept, its credential is not
        simp only [hd] at h
        obtain ⟨hfinished, hself, hwindow⟩ := ih _ _ h
        refine ⟨?_, ?_, ?_⟩
        . simp [hfinished, hrecord]
        . rw [hself]
          simp [rebuilt, reached_cons_record hrecord, hentry, hn]
        . rw [hwindow, showDecryptionError_overlays]
      . simp only [hd] at h
        obtain ⟨hfinished, hself, hwindow⟩ := ih _ _ h
        refine ⟨?_, ?_, hwindow⟩
        . simp [hfinished, hrecord]
        . rw [hself]
          simp [rebuilt, reached_cons_record hrecord, hentry, hs]

theorem onSnapshot_ok_iff {P : Platform} {user : AuthenticatedUser Observer} {uid : String}
    (huid : user.uidHash P = .ok uid) (snapshot : DataSnapshot) (self : ListViewController)
    (window : Window)
    : (∃ result, onSnapshot P user snapshot self window = .ok result)
        ↔
      ∀ entry ∈ reached snapshot.value.entries, ¬ EntryCrashes P uid entry.2 := by
  unfold onSnapshot
  cases hvalue : snapshot.value.asDictionary with
  | none => simp [Json.entries, hvalue, reached]
  | some creds =>
    simp only [Json.entries, hvalue, Option.getD_some]
    rw [← rebuild_ok_iff huid creds { self with credentials := [], credentialIDs := [] } window]
    cases hrebuild : rebuild P user (keyValuePairs creds)
        { self with credentials := [], credentialIDs := [] } window with
    | error trap => simp [bind, Except.bind]
    | ok result =>
      obtain ⟨finished, self', window'⟩ := result
      simp only [bind, Except.bind, Except.ok.injEq, exists_eq', iff_true]
      cases finished <;> simp [pure, Except.pure]

theorem onSnapshot_of_not_dictionary {P : Platform} {user : AuthenticatedUser Observer}
    {snapshot : DataSnapshot} (h : snapshot.value.asDictionary = none) (self : ListViewController)
    (window : Window)
    : onSnapshot P user snapshot self window = .ok (self, window.removeAllBlockingOverlays) := by
  simp [onSnapshot, h]

theorem onSnapshot_of_dictionary {P : Platform} {user : AuthenticatedUser Observer} {uid : String}
    (huid : user.uidHash P = .ok uid) {snapshot : DataSnapshot} {creds : List (String × Json)}
    (hvalue : snapshot.value.asDictionary = some creds) {self self' : ListViewController}
    {window window' : Window}
    (h : onSnapshot P user snapshot self window = .ok (self', window'))
    : (creds.all (fun entry => isRecord entry.2) = true
        ∧ self' = (rebuilt P uid creds self).reloadTable ∧ window'.overlays = [])
      ∨ (creds.all (fun entry => isRecord entry.2) = false
        ∧ self' = rebuilt P uid creds self ∧ window'.overlays = window.overlays) := by
  simp only [onSnapshot, hvalue] at h
  cases hrebuild : rebuild P user (keyValuePairs creds)
      { self with credentials := [], credentialIDs := [] } window with
  | error trap => simp [hrebuild, bind, Except.bind] at h
  | ok result =>
    obtain ⟨finished, list, shown⟩ := result
    obtain ⟨hfinished, hlist, hshown⟩ := rebuild_eq huid creds _ window hrebuild
    have hlist : list = rebuilt P uid creds self := by
      rw [hlist]
      simp [rebuilt]
    simp only [hrebuild, bind, Except.bind] at h
    cases finished with
    | true =>
      simp only [↓reduceIte, pure, Except.pure, Except.ok.injEq, Prod.mk.injEq] at h
      obtain ⟨rfl, rfl⟩ := h
      left
      rw [hlist]
      exact ⟨hfinished.symm, rfl, rfl⟩
    | false =>
      simp only [Bool.false_eq_true, ↓reduceIte, pure, Except.pure, Except.ok.injEq,
        Prod.mk.injEq] at h
      obtain ⟨rfl, rfl⟩ := h
      right
      exact ⟨hfinished.symm, hlist, hshown⟩

theorem onSnapshot_overlays {P : Platform} {user : AuthenticatedUser Observer} {uid : String}
    (huid : user.uidHash P = .ok uid) {snapshot : DataSnapshot} {self self' : ListViewController}
    {window window' : Window} (h : onSnapshot P user snapshot self window = .ok (self', window'))
    : window'.overlays
        =
      if snapshot.value.entries.all (fun entry => isRecord entry.2) then
        []
      else
        window.overlays := by
  cases hvalue : snapshot.value.asDictionary with
  | none =>
    rw [onSnapshot_of_not_dictionary hvalue] at h
    cases h
    simp [Json.entries, hvalue]
  | some creds =>
    have hentries : snapshot.value.entries = creds := by simp [Json.entries, hvalue]
    rw [hentries]
    rcases onSnapshot_of_dictionary huid hvalue h with ⟨hall, -, hoverlays⟩ | ⟨hall, -, hoverlays⟩
    . rw [hall, hoverlays]
      rfl
    . -- the completion has returned early, all overlays are still there
      rw [hall, hoverlays]
      rfl

theorem onSnapshot_keeps {P : Platform} {user : AuthenticatedUser Observer} {uid : String}
    (huid : user.uidHash P = .ok uid) {snapshot : DataSnapshot} {self self' : ListViewController}
    {window window' : Window} (h : onSnapshot P user snapshot self window = .ok (self', window'))
    : self'.isSetUp = self.isSetUp ∧ self'.observerId = self.observerId := by
  cases hvalue : snapshot.value.asDictionary with
  | none =>
    rw [onSnapshot_of_not_dictionary hvalue] at h
    cases h
    exact ⟨rfl, rfl⟩
  | some creds =>
    rcases onSnapshot_of_dictionary huid hvalue h with ⟨-, rfl, -⟩ | ⟨-, rfl, -⟩
    . exact ⟨rfl, rfl⟩
    . exact ⟨rfl, rfl⟩

theorem elementAt_ok_iff {α : Type} {xs : List α} {row : Nat} {x : α}
    : elementAt xs row = .ok x ↔ xs[row]? = some x := by
  simp only [elementAt]
  cases xs[row]? with
  | none => simp
  | some y => simp

end ListViewController
