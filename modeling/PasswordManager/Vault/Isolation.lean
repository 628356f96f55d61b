import PasswordManager.Vault.Refinement

/-!
This module contains the database together with the devices that save to it and reload from it, and
the proof that the users of different devices do not get in each other's way.
-/

structure Screen where
  list : ListViewController := {}
  window : Window := {}

/--
What happens at a device. A reload gets to see the subtree of its user in the form of a snapshot,
`listing` is the order in which that enumerates the keys.
-/
inductive DeviceEvent where
  | save (device : Nat) (credId : Option String) (credential : Credential) (salts : Salts)
  | reload (device : Nat) (listing : Json → DataSnapshot)

def DeviceEvent.device : DeviceEvent → Nat
  | .save device _ _ _ => device
  | .reload device _ => device

-- A device whose app has been terminated shows nothing any more.
structure Network where
  db : Json
  screens : Nat → Except Trap Screen

namespace Network

variable (P : Platform) (owner : Nat → User)

def session (device : Nat) : AuthenticatedUser Nat :=
  { observers := [], user := some (owner device) }

def reload (db : Json) (device : Nat) (listing : Json → DataSnapshot) (screen : Screen)
    : Except Trap Screen := do
  let path ← (session owner device).dbCredentialsPath P
  let snapshot := listing (db.get (Json.pathPieces path))
  let (list, window) ← screen.list.onSnapshot P (session owner device) snapshot screen.window
  return { list, window }

def stop (net : Network) (device : Nat) (trap : Trap) : Network :=
  { net with screens := Function.update net.screens device (.error trap) }

def step (net : Network) : DeviceEvent → Network
  | .save device credId credential salts =>
    match net.screens device with
    | .error _ => net
    | .ok _ =>
      match credential.save P (session owner device) salts credId with
      | .error trap => net.stop device trap
      | .ok none => net
      | .ok (some write) => { net with db := Vault.setValue net.db write }
  | .reload device listing =>
    match net.screens device with
    | .error _ => net
    | .ok screen =>
      { net with
        screens := Function.update net.screens device (reload P owner net.db device listing screen)
      }

def run (net : Network) (events : List DeviceEvent) : Network :=
  events.foldl (step P owner) net

def of (user : User) (e : DeviceEvent) : Bool :=
  owner e.device = user

structure LooksTheSame (user : User) (net net' : Network) : Prop where
  subtree : net.db.get ["Credentials", P.digest user.uid]
    = net'.db.get ["Credentials", P.digest user.uid]
  screens : ∀ device, owner device = user → net.screens device = net'.screens device

variable {P} {owner} {net net' : Network} {user : User}

theorem pathPieces_of_save {device : Nat} {credId : Option String} {credential : Credential}
    {salts : Salts} {write : Write}
    (h : credential.save P (session owner device) salts credId = .ok (some write))
    : ∃ rest, Json.pathPieces write.path
        = ["Credentials", P.digest (owner device).uid] ++ rest := by
  obtain ⟨-, uid, username, website, password, huid, -, hpath⟩ := Credential.save_eq_some h
  cases huid
  have hpieces (key : String)
      : Json.pathPieces ("Credentials/" ++ P.digest (owner device).uid ++ "/" ++ key)
          =
        ["Credentials", P.digest (owner device).uid] ++ Json.pathPieces key := by
    have hsplit : "Credentials/" ++ P.digest (owner device).uid ++ "/" ++ key
        = "Credentials" ++ "/" ++ (P.digest (owner device).uid ++ "/" ++ key) := by
      simp [← String.toList_inj]
    rw [hsplit, Json.pathPieces_cons (by decide) (by decide),
      Json.pathPieces_cons (P.digest_ne_empty _) (P.digest_not_slash _)]
    rfl
  rw [hpath]
  cases credId with
  | none => exact ⟨_, hpieces _⟩
  | some credId => exact ⟨_, hpieces _⟩

theorem dbCredentialsPath_session (device : Nat)
    : (session owner device).dbCredentialsPath P
        =
      .ok ("Credentials/" ++ P.digest (owner device).uid) := by
  rfl

theorem looksTheSame_refl (net : Network) : LooksTheSame P owner user net net := by
  constructor
  . rfl
  . intro _ _
    rfl

theorem looksTheSame_update {device : Nat} (h : LooksTheSame P owner user net net')
    (screen : Except Trap Screen)
    : LooksTheSame P owner user
        { net with screens := Function.update net.screens device screen }
        { net' with screens := Function.update net'.screens device screen } := by
  refine ⟨h.subtree, ?_⟩
  intro other hother
  by_cases heq : other = device
  . subst heq
    simp
  . simp [heq, h.screens other hother]

theorem looksTheSame_update_other {device : Nat} (h : LooksTheSame P owner user net net')
    (hdevice : owner device ≠ user) (screen : Except Trap Screen)
    : LooksTheSame P owner user
        { net with screens := Function.update net.screens device screen } net' := by
  refine ⟨h.subtree, ?_⟩
  intro other hother
  have hne : other ≠ device := by
    rintro rfl
    exact hdevice hother
  simp [hne, h.screens other hother]

theorem reload_congr (h : LooksTheSame P owner user net net') {device : Nat}
    (howner : owner device = user) (listing : Json → DataSnapshot) (screen : Screen)
    : reload P owner net.db device listing screen
        =
      reload P owner net'.db device listing screen := by
  have hpath : Json.pathPieces ("Credentials/" ++ P.digest (owner device).uid)
      = ["Credentials", P.digest user.uid] := by
    rw [howner]
    exact Vault.pathPieces_subtree (P.digest_ne_empty _) (P.digest_not_slash _)
  simp only [reload, dbCredentialsPath_session, bind, Except.bind, hpath, h.subtree]

theorem looksTheSame_own_step (e : DeviceEvent) (he : owner e.device = user)
    (h : LooksTheSame P owner user net net')
    : LooksTheSame P owner user (net.step P owner e) (net'.step P owner e) := by
  cases e with
  | save device credId credential salts =>
    simp only [step, ← h.screens device he]
    split
    . exact h
    . split
      . exact looksTheSame_update h _
      . exact h
      . next write hsave =>
        obtain ⟨rest, hpieces⟩ := pathPieces_of_save hsave
        refine ⟨?_, h.screens⟩
        have hown : owner device = user := he
        rw [hown] at hpieces
        simp only [Vault.setValue, hpieces, Json.get_set_append, h.subtree]
  | reload device listing =>
    have hown : owner device = user := he
    simp only [step, ← h.screens device he]
    split
    . exact h
    . rw [reload_congr h hown]
      exact looksTheSame_update h _

theorem looksTheSame_other_step (e : DeviceEvent)
    (he : P.digest (owner e.device).uid ≠ P.digest user.uid)
    (h : LooksTheSame P owner user net net')
    : LooksTheSame P owner user (net.step P owner e) net' := by
  have hdevice : owner e.device ≠ user := by
    intro heq
    exact he (by rw [heq])
  cases e with
  | save device credId credential salts =>
    simp only [step]
    split
    . exact h
    . split
      . exact looksTheSame_update_other h hdevice _
      . exact h
      . next write hsave =>
        obtain ⟨rest, hpieces⟩ := pathPieces_of_save hsave
        refine ⟨?_, h.screens⟩
        -- the two paths part at the hash of the uid
        have hframe := Json.get_set_of_ne (Ne.symm he) ["Credentials"] [] rest write.value net.db
        simp only [Vault.setValue, hpieces, List.cons_append, List.nil_append] at hframe ⊢
        rw [← h.subtree]
        exact hframe
  | reload device listing =>
    simp only [step]
    split
    . exact h
    . exact looksTheSame_update_other h hdevice _

theorem looksTheSame_erased {events : List DeviceEvent}
    (h : ∀ e ∈ events, owner e.device = user
      ∨ P.digest (owner e.device).uid ≠ P.digest user.uid) (net : Network)
    : LooksTheSame P owner user (net.run P owner events)
        (net.run P owner (events.filter (of owner user))) := by
  apply Transition.foldl_erases
  . intro s t e hvisible hst
    exact looksTheSame_own_step e (by simpa [of] using hvisible) hst
  . intro s t e hmem hhidden hst
    apply looksTheSame_other_step e _ hst
    exact (h e hmem).resolve_left (by simpa [of] using hhidden)
  . exact looksTheSame_refl net

/--
However the saves and reloads of two users with different hashes interleave, the lists of each user
are at any time as if the other user had done nothing.
-/
theorem users_do_not_interfere (P : Platform) (owner : Nat → User) {a b : User}
    (hab : P.digest a.uid ≠ P.digest b.uid) {events : List DeviceEvent}
    (howner : ∀ e ∈ events, owner e.device = a ∨ owner e.device = b) (net : Network) (device : Nat)
    : (owner device = a → (net.run P owner events).screens device
          = (net.run P owner (events.filter (of owner a))).screens device)
        ∧ (owner device = b → (net.run P owner events).screens device
          = (net.run P owner (events.filter (of owner b))).screens device) := by
  constructor
  . apply (looksTheSame_erased _ net).screens
    intro e he
    rcases howner e he with heq | heq
    . exact .inl heq
    . right
      rw [heq]
      exact hab.symm
  . apply (looksTheSame_erased _ net).screens
    intro e he
    rcases howner e he with heq | heq
    . right
      rw [heq]
      exact hab
    . exact .inl heq

def inStoredOrder (node : Json) : DataSnapshot :=
  if h : (Dictionary.keys node.entries).Nodup then
    { value := node, nodup := h }
  else
    { value := .null, nodup := List.nodup_nil }

def referenceOwner (device : Nat) : User :=
  if device = 0 then ⟨"u"⟩ else ⟨"v"⟩

def referenceEvents : List DeviceEvent :=
  [.save 1 none ⟨some "a@b.co", some "ab.com", some "pw"⟩ ⟨[], [], []⟩, .reload 0 inStoredOrder]

theorem users_do_not_interfere_two_devices
    : (run .reference referenceOwner { db := .null, screens := fun _ => .ok {} }
          referenceEvents).screens 0
        =
      (run .reference referenceOwner { db := .null, screens := fun _ => .ok {} }
          (referenceEvents.filter (of referenceOwner ⟨"u"⟩))).screens 0 := by
  have howner : ∀ e ∈ referenceEvents,
      referenceOwner e.device = ⟨"u"⟩ ∨ referenceOwner e.device = ⟨"v"⟩ := by
    simp [referenceEvents, referenceOwner, DeviceEvent.device]
  have h := users_do_not_interfere .reference referenceOwner (by decide +kernel) howner
    { db := .null, screens := fun _ => .ok {} } 0
  exact h.left rfl

end Network
