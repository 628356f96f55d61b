import PasswordManager.App.Queries

/-!
This module contains the relation between the number of rows that the table of a list knows and the
arrays that back them, along every run of the app.
-/

namespace App

variable (P : Platform) (list : Nat)

def RowsInRange (app : App) : Prop :=
  (app.lists list).tableView.rows ≤ (app.lists list).credentials.length
    ∧ (app.lists list).tableView.rows ≤ (app.lists list).credentialIDs.length

def RowsUsable (app : App) : Prop :=
  ∀ row < (app.lists list).tableView.rows,
    (∃ cell, (app.lists list).cellForRowAt row = .ok cell)
      ∧ ∀ blank, ∃ editor, ((app.lists list).didSelectRowAt row).prepareForSegue blank = .ok editor

/--
The condition on a step: a list appears only while its table has no rows, and a dictionary with an
entry that is no record comes only while the table has no more rows than there are entries in front
of it that decrypt.
-/
def KeepsRowsInRange (app : App) : Event → Prop
  | .viewWillAppear other _ => other = list → (app.lists list).tableView.rows = 0
  | .complete index (.snapshot snapshot) =>
    ∀ path, app.pending[index]? = some (.observeSingleEvent list path)
      → ∀ creds, snapshot.value.asDictionary = some creds
      → creds.all (fun entry => ListViewController.isRecord entry.2) = true
        ∨ ∀ uid, app.authenticatedUser.uidHash P = .ok uid
            → (app.lists list).tableView.rows
              ≤ ((ListViewController.reached creds).filterMap
                  (fun entry => ListViewController.entryDecryption P uid entry.2)).length
  | _ => True

variable {P list}

theorem rowsUsable_of_inRange {app : App} (h : app.RowsInRange list) : app.RowsUsable list := by
  intro row hrow
  have hcredential : row < (app.lists list).credentials.length := Nat.lt_of_lt_of_le hrow h.left
  have hcredId : row < (app.lists list).credentialIDs.length := Nat.lt_of_lt_of_le hrow h.right
  constructor
  . simp [ListViewController.cellForRowAt, hcredential]
  . intro blank
    have hat := ListViewController.elementAt_ok_iff.mpr (List.getElem?_eq_getElem hcredential)
    have hat' := ListViewController.elementAt_ok_iff.mpr (List.getElem?_eq_getElem hcredId)
    simp only [ListViewController.prepareForSegue, ListViewController.didSelectRowAt, hat, hat',
      bind, Except.bind]
    exact ⟨_, rfl⟩

theorem keepsRowsInRange_of_not_concerns {app : App} {e : Event} (h : ¬ app.concerns list e)
    : app.KeepsRowsInRange P list e := by
  unfold KeepsRowsInRange
  split
  . intro heq
    exact (h heq).elim
  . intro path hrequest
    exact (h ⟨path, hrequest⟩).elim
  . trivial

theorem rebuilt_length_le (uid : String) (creds : List (String × Json)) (self : ListViewController)
    : (ListViewController.rebuilt P uid creds self).credentials.length
        ≤ (ListViewController.rebuilt P uid creds self).credentialIDs.length := by
  simp only [ListViewController.rebuilt, Dictionary.keys, List.length_map]
  exact List.length_filterMap_le _ _

theorem step_rowsInRange_iff {app app' : App} {e : Event} (hqueries : app.QueriesHaveUser)
    (hrows : app.RowsInRange list) (h : app.step P e = .ok app')
    : app'.RowsInRange list ↔ app.KeepsRowsInRange P list e := by
  by_cases hconcerns : app.concerns list e
  . rcases concerns_cases hconcerns
      with ⟨uuid, rfl⟩ | rfl | ⟨index, path, snapshot, rfl, hrequest⟩
    . -- viewWillAppear
      have hlists := lists_of_viewWillAppear h
      unfold RowsInRange
      rw [hlists]
      simp only [List.length_nil, Nat.le_zero_eq, KeepsRowsInRange, true_implies]
      exact ⟨fun h => h.left, fun h => ⟨h, hrows.right⟩⟩
    . -- viewWillDisappear
      have hlists := lists_of_viewWillDisappear h
      unfold RowsInRange
      rw [hlists]
      exact ⟨fun _ => trivial, fun _ => hrows⟩
    . -- a snapshot for the list
      obtain ⟨uid, huid⟩ := uidHash_of_query (P := P) hqueries hrequest
      have hsnapshot := lists_of_snapshot hrequest h
      cases hvalue : snapshot.value.asDictionary with
      | none =>
        rw [ListViewController.onSnapshot_of_not_dictionary hvalue] at hsnapshot
        have hlists : app.lists list = app'.lists list :=
          congrArg Prod.fst (Except.ok.inj hsnapshot)
        unfold RowsInRange
        rw [← hlists]
        simp only [KeepsRowsInRange, hvalue, reduceCtorEq, false_implies, implies_true, iff_true]
        exact hrows
      | some creds =>
        have hle := rebuilt_length_le (P := P) uid creds (app.lists list)
        rcases ListViewController.onSnapshot_of_dictionary huid hvalue hsnapshot
          with ⟨hall, hlist, -⟩ | ⟨hall, hlist, -⟩
        . -- the table is reloaded and knows the new number of credentials
          unfold RowsInRange
          rw [hlist]
          simp only [KeepsRowsInRange, hvalue, Option.some.injEq, forall_eq', hall, true_or,
            implies_true, iff_true]
          exact ⟨Nat.le_refl _, hle⟩
        . -- the completion has returned early, the table keeps its old number of rows
          unfold RowsInRange
          rw [hlist]
          simp only [KeepsRowsInRange, hrequest, hvalue, Option.some.injEq, forall_eq', hall,
            Bool.false_eq_true, false_or, huid, Except.ok.injEq,
            Request.observeSingleEvent.injEq, true_and]
          exact ⟨fun h => h.left, fun h => ⟨h, Nat.le_trans h hle⟩⟩
  . have hlists := (step_frame h).lists list hconcerns
    unfold RowsInRange
    rw [hlists]
    exact ⟨fun _ => keepsRowsInRange_of_not_concerns hconcerns, fun _ => hrows⟩

theorem table_rows_in_range_iff (P : Platform) (list : Nat) (currentUser : Option User)
    (events : List Event)
    : Transition.Always (step P) (fun app => app.RowsInRange list ∧ app.RowsUsable list)
          (launch currentUser) events
        ↔
      Transition.Meets (step P) (fun app e => app.KeepsRowsInRange P list e) (launch currentUser)
        events := by
  apply Transition.always_iff_meets (I := QueriesHaveUser)
  . intro app e app' hqueries h
    exact step_queriesHaveUser h hqueries
  . intro app e app' hqueries hrows h
    rw [← step_rowsInRange_iff hqueries hrows.left h]
    exact ⟨fun h => h.left, fun h => ⟨h, rowsUsable_of_inRange h⟩⟩
  . exact launch_queriesHaveUser currentUser
  . have hrows : (launch currentUser).RowsInRange list := by simp [RowsInRange, launch]
    exact ⟨hrows, rowsUsable_of_inRange hrows⟩

def oneGoodEntry : DataSnapshot where
  value := .dictionary [("a", Credential.referenceRecord "u" "me@x.co" "xx.com" "pw")]
  nodup := by decide

theorem reappearing_list_out_of_range
    : ¬ Transition.Always (step .reference) (fun app => app.RowsInRange 0 ∧ app.RowsUsable 0)
        (launch (some ⟨"u"⟩))
        [.viewWillAppear 0 "id", .authStateDidChange, .complete 0 (.snapshot oneGoodEntry),
          .viewWillDisappear 0, .viewWillAppear 0 "id2"] := by
  apply Transition.not_always_of_run (step .reference)
    (fun app => ((app.lists 0).tableView.rows, (app.lists 0).credentials)) (b := (1, []))
  . decide +kernel
  . rintro app heq ⟨⟨hle, -⟩, -⟩
    rw [Prod.mk.injEq] at heq
    rw [heq.left, heq.right] at hle
    simp at hle

end App
