import Mathlib.Data.List.Infix

/-!
This module contains the runs of a machine whose step may abort, together with the rules that turn
facts about one step into facts about whole runs.
-/

namespace Transition

variable {σ ε τ : Type} (step : σ → ε → Except τ σ)

def run (s : σ) (events : List ε) : Except τ σ :=
  events.foldlM step s

/--
`P` holds in every state that the run of `events` from `s` goes through, the first one included.
-/
def Always (P : σ → Prop) (s : σ) (events : List ε) : Prop :=
  ∀ (pre : List ε) (t : σ), pre <+: events → run step s pre = .ok t → P t

/--
Every step that the run of `events` from `s` completes is taken from a state and with an event that
satisfy `C`.
-/
def Meets (C : σ → ε → Prop) (s : σ) (events : List ε) : Prop :=
  ∀ (pre : List ε) (e : ε) (t u : σ),
    pre ++ [e] <+: events → run step s pre = .ok t → step t e = .ok u → C t e

@[simp]
theorem run_nil (s : σ) : run step s [] = .ok s := by
  rfl

theorem run_cons (s : σ) (e : ε) (events : List ε)
    : run step s (e :: events) = (step s e).bind (fun t => run step t events) := by
  rfl

theorem run_cons_ok {s t : σ} {e : ε} {events : List ε}
    : run step s (e :: events) = .ok t
        ↔
      ∃ u, step s e = .ok u ∧ run step u events = .ok t := by
  rw [run_cons]
  cases step s e with
  | error err => simp [Except.bind]
  | ok u => simp [Except.bind]

theorem run_concat_ok {s t : σ} {events : List ε} {e : ε}
    : run step s (events ++ [e]) = .ok t
        ↔
      ∃ u, run step s events = .ok u ∧ step u e = .ok t := by
  induction events generalizing s with
  | nil =>
    rw [List.nil_append, run_cons_ok]
    simp
  | cons d events ih =>
    rw [List.cons_append, run_cons_ok]
    simp only [ih, run_cons_ok]
    constructor
    . rintro ⟨v, hv, u, hu, ht⟩
      exact ⟨u, ⟨v, hv, hu⟩, ht⟩
    . rintro ⟨u, ⟨v, hv, hu⟩, ht⟩
      exact ⟨v, hv, u, hu, ht⟩

theorem run_total (next : σ → ε → σ) (s : σ) (events : List ε)
    : run (fun s e => (.ok (next s e) : Except τ σ)) s events = .ok (events.foldl next s) := by
  induction events generalizing s with
  | nil => rfl
  | cons e events ih => exact ih (next s e)

theorem always_nil (P : σ → Prop) (s : σ) : Always step P s [] ↔ P s := by
  constructor
  . intro h
    exact h [] s (List.nil_prefix) rfl
  . intro h pre t hpre hrun
    rw [List.prefix_nil] at hpre
    subst hpre
    cases hrun
    exact h

theorem always_cons (P : σ → Prop) (s : σ) (e : ε) (events : List ε)
    : Always step P s (e :: events)
        ↔
      P s ∧ ∀ t, step s e = .ok t → Always step P t events := by
  constructor
  . intro h
    refine ⟨h [] s (List.nil_prefix) rfl, ?_⟩
    intro t ht pre u hpre hrun
    apply h (e :: pre) u
    . exact (List.prefix_cons_inj e).mpr hpre
    . rw [run_cons_ok]
      exact ⟨t, ht, hrun⟩
  . rintro ⟨hs, h⟩ pre u hpre hrun
    cases pre with
    | nil =>
      cases hrun
      exact hs
    | cons d pre =>
      obtain ⟨rfl, hrest⟩ := List.cons_prefix_cons.mp hpre
      obtain ⟨t, ht, hrun⟩ := (run_cons_ok step).mp hrun
      exact h t ht pre u hrest hrun

theorem meets_nil (C : σ → ε → Prop) (s : σ) : Meets step C s [] := by
  intro pre e t u hpre
  simp at hpre

theorem meets_cons (C : σ → ε → Prop) (s : σ) (e : ε) (events : List ε)
    : Meets step C s (e :: events)
        ↔
      ∀ t, step s e = .ok t → C s e ∧ Meets step C t events := by
  constructor
  . intro h t ht
    refine ⟨h [] e s t (by simp) rfl ht, ?_⟩
    intro pre d v w hpre hrun hstep
    apply h (e :: pre) d v w
    . rw [List.cons_append]
      exact (List.prefix_cons_inj e).mpr hpre
    . rw [run_cons_ok]
      exact ⟨t, ht, hrun⟩
    . exact hstep
  . intro h pre d v w hpre hrun hstep
    cases pre with
    | nil =>
      cases hrun
      obtain ⟨rfl, -⟩ := List.cons_prefix_cons.mp hpre
      exact (h w hstep).left
    | cons c pre =>
      rw [List.cons_append] at hpre
      obtain ⟨rfl, hrest⟩ := List.cons_prefix_cons.mp hpre
      obtain ⟨t, ht, hrun⟩ := (run_cons_ok step).mp hrun
      exact (h t ht).right pre d v w hrest hrun hstep

instance decidableMeets {C : σ → ε → Prop} [∀ s e, Decidable (C s e)] (s : σ) (events : List ε)
    : Decidable (Meets step C s events) :=
  match events with
  | [] => .isTrue (meets_nil step C s)
  | e :: events =>
    match h : step s e with
    | .error _ => .isTrue (by simp [meets_cons, h])
    | .ok t =>
      have : Decidable (Meets step C t events) := decidableMeets t events
      decidable_of_iff (C s e ∧ Meets step C t events) (by simp [meets_cons, h])

theorem meets_concat (C : σ → ε → Prop) (s : σ) (events : List ε) (e : ε)
    : Meets step C s (events ++ [e])
        ↔
      Meets step C s events ∧ ∀ t u, run step s events = .ok t → step t e = .ok u → C t e := by
  constructor
  . intro h
    constructor
    . intro pre d t u hpre
      apply h
      exact hpre.trans (List.prefix_append events [e])
    . intro t u
      apply h
      apply List.prefix_rfl
  . rintro ⟨hevents, hlast⟩ pre d t u hpre hrun hstep
    rcases List.prefix_concat_iff.mp hpre with heq | hpre
    . obtain ⟨rfl, hd⟩ := List.append_inj' heq rfl
      cases hd
      exact hlast t u hrun hstep
    . exact hevents pre d t u hpre hrun hstep

theorem meets_true (s : σ) (events : List ε) : Meets step (fun _ _ => True) s events := by
  intro _ _ _ _ _ _ _
  trivial

theorem exists_run_of_observe {β : Type} {s : σ} {events : List ε} (observe : σ → β) {b : β}
    (hrun : (run step s events).toOption.map observe = some b)
    : ∃ t, run step s events = .ok t ∧ observe t = b := by
  cases hend : run step s events with
  | error err => simp [hend, Except.toOption] at hrun
  | ok t =>
    simp only [hend, Except.toOption, Option.map_some, Option.some.injEq] at hrun
    exact ⟨t, rfl, hrun⟩

theorem not_always_of_run {β : Type} {P : σ → Prop} {s : σ} {events : List ε} (observe : σ → β)
    {b : β} (hrun : (run step s events).toOption.map observe = some b)
    (hobserve : ∀ t, observe t = b → ¬ P t) : ¬ Always step P s events := by
  intro h
  obtain ⟨t, hend, ht⟩ := exists_run_of_observe step observe hrun
  exact hobserve t ht (h events t List.prefix_rfl hend)

theorem exists_run_of_step {I : σ → Prop} {A : ε → Prop}
    (hstep : ∀ s e, I s → A e → ∃ t, step s e = .ok t ∧ I t) {s : σ} {events : List ε} (hs : I s)
    (hkind : ∀ e ∈ events, A e) : ∃ t, run step s events = .ok t ∧ I t := by
  induction events generalizing s with
  | nil => exact ⟨s, rfl, hs⟩
  | cons e events ih =>
    obtain ⟨u, hu, hinv⟩ := hstep s e hs (hkind e List.mem_cons_self)
    obtain ⟨t, ht, hlast⟩ := ih hinv (fun d hd => hkind d (List.mem_cons_of_mem e hd))
    exact ⟨t, (run_cons_ok step).mpr ⟨u, hu, ht⟩, hlast⟩

theorem always_mono {P Q : σ → Prop} (hPQ : ∀ t, P t → Q t) {s : σ} {events : List ε}
    (h : Always step P s events) : Always step Q s events := by
  intro pre t hpre hrun
  apply hPQ
  exact h pre t hpre hrun

theorem always_of_invariant {I : σ → Prop}
    (hstep : ∀ s e t, I s → step s e = .ok t → I t) {s : σ} (hs : I s) (events : List ε)
    : Always step I s events := by
  induction events generalizing s with
  | nil => exact (always_nil step I s).mpr hs
  | cons e events ih =>
    rw [always_cons]
    refine ⟨hs, ?_⟩
    intro t ht
    exact ih (hstep s e t hs ht)

/--
The simulation rule: a relation to the states of an abstract machine that every step of kind `A`
keeps is kept by every run of such steps.
-/
theorem run_simulates {α : Type} (abstractStep : α → ε → α) {R : σ → α → Prop} {A : σ → ε → Prop}
    (hstep : ∀ s a e t, R s a → A s e → step s e = .ok t → R t (abstractStep a e))
    {s t : σ} {a : α} {events : List ε} (hs : R s a) (hkind : Meets step A s events)
    (hrun : run step s events = .ok t) : R t (events.foldl abstractStep a) := by
  induction events generalizing s a with
  | nil =>
    cases hrun
    exact hs
  | cons e events ih =>
    rw [run_cons_ok] at hrun
    obtain ⟨u, hu, hrun⟩ := hrun
    rw [meets_cons] at hkind
    apply ih
    . exact hstep s a e u hs (hkind u hu).left hu
    . exact (hkind u hu).right
    . exact hrun

theorem run_follows {α : Type} (abstractStep : α → ε → α) {R : σ → α → Prop} {A : α → ε → Prop}
    (hstep : ∀ s a e t, R s a → A a e → step s e = .ok t → R t (abstractStep a e))
    {s t : σ} {a : α} {events : List ε} (hs : R s a)
    (hkind : Meets (fun a e => (.ok (abstractStep a e) : Except τ α)) A a events)
    (hrun : run step s events = .ok t) : R t (events.foldl abstractStep a) := by
  induction events generalizing s a with
  | nil =>
    cases hrun
    exact hs
  | cons e events ih =>
    rw [run_cons_ok] at hrun
    obtain ⟨u, hu, hrun⟩ := hrun
    rw [meets_cons] at hkind
    obtain ⟨he, hrest⟩ := hkind _ rfl
    exact ih (hstep s a e u hs he hu) hrest hrun

theorem run_keeps {I : σ → Prop} {A : σ → ε → Prop}
    (hstep : ∀ s e t, I s → A s e → step s e = .ok t → I t) {s t : σ} {events : List ε}
    (hs : I s) (hkind : Meets step A s events) (hrun : run step s events = .ok t) : I t := by
  apply run_simulates step (fun _ _ => ()) (R := fun s _ => I s) (a := ()) _ hs hkind hrun
  intro s _ e t
  exact hstep s e t

/--
The exactness rule: if, inside an invariant, one step of kind `A` keeps `P` exactly when it meets
`C`, then a run of such steps stays inside `P` exactly when each of its steps meets `C`. The
invariant has to be kept as long as the run is inside `P` only.
-/
theorem always_iff_meets_inside {I P : σ → Prop} {A C : σ → ε → Prop}
    (hinv : ∀ s e t, I s → A s e → P s → step s e = .ok t → I t)
    (hstep : ∀ s e t, I s → A s e → P s → step s e = .ok t → (P t ↔ C s e))
    {s : σ} {events : List ε} (hs : I s) (hp : P s) (hkind : Meets step A s events)
    : Always step P s events ↔ Meets step C s events := by
  induction events generalizing s with
  | nil =>
    rw [always_nil]
    exact ⟨fun _ => meets_nil step C s, fun _ => hp⟩
  | cons e events ih =>
    rw [meets_cons] at hkind
    rw [always_cons, meets_cons]
    constructor
    . rintro ⟨-, h⟩ t ht
      obtain ⟨he, hrest⟩ := hkind t ht
      -- the next state satisfies `P` because the run goes through it
      have hpt : P t := h t ht [] t (List.nil_prefix) rfl
      refine ⟨(hstep s e t hs he hp ht).mp hpt, ?_⟩
      exact (ih (hinv s e t hs he hp ht) hpt hrest).mp (h t ht)
    . intro h
      refine ⟨hp, ?_⟩
      intro t ht
      obtain ⟨he, hrest⟩ := hkind t ht
      have hpt : P t := (hstep s e t hs he hp ht).mpr (h t ht).left
      exact (ih (hinv s e t hs he hp ht) hpt hrest).mpr (h t ht).right

theorem always_iff_meets_of_kind {I P : σ → Prop} {A C : σ → ε → Prop}
    (hinv : ∀ s e t, I s → A s e → step s e = .ok t → I t)
    (hstep : ∀ s e t, I s → A s e → P s → step s e = .ok t → (P t ↔ C s e))
    {s : σ} {events : List ε} (hs : I s) (hp : P s) (hkind : Meets step A s events)
    : Always step P s events ↔ Meets step C s events := by
  apply always_iff_meets_inside step (I := I) (A := A) _ hstep hs hp hkind
  intro s e t hs he _ ht
  exact hinv s e t hs he ht

theorem always_iff_meets {I P : σ → Prop} {C : σ → ε → Prop}
    (hinv : ∀ s e t, I s → step s e = .ok t → I t)
    (hstep : ∀ s e t, I s → P s → step s e = .ok t → (P t ↔ C s e))
    {s : σ} (hs : I s) (hp : P s) (events : List ε)
    : Always step P s events ↔ Meets step C s events := by
  apply always_iff_meets_of_kind step (I := I) (A := fun _ _ => True)
  . intro s e t hs _ ht
    exact hinv s e t hs ht
  . intro s e t hs _ hp ht
    exact hstep s e t hs hp ht
  . exact hs
  . exact hp
  . apply meets_true

theorem foldl_erases {next : σ → ε → σ} {R : σ → σ → Prop} {visible : ε → Bool} {events : List ε}
    (hvisible : ∀ s t e, visible e = true → R s t → R (next s e) (next t e))
    (hhidden : ∀ s t, ∀ e ∈ events, visible e = false → R s t → R (next s e) t) {s t : σ}
    (h : R s t) : R (events.foldl next s) ((events.filter visible).foldl next t) := by
  induction events generalizing s t with
  | nil => exact h
  | cons e events ih =>
    have hrest : ∀ s t, ∀ e ∈ events, visible e = false → R s t → R (next s e) t := by
      intro s t d hd
      exact hhidden s t d (List.mem_cons_of_mem e hd)
    cases he : visible e with
    | true =>
      rw [List.filter_cons_of_pos he]
      exact ih hrest (hvisible s t e he h)
    | false =>
      rw [List.filter_cons_of_neg (by simp [he])]
      exact ih hrest (hhidden s t e List.mem_cons_self he h)

section History

variable {α : Type} {watched : α → ε → Except τ α} {forget : α → σ}
  (hforget : ∀ a e, (watched a e).map forget = step (forget a) e)
include hforget

theorem run_history (a : α) (events : List ε)
    : (run watched a events).map forget = run step (forget a) events := by
  induction events generalizing a with
  | nil => rfl
  | cons e events ih =>
    rw [run_cons, run_cons, ← hforget]
    cases watched a e with
    | error err => rfl
    | ok b => exact ih b

theorem run_history_ok {a : α} {t : σ} {events : List ε}
    : run step (forget a) events = .ok t ↔ ∃ b, run watched a events = .ok b ∧ forget b = t := by
  rw [← run_history step hforget]
  cases run watched a events with
  | error err => simp [Except.map]
  | ok b => simp [Except.map]

theorem always_history (P : σ → Prop) (a : α) (events : List ε)
    : Always step P (forget a) events ↔ Always watched (fun b => P (forget b)) a events := by
  constructor
  . intro h pre b hpre hrun
    apply h pre (forget b) hpre
    exact (run_history_ok step hforget).mpr ⟨b, hrun, rfl⟩
  . intro h pre t hpre hrun
    obtain ⟨b, hwatched, rfl⟩ := (run_history_ok step hforget).mp hrun
    exact h pre b hpre hwatched

theorem meets_history (C : σ → ε → Prop) (a : α) (events : List ε)
    : Meets step C (forget a) events ↔ Meets watched (fun b e => C (forget b) e) a events := by
  constructor
  . intro h pre e b c hpre hrun hstep
    apply h pre e (forget b) (forget c) hpre
    . exact (run_history_ok step hforget).mpr ⟨b, hrun, rfl⟩
    . rw [← hforget, hstep]
      rfl
  . intro h pre e t u hpre hrun hstep
    obtain ⟨b, hwatched, rfl⟩ := (run_history_ok step hforget).mp hrun
    rw [← hforget] at hstep
    cases hnext : watched b e with
    | error err => simp [hnext, Except.map] at hstep
    | ok c => exact h pre e b c hpre hwatched hnext

end History

end Transition
