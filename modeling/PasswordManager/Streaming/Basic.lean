import PasswordManager.Transition.Basic

/-!
This module contains machines that are fed their input piece by piece and answer each piece with
some output, together with the rules that turn facts about one piece into facts about the whole
input, however it was cut.
-/

namespace Streaming

/--
`τ` are the reasons for which a call aborts, `ε` the errors that it throws. A call that throws leaves
a state behind.
-/
structure Machine (σ τ ε α β : Type) where
  update : σ → List α → Except τ (σ × Except ε (List β))
  finalData : σ → Except τ (σ × Except ε (List β))

namespace Machine

variable {σ τ ε α β : Type} (M : Machine σ τ ε α β)

def feed (s : σ) : List (List α) → Except τ (σ × Except ε (List β))
  | [] => .ok (s, .ok [])
  | piece :: pieces => do
    match ← M.update s piece with
    | (s, .error err) => return (s, .error err)
    | (s, .ok out) =>
      let (s, result) ← feed s pieces
      return (s, result.map (out ++ ·))

def process (s : σ) (pieces : List (List α)) : Except τ (Except ε (List β)) := do
  match ← M.feed s pieces with
  | (_, .error err) => return .error err
  | (s, .ok out) =>
    let (_, result) ← M.finalData s
    return result.map (out ++ ·)

def Computes (s : σ) (f : List α → Except τ (Except ε (List β))) : Prop :=
  ∀ pieces : List (List α), M.process s pieces = f pieces.flatten

/--
`R s input output` relates a state to what has been fed and answered so far. Each update keeps it or
throws an error that no further input avoids.
-/
structure Tracks (R : σ → List α → List β → Prop)
    (f : List α → Except τ (Except ε (List β))) : Prop where
  update : ∀ {s input output} (piece : List α), R s input output →
    ∃ t result, M.update s piece = .ok (t, result) ∧
      match result with
      | .error err => ∀ rest, f (input ++ piece ++ rest) = .ok (.error err)
      | .ok out => R t (input ++ piece) (output ++ out)
  finalData : ∀ {s input output}, R s input output →
    (M.finalData s).map (fun answer => answer.2.map (output ++ ·)) = f input

variable {M} {R : σ → List α → List β → Prop} {f : List α → Except τ (Except ε (List β))}

theorem Tracks.feed (h : M.Tracks R f) {s : σ} {input : List α} {output : List β}
    (hs : R s input output) (pieces : List (List α))
    : ∃ t result, M.feed s pieces = .ok (t, result) ∧
        match result with
        | .error err => f (input ++ pieces.flatten) = .ok (.error err)
        | .ok out => R t (input ++ pieces.flatten) (output ++ out) := by
  induction pieces generalizing s input output with
  | nil =>
    refine ⟨s, .ok [], rfl, ?_⟩
    simpa using hs
  | cons piece pieces ih =>
    obtain ⟨t, result, hupdate, ht⟩ := h.update piece hs
    cases result with
    | error err =>
      refine ⟨t, .error err, ?_, ?_⟩
      . simp only [Machine.feed, hupdate]
        rfl
      . have herror := ht pieces.flatten
        rw [List.append_assoc] at herror
        exact herror
    | ok out =>
      obtain ⟨u, result, hfeed, hu⟩ := ih ht
      refine ⟨u, result.map (out ++ ·), ?_, ?_⟩
      . simp only [Machine.feed, hupdate, bind, Except.bind, hfeed]
        rfl
      . cases result with
        | error err =>
          simp only [List.append_assoc] at hu
          exact hu
        | ok rest =>
          simp only [List.append_assoc] at hu
          exact hu

theorem Tracks.computes (h : M.Tracks R f) {s : σ} (hs : R s [] []) : M.Computes s f := by
  intro pieces
  obtain ⟨t, result, hfeed, ht⟩ := h.feed hs pieces
  cases result with
  | error err =>
    simp only [List.nil_append] at ht
    simp only [process, hfeed, bind, Except.bind, ht]
    rfl
  | ok out =>
    simp only [List.nil_append] at ht
    rw [← h.finalData ht]
    simp only [process, hfeed, bind, Except.bind]
    cases M.finalData t with
    | error trap => rfl
    | ok answer => rfl

theorem feed_error {I J : σ → Prop}
    (hupdate : ∀ s piece t result, I s → M.update s piece = .ok (t, result) →
      match result with
      | .error _ => J t
      | .ok _ => I t)
    {s t : σ} {err : ε} {pieces : List (List α)} (hs : I s)
    (hfeed : M.feed s pieces = .ok (t, .error err)) : J t := by
  induction pieces generalizing s err with
  | nil => cases hfeed
  | cons piece pieces ih =>
    cases hcall : M.update s piece with
    | error trap => simp [feed, hcall, bind, Except.bind] at hfeed
    | ok next =>
      obtain ⟨u, result⟩ := next
      have hu := hupdate s piece u result hs hcall
      simp only [feed, hcall, bind, Except.bind] at hfeed
      cases result with
      | error err =>
        cases hfeed
        exact hu
      | ok out =>
        cases hrest : M.feed u pieces with
        | error trap => simp [hrest] at hfeed
        | ok last =>
          obtain ⟨v, result⟩ := last
          simp only [hrest, pure, Except.pure, Except.ok.injEq, Prod.mk.injEq] at hfeed
          cases result with
          | error err =>
            obtain ⟨rfl, -⟩ := hfeed
            exact ih hu hrest
          | ok rest => simp [Except.map] at hfeed

inductive Call (α : Type) where
  | update (piece : List α)
  | finalData

def call (M : Machine σ τ ε α β) (s : σ) : Call α → Except τ (σ × Except ε (List β))
  | .update piece => M.update s piece
  | .finalData => M.finalData s

def session (M : Machine σ τ ε α β) (s : σ) : List (Call α) → Except τ (List (Except ε (List β)))
  | [] => .ok []
  | call :: calls => do
    let (s, result) ← M.call s call
    let results ← session M s calls
    return result :: results

theorem session_of_refuses {I : σ → Prop}
    (hrefuses : ∀ s call, I s → ∃ t err, M.call s call = .ok (t, .error err) ∧ I t)
    {s : σ} (hs : I s) (calls : List (Call α))
    : ∃ results, M.session s calls = .ok results ∧
        ∀ result ∈ results, ∃ err, result = .error err := by
  induction calls generalizing s with
  | nil => exact ⟨[], rfl, by simp⟩
  | cons call calls ih =>
    obtain ⟨t, err, hcall, ht⟩ := hrefuses s call hs
    obtain ⟨results, hsession, hresults⟩ := ih ht
    refine ⟨.error err :: results, ?_, ?_⟩
    . simp only [session, hcall, hsession, bind, Except.bind]
      rfl
    . simpa using hresults

end Machine

end Streaming
