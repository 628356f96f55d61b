import Mathlib.Data.List.Basic

/-!
This module contains regular expressions over an arbitrary alphabet, with bounded repetition and
zero-width assertions, and a backtracking matcher for them.
-/

inductive Regex (α : Type) where
  | empty
  | set (accepts : α → Bool)
  -- Matches the empty text where `holds` does. It sees the text before the position, nearest symbol
  -- first, and the text after it.
  | assertion (holds : List α → List α → Bool)
  | seq (lhs rhs : Regex α)
  | alt (lhs rhs : Regex α)
  -- At least `min` rounds and, unless `max` is `none`, at most `max` rounds.
  | rounds (body : Regex α) (min : Nat) (max : Option Nat)

namespace Regex

variable {α : Type}

structure Cursor (α : Type) where
  before : List α
  after : List α
  deriving DecidableEq, Repr

def opt (r : Regex α) : Regex α := .rounds r 0 (some 1)

def star (r : Regex α) : Regex α := .rounds r 0 none

def plus (r : Regex α) : Regex α := .rounds r 1 none

def sym [DecidableEq α] (a : α) : Regex α := .set (fun b => b = a)

def exactly (f : Cursor α → List (Cursor α)) : Nat → Cursor α → List (Cursor α)
  | 0, c => [c]
  | n + 1, c => (f c).flatMap (exactly f n)

-- Up to `n` rounds of the matcher `f`, more rounds first. A round that consumes nothing ends it.
def upTo (f : Cursor α → List (Cursor α)) : Nat → Cursor α → List (Cursor α)
  | 0, c => [c]
  | n + 1, c =>
    ((f c).filter (fun d => d.after.length < c.after.length)).flatMap (upTo f n) ++ [c]

/--
The positions at which a match that starts at the given position can end, in the order in which
backtracking finds them.
-/
def ends : Regex α → Cursor α → List (Cursor α)
  | .empty, c => [c]
  | .set accepts, c =>
    match c.after with
    | [] => []
    | a :: rest => if accepts a then [⟨a :: c.before, rest⟩] else []
  | .assertion holds, c => if holds c.before c.after then [c] else []
  | .seq lhs rhs, c => (ends lhs c).flatMap (ends rhs)
  | .alt lhs rhs, c => ends lhs c ++ ends rhs c
  | .rounds body min max, c =>
    (exactly (ends body) min c).flatMap (fun d =>
      match max with
      -- every optional round consumes a symbol, so the text bounds their number
      | none => upTo (ends body) d.after.length d
      | some max => upTo (ends body) (max - min) d)

def firstMatchFrom (r : Regex α) (before : List α) : List α → Option (Cursor α × Cursor α)
  | [] => (ends r ⟨before, []⟩).head?.map (fun d => (⟨before, []⟩, d))
  | a :: rest =>
    match ends r ⟨before, a :: rest⟩ with
    | d :: _ => some (⟨before, a :: rest⟩, d)
    | [] => firstMatchFrom r (a :: before) rest

def firstMatch (r : Regex α) (text : List α) : Option (Cursor α × Cursor α) :=
  firstMatchFrom r [] text

end Regex
