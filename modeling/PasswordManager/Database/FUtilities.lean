import PasswordManager.SortedEntries.Basic
import Mathlib.Data.List.Basic
import Mathlib.Algebra.Order.Ring.Nat

/-!
This module contains the order in which the database client keeps the children of a node. Keys that
are written as integers come first, in the order of their values.
-/

abbrev NSString := List UInt16

/--
A key, or one of the two names around all keys. The client tells these by their address, so that no
key with the same text is one of them.
-/
inductive FKey where
  | minName
  | maxName
  | key (str : NSString)
  deriving DecidableEq, Repr

namespace FUtilities

def INTEGER_32_MIN : Int := -2147483648

def INTEGER_32_MAX : Int := 2147483647

-- The units of '-', '0' and '9'.
def minus : UInt16 := 45

def zero : UInt16 := 48

def nine : UInt16 := 57

def tryParseStringToInt.loop : NSString → (value : Nat) → Option Nat
  | [], value => some value
  | c :: str, value =>
    if c < zero ∨ c > nine then
      none
    else
      tryParseStringToInt.loop str (value * 10 + (c.toNat - zero.toNat))

def tryParseStringToInt (str : NSString) : Option Int :=
  let length := str.length
  if length > 11 ∨ length = 0 then
    none
  else
    let negative := str.head? = some minus
    if negative ∧ length = 1 then
      none
    else
      match tryParseStringToInt.loop (if negative then str.tail else str) 0 with
      | none => none
      | some digits =>
        let value : Int := if negative then -digits else digits
        if value < INTEGER_32_MIN ∨ value > INTEGER_32_MAX then none else some value

def compareString (a b : NSString) : Ordering :=
  match tryParseStringToInt a, tryParseStringToInt b with
  | some aAsInt, some bAsInt =>
    if aAsInt > bAsInt then
      .gt
    else if aAsInt < bAsInt then
      .lt
    else if a.length > b.length then
      .gt
    else if a.length < b.length then
      .lt
    else
      .eq
  | some _, none => .lt
  | none, some _ => .gt
  -- literal search, unit by unit
  | none, none => List.compareLex compare a b

def compareKey : FKey → FKey → Ordering
  | .minName, .minName => .eq
  | .maxName, .maxName => .eq
  | .minName, _ => .lt
  | _, .maxName => .lt
  | _, .minName => .gt
  | .maxName, _ => .gt
  | .key a, .key b => compareString a b

def keyComparator (a b : NSString) : Ordering :=
  compareKey (.key a) (.key b)

section Digits

open tryParseStringToInt

theorem loop_inj {a b : NSString} (hlength : a.length = b.length) {v w n : Nat}
    (ha : loop a v = some n) (hb : loop b w = some n) : v = w ∧ a = b := by
  induction a generalizing b v w with
  | nil =>
    rw [List.length_nil, eq_comm, List.length_eq_zero_iff] at hlength
    subst hlength
    simp only [loop, Option.some.injEq] at ha hb
    exact ⟨by omega, rfl⟩
  | cons c a ih =>
    cases b with
    | nil => simp at hlength
    | cons d b =>
      simp only [List.length_cons, Nat.add_right_cancel_iff] at hlength
      unfold loop at ha hb
      split at ha
      . cases ha
      . next hc =>
        split at hb
        . cases hb
        . next hd =>
          obtain ⟨hvalues, htail⟩ := ih hlength ha hb
          simp only [zero, nine, UInt16.lt_iff_toNat_lt, not_or, Nat.not_lt] at hc hd hvalues
          have hzero : (48 : UInt16).toNat = 48 := rfl
          have hnine : (57 : UInt16).toNat = 57 := rfl
          rw [hzero, hnine] at hc hd
          rw [hzero] at hvalues
          have hdigit : c.toNat = d.toNat := by omega
          refine ⟨by omega, ?_⟩
          rw [UInt16.toNat_inj.mp hdigit, htail]

theorem loop_replicate (n : Nat) : loop (List.replicate n zero) 0 = some 0 := by
  induction n with
  | zero => rfl
  | succ n ih =>
    rw [List.replicate_succ]
    unfold loop
    exact ih

theorem loop_eq_zero_iff {str : NSString}
    : loop str 0 = some 0 ↔ str = List.replicate str.length zero := by
  constructor
  . intro h
    have hlength : str.length = (List.replicate str.length zero).length := by
      simp
    exact (loop_inj hlength h (loop_replicate str.length)).right
  . intro h
    rw [h]
    apply loop_replicate

end Digits

/--
The negative and the other way to write zero with the same number of characters.
-/
def ZeroAlike (a b : NSString) : Prop :=
  ∃ n, 1 ≤ n ∧ n ≤ 10 ∧ a = minus :: List.replicate n zero ∧ b = List.replicate (n + 1) zero

theorem not_zeroAlike_of_head {a b : NSString} (hhead : a.head? ≠ some minus)
    : ¬ ZeroAlike a b := by
  intro h
  obtain ⟨n, -, -, hminus, -⟩ := h
  apply hhead
  rw [hminus]
  rfl

theorem not_zeroAlike_self (a : NSString) : ¬ ZeroAlike a a := by
  intro h
  obtain ⟨n, -, -, hminus, hzero⟩ := h
  rw [hminus, List.replicate_succ, List.cons.injEq] at hzero
  exact absurd hzero.left (by decide)

theorem tryParseStringToInt_cases {str : NSString} {i : Int} (h : tryParseStringToInt str = some i)
    : str.length ≤ 11 ∧ str ≠ []
        ∧ ((∃ digits n, str = minus :: digits ∧ digits ≠ []
              ∧ tryParseStringToInt.loop digits 0 = some n ∧ i = -(n : Int))
          ∨ (∃ n, tryParseStringToInt.loop str 0 = some n ∧ i = n)) := by
  unfold tryParseStringToInt at h
  dsimp only at h
  split at h
  . cases h
  . next hlength =>
    rw [not_or, Nat.not_lt] at hlength
    have hne : str ≠ [] := by
      intro hempty
      exact hlength.right (by rw [hempty]; rfl)
    refine ⟨hlength.left, hne, ?_⟩
    split at h
    . cases h
    . next hminus =>
      split at h
      . cases h
      . next n hloop =>
        have hvalue : i = if str.head? = some minus then -(n : Int) else n := by
          simp only [Option.ite_none_left_eq_some, Option.some.injEq] at h
          exact h.right.symm
        split at hloop
        . next hnegative =>
          rw [if_pos hnegative] at hvalue
          cases str with
          | nil => cases hnegative
          | cons c digits =>
            left
            rw [List.head?_cons, Option.some.injEq] at hnegative
            subst hnegative
            refine ⟨digits, n, rfl, ?_, hloop, hvalue⟩
            intro hempty
            subst hempty
            exact hminus ⟨rfl, rfl⟩
        . next hnegative =>
          rw [if_neg hnegative] at hvalue
          right
          exact ⟨n, hloop, hvalue⟩

theorem zeroAlike_of_loop {digits str : NSString} {n m : Nat} (hne : digits ≠ [])
    (hbound : (minus :: digits).length ≤ 11) (hlength : (minus :: digits).length = str.length)
    (hdigits : tryParseStringToInt.loop digits 0 = some n)
    (hstr : tryParseStringToInt.loop str 0 = some m) (hvalue : -(n : Int) = m)
    : ZeroAlike (minus :: digits) str := by
  have hn : n = 0 := by omega
  have hm : m = 0 := by omega
  rw [hn, loop_eq_zero_iff] at hdigits
  rw [hm, loop_eq_zero_iff] at hstr
  rw [List.length_cons] at hbound hlength
  have hpos := List.length_pos_iff.mpr hne
  refine ⟨digits.length, hpos, by omega, ?_, ?_⟩
  . rw [← hdigits]
  . rw [hlength]
    exact hstr

theorem tryParseStringToInt_zeros {n : Nat} (h : n ≤ 10)
    : tryParseStringToInt (List.replicate (n + 1) zero) = some 0 := by
  have hhead : (List.replicate (n + 1) zero).head? ≠ some minus := by
    rw [List.replicate_succ, List.head?_cons]
    decide
  have hlength : ¬ (n + 1 > 11 ∨ n + 1 = 0) := by omega
  unfold tryParseStringToInt
  simp only [List.length_replicate, hlength, hhead, false_and, ↓reduceIte, loop_replicate]
  rfl

theorem tryParseStringToInt_minusZeros {n : Nat} (hpos : 1 ≤ n) (h : n ≤ 10)
    : tryParseStringToInt (minus :: List.replicate n zero) = some 0 := by
  have hlength : ¬ (n + 1 > 11 ∨ n + 1 = 0) := by omega
  have hone : ¬ n + 1 = 1 := by omega
  unfold tryParseStringToInt
  simp only [List.length_cons, List.length_replicate, hlength, List.head?_cons, hone, and_false,
    ↓reduceIte, List.tail_cons, loop_replicate]
  rfl

def kind : FKey → Nat
  | .minName => 0
  | .key str => if (tryParseStringToInt str).isSome then 1 else 2
  | .maxName => 3

def number : FKey → Int
  | .key str => (tryParseStringToInt str).getD 0
  | _ => 0

def size : FKey → Nat
  | .key str => if (tryParseStringToInt str).isSome then str.length else 0
  | _ => 0

def text : FKey → NSString
  | .key str => if (tryParseStringToInt str).isSome then [] else str
  | _ => []

theorem compareKey_eq_lex
    : compareKey
        =
      compareLex (compareOn kind)
        (compareLex (compareOn number) (compareLex (compareOn size) (compareOn text))) := by
  funext a b
  cases a with
  | minName =>
    cases b with
    | minName => rfl
    | maxName => rfl
    | key b => simp only [compareKey, compareLex, compareOn, kind]; split <;> rfl
  | maxName =>
    cases b with
    | minName => rfl
    | maxName => rfl
    | key b => simp only [compareKey, compareLex, compareOn, kind]; split <;> rfl
  | key a =>
    cases b with
    | minName => simp only [compareKey, compareLex, compareOn, kind]; split <;> rfl
    | maxName => simp only [compareKey, compareLex, compareOn, kind]; split <;> rfl
    | key b =>
      simp only [compareKey, compareString, compareLex, compareOn, kind, number, size, text]
      cases tryParseStringToInt a with
      | none =>
        cases tryParseStringToInt b with
        | none => rfl
        | some j => rfl
      | some i =>
        cases tryParseStringToInt b with
        | none => rfl
        | some j =>
          simp only [Option.isSome_some, ↓reduceIte, Option.getD_some]
          rcases Int.lt_trichotomy i j with hlt | heq | hgt
          . rw [if_neg (by omega), if_pos hlt, Int.compare_eq_lt.mpr hlt]
            rfl
          . subst heq
            rw [if_neg (by omega), if_neg (by omega), Int.compare_eq_eq.mpr rfl]
            rcases Nat.lt_trichotomy a.length b.length with hlt | heq | hgt
            . rw [if_neg (by omega), if_pos hlt, Nat.compare_eq_lt.mpr hlt]
              rfl
            . rw [if_neg (by omega), if_neg (by omega), Nat.compare_eq_eq.mpr heq]
              rfl
            . rw [if_pos hgt, Nat.compare_eq_gt.mpr hgt]
              rfl
          . rw [if_pos hgt, Int.compare_eq_gt.mpr hgt]
            rfl

instance : Std.TransCmp compareKey := by
  rw [compareKey_eq_lex]
  infer_instance

instance : Std.TransCmp keyComparator where
  eq_swap {a b} := by
    have hswap : compareKey (.key a) (.key b) = (compareKey (.key b) (.key a)).swap :=
      Std.OrientedCmp.eq_swap
    exact hswap
  isLE_trans {a b c} hab hbc := by
    have htrans : (compareKey (.key a) (.key c)).isLE := Std.TransCmp.isLE_trans hab hbc
    exact htrans

theorem compareString_eq_iff {a b : NSString}
    : compareString a b = .eq ↔ a = b ∨ ZeroAlike a b ∨ ZeroAlike b a := by
  constructor
  . intro h
    unfold compareString at h
    split at h
    . next i j ha hb =>
      have hparts : i = j ∧ a.length = b.length := by
        split at h
        . cases h
        . split at h
          . cases h
          . split at h
            . cases h
            . split at h
              . cases h
              . omega
      obtain ⟨hvalue, hlength⟩ := hparts
      subst hvalue
      obtain ⟨hbound, -, hreadA⟩ := tryParseStringToInt_cases ha
      obtain ⟨-, -, hreadB⟩ := tryParseStringToInt_cases hb
      -- strings that are read in the same way have the same digits, otherwise both values are zero
      rcases hreadA with ⟨digitsA, n, rfl, hne, hloopA, hn⟩ | ⟨n, hloopA, hn⟩
      . rcases hreadB with ⟨digitsB, m, rfl, -, hloopB, hm⟩ | ⟨m, hloopB, hm⟩
        . left
          have hnm : n = m := by omega
          subst hnm
          simp only [List.length_cons, Nat.add_right_cancel_iff] at hlength
          rw [(loop_inj hlength hloopA hloopB).right]
        . right
          left
          exact zeroAlike_of_loop hne hbound hlength hloopA hloopB (by omega)
      . rcases hreadB with ⟨digitsB, m, rfl, hne, hloopB, hm⟩ | ⟨m, hloopB, hm⟩
        . right
          right
          exact zeroAlike_of_loop hne (by omega) hlength.symm hloopB hloopA (by omega)
        . left
          have hnm : n = m := by omega
          subst hnm
          exact (loop_inj hlength hloopA hloopB).right
    . cases h
    . cases h
    . left
      exact Std.LawfulEqCmp.eq_of_compare h
  . intro h
    rcases h with rfl | ⟨n, hpos, hn, rfl, rfl⟩ | ⟨n, hpos, hn, rfl, rfl⟩
    . have hself : keyComparator a a = .eq := Std.ReflCmp.compare_self
      exact hself
    . unfold compareString
      rw [tryParseStringToInt_minusZeros hpos hn, tryParseStringToInt_zeros hn]
      simp
    . unfold compareString
      rw [tryParseStringToInt_minusZeros hpos hn, tryParseStringToInt_zeros hn]
      simp

/--
Keys of which no two are one for a comparator. `[a compare:b]` takes canonically equivalent strings
for the same, the comparator of keys zeros with and without a minus sign.
-/
structure KeySet where
  compare : NSString → NSString → Ordering
  transCmp : Std.TransCmp compare
  IsKey : NSString → Prop
  apart : ∀ a b, IsKey a → IsKey b → compare a b = .eq → a = b
  notZeroAlike : ∀ a b, IsKey a → IsKey b → ¬ ZeroAlike a b
  -- the key ".priority"
  priority : IsKey [46, 112, 114, 105, 111, 114, 105, 116, 121]

def stringComparator (keys : KeySet) (a b : NSString) : Ordering :=
  keys.compare a b

def KeySet.ascii : KeySet where
  compare := List.compareLex Ord.compare
  transCmp := inferInstance
  IsKey key := key.all (fun unit => unit < 128) = true ∧ key.head? ≠ some minus
  apart _ _ _ _ h := Std.LawfulEqCmp.eq_of_compare h
  notZeroAlike _ _ ha _ := not_zeroAlike_of_head ha.right
  priority := ⟨rfl, by decide⟩

end FUtilities

/--
What the client has for the keys of the database: children are in the order of `keyComparator`, the
children of a tree are in the order of `stringComparator`.
-/
class FKeys (κ : Type) where
  keyComparator : κ → κ → Ordering
  stringComparator : κ → κ → Ordering
  priorityKey : κ

class LawfulFKeys (κ : Type) [FKeys κ] : Prop where
  transCmp_key : Std.TransCmp (FKeys.keyComparator : κ → κ → Ordering)
  lawfulEqCmp_key : Std.LawfulEqCmp (FKeys.keyComparator : κ → κ → Ordering)
  transCmp_string : Std.TransCmp (FKeys.stringComparator : κ → κ → Ordering)
  lawfulEqCmp_string : Std.LawfulEqCmp (FKeys.stringComparator : κ → κ → Ordering)

attribute [instance] LawfulFKeys.transCmp_key LawfulFKeys.lawfulEqCmp_key
  LawfulFKeys.transCmp_string LawfulFKeys.lawfulEqCmp_string

abbrev FChildKey (keys : FUtilities.KeySet) := {key : NSString // keys.IsKey key}

namespace FChildKey

variable {keys : FUtilities.KeySet}

instance : FKeys (FChildKey keys) where
  keyComparator a b := FUtilities.keyComparator a.val b.val
  stringComparator a b := FUtilities.stringComparator keys a.val b.val
  priorityKey := ⟨_, keys.priority⟩

instance : LawfulFKeys (FChildKey keys) where
  transCmp_key := {
    eq_swap := by
      intro a b
      have hswap : FUtilities.keyComparator a.val b.val
          = (FUtilities.keyComparator b.val a.val).swap := Std.OrientedCmp.eq_swap
      exact hswap
    isLE_trans := by
      intro a b c hab hbc
      have htrans : (FUtilities.keyComparator a.val c.val).isLE := Std.TransCmp.isLE_trans hab hbc
      exact htrans
  }
  lawfulEqCmp_key := {
    compare_self := by
      intro a
      have hself : FUtilities.keyComparator a.val a.val = .eq := Std.ReflCmp.compare_self
      exact hself
    eq_of_compare := by
      intro a b heq
      apply Subtype.ext
      cases FUtilities.compareString_eq_iff.mp heq with
      | inl hsame => exact hsame
      | inr hzero =>
        cases hzero with
        | inl hzero => exact absurd hzero (keys.notZeroAlike _ _ a.property b.property)
        | inr hzero => exact absurd hzero (keys.notZeroAlike _ _ b.property a.property)
  }
  transCmp_string := {
    eq_swap := by
      intro a b
      exact keys.transCmp.eq_swap
    isLE_trans := by
      intro a b c hab hbc
      exact keys.transCmp.isLE_trans hab hbc
  }
  lawfulEqCmp_string := {
    compare_self := by
      intro a
      have htrans := keys.transCmp
      have hself : keys.compare a.val a.val = .eq := Std.ReflCmp.compare_self
      exact hself
    eq_of_compare := by
      intro a b heq
      exact Subtype.ext (keys.apart _ _ a.property b.property heq)
  }

def reference : FChildKey .ascii :=
  ⟨[97], rfl, by decide⟩

end FChildKey
