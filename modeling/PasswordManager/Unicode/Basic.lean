import Mathlib.Data.List.Basic

/-!
This module contains the part of Unicode that string processing needs: extended grapheme clusters,
lengths in UTF-16 code units, and character properties. The property tables differ between Unicode
versions, they are a parameter that is fixed on ASCII only.
-/

namespace Unicode

-- The values of the property `Grapheme_Cluster_Break`. `Extended_Pictographic` is a property of its
-- own in the standard, none of its characters has another break value than `other`.
inductive GraphemeBreak where
  | cr
  | lf
  | control
  | extend
  | zwj
  | regionalIndicator
  | prepend
  | spacingMark
  | l
  | v
  | t
  | lv
  | lvt
  | extendedPictographic
  | other
  deriving DecidableEq, Repr

inductive EmojiSequence where
  | none
  | pictographic
  | joiner
  deriving DecidableEq, Repr

structure BreakState where
  prev : GraphemeBreak
  emoji : EmojiSequence
  -- The text ends with an odd number of regional indicators.
  oddIndicators : Bool
  deriving DecidableEq, Repr

namespace BreakState

def start (b : GraphemeBreak) : BreakState where
  prev := b
  emoji := if b = .extendedPictographic then .pictographic else .none
  oddIndicators := b = .regionalIndicator

def next (st : BreakState) (b : GraphemeBreak) : BreakState where
  prev := b
  emoji :=
    match b, st.emoji with
    | .extendedPictographic, _ => .pictographic
    | .extend, .pictographic => .pictographic
    | .zwj, .pictographic => .joiner
    | _, _ => .none
  oddIndicators := b = .regionalIndicator && !st.oddIndicators

def joins (st : BreakState) (b : GraphemeBreak) : Bool :=
  match st.prev, b with
  -- GB3 to GB5
  | .cr, .lf => true
  | .cr, _ => false
  | .lf, _ => false
  | .control, _ => false
  | _, .cr => false
  | _, .lf => false
  | _, .control => false
  -- GB9 and GB9a
  | _, .extend => true
  | _, .zwj => true
  | _, .spacingMark => true
  -- GB9b
  | .prepend, _ => true
  -- GB6 to GB8
  | .l, .l => true
  | .l, .v => true
  | .l, .lv => true
  | .l, .lvt => true
  | .lv, .v => true
  | .lv, .t => true
  | .v, .v => true
  | .v, .t => true
  | .lvt, .t => true
  | .t, .t => true
  -- GB11
  | .zwj, .extendedPictographic => st.emoji = .joiner
  -- GB12 and GB13
  | .regionalIndicator, .regionalIndicator => st.oddIndicators
  | _, _ => false

end BreakState

def asciiBreak (c : Char) : GraphemeBreak :=
  if c.toNat = 13 then
    .cr
  else if c.toNat = 10 then
    .lf
  else if c.toNat < 32 ∨ c.toNat = 127 then
    .control
  else
    .other

structure Tables where
  letter : Char → Bool
  word : Char → Bool
  ignorable : Char → Bool
  graphemeBreak : Char → GraphemeBreak
  -- The form that canonically equivalent texts share. Swift compares strings by it.
  canonical : String → String
  letter_ascii : ∀ c : Char, c.toNat < 128 → letter c = c.isAlpha
  word_ascii : ∀ c : Char, c.toNat < 128 → word c = (c.isAlphanum || c == '_')
  ignorable_ascii : ∀ c : Char, c.toNat < 128 → ignorable c = false
  graphemeBreak_ascii : ∀ c : Char, c.toNat < 128 → graphemeBreak c = asciiBreak c
  canonical_ascii : ∀ s : String, (∀ c ∈ s.toList, c.toNat < 128) → canonical s = s

namespace Tables

variable (tables : Tables)

def clustersAfter (st : BreakState) : List Char → Nat
  | [] => 0
  | c :: cs =>
    let b := tables.graphemeBreak c
    (if st.joins b then 0 else 1) + clustersAfter (st.next b) cs

def clusters : List Char → Nat
  | [] => 0
  | c :: cs => 1 + clustersAfter tables (.start (tables.graphemeBreak c)) cs

def wordBoundary (before after : List Char) : Bool :=
  let isWord (c : Option Char) : Bool := (c.map tables.word).getD false
  match after with
  | [] => isWord (before.find? (fun c => !tables.ignorable c))
  | c :: _ =>
    !tables.ignorable c
      && (tables.word c != isWord (before.find? (fun c => !tables.ignorable c)))

end Tables

def utf16Length (c : Char) : Nat :=
  if c.toNat < 0x10000 then 1 else 2

def utf16Prefix : Nat → List Char → List Char
  | _, [] => []
  | n, c :: cs => if utf16Length c ≤ n then c :: utf16Prefix (n - utf16Length c) cs else []

-- Case folding of the characters that fold to an ASCII character. Besides the capital letters these
-- are LATIN SMALL LETTER LONG S and KELVIN SIGN.
def foldCase (c : Char) : Char :=
  if c.toNat = 0x17F then
    's'
  else if c.toNat = 0x212A then
    'k'
  else
    c.toLower

def caseInsensitive (accepts : Char → Bool) (c : Char) : Bool :=
  accepts c || accepts (foldCase c) || accepts (foldCase c).toUpper

def asciiTables : Tables where
  letter c := c.isAlpha
  word c := c.isAlphanum || c == '_'
  ignorable _ := false
  graphemeBreak c := if c.toNat < 128 then asciiBreak c else .other
  canonical s := s
  letter_ascii _ _ := rfl
  word_ascii _ _ := rfl
  ignorable_ascii _ _ := rfl
  graphemeBreak_ascii c h := by simp [h]
  canonical_ascii _ _ := rfl

end Unicode
