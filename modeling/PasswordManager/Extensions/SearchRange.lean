import PasswordManager.Extensions.EmailPattern

/-!
This module contains what it does to the validators that the range of their search is as many UTF-16
code units long as the string has Characters.
-/

namespace String

open Unicode Regex

def HasPart (self : String) (regex : Regex Char) : Prop :=
  ∃ before word after, self.toList = before ++ word ++ after
    ∧ regex.Matches before.reverse word after

def RangeCovers (P : Platform) (self : String) : Prop :=
  (self.isValidEmail P = true ↔ self.HasPart (isValidEmail.regexPattern P.unicode))
    ∧ (self.isValidUrl P = true ↔ self.HasPart (isValidUrl.regexPattern P.unicode))

instance (self : String) (regex : Regex Char) : Decidable (self.HasPart regex) :=
  decidable_of_iff _ (firstMatch_isSome_iff regex self.toList)

instance (P : Platform) (self : String) : Decidable (RangeCovers P self) :=
  inferInstanceAs (Decidable (_ ∧ _))

def EmailEndsInRange (P : Platform) (self : String) : Prop :=
  ∃ before word,
    before ++ word <+: self.toList
      ∧ utf16Units (before ++ word) ≤ P.unicode.clusters self.toList
      ∧ (isValidEmail.regexPattern P.unicode).Matches [] word []

def EndsWithSite (start : List Char) : Prop :=
  ∃ before x y word,
    start = before ++ x :: y :: '.' :: word
      ∧ isValidUrl.hostChar x = true ∧ isValidUrl.hostChar y = true ∧ isValidUrl.IsTopLevel word

-- A site ends at a word boundary, and the range contains the character behind it.
def SiteInsideRange (P : Platform) (self : String) : Prop :=
  ∃ start c after,
    self.toList = start ++ c :: after ∧ EndsWithSite start
      ∧ P.unicode.wordBoundary start.reverse (c :: after) = true
      ∧ utf16Units (start ++ [c]) ≤ P.unicode.clusters self.toList

-- A site ends at a word boundary, and the range does not contain the character behind it.
def SiteBeyondRange (P : Platform) (self : String) : Prop :=
  ∃ start after,
    self.toList = start ++ after ∧ EndsWithSite start
      ∧ P.unicode.wordBoundary start.reverse after = true
      ∧ ∀ c ∈ after.head?, P.unicode.clusters self.toList < utf16Units (start ++ [c])

-- The string would end with a site if it were cut off at the end of the range.
def SiteAtCut (P : Platform) (self : String) : Prop :=
  let range := utf16Prefix (P.unicode.clusters self.toList) self.toList
  EndsWithSite range ∧ P.unicode.wordBoundary range.reverse [] = true

theorem hasSite_iff {tables : Tables} {text : List Char}
    : isValidUrl.HasSite tables text
        ↔
      ∃ start after, text = start ++ after ∧ EndsWithSite start
        ∧ tables.wordBoundary start.reverse after = true := by
  constructor
  . rintro ⟨before, x, y, word, after, rfl, hx, hy, hword, hboundary⟩
    refine ⟨before ++ x :: y :: '.' :: word, after, by simp, ⟨before, x, y, word, rfl, hx, hy,
      hword⟩, ?_⟩
    simpa using hboundary
  . rintro ⟨_, after, rfl, ⟨before, x, y, word, rfl, hx, hy, hword⟩, hboundary⟩
    refine ⟨before, x, y, word, after, by simp, hx, hy, hword, ?_⟩
    simpa using hboundary

theorem isValidUrl_iff_site (P : Platform) (self : String)
    : self.isValidUrl P = true ↔ SiteInsideRange P self ∨ SiteAtCut P self := by
  rw [isValidUrl_iff, hasSite_iff]
  constructor
  . rintro ⟨start, after, hrange, hsite, hboundary⟩
    cases after with
    | nil =>
      right
      rw [List.append_nil] at hrange
      unfold SiteAtCut
      rw [hrange]
      exact ⟨hsite, hboundary⟩
    | cons c after =>
      left
      have hstart : start ++ [c] <+: utf16Prefix (P.unicode.clusters self.toList) self.toList :=
        ⟨after, by simp [hrange]⟩
      obtain ⟨⟨rest, hself⟩, hunits⟩ := prefix_utf16Prefix_iff.mp hstart
      exact ⟨start, c, rest, by simp [← hself], hsite, hboundary, hunits⟩
  . rintro (⟨start, c, after, hself, hsite, hboundary, hunits⟩ | ⟨hsite, hboundary⟩)
    . have hstart : start ++ [c] <+: self.toList := ⟨after, by simp [hself]⟩
      obtain ⟨rest, hrange⟩ := prefix_utf16Prefix_iff.mpr ⟨hstart, hunits⟩
      exact ⟨start, c :: rest, by simp [← hrange], hsite, hboundary⟩
    . exact ⟨_, [], by simp, hsite, hboundary⟩

theorem hasPart_url_iff (P : Platform) (self : String)
    : self.HasPart (isValidUrl.regexPattern P.unicode)
        ↔
      SiteInsideRange P self ∨ SiteBeyondRange P self := by
  unfold HasPart
  rw [isValidUrl.regexPattern_eq, isValidUrl.exists_variant_iff (by simp), hasSite_iff]
  constructor
  . rintro ⟨start, after, hself, hsite, hboundary⟩
    by_cases hin : ∀ c ∈ after.head?, P.unicode.clusters self.toList < utf16Units (start ++ [c])
    . exact .inr ⟨start, after, hself, hsite, hboundary, hin⟩
    . left
      cases after with
      | nil => simp at hin
      | cons c after =>
        refine ⟨start, c, after, hself, hsite, hboundary, ?_⟩
        simpa using hin
  . rintro (⟨start, c, after, hself, hsite, hboundary, -⟩
      | ⟨start, after, hself, hsite, hboundary, -⟩)
    . exact ⟨start, c :: after, hself, hsite, hboundary⟩
    . exact ⟨start, after, hself, hsite, hboundary⟩

theorem isValidEmail_iff_inRange (P : Platform) (self : String)
    : self.isValidEmail P = true ↔ EmailEndsInRange P self := by
  unfold isValidEmail
  rw [hasMatch_plain_iff (isValidEmail.plain_regexPattern _)]
  rfl

theorem hasPart_of_emailEndsInRange {P : Platform} {self : String} (h : EmailEndsInRange P self)
    : self.HasPart (isValidEmail.regexPattern P.unicode) := by
  obtain ⟨before, word, ⟨after, hself⟩, -, hword⟩ := h
  exact ⟨before, word, after, hself.symm,
    matches_of_plain (isValidEmail.plain_regexPattern _) hword _ _⟩

/--
The validators answer as if they had searched the whole string exactly if an email that the string
contains, if any, ends within the range, and a site ends inside the range unless cutting the string
off there neither makes up nor loses one.
-/
theorem rangeCovers_iff (P : Platform) (self : String)
    : RangeCovers P self
        ↔
      (self.HasPart (isValidEmail.regexPattern P.unicode) → EmailEndsInRange P self)
        ∧ (SiteInsideRange P self ∨ (SiteAtCut P self ↔ SiteBeyondRange P self)) := by
  unfold RangeCovers
  rw [isValidEmail_iff_inRange, isValidUrl_iff_site, hasPart_url_iff]
  have hemail : EmailEndsInRange P self → self.HasPart (isValidEmail.regexPattern P.unicode) :=
    hasPart_of_emailEndsInRange
  tauto

-- A letter beyond the BMP pushes the last label out of the range. Line breaks, which are one
-- Character and two code units each, cut a long word down to a top level domain.
theorem range_too_short
    : ¬ RangeCovers .latin "𐐀@b.c"
        ∧ ¬ RangeCovers .reference "\r\n\r\n\r\n\r\n\r\nab.commmmm" := by
  decide +kernel

end String
