import PasswordManager.Extensions.StringExtensions
import PasswordManager.Lists.Basic
import PasswordManager.Platform.Reference
import PasswordManager.Regex.Lemmas
import PasswordManager.Unicode.Lemmas

/-!
This module contains what a search with the pattern of `isValidUrl` looks for, in terms of the
characters around a dot.
-/

namespace String

open Unicode Regex

theorem hasMatch_iff (tables : Tables) (self : String) (regex : Regex Char)
    : self.hasMatch tables regex = true
        ↔
      ∃ before word after,
        utf16Prefix (tables.clusters self.toList) self.toList = before ++ word ++ after
          ∧ regex.Matches before.reverse word after := by
  unfold hasMatch
  rw [firstMatch_isSome_iff]

namespace isValidUrl

def variant (tables : Tables) (max : Option Nat) (tail : Regex Char) : Regex Char :=
  .seq
    (.rounds (.set hostChar) 2 max)
    (.seq
      (.sym '.')
      (.seq
        (.rounds (.set topLevelChar) 2 (some 6))
        (.seq (.assertion tables.wordBoundary) tail)))

theorem regexPattern_eq (tables : Tables)
    : regexPattern tables = variant tables (some 256) (.star (.set pathChar)) := by
  rfl

structure IsTopLevel (word : List Char) : Prop where
  two_le : 2 ≤ word.length
  le_six : word.length ≤ 6
  all : ∀ c ∈ word, topLevelChar c = true

def HasSite (tables : Tables) (text : List Char) : Prop :=
  ∃ before x y word after,
    text = before ++ x :: y :: '.' :: (word ++ after)
      ∧ hostChar x = true ∧ hostChar y = true ∧ IsTopLevel word
      ∧ tables.wordBoundary (word.reverse ++ '.' :: y :: x :: before.reverse) after = true

theorem matches_variant_iff {tables : Tables} {max : Option Nat} {tail : Regex Char}
    {before word after : List Char}
    : (variant tables max tail).Matches before word after
        ↔
      ∃ host top rest,
        word = host ++ '.' :: (top ++ rest)
          ∧ 2 ≤ host.length ∧ (∀ m, max = some m → host.length - 2 ≤ m - 2)
          ∧ (∀ c ∈ host, hostChar c = true) ∧ IsTopLevel top
          ∧ tables.wordBoundary (top.reverse ++ '.' :: (host.reverse ++ before)) (rest ++ after)
              = true
          ∧ tail.Matches (top.reverse ++ '.' :: (host.reverse ++ before)) rest after := by
  simp only [variant, matches_seq, matches_rounds_set, matches_sym, matches_assertion]
  constructor
  . rintro ⟨host, _, rfl, ⟨hmin, hmax, hhost⟩, _, _, rfl, rfl, top, _, rfl, ⟨hmin', hmax', htop⟩,
      _, rest, rfl, ⟨rfl, hboundary⟩, htail⟩
    refine ⟨host, top, rest, by simp, hmin, hmax, hhost, ⟨hmin', ?_, htop⟩, ?_, ?_⟩
    . have := hmax' 6 rfl
      omega
    . simpa using hboundary
    . simpa using htail
  . rintro ⟨host, top, rest, rfl, hmin, hmax, hhost, htop, hboundary, htail⟩
    refine ⟨host, _, rfl, ⟨hmin, hmax, hhost⟩, ['.'], _, rfl, rfl, top, rest, rfl, ?_, ?_⟩
    . refine ⟨htop.two_le, ?_, htop.all⟩
      have := htop.le_six
      simp
      omega
    . exact ⟨[], rest, rfl, ⟨rfl, by simpa using hboundary⟩, by simpa using htail⟩

theorem exists_variant_iff {tables : Tables} {max : Option Nat} {tail : Regex Char}
    (htail : ∀ before after, tail.Matches before [] after) (text : List Char)
    : (∃ before word after, text = before ++ word ++ after
          ∧ (variant tables max tail).Matches before.reverse word after)
        ↔
      HasSite tables text := by
  simp only [matches_variant_iff]
  constructor
  . rintro ⟨before, _, after, rfl, host, top, rest, rfl, hmin, -, hhost, htop, hboundary, -⟩
    obtain ⟨init, x, y, rfl⟩ := List.exists_eq_append_pair hmin
    refine ⟨before ++ init, x, y, top, rest ++ after, by simp, ?_, ?_, htop, ?_⟩
    . exact hhost x (by simp)
    . exact hhost y (by simp)
    . simpa using hboundary
  . rintro ⟨before, x, y, top, after, rfl, hx, hy, htop, hboundary⟩
    refine ⟨before, [x, y] ++ '.' :: (top ++ []), after, by simp, [x, y], top, [], rfl, ?_⟩
    refine ⟨by simp, by simp, by simp [hx, hy], htop, ?_, htail _ _⟩
    simpa using hboundary

end isValidUrl

theorem hasMatch_variant_iff {tables : Tables} {max : Option Nat} {tail : Regex Char}
    (htail : ∀ before after, tail.Matches before [] after) (self : String)
    : self.hasMatch tables (isValidUrl.variant tables max tail) = true
        ↔
      isValidUrl.HasSite tables (utf16Prefix (tables.clusters self.toList) self.toList) := by
  rw [hasMatch_iff, isValidUrl.exists_variant_iff htail]

theorem isValidUrl_iff (P : Platform) (self : String)
    : self.isValidUrl P = true
        ↔
      isValidUrl.HasSite P.unicode
        (utf16Prefix (P.unicode.clusters self.toList) self.toList) := by
  unfold isValidUrl
  rw [isValidUrl.regexPattern_eq, hasMatch_variant_iff]
  simp

theorem ne_empty_of_isValidUrl {P : Platform} {self : String} (h : self.isValidUrl P = true)
    : self ≠ "" := by
  rintro rfl
  rw [isValidUrl_iff] at h
  obtain ⟨before, x, y, word, after, hrange, -⟩ := h
  simp [utf16Prefix] at hrange

namespace isValidUrl

def asciiHostChar (c : Char) : Bool :=
  c.isAlphanum || oneOf "-@:%._+~#=" c

def asciiWordChar (c : Char) : Bool :=
  c.isAlphanum || c == '_'

theorem hostChar_ascii {c : Char} (hc : c.toNat < 128) : hostChar c = asciiHostChar c := by
  apply forall_ascii (p := fun c => hostChar c = asciiHostChar c) _ hc
  decide +kernel

theorem topLevelChar_ascii {c : Char} (hc : c.toNat < 128) : topLevelChar c = c.isAlpha := by
  apply forall_ascii (p := fun c => topLevelChar c = c.isAlpha) _ hc
  decide +kernel

theorem asciiWordChar_of_isAlpha {c : Char} (h : c.isAlpha = true) : asciiWordChar c = true := by
  simp [asciiWordChar, Char.isAlphanum, h]

theorem wordBoundary_after_word {tables : Tables} {last : Char} (before : List Char)
    {after : List Char} (hlast : tables.word last = true)
    (hignorable : tables.ignorable last = false)
    : tables.wordBoundary (last :: before) after = true
        ↔
      ∀ c ∈ after.head?, tables.ignorable c = false ∧ tables.word c = false := by
  unfold Tables.wordBoundary
  cases after with
  | nil => simp [hlast, hignorable]
  | cons c after => simp [hlast, hignorable]

/--
The same condition for ASCII texts, without the tables: the run of word characters behind the dot
consists of two to six letters.
-/
def HasAsciiSite (text : List Char) : Prop :=
  ∃ before x y after,
    text = before ++ x :: y :: '.' :: after
      ∧ asciiHostChar x = true ∧ asciiHostChar y = true
      ∧ 2 ≤ (after.takeWhile asciiWordChar).length
      ∧ (after.takeWhile asciiWordChar).length ≤ 6
      ∧ ∀ c ∈ after.takeWhile asciiWordChar, c.isAlpha = true

theorem wordBoundary_ascii (tables : Tables) {word before after : List Char}
    (hascii : ∀ c ∈ word ++ after, c.toNat < 128) (hne : word ≠ [])
    (hword : ∀ c ∈ word, c.isAlpha = true)
    : tables.wordBoundary (word.reverse ++ before) after = true
        ↔
      ∀ c ∈ after.head?, asciiWordChar c = false := by
  obtain ⟨init, last, rfl⟩ := List.eq_nil_or_concat word |>.resolve_left hne
  have hlast : last.toNat < 128 := hascii last (by simp)
  have hlastWord : tables.word last = true := by
    rw [tables.word_ascii last hlast]
    exact asciiWordChar_of_isAlpha (hword last (by simp))
  rw [List.concat_eq_append, List.reverse_append, List.reverse_singleton, List.cons_append,
    List.cons_append, wordBoundary_after_word _ hlastWord (tables.ignorable_ascii last hlast)]
  constructor
  . intro h c hc
    have hc' : c.toNat < 128 := hascii c (by simp [List.mem_of_mem_head? hc])
    rw [asciiWordChar, ← tables.word_ascii c hc']
    exact (h c hc).right
  . intro h c hc
    have hc' : c.toNat < 128 := hascii c (by simp [List.mem_of_mem_head? hc])
    rw [tables.ignorable_ascii c hc', tables.word_ascii c hc']
    exact ⟨rfl, h c hc⟩

theorem hasSite_ascii_iff (tables : Tables) {text : List Char} (h : ∀ c ∈ text, c.toNat < 128)
    : HasSite tables text ↔ HasAsciiSite text := by
  unfold HasSite HasAsciiSite
  constructor
  . rintro ⟨before, x, y, word, after, rfl, hx, hy, hword, hboundary⟩
    have hletters : ∀ c ∈ word, c.isAlpha = true := by
      intro c hc
      rw [← topLevelChar_ascii (h c (by simp [hc]))]
      exact hword.all c hc
    have hne : word ≠ [] := by
      rintro rfl
      simpa using hword.two_le
    rw [wordBoundary_ascii tables _ hne hletters] at hboundary
    . have hrun : (word ++ after).takeWhile asciiWordChar = word := by
        rw [List.takeWhile_eq_iff]
        exact ⟨after, rfl, fun c hc => asciiWordChar_of_isAlpha (hletters c hc), hboundary⟩
      refine ⟨before, x, y, word ++ after, rfl, ?_, ?_, ?_, ?_, ?_⟩
      . rwa [← hostChar_ascii (h x (by simp))]
      . rwa [← hostChar_ascii (h y (by simp))]
      . rw [hrun]
        exact hword.two_le
      . rw [hrun]
        exact hword.le_six
      . rwa [hrun]
    . intro c hc
      apply h
      simp only [List.mem_append, List.mem_cons] at hc ⊢
      tauto
  . rintro ⟨before, x, y, text, rfl, hx, hy, htwo, hsix, hletters⟩
    obtain ⟨after, htext, hall, hafter⟩ := List.takeWhile_eq_iff.mp (rfl : text.takeWhile _ = _)
    generalize text.takeWhile asciiWordChar = word at *
    subst htext
    have hne : word ≠ [] := by
      rintro rfl
      simp at htwo
    refine ⟨before, x, y, word, after, rfl, ?_, ?_, ⟨htwo, hsix, ?_⟩, ?_⟩
    . rwa [hostChar_ascii (h x (by simp))]
    . rwa [hostChar_ascii (h y (by simp))]
    . intro c hc
      rw [topLevelChar_ascii (h c (by simp [hc]))]
      exact hletters c hc
    . rw [wordBoundary_ascii tables _ hne hletters]
      . exact hafter
      . intro c hc
        apply h
        simp only [List.mem_append, List.mem_cons] at hc ⊢
        tauto

end isValidUrl

/--
A string of ASCII characters without carriage returns is a valid url exactly if it contains a dot
behind two host characters and before a run of word characters that consists of two to six letters.
Neither the bound 256 nor the trailing path group has a say in it.
-/
theorem isValidUrl_ascii_iff (P : Platform) (self : String)
    (hascii : ∀ c ∈ self.toList, c.toNat < 128 ∧ c ≠ '\r')
    : (self.isValidUrl P = true ↔ isValidUrl.HasAsciiSite self.toList)
        ∧ self.hasMatch P.unicode (isValidUrl.variant P.unicode none .empty)
            =
          self.isValidUrl P := by
  have hrange : utf16Prefix (P.unicode.clusters self.toList) self.toList = self.toList := by
    apply utf16Prefix_of_le
    rw [P.unicode.clusters_of_ascii hascii, utf16Units_of_ascii (fun c hc => (hascii c hc).left)]
  have hsite : self.isValidUrl P = true ↔ isValidUrl.HasSite P.unicode self.toList := by
    rw [isValidUrl_iff, hrange]
  constructor
  . rw [hsite, isValidUrl.hasSite_ascii_iff P.unicode (fun c hc => (hascii c hc).left)]
  . rw [Bool.eq_iff_iff, hsite, hasMatch_variant_iff, hrange]
    intro before after
    rfl

theorem isValidUrl_ascii_iff_two_dots
    : isValidUrl.HasAsciiSite "http://ab.com_ ab.info/".toList := by
  have hascii : "http://ab.com_ ab.info/".toList.all (fun c => c.toNat < 128 ∧ c ≠ '\r')
      = true := by
    decide +kernel
  have h := isValidUrl_ascii_iff .reference "http://ab.com_ ab.info/"
    (fun c hc => of_decide_eq_true (List.all_eq_true.mp hascii c hc))
  exact h.left.mp (by decide +kernel)

end String
