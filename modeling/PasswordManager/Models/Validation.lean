import PasswordManager.Extensions.SearchRange
import PasswordManager.Models.CredentialLemmas

/-!
This module contains what `Credential.validate` lets through, compared with a validation that judges
the username and the website from their first to their last character.
-/

namespace String

open Unicode Regex

namespace isValidEmail

variable (tables : Tables)

def quoted : Regex Char :=
  .seq (.sym '"') (.seq (.star (orEscaped quotedChar)) (.sym '"'))

theorem localPart_eq : localPart tables = .alt (atoms tables) quoted := by
  rfl

structure IsAtom (word : List Char) : Prop where
  ne_nil : word ≠ []
  all : ∀ c ∈ word, atomChar tables c = true

def IsQuotedItem (item : List Char) : Prop :=
  (∃ c, item = [c] ∧ quotedChar c = true) ∨ ∃ c, item = ['\\', c] ∧ escapedChar c = true

def IsLocalPart (word : List Char) : Prop :=
  (∃ pieces, pieces ≠ [] ∧ word = ['.'].intercalate pieces ∧ ∀ piece ∈ pieces, IsAtom tables piece)
    ∨ ∃ items : List (List Char), word = '"' :: (items.flatten ++ ['"'])
      ∧ ∀ item ∈ items, IsQuotedItem item

def IsHostName (word : List Char) : Prop :=
  ∃ labels last, labels ≠ [] ∧ word = ['.'].intercalate (labels ++ [last])
    ∧ (∀ l ∈ labels, IsLabel tables asciiLabelChar l) ∧ IsLabel tables (labelChar tables) last

/--
A local part, the sign, and a domain, which is a host name or an address in brackets.
-/
def IsAddress (word : List Char) : Prop :=
  ∃ l d, word = l ++ '@' :: d ∧ IsLocalPart tables l
    ∧ (IsHostName tables d ∨ (bracketed tables).Matches [] d [])

theorem matches_quoted_iff {word : List Char}
    : quoted.Matches [] word []
        ↔
      ∃ items : List (List Char), word = '"' :: (items.flatten ++ ['"'])
        ∧ ∀ item ∈ items, IsQuotedItem item := by
  have hplain : (orEscaped quotedChar).Plain := ⟨trivial, trivial, trivial⟩
  have hitem (item : List Char)
      : (orEscaped quotedChar).Matches [] item [] ↔ IsQuotedItem item := by
    simp only [orEscaped, matches_alt, matches_seq, matches_set, matches_sym, IsQuotedItem]
    constructor
    . rintro (h | ⟨_, _, rfl, rfl, c, rfl, hc⟩)
      . exact .inl h
      . exact .inr ⟨c, rfl, hc⟩
    . rintro (h | ⟨c, rfl, hc⟩)
      . exact .inl h
      . exact .inr ⟨_, [c], rfl, rfl, c, rfl, hc⟩
  simp only [quoted, matches_seq, matches_sym, matches_star_plain hplain, hitem]
  constructor
  . rintro ⟨_, _, rfl, rfl, _, _, rfl, ⟨items, rfl, hitems⟩, rfl⟩
    exact ⟨items, rfl, hitems⟩
  . rintro ⟨items, rfl, hitems⟩
    exact ⟨_, _, rfl, rfl, _, _, rfl, ⟨items, rfl, hitems⟩, rfl⟩

theorem matches_regexPattern_iff_isAddress {word : List Char}
    : (regexPattern tables).Matches [] word [] ↔ IsAddress tables word := by
  have hatoms (l : List Char)
      : (atoms tables).Matches [] l []
          ↔
        ∃ pieces, pieces ≠ [] ∧ l = ['.'].intercalate pieces
          ∧ ∀ piece ∈ pieces, IsAtom tables piece := by
    rw [matches_atoms_iff]
    constructor
    . rintro ⟨pieces, hne, rfl, hpieces⟩
      refine ⟨pieces, hne, rfl, ?_⟩
      intro piece hpiece
      exact ⟨(hpieces piece hpiece).left, (hpieces piece hpiece).right⟩
    . rintro ⟨pieces, hne, rfl, hpieces⟩
      refine ⟨pieces, hne, rfl, ?_⟩
      intro piece hpiece
      exact ⟨(hpieces piece hpiece).ne_nil, (hpieces piece hpiece).all⟩
  simp only [matches_regexPattern_iff, localPart_eq, matches_alt, hatoms, matches_quoted_iff,
    matches_hostName_iff, IsAddress, IsLocalPart, IsHostName]

end isValidEmail

namespace isValidUrl

/--
From 2 to 256 host characters, a dot, a top level domain that ends at a word boundary, and path
characters.
-/
def IsSiteWithPath (tables : Tables) (word : List Char) : Prop :=
  ∃ host top rest,
    word = host ++ '.' :: (top ++ rest)
      ∧ 2 ≤ host.length ∧ host.length ≤ 256 ∧ (∀ c ∈ host, hostChar c = true)
      ∧ IsTopLevel top ∧ tables.wordBoundary (top.reverse ++ '.' :: host.reverse) rest = true
      ∧ ∀ c ∈ rest, pathChar c = true

theorem matches_regexPattern_iff_isSiteWithPath {tables : Tables} {word : List Char}
    : (regexPattern tables).Matches [] word [] ↔ IsSiteWithPath tables word := by
  rw [regexPattern_eq, matches_variant_iff]
  simp only [Option.some.injEq, forall_eq', matches_star_set, List.append_nil, IsSiteWithPath]
  constructor
  . rintro ⟨host, top, rest, rfl, hmin, hmax, hhost, htop, hboundary, hrest⟩
    exact ⟨host, top, rest, rfl, hmin, by omega, hhost, htop, hboundary, hrest⟩
  . rintro ⟨host, top, rest, rfl, hmin, hmax, hhost, htop, hboundary, hrest⟩
    exact ⟨host, top, rest, rfl, hmin, by omega, hhost, htop, hboundary, hrest⟩

end isValidUrl

end String

namespace Credential

open String

def JudgedWhole (P : Platform) (self : Credential) : Prop :=
  self.validate P = true →
    (∀ username, self.username = some username
        → (isValidEmail.regexPattern P.unicode).Matches [] username.toList [])
      ∧ ∀ website, self.website = some website
        → (isValidUrl.regexPattern P.unicode).Matches [] website.toList []

/--
Validation judges the whole fields exactly of those credentials that lack a field, that have no
email within the range of their username or no site within the range of their website, or whose
username is nothing but an address and whose website nothing but a site with a path.
-/
theorem judgedWhole_iff (P : Platform) (self : Credential)
    : JudgedWhole P self
        ↔
      ∀ username website password, self = ⟨some username, some website, some password⟩
        → EmailEndsInRange P username
        → SiteInsideRange P website ∨ SiteAtCut P website
        → isValidEmail.IsAddress P.unicode username.toList
          ∧ isValidUrl.IsSiteWithPath P.unicode website.toList := by
  unfold JudgedWhole
  simp only [isValidEmail.matches_regexPattern_iff_isAddress,
    isValidUrl.matches_regexPattern_iff_isSiteWithPath]
  constructor
  . rintro h username website password rfl husername hwebsite
    have hvalid : validate P ⟨some username, some website, some password⟩ = true := by
      simp only [validate, Bool.and_eq_true]
      exact ⟨(isValidEmail_iff_inRange P username).mpr husername,
        (isValidUrl_iff_site P website).mpr hwebsite⟩
    exact ⟨(h hvalid).left username rfl, (h hvalid).right website rfl⟩
  . intro h hvalid
    obtain ⟨username, website, password, rfl, husername, hwebsite⟩ := validate_fields hvalid
    have hwhole := h username website password rfl
      ((isValidEmail_iff_inRange P username).mp husername)
      ((isValidUrl_iff_site P website).mp hwebsite)
    constructor
    . rintro _ ⟨⟩
      exact hwhole.left
    . rintro _ ⟨⟩
      exact hwhole.right

theorem surrounded_fields_valid
    : ¬ JudgedWhole .reference ⟨some "to: a@b.co", some "see ab.com!", some "pw"⟩ := by
  intro h
  have hvalid : validate .reference ⟨some "to: a@b.co", some "see ab.com!", some "pw"⟩ = true := by
    decide +kernel
  have husername := (h hvalid).left _ rfl
  revert husername
  decide +kernel

end Credential
