import PasswordManager.Extensions.UrlPattern

/-!
This module contains what a search with the pattern of `isValidEmail` looks for: a local part, the
sign `@`, and labels that are separated by dots or an address in brackets.
-/

namespace String

open Unicode Regex

theorem hasMatch_plain_iff {tables : Tables} {regex : Regex Char} (hplain : regex.Plain)
    (self : String)
    : self.hasMatch tables regex = true
        ↔
      ∃ before word,
        before ++ word <+: self.toList
          ∧ utf16Units (before ++ word) ≤ tables.clusters self.toList
          ∧ regex.Matches [] word [] := by
  rw [hasMatch_iff]
  constructor
  . rintro ⟨before, word, after, hrange, hword⟩
    have hstart : before ++ word <+: utf16Prefix (tables.clusters self.toList) self.toList :=
      ⟨after, hrange.symm⟩
    rw [prefix_utf16Prefix_iff] at hstart
    exact ⟨before, word, hstart.left, hstart.right, (matches_plain_iff hplain).mp hword⟩
  . rintro ⟨before, word, hstart, hunits, hword⟩
    obtain ⟨after, hrange⟩ := prefix_utf16Prefix_iff.mpr ⟨hstart, hunits⟩
    exact ⟨before, word, after, hrange.symm, (matches_plain_iff hplain).mpr hword⟩

namespace isValidEmail

variable (tables : Tables)

theorem plain_regexPattern : (regexPattern tables).Plain := by
  simp [regexPattern, localPart, hostName, label, bracketed, octet, addressLiteral, orEscaped,
    Regex.plus, Regex.star, Regex.opt, Regex.sym, Plain]

def atoms : Regex Char :=
  .seq
    (.plus (.set (atomChar tables)))
    (.star (.seq (.sym '.') (.plus (.set (atomChar tables)))))

def IsLabel (inner : Char → Bool) (word : List Char) : Prop :=
  (label tables inner).Matches [] word []

instance (inner : Char → Bool) (word : List Char) : Decidable (IsLabel tables inner word) :=
  inferInstanceAs (Decidable ((label tables inner).Matches [] word []))

theorem isLabel_iff {inner : Char → Bool} {word : List Char}
    : IsLabel tables inner word
        ↔
      ∃ c rest, word = c :: rest ∧ letterOrDigit tables c = true
        ∧ (rest = [] ∨ ∃ init d, rest = init ++ [d] ∧ (∀ x ∈ init, inner x = true)
          ∧ letterOrDigit tables d = true) := by
  simp only [IsLabel, label, matches_seq, matches_opt, matches_star_set, matches_set]
  constructor
  . rintro ⟨_, rest, rfl, ⟨c, rfl, hc⟩, rfl | ⟨init, _, rfl, hinit, d, rfl, hd⟩⟩
    . exact ⟨c, [], rfl, hc, .inl rfl⟩
    . exact ⟨c, init ++ [d], rfl, hc, .inr ⟨init, d, rfl, hinit, hd⟩⟩
  . rintro ⟨c, rest, rfl, hc, rfl | ⟨init, d, rfl, hinit, hd⟩⟩
    . exact ⟨[c], [], rfl, ⟨c, rfl, hc⟩, .inl rfl⟩
    . exact ⟨[c], init ++ [d], rfl, ⟨c, rfl, hc⟩, .inr ⟨init, [d], rfl, hinit, d, rfl, hd⟩⟩

theorem labelChar_of_letterOrDigit {c : Char} (h : letterOrDigit tables c = true)
    : labelChar tables c = true := by
  apply caseInsensitive_mono _ h
  intro d hd
  simp [hd]

theorem labelChar_of_asciiLabelChar {c : Char} (h : asciiLabelChar c = true)
    : labelChar tables c = true := by
  apply caseInsensitive_mono _ h
  intro d hd
  simp only [Bool.or_eq_true] at hd ⊢
  rcases hd with (hd | hd) | hd
  . have hz : d.val ≤ 'z'.val := of_decide_eq_true (Bool.and_eq_true_iff.mp hd).right
    have hascii : d.toNat < 128 := by
      have hle := UInt32.le_iff_toNat_le.mp hz
      exact Nat.lt_of_le_of_lt hle (by decide)
    have halpha : d.isAlpha = (d.isUpper || d.isLower) := rfl
    rw [tables.letter_ascii d hascii, halpha, hd, Bool.or_true]
    exact .inl (.inl rfl)
  . exact .inl (.inr hd)
  . exact .inr hd

theorem labelChar_symbol {c : Char} (hc : c ∈ ['@', '.', '[']) : labelChar tables c = false := by
  have hcaseless : foldCase c = c ∧ c.toUpper = c ∧ c.toNat < 128
      ∧ (c.isAlpha || c.isDigit || c == '-') = false := by
    simp only [List.mem_cons, List.not_mem_nil, or_false] at hc
    rcases hc with rfl | rfl | rfl <;> decide
  obtain ⟨hfold, hupper, hascii, hsymbol⟩ := hcaseless
  unfold labelChar
  rw [caseInsensitive_of_caseless hfold hupper, tables.letter_ascii c hascii, hsymbol]

theorem letterOrDigit_symbol {c : Char} (hc : c ∈ ['@', '.', '['])
    : letterOrDigit tables c = false := by
  rw [← Bool.not_eq_true]
  intro h
  have := labelChar_of_letterOrDigit tables h
  rw [labelChar_symbol tables hc] at this
  cases this

theorem atomChar_at : atomChar tables '@' = false := by
  unfold atomChar
  rw [caseInsensitive_of_caseless (by decide) (by decide), tables.letter_ascii '@' (by decide)]
  decide +kernel

theorem labelChar_of_isLabel {inner : Char → Bool}
    (hinner : ∀ c, inner c = true → labelChar tables c = true) {word : List Char}
    (h : IsLabel tables inner word) {c : Char} (hc : c ∈ word) : labelChar tables c = true := by
  obtain ⟨first, rest, rfl, hfirst, rfl | ⟨init, last, rfl, hinit, hlast⟩⟩ := (isLabel_iff _).mp h
  . rw [List.mem_singleton] at hc
    subst hc
    exact labelChar_of_letterOrDigit _ hfirst
  . simp only [List.mem_cons, List.mem_append, List.not_mem_nil, or_false] at hc
    rcases hc with rfl | hc | rfl
    . exact labelChar_of_letterOrDigit _ hfirst
    . exact hinner c (hinit c hc)
    . exact labelChar_of_letterOrDigit _ hlast

theorem symbol_notMem_of_isLabel {inner : Char → Bool}
    (hinner : ∀ c, inner c = true → labelChar tables c = true) {word : List Char}
    (h : IsLabel tables inner word) {c : Char} (hc : c ∈ ['@', '.', '[']) : c ∉ word := by
  intro hmem
  have := labelChar_of_isLabel tables hinner h hmem
  rw [labelChar_symbol tables hc] at this
  cases this

theorem matches_regexPattern_iff {word : List Char}
    : (regexPattern tables).Matches [] word []
        ↔
      ∃ l d, word = l ++ '@' :: d ∧ (localPart tables).Matches [] l []
        ∧ ((hostName tables).Matches [] d [] ∨ (bracketed tables).Matches [] d []) := by
  obtain ⟨hlocal, -, hhost, hbracketed⟩ := plain_regexPattern tables
  simp only [regexPattern, matches_seq, matches_alt, matches_sym]
  constructor
  . rintro ⟨l, _, rfl, hl, _, d, rfl, rfl, hd⟩
    rw [matches_plain_iff hlocal] at hl
    rw [matches_plain_iff hhost, matches_plain_iff hbracketed] at hd
    exact ⟨l, d, rfl, hl, hd⟩
  . rintro ⟨l, d, rfl, hl, hd⟩
    refine ⟨l, '@' :: d, rfl, (matches_plain_iff hlocal).mpr hl, ['@'], d, rfl, rfl, ?_⟩
    rwa [matches_plain_iff hhost, matches_plain_iff hbracketed]

theorem matches_hostName_iff {word : List Char}
    : (hostName tables).Matches [] word []
        ↔
      ∃ labels last, labels ≠ [] ∧ word = ['.'].intercalate (labels ++ [last])
        ∧ (∀ l ∈ labels, IsLabel tables asciiLabelChar l)
        ∧ IsLabel tables (labelChar tables) last := by
  have hlabel (inner : Char → Bool) : (label tables inner).Plain := ⟨trivial, trivial, trivial⟩
  have hdotted : (Regex.seq (label tables asciiLabelChar) (.sym '.')).Plain := ⟨hlabel _, trivial⟩
  have hpart (part : List Char)
      : (Regex.seq (label tables asciiLabelChar) (.sym '.')).Matches [] part []
          ↔
        ∃ l, part = l ++ ['.'] ∧ IsLabel tables asciiLabelChar l := by
    simp only [matches_seq, matches_sym]
    constructor
    . rintro ⟨l, _, rfl, hl, rfl⟩
      exact ⟨l, rfl, (matches_plain_iff (hlabel _)).mp hl⟩
    . rintro ⟨l, rfl, hl⟩
      exact ⟨l, _, rfl, (matches_plain_iff (hlabel _)).mpr hl, rfl⟩
  rw [hostName, matches_seq]
  simp only [matches_plus_plain hdotted, hpart, ← List.exists_eq_map_iff,
    matches_plain_iff (hlabel _), List.intercalate_concat_eq]
  constructor
  . rintro ⟨_, last, rfl, ⟨_, hne, rfl, labels, rfl, hlabels⟩, hlast⟩
    exact ⟨labels, last, by simpa using hne, rfl, hlabels, hlast⟩
  . rintro ⟨labels, last, hne, rfl, hlabels, hlast⟩
    exact ⟨_, last, rfl, ⟨_, by simpa using hne, rfl, labels, rfl, hlabels⟩, hlast⟩

theorem matches_atoms_iff {word : List Char}
    : (atoms tables).Matches [] word []
        ↔
      ∃ pieces, pieces ≠ [] ∧ word = ['.'].intercalate pieces
        ∧ ∀ piece ∈ pieces, piece ≠ [] ∧ ∀ c ∈ piece, atomChar tables c = true := by
  have hpart (part : List Char)
      : (Regex.seq (.sym '.') (.plus (.set (atomChar tables)))).Matches [] part []
          ↔
        ∃ piece, part = ['.'] ++ piece ∧ piece ≠ [] ∧ ∀ c ∈ piece, atomChar tables c = true := by
    simp only [matches_seq, matches_sym, matches_plus_set]
    constructor
    . rintro ⟨_, piece, rfl, rfl, hpiece⟩
      exact ⟨piece, rfl, hpiece⟩
    . rintro ⟨piece, rfl, hpiece⟩
      exact ⟨_, piece, rfl, rfl, hpiece⟩
  have hplain : (Regex.seq (.sym '.') (.plus (.set (atomChar tables)))).Plain :=
    ⟨trivial, trivial⟩
  rw [atoms, matches_seq]
  simp only [matches_star_plain hplain, hpart, ← List.exists_eq_map_iff, matches_plus_set]
  constructor
  . rintro ⟨first, _, rfl, hfirst, _, rfl, pieces, rfl, hpieces⟩
    refine ⟨first :: pieces, List.cons_ne_nil _ _, (List.intercalate_cons_eq pieces).symm, ?_⟩
    rw [List.forall_mem_cons]
    exact ⟨hfirst, hpieces⟩
  . rintro ⟨pieces, hne, rfl, hpieces⟩
    cases pieces with
    | nil => exact absurd rfl hne
    | cons first pieces =>
      rw [List.forall_mem_cons] at hpieces
      rw [List.intercalate_cons_eq]
      exact ⟨first, _, rfl, hpieces.left, _, rfl, pieces, rfl, hpieces.right⟩

theorem at_notMem_atoms {word : List Char} (h : (atoms tables).Matches [] word [])
    : '@' ∉ word := by
  obtain ⟨pieces, hne, rfl, hpieces⟩ := (matches_atoms_iff _).mp h
  intro hmem
  have hpiece : ∃ piece ∈ pieces, '@' ∈ piece := by
    cases pieces with
    | nil => exact absurd rfl hne
    | cons first pieces => simpa [List.intercalate_cons_eq] using hmem
  obtain ⟨piece, hpiece, hat⟩ := hpiece
  have := (hpieces piece hpiece).right '@' hat
  rw [atomChar_at] at this
  cases this

theorem start_of_hostName {word : List Char} (h : (hostName tables).Matches [] word [])
    : ∃ first c rest, word = first ++ '.' :: c :: rest ∧ IsLabel tables asciiLabelChar first := by
  obtain ⟨labels, last, hne, rfl, hlabels, hlast⟩ := (matches_hostName_iff _).mp h
  cases labels with
  | nil => exact absurd rfl hne
  | cons first labels =>
    rw [List.forall_mem_cons] at hlabels
    have hrest : ∃ c rest, ['.'].intercalate (labels ++ [last]) = c :: rest := by
      cases labels with
      | nil =>
        obtain ⟨c, rest, rfl, -⟩ := (isLabel_iff _).mp hlast
        exact ⟨c, rest, by simp⟩
      | cons second labels =>
        obtain ⟨c, rest, rfl, -⟩ := (isLabel_iff _).mp (hlabels.right second (by simp))
        rw [List.cons_append, List.intercalate_cons_eq, List.cons_append]
        exact ⟨c, _, rfl⟩
    obtain ⟨c, rest, hrest⟩ := hrest
    refine ⟨first, c, rest, ?_, hlabels.left⟩
    rw [← hrest]
    cases labels with
    | nil => simp
    | cons second labels => simp

end isValidEmail

namespace isValidEmail

variable {tables : Tables} {l a t : List Char} {c : Char}

theorem isLabel_ascii_iff (ha : IsLabel tables (labelChar tables) a)
    : IsLabel tables asciiLabelChar a ↔ ∀ x ∈ a.tail.dropLast, asciiLabelChar x = true := by
  obtain ⟨first, rest, rfl, hfirst, hrest⟩ := (isLabel_iff _).mp ha
  rw [isLabel_iff, List.tail_cons]
  constructor
  . rintro ⟨_, _, heq, -, hrest'⟩
    cases heq
    rcases hrest' with rfl | ⟨init, last, rfl, hinit, -⟩
    . simp
    . simpa using hinit
  . intro hinner
    refine ⟨first, rest, rfl, hfirst, ?_⟩
    rcases hrest with rfl | ⟨init, last, rfl, -, hlast⟩
    . exact .inl rfl
    . exact .inr ⟨init, last, rfl, by simpa using hinner, hlast⟩

theorem match_of_address (hl : (atoms tables).Matches [] l [])
    (ha : IsLabel tables (labelChar tables) a) (hc : letterOrDigit tables c = true)
    (ht : ∀ d ∈ t, labelChar tables d = true ∨ d = '.') {before word after : List Char}
    (haddress : l ++ '@' :: (a ++ '.' :: c :: t) = before ++ word ++ after)
    (hword : (regexPattern tables).Matches [] word [])
    : IsLabel tables asciiLabelChar a ∧ l ++ '@' :: (a ++ ['.', c]) <+: before ++ word := by
  have hdot : '.' ∉ a := symbol_notMem_of_isLabel tables (fun _ => id) ha (by simp)
  have hat : '@' ∉ a ++ '.' :: c :: t := by
    have hat' : '@' ∉ a := symbol_notMem_of_isLabel tables (fun _ => id) ha (by simp)
    have hne : c ≠ '@' := by
      rintro rfl
      rw [letterOrDigit_symbol tables (by simp)] at hc
      cases hc
    have hrest : '@' ∉ t := by
      intro hmem
      have := ht '@' hmem
      rw [labelChar_symbol tables (by simp)] at this
      simp at this
    simp [hat', hne.symm, hrest]
  obtain ⟨l', d, rfl, -, hd⟩ := (matches_regexPattern_iff tables).mp hword
  have hcut : l ++ '@' :: (a ++ '.' :: c :: t) = (before ++ l') ++ '@' :: (d ++ after) := by
    simp [haddress]
  obtain ⟨hlocal, -, hdomain⟩ :=
    (List.append_cons_inj_of_notMem (at_notMem_atoms tables hl) hat).mp hcut
  rcases hd with hd | hd
  . obtain ⟨first, c', rest, rfl, hfirst⟩ := start_of_hostName tables hd
    have hdot' : '.' ∉ first :=
      symbol_notMem_of_isLabel tables (fun _ => labelChar_of_asciiLabelChar tables) hfirst (by simp)
    rw [List.append_assoc, List.cons_append, List.cons_append] at hdomain
    obtain ⟨rfl, hrest⟩ := List.append_cons_inj_of_notMem_left hdot hdot' hdomain
    rw [List.cons.injEq] at hrest
    obtain ⟨rfl, -⟩ := hrest
    refine ⟨hfirst, rest, ?_⟩
    simp [hlocal]
  . obtain ⟨_, d, rfl, hbracket, -⟩ := hd
    rw [matches_sym] at hbracket
    obtain ⟨first, rest, rfl, hfirst, -⟩ := (isLabel_iff _).mp ha
    rw [hbracket, List.cons_append, List.singleton_append, List.cons_append, List.cons.injEq]
      at hdomain
    rw [hdomain.left, letterOrDigit_symbol tables (by simp)] at hfirst
    cases hfirst

end isValidEmail

theorem isValidEmail_address_iff {P : Platform} {self : String} {l a t : List Char} {c : Char}
    (hself : self.toList = l ++ '@' :: (a ++ '.' :: c :: t))
    (hl : (isValidEmail.atoms P.unicode).Matches [] l [])
    (ha : isValidEmail.IsLabel P.unicode (isValidEmail.labelChar P.unicode) a)
    (hc : isValidEmail.letterOrDigit P.unicode c = true)
    (ht : ∀ d ∈ t, isValidEmail.labelChar P.unicode d = true ∨ d = '.')
    : self.isValidEmail P = true
        ↔
      isValidEmail.IsLabel P.unicode isValidEmail.asciiLabelChar a
        ∧ utf16Units (l ++ '@' :: (a ++ ['.', c])) ≤ P.unicode.clusters self.toList := by
  unfold isValidEmail
  rw [hasMatch_plain_iff (isValidEmail.plain_regexPattern _)]
  constructor
  . rintro ⟨before, word, ⟨after, haddress⟩, hunits, hword⟩
    rw [hself] at haddress
    obtain ⟨hlabel, rest, hstart⟩ :=
      isValidEmail.match_of_address hl ha hc ht haddress.symm hword
    refine ⟨hlabel, ?_⟩
    rw [← hstart, utf16Units_append] at hunits
    omega
  . rintro ⟨hlabel, hunits⟩
    refine ⟨[], l ++ '@' :: (a ++ ['.', c]), ⟨t, by simp [hself]⟩, hunits, ?_⟩
    rw [isValidEmail.matches_regexPattern_iff]
    refine ⟨l, a ++ ['.', c], rfl, .inl hl, .inl ?_⟩
    rw [isValidEmail.matches_hostName_iff]
    refine ⟨[a], [c], by simp, by simp, by simpa using hlabel, ?_⟩
    rw [isValidEmail.isLabel_iff]
    exact ⟨c, [], rfl, hc, .inl rfl⟩

theorem ne_empty_of_isValidEmail {P : Platform} {self : String} (h : self.isValidEmail P = true)
    : self ≠ "" := by
  rintro rfl
  unfold isValidEmail at h
  rw [hasMatch_plain_iff (isValidEmail.plain_regexPattern _)] at h
  obtain ⟨before, word, hstart, -, hword⟩ := h
  -- an address contains the sign `@`
  obtain ⟨l, d, rfl, -, -⟩ := (isValidEmail.matches_regexPattern_iff _).mp hword
  simp at hstart

/--
Each Character is a single UTF-16 code unit: the number of clusters is the number of code units.
-/
def SingleUnits (tables : Tables) (self : String) : Prop :=
  tables.clusters self.toList = utf16Units self.toList

instance (tables : Tables) (self : String) : Decidable (SingleUnits tables self) :=
  inferInstanceAs (Decidable (_ = _))

def address (localPart : String) (labels : List String) : String :=
  localPart ++ "@" ++ ".".intercalate labels

/--
Of the labels of a domain only the first one has to be spelled with ASCII characters between its
first and its last one.
-/
theorem isValidEmail_labels_iff (P : Platform) {localPart : String} {labels : List String}
    (hlocal : (isValidEmail.atoms P.unicode).Matches [] localPart.toList [])
    (htwo : 2 ≤ labels.length)
    (hlabels : ∀ label ∈ labels,
      isValidEmail.IsLabel P.unicode (isValidEmail.labelChar P.unicode) label.toList)
    (hunits : SingleUnits P.unicode (address localPart labels))
    : (address localPart labels).isValidEmail P = true
        ↔
      ∀ label ∈ labels.head?, ∀ c ∈ label.toList.tail.dropLast,
        isValidEmail.asciiLabelChar c = true := by
  obtain ⟨first, second, rest, rfl⟩ : ∃ first second rest, labels = first :: second :: rest := by
    match labels, htwo with
    | first :: second :: rest, _ => exact ⟨first, second, rest, rfl⟩
  have hfirst := hlabels first (by simp)
  obtain ⟨c, t, hsecond, hc, -⟩ := (isValidEmail.isLabel_iff _).mp (hlabels second (by simp))
  have hself : (address localPart (first :: second :: rest)).toList
      = localPart.toList ++ '@' :: (first.toList ++ '.' :: c
        :: (t ++ (rest.map (fun label => '.' :: label.toList)).flatten)) := by
    simp [address, List.intercalate_cons_eq, hsecond, Function.comp_def]
  have hchar (label : String) (hmem : label ∈ second :: rest) (d : Char) (hd : d ∈ label.toList)
      : isValidEmail.labelChar P.unicode d = true := by
    exact isValidEmail.labelChar_of_isLabel _ (fun _ => id)
      (hlabels label (List.mem_cons_of_mem _ hmem)) hd
  have ht : ∀ d ∈ t ++ (rest.map (fun label => '.' :: label.toList)).flatten,
      isValidEmail.labelChar P.unicode d = true ∨ d = '.' := by
    intro d hd
    simp only [List.mem_append, List.mem_flatten, List.mem_map] at hd
    rcases hd with hd | ⟨_, ⟨label, hmem, rfl⟩, hd⟩
    . exact .inl (hchar second (by simp) d (by simp [hsecond, hd]))
    . rcases List.mem_cons.mp hd with rfl | hd
      . exact .inr rfl
      . exact .inl (hchar label (List.mem_cons_of_mem _ hmem) d hd)
  rw [isValidEmail_address_iff hself hlocal hfirst hc ht, isValidEmail.isLabel_ascii_iff hfirst,
    hunits, hself]
  simp only [List.head?_cons, Option.mem_def, Option.some.injEq, forall_eq', and_iff_left_iff_imp]
  intro _
  simp

theorem isValidEmail_labels_iff_last_label
    : (address "a" ["b", "b\u00e4b"]).isValidEmail .latin = true := by
  rw [isValidEmail_labels_iff .latin (by decide +kernel) (by decide) (by decide +kernel)
    (by decide +kernel)]
  rintro _ ⟨⟩ c hc
  cases hc

theorem non_ascii_label_rejected
    : (isValidEmail.atoms Platform.latin.unicode).Matches [] "a".toList []
        ∧ (∀ label ∈ ["b\u00e4b", "de"], isValidEmail.IsLabel Platform.latin.unicode
          (isValidEmail.labelChar Platform.latin.unicode) label.toList)
        ∧ SingleUnits Platform.latin.unicode (address "a" ["b\u00e4b", "de"])
        ∧ (address "a" ["b\u00e4b", "de"]).isValidEmail .latin = false := by
  decide +kernel

end String
