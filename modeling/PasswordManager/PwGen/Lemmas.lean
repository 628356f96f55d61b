import PasswordManager.PwGen.Basic
import Mathlib.Data.Set.Insert
import Mathlib.Data.List.OfFn

/-!
This module contains what the generator can give out: the characters that are left after any
sequence of settings, and the passwords that are made of them.
-/

namespace PwGen

variable (unicode : Unicode.Tables) (cases : CaseMapping)

namespace Setting

def restrict (allowed : Set String) : Setting → Set String
  | .ofSize _ => allowed
  | .withoutNumbers => allowed \ {c | c ∈ numbers}
  | .withoutLetters => allowed \ {c | c ∈ letters}
  | .withoutSymbols => allowed \ {c | c ∈ symbols}
  | .withoutUppercase => allowed
  | .withoutCharacter character => allowed \ {unicode.canonical (cases.lowercased character)}
  | .withoutCharacters characters =>
    allowed \ {c | ∃ d ∈ characters, unicode.canonical (cases.lowercased d) = c}
  | .addCharacter character =>
    allowed ∪ {c | unicode.clusters character.toList = 1
      ∧ unicode.canonical (cases.lowercased character) = c}
  | .addCharacters characters =>
    allowed ∪ {c | ∃ d ∈ characters, unicode.clusters d.toList = 1
      ∧ unicode.canonical (cases.lowercased d) = c}
  | .reset => {c | c ∈ symbols ++ letters ++ numbers}

end Setting

structure StandsFor (generator : PwGen) (allowed : Set String) : Prop where
  nodup : (generator.characters.map unicode.canonical).Nodup
  mem_iff : ∀ c, c ∈ generator.characters.map unicode.canonical ↔ c ∈ allowed

def IsAscii (characters : List String) : Prop :=
  ∀ character ∈ characters, ∀ c ∈ character.toList, c.toNat < 128

instance (characters : List String) : Decidable (IsAscii characters) :=
  decidable_of_iff
    (characters.all (fun character => character.toList.all (fun c => c.toNat < 128)) = true)
    (by simp [IsAscii])

theorem defaults_ascii : IsAscii (symbols ++ letters ++ numbers) := by
  decide +kernel

theorem defaults_nodup : (symbols ++ letters ++ numbers).Nodup := by
  decide +kernel

variable {unicode cases}

theorem map_canonical {characters : List String} (h : IsAscii characters)
    : characters.map unicode.canonical = characters := by
  rw [← List.map_id characters, List.map_map]
  apply List.map_congr_left
  intro character hcharacter
  exact unicode.canonical_ascii character (h character hcharacter)

theorem filterEach_eq (excluded characters : List String)
    : filterEach unicode excluded characters
        =
      characters.filter (fun c => unicode.canonical c ∉ excluded.map unicode.canonical) := by
  unfold filterEach
  induction excluded generalizing characters with
  | nil => simp
  | cons character excluded ih =>
    rw [List.foldl_cons, ih, filter, List.filter_filter]
    apply List.filter_congr
    intro c _
    by_cases hc : unicode.canonical c = unicode.canonical character
    . simp [hc]
    . simp [hc]

theorem filterEach_map (excluded characters : List String)
    : (filterEach unicode excluded characters).map unicode.canonical
        =
      (characters.map unicode.canonical).filter (· ∉ excluded.map unicode.canonical) := by
  rw [filterEach_eq, List.filter_map]
  rfl

theorem filter_eq (character : String) (characters : List String)
    : filter unicode character characters = filterEach unicode [character] characters := by
  rfl

theorem filterEach_ascii {excluded characters : List String} (hexcluded : IsAscii excluded)
    (hcharacters : IsAscii characters)
    : filterEach unicode excluded characters = characters.filter (· ∉ excluded) := by
  rw [filterEach_eq, map_canonical hexcluded]
  apply List.filter_congr
  intro c hc
  rw [unicode.canonical_ascii c (hcharacters c hc)]

theorem contains_iff {character : String} {characters : List String}
    : contains unicode character characters = true
        ↔
      unicode.canonical character ∈ characters.map unicode.canonical := by
  simp [contains]

theorem new_standsFor : new.StandsFor unicode {c | c ∈ symbols ++ letters ++ numbers} where
  nodup := by
    rw [new, map_canonical defaults_ascii]
    exact defaults_nodup
  mem_iff c := by
    rw [new, map_canonical defaults_ascii]
    rfl

theorem StandsFor.filterEach {self : PwGen} {allowed : Set String}
    (h : self.StandsFor unicode allowed) (excluded : List String)
    : ({ self with
          characters := filterEach unicode excluded self.characters } : PwGen).StandsFor unicode
        (allowed \ {c | c ∈ excluded.map unicode.canonical}) where
  nodup := by
    rw [filterEach_map]
    exact h.nodup.filter _
  mem_iff c := by
    rw [filterEach_map, List.mem_filter, h.mem_iff, decide_eq_true_eq]
    rfl

theorem StandsFor.filterDefaults {self : PwGen} {allowed : Set String}
    (h : self.StandsFor unicode allowed) {excluded : List String} (hexcluded : IsAscii excluded)
    : ({ self with
          characters := PwGen.filterEach unicode excluded self.characters } : PwGen).StandsFor
        unicode (allowed \ {c | c ∈ excluded}) := by
  have hfilter := h.filterEach excluded
  rw [map_canonical hexcluded] at hfilter
  exact hfilter

theorem StandsFor.add {self : PwGen} {allowed : Set String} (h : self.StandsFor unicode allowed)
    (character : String)
    : (self.addCharacter unicode cases character).StandsFor unicode
        (allowed ∪ {c | unicode.clusters character.toList = 1
          ∧ unicode.canonical (cases.lowercased character) = c}) := by
  unfold addCharacter
  split
  . next hcount =>
    split
    . next hnew =>
      rw [Bool.not_eq_true', ← Bool.not_eq_true, contains_iff] at hnew
      constructor
      . rw [List.map_append, List.map_singleton, List.nodup_append]
        refine ⟨h.nodup, by simp, ?_⟩
        intro c hc d hd heq
        rw [List.mem_singleton] at hd
        rw [← hd, ← heq] at hnew
        exact hnew hc
      . intro c
        rw [List.map_append, List.map_singleton, List.mem_append, List.mem_singleton, h.mem_iff]
        simp [hcount, eq_comm, or_comm]
    . next hold =>
      rw [Bool.not_eq_true', Bool.not_eq_false, contains_iff] at hold
      refine ⟨h.nodup, ?_⟩
      intro c
      rw [h.mem_iff]
      constructor
      . exact .inl
      . intro hc
        cases hc with
        | inl hc => exact hc
        | inr hc =>
          rw [← hc.right, ← h.mem_iff]
          exact hold
  . next hcount =>
    refine ⟨h.nodup, ?_⟩
    intro c
    rw [h.mem_iff]
    simp [hcount]

theorem StandsFor.addAll {self : PwGen} {allowed : Set String}
    (h : self.StandsFor unicode allowed) (characters : List String)
    : (self.addCharacters unicode cases characters).StandsFor unicode
        (allowed ∪ {c | ∃ d ∈ characters, unicode.clusters d.toList = 1
          ∧ unicode.canonical (cases.lowercased d) = c}) := by
  unfold addCharacters
  induction characters generalizing self allowed with
  | nil => simpa using h
  | cons character characters ih =>
    have hadded : (self.addCharacter unicode cases character).StandsFor unicode _ := h.add character
    have hrest := ih hadded
    refine ⟨hrest.nodup, ?_⟩
    intro c
    rw [List.foldl_cons, hrest.mem_iff]
    simp only [Set.mem_union, Set.mem_ofPred_eq, List.mem_cons, exists_eq_or_imp]
    tauto

theorem StandsFor.apply {self : PwGen} {allowed : Set String} (h : self.StandsFor unicode allowed)
    (setting : Setting)
    : (self.apply unicode cases setting).StandsFor unicode
        (setting.restrict unicode cases allowed) := by
  cases setting with
  | ofSize size => exact ⟨h.nodup, h.mem_iff⟩
  | withoutNumbers =>
    apply h.filterDefaults
    decide +kernel
  | withoutLetters =>
    apply h.filterDefaults
    decide +kernel
  | withoutSymbols =>
    apply h.filterDefaults
    decide +kernel
  | withoutUppercase => exact ⟨h.nodup, h.mem_iff⟩
  | withoutCharacter character =>
    have hfilter := h.filterEach [cases.lowercased character]
    simpa [PwGen.apply, withoutCharacter, filter_eq, Setting.restrict] using hfilter
  | withoutCharacters characters =>
    have hfilter := h.filterEach (characters.map cases.lowercased)
    simp only [PwGen.apply, withoutCharacters]
    simpa only [List.map_map, List.mem_map, Function.comp_apply, Setting.restrict] using hfilter
  | addCharacter character => exact h.add character
  | addCharacters characters => exact h.addAll characters
  | reset => exact new_standsFor

/--
However the generator is set up, its characters are the ones that the last setting which concerns
them has allowed, each of them once.
-/
theorem characters_after_settings (unicode : Unicode.Tables) (cases : CaseMapping)
    (settings : List Setting)
    : (settings.foldl (apply unicode cases) new).StandsFor unicode
        (settings.foldl (Setting.restrict unicode cases)
          {c | c ∈ symbols ++ letters ++ numbers}) := by
  have hrun : ∀ (self : PwGen) (allowed : Set String), self.StandsFor unicode allowed →
      (settings.foldl (apply unicode cases) self).StandsFor unicode
        (settings.foldl (Setting.restrict unicode cases) allowed) := by
    induction settings with
    | nil =>
      intro self allowed h
      exact h
    | cons setting settings ih =>
      intro self allowed h
      exact ih _ _ (h.apply setting)
  exact hrun new _ new_standsFor

def MayPick (cases : CaseMapping) (self : PwGen) (piece : String) : Prop :=
  piece ∈ self.characters
    ∨ (self.useUppercase = true ∧ ∃ c ∈ self.characters, piece = cases.uppercased c)

theorem randomCharacter_ok (random : Arc4Random) {self : PwGen} (hne : self.characters ≠ [])
    (call : Nat)
    : ∃ h : random.uniform call self.characters.length < self.characters.length,
        self.randomCharacter random call
          =
        .ok (self.characters.get ⟨random.uniform call self.characters.length, h⟩) := by
  have hlt := random.uniform_lt call _ (List.length_pos_of_ne_nil hne)
  refine ⟨hlt, ?_⟩
  unfold randomCharacter
  rw [List.getElem?_eq_getElem hlt]
  rfl

theorem nextPiece_ok (cases : CaseMapping) (random : Arc4Random) {self : PwGen}
    (hne : self.characters ≠ []) (call : Nat)
    : ∃ piece, self.nextPiece cases random call
          =
        .ok (piece, if self.useUppercase then call + 2 else call + 1)
      ∧ self.MayPick cases piece := by
  unfold nextPiece
  cases huppercase : self.useUppercase with
  | true =>
    obtain ⟨hlt, hcharacter⟩ := randomCharacter_ok random hne (call + 1)
    simp only [↓reduceIte, hcharacter, bind, Except.bind, pure, Except.pure]
    split
    . refine ⟨_, rfl, .inr ⟨huppercase, _, List.getElem_mem hlt, rfl⟩⟩
    . refine ⟨_, rfl, .inl (List.getElem_mem hlt)⟩
  | false =>
    obtain ⟨hlt, hcharacter⟩ := randomCharacter_ok random hne call
    simp only [hcharacter, bind, Except.bind, pure, Except.pure]
    exact ⟨_, rfl, .inl (List.getElem_mem hlt)⟩

theorem appendPieces_ok (cases : CaseMapping) (random : Arc4Random) {self : PwGen}
    (hne : self.characters ≠ []) (rounds call : Nat) (password : String)
    : ∃ pieces : List String, pieces.length = rounds ∧ (∀ piece ∈ pieces, self.MayPick cases piece)
        ∧ self.appendPieces cases random rounds call password
          =
        .ok (password ++ String.join pieces) := by
  induction rounds generalizing call password with
  | zero => exact ⟨[], rfl, by simp, by simp [appendPieces]⟩
  | succ rounds ih =>
    obtain ⟨piece, hpiece, hmay⟩ := nextPiece_ok cases random hne call
    obtain ⟨pieces, hlength, hall, happend⟩ :=
      ih (if self.useUppercase then call + 2 else call + 1) (password ++ piece)
    refine ⟨piece :: pieces, by simp [hlength], ?_, ?_⟩
    . intro other hother
      cases List.mem_cons.mp hother with
      | inl heq =>
        rw [heq]
        exact hmay
      | inr hother => exact hall other hother
    . simp only [appendPieces, hpiece, bind, Except.bind, happend]
      simp [String.append_assoc]

theorem generate_total (cases : CaseMapping) (random : Arc4Random) (self : PwGen)
    : ∃ result, self.generate cases random = .ok result
        ∧ ((∃ error, result = .error error) ↔ self.characters = [] ∨ self.size = 0) := by
  unfold generate
  by_cases hcharacters : self.characters = []
  . simp only [hcharacters, List.length_nil, ↓reduceIte]
    exact ⟨_, rfl, by simp⟩
  . by_cases hsize : self.size = 0
    . simp only [hsize, ↓reduceIte, List.length_eq_zero_iff, hcharacters]
      exact ⟨_, rfl, by simp⟩
    . obtain ⟨pieces, -, -, happend⟩ :=
        appendPieces_ok cases random hcharacters self.size.toNat 0 ""
      simp only [List.length_eq_zero_iff, hcharacters, ↓reduceIte, hsize, happend, bind,
        Except.bind, pure, Except.pure]
      exact ⟨_, rfl, by simp⟩

end PwGen

namespace Arc4Random

def ofAnswers (answers : List Nat) : Arc4Random where
  uniform call upperBound := answers.getD call 0 % upperBound
  uniform_lt _ _ h := Nat.mod_lt _ h

theorem uniform_ofAnswers (before after : List Nat) {answer upperBound : Nat}
    (h : answer < upperBound)
    : (ofAnswers (before ++ answer :: after)).uniform before.length upperBound = answer := by
  simp [ofAnswers, Nat.mod_eq_of_lt h]

theorem uniform_ofAnswers_succ (before after : List Nat) (first : Nat) {answer upperBound : Nat}
    (h : answer < upperBound)
    : (ofAnswers (before ++ first :: answer :: after)).uniform (before.length + 1) upperBound
        =
      answer := by
  have hanswers : before ++ first :: answer :: after = (before ++ [first]) ++ answer :: after := by
    simp
  have hlength : before.length + 1 = (before ++ [first]).length := by
    simp
  rw [hanswers, hlength, uniform_ofAnswers _ _ h]

end Arc4Random

namespace PwGen

variable {cases : CaseMapping}

theorem randomCharacter_of_uniform {random : Arc4Random} {self : PwGen} {call i : Nat}
    (hi : i < self.characters.length) (h : random.uniform call self.characters.length = i)
    : self.randomCharacter random call = .ok (self.characters[i]) := by
  unfold randomCharacter
  rw [h, List.getElem?_eq_getElem hi]

theorem nextPiece_of_mayPick {self : PwGen} {piece : String} (h : self.MayPick cases piece)
    : ∃ answers : List Nat, ∀ before after,
        self.nextPiece cases (.ofAnswers (before ++ (answers ++ after))) before.length
          =
        .ok (piece, (before ++ answers).length) := by
  cases huppercase : self.useUppercase with
  | true =>
    have hflag : ∃ flag < 2, ∃ i, ∃ hi : i < self.characters.length,
        piece = if flag = 1 then cases.uppercased self.characters[i] else self.characters[i] := by
      cases h with
      | inl hmem =>
        obtain ⟨i, hi, heq⟩ := List.getElem_of_mem hmem
        exact ⟨0, by omega, i, hi, by simp [heq]⟩
      | inr hmem =>
        obtain ⟨-, c, hc, rfl⟩ := hmem
        obtain ⟨i, hi, heq⟩ := List.getElem_of_mem hc
        exact ⟨1, by omega, i, hi, by simp [heq]⟩
    obtain ⟨flag, hflag, i, hi, hpiece⟩ := hflag
    refine ⟨[flag, i], ?_⟩
    intro before after
    unfold nextPiece
    simp only [huppercase, ↓reduceIte, List.cons_append, List.nil_append]
    have huniform := Arc4Random.uniform_ofAnswers before (i :: after) hflag
    rw [randomCharacter_of_uniform hi (Arc4Random.uniform_ofAnswers_succ _ _ _ hi)]
    simp only [huniform, bind, Except.bind, pure, Except.pure, List.length_append,
      List.length_cons, List.length_nil, hpiece, beq_iff_eq]
    split
    . rfl
    . rfl
  | false =>
    have hmem : piece ∈ self.characters := by
      cases h with
      | inl hmem => exact hmem
      | inr hmem => simp [huppercase] at hmem
    obtain ⟨i, hi, heq⟩ := List.getElem_of_mem hmem
    refine ⟨[i], ?_⟩
    intro before after
    unfold nextPiece
    simp only [huppercase, List.cons_append, List.nil_append]
    rw [randomCharacter_of_uniform hi (Arc4Random.uniform_ofAnswers _ _ hi), heq]
    simp [bind, Except.bind, pure, Except.pure]

theorem appendPieces_of_mayPick {self : PwGen} {pieces : List String}
    (h : ∀ piece ∈ pieces, self.MayPick cases piece)
    : ∃ answers : List Nat, ∀ before password,
        self.appendPieces cases (.ofAnswers (before ++ answers)) pieces.length before.length
          password
          =
        .ok (password ++ String.join pieces) := by
  induction pieces with
  | nil => exact ⟨[], by simp [appendPieces]⟩
  | cons piece pieces ih =>
    obtain ⟨answers, hanswers⟩ := nextPiece_of_mayPick (h piece List.mem_cons_self)
    obtain ⟨rest, hrest⟩ := ih (fun other hother => h other (List.mem_cons_of_mem piece hother))
    refine ⟨answers ++ rest, ?_⟩
    intro before password
    have hlater := hrest (before ++ answers) (password ++ piece)
    rw [List.append_assoc] at hlater
    simp only [List.length_cons, appendPieces, hanswers before rest, bind, Except.bind, hlater]
    simp [String.append_assoc]

theorem generated_iff (cases : CaseMapping) (self : PwGen) (password : String)
    : (∃ random, self.generate cases random = .ok (.ok password))
        ↔
      self.characters ≠ [] ∧ self.size ≠ 0 ∧
        ∃ pieces : List String, pieces.length = self.size.toNat
          ∧ (∀ piece ∈ pieces, self.MayPick cases piece) ∧ password = String.join pieces := by
  constructor
  . intro h
    obtain ⟨random, hgenerate⟩ := h
    obtain ⟨result, hresult, hfails⟩ := generate_total cases random self
    rw [hgenerate] at hresult
    cases hresult
    have hok : ¬ (self.characters = [] ∨ self.size = 0) := by
      rw [← hfails]
      simp
    rw [not_or] at hok
    obtain ⟨pieces, hlength, hall, happend⟩ :=
      appendPieces_ok cases random hok.left self.size.toNat 0 ""
    refine ⟨hok.left, hok.right, pieces, hlength, hall, ?_⟩
    unfold generate at hgenerate
    simp only [List.length_eq_zero_iff, hok.left, ↓reduceIte, hok.right, happend, bind,
      Except.bind, pure, Except.pure, String.empty_append] at hgenerate
    injection hgenerate with hgenerate
    injection hgenerate with hgenerate
    exact hgenerate.symm
  . intro h
    obtain ⟨hcharacters, hsize, pieces, hlength, hall, rfl⟩ := h
    obtain ⟨answers, hanswers⟩ := appendPieces_of_mayPick hall
    refine ⟨.ofAnswers answers, ?_⟩
    have happend := hanswers [] ""
    simp only [List.nil_append, List.length_nil, hlength, String.empty_append] at happend
    unfold generate
    simp only [List.length_eq_zero_iff, hcharacters, ↓reduceIte, hsize, happend, bind,
      Except.bind, pure, Except.pure]

end PwGen
