import PasswordManager.PwGen.Lemmas
import PasswordManager.Unicode.Lemmas
import Mathlib.Algebra.BigOperators.Fin
import Mathlib.Data.Fintype.BigOperators
import Mathlib.SetTheory.Cardinal.Finite

/-!
This module contains the passwords that the app generates for a credential: which strings they are,
and how many draws of the random number generator lead to each of them.
-/

namespace Credential

open PwGen

theorem generator_eq (unicode : Unicode.Tables)
    : generator unicode
        =
      { useUppercase := true, size := 20, characters := letters ++ numbers } := by
  have hsymbols : IsAscii symbols := by
    decide +kernel
  have hleft : (symbols ++ letters ++ numbers).filter (· ∉ symbols) = letters ++ numbers := by
    decide +kernel
  unfold generator withoutSymbols ofSize new
  dsimp only
  rw [filterEach_ascii hsymbols defaults_ascii, hleft]
  rfl

def lowercaseAlphanumerics : List Char :=
  "abcdefghijklmnopqrstuvwxyz0123456789".toList

theorem generator_characters
    : letters ++ numbers = lowercaseAlphanumerics.map String.singleton := by
  decide +kernel

theorem uppercased_singleton (cases : CaseMapping) {c : Char} (hc : c ∈ lowercaseAlphanumerics)
    : cases.uppercased (String.singleton c) = String.singleton c.toUpper := by
  have hascii : lowercaseAlphanumerics.all (fun c => c.toNat < 128) := by
    decide +kernel
  rw [cases.uppercased_ascii]
  . rw [← String.toList_inj]
    simp
  . intro d hd
    rw [String.toList_singleton, List.mem_singleton] at hd
    rw [hd]
    simpa using List.all_eq_true.mp hascii c hc

theorem isAlphanum_ascii {c : Char} (hc : c.isAlphanum) : c.toNat < 128 := by
  unfold Char.isAlphanum Char.isAlpha Char.isUpper Char.isLower Char.isDigit at hc
  simp only [Bool.or_eq_true, Bool.and_eq_true, decide_eq_true_eq, ge_iff_le,
    UInt32.le_iff_toNat_le] at hc
  have hval : c.toNat = c.val.toNat := rfl
  simp at hc
  omega

theorem mayPick_generator_iff (unicode : Unicode.Tables) (cases : CaseMapping) (piece : String)
    : (generator unicode).MayPick cases piece
        ↔
      ∃ c : Char, c.isAlphanum ∧ piece = String.singleton c := by
  have hall : lowercaseAlphanumerics.all (fun c => c.isAlphanum && c.toUpper.isAlphanum) := by
    decide +kernel
  have hlower : ∀ c ∈ lowercaseAlphanumerics, c.isAlphanum ∧ c.toUpper.isAlphanum := by
    intro c hc
    simpa using List.all_eq_true.mp hall c hc
  have hascii : ∀ n : Fin 128, (Char.ofNat n).isAlphanum →
      Char.ofNat n ∈ lowercaseAlphanumerics
        ∨ Char.ofNat n ∈ lowercaseAlphanumerics.map Char.toUpper := by
    decide +kernel
  simp only [MayPick, generator_eq, generator_characters, List.mem_map, true_and]
  constructor
  . intro h
    cases h with
    | inl h =>
      obtain ⟨c, hc, rfl⟩ := h
      exact ⟨c, (hlower c hc).left, rfl⟩
    | inr h =>
      obtain ⟨-, ⟨c, hc, rfl⟩, rfl⟩ := h
      exact ⟨c.toUpper, (hlower c hc).right, uppercased_singleton cases hc⟩
  . intro h
    obtain ⟨c, hc, rfl⟩ := h
    have hcases := Unicode.forall_ascii
      (p := fun c => c.isAlphanum → c ∈ lowercaseAlphanumerics
        ∨ c ∈ lowercaseAlphanumerics.map Char.toUpper) hascii (isAlphanum_ascii hc) hc
    cases hcases with
    | inl hmem => exact .inl ⟨c, hmem, rfl⟩
    | inr hmem =>
      obtain ⟨d, hd, rfl⟩ := List.mem_map.mp hmem
      exact .inr ⟨String.singleton d, ⟨d, hd, rfl⟩, (uppercased_singleton cases hd).symm⟩

theorem join_map_singleton (chars : List Char)
    : String.join (chars.map String.singleton) = String.ofList chars := by
  rw [← String.toList_inj]
  induction chars with
  | nil => simp
  | cons c chars ih =>
    rw [List.map_cons, String.join_cons, String.toList_append, ih]
    simp

/--
The passwords that the app may generate: twenty letters and digits, and each such string.
-/
theorem regeneratePassword_iff (unicode : Unicode.Tables) (cases : CaseMapping) (self : Credential)
    : (∀ random, ∃ password, self.regeneratePassword unicode cases random
          = .ok { self with password := some password })
      ∧ ∀ password : String,
        (∃ random, self.regeneratePassword unicode cases random
          = .ok { self with password := some password })
          ↔
        password.toList.length = 20 ∧ ∀ c ∈ password.toList, c.isAlphanum := by
  have hgenerate : ∀ random, ∃ password,
      (generator unicode).generate cases random = .ok (.ok password) := by
    intro random
    obtain ⟨result, hresult, hfails⟩ := generate_total cases random (generator unicode)
    cases result with
    | error err =>
      have hbad := hfails.mp ⟨err, rfl⟩
      rw [generator_eq] at hbad
      simp [letters] at hbad
    | ok password => exact ⟨password, hresult⟩
  have hregenerate : ∀ random password,
      (generator unicode).generate cases random = .ok (.ok password)
        → self.regeneratePassword unicode cases random
          = .ok { self with password := some password } := by
    intro random password hpassword
    unfold regeneratePassword
    rw [hpassword]
    rfl
  constructor
  . intro random
    obtain ⟨password, hpassword⟩ := hgenerate random
    exact ⟨password, hregenerate random password hpassword⟩
  . intro password
    have hiff : (∃ random, self.regeneratePassword unicode cases random
          = .ok { self with password := some password })
        ↔
      ∃ random, (generator unicode).generate cases random = .ok (.ok password) := by
      constructor
      . intro h
        obtain ⟨random, h⟩ := h
        obtain ⟨generated, hgenerated⟩ := hgenerate random
        rw [hregenerate random generated hgenerated] at h
        injection h with h
        injection h with _ _ h
        injection h with h
        rw [h] at hgenerated
        exact ⟨random, hgenerated⟩
      . intro h
        obtain ⟨random, h⟩ := h
        exact ⟨random, hregenerate random password h⟩
    rw [hiff, generated_iff]
    simp only [mayPick_generator_iff]
    constructor
    . intro h
      obtain ⟨-, -, pieces, hlength, hall, rfl⟩ := h
      have hchars : ∃ chars : List Char, pieces = chars.map String.singleton
          ∧ ∀ c ∈ chars, c.isAlphanum := by
        clear hlength hiff
        induction pieces with
        | nil => exact ⟨[], rfl, by simp⟩
        | cons piece pieces ih =>
          obtain ⟨c, hc, rfl⟩ := hall piece List.mem_cons_self
          obtain ⟨chars, rfl, hchars⟩ :=
            ih (fun other hother => hall other (List.mem_cons_of_mem _ hother))
          refine ⟨c :: chars, rfl, ?_⟩
          simpa [hc] using hchars
      obtain ⟨chars, rfl, hchars⟩ := hchars
      rw [join_map_singleton, String.toList_ofList]
      refine ⟨?_, hchars⟩
      rw [List.length_map] at hlength
      rw [hlength, generator_eq]
      rfl
    . intro h
      refine ⟨?_, ?_, password.toList.map String.singleton, ?_, ?_, ?_⟩
      . rw [generator_eq]
        simp [letters]
      . rw [generator_eq]
        decide
      . rw [List.length_map, h.left, generator_eq]
        rfl
      . intro piece hpiece
        obtain ⟨c, hc, rfl⟩ := List.mem_map.mp hpiece
        exact ⟨c, h.right c hc, rfl⟩
      . rw [join_map_singleton, String.ofList_toList]

end Credential

namespace Arc4Random

def ofDraws (draws : List (Fin 2 × Fin 36)) : Arc4Random :=
  ofAnswers (draws.flatMap (fun draw => [draw.1.val, draw.2.val]))

end Arc4Random

namespace Credential

open PwGen

theorem lowercaseAlphanumerics_length : lowercaseAlphanumerics.length = 36 := by
  decide

def drawnChar (draw : Fin 2 × Fin 36) : Char :=
  let c := lowercaseAlphanumerics.get (draw.2.cast lowercaseAlphanumerics_length.symm)
  if draw.1 = 1 then c.toUpper else c

theorem nextPiece_ofDraws (unicode : Unicode.Tables) (cases : CaseMapping) (before after : List Nat)
    (draw : Fin 2 × Fin 36)
    : (generator unicode).nextPiece cases
        (.ofAnswers (before ++ draw.1.val :: draw.2.val :: after)) before.length
        =
      .ok (String.singleton (drawnChar draw), before.length + 2) := by
  have hlength : (generator unicode).characters.length = 36 := by
    rw [generator_eq]
    rfl
  have hindex : draw.2.val < (generator unicode).characters.length := by
    rw [hlength]
    exact draw.2.isLt
  have hcharacter : (generator unicode).characters[draw.2.val]
      =
    String.singleton
      (lowercaseAlphanumerics.get (draw.2.cast lowercaseAlphanumerics_length.symm)) := by
    simp only [generator_eq, generator_characters, List.getElem_map, List.get_eq_getElem,
      Fin.val_cast]
  have hflag := Arc4Random.uniform_ofAnswers before (draw.2.val :: after) draw.1.isLt
  have hdrawn := Arc4Random.uniform_ofAnswers_succ before after draw.1.val hindex
  have huppercase : (generator unicode).useUppercase = true := by
    rw [generator_eq]
  unfold nextPiece drawnChar
  rw [randomCharacter_of_uniform hindex hdrawn, hflag, hcharacter]
  simp only [huppercase, ↓reduceIte, bind, Except.bind, pure, Except.pure]
  by_cases hone : draw.1 = 1
  . have hval : draw.1.val = 1 := by
      rw [hone]
      rfl
    rw [hval, if_pos hone, uppercased_singleton cases (List.get_mem _ _)]
    rfl
  . have hval : draw.1.val ≠ 1 := by
      omega
    simp [hone, hval]

theorem appendPieces_ofDraws (unicode : Unicode.Tables) (cases : CaseMapping)
    (draws : List (Fin 2 × Fin 36)) (before : List Nat) (password : String)
    : (generator unicode).appendPieces cases
        (.ofAnswers (before ++ draws.flatMap (fun draw => [draw.1.val, draw.2.val])))
        draws.length before.length password
        =
      .ok (password ++ String.ofList (draws.map drawnChar)) := by
  induction draws generalizing before password with
  | nil => simp [appendPieces]
  | cons draw draws ih =>
    have hrest := ih (before ++ [draw.1.val, draw.2.val])
      (password ++ String.singleton (drawnChar draw))
    simp only [List.append_assoc, List.length_append, List.length_cons, List.length_nil,
      List.cons_append, List.nil_append] at hrest
    simp only [List.length_cons, List.flatMap_cons, List.cons_append, List.nil_append, appendPieces,
      nextPiece_ofDraws, bind, Except.bind, hrest, List.map_cons, Except.ok.injEq]
    rw [← String.toList_inj]
    simp

theorem regeneratePassword_ofDraws (unicode : Unicode.Tables) (cases : CaseMapping)
    (self : Credential) (draws : Fin 20 → Fin 2 × Fin 36)
    : self.regeneratePassword unicode cases (.ofDraws (List.ofFn draws))
        =
      .ok { self with
        password := some (String.ofList (List.ofFn (fun round => drawnChar (draws round)))) } := by
  have happend := appendPieces_ofDraws unicode cases (List.ofFn draws) [] ""
  simp only [List.length_ofFn, List.nil_append, List.length_nil, String.empty_append,
    List.map_ofFn] at happend
  have hcharacters : (generator unicode).characters.length ≠ 0 := by
    rw [generator_eq]
    decide
  have hsize : (generator unicode).size = 20 := by
    rw [generator_eq]
  have hrounds : (generator unicode).size.toNat = 20 := by
    rw [hsize]
    rfl
  unfold regeneratePassword generate
  rw [if_neg hcharacters, hsize, if_neg (by decide), ← hsize, hrounds]
  unfold Arc4Random.ofDraws
  rw [happend]
  rfl

theorem card_drawnChar {c : Char} (hc : c.isAlphanum)
    : Fintype.card { draw // drawnChar draw = c } = 2 ^ (if c.isDigit then 1 else 0) := by
  have hascii : ∀ n : Fin 128, (Char.ofNat n).isAlphanum →
      Fintype.card { draw // drawnChar draw = Char.ofNat n }
        =
      2 ^ (if (Char.ofNat n).isDigit then 1 else 0) := by
    decide +kernel
  exact Unicode.forall_ascii
    (p := fun c => c.isAlphanum → Fintype.card { draw // drawnChar draw = c }
      = 2 ^ (if c.isDigit then 1 else 0)) hascii (isAlphanum_ascii hc) hc

theorem prod_pow_isDigit {n : Nat} (chars : Fin n → Char)
    : ∏ i, 2 ^ (if (chars i).isDigit then 1 else 0)
        =
      2 ^ (List.ofFn chars).countP Char.isDigit := by
  induction n with
  | zero => simp
  | succ n ih =>
    rw [Fin.prod_univ_succ, ih, List.ofFn_succ, List.countP_cons, pow_add, mul_comm]

/--
Of the `72 ^ 20` equally likely draws, the ones that lead to a password are `2 ^ d` for its `d`
digits: a digit stays what it is in upper case.
-/
theorem draws_of_password (unicode : Unicode.Tables) (cases : CaseMapping) (self : Credential)
    {password : String} (hlength : password.toList.length = 20)
    (hchars : ∀ c ∈ password.toList, c.isAlphanum)
    : Nat.card { draws : Fin 20 → Fin 2 × Fin 36 //
        self.regeneratePassword unicode cases (.ofDraws (List.ofFn draws))
          = .ok { self with password := some password } }
        =
      2 ^ password.toList.countP Char.isDigit := by
  let chars : Fin 20 → Char := fun i => password.toList.get (i.cast hlength.symm)
  have hofFn : password.toList = List.ofFn chars := by
    apply List.ext_getElem
    . simp [hlength]
    . intro i h _
      rw [List.getElem_ofFn]
      rfl
  have hiff : ∀ draws : Fin 20 → Fin 2 × Fin 36,
      self.regeneratePassword unicode cases (.ofDraws (List.ofFn draws))
          = .ok { self with password := some password }
        ↔
      ∀ i, drawnChar (draws i) = chars i := by
    intro draws
    rw [regeneratePassword_ofDraws]
    constructor
    . intro h
      injection h with h
      injection h with _ _ h
      injection h with h
      rw [← String.toList_inj, String.toList_ofList, hofFn, List.ofFn_inj] at h
      intro i
      exact congrFun h i
    . intro h
      have hfun : (fun round => drawnChar (draws round)) = chars := funext h
      rw [hfun, ← hofFn, String.ofList_toList]
  have hcard : ∀ i, Fintype.card { draw // drawnChar draw = chars i }
      =
    2 ^ (if (chars i).isDigit then 1 else 0) := by
    intro i
    apply card_drawnChar
    exact hchars _ (List.get_mem _ _)
  calc Nat.card { draws : Fin 20 → Fin 2 × Fin 36 //
        self.regeneratePassword unicode cases (.ofDraws (List.ofFn draws))
          = .ok { self with password := some password } }
    _ = Nat.card { draws : Fin 20 → Fin 2 × Fin 36 // ∀ i, drawnChar (draws i) = chars i } :=
      Nat.card_congr (Equiv.subtypeEquivRight hiff)
    _ = Nat.card (∀ i, { draw // drawnChar draw = chars i }) :=
      Nat.card_congr (Equiv.subtypePiEquivPi (p := fun i draw => drawnChar draw = chars i))
    _ = ∏ i, Fintype.card { draw // drawnChar draw = chars i } := by
      rw [Nat.card_eq_fintype_card, Fintype.card_pi]
    _ = ∏ i, 2 ^ (if (chars i).isDigit then 1 else 0) := by
      apply Finset.prod_congr rfl
      intro i _
      exact hcard i
    _ = 2 ^ password.toList.countP Char.isDigit := by
      rw [prod_pow_isDigit, ← hofFn]

theorem draws_of_password_half_digits
    : Nat.card { draws : Fin 20 → Fin 2 × Fin 36 //
        ({ website := some "a.b" } : Credential).regeneratePassword Unicode.asciiTables .ascii
            (.ofDraws (List.ofFn draws))
          = .ok { website := some "a.b", password := some "abcdeFGHIJ0123456789" } }
        =
      1024 := by
  have hlength : "abcdeFGHIJ0123456789".toList.length = 20 := by
    decide +kernel
  have hall : "abcdeFGHIJ0123456789".toList.all Char.isAlphanum := by
    decide +kernel
  have hcard := draws_of_password Unicode.asciiTables .ascii { website := some "a.b" } hlength
    (List.all_eq_true.mp hall)
  rw [hcard]
  decide +kernel

end Credential
