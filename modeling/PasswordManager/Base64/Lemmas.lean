import PasswordManager.Base64.Basic
import Mathlib.Tactic

namespace Base64

theorem decodeDigit_encodeDigit {n : Nat} (h : n < 64) : decodeDigit (encodeDigit n) = some n := by
  have hall : ∀ m : Fin 64, decodeDigit (encodeDigit m) = some m.val := by decide
  exact hall ⟨n, h⟩

theorem decodeDigit_padding : decodeDigit '=' = none := by
  decide

theorem encodeDigit_ne_padding {n : Nat} (h : n < 64) : encodeDigit n ≠ '=' := by
  intro heq
  have hdigit := decodeDigit_encodeDigit h
  rw [heq, decodeDigit_padding] at hdigit
  cases hdigit

theorem ofNat_toNat_eq {a : UInt8} {n : Nat} (h : n = a.toNat) : UInt8.ofNat n = a := by
  rw [h]
  exact UInt8.ofNat_toNat

theorem decodeOne_encode (a : UInt8)
    : decodeOne (encodeDigit (a.toNat * 16 / 64)) (encodeDigit (a.toNat * 16 % 64)) = some [a] := by
  have ha := a.toNat_lt
  simp only [decodeOne]
  rw [decodeDigit_encodeDigit (by omega), decodeDigit_encodeDigit (by omega)]
  simp only [Option.bind_eq_bind, Option.bind_some, Option.pure_def, Option.some.injEq,
    List.cons.injEq, and_true]
  apply ofNat_toNat_eq
  omega

theorem decodeTwo_encode (a b : UInt8)
    : let n := (a.toNat * 256 + b.toNat) * 4
      decodeTwo (encodeDigit (n / 4096)) (encodeDigit (n / 64 % 64)) (encodeDigit (n % 64))
        =
      some [a, b] := by
  intro n
  have ha := a.toNat_lt
  have hb := b.toNat_lt
  have hn : n = (a.toNat * 256 + b.toNat) * 4 := rfl
  simp only [decodeTwo]
  rw [decodeDigit_encodeDigit (by omega), decodeDigit_encodeDigit (by omega),
    decodeDigit_encodeDigit (by omega)]
  simp only [Option.bind_eq_bind, Option.bind_some, Option.pure_def, Option.some.injEq,
    List.cons.injEq, and_true]
  constructor
  . apply ofNat_toNat_eq
    omega
  . apply ofNat_toNat_eq
    omega

theorem decodeThree_encode (a b c : UInt8)
    : let n := (a.toNat * 256 + b.toNat) * 256 + c.toNat
      decodeThree (encodeDigit (n / 262144)) (encodeDigit (n / 4096 % 64))
          (encodeDigit (n / 64 % 64)) (encodeDigit (n % 64))
        =
      some [a, b, c] := by
  intro n
  have ha := a.toNat_lt
  have hb := b.toNat_lt
  have hc := c.toNat_lt
  have hn : n = (a.toNat * 256 + b.toNat) * 256 + c.toNat := rfl
  -- the four digits put back together are the number that was cut
  have hsum : ((n / 262144 * 64 + n / 4096 % 64) * 64 + n / 64 % 64) * 64 + n % 64 = n := by
    omega
  simp only [decodeThree]
  rw [decodeDigit_encodeDigit (by omega), decodeDigit_encodeDigit (by omega),
    decodeDigit_encodeDigit (by omega), decodeDigit_encodeDigit (by omega)]
  simp only [Option.bind_eq_bind, Option.bind_some, Option.pure_def, Option.some.injEq,
    List.cons.injEq, and_true, hsum]
  refine ⟨?_, ?_, ?_⟩
  . apply ofNat_toNat_eq
    omega
  . apply ofNat_toNat_eq
    omega
  . apply ofNat_toNat_eq
    omega

theorem decode_encode (bytes : List UInt8) : decode (encode bytes) = some bytes := by
  induction bytes using encode.induct with
  | case1 => rfl
  | case2 a =>
    simp only [encode, decode, and_self, ↓reduceIte]
    exact decodeOne_encode a
  | case3 a b =>
    have hdigit : (a.toNat * 256 + b.toNat) * 4 % 64 < 64 := Nat.mod_lt _ (by decide)
    simp only [encode, decode, and_self, ↓reduceIte, encodeDigit_ne_padding hdigit]
    exact decodeTwo_encode a b
  | case4 a b c rest ih =>
    have hdigit : ((a.toNat * 256 + b.toNat) * 256 + c.toNat) % 64 < 64 := Nat.mod_lt _ (by decide)
    simp only [encode, decode, encodeDigit_ne_padding hdigit, and_false, ↓reduceIte]
    rw [decodeThree_encode a b c, ih]
    rfl

theorem decodeOne_isSome (a b : Char)
    : (decodeOne a b).isSome ↔ (decodeDigit a).isSome ∧ (decodeDigit b).isSome := by
  unfold decodeOne
  cases decodeDigit a <;> cases decodeDigit b <;> simp

theorem decodeTwo_isSome (a b c : Char)
    : (decodeTwo a b c).isSome
        ↔
      (decodeDigit a).isSome ∧ (decodeDigit b).isSome ∧ (decodeDigit c).isSome := by
  unfold decodeTwo
  cases decodeDigit a <;> cases decodeDigit b <;> cases decodeDigit c <;> simp

theorem decodeThree_isSome (a b c d : Char)
    : (decodeThree a b c d).isSome
        ↔
      (decodeDigit a).isSome ∧ (decodeDigit b).isSome ∧ (decodeDigit c).isSome
        ∧ (decodeDigit d).isSome := by
  unfold decodeThree
  cases decodeDigit a <;> cases decodeDigit b <;> cases decodeDigit c <;> cases decodeDigit d
    <;> simp

theorem isValid_group_append {a b c d : Char} {rest : List Char} (hrest : rest ≠ [] ∨ d ≠ '=')
    : IsValid (a :: b :: c :: d :: rest)
        ↔
      ((decodeDigit a).isSome ∧ (decodeDigit b).isSome ∧ (decodeDigit c).isSome
        ∧ (decodeDigit d).isSome)
      ∧ IsValid rest := by
  constructor
  . rintro ⟨body, padding, heq, hbody, hpadding, hlen⟩
    have hlength := congrArg List.length heq
    simp only [List.length_cons, List.length_append, List.length_replicate] at hlength hlen
    match body with
    | w :: x :: y :: z :: body =>
      simp only [List.cons_append, List.cons.injEq] at heq
      obtain ⟨rfl, rfl, rfl, rfl, heq⟩ := heq
      simp only [List.mem_cons, forall_eq_or_imp] at hbody
      obtain ⟨ha, hb, hc, hd, hbody⟩ := hbody
      refine ⟨⟨ha, hb, hc, hd⟩, body, padding, heq, hbody, hpadding, ?_⟩
      omega
    | [x, y, z] =>
      -- three digits leave exactly one padding character for the fourth place
      have hone : padding = 1 := by
        simp only [List.length_cons, List.length_nil] at hlength
        omega
      subst hone
      simp at heq
      obtain ⟨-, -, -, rfl, rfl⟩ := heq
      simp at hrest
    | [y, z] =>
      have htwo : padding = 2 := by
        simp only [List.length_cons, List.length_nil] at hlength
        omega
      subst htwo
      simp [List.replicate] at heq
      obtain ⟨-, -, -, rfl, rfl⟩ := heq
      simp at hrest
    | [z] =>
      simp only [List.length_cons, List.length_nil] at hlength
      omega
    | [] =>
      simp only [List.length_nil] at hlength
      omega
  . rintro ⟨⟨ha, hb, hc, hd⟩, body, padding, heq, hbody, hpadding, hlen⟩
    refine ⟨a :: b :: c :: d :: body, padding, ?_, ?_, hpadding, ?_⟩
    . simp [heq]
    . simpa [ha, hb, hc, hd] using hbody
    . simp only [List.length_cons]
      omega

theorem isValid_final_group (a b c : Char)
    : IsValid [a, b, c, '=']
        ↔
      (decodeDigit a).isSome ∧ (decodeDigit b).isSome ∧ (c = '=' ∨ (decodeDigit c).isSome) := by
  constructor
  . rintro ⟨body, padding, heq, hbody, hpadding, -⟩
    match padding with
    | 0 =>
      rw [List.replicate_zero, List.append_nil] at heq
      subst heq
      have := hbody '=' (by simp)
      simp [decodeDigit_padding] at this
    | 1 =>
      have heq : [a, b, c] ++ ['='] = body ++ ['='] := heq
      have hcancel := List.append_cancel_right heq
      subst hcancel
      exact ⟨hbody a (by simp), hbody b (by simp), .inr (hbody c (by simp))⟩
    | 2 =>
      have heq : [a, b] ++ [c, '='] = body ++ ['=', '='] := heq
      obtain ⟨rfl, htail⟩ := List.append_inj' heq rfl
      simp only [List.cons.injEq, and_true] at htail
      exact ⟨hbody a (by simp), hbody b (by simp), .inl htail⟩
  . rintro ⟨ha, hb, rfl | hc⟩
    . refine ⟨[a, b], 2, rfl, ?_, by omega, by simp⟩
      simp [ha, hb]
    . refine ⟨[a, b, c], 1, rfl, ?_, by omega, by simp⟩
      simp [ha, hb, hc]

theorem not_isValid_of_length {cs : List Char} (h : cs.length % 4 ≠ 0) : ¬ IsValid cs := by
  rintro ⟨_, _, _, _, _, hlen⟩
  exact h hlen

theorem decode_isSome_iff (cs : List Char) : (decode cs).isSome ↔ IsValid cs := by
  induction cs using decode.induct with
  | case1 =>
    simp only [decode, Option.isSome_some, true_iff]
    exact ⟨[], 0, rfl, by simp, by omega, by simp⟩
  | case2 a b d rest hfinal =>
    obtain ⟨rfl, rfl⟩ := hfinal
    rw [isValid_final_group]
    simp [decode, decodeOne_isSome]
  | case3 a b c d rest hfinal hne =>
    obtain ⟨rfl, rfl⟩ := hfinal
    rw [isValid_final_group]
    simp [decode, hne, decodeTwo_isSome]
  | case4 a b c d rest hfinal ih =>
    rw [isValid_group_append (by tauto), ← ih, ← decodeThree_isSome]
    simp only [decode, hfinal, ↓reduceIte]
    cases decodeThree a b c d <;> cases decode rest <;> simp
  | case5 cs hnil hgroup =>
    have hlen : cs.length % 4 ≠ 0 := by
      match cs with
      | [] => exact (hnil rfl).elim
      | [_] => simp
      | [_, _] => simp
      | [_, _, _] => simp
      | a :: b :: c :: d :: rest => exact (hgroup a b c d rest rfl).elim
    simp [decode, not_isValid_of_length hlen]

instance (cs : List Char) : Decidable (IsValid cs) :=
  decidable_of_iff _ (decode_isSome_iff cs)

end Base64
