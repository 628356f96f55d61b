import PasswordManager.RNCryptor.Basic

/-!
This module contains what the parts of the cryptors compute from all that they have been fed: the
buffer that holds back the last bytes, the cipher, the authentication code and the comparison.
-/

namespace RNCryptor

open FormatV3

namespace OverflowingBuffer

def machine : Streaming.Machine OverflowingBuffer Trap Error UInt8 UInt8 where
  update self data := (self.update data).map (fun next => (next.1, .ok next.2))
  finalData self := .ok (self.finalData.1, .ok self.finalData.2)

structure Holds (holder : OverflowingBuffer) (input output : Data) : Prop where
  split : output ++ holder.buffer = input
  length : holder.buffer.length = min holder.capacity input.length

theorem holds_empty (capacity : Nat) : Holds { capacity } [] [] where
  split := by simp
  length := by simp

theorem sendAll_eq {self : OverflowingBuffer} {data : Data} (h : self.capacity ≤ data.length)
    : self.sendAll data
        =
      .ok ({ self with buffer := data.drop (data.length - self.capacity) },
        self.buffer ++ data.take (data.length - self.capacity)) := by
  have hsend : ((data.length : Int) - self.capacity).toNat = data.length - self.capacity := by
    omega
  have hsent : slice data 0 (data.length - self.capacity)
      =
    data.take (data.length - self.capacity) := by
    simp [slice]
  have hheld : slice data (data.length - self.capacity) data.length
      =
    data.drop (data.length - self.capacity) := by
    simp [slice]
  unfold sendAll
  dsimp only
  rw [Swift.assert_of (by omega), Swift.assert_of (by omega), hsend,
    subdata_of (by omega) (by omega), subdata_of (by omega) (by omega), hsent, hheld]
  rfl

theorem sendSome_eq {self : OverflowingBuffer} {data : Data} (hdata : data.length < self.capacity)
    (h : self.capacity < self.buffer.length + data.length)
    : self.sendSome data
        =
      .ok ({ self with
          buffer := self.buffer.drop (self.buffer.length + data.length - self.capacity) ++ data },
        self.buffer.take (self.buffer.length + data.length - self.capacity)) := by
  have hsend : ((self.buffer.length : Int) + data.length - self.capacity).toNat
      =
    self.buffer.length + data.length - self.capacity := by
    omega
  have hsent : slice self.buffer 0 (self.buffer.length + data.length - self.capacity)
      =
    self.buffer.take (self.buffer.length + data.length - self.capacity) := by
    simp [slice]
  unfold sendSome
  dsimp only
  rw [Swift.assert_of (by omega), Swift.assert_of (by omega), hsend,
    subdata_of (by omega) (by omega), replaceSubrange_of (by omega) (by omega), hsent]
  rfl

theorem update_holds {self : OverflowingBuffer} {input output : Data}
    (h : self.Holds input output) (data : Data)
    : ∃ t out, self.update data = .ok (t, out) ∧ t.capacity = self.capacity
        ∧ t.Holds (input ++ data) (output ++ out) := by
  have hlength : input.length = output.length + self.buffer.length := by
    rw [← h.split, List.length_append]
  have hbuffer := h.length
  unfold update
  split
  . next hall =>
    refine ⟨_, _, sendAll_eq hall, rfl, ?_, ?_⟩
    . simp only [List.append_assoc, List.take_append_drop]
      rw [← List.append_assoc, h.split]
    . simp only [List.length_drop, List.length_append]
      omega
  . next hall =>
    split
    . refine ⟨_, _, rfl, rfl, ?_, ?_⟩
      . rw [List.append_nil, ← List.append_assoc, h.split]
      . simp only [List.length_append]
        omega
    . next hfits =>
      refine ⟨_, _, sendSome_eq (by omega) (by omega), rfl, ?_, ?_⟩
      . rw [List.append_assoc]
        rw [← List.append_assoc (List.take _ _), List.take_append_drop]
        rw [← List.append_assoc, h.split]
      . simp only [List.length_drop, List.length_append]
        omega

theorem Holds.output_eq {self : OverflowingBuffer} {input output : Data}
    (h : self.Holds input output) : output = input.take (input.length - self.capacity) := by
  have hlength : input.length = output.length + self.buffer.length := by
    rw [← h.split, List.length_append]
  have hbuffer := h.length
  have hcut : input.length - self.capacity = output.length := by omega
  rw [hcut, ← h.split, List.take_left]

theorem Holds.buffer_eq {self : OverflowingBuffer} {input output : Data}
    (h : self.Holds input output) : self.buffer = input.drop (input.length - self.capacity) := by
  have hlength : input.length = output.length + self.buffer.length := by
    rw [← h.split, List.length_append]
  have hbuffer := h.length
  have hcut : input.length - self.capacity = output.length := by omega
  rw [hcut, ← h.split, List.drop_left]

end OverflowingBuffer

variable {C : CommonCrypto}

structure Engine.Fed (engine : Engine C) (operation : CryptorOperation) (key iv input output : Data)
    : Prop where
  length_key : key.length = keySize
  length_iv : iv.length = ivSize
  pieces : ∃ (cryptor : C.Cryptor) (pieces : List Data), C.create operation key iv = some cryptor
    ∧ pieces.flatten = input
    ∧ pieces.foldlM
        (fun (s : C.Cryptor × Data) piece =>
          (C.cryptorUpdate s.1 piece).map (fun moved => (moved.1, s.2 ++ moved.2)))
        (cryptor, [])
      = some (engine.cryptor, output)

def CommonCrypto.crypt (C : CommonCrypto) (key iv data : Data) : CryptorOperation → Option Data
  | .encrypt => some (C.encrypt key iv data)
  | .decrypt => C.decrypt key iv data

namespace Engine

variable {operation : CryptorOperation} {key iv input output : Data} {self : Engine C}

theorem fed_new (C : CommonCrypto) (operation : CryptorOperation) (hkey : key.length = keySize)
    (hiv : iv.length = ivSize)
    : ∃ engine, new C operation key iv = .ok engine ∧ engine.Fed operation key iv [] [] := by
  obtain ⟨cryptor, -, hcreate, -, -⟩ := C.cryptor_pieces operation key iv [] hkey hiv
  refine ⟨{ cryptor }, ?_, hkey, hiv, cryptor, [], hcreate, rfl, rfl⟩
  unfold new
  rw [hcreate]

theorem fed_update (h : self.Fed operation key iv input output) (data : Data)
    : ∃ next moved, self.update data = .ok (next, moved)
        ∧ next.Fed operation key iv (input ++ data) (output ++ moved) := by
  obtain ⟨cryptor, pieces, hcreate, hflatten, hfold⟩ := h.pieces
  obtain ⟨other, fed, hother, hpieces, -⟩ :=
    C.cryptor_pieces operation key iv (pieces ++ [data]) h.length_key h.length_iv
  rw [hcreate, Option.some.injEq] at hother
  subst hother
  have hlast := hpieces
  rw [List.foldlM_append, hfold] at hlast
  cases hupdate : C.cryptorUpdate self.cryptor data with
  | none => simp [hupdate] at hlast
  | some moved =>
    refine ⟨{ cryptor := moved.1 }, moved.2, ?_, h.length_key, h.length_iv, cryptor,
      pieces ++ [data], hcreate,
      ?_, ?_⟩
    . unfold update
      rw [hupdate]
    . simp [hflatten]
    . rw [List.foldlM_append, hfold]
      simp [hupdate]

theorem fed_finalData (h : self.Fed operation key iv input output)
    : self.finalData.map (output ++ ·)
        =
      match C.crypt key iv input operation with
      | some data => .ok data
      | none => .error .assertionFailure := by
  obtain ⟨cryptor, pieces, hcreate, hflatten, hfold⟩ := h.pieces
  obtain ⟨other, fed, hother, hpieces, hfinal⟩ :=
    C.cryptor_pieces operation key iv pieces h.length_key h.length_iv
  rw [hcreate, Option.some.injEq] at hother
  subst hother
  rw [hfold, Option.some.injEq] at hpieces
  subst hpieces
  have hcrypt : C.crypt key iv input operation
      =
    (C.cryptorFinal self.cryptor).map (output ++ ·) := by
    rw [hfinal, hflatten]
    cases operation with
    | encrypt => rfl
    | decrypt => rfl
  rw [hcrypt]
  unfold finalData
  cases C.cryptorFinal self.cryptor with
  | none => rfl
  | some moved => rfl

end Engine

def HMACV3.Fed (self : HMACV3 C) (key input : Data) : Prop :=
  ∃ pieces : List Data, pieces.flatten = input ∧
    pieces.foldl C.hmacUpdate (C.hmacInit key) = self.context

namespace HMACV3

variable {key input : Data} {self : HMACV3 C}

theorem fed_new (key : Data) : (new C key).Fed key [] := by
  exists []

theorem fed_update (h : self.Fed key input) (data : Data)
    : (self.update data).Fed key (input ++ data) := by
  obtain ⟨pieces, hflatten, hfold⟩ := h
  refine ⟨pieces ++ [data], ?_, ?_⟩
  . simp [hflatten]
  . rw [List.foldl_append, hfold]
    rfl

theorem finalData_of_fed (h : self.Fed key input) : self.finalData = C.hmac key input := by
  obtain ⟨pieces, hflatten, hfold⟩ := h
  rw [← hflatten, ← C.hmac_pieces, hfold]
  rfl

end HMACV3

theorem compare_fold {trusted : Data} (htrusted : trusted ≠ []) (untrusted : Data) (start : UInt8)
    (offset : Nat)
    : ∃ result, (untrusted.zipIdx offset).foldlM (accumulateDifference trusted) start = .ok result
      ∧ (result = 0 ↔ start = 0 ∧
          ∀ i, ∀ byte, untrusted[i]? = some byte →
            trusted[(offset + i) % trusted.length]? = some byte) := by
  have hpos : 0 < trusted.length := List.length_pos_of_ne_nil htrusted
  induction untrusted generalizing start offset with
  | nil => exact ⟨start, rfl, by simp⟩
  | cons byte untrusted ih =>
    have hbound : offset % trusted.length < trusted.length := Nat.mod_lt _ hpos
    have hget := List.getElem?_eq_getElem hbound
    obtain ⟨result, hfold, hresult⟩ :=
      ih (start ||| (trusted[offset % trusted.length] ^^^ byte)) (offset + 1)
    refine ⟨result, ?_, ?_⟩
    . rw [List.zipIdx_cons, List.foldlM_cons]
      simp only [accumulateDifference, hget]
      exact hfold
    . rw [hresult, UInt8.or_eq_zero_iff, UInt8.xor_eq_zero_iff]
      constructor
      . rintro ⟨⟨hstart, hbyte⟩, hrest⟩
        refine ⟨hstart, ?_⟩
        intro i b hi
        cases i with
        | zero =>
          simp only [List.getElem?_cons_zero, Option.some.injEq] at hi
          rw [Nat.add_zero, hget, hbyte, hi]
        | succ i =>
          rw [List.getElem?_cons_succ] at hi
          rw [← hrest i b hi]
          congr 2
          omega
      . rintro ⟨hstart, hall⟩
        refine ⟨⟨hstart, ?_⟩, ?_⟩
        . have hzero := hall 0 byte (by simp)
          rw [Nat.add_zero, hget, Option.some.injEq] at hzero
          exact hzero
        . intro i b hi
          rw [← hall (i + 1) b (by simpa using hi)]
          congr 2
          omega

theorem isEqualInConsistentTime_eq {trusted : Data} (htrusted : trusted ≠ []) (untrusted : Data)
    : isEqualInConsistentTime trusted untrusted = .ok (decide (untrusted = trusted)) := by
  unfold isEqualInConsistentTime
  obtain ⟨result, hfold, hresult⟩ :=
    compare_fold htrusted untrusted (if untrusted.length = trusted.length then 0 else 1) 0
  dsimp only
  rw [hfold]
  simp only [bind, Except.bind, pure, Except.pure, Except.ok.injEq]
  rw [Bool.eq_iff_iff, beq_iff_eq, decide_eq_true_iff, hresult]
  constructor
  . rintro ⟨hlength, hall⟩
    have hlength : untrusted.length = trusted.length := by
      by_contra hne
      simp [hne] at hlength
    apply List.ext_getElem hlength
    intro i hi hi'
    have hbyte := hall i untrusted[i] (List.getElem?_eq_getElem hi)
    rw [Nat.zero_add, Nat.mod_eq_of_lt hi', List.getElem?_eq_getElem hi'] at hbyte
    simpa using hbyte.symm
  . intro heq
    subst heq
    refine ⟨by simp, ?_⟩
    intro i byte hi
    rw [Nat.zero_add]
    have hbound : i < untrusted.length := (List.getElem?_eq_some_iff.mp hi).choose
    rw [Nat.mod_eq_of_lt hbound]
    exact hi

end RNCryptor
