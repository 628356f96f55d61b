import PasswordManager.Unicode.Basic

/-!
This module contains what the app takes from its surroundings: the ways in which the Swift runtime
stops it, and the libraries whose code is not part of the app.
-/

inductive Trap where
  | unexpectedlyFoundNil
  | indexOutOfRange
  | assertionFailure
  deriving DecidableEq, Repr

namespace RNCryptor

inductive Error where
  | hmacMismatch
  | unknownHeader
  | messageTooShort
  | memoryFailure
  | invalidCredentialType
  deriving DecidableEq, Repr

end RNCryptor

/--
Password based encryption. `encrypt` takes the salts and the initialization vector that the library
draws at random. Both directions want a password that is not empty.
-/
structure RNCryptor where
  encrypt : (random : List UInt8) → (data : List UInt8) → (password : String) → List UInt8
  decrypt : (data : List UInt8) → (password : String) → Except RNCryptor.Error (List UInt8)
  decrypt_encrypt : ∀ random data password,
    password ≠ "" → decrypt (encrypt random data password) password = .ok data

structure Platform where
  unicode : Unicode.Tables
  sha256 : List UInt8 → Vector UInt8 32
  cryptor : RNCryptor

def String.utf8Data (self : String) : List UInt8 :=
  self.toUTF8.data.toList

def String.ofUtf8Data (data : List UInt8) : Option String :=
  String.fromUTF8? ⟨data.toArray⟩

@[simp]
theorem String.ofUtf8Data_utf8Data (self : String) : ofUtf8Data self.utf8Data = some self := by
  simp only [ofUtf8Data, utf8Data, Array.toArray_toList]
  exact dif_pos self.isValidUTF8

namespace Platform

def hexByte (byte : UInt8) : List Char :=
  [Nat.digitChar (byte.toNat / 16), Nat.digitChar (byte.toNat % 16)]

def digest (P : Platform) (self : String) : String :=
  String.ofList ((P.sha256 self.utf8Data).toList.flatMap hexByte)

theorem digitChar_ne_slash {n : Nat} (h : n < 16) : '/' ≠ Nat.digitChar n := by
  have hall : ∀ m : Fin 16, '/' ≠ Nat.digitChar m.val := by decide
  exact hall ⟨n, h⟩

theorem hexByte_not_slash (byte : UInt8) : '/' ∉ hexByte byte := by
  have hbyte := byte.toNat_lt
  simp only [hexByte, List.mem_cons, List.not_mem_nil, or_false, not_or]
  constructor
  . apply digitChar_ne_slash
    omega
  . apply digitChar_ne_slash
    omega

@[simp]
theorem digest_toList_length (P : Platform) (self : String)
    : (P.digest self).toList.length = 64 := by
  simp [digest, hexByte]

theorem digest_not_slash (P : Platform) (self : String) : '/' ∉ (P.digest self).toList := by
  simp only [digest, String.toList_ofList, List.mem_flatMap, not_exists, not_and]
  intro byte _
  exact hexByte_not_slash byte

theorem digest_ne_empty (P : Platform) (self : String) : P.digest self ≠ "" := by
  intro h
  have hlength := P.digest_toList_length self
  rw [h] at hlength
  simp at hlength

end Platform
