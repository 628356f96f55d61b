import PasswordManager.Platform
import PasswordManager.Sha256.Basic

/-!
This module contains a platform on which the model can be evaluated. Its hash is SHA-256. Its
cryptor has the header and the errors of RNCryptor and recognizes a wrong password, it keeps nothing
secret.
-/

namespace RNCryptor

def tag (password : String) : List UInt8 :=
  password.utf8Data.take 4

def taggedEncrypt (_random data : List UInt8) (password : String) : List UInt8 :=
  3 :: 1 :: (data ++ tag password)

def taggedDecrypt (data : List UInt8) (password : String) : Except Error (List UInt8) :=
  match data with
  | version :: kind :: body =>
    if version ≠ 3 then
      .error .unknownHeader
    else if kind ≠ 1 then
      .error .invalidCredentialType
    else if body.length < (tag password).length then
      .error .messageTooShort
    else if body.drop (body.length - (tag password).length) ≠ tag password then
      .error .hmacMismatch
    else
      .ok (body.take (body.length - (tag password).length))
  | [3] => .error .messageTooShort
  | _ => .error .unknownHeader

theorem taggedDecrypt_taggedEncrypt (random data : List UInt8) (password : String)
    : taggedDecrypt (taggedEncrypt random data password) password = .ok data := by
  simp [taggedDecrypt, taggedEncrypt]

def tagged : RNCryptor where
  encrypt := taggedEncrypt
  decrypt := taggedDecrypt
  decrypt_encrypt random data password _ := taggedDecrypt_taggedEncrypt random data password

end RNCryptor

namespace Platform

def reference : Platform where
  unicode := Unicode.asciiTables
  sha256 := Sha256.hash
  cryptor := RNCryptor.tagged

def isLatinOrDeseret (c : Char) : Bool :=
  (0xC0 ≤ c.toNat && c.toNat ≤ 0xFF && c.toNat ≠ 0xD7 && c.toNat ≠ 0xF7)
    || (0x10400 ≤ c.toNat && c.toNat ≤ 0x1044F)

theorem isLatinOrDeseret_ascii {c : Char} (h : c.toNat < 128) : isLatinOrDeseret c = false := by
  simp [isLatinOrDeseret]
  omega

def latinTables : Unicode.Tables where
  letter c := c.isAlpha || isLatinOrDeseret c
  word c := c.isAlphanum || c == '_' || isLatinOrDeseret c
  ignorable _ := false
  graphemeBreak := Unicode.asciiTables.graphemeBreak
  canonical := Unicode.asciiTables.canonical
  letter_ascii c h := by rw [isLatinOrDeseret_ascii h, Bool.or_false]
  word_ascii c h := by rw [isLatinOrDeseret_ascii h, Bool.or_false]
  ignorable_ascii _ _ := rfl
  graphemeBreak_ascii := Unicode.asciiTables.graphemeBreak_ascii
  canonical_ascii := Unicode.asciiTables.canonical_ascii

def latin : Platform :=
  { reference with unicode := latinTables }

end Platform
