import PasswordManager.Base64.Lemmas
import PasswordManager.Regex.Basic
import PasswordManager.Platform

/-!
This module contains the extension of `String`: the two validators, which search the string for a
pattern, and the encryption of a string into base64.
-/

inductive CryptoError where
  | invalidPassword
  deriving DecidableEq, Repr

namespace String

open Unicode

def inRanges (ranges : List (Nat × Nat)) (c : Char) : Bool :=
  ranges.any (fun range => range.1 ≤ c.toNat && c.toNat ≤ range.2)

def oneOf (chars : String) (c : Char) : Bool :=
  chars.toList.contains c

/--
`firstMatch(in: self, options: [], range: NSRange(location: 0, length: count)) != nil`. The range
counts UTF-16 code units while `count` counts grapheme clusters. A surrogate that the end of the
range cuts off its pair belongs to no set of the patterns below and is no word character, so it is
left out.
-/
def hasMatch (tables : Tables) (self : String) (regex : Regex Char) : Bool :=
  (regex.firstMatch (utf16Prefix (tables.clusters self.toList) self.toList)).isSome

namespace isValidEmail

def letterOrDigit (tables : Tables) : Char → Bool :=
  caseInsensitive (fun c => tables.letter c || c.isDigit)

def labelChar (tables : Tables) : Char → Bool :=
  caseInsensitive (fun c => tables.letter c || c.isDigit || c == '-')

def asciiLabelChar : Char → Bool :=
  caseInsensitive (fun c => c.isLower || c.isDigit || c == '-')

def atomChar (tables : Tables) : Char → Bool :=
  caseInsensitive (fun c =>
    tables.letter c || c.isDigit || oneOf "!#$%&'*+/=?^_`\x7b|\x7d~-" c)

def quotedChar : Char → Bool :=
  caseInsensitive (inRanges
    [(0x01, 0x08), (0x0b, 0x0b), (0x0c, 0x0c), (0x0e, 0x1f), (0x21, 0x21), (0x23, 0x5b),
      (0x5d, 0x7f)])

def literalChar : Char → Bool :=
  caseInsensitive (inRanges
    [(0x01, 0x08), (0x0b, 0x0b), (0x0c, 0x0c), (0x0e, 0x1f), (0x21, 0x5a), (0x53, 0x7f)])

def escapedChar : Char → Bool :=
  caseInsensitive (inRanges [(0x01, 0x09), (0x0b, 0x0b), (0x0c, 0x0c), (0x0e, 0x7f)])

def orEscaped (accepts : Char → Bool) : Regex Char :=
  .alt (.set accepts) (.seq (.sym '\\') (.set escapedChar))

-- atom+(?:\.atom+)*|"quoted*"
def localPart (tables : Tables) : Regex Char :=
  .alt
    (.seq
      (.plus (.set (atomChar tables)))
      (.star (.seq (.sym '.') (.plus (.set (atomChar tables))))))
    (.seq (.sym '"') (.seq (.star (orEscaped quotedChar)) (.sym '"')))

-- [\p{L}0-9](?:inner*[\p{L}0-9])?
def label (tables : Tables) (inner : Char → Bool) : Regex Char :=
  .seq
    (.set (letterOrDigit tables))
    (.opt (.seq (.star (.set inner)) (.set (letterOrDigit tables))))

-- `(?:label\.)+label`, the inner characters of the labels before the last one are ASCII.
def hostName (tables : Tables) : Regex Char :=
  .seq
    (.plus (.seq (label tables asciiLabelChar) (.sym '.')))
    (label tables (labelChar tables))

-- 25[0-5]|2[0-4][0-9]|[01]?[0-9][0-9]?
def octet : Regex Char :=
  .alt
    (.seq (.sym '2') (.seq (.sym '5') (.set (oneOf "012345"))))
    (.alt
      (.seq (.sym '2') (.seq (.set (oneOf "01234")) (.set Char.isDigit)))
      (.seq (.opt (.set (oneOf "01"))) (.seq (.set Char.isDigit) (.opt (.set Char.isDigit)))))

-- [\p{L}0-9-]*[\p{L}0-9]:(?:literal)+
def addressLiteral (tables : Tables) : Regex Char :=
  .seq
    (.star (.set (labelChar tables)))
    (.seq
      (.set (letterOrDigit tables))
      (.seq (.sym ':') (.plus (orEscaped literalChar))))

-- \[(?:octet\.){3}(?:octet|literal)\]
def bracketed (tables : Tables) : Regex Char :=
  .seq
    (.sym '[')
    (.seq
      (.rounds (.seq octet (.sym '.')) 3 (some 3))
      (.seq (.alt octet (addressLiteral tables)) (.sym ']')))

def regexPattern (tables : Tables) : Regex Char :=
  .seq (localPart tables) (.seq (.sym '@') (.alt (hostName tables) (bracketed tables)))

end isValidEmail

def isValidEmail (P : Platform) (self : String) : Bool :=
  self.hasMatch P.unicode (isValidEmail.regexPattern P.unicode)

namespace isValidUrl

def hostChar : Char → Bool :=
  caseInsensitive (fun c => c.isAlphanum || oneOf "-@:%._+~#=" c)

def topLevelChar : Char → Bool :=
  caseInsensitive Char.isLower

def pathChar : Char → Bool :=
  caseInsensitive (fun c => c.isAlphanum || oneOf "-@:%_+.~#?&/=" c)

-- host{2,256}\.[a-z]{2,6}\b(path*)
def regexPattern (tables : Tables) : Regex Char :=
  .seq
    (.rounds (.set hostChar) 2 (some 256))
    (.seq
      (.sym '.')
      (.seq
        (.rounds (.set topLevelChar) 2 (some 6))
        (.seq (.assertion tables.wordBoundary) (.star (.set pathChar)))))

end isValidUrl

def isValidUrl (P : Platform) (self : String) : Bool :=
  self.hasMatch P.unicode (isValidUrl.regexPattern P.unicode)

def encrypt (P : Platform) (random : List UInt8) (self : String) (password : String)
    : Except Trap String :=
  if password = "" then
    -- the precondition of `RNCryptor.Encryptor`
    .error .assertionFailure
  else
    .ok (String.ofList (Base64.encode (P.cryptor.encrypt random self.utf8Data password)))

/--
Decrypt a base64-encoded password-encrypted string. The outer result is the one of the runtime, the
inner one is what the function throws or returns.
-/
def decrypt (P : Platform) (self : String) (password : String)
    : Except Trap (Except CryptoError String) :=
  match Base64.decode self.toList with
  -- `encrypted!` stands inside a `do` block, but a trap is not an error that `catch` sees
  | none => .error .unexpectedlyFoundNil
  | some encrypted =>
    if password = "" then
      -- the assertion of `RNCryptor.Decryptor`
      .error .assertionFailure
    else
      match P.cryptor.decrypt encrypted password with
      | .error _ => .ok (.error .invalidPassword)
      | .ok decryptedData =>
        match String.ofUtf8Data decryptedData with
        | none => .ok (.error .invalidPassword)
        | some decryptedPassword => .ok (.ok decryptedPassword)

theorem encrypt_eq_ok {P : Platform} {password : String} (hpassword : password ≠ "")
    (random : List UInt8) (self : String)
    : self.encrypt P random password
        =
      .ok (String.ofList (Base64.encode (P.cryptor.encrypt random self.utf8Data password))) := by
  unfold encrypt
  rw [if_neg hpassword]

theorem decrypt_of_encrypt {P : Platform} {self password encrypted : String} {random : List UInt8}
    (h : self.encrypt P random password = .ok encrypted)
    : encrypted.decrypt P password = .ok (.ok self) := by
  unfold encrypt at h
  split at h
  . cases h
  . next hpassword =>
    cases h
    unfold decrypt
    rw [String.toList_ofList, Base64.decode_encode]
    simp only [hpassword, ↓reduceIte]
    rw [P.cryptor.decrypt_encrypt random _ password hpassword]
    simp

theorem decrypt_ok_iff (P : Platform) (self : String) {password : String}
    (hpassword : password ≠ "")
    : (∃ result, self.decrypt P password = .ok result) ↔ Base64.IsValid self.toList := by
  rw [← Base64.decode_isSome_iff]
  unfold decrypt
  cases Base64.decode self.toList with
  | none => simp
  | some encrypted =>
    simp only [hpassword, ↓reduceIte, Option.isSome_some, iff_true]
    cases P.cryptor.decrypt encrypted password with
    | error err => simp
    | ok data =>
      dsimp only
      cases String.ofUtf8Data data with
      | none => simp
      | some text => simp

end String
