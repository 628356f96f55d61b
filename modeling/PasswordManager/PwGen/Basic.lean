import PasswordManager.Models.Credential

/-!
This module contains the generator of passwords: its settings, each of which changes the generator
and returns it, and the generation out of random numbers.
-/

structure CaseMapping where
  uppercased : String → String
  lowercased : String → String
  uppercased_ascii : ∀ s, (∀ c ∈ s.toList, c.toNat < 128) → uppercased s = s.map Char.toUpper
  lowercased_ascii : ∀ s, (∀ c ∈ s.toList, c.toNat < 128) → lowercased s = s.map Char.toLower

def CaseMapping.ascii : CaseMapping where
  uppercased s := s.map Char.toUpper
  lowercased s := s.map Char.toLower
  uppercased_ascii _ _ := rfl
  lowercased_ascii _ _ := rfl

structure Arc4Random where
  uniform : (call upperBound : Nat) → Nat
  uniform_lt : ∀ call upperBound, 0 < upperBound → uniform call upperBound < upperBound

structure PwGen where
  useUppercase : Bool
  size : UInt8
  characters : List String
  deriving DecidableEq, Repr

namespace PwGen

structure RuntimeError where
  message : String
  deriving DecidableEq, Repr

def defaultUppercase : Bool := true

def defaultSize : UInt8 := 12

def symbols : List String :=
  ["@", "#", "$", "%", " ", ".", "!", "\"", "&", "\'", "(", ")", "*", "+", ",", "-", "/", ":", ";",
    "<", "=", ">", "?", "[", "\\", "]", "^", "_", "`", "\x7b", "|", "\x7d", "~"]

def letters : List String :=
  ["a", "b", "c", "d", "e", "f", "g", "h", "i", "j", "k", "l", "m", "n", "o", "p", "q", "r", "s",
    "t", "u", "v", "w", "x", "y", "z"]

def numbers : List String :=
  ["0", "1", "2", "3", "4", "5", "6", "7", "8", "9"]

def new : PwGen where
  useUppercase := defaultUppercase
  size := defaultSize
  characters := symbols ++ letters ++ numbers

def ofSize (self : PwGen) (size : UInt8) : PwGen :=
  { self with size }

def withoutUppercase (self : PwGen) : PwGen :=
  { self with useUppercase := false }

section Characters

variable (unicode : Unicode.Tables)

def filter (character : String) (characters : List String) : List String :=
  characters.filter (fun other => unicode.canonical other ≠ unicode.canonical character)

def filterEach (excluded characters : List String) : List String :=
  excluded.foldl (fun characters character => filter unicode character characters) characters

def withoutNumbers (self : PwGen) : PwGen :=
  { self with characters := filterEach unicode numbers self.characters }

def withoutLetters (self : PwGen) : PwGen :=
  { self with characters := filterEach unicode letters self.characters }

def withoutSymbols (self : PwGen) : PwGen :=
  { self with characters := filterEach unicode symbols self.characters }

variable (cases : CaseMapping)

def withoutCharacter (self : PwGen) (character : String) : PwGen :=
  { self with characters := filter unicode (cases.lowercased character) self.characters }

def withoutCharacters (self : PwGen) (characters : List String) : PwGen :=
  { self with characters := filterEach unicode (characters.map cases.lowercased) self.characters }

def contains (character : String) (characters : List String) : Bool :=
  characters.any (fun other => unicode.canonical other = unicode.canonical character)

def addCharacter (self : PwGen) (character : String) : PwGen :=
  if unicode.clusters character.toList = 1 then
    if !contains unicode (cases.lowercased character) self.characters then
      { self with characters := self.characters ++ [cases.lowercased character] }
    else
      self
  else
    self

def addCharacters (self : PwGen) (characters : List String) : PwGen :=
  characters.foldl (addCharacter unicode cases) self

end Characters

def reset (_self : PwGen) : PwGen :=
  new

inductive Setting where
  | ofSize (size : UInt8)
  | withoutNumbers
  | withoutLetters
  | withoutSymbols
  | withoutUppercase
  | withoutCharacter (character : String)
  | withoutCharacters (characters : List String)
  | addCharacter (character : String)
  | addCharacters (characters : List String)
  | reset
  deriving DecidableEq, Repr

def apply (unicode : Unicode.Tables) (cases : CaseMapping) (self : PwGen) : Setting → PwGen
  | .ofSize size => self.ofSize size
  | .withoutNumbers => self.withoutNumbers unicode
  | .withoutLetters => self.withoutLetters unicode
  | .withoutSymbols => self.withoutSymbols unicode
  | .withoutUppercase => self.withoutUppercase
  | .withoutCharacter character => self.withoutCharacter unicode cases character
  | .withoutCharacters characters => self.withoutCharacters unicode cases characters
  | .addCharacter character => self.addCharacter unicode cases character
  | .addCharacters characters => self.addCharacters unicode cases characters
  | .reset => self.reset

def randomCharacter (random : Arc4Random) (self : PwGen) (call : Nat) : Except Trap String :=
  match self.characters[random.uniform call self.characters.length]? with
  | some character => .ok character
  | none => .error .indexOutOfRange

def nextPiece (cases : CaseMapping) (random : Arc4Random) (self : PwGen) (call : Nat)
    : Except Trap (String × Nat) := do
  if self.useUppercase then
    let character ← self.randomCharacter random (call + 1)
    if random.uniform call 2 == 1 then
      return (cases.uppercased character, call + 2)
    else
      return (character, call + 2)
  else
    return (← self.randomCharacter random call, call + 1)

def appendPieces (cases : CaseMapping) (random : Arc4Random) (self : PwGen)
    : (rounds call : Nat) → (password : String) → Except Trap String
  | 0, _, password => .ok password
  | rounds + 1, call, password => do
    let (piece, call) ← self.nextPiece cases random call
    appendPieces cases random self rounds call (password ++ piece)

def generate (cases : CaseMapping) (random : Arc4Random) (self : PwGen)
    : Except Trap (Except RuntimeError String) := do
  if self.characters.length = 0 then
    return .error { message := "Cannot generate a password with all characters filtered out" }
  else if self.size = 0 then
    return .error { message := "Cannot generate a password of size 0" }
  else
    return .ok (← self.appendPieces cases random self.size.toNat 0 "")

end PwGen

namespace Credential

-- For now using predefined settings.
def generator (unicode : Unicode.Tables) : PwGen :=
  (PwGen.new.ofSize 20).withoutSymbols unicode

def regeneratePassword (unicode : Unicode.Tables) (cases : CaseMapping) (random : Arc4Random)
    (self : Credential) : Except Trap Credential := do
  match ← (generator unicode).generate cases random with
  | .ok password => return { self with password := some password }
  -- `try!`
  | .error _ => .error .assertionFailure

end Credential
