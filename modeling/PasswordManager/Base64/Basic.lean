import Mathlib.Data.List.Basic

/-!
This module contains the base64 encoding with the standard alphabet and mandatory padding, in both
directions. The decoder does not look at the bits that the padding cuts off.
-/

namespace Base64

def encodeDigit (n : Nat) : Char :=
  if n < 26 then
    Char.ofNat (n + 65)
  else if n < 52 then
    Char.ofNat (n - 26 + 97)
  else if n < 62 then
    Char.ofNat (n - 52 + 48)
  else if n = 62 then
    '+'
  else
    '/'

def decodeDigit (c : Char) : Option Nat :=
  if 65 ≤ c.toNat ∧ c.toNat ≤ 90 then
    some (c.toNat - 65)
  else if 97 ≤ c.toNat ∧ c.toNat ≤ 122 then
    some (c.toNat - 97 + 26)
  else if 48 ≤ c.toNat ∧ c.toNat ≤ 57 then
    some (c.toNat - 48 + 52)
  else if c = '+' then
    some 62
  else if c = '/' then
    some 63
  else
    none

def encode : List UInt8 → List Char
  | [] => []
  | [a] =>
    let n := a.toNat * 16
    [encodeDigit (n / 64), encodeDigit (n % 64), '=', '=']
  | [a, b] =>
    let n := (a.toNat * 256 + b.toNat) * 4
    [encodeDigit (n / 4096), encodeDigit (n / 64 % 64), encodeDigit (n % 64), '=']
  | a :: b :: c :: rest =>
    let n := (a.toNat * 256 + b.toNat) * 256 + c.toNat
    encodeDigit (n / 262144)
      :: encodeDigit (n / 4096 % 64)
      :: encodeDigit (n / 64 % 64)
      :: encodeDigit (n % 64)
      :: encode rest

def decodeOne (a b : Char) : Option (List UInt8) := do
  let x ← decodeDigit a
  let y ← decodeDigit b
  return [UInt8.ofNat ((x * 64 + y) / 16)]

def decodeTwo (a b c : Char) : Option (List UInt8) := do
  let x ← decodeDigit a
  let y ← decodeDigit b
  let z ← decodeDigit c
  let n := ((x * 64 + y) * 64 + z) / 4
  return [UInt8.ofNat (n / 256), UInt8.ofNat (n % 256)]

def decodeThree (a b c d : Char) : Option (List UInt8) := do
  let x ← decodeDigit a
  let y ← decodeDigit b
  let z ← decodeDigit c
  let w ← decodeDigit d
  let n := ((x * 64 + y) * 64 + z) * 64 + w
  return [UInt8.ofNat (n / 65536), UInt8.ofNat (n / 256 % 256), UInt8.ofNat (n % 256)]

def decode : List Char → Option (List UInt8)
  | [] => some []
  | a :: b :: c :: d :: rest =>
    if rest = [] ∧ d = '=' then
      if c = '=' then decodeOne a b else decodeTwo a b c
    else do
      let bytes ← decodeThree a b c d
      let tail ← decode rest
      return bytes ++ tail
  | _ => none

def IsValid (cs : List Char) : Prop :=
  ∃ (body : List Char) (padding : Nat),
    cs = body ++ List.replicate padding '='
      ∧ (∀ c ∈ body, (decodeDigit c).isSome)
      ∧ padding ≤ 2
      ∧ cs.length % 4 = 0

end Base64
