import Mathlib.Data.List.Basic

/-!
This module contains the hash function SHA-256. Words are natural numbers below `2 ^ 32`.
-/

namespace Sha256

def modulus : Nat := 4294967296

def roundConstants : List Nat :=
  [0x428a2f98, 0x71374491, 0xb5c0fbcf, 0xe9b5dba5, 0x3956c25b, 0x59f111f1, 0x923f82a4, 0xab1c5ed5,
    0xd807aa98, 0x12835b01, 0x243185be, 0x550c7dc3, 0x72be5d74, 0x80deb1fe, 0x9bdc06a7, 0xc19bf174,
    0xe49b69c1, 0xefbe4786, 0x0fc19dc6, 0x240ca1cc, 0x2de92c6f, 0x4a7484aa, 0x5cb0a9dc, 0x76f988da,
    0x983e5152, 0xa831c66d, 0xb00327c8, 0xbf597fc7, 0xc6e00bf3, 0xd5a79147, 0x06ca6351, 0x14292967,
    0x27b70a85, 0x2e1b2138, 0x4d2c6dfc, 0x53380d13, 0x650a7354, 0x766a0abb, 0x81c2c92e, 0x92722c85,
    0xa2bfe8a1, 0xa81a664b, 0xc24b8b70, 0xc76c51a3, 0xd192e819, 0xd6990624, 0xf40e3585, 0x106aa070,
    0x19a4c116, 0x1e376c08, 0x2748774c, 0x34b0bcb5, 0x391c0cb3, 0x4ed8aa4a, 0x5b9cca4f, 0x682e6ff3,
    0x748f82ee, 0x78a5636f, 0x84c87814, 0x8cc70208, 0x90befffa, 0xa4506ceb, 0xbef9a3f7, 0xc67178f2]

structure State where
  a : Nat
  b : Nat
  c : Nat
  d : Nat
  e : Nat
  f : Nat
  g : Nat
  h : Nat
  deriving DecidableEq, Repr

def initialState : State where
  a := 0x6a09e667
  b := 0xbb67ae85
  c := 0x3c6ef372
  d := 0xa54ff53a
  e := 0x510e527f
  f := 0x9b05688c
  g := 0x1f83d9ab
  h := 0x5be0cd19

def rotateRight (x n : Nat) : Nat :=
  (x >>> n) ||| ((x <<< (32 - n)) % modulus)

def round (s : State) (input : Nat) : State :=
  let sigma1 := rotateRight s.e 6 ^^^ rotateRight s.e 11 ^^^ rotateRight s.e 25
  let choice := (s.e &&& s.f) ^^^ ((modulus - 1 - s.e) &&& s.g)
  let t1 := s.h + sigma1 + choice + input
  let sigma0 := rotateRight s.a 2 ^^^ rotateRight s.a 13 ^^^ rotateRight s.a 22
  let majority := (s.a &&& s.b) ^^^ (s.a &&& s.c) ^^^ (s.b &&& s.c)
  let t2 := sigma0 + majority
  {
    a := (t1 + t2) % modulus
    b := s.a
    c := s.b
    d := s.c
    e := (s.d + t1) % modulus
    f := s.e
    g := s.f
    h := s.g
  }

def schedule : Nat → List Nat → List Nat
  | n + 1, word :: rest =>
    let w1 := rest.getD 0 0
    let w9 := rest.getD 8 0
    let w14 := rest.getD 13 0
    let sigma0 := rotateRight w1 7 ^^^ rotateRight w1 18 ^^^ (w1 >>> 3)
    let sigma1 := rotateRight w14 17 ^^^ rotateRight w14 19 ^^^ (w14 >>> 10)
    word :: schedule n (rest ++ [(word + sigma0 + w9 + sigma1) % modulus])
  | _, _ => []

def compress (s : State) (block : List Nat) : State :=
  let r := (List.zipWith (fun k w => k + w) roundConstants (schedule 64 block)).foldl round s
  {
    a := (s.a + r.a) % modulus
    b := (s.b + r.b) % modulus
    c := (s.c + r.c) % modulus
    d := (s.d + r.d) % modulus
    e := (s.e + r.e) % modulus
    f := (s.f + r.f) % modulus
    g := (s.g + r.g) % modulus
    h := (s.h + r.h) % modulus
  }

def toWords : List UInt8 → List Nat
  | a :: b :: c :: d :: rest =>
    (((a.toNat * 256 + b.toNat) * 256 + c.toNat) * 256 + d.toNat) :: toWords rest
  | _ => []

def pad (message : List UInt8) : List UInt8 :=
  let bits := message.length * 8
  message ++ [(0x80 : UInt8)] ++ List.replicate ((119 - message.length % 64) % 64) (0 : UInt8)
    ++ (List.range 8).map (fun i => UInt8.ofNat (bits >>> (56 - 8 * i)))

def hashBlocks : Nat → State → List Nat → State
  | 0, s, _ => s
  | n + 1, s, words => hashBlocks n (compress s (words.take 16)) (words.drop 16)

def hash (message : List UInt8) : Vector UInt8 32 :=
  let padded := pad message
  let s := hashBlocks (padded.length / 64) initialState (toWords padded)
  let words := [s.a, s.b, s.c, s.d, s.e, s.f, s.g, s.h]
  Vector.ofFn (fun i => UInt8.ofNat (words.getD (i.val / 4) 0 >>> (24 - 8 * (i.val % 4))))

end Sha256
