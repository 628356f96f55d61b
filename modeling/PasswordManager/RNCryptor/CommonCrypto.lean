import PasswordManager.Platform
import PasswordManager.Sha256.Basic

/-!
This module contains what the cryptor takes from the system: a block cipher and a message
authentication code, both fed piece by piece, and the derivation of a key from a password.
-/

-- Data whose indices start from zero, a slice of other data is not among them.
abbrev Data := List UInt8

namespace RNCryptor

inductive CryptorOperation where
  | encrypt
  | decrypt
  deriving DecidableEq, Repr

/--
A call to the cipher gives nothing if its status is not `kCCSuccess`. For keys and vectors of the
right length all calls succeed but the last one of a decryption. `encrypt`, `decrypt` and `hmac` say
what the calls compute in the end, however the data was cut.
-/
structure CommonCrypto where
  Cryptor : Type
  create : CryptorOperation → (key iv : Data) → Option Cryptor
  cryptorUpdate : Cryptor → Data → Option (Cryptor × Data)
  cryptorFinal : Cryptor → Option Data
  HmacContext : Type
  hmacInit : (key : Data) → HmacContext
  hmacUpdate : HmacContext → Data → HmacContext
  hmacFinal : HmacContext → Data
  keyDerivation : (password salt : Data) → (rounds keySize : Nat) → Data
  encrypt : (key iv : Data) → Data → Data
  decrypt : (key iv : Data) → Data → Option Data
  hmac : (key : Data) → Data → Data
  cryptor_pieces : ∀ operation key iv (pieces : List Data), key.length = 32 → iv.length = 16 →
    ∃ cryptor fed, create operation key iv = some cryptor
      ∧ pieces.foldlM
          (fun (s : Cryptor × Data) piece =>
            (cryptorUpdate s.1 piece).map (fun moved => (moved.1, s.2 ++ moved.2)))
          (cryptor, [])
        = some fed
      ∧ (cryptorFinal fed.1).map (fed.2 ++ ·)
        =
        match operation with
        | .encrypt => some (encrypt key iv pieces.flatten)
        | .decrypt => decrypt key iv pieces.flatten
  hmac_pieces : ∀ key (pieces : List Data),
    hmacFinal (pieces.foldl hmacUpdate (hmacInit key)) = hmac key pieces.flatten
  hmac_length : ∀ key data, (hmac key data).length = 32
  keyDerivation_length : ∀ password salt rounds keySize,
    (keyDerivation password salt rounds keySize).length = keySize
  decrypt_encrypt : ∀ key iv data, key.length = 32 → iv.length = 16 →
    decrypt key iv (encrypt key iv data) = some data

namespace CommonCrypto

def hmacSha256 (key data : Data) : Data :=
  let key := if key.length > 64 then (Sha256.hash key).toList else key
  let block := key ++ List.replicate (64 - key.length) 0
  let inner := (Sha256.hash (block.map (· ^^^ 0x36) ++ data)).toList
  (Sha256.hash (block.map (· ^^^ 0x5c) ++ inner)).toList

def plain : CommonCrypto where
  Cryptor := Data
  create _ _ _ := some []
  cryptorUpdate held data := some (held ++ data, [])
  cryptorFinal held := some held
  HmacContext := Data × Data
  hmacInit key := (key, [])
  hmacUpdate context data := (context.1, context.2 ++ data)
  hmacFinal context := hmacSha256 context.1 context.2
  keyDerivation password salt _ keySize :=
    let digest := (Sha256.hash (password ++ salt)).toList
    (List.range keySize).map (fun i => digest.getD i 0)
  encrypt _ _ data := data
  decrypt _ _ data := some data
  hmac := hmacSha256
  cryptor_pieces operation key iv pieces _ _ := by
    have hfold : ∀ held : Data, pieces.foldlM
        (fun (s : Data × Data) piece =>
          (some (s.1 ++ piece, ([] : Data))).map (fun moved => (moved.1, s.2 ++ moved.2)))
        (held, [])
          =
        some (held ++ pieces.flatten, []) := by
      induction pieces with
      | nil => simp
      | cons piece pieces ih =>
        intro held
        rw [List.foldlM_cons, List.flatten_cons, ← List.append_assoc]
        exact ih (held ++ piece)
    refine ⟨[], _, rfl, hfold [], ?_⟩
    cases operation with
    | encrypt => rfl
    | decrypt => rfl
  hmac_pieces key pieces := by
    have hfold : ∀ held : Data, pieces.foldl
        (fun (context : Data × Data) data => (context.1, context.2 ++ data)) (key, held)
          =
        (key, held ++ pieces.flatten) := by
      induction pieces with
      | nil => simp
      | cons piece pieces ih =>
        intro held
        simp only [List.foldl_cons, List.flatten_cons]
        rw [ih (held ++ piece), List.append_assoc]
    rw [hfold]
    simp
  hmac_length key data := by
    simp [hmacSha256]
  keyDerivation_length password salt rounds keySize := by
    simp
  decrypt_encrypt _ _ _ _ _ := rfl

end CommonCrypto

end RNCryptor
