import PasswordManager.Extensions.StringExtensions
import PasswordManager.Platform.Reference
import PasswordManager.RNCryptor.RoundTrip

/-!
This module contains the cryptor of the app as the library computes it, on top of the primitives of
the system, and what that makes of the strings that the app stores.
-/

namespace RNCryptor

open FormatV3

def randomData (supply : Data) (drawn length : Nat) : Data :=
  (List.range length).map (fun i => supply.getD (drawn + i) 0)

@[simp]
theorem randomData_length (supply : Data) (drawn length : Nat)
    : (randomData supply drawn length).length = length := by
  simp [randomData]

def encryptWithPassword (C : CommonCrypto) (supply data : Data) (password : String)
    : Except Trap (Except Error Data) := do
  Swift.precondition (password ≠ "")
  let encryptionSalt := randomData supply 0 saltSize
  let hmacSalt := randomData supply saltSize saltSize
  let iv := randomData supply (saltSize + saltSize) ivSize
  EncryptorV3.encryptPieces C (EncryptorV3.withPassword C password encryptionSalt hmacSalt iv)
    [data]

def decryptWithPassword (C : CommonCrypto) (data : Data) (password : String)
    : Except Trap (Except Error Data) :=
  Decryptor.decryptPieces C password [data]

theorem encryptWithPassword_eq (C : CommonCrypto) (supply data : Data) {password : String}
    (hpassword : password ≠ "")
    : encryptWithPassword C supply data password
        =
      .ok (.ok (passwordMessage C password (randomData supply 0 saltSize)
        (randomData supply saltSize saltSize) (randomData supply (saltSize + saltSize) ivSize)
        data)) := by
  unfold encryptWithPassword
  rw [Swift.precondition_of hpassword]
  simp only [bind, Except.bind]
  rw [EncryptorV3.encryption_of_pieces C password (by simp)]
  simp

theorem decryptWithPassword_eq (C : CommonCrypto) (data : Data) {password : String}
    (hpassword : password ≠ "")
    : decryptWithPassword C data password = Decryptor.opened C password data := by
  unfold decryptWithPassword
  rw [Decryptor.decryption_of_pieces C hpassword]
  simp

/--
`CCryptor will never return padding errors or other decode errors`: the last call of a decryption
succeeds as well.
-/
def CommonCrypto.NeverFails (C : CommonCrypto) : Prop :=
  ∀ key iv sent, key.length = keySize → iv.length = ivSize →
    ∃ data, C.decrypt key iv sent = some data

theorem CommonCrypto.plain_neverFails : plain.NeverFails :=
  fun _ _ sent _ _ => ⟨sent, rfl⟩

theorem decryptWithPassword_returns {C : CommonCrypto} (hfinal : C.NeverFails) (data : Data)
    {password : String} (hpassword : password ≠ "")
    : ∃ result, decryptWithPassword C data password = .ok result := by
  unfold decryptWithPassword
  rw [Decryptor.decryption_result C hpassword]
  split
  . exact ⟨_, rfl⟩
  . split
    . exact ⟨_, rfl⟩
    . next hlength =>
      split
      . exact ⟨_, rfl⟩
      . split
        . exact ⟨_, rfl⟩
        . have hheader : ([data].flatten.take passwordHeaderSize).length = 34 := by
            rw [List.length_take]
            exact Nat.min_eq_left (Nat.le_of_not_lt hlength)
          have hiv : (slice ([data].flatten.take passwordHeaderSize) 18 34).length = ivSize :=
            slice_length _ 18 (by omega)
          obtain ⟨plaintext, hplaintext⟩ := hfinal _ _ (([data].flatten.take
              (max passwordHeaderSize ([data].flatten.length - hmacSize))).drop passwordHeaderSize)
            (makeKey_length C password (slice ([data].flatten.take passwordHeaderSize) 2 10)) hiv
          rw [hplaintext]
          exact ⟨_, rfl⟩

def returned {ε α : Type} : (result : Except ε α) → (∃ value, result = .ok value) → α
  | .ok value, _ => value
  | .error _, h => False.elim (by simp at h)

theorem returned_of_eq {ε α : Type} {result : Except ε α} {value : α} (h : result = .ok value)
    : returned result ⟨value, h⟩ = value := by
  subst h
  rfl

/--
The cryptor of the app. For the empty password, on which the functions of the app abort before they
come here, it says nothing of the code.
-/
def ofCommonCrypto (C : CommonCrypto) (hfinal : C.NeverFails) : RNCryptor where
  encrypt supply data password :=
    if hpassword : password ≠ "" then
      have hresult := encryptWithPassword_eq C supply data hpassword
      returned (returned (encryptWithPassword C supply data password) ⟨_, hresult⟩)
        ⟨_, returned_of_eq hresult⟩
    else
      []
  decrypt data password :=
    if hpassword : password ≠ "" then
      returned (decryptWithPassword C data password)
        (decryptWithPassword_returns hfinal data hpassword)
    else
      .ok []
  decrypt_encrypt supply data password hpassword := by
    rw [dif_pos hpassword, dif_pos hpassword]
    dsimp only
    rw [returned_of_eq (returned_of_eq (encryptWithPassword_eq C supply data hpassword))]
    apply returned_of_eq
    rw [decryptWithPassword_eq C _ hpassword]
    exact opened_passwordMessage C password (by simp) (by simp) (by simp) data

theorem ofCommonCrypto_decrypt {C : CommonCrypto} (hfinal : C.NeverFails) {data : Data}
    {password : String} (hpassword : password ≠ "") {result : Except Error Data}
    (h : decryptWithPassword C data password = .ok result)
    : (ofCommonCrypto C hfinal).decrypt data password = result := by
  simp only [ofCommonCrypto]
  rw [dif_pos hpassword, returned_of_eq h]

end RNCryptor

namespace Platform

open RNCryptor RNCryptor.FormatV3

def v3 (P : Platform) (C : CommonCrypto) (hfinal : C.NeverFails) : Platform :=
  { P with cryptor := ofCommonCrypto C hfinal }

end Platform

namespace String

open RNCryptor RNCryptor.FormatV3

theorem decrypt_v3_eq (P : Platform) {C : CommonCrypto} (hfinal : C.NeverFails) {password : String}
    (hpassword : password ≠ "") {self : String} {encrypted : Data}
    (hbase64 : Base64.decode self.toList = some encrypted) {result : Except Error Data}
    (hresult : decryptWithPassword C encrypted password = .ok result)
    : self.decrypt (P.v3 C hfinal) password
        =
      .ok ((result.toOption.bind ofUtf8Data).elim (.error .invalidPassword) .ok) := by
  have hdecrypt : (P.v3 C hfinal).cryptor.decrypt encrypted password = result :=
    ofCommonCrypto_decrypt hfinal hpassword hresult
  unfold decrypt
  rw [hbase64]
  simp only [hpassword, ↓reduceIte, hdecrypt]
  cases result with
  | error err => rfl
  | ok plaintext =>
    simp only [Except.toOption, Option.bind_some]
    cases ofUtf8Data plaintext with
    | none => rfl
    | some text => rfl

/--
The strings that a password reads: base64 of a message whose code is right and whose plaintext is
UTF-8. On any other string that is valid base64 the library returns, and the answer is an invalid
password.
-/
theorem decrypt_v3_iff (P : Platform) {C : CommonCrypto} (hfinal : C.NeverFails) {password : String}
    (hpassword : password ≠ "") {self : String} {encrypted : Data}
    (hbase64 : Base64.decode self.toList = some encrypted) (text : String)
    : (∃ result, decryptWithPassword C encrypted password = .ok result)
      ∧ (self.decrypt (P.v3 C hfinal) password = .ok (.ok text)
          ↔
        ∃ encryptionSalt hmacSalt iv sent data : Data,
          encryptionSalt.length = saltSize ∧ hmacSalt.length = saltSize ∧ iv.length = ivSize
            ∧ (let authenticated := passwordHeader encryptionSalt hmacSalt iv ++ sent
              encrypted = authenticated ++ C.hmac (makeKey C password hmacSalt) authenticated)
            ∧ C.decrypt (makeKey C password encryptionSalt) iv sent = some data
            ∧ ofUtf8Data data = some text)
      ∧ ((¬ ∃ text, self.decrypt (P.v3 C hfinal) password = .ok (.ok text)) →
          self.decrypt (P.v3 C hfinal) password = .ok (.error .invalidPassword)) := by
  obtain ⟨result, hresult⟩ := decryptWithPassword_returns hfinal encrypted hpassword
  have hopened : Decryptor.opened C password encrypted = .ok result := by
    rw [← decryptWithPassword_eq C encrypted hpassword, hresult]
  refine ⟨⟨result, hresult⟩, ?_⟩
  rw [decrypt_v3_eq P hfinal hpassword hbase64 hresult]
  constructor
  . constructor
    . intro h
      cases result with
      | error err => simp [Except.toOption] at h
      | ok plaintext =>
        have htext : ofUtf8Data plaintext = some text := by
          simp only [Except.toOption, Option.bind_some] at h
          cases hplaintext : ofUtf8Data plaintext with
          | none => simp [hplaintext] at h
          | some decoded => simpa [hplaintext] using h
        rw [opened_iff_authentic] at hopened
        obtain ⟨encryptionSalt, hmacSalt, iv, sent, hes, hhs, hivs, hmessage, hdata⟩ := hopened
        exact ⟨encryptionSalt, hmacSalt, iv, sent, plaintext, hes, hhs, hivs, hmessage, hdata,
          htext⟩
    . rintro ⟨encryptionSalt, hmacSalt, iv, sent, data, hes, hhs, hivs, hmessage, hdata, htext⟩
      have hread := (opened_iff_authentic C password encrypted data).mpr
        ⟨encryptionSalt, hmacSalt, iv, sent, hes, hhs, hivs, hmessage, hdata⟩
      rw [hopened] at hread
      cases hread
      simp [Except.toOption, htext]
  . intro hunread
    cases hread : result.toOption.bind ofUtf8Data with
    | none => rfl
    | some decoded =>
      refine absurd ⟨decoded, ?_⟩ hunread
      rw [hread]
      rfl

theorem decrypt_v3_iff_reference
    : let encrypted := passwordMessage .plain "hash" (List.replicate 8 0) (List.replicate 8 0)
        (List.replicate 16 1) "Hi".utf8Data
      let stored := String.ofList (Base64.encode encrypted)
      let P := Platform.reference.v3 .plain CommonCrypto.plain_neverFails
      stored.decrypt P "hash" = .ok (.ok "Hi")
        ∧ stored.decrypt P "other" = .ok (.error .invalidPassword) := by
  intro encrypted stored P
  have hbase64 : Base64.decode stored.toList = some encrypted := by
    rw [String.toList_ofList, Base64.decode_encode]
  constructor
  . apply (decrypt_v3_iff .reference CommonCrypto.plain_neverFails (by decide) hbase64 "Hi").2.1.mpr
    exact ⟨_, _, _, _, _, by decide, by decide, by decide, rfl, rfl,
      String.ofUtf8Data_utf8Data "Hi"⟩
  . have hother : decryptWithPassword .plain encrypted "other" = .ok (.error .hmacMismatch) := by
      decide +kernel
    apply (decrypt_v3_iff .reference CommonCrypto.plain_neverFails (by decide) hbase64 "").2.2
    rintro ⟨text, htext⟩
    rw [decrypt_v3_eq .reference CommonCrypto.plain_neverFails (by decide) hbase64 hother] at htext
    simp [Except.toOption] at htext

end String
