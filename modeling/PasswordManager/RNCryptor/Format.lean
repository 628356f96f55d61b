import PasswordManager.RNCryptor.Lemmas

/-!
This module contains what the cryptors compute as functions of the whole data: the messages of the
format, which of them a decryptor opens, and the error that each of the others is answered with.
-/

namespace RNCryptor

open FormatV3

namespace FormatV3

variable (C : CommonCrypto)

def message (encryptionKey hmacKey iv header data : Data) : Data :=
  let authenticated := header ++ C.encrypt encryptionKey iv data
  authenticated ++ C.hmac hmacKey authenticated

def passwordHeader (encryptionSalt hmacSalt iv : Data) : Data :=
  [formatVersion, 1] ++ encryptionSalt ++ hmacSalt ++ iv

def keyHeader (iv : Data) : Data :=
  [formatVersion, 0] ++ iv

def passwordMessage (password : String) (encryptionSalt hmacSalt iv data : Data) : Data :=
  message C (makeKey C password encryptionSalt) (makeKey C password hmacSalt) iv
    (passwordHeader encryptionSalt hmacSalt iv) data

def keyMessage (encryptionKey hmacKey iv data : Data) : Data :=
  message C encryptionKey hmacKey iv (keyHeader iv) data

def decrypted (encryptionKey iv sent : Data) : Except Trap (Except Error Data) :=
  match C.decrypt encryptionKey iv sent with
  | some data => .ok (.ok data)
  | none => .error .assertionFailure

def openBody (encryptionKey hmacKey iv header body : Data) : Except Trap (Except Error Data) :=
  let sent := body.take (body.length - hmacSize)
  if body.drop (body.length - hmacSize) = C.hmac hmacKey (header ++ sent) then
    decrypted C encryptionKey iv sent
  else
    .ok (.error .hmacMismatch)

theorem makeKey_length (password : String) (salt : Data)
    : (makeKey C password salt).length = keySize := by
  apply C.keyDerivation_length

end FormatV3

namespace Credential

variable (C : CommonCrypto)

def kind : Credential → UInt8
  | .password _ => 1
  | .keys _ _ => 0

def encryptionKey (header : Data) : Credential → Data
  | .password secret => makeKey C secret (slice header 2 10)
  | .keys encryptionKey _ => encryptionKey

def hmacKey (header : Data) : Credential → Data
  | .password secret => makeKey C secret (slice header 10 18)
  | .keys _ hmacKey => hmacKey

def iv (header : Data) : Credential → Data
  | .password _ => slice header 18 34
  | .keys _ _ => slice header 2 18

def Valid : Credential → Prop
  | .password secret => secret ≠ ""
  | .keys encryptionKey hmacKey => encryptionKey.length = keySize ∧ hmacKey.length = keySize

end Credential

namespace DecryptorV3

/--
The result of the decryption of a whole message.
-/
def opened (C : CommonCrypto) (credential : Credential) (message : Data)
    : Except Trap (Except Error Data) :=
  let required := requiredHeaderSize credential
  let header := message.take required
  if message.length < required then
    .ok (.error .messageTooShort)
  else if message.head? ≠ some formatVersion then
    .ok (.error .unknownHeader)
  else if message[1]? ≠ some credential.kind then
    .ok (.error .invalidCredentialType)
  else
    openBody C (credential.encryptionKey C header) (credential.hmacKey C header)
      (credential.iv header) header (message.drop required)

end DecryptorV3

def Decryptor.opened (C : CommonCrypto) (password : String) (message : Data)
    : Except Trap (Except Error Data) :=
  if message.head? ≠ some formatVersion then
    .ok (.error .unknownHeader)
  else
    DecryptorV3.opened C (.password password) message

namespace EncryptorV3

variable {C : CommonCrypto}

structure Fed (encryptor : EncryptorV3 C) (encryptionKey hmacKey iv header input output : Data)
    : Prop where
  engine : ∃ moved, encryptor.engine.Fed .encrypt encryptionKey iv input moved
    ∧ output ++ encryptor.pendingHeader.getD [] = header ++ moved
  hmac : encryptor.hmac.Fed hmacKey output

theorem new_of_lengths {encryptionKey hmacKey iv : Data} (hencryption : encryptionKey.length = keySize)
    (hhmac : hmacKey.length = keySize) (hiv : iv.length = ivSize) (header : Data)
    : ∃ encryptor, new C encryptionKey hmacKey iv header = .ok encryptor
        ∧ encryptor.Fed encryptionKey hmacKey iv header [] [] := by
  obtain ⟨engine, hengine, hfed⟩ := Engine.fed_new C .encrypt hencryption hiv
  have hnew : new C encryptionKey hmacKey iv header
      =
    .ok { engine, hmac := HMACV3.new C hmacKey, pendingHeader := some header } := by
    unfold new
    rw [Swift.precondition_of hencryption, Swift.precondition_of hhmac, Swift.precondition_of hiv,
      hengine]
    rfl
  refine ⟨_, hnew, ?_, ?_⟩
  . exact ⟨[], hfed, by simp⟩
  . apply HMACV3.fed_new

theorem handle_result (encryptor : EncryptorV3 C) (data : Data)
    : (encryptor.handle data).2 = encryptor.pendingHeader.getD [] ++ data := by
  unfold handle
  cases encryptor.pendingHeader with
  | none => rfl
  | some header => rfl

variable {encryptor : EncryptorV3 C} {encryptionKey hmacKey iv header input output : Data}

theorem update_fed (h : encryptor.Fed encryptionKey hmacKey iv header input output) (data : Data)
    : ∃ next out, encryptor.update data = .ok (next, out)
        ∧ next.Fed encryptionKey hmacKey iv header (input ++ data) (output ++ out) := by
  obtain ⟨moved, hengine, houtput⟩ := h.engine
  obtain ⟨engine, last, hupdate, hnext⟩ := Engine.fed_update hengine data
  have hcall : encryptor.update data = .ok (handle { encryptor with engine } last) := by
    unfold update
    rw [hupdate]
    rfl
  refine ⟨(handle { encryptor with engine } last).1, (handle { encryptor with engine } last).2,
    hcall, ?_, ?_⟩
  . refine ⟨moved ++ last, hnext, ?_⟩
    rw [handle_result, ← List.append_assoc output, houtput]
    simp [handle]
  . apply HMACV3.fed_update h.hmac

theorem finalData_of_fed (h : encryptor.Fed encryptionKey hmacKey iv header input output)
    : ∃ next out, encryptor.finalData = .ok (next, out)
        ∧ output ++ out = message C encryptionKey hmacKey iv header input := by
  obtain ⟨moved, hengine, houtput⟩ := h.engine
  have hfinal := Engine.fed_finalData hengine
  cases hlast : encryptor.engine.finalData with
  | error trap => simp [hlast, CommonCrypto.crypt, Except.map] at hfinal
  | ok last =>
    simp only [hlast, CommonCrypto.crypt, Except.map, Except.ok.injEq] at hfinal
    have hauthenticated : output ++ (encryptor.handle last).2
        =
      header ++ C.encrypt encryptionKey iv input := by
      rw [handle_result, ← List.append_assoc, houtput, List.append_assoc, hfinal]
    have hhmac : (encryptor.handle last).1.hmac.Fed hmacKey
        (output ++ (encryptor.handle last).2) := by
      apply HMACV3.fed_update h.hmac
    have hcode := HMACV3.finalData_of_fed hhmac
    unfold finalData message
    simp only [hlast, bind, Except.bind, pure, Except.pure]
    refine ⟨_, _, rfl, ?_⟩
    rw [hcode, ← List.append_assoc, hauthenticated]

theorem tracks (encryptionKey hmacKey iv header : Data)
    : (machine (C := C)).Tracks
        (fun encryptor => encryptor.Fed encryptionKey hmacKey iv header)
        (fun data => .ok (.ok (message C encryptionKey hmacKey iv header data))) where
  update := by
    intro encryptor input output piece h
    obtain ⟨next, out, hupdate, hnext⟩ := update_fed h piece
    refine ⟨next, .ok out, ?_, hnext⟩
    simp only [machine, hupdate, Except.map]
  finalData := by
    intro encryptor input output h
    obtain ⟨next, out, hfinal, hmessage⟩ := finalData_of_fed h
    simp only [machine, hfinal, Except.map, hmessage]

end EncryptorV3

namespace DecryptorEngineV3

variable {C : CommonCrypto}

structure Fed (decryptor : DecryptorEngineV3 C)
    (encryptionKey hmacKey iv header input output : Data) : Prop where
  capacity : decryptor.buffer.capacity = hmacSize
  sent : ∃ sent, decryptor.buffer.Holds input sent
    ∧ decryptor.engine.Fed .decrypt encryptionKey iv sent output
    ∧ decryptor.hmac.Fed hmacKey (header ++ sent)

theorem new_of_lengths {encryptionKey hmacKey iv : Data}
    (hencryption : encryptionKey.length = keySize) (hhmac : hmacKey.length = keySize)
    (hiv : iv.length = ivSize) (header : Data)
    : ∃ decryptor, new C encryptionKey hmacKey iv header = .ok decryptor
        ∧ decryptor.Fed encryptionKey hmacKey iv header [] [] := by
  have hhmac' : hmacKey.length = hmacSize := hhmac
  obtain ⟨engine, hengine, hfed⟩ := Engine.fed_new C .decrypt hencryption hiv
  have hnew : new C encryptionKey hmacKey iv header
      =
    .ok {
      buffer := { capacity := hmacSize }
      hmac := (HMACV3.new C hmacKey).update header
      engine
    } := by
    unfold new
    rw [Swift.precondition_of hencryption, Swift.precondition_of hhmac', Swift.precondition_of hiv,
      hengine]
    rfl
  refine ⟨_, hnew, rfl, [], OverflowingBuffer.holds_empty hmacSize, hfed, ?_⟩
  . rw [List.append_nil]
    apply HMACV3.fed_update (HMACV3.fed_new hmacKey)

variable {decryptor : DecryptorEngineV3 C}
  {encryptionKey hmacKey iv header input output : Data}

theorem update_fed (h : decryptor.Fed encryptionKey hmacKey iv header input output) (data : Data)
    : ∃ next out, decryptor.update data = .ok (next, out)
        ∧ next.Fed encryptionKey hmacKey iv header (input ++ data) (output ++ out) := by
  obtain ⟨sent, hholds, hengine, hhmac⟩ := h.sent
  obtain ⟨buffer, overflow, hupdate, hcapacity, hnext⟩ :=
    OverflowingBuffer.update_holds hholds data
  obtain ⟨engine, moved, hmoved, hfed⟩ := Engine.fed_update hengine overflow
  have hcall : decryptor.update data
      =
    .ok ({ buffer, hmac := decryptor.hmac.update overflow, engine }, moved) := by
    unfold update
    simp only [hupdate, hmoved, bind, Except.bind]
    rfl
  refine ⟨_, _, hcall, ?_, sent ++ overflow, hnext, hfed, ?_⟩
  . rw [hcapacity, h.capacity]
  . rw [← List.append_assoc]
    apply HMACV3.fed_update hhmac

theorem finalData_of_fed (h : decryptor.Fed encryptionKey hmacKey iv header input output)
    : decryptor.finalData.map (fun answer => answer.2.map (output ++ ·))
        =
      openBody C encryptionKey hmacKey iv header input := by
  obtain ⟨sent, hholds, hengine, hhmac⟩ := h.sent
  have hcode := HMACV3.finalData_of_fed hhmac
  have hlength := C.hmac_length hmacKey (header ++ sent)
  have hne : C.hmac hmacKey (header ++ sent) ≠ [] := by
    intro hnil
    rw [hnil] at hlength
    simp at hlength
  have hsent : sent = input.take (input.length - hmacSize) := by
    rw [hholds.output_eq, h.capacity]
  have hheld : decryptor.buffer.buffer = input.drop (input.length - hmacSize) := by
    rw [hholds.buffer_eq, h.capacity]
  unfold finalData openBody
  simp only [OverflowingBuffer.finalData]
  rw [hcode, isEqualInConsistentTime_eq hne, ← hsent, ← hheld]
  simp only [bind, Except.bind, pure, Except.pure, decide_eq_true_eq]
  split
  . have hfinal := Engine.fed_finalData hengine
    unfold CommonCrypto.crypt at hfinal
    unfold decrypted
    dsimp only at hfinal
    cases hlast : decryptor.engine.finalData with
    | error trap =>
      rw [hlast] at hfinal
      cases hdecrypt : C.decrypt encryptionKey iv sent with
      | none =>
        rw [hdecrypt] at hfinal
        simpa [Except.map] using hfinal
      | some data => simp [hdecrypt, Except.map] at hfinal
    | ok last =>
      rw [hlast] at hfinal
      cases hdecrypt : C.decrypt encryptionKey iv sent with
      | none => simp [hdecrypt, Except.map] at hfinal
      | some data =>
        rw [hdecrypt] at hfinal
        simpa [Except.map] using hfinal
  . rfl

end DecryptorEngineV3

end RNCryptor
