import PasswordManager.RNCryptor.Decryption

/-!
This module contains the results about the whole format: what encryption and decryption compute
however the data is cut, that one undoes the other, and which messages are opened at all.
-/

namespace RNCryptor

open FormatV3

theorem take_append_slice {data : Data} {lower upper : Nat} (h : lower ≤ upper)
    : data.take lower ++ slice data lower upper = data.take upper := by
  have htake : data.take lower = (data.take upper).take lower := by
    rw [List.take_take, Nat.min_eq_left h]
  unfold slice
  rw [htake, List.take_append_drop]

theorem slice_length (data : Data) (lower : Nat) {upper : Nat} (h : upper ≤ data.length)
    : (slice data lower upper).length = upper - lower := by
  simp only [slice, List.length_drop, List.length_take]
  omega

theorem slice_middle (front middle back : Data)
    : slice (front ++ middle ++ back) front.length (front ++ middle).length = middle := by
  unfold slice
  rw [List.take_left', List.drop_left']
  . rfl
  . rfl

/--
Nothing is lost between the bytes that have been sent on and the ones that are held back.
-/
theorem OverflowingBuffer.keeps_last_bytes (capacity : Nat) (pieces : List Data)
    : ∃ t, machine.feed { capacity } pieces
          =
        .ok (t, .ok (pieces.flatten.take (pieces.flatten.length - capacity)))
      ∧ t.buffer = pieces.flatten.drop (pieces.flatten.length - capacity) := by
  have htracks : machine.Tracks
      (fun buffer input output => buffer.capacity = capacity ∧ buffer.Holds input output)
      (fun data => .ok (.ok data)) := by
    constructor
    . intro buffer input output piece h
      obtain ⟨t, out, hupdate, hcapacity, hnext⟩ := update_holds h.right piece
      refine ⟨t, .ok out, ?_, ?_, hnext⟩
      . simp only [machine, hupdate, Except.map]
      . rw [hcapacity, h.left]
    . intro buffer input output h
      simp only [machine, Except.map, finalData]
      rw [h.right.split]
  obtain ⟨t, result, hfeed, ht⟩ := htracks.feed ⟨rfl, holds_empty capacity⟩ pieces
  cases result with
  | error err => cases ht
  | ok out =>
    obtain ⟨hcapacity, hholds⟩ := ht
    simp only [List.nil_append] at hholds
    refine ⟨t, ?_, ?_⟩
    . rw [hfeed, hholds.output_eq, hcapacity]
    . rw [hholds.buffer_eq, hcapacity]

namespace EncryptorV3

variable (C : CommonCrypto)

def encryptPieces (encryptor : Except Trap (EncryptorV3 C)) (pieces : List Data)
    : Except Trap (Except Error Data) := do
  machine.process (← encryptor) pieces

theorem encryption_of_pieces (password : String) {encryptionSalt hmacSalt iv : Data}
    (hiv : iv.length = ivSize) (pieces : List Data)
    : encryptPieces C (withPassword C password encryptionSalt hmacSalt iv) pieces
        =
      .ok (.ok (passwordMessage C password encryptionSalt hmacSalt iv pieces.flatten)) := by
  obtain ⟨encryptor, hnew, hfed⟩ := new_of_lengths (makeKey_length C password encryptionSalt)
    (makeKey_length C password hmacSalt) hiv (passwordHeader encryptionSalt hmacSalt iv)
  have hcreated : withPassword C password encryptionSalt hmacSalt iv = .ok encryptor := hnew
  have hcomputes := (tracks (C := C) _ _ _ _).computes hfed
  unfold encryptPieces
  rw [hcreated]
  exact hcomputes pieces

theorem key_encryption_of_pieces {encryptionKey hmacKey iv : Data}
    (hencryption : encryptionKey.length = keySize) (hhmac : hmacKey.length = keySize)
    (hiv : iv.length = ivSize) (pieces : List Data)
    : encryptPieces C (withKeys C encryptionKey hmacKey iv) pieces
        =
      .ok (.ok (keyMessage C encryptionKey hmacKey iv pieces.flatten)) := by
  obtain ⟨encryptor, hnew, hfed⟩ := new_of_lengths (C := C) hencryption hhmac hiv (keyHeader iv)
  have hcreated : withKeys C encryptionKey hmacKey iv = .ok encryptor := hnew
  have hcomputes := (tracks (C := C) _ _ _ _).computes hfed
  unfold encryptPieces
  rw [hcreated]
  exact hcomputes pieces

end EncryptorV3

namespace DecryptorV3

variable (C : CommonCrypto)

def decryptPieces (decryptor : Except Trap (DecryptorV3 C)) (pieces : List Data)
    : Except Trap (Except Error Data) := do
  machine.process (← decryptor) pieces

theorem key_decryption_of_pieces {encryptionKey hmacKey : Data}
    (hencryption : encryptionKey.length = keySize) (hhmac : hmacKey.length = keySize)
    (pieces : List Data)
    : decryptPieces C (withKeys C encryptionKey hmacKey) pieces
        =
      opened C (.keys encryptionKey hmacKey) pieces.flatten := by
  have hhmac' : hmacKey.length = hmacSize := hhmac
  have hnew : withKeys C encryptionKey hmacKey
      =
    .ok { credential := .keys encryptionKey hmacKey } := by
    unfold withKeys
    rw [Swift.precondition_of hencryption, Swift.precondition_of hhmac']
    rfl
  have hvalid : (Credential.keys encryptionKey hmacKey).Valid := ⟨hencryption, hhmac⟩
  have hcomputes := (tracks (C := C) hvalid).computes (fed_new C (.keys encryptionKey hmacKey))
  unfold decryptPieces
  rw [hnew]
  exact hcomputes pieces

end DecryptorV3

namespace Decryptor

variable (C : CommonCrypto)

def decryptPieces (password : String) (pieces : List Data) : Except Trap (Except Error Data) := do
  machine.process (← new C password) pieces

theorem decryption_of_pieces {password : String} (hpassword : password ≠ "") (pieces : List Data)
    : decryptPieces C password pieces = opened C password pieces.flatten := by
  obtain ⟨decryptor, hnew, hfed⟩ := new_fed (C := C) hpassword
  have hcomputes := (tracks (C := C) hpassword).computes hfed
  unfold decryptPieces
  rw [hnew]
  exact hcomputes pieces

/--
What comes of a decryption, whatever pieces the message came in: the first byte is looked at first,
then the length, then the second byte, then the code, and the cipher at the end.
-/
theorem decryption_result {password : String} (hpassword : password ≠ "") (pieces : List Data)
    : let message := pieces.flatten
      let header := message.take passwordHeaderSize
      let authenticated := message.take (max passwordHeaderSize (message.length - hmacSize))
      let code := message.drop (max passwordHeaderSize (message.length - hmacSize))
      let sent := authenticated.drop passwordHeaderSize
      decryptPieces C password pieces
        =
      if message.head? ≠ some formatVersion then
        .ok (.error .unknownHeader)
      else if message.length < passwordHeaderSize then
        .ok (.error .messageTooShort)
      else if message[1]? ≠ some 1 then
        .ok (.error .invalidCredentialType)
      else if code ≠ C.hmac (makeKey C password (slice header 10 18)) authenticated then
        .ok (.error .hmacMismatch)
      else
        match C.decrypt (makeKey C password (slice header 2 10)) (slice header 18 34) sent with
        | some data => .ok (.ok data)
        | none => .error .assertionFailure := by
  intro message header authenticated code sent
  have hcut : passwordHeaderSize + (message.length - passwordHeaderSize - hmacSize)
      =
    max passwordHeaderSize (message.length - hmacSize) := by
    omega
  have hauthenticated : header ++ (message.drop passwordHeaderSize).take
        (message.length - passwordHeaderSize - hmacSize)
      =
    authenticated := by
    rw [← List.take_add, hcut]
  have hsent : (message.drop passwordHeaderSize).take
        (message.length - passwordHeaderSize - hmacSize)
      =
    sent := by
    rw [List.take_drop, hcut]
  have hcode : (message.drop passwordHeaderSize).drop
        (message.length - passwordHeaderSize - hmacSize)
      =
    code := by
    rw [List.drop_drop, hcut]
  have hrequired : DecryptorV3.requiredHeaderSize (.password password) = passwordHeaderSize := rfl
  have hkind : (Credential.password password).kind = 1 := rfl
  rw [decryption_of_pieces C hpassword]
  change opened C password message = _
  unfold opened DecryptorV3.opened openBody
  simp only [hrequired, hkind, Credential.encryptionKey, Credential.hmacKey, Credential.iv,
    List.length_drop]
  rw [hauthenticated, hcode, hsent]
  split
  . rfl
  . split
    . rfl
    . split
      . rfl
      . rw [ite_not]
        rfl

theorem decryption_result_reference
    : let message := passwordMessage .plain "hash" (List.replicate 8 0) (List.replicate 8 0)
        (List.replicate 16 1) [72, 105]
      let pieces := [message.take 20, [], message.drop 20]
      decryptPieces .plain "hash" pieces = .ok (.ok [72, 105])
        ∧ decryptPieces .plain "other" pieces = .ok (.error .hmacMismatch)
        ∧ decryptPieces .plain "hash" [[3], [], [1, 0]] = .ok (.error .messageTooShort) := by
  intro message pieces
  rw [decryption_result .plain (by decide) pieces, decryption_result .plain (by decide) pieces,
    decryption_result .plain (by decide) [[3], [], [1, 0]]]
  decide +kernel

/--
A decryptor that has thrown while it was fed throws at every later call.
-/
theorem silent_after_throw {password : String} (hpassword : password ≠ "")
    {decryptor rejecting : Decryptor C} {pieces : List Data} {err : Error}
    (hnew : new C password = .ok decryptor)
    (hfeed : machine.feed decryptor pieces = .ok (rejecting, .error err))
    (calls : List (Streaming.Machine.Call UInt8))
    : ∃ results, machine.session rejecting calls = .ok results
        ∧ ∀ result ∈ results, ∃ err, result = .error err := by
  have hrejecting : rejecting.Rejecting := by
    apply Streaming.Machine.feed_error
      (I := fun decryptor => ∃ input output, decryptor.Fed password input output) (J := Rejecting)
      _ _ hfeed
    . intro s piece t result hs hcall
      obtain ⟨input, output, hfed⟩ := hs
      obtain ⟨next, answer, hupdate, hnext⟩ := update_cases hpassword hfed piece
      simp only [machine] at hcall
      rw [hupdate] at hcall
      cases hcall
      cases result with
      | error err => exact hnext.left
      | ok out => exact ⟨_, _, hnext⟩
    . obtain ⟨started, hstarted, hfed⟩ := new_fed (C := C) hpassword
      rw [hnew] at hstarted
      cases hstarted
      exact ⟨[], [], hfed⟩
  apply Streaming.Machine.session_of_refuses (I := Rejecting)
  . intro s call hs
    exact rejecting_refuses hs call
  . exact hrejecting

theorem silent_after_throw_wrong_version
    : ∃ results, machine.session
          ({ decryptors := [], buffer := [2], password := "hash" } : Decryptor .plain)
          [.update [3], .finalData]
        = .ok results
      ∧ ∀ result ∈ results, ∃ err, result = .error err := by
  have hnew : new .plain "hash" = .ok { password := "hash" } := rfl
  have hfeed : machine.feed ({ password := "hash" } : Decryptor .plain) [[2]]
      =
    .ok ({ decryptors := [], buffer := [2], password := "hash" }, .error .unknownHeader) := rfl
  exact silent_after_throw .plain (by decide) hnew hfeed _

end Decryptor

variable {C : CommonCrypto}

theorem openBody_append {encryptionKey hmacKey iv header sent code : Data}
    (hcode : code.length = hmacSize)
    : openBody C encryptionKey hmacKey iv header (sent ++ code)
        =
      if code = C.hmac hmacKey (header ++ sent) then
        decrypted C encryptionKey iv sent
      else
        .ok (.error .hmacMismatch) := by
  have hcut : (sent ++ code).length - hmacSize = sent.length := by
    rw [List.length_append]
    omega
  unfold openBody
  rw [hcut, List.take_left, List.drop_left]

theorem decrypted_ok_iff {encryptionKey iv sent data : Data}
    : decrypted C encryptionKey iv sent = .ok (.ok data)
        ↔
      C.decrypt encryptionKey iv sent = some data := by
  unfold decrypted
  cases C.decrypt encryptionKey iv sent with
  | none => simp
  | some plaintext => simp

theorem openBody_ok_iff {encryptionKey hmacKey iv header body data : Data}
    : openBody C encryptionKey hmacKey iv header body = .ok (.ok data)
        ↔
      ∃ sent, body = sent ++ C.hmac hmacKey (header ++ sent)
        ∧ C.decrypt encryptionKey iv sent = some data := by
  constructor
  . intro h
    unfold openBody at h
    dsimp only at h
    split at h
    . next hcode =>
      refine ⟨body.take (body.length - hmacSize), ?_, ?_⟩
      . rw [← hcode, List.take_append_drop]
      . exact decrypted_ok_iff.mp h
    . cases h
  . rintro ⟨sent, rfl, hdata⟩
    rw [openBody_append (C.hmac_length _ _), if_pos rfl]
    exact decrypted_ok_iff.mpr hdata

theorem openBody_message {encryptionKey iv : Data} (hmacKey header data : Data)
    (hencryption : encryptionKey.length = keySize) (hiv : iv.length = ivSize)
    : openBody C encryptionKey hmacKey iv header
        ((message C encryptionKey hmacKey iv header data).drop header.length)
        =
      .ok (.ok data) := by
  unfold message
  dsimp only
  rw [List.append_assoc, List.drop_left, openBody_append (C.hmac_length _ _), if_pos rfl]
  exact decrypted_ok_iff.mpr (C.decrypt_encrypt encryptionKey iv data hencryption hiv)

structure HeaderParts (header encryptionSalt hmacSalt iv : Data) : Prop where
  length : header.length = passwordHeaderSize
  head : header.head? = some formatVersion
  second : header[1]? = some 1
  encryptionSalt : slice header 2 10 = encryptionSalt
  hmacSalt : slice header 10 18 = hmacSalt
  iv : slice header 18 34 = iv

theorem passwordHeader_parts {encryptionSalt hmacSalt iv : Data}
    (hencryption : encryptionSalt.length = saltSize) (hhmac : hmacSalt.length = saltSize)
    (hiv : iv.length = ivSize)
    : HeaderParts (passwordHeader encryptionSalt hmacSalt iv) encryptionSalt hmacSalt iv := by
  simp only [saltSize, ivSize] at hencryption hhmac hiv
  constructor
  . simp [passwordHeader, passwordHeaderSize, hencryption, hhmac, hiv]
  . rfl
  . rfl
  . have hparts := slice_middle [formatVersion, 1] encryptionSalt (hmacSalt ++ iv)
    simp only [List.length_append, List.length_cons, List.length_nil, hencryption] at hparts
    simpa [passwordHeader] using hparts
  . have hparts := slice_middle ([formatVersion, 1] ++ encryptionSalt) hmacSalt iv
    simp only [List.length_append, List.length_cons, List.length_nil, hencryption, hhmac] at hparts
    simpa [passwordHeader] using hparts
  . have hparts := slice_middle ([formatVersion, 1] ++ encryptionSalt ++ hmacSalt) iv []
    simp only [List.length_append, List.length_cons, List.length_nil, hencryption, hhmac, hiv]
      at hparts
    simpa [passwordHeader] using hparts

theorem passwordHeader_of_bytes {message : Data} (hlength : passwordHeaderSize ≤ message.length)
    (hversion : message.head? = some formatVersion) (hkind : message[1]? = some 1)
    : let header := message.take passwordHeaderSize
      header = passwordHeader (slice header 2 10) (slice header 10 18) (slice header 18 34)
    := by
  intro header
  have hheader : header.length = 34 := by
    rw [List.length_take]
    exact Nat.min_eq_left hlength
  have htwo : header.take 2 = [formatVersion, 1] := by
    cases message with
    | nil => cases hversion
    | cons version rest =>
      cases rest with
      | nil => cases hkind
      | cons kind rest =>
        simp only [List.head?_cons, Option.some.injEq] at hversion
        simp only [List.getElem?_cons_succ, List.getElem?_cons_zero, Option.some.injEq] at hkind
        subst hversion
        subst hkind
        rfl
  unfold passwordHeader
  rw [← htwo, take_append_slice (by omega), take_append_slice (by omega),
    take_append_slice (by omega)]
  rw [List.take_of_length_le (by omega)]

theorem opened_password {password : String} {header rest encryptionSalt hmacSalt iv : Data}
    (h : HeaderParts header encryptionSalt hmacSalt iv)
    : Decryptor.opened C password (header ++ rest)
        =
      openBody C (makeKey C password encryptionSalt) (makeKey C password hmacSalt) iv header rest
    := by
  have hhead : (header ++ rest).head? = some formatVersion := by
    rw [List.head?_append, h.head]
    rfl
  have hrequired : DecryptorV3.requiredHeaderSize (.password password) ≤ header.length := by
    rw [h.length]
    rfl
  have hopened := DecryptorV3.opened_append (C := C) hrequired rest
  have htake : header.take (DecryptorV3.requiredHeaderSize (.password password)) = header := by
    rw [List.take_of_length_le (by rw [h.length]; rfl)]
  have hdrop : header.drop (DecryptorV3.requiredHeaderSize (.password password)) = [] := by
    rw [List.drop_of_length_le (by rw [h.length]; rfl)]
  unfold Decryptor.opened
  rw [if_neg (by simp [hhead]), hopened, if_neg (by simp [h.head]),
    if_neg (by simp [h.second, Credential.kind]), htake, hdrop]
  simp only [Credential.encryptionKey, Credential.hmacKey, Credential.iv, h.encryptionSalt,
    h.hmacSalt, h.iv, List.nil_append]

theorem opened_iff_authentic (C : CommonCrypto) (password : String) (message data : Data)
    : Decryptor.opened C password message = .ok (.ok data)
        ↔
      ∃ encryptionSalt hmacSalt iv sent : Data,
        encryptionSalt.length = saltSize ∧ hmacSalt.length = saltSize ∧ iv.length = ivSize
          ∧ (let authenticated := passwordHeader encryptionSalt hmacSalt iv ++ sent
            message = authenticated ++ C.hmac (makeKey C password hmacSalt) authenticated)
          ∧ C.decrypt (makeKey C password encryptionSalt) iv sent = some data := by
  constructor
  . intro h
    have hversion : message.head? = some formatVersion := by
      by_contra hne
      rw [Decryptor.opened, if_pos hne] at h
      cases h
    have hlength : passwordHeaderSize ≤ message.length := by
      by_contra hshort
      have hshort : message.length < DecryptorV3.requiredHeaderSize (.password password) :=
        Nat.lt_of_not_le hshort
      rw [Decryptor.opened, if_neg (by simp [hversion]), DecryptorV3.opened] at h
      rw [if_pos hshort] at h
      cases h
    have hkind : message[1]? = some 1 := by
      by_contra hne
      have hrequired : DecryptorV3.requiredHeaderSize (.password password) ≤ message.length :=
        hlength
      have hopened := DecryptorV3.opened_append (C := C) hrequired []
      rw [List.append_nil, if_neg (by simp [hversion]), if_pos (by simpa [Credential.kind] using hne)]
        at hopened
      rw [Decryptor.opened, if_neg (by simp [hversion]), hopened] at h
      cases h
    have hheader := passwordHeader_of_bytes hlength hversion hkind
    have hsize : (message.take passwordHeaderSize).length = 34 := by
      rw [List.length_take]
      exact Nat.min_eq_left hlength
    dsimp only at hheader
    have hes : (slice (message.take passwordHeaderSize) 2 10).length = 8 :=
      slice_length _ 2 (by omega)
    have hhs : (slice (message.take passwordHeaderSize) 10 18).length = 8 :=
      slice_length _ 10 (by omega)
    have hivs : (slice (message.take passwordHeaderSize) 18 34).length = 16 :=
      slice_length _ 18 (by omega)
    rw [← List.take_append_drop passwordHeaderSize message, hheader,
      opened_password (passwordHeader_parts hes hhs hivs), openBody_ok_iff] at h
    obtain ⟨sent, hbody, hdata⟩ := h
    refine ⟨_, _, _, sent, hes, hhs, hivs, ?_, hdata⟩
    dsimp only
    rw [List.append_assoc, ← hbody, ← hheader, List.take_append_drop]
  . rintro ⟨encryptionSalt, hmacSalt, iv, sent, hes, hhs, hivs, hmessage, hdata⟩
    dsimp only at hmessage
    rw [hmessage, List.append_assoc, opened_password (passwordHeader_parts hes hhs hivs),
      openBody_ok_iff]
    exact ⟨sent, rfl, hdata⟩

theorem opened_passwordMessage (C : CommonCrypto) (password : String)
    {encryptionSalt hmacSalt iv : Data} (hencryption : encryptionSalt.length = saltSize)
    (hhmac : hmacSalt.length = saltSize) (hiv : iv.length = ivSize) (data : Data)
    : Decryptor.opened C password (passwordMessage C password encryptionSalt hmacSalt iv data)
        =
      .ok (.ok data) := by
  have hparts := passwordHeader_parts hencryption hhmac hiv
  have hmessage : passwordMessage C password encryptionSalt hmacSalt iv data
      =
    passwordHeader encryptionSalt hmacSalt iv
      ++ (passwordMessage C password encryptionSalt hmacSalt iv data).drop
        (passwordHeader encryptionSalt hmacSalt iv).length := by
    conv_lhs => rw [passwordMessage, message]
    rw [passwordMessage, message]
    rw [List.append_assoc, List.drop_left]
  rw [hmessage, opened_password hparts]
  exact openBody_message (makeKey C password hmacSalt) _ data
    (makeKey_length C password encryptionSalt) hiv

theorem opened_keyMessage (C : CommonCrypto) {encryptionKey hmacKey iv : Data}
    (hencryption : encryptionKey.length = keySize) (hiv : iv.length = ivSize) (data : Data)
    : DecryptorV3.opened C (.keys encryptionKey hmacKey)
        (keyMessage C encryptionKey hmacKey iv data)
        =
      .ok (.ok data) := by
  have hlength : (keyHeader iv).length = keyHeaderSize := by
    simp only [ivSize] at hiv
    simp [keyHeader, keyHeaderSize, hiv]
  have hrequired : DecryptorV3.requiredHeaderSize (.keys encryptionKey hmacKey)
      =
    (keyHeader iv).length := by
    rw [hlength]
    rfl
  have hivs : slice (keyHeader iv) 2 18 = iv := by
    simp only [ivSize] at hiv
    have hparts := slice_middle [formatVersion, 0] iv []
    simp only [List.length_append, List.length_cons, List.length_nil, hiv] at hparts
    simpa [keyHeader] using hparts
  have hmessage : keyMessage C encryptionKey hmacKey iv data
      =
    keyHeader iv ++ (keyMessage C encryptionKey hmacKey iv data).drop (keyHeader iv).length := by
    conv_lhs => rw [keyMessage, message]
    rw [keyMessage, message]
    rw [List.append_assoc, List.drop_left]
  rw [hmessage, DecryptorV3.opened_append (by rw [hrequired]), if_neg (by simp [keyHeader]),
    if_neg (by simp [keyHeader, Credential.kind]), hrequired, List.take_length, List.drop_length]
  simp only [Credential.encryptionKey, Credential.hmacKey, Credential.iv, hivs, List.nil_append]
  exact openBody_message hmacKey _ data hencryption hiv

/--
Whatever has been encrypted, in whatever pieces, comes back from the message in whatever pieces.
-/
theorem decryption_of_encryption (C : CommonCrypto) {password : String} (hpassword : password ≠ "")
    {encryptionSalt hmacSalt iv : Data} (hencryption : encryptionSalt.length = saltSize)
    (hhmac : hmacSalt.length = saltSize) (hiv : iv.length = ivSize) {pieces cuts : List Data}
    (hcuts : EncryptorV3.encryptPieces C
        (EncryptorV3.withPassword C password encryptionSalt hmacSalt iv) pieces
      = .ok (.ok cuts.flatten))
    : Decryptor.decryptPieces C password cuts = .ok (.ok pieces.flatten) := by
  rw [EncryptorV3.encryption_of_pieces C password hiv] at hcuts
  injection hcuts with hcuts
  injection hcuts with hcuts
  rw [Decryptor.decryption_of_pieces C hpassword, ← hcuts,
    opened_passwordMessage C password hencryption hhmac hiv]

theorem decryption_of_encryption_plain
    : Decryptor.decryptPieces .plain "hash"
        [passwordMessage .plain "hash" (List.replicate 8 0) (List.replicate 8 0)
          (List.replicate 16 1) [72, 105]]
        =
      .ok (.ok [72, 105]) := by
  have hcuts : EncryptorV3.encryptPieces .plain
        (EncryptorV3.withPassword .plain "hash" (List.replicate 8 0) (List.replicate 8 0)
          (List.replicate 16 1)) [[72], [105]]
      =
    .ok (.ok [passwordMessage .plain "hash" (List.replicate 8 0) (List.replicate 8 0)
      (List.replicate 16 1) [72, 105]].flatten) := by
    decide +kernel
  exact decryption_of_encryption .plain (by decide) (by decide) (by decide) (by decide) hcuts

theorem key_decryption_of_encryption (C : CommonCrypto) {encryptionKey hmacKey iv : Data}
    (hencryption : encryptionKey.length = keySize) (hhmac : hmacKey.length = keySize)
    (hiv : iv.length = ivSize) {pieces cuts : List Data}
    (hcuts : EncryptorV3.encryptPieces C (EncryptorV3.withKeys C encryptionKey hmacKey iv) pieces
      = .ok (.ok cuts.flatten))
    : DecryptorV3.decryptPieces C (DecryptorV3.withKeys C encryptionKey hmacKey) cuts
        =
      .ok (.ok pieces.flatten) := by
  rw [EncryptorV3.key_encryption_of_pieces C hencryption hhmac hiv] at hcuts
  injection hcuts with hcuts
  injection hcuts with hcuts
  rw [DecryptorV3.key_decryption_of_pieces C hencryption hhmac, ← hcuts,
    opened_keyMessage C hencryption hiv]

theorem key_decryption_of_encryption_plain
    : let key : Data := List.replicate 32 5
      DecryptorV3.decryptPieces .plain (DecryptorV3.withKeys .plain key key)
          [keyMessage .plain key key (List.replicate 16 1) [72, 105]]
        =
      .ok (.ok [72, 105]) := by
  intro key
  have hcuts : EncryptorV3.encryptPieces .plain
        (EncryptorV3.withKeys .plain key key (List.replicate 16 1)) [[72], [105]]
      =
    .ok (.ok [keyMessage .plain key key (List.replicate 16 1) [72, 105]].flatten) := by
    decide +kernel
  exact key_decryption_of_encryption .plain (by decide) (by decide) (by decide) hcuts

theorem passwordMessage_eq (C : CommonCrypto) (password : String)
    (encryptionSalt hmacSalt iv data : Data)
    : let authenticated := passwordHeader encryptionSalt hmacSalt iv
        ++ C.encrypt (makeKey C password encryptionSalt) iv data
      passwordMessage C password encryptionSalt hmacSalt iv data
        =
      authenticated ++ C.hmac (makeKey C password hmacSalt) authenticated := by
  rfl

/--
A message that was made with another password is opened exactly if the two passwords lead to the
same code.
-/
theorem other_password_opens_iff (C : CommonCrypto) (password : String) {other : String}
    (hother : other ≠ "") {encryptionSalt hmacSalt iv : Data}
    (hencryption : encryptionSalt.length = saltSize) (hhmac : hmacSalt.length = saltSize)
    (hiv : iv.length = ivSize) {pieces cuts : List Data}
    (hcuts : EncryptorV3.encryptPieces C
        (EncryptorV3.withPassword C password encryptionSalt hmacSalt iv) pieces
      = .ok (.ok cuts.flatten))
    : let sent := C.encrypt (makeKey C password encryptionSalt) iv pieces.flatten
      let authenticated := passwordHeader encryptionSalt hmacSalt iv ++ sent
      Decryptor.decryptPieces C other cuts
        =
      if C.hmac (makeKey C password hmacSalt) authenticated
          = C.hmac (makeKey C other hmacSalt) authenticated then
        match C.decrypt (makeKey C other encryptionSalt) iv sent with
        | some data => .ok (.ok data)
        | none => .error .assertionFailure
      else
        .ok (.error .hmacMismatch) := by
  have hparts := passwordHeader_parts hencryption hhmac hiv
  intro sent authenticated
  rw [EncryptorV3.encryption_of_pieces C password hiv] at hcuts
  injection hcuts with hcuts
  injection hcuts with hcuts
  rw [Decryptor.decryption_of_pieces C hother, ← hcuts, passwordMessage_eq, List.append_assoc,
    opened_password hparts, openBody_append (C.hmac_length _ _)]
  rfl

theorem other_password_opens_iff_plain
    : Decryptor.decryptPieces .plain "other"
        [passwordMessage .plain "hash" (List.replicate 8 0) (List.replicate 8 0)
          (List.replicate 16 1) [72, 105]]
        =
      .ok (.error .hmacMismatch) := by
  have hcuts : EncryptorV3.encryptPieces .plain
        (EncryptorV3.withPassword .plain "hash" (List.replicate 8 0) (List.replicate 8 0)
          (List.replicate 16 1)) [[72], [105]]
      =
    .ok (.ok [passwordMessage .plain "hash" (List.replicate 8 0) (List.replicate 8 0)
      (List.replicate 16 1) [72, 105]].flatten) := by
    decide +kernel
  rw [other_password_opens_iff .plain "hash" (by decide) (by decide) (by decide) (by decide) hcuts]
  decide +kernel

end RNCryptor
