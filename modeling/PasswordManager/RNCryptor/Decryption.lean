import PasswordManager.RNCryptor.Format

/-!
This module contains the decryption of a message that arrives in pieces: its result is a function of
the message, and a decryptor that has thrown while it was fed gives nothing out any more.
-/

namespace RNCryptor

open FormatV3

namespace DecryptorV3

variable {C : CommonCrypto} {credential : Credential}

theorem requiredHeaderSize_pos (credential : Credential) : 2 ≤ requiredHeaderSize credential := by
  cases credential with
  | password secret => simp [requiredHeaderSize, passwordHeaderSize]
  | keys encryptionKey hmacKey => simp [requiredHeaderSize, keyHeaderSize]

theorem canDecrypt_of_head {header : Data} (hne : header ≠ [])
    : canDecrypt header = .ok (header.head? == some formatVersion) := by
  cases header with
  | nil => contradiction
  | cons version rest => simp [canDecrypt, formatVersion]

theorem makeEngine_cases (hcredential : credential.Valid) {header : Data}
    (hlength : header.length = requiredHeaderSize credential)
    : (header.head? ≠ some formatVersion ∧
        makeEngine C credential header = .ok (.error .unknownHeader))
      ∨ (header.head? = some formatVersion ∧ header[1]? ≠ some credential.kind ∧
        makeEngine C credential header = .ok (.error .invalidCredentialType))
      ∨ (header.head? = some formatVersion ∧ header[1]? = some credential.kind ∧
        ∃ e : DecryptorEngineV3 C, makeEngine C credential header = .ok (.ok e) ∧
          e.Fed (credential.encryptionKey C header) (credential.hmacKey C header)
            (credential.iv header) header [] []) := by
  have hne : header ≠ [] := by
    intro hnil
    have hpos := requiredHeaderSize_pos credential
    rw [hnil, List.length_nil] at hlength
    omega
  have hcan := canDecrypt_of_head hne
  cases credential with
  | password secret =>
    have hsecret : secret ≠ "" := hcredential
    have hlength : header.length = passwordHeaderSize := hlength
    simp only [makeEngine]
    rw [Swift.assert_of hsecret, Swift.precondition_of hlength, hcan]
    simp only [bind, Except.bind, pure, Except.pure, Credential.kind]
    by_cases hversion : header.head? = some formatVersion
    . by_cases hkind : header[1]? = some 1
      . have hiv : (slice header 18 34).length = ivSize := by
          simp only [slice, List.length_drop, List.length_take, hlength]
          decide
        obtain ⟨e, hnew, hfed⟩ := DecryptorEngineV3.new_of_lengths
          (makeKey_length C secret (slice header 2 10))
          (makeKey_length C secret (slice header 10 18)) hiv header
        refine .inr (.inr ⟨hversion, hkind, e, ?_, hfed⟩)
        simp only [passwordHeaderSize] at hlength
        rw [subdata_of (by omega) (by omega), subdata_of (by omega) (by omega),
          subdata_of (by omega) (by omega)]
        simp only [hversion, hkind, hnew]
        rfl
      . refine .inr (.inl ⟨hversion, hkind, ?_⟩)
        simp [hversion, hkind]
    . refine .inl ⟨hversion, ?_⟩
      simp [hversion]
  | keys encryptionKey hmacKey =>
    have hlength : header.length = keyHeaderSize := hlength
    simp only [makeEngine]
    rw [Swift.precondition_of hlength, Swift.precondition_of hcredential.left,
      Swift.precondition_of hcredential.right, hcan]
    simp only [bind, Except.bind, pure, Except.pure, Credential.kind]
    by_cases hversion : header.head? = some formatVersion
    . by_cases hkind : header[1]? = some 0
      . have hiv : (slice header 2 18).length = ivSize := by
          simp only [slice, List.length_drop, List.length_take, hlength]
          decide
        obtain ⟨e, hnew, hfed⟩ := DecryptorEngineV3.new_of_lengths
          hcredential.left hcredential.right hiv header
        refine .inr (.inr ⟨hversion, hkind, e, ?_, hfed⟩)
        simp only [keyHeaderSize] at hlength
        rw [subdata_of (by omega) (by omega)]
        simp only [hversion, hkind, hnew]
        rfl
      . refine .inr (.inl ⟨hversion, hkind, ?_⟩)
        simp [hversion, hkind]
    . refine .inl ⟨hversion, ?_⟩
      simp [hversion]

theorem first_two_append {input : Data} (hinput : requiredHeaderSize credential ≤ input.length)
    (rest : Data) : (input ++ rest).head? = input.head? ∧ (input ++ rest)[1]? = input[1]? := by
  have hpos := requiredHeaderSize_pos credential
  constructor
  . rw [List.head?_append_of_ne_nil]
    intro hnil
    rw [hnil, List.length_nil] at hinput
    omega
  . rw [List.getElem?_append_left]
    omega

theorem makeEngine_of_buffer (hcredential : credential.Valid) {buffer : Data}
    (hlength : requiredHeaderSize credential ≤ buffer.length)
    : let header := buffer.take (requiredHeaderSize credential)
      (buffer.head? ≠ some formatVersion ∧
          makeEngine C credential header = .ok (.error .unknownHeader))
        ∨ (buffer.head? = some formatVersion ∧ buffer[1]? ≠ some credential.kind ∧
          makeEngine C credential header = .ok (.error .invalidCredentialType))
        ∨ (buffer.head? = some formatVersion ∧ buffer[1]? = some credential.kind ∧
          ∃ e : DecryptorEngineV3 C, makeEngine C credential header = .ok (.ok e) ∧
            e.Fed (credential.encryptionKey C header) (credential.hmacKey C header)
              (credential.iv header) header [] []) := by
  intro header
  have hfull : header.length = requiredHeaderSize credential := List.length_take_of_le hlength
  have hcases := makeEngine_cases (C := C) hcredential hfull
  have hfirst := first_two_append (Nat.le_of_eq hfull.symm)
    (buffer.drop (requiredHeaderSize credential))
  rw [List.take_append_drop] at hfirst
  rw [hfirst.left, hfirst.right]
  exact hcases

theorem subdata_header {buffer : Data} (hlength : requiredHeaderSize credential ≤ buffer.length)
    : subdata buffer 0 (requiredHeaderSize credential)
        =
      .ok (buffer.take (requiredHeaderSize credential)) := by
  rw [subdata_of (Nat.zero_le _) hlength]
  rfl

theorem opened_append {input : Data} (hinput : requiredHeaderSize credential ≤ input.length)
    (rest : Data)
    : opened C credential (input ++ rest)
        =
      if input.head? ≠ some formatVersion then
        .ok (.error .unknownHeader)
      else if input[1]? ≠ some credential.kind then
        .ok (.error .invalidCredentialType)
      else
        let header := input.take (requiredHeaderSize credential)
        openBody C (credential.encryptionKey C header) (credential.hmacKey C header)
          (credential.iv header) header (input.drop (requiredHeaderSize credential) ++ rest) := by
  have hlength : ¬ (input ++ rest).length < requiredHeaderSize credential := by
    rw [List.length_append]
    omega
  obtain ⟨hhead, hsecond⟩ := first_two_append hinput rest
  unfold opened
  dsimp only
  rw [if_neg hlength, hhead, hsecond, List.take_append_of_le_length hinput,
    List.drop_append_of_le_length hinput]

def Fed (decryptor : DecryptorV3 C) (credential : Credential) (input output : Data) : Prop :=
  decryptor.credential = credential ∧
    match decryptor.decryptorEngine with
    | none =>
      decryptor.buffer = input ∧ output = [] ∧ input.length < requiredHeaderSize credential
    | some e =>
      let header := input.take (requiredHeaderSize credential)
      requiredHeaderSize credential ≤ input.length ∧ input.head? = some formatVersion
        ∧ input[1]? = some credential.kind
        ∧ e.Fed (credential.encryptionKey C header) (credential.hmacKey C header)
            (credential.iv header) header (input.drop (requiredHeaderSize credential)) output

theorem fed_new (C : CommonCrypto) (credential : Credential)
    : ({ credential } : DecryptorV3 C).Fed credential [] [] := by
  refine ⟨rfl, rfl, rfl, ?_⟩
  have hpos := requiredHeaderSize_pos credential
  rw [List.length_nil]
  omega

def Rejecting (decryptor : DecryptorV3 C) : Prop :=
  decryptor.credential.Valid ∧ decryptor.decryptorEngine = none
    ∧ requiredHeaderSize decryptor.credential ≤ decryptor.buffer.length
    ∧ ¬ (decryptor.buffer.head? = some formatVersion
        ∧ decryptor.buffer[1]? = some decryptor.credential.kind)

theorem update_cases {decryptor : DecryptorV3 C} {input output : Data}
    (hcredential : credential.Valid) (h : decryptor.Fed credential input output) (data : Data)
    : ∃ next result, decryptor.update data = .ok (next, result) ∧
        match result with
        | .error err => next.Rejecting ∧
            ∀ rest, opened C credential (input ++ data ++ rest) = .ok (.error err)
        | .ok out => next.Fed credential (input ++ data) (output ++ out) := by
  obtain ⟨rfl, hengine⟩ := h
  unfold update
  split
  . next e he =>
    rw [he] at hengine
    obtain ⟨hlength, hversion, hkind, hfed⟩ := hengine
    obtain ⟨next, out, hupdate, hnext⟩ := DecryptorEngineV3.update_fed hfed data
    simp only [hupdate, bind, Except.bind, pure, Except.pure]
    refine ⟨_, _, rfl, rfl, ?_⟩
    obtain ⟨hhead, hsecond⟩ := first_two_append hlength data
    refine ⟨?_, ?_, ?_, ?_⟩
    . rw [List.length_append]
      omega
    . rw [hhead, hversion]
    . rw [hsecond, hkind]
    . rw [List.take_append_of_le_length hlength, List.drop_append_of_le_length hlength]
      exact hnext
  . next he =>
    rw [he] at hengine
    obtain ⟨hbuffer, houtput, hshort⟩ := hengine
    subst houtput
    rw [hbuffer]
    dsimp only
    by_cases hlength : (input ++ data).length < requiredHeaderSize decryptor.credential
    . simp only [hlength, ↓reduceIte]
      refine ⟨_, _, rfl, rfl, ?_⟩
      simpa [he] using hlength
    . simp only [hlength, ↓reduceIte]
      have hlength : requiredHeaderSize decryptor.credential ≤ (input ++ data).length := by omega
      have hbody : subdata (input ++ data) (requiredHeaderSize decryptor.credential)
            (input ++ data).length
          =
        .ok ((input ++ data).drop (requiredHeaderSize decryptor.credential)) := by
        rw [subdata_of hlength (Nat.le_refl _), slice, List.take_length]
      rw [subdata_header hlength, hbody]
      rcases makeEngine_of_buffer (C := C) hcredential hlength
        with ⟨hversion, hmake⟩ | ⟨hversion, hkind, hmake⟩ | ⟨hversion, hkind, e, hmake, hfed⟩
      . simp only [hmake, bind, Except.bind, pure, Except.pure]
        refine ⟨_, _, rfl, ⟨hcredential, he, hlength, ?_⟩, ?_⟩
        . intro hboth
          exact hversion hboth.left
        . intro rest
          rw [opened_append hlength, if_pos hversion]
      . simp only [hmake, bind, Except.bind, pure, Except.pure]
        refine ⟨_, _, rfl, ⟨hcredential, he, hlength, ?_⟩, ?_⟩
        . intro hboth
          exact hkind hboth.right
        . intro rest
          rw [opened_append hlength, if_neg (by simp [hversion]), if_pos hkind]
      . obtain ⟨next, out, hupdate, hnext⟩ := DecryptorEngineV3.update_fed hfed
          ((input ++ data).drop (requiredHeaderSize decryptor.credential))
        simp only [hmake, hupdate, bind, Except.bind, pure, Except.pure]
        refine ⟨_, _, rfl, rfl, hlength, hversion, hkind, ?_⟩
        simpa using hnext

theorem finalData_of_fed {decryptor : DecryptorV3 C} {input output : Data}
    (h : decryptor.Fed credential input output)
    : decryptor.finalData.map (fun answer => answer.2.map (output ++ ·))
        =
      opened C credential input := by
  obtain ⟨rfl, hengine⟩ := h
  unfold finalData
  split
  . next he =>
    rw [he] at hengine
    unfold opened
    dsimp only
    rw [if_pos hengine.right.right]
    rfl
  . next e he =>
    rw [he] at hengine
    obtain ⟨hlength, hversion, hkind, hfed⟩ := hengine
    have hopened := opened_append (C := C) hlength []
    rw [List.append_nil, if_neg (by simp [hversion]), if_neg (by simp [hkind]),
      List.append_nil] at hopened
    rw [hopened, ← DecryptorEngineV3.finalData_of_fed hfed]
    cases e.finalData with
    | error trap => rfl
    | ok answer => rfl

theorem rejecting_refuses {decryptor : DecryptorV3 C} (h : decryptor.Rejecting)
    (call : Streaming.Machine.Call UInt8)
    : ∃ next err, machine.call decryptor call = .ok (next, .error err) ∧ next.Rejecting := by
  obtain ⟨hcredential, he, hlength, hheader⟩ := h
  cases call with
  | finalData =>
    refine ⟨decryptor, .messageTooShort, ?_, hcredential, he, hlength, hheader⟩
    simp only [Streaming.Machine.call, machine, finalData, he]
  | update data =>
    have hlonger : ¬ (decryptor.buffer ++ data).length < requiredHeaderSize decryptor.credential := by
      rw [List.length_append]
      omega
    obtain ⟨hhead, hsecond⟩ := first_two_append hlength data
    have htake : subdata (decryptor.buffer ++ data) 0 (requiredHeaderSize decryptor.credential)
        =
      .ok (decryptor.buffer.take (requiredHeaderSize decryptor.credential)) := by
      rw [subdata_header (Nat.le_of_not_lt hlonger), List.take_append_of_le_length hlength]
    have hstays : ({ decryptor with buffer := decryptor.buffer ++ data, decryptorEngine := none }
        : DecryptorV3 C).Rejecting := by
      refine ⟨hcredential, rfl, ?_, ?_⟩
      . dsimp only
        rw [List.length_append]
        omega
      . dsimp only
        rw [hhead, hsecond]
        exact hheader
    simp only [Streaming.Machine.call, machine, update, he, hlonger, ↓reduceIte, htake]
    rcases makeEngine_of_buffer (C := C) hcredential hlength
      with ⟨-, hmake⟩ | ⟨-, -, hmake⟩ | ⟨hversion, hkind, -⟩
    . simp only [hmake, bind, Except.bind, pure, Except.pure]
      exact ⟨_, _, rfl, hstays⟩
    . simp only [hmake, bind, Except.bind, pure, Except.pure]
      exact ⟨_, _, rfl, hstays⟩
    . exact absurd ⟨hversion, hkind⟩ hheader

theorem tracks (hcredential : credential.Valid)
    : (machine (C := C)).Tracks (fun decryptor => decryptor.Fed credential)
        (opened C credential) where
  update := by
    intro decryptor input output piece h
    obtain ⟨next, result, hupdate, hnext⟩ := update_cases hcredential h piece
    refine ⟨next, result, hupdate, ?_⟩
    cases result with
    | error err => exact hnext.right
    | ok out => exact hnext
  finalData := by
    intro decryptor input output h
    exact finalData_of_fed h

end DecryptorV3

namespace Decryptor

variable {C : CommonCrypto} {password : String}

def Fed (decryptor : Decryptor C) (password : String) (input output : Data) : Prop :=
  decryptor.password = password ∧
    match decryptor.decryptor with
    | none =>
      decryptor.decryptors = [.decryptorV3] ∧ decryptor.buffer = [] ∧ input = [] ∧ output = []
    | some d => input.head? = some formatVersion ∧ d.Fed (.password password) input output

theorem new_fed (hpassword : password ≠ "")
    : ∃ decryptor, new C password = .ok decryptor ∧ decryptor.Fed password [] [] := by
  have hnew : new C password = .ok { password } := by
    unfold new
    rw [Swift.assert_of hpassword]
    rfl
  exact ⟨_, hnew, rfl, rfl, rfl, rfl, rfl⟩

def Rejecting (decryptor : Decryptor C) : Prop :=
  match decryptor.decryptor with
  | none => decryptor.decryptors = []
  | some d => d.Rejecting

theorem firstToDecrypt_v3 (version : UInt8) (rest : Data)
    : firstToDecrypt (version :: rest) [.decryptorV3]
        =
      .ok (if version = formatVersion then some .decryptorV3 else none) := by
  have hpreamble : subdata (version :: rest) 0 1 = .ok [version] := by
    rw [subdata_of (by omega) (by simp)]
    rfl
  simp only [firstToDecrypt, VersionedDecryptorType.canDecrypt,
    VersionedDecryptorType.preambleSize, DecryptorV3.preambleSize, hpreamble,
    DecryptorV3.canDecrypt, bind, Except.bind, pure, Except.pure, formatVersion, beq_iff_eq]
  by_cases hversion : version = 3
  . simp [hversion]
  . simp [hversion]

theorem update_cases {decryptor : Decryptor C} {input output : Data} (hpassword : password ≠ "")
    (h : decryptor.Fed password input output) (data : Data)
    : ∃ next result, decryptor.update data = .ok (next, result) ∧
        match result with
        | .error err => next.Rejecting ∧
            ∀ rest, opened C password (input ++ data ++ rest) = .ok (.error err)
        | .ok out => next.Fed password (input ++ data) (output ++ out) := by
  have hcredential : (Credential.password password).Valid := hpassword
  obtain ⟨rfl, hdecryptor⟩ := h
  unfold update
  split
  . next d hd =>
    rw [hd] at hdecryptor
    obtain ⟨hversion, hfed⟩ := hdecryptor
    obtain ⟨next, result, hupdate, hnext⟩ := DecryptorV3.update_cases hcredential hfed data
    simp only [hupdate, bind, Except.bind, pure, Except.pure]
    have hhead : (input ++ data).head? = some formatVersion := by
      rw [List.head?_append, hversion]
      rfl
    refine ⟨_, _, rfl, ?_⟩
    cases result with
    | error err =>
      refine ⟨hnext.left, ?_⟩
      intro rest
      unfold opened
      rw [List.head?_append, hhead, if_neg (by simp)]
      exact hnext.right rest
    | ok out => exact ⟨rfl, hhead, hnext⟩
  . next hd =>
    rw [hd] at hdecryptor
    obtain ⟨hdecryptors, hbuffer, rfl, rfl⟩ := hdecryptor
    cases data with
    | nil =>
      simp only [hbuffer, hdecryptors, List.append_nil, VersionedDecryptorType.preambleSize,
        DecryptorV3.preambleSize, List.partition_eq_filter_filter]
      refine ⟨_, _, rfl, rfl, ?_⟩
      simp [hd]
    | cons version rest =>
      simp only [hbuffer, hdecryptors, List.nil_append, VersionedDecryptorType.preambleSize,
        DecryptorV3.preambleSize, List.partition_eq_filter_filter, List.length_cons,
        Nat.le_add_left, decide_true, List.filter_cons, ↓reduceIte, List.filter_nil,
        firstToDecrypt_v3, bind, Except.bind, pure, Except.pure]
      by_cases hversion : version = formatVersion
      . obtain ⟨next, result, hupdate, hnext⟩ := DecryptorV3.update_cases hcredential
          (DecryptorV3.fed_new C (.password decryptor.password)) (version :: rest)
        simp only [hversion, ↓reduceIte, VersionedDecryptorType.new, DecryptorV3.withPassword]
        rw [hversion] at hupdate hnext
        rw [hupdate]
        cases result with
        | error err =>
          refine ⟨_, _, rfl, hnext.left, ?_⟩
          intro tail
          unfold opened
          rw [if_neg (by simp)]
          exact hnext.right tail
        | ok out => exact ⟨_, _, rfl, rfl, rfl, hnext⟩
      . simp only [hversion, ↓reduceIte]
        refine ⟨_, _, rfl, ?_, ?_⟩
        . simp [Rejecting, hd]
        . intro tail
          unfold opened
          rw [if_pos (by simpa using hversion)]

theorem finalData_of_fed {decryptor : Decryptor C} {input output : Data}
    (h : decryptor.Fed password input output)
    : decryptor.finalData.map (fun answer => answer.2.map (output ++ ·))
        =
      opened C password input := by
  obtain ⟨rfl, hdecryptor⟩ := h
  unfold finalData
  split
  . next hd =>
    rw [hd] at hdecryptor
    obtain ⟨-, -, rfl, -⟩ := hdecryptor
    rfl
  . next d hd =>
    rw [hd] at hdecryptor
    obtain ⟨hversion, hfed⟩ := hdecryptor
    unfold opened
    rw [if_neg (by simp [hversion]), ← DecryptorV3.finalData_of_fed hfed]
    cases d.finalData with
    | error trap => rfl
    | ok answer => rfl

theorem rejecting_refuses {decryptor : Decryptor C} (h : decryptor.Rejecting)
    (call : Streaming.Machine.Call UInt8)
    : ∃ next err, machine.call decryptor call = .ok (next, .error err) ∧ next.Rejecting := by
  unfold Rejecting at h
  cases hd : decryptor.decryptor with
  | none =>
    rw [hd] at h
    cases call with
    | finalData =>
      refine ⟨decryptor, .unknownHeader, ?_, ?_⟩
      . simp only [Streaming.Machine.call, machine, finalData, hd]
      . simpa [Rejecting, hd] using h
    | update data =>
      have hdecryptors : decryptor.decryptors = [] := h
      simp only [Streaming.Machine.call, machine, update, hd, hdecryptors,
        List.partition_eq_filter_filter, List.filter_nil, firstToDecrypt, bind, Except.bind, pure,
        Except.pure]
      refine ⟨_, _, rfl, ?_⟩
      simp [Rejecting]
  | some d =>
    rw [hd] at h
    obtain ⟨next, err, hcall, hnext⟩ := DecryptorV3.rejecting_refuses h call
    cases call with
    | finalData =>
      simp only [Streaming.Machine.call, DecryptorV3.machine] at hcall
      simp only [Streaming.Machine.call, machine, finalData, hd, hcall, bind, Except.bind, pure,
        Except.pure]
      exact ⟨_, _, rfl, hnext⟩
    | update data =>
      simp only [Streaming.Machine.call, DecryptorV3.machine] at hcall
      simp only [Streaming.Machine.call, machine, update, hd, hcall, bind, Except.bind, pure,
        Except.pure]
      exact ⟨_, _, rfl, hnext⟩

theorem tracks (hpassword : password ≠ "")
    : (machine (C := C)).Tracks (fun decryptor => decryptor.Fed password) (opened C password) where
  update := by
    intro decryptor input output piece h
    obtain ⟨next, result, hupdate, hnext⟩ := update_cases hpassword h piece
    refine ⟨next, result, hupdate, ?_⟩
    cases result with
    | error err => exact hnext.right
    | ok out => exact hnext
  finalData := by
    intro decryptor input output h
    exact finalData_of_fed h

end Decryptor

end RNCryptor
