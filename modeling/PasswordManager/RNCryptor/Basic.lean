import PasswordManager.RNCryptor.CommonCrypto
import PasswordManager.Streaming.Basic

/-!
This module contains version 3 of the data format of RNCryptor: the incremental encryptor and the
incremental decryptors, with all that they remember between two calls.
-/

namespace Swift

def assert (condition : Prop) [Decidable condition] : Except Trap Unit :=
  if condition then .ok () else .error .assertionFailure

def precondition (condition : Prop) [Decidable condition] : Except Trap Unit :=
  if condition then .ok () else .error .assertionFailure

theorem assert_of {condition : Prop} [Decidable condition] (h : condition)
    : assert condition = .ok () := by
  simp [assert, h]

theorem precondition_of {condition : Prop} [Decidable condition] (h : condition)
    : precondition condition = .ok () := by
  simp [precondition, h]

end Swift

namespace RNCryptor

def slice (data : Data) (lower upper : Nat) : Data :=
  (data.take upper).drop lower

-- `subdata(in: lower..<upper)`
def subdata (data : Data) (lower upper : Nat) : Except Trap Data :=
  if lower ≤ upper ∧ upper ≤ data.length then
    .ok (slice data lower upper)
  else
    .error .indexOutOfRange

-- `replaceSubrange(lower..<upper, with: new)`
def replaceSubrange (data : Data) (lower upper : Nat) (new : Data) : Except Trap Data :=
  if lower ≤ upper ∧ upper ≤ data.length then
    .ok (data.take lower ++ new ++ data.drop upper)
  else
    .error .indexOutOfRange

theorem subdata_of {data : Data} {lower upper : Nat} (hlower : lower ≤ upper)
    (hupper : upper ≤ data.length) : subdata data lower upper = .ok (slice data lower upper) := by
  simp [subdata, hlower, hupper]

theorem replaceSubrange_of {data : Data} {lower upper : Nat} (hlower : lower ≤ upper)
    (hupper : upper ≤ data.length) (new : Data)
    : replaceSubrange data lower upper new = .ok (data.take lower ++ new ++ data.drop upper) := by
  simp [replaceSubrange, hlower, hupper]

namespace FormatV3

def keySize : Nat := 32
def saltSize : Nat := 8
def formatVersion : UInt8 := 3
def ivSize : Nat := 16
def hmacSize : Nat := 32
def keyHeaderSize : Nat := 1 + 1 + 16
def passwordHeaderSize : Nat := 1 + 1 + 8 + 8 + 16
def pbkdf2Rounds : Nat := 10000

def makeKey (C : CommonCrypto) (password : String) (salt : Data) : Data :=
  C.keyDerivation password.utf8Data salt pbkdf2Rounds keySize

end FormatV3

open FormatV3

structure OverflowingBuffer where
  buffer : Data := []
  capacity : Nat
  deriving DecidableEq, Repr

namespace OverflowingBuffer

def sendAll (self : OverflowingBuffer) (data : Data)
    : Except Trap (OverflowingBuffer × Data) := do
  let toSend : Int := data.length - self.capacity
  Swift.assert (0 ≤ toSend)
  Swift.assert (data.length - toSend ≤ self.capacity)
  let toSend := toSend.toNat
  let sent ← subdata data 0 toSend
  let held ← subdata data toSend data.length
  return ({ self with buffer := held }, self.buffer ++ sent)

def sendSome (self : OverflowingBuffer) (data : Data)
    : Except Trap (OverflowingBuffer × Data) := do
  let toSend : Int := (self.buffer.length + data.length) - self.capacity
  -- If it were <= 0, we would have extended the array
  Swift.assert (0 < toSend)
  -- If we would have sent everything, `sendAll` should have been called
  Swift.assert (toSend < self.buffer.length)
  let toSend := toSend.toNat
  let result ← subdata self.buffer 0 toSend
  let held ← replaceSubrange self.buffer 0 toSend []
  return ({ self with buffer := held ++ data }, result)

def update (self : OverflowingBuffer) (data : Data) : Except Trap (OverflowingBuffer × Data) :=
  if data.length ≥ self.capacity then
    self.sendAll data
  else if self.buffer.length + data.length ≤ self.capacity then
    .ok ({ self with buffer := self.buffer ++ data }, [])
  else
    self.sendSome data

def finalData (self : OverflowingBuffer) : OverflowingBuffer × Data :=
  ({ self with buffer := [] }, self.buffer)

end OverflowingBuffer

def accumulateDifference (trusted : Data) (result : UInt8) (entry : UInt8 × Nat)
    : Except Trap UInt8 :=
  match trusted[entry.2 % trusted.length]? with
  | some trustedByte => .ok (result ||| (trustedByte ^^^ entry.1))
  -- there is no remainder by the length of an empty `trusted`
  | none => .error .indexOutOfRange

def isEqualInConsistentTime (trusted untrusted : Data) : Except Trap Bool := do
  let start : UInt8 := if untrusted.length = trusted.length then 0 else 1
  let result ← untrusted.zipIdx.foldlM (accumulateDifference trusted) start
  return result == 0

variable (C : CommonCrypto)

structure HMACV3 where
  context : C.HmacContext

namespace HMACV3

variable {C}

def new (C : CommonCrypto) (key : Data) : HMACV3 C where
  context := C.hmacInit key

def update (self : HMACV3 C) (data : Data) : HMACV3 C where
  context := C.hmacUpdate self.context data

def finalData (self : HMACV3 C) : Data :=
  C.hmacFinal self.context

end HMACV3

structure Engine where
  cryptor : C.Cryptor

namespace Engine

variable {C}

def new (C : CommonCrypto) (operation : CryptorOperation) (key iv : Data)
    : Except Trap (Engine C) :=
  match C.create operation key iv with
  | some cryptor => .ok { cryptor }
  | none => .error .assertionFailure

def update (self : Engine C) (data : Data) : Except Trap (Engine C × Data) :=
  match C.cryptorUpdate self.cryptor data with
  | some (cryptor, moved) => .ok ({ cryptor }, moved)
  | none => .error .assertionFailure

def finalData (self : Engine C) : Except Trap Data :=
  match C.cryptorFinal self.cryptor with
  | some moved => .ok moved
  | none => .error .assertionFailure

end Engine

structure EncryptorV3 where
  engine : Engine C
  hmac : HMACV3 C
  pendingHeader : Option Data

namespace EncryptorV3

variable {C}

def new (C : CommonCrypto) (encryptionKey hmacKey iv header : Data)
    : Except Trap (EncryptorV3 C) := do
  Swift.precondition (encryptionKey.length = keySize)
  Swift.precondition (hmacKey.length = keySize)
  Swift.precondition (iv.length = ivSize)
  return {
    engine := ← Engine.new C .encrypt encryptionKey iv
    hmac := HMACV3.new C hmacKey
    pendingHeader := some header
  }

def withKeys (C : CommonCrypto) (encryptionKey hmacKey iv : Data)
    : Except Trap (EncryptorV3 C) :=
  new C encryptionKey hmacKey iv ([formatVersion, 0] ++ iv)

def withPassword (C : CommonCrypto) (password : String) (encryptionSalt hmacSalt iv : Data)
    : Except Trap (EncryptorV3 C) :=
  let encryptionKey := makeKey C password encryptionSalt
  let hmacKey := makeKey C password hmacSalt
  new C encryptionKey hmacKey iv ([formatVersion, 1] ++ encryptionSalt ++ hmacSalt ++ iv)

def handle (self : EncryptorV3 C) (data : Data) : EncryptorV3 C × Data :=
  let result :=
    match self.pendingHeader with
    | some accum => accum ++ data
    | none => data
  ({ self with pendingHeader := none, hmac := self.hmac.update result }, result)

def update (self : EncryptorV3 C) (data : Data) : Except Trap (EncryptorV3 C × Data) := do
  let (engine, moved) ← self.engine.update data
  return handle { self with engine } moved

def finalData (self : EncryptorV3 C) : Except Trap (EncryptorV3 C × Data) := do
  let (self, result) := self.handle (← self.engine.finalData)
  return (self, result ++ self.hmac.finalData)

def machine : Streaming.Machine (EncryptorV3 C) Trap Error UInt8 UInt8 where
  update self data := (self.update data).map (fun next => (next.1, .ok next.2))
  finalData self := self.finalData.map (fun next => (next.1, .ok next.2))

end EncryptorV3

inductive Credential where
  | password (password : String)
  | keys (encryptionKey hmacKey : Data)
  deriving DecidableEq, Repr

structure DecryptorEngineV3 where
  buffer : OverflowingBuffer
  hmac : HMACV3 C
  engine : Engine C

namespace DecryptorEngineV3

variable {C}

def new (C : CommonCrypto) (encryptionKey hmacKey iv header : Data)
    : Except Trap (DecryptorEngineV3 C) := do
  Swift.precondition (encryptionKey.length = keySize)
  Swift.precondition (hmacKey.length = hmacSize)
  Swift.precondition (iv.length = ivSize)
  return {
    buffer := { capacity := hmacSize }
    hmac := (HMACV3.new C hmacKey).update header
    engine := ← Engine.new C .decrypt encryptionKey iv
  }

def update (self : DecryptorEngineV3 C) (data : Data)
    : Except Trap (DecryptorEngineV3 C × Data) := do
  let (buffer, overflow) ← self.buffer.update data
  let (engine, moved) ← self.engine.update overflow
  return ({ buffer, hmac := self.hmac.update overflow, engine }, moved)

def finalData (self : DecryptorEngineV3 C)
    : Except Trap (DecryptorEngineV3 C × Except Error Data) := do
  let hash := self.hmac.finalData
  let (buffer, untrusted) := self.buffer.finalData
  let self := { self with buffer }
  if ← isEqualInConsistentTime hash untrusted then
    return (self, .ok (← self.engine.finalData))
  else
    return (self, .error .hmacMismatch)

end DecryptorEngineV3

structure DecryptorV3 where
  buffer : Data := []
  decryptorEngine : Option (DecryptorEngineV3 C) := none
  credential : Credential

namespace DecryptorV3

variable {C}

def preambleSize : Nat := 1

def canDecrypt (preamble : Data) : Except Trap Bool :=
  match preamble with
  | [] => .error .assertionFailure
  | version :: _ => .ok (version == 3)

def withPassword (C : CommonCrypto) (password : String) : DecryptorV3 C where
  credential := .password password

def withKeys (C : CommonCrypto) (encryptionKey hmacKey : Data)
    : Except Trap (DecryptorV3 C) := do
  Swift.precondition (encryptionKey.length = keySize)
  Swift.precondition (hmacKey.length = hmacSize)
  return { credential := .keys encryptionKey hmacKey }

def requiredHeaderSize : Credential → Nat
  | .password _ => passwordHeaderSize
  | .keys _ _ => keyHeaderSize

def makeEngine (C : CommonCrypto) (credential : Credential) (header : Data)
    : Except Trap (Except Error (DecryptorEngineV3 C)) :=
  match credential with
  | .password password => do
    Swift.assert (password ≠ "")
    Swift.precondition (header.length = passwordHeaderSize)
    if !(← canDecrypt header) then
      return .error .unknownHeader
    else if header[1]? ≠ some 1 then
      return .error .invalidCredentialType
    else
      let encryptionSalt ← subdata header 2 10
      let hmacSalt ← subdata header 10 18
      let iv ← subdata header 18 34
      let encryptionKey := makeKey C password encryptionSalt
      let hmacKey := makeKey C password hmacSalt
      return .ok (← DecryptorEngineV3.new C encryptionKey hmacKey iv header)
  | .keys encryptionKey hmacKey => do
    Swift.precondition (header.length = keyHeaderSize)
    Swift.precondition (encryptionKey.length = keySize)
    Swift.precondition (hmacKey.length = keySize)
    if !(← canDecrypt header) then
      return .error .unknownHeader
    else if header[1]? ≠ some 0 then
      return .error .invalidCredentialType
    else
      let iv ← subdata header 2 18
      return .ok (← DecryptorEngineV3.new C encryptionKey hmacKey iv header)

def update (self : DecryptorV3 C) (data : Data)
    : Except Trap (DecryptorV3 C × Except Error Data) :=
  match self.decryptorEngine with
  | some e => do
    let (e, result) ← e.update data
    return ({ self with decryptorEngine := some e }, .ok result)
  | none => do
    let self := { self with buffer := self.buffer ++ data }
    let required := requiredHeaderSize self.credential
    if self.buffer.length < required then
      return (self, .ok [])
    else
      match ← makeEngine C self.credential (← subdata self.buffer 0 required) with
      | .error err => return (self, .error err)
      | .ok e =>
        let body ← subdata self.buffer required self.buffer.length
        let (e, result) ← e.update body
        return ({ self with decryptorEngine := some e, buffer := [] }, .ok result)

def finalData (self : DecryptorV3 C) : Except Trap (DecryptorV3 C × Except Error Data) :=
  match self.decryptorEngine with
  | none => .ok (self, .error .messageTooShort)
  | some e => do
    let (e, result) ← e.finalData
    return ({ self with decryptorEngine := some e }, result)

def machine : Streaming.Machine (DecryptorV3 C) Trap Error UInt8 UInt8 where
  update := update
  finalData := finalData

end DecryptorV3

inductive VersionedDecryptorType where
  | decryptorV3
  deriving DecidableEq, Repr

namespace VersionedDecryptorType

def preambleSize : VersionedDecryptorType → Nat
  | .decryptorV3 => DecryptorV3.preambleSize

def canDecrypt : VersionedDecryptorType → Data → Except Trap Bool
  | .decryptorV3 => DecryptorV3.canDecrypt

def new (C : CommonCrypto) (password : String) : VersionedDecryptorType → DecryptorV3 C
  | .decryptorV3 => DecryptorV3.withPassword C password

end VersionedDecryptorType

structure Decryptor where
  decryptors : List VersionedDecryptorType := [.decryptorV3]
  buffer : Data := []
  decryptor : Option (DecryptorV3 C) := none
  password : String

namespace Decryptor

variable {C}

def new (C : CommonCrypto) (password : String) : Except Trap (Decryptor C) := do
  Swift.assert (password ≠ "")
  return { password }

def firstToDecrypt (buffer : Data)
    : List VersionedDecryptorType → Except Trap (Option VersionedDecryptorType)
  | [] => .ok none
  | decryptorType :: rest => do
    if ← decryptorType.canDecrypt (← subdata buffer 0 decryptorType.preambleSize) then
      return some decryptorType
    else
      firstToDecrypt buffer rest

def update (self : Decryptor C) (data : Data)
    : Except Trap (Decryptor C × Except Error Data) :=
  match self.decryptor with
  | some d => do
    let (d, result) ← d.update data
    return ({ self with decryptor := some d }, result)
  | none => do
    let buffer := self.buffer ++ data
    let (toCheck, decryptors) :=
      self.decryptors.partition (fun type => type.preambleSize ≤ buffer.length)
    let self := { self with buffer, decryptors }
    match ← firstToDecrypt buffer toCheck with
    | some decryptorType =>
      match ← (decryptorType.new C self.password).update buffer with
      | (d, .error err) => return ({ self with decryptor := some d }, .error err)
      | (d, .ok result) =>
        return ({ self with decryptor := some d, buffer := [] }, .ok result)
    | none =>
      if decryptors.isEmpty then
        return (self, .error .unknownHeader)
      else
        return (self, .ok [])

def finalData (self : Decryptor C) : Except Trap (Decryptor C × Except Error Data) :=
  match self.decryptor with
  | none => .ok (self, .error .unknownHeader)
  | some d => do
    let (d, result) ← d.finalData
    return ({ self with decryptor := some d }, result)

def machine : Streaming.Machine (Decryptor C) Trap Error UInt8 UInt8 where
  update := update
  finalData := finalData

end Decryptor

end RNCryptor
