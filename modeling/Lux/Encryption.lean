import Lux.IdealAead

/-!
# The encryption keyring and its envelopes

A value is sealed under a fresh data key, and the data key is wrapped under
every key of the ring. The envelope lists the wraps by key id, so that any ring
that still holds one of the keys can open it. Both layers bind the place of the
value: table, field and row, joined with the id of the writing key by zero
bytes.

A string is its UTF-8 bytes. The cipher, the hash behind key derivation and
the decoder of sealed texts come from other crates and are parameters
(`Crypto`); the random bytes of a call are an argument. The ring's map is the
list of its entries in the order of their ids, in which the code visits it.
-/

namespace Lux

open ByteCodec

/-- The bytes of a string. -/
abbrev Text := Bytes

/-- What the keyring takes from other crates. -/
structure Crypto where
  aead : IdealAead.Aead
  /-- SHA-256 of a label, a zero byte and a secret. -/
  deriveKey : (secret label : Bytes) → Bytes
  /-- The base64 and JSON decoding of a sealed text behind its marker: the
  location it names and its envelope. -/
  decodeSealed : Bytes → Option (Text × Text × Text × Bytes)

/-! ## UTF-8 -/

private def isContinuation (b : UInt8) : Bool := 0x80 ≤ b && b ≤ 0xBF

/-- The lead and second bytes of a well-formed three-byte sequence. -/
private def isThreeByteLead (a b : UInt8) : Bool :=
  (a == 0xE0 && 0xA0 ≤ b && b ≤ 0xBF) ||
  (0xE1 ≤ a && a ≤ 0xEC && isContinuation b) ||
  (a == 0xED && 0x80 ≤ b && b ≤ 0x9F) ||
  (0xEE ≤ a && a ≤ 0xEF && isContinuation b)

/-- The lead and second bytes of a well-formed four-byte sequence. -/
private def isFourByteLead (a b : UInt8) : Bool :=
  (a == 0xF0 && 0x90 ≤ b && b ≤ 0xBF) ||
  (0xF1 ≤ a && a ≤ 0xF3 && isContinuation b) ||
  (a == 0xF4 && 0x80 ≤ b && b ≤ 0x8F)

/-- The bytes are a well-formed UTF-8 string. -/
def utf8Valid : Bytes → Bool
  | [] => true
  | a :: rest =>
    if a < 0x80 then
      utf8Valid rest
    else
      match rest with
      | [] => false
      | b :: rest =>
        if 0xC2 ≤ a && a ≤ 0xDF then
          isContinuation b && utf8Valid rest
        else
          match rest with
          | [] => false
          | c :: rest =>
            if 0xE0 ≤ a && a ≤ 0xEF then
              isThreeByteLead a b && isContinuation c && utf8Valid rest
            else
              match rest with
              | [] => false
              | d :: rest =>
                isFourByteLead a b && isContinuation c && isContinuation d &&
                  utf8Valid rest

theorem utf8Valid_of_ascii {text : Text} (h : ∀ b ∈ text, b < 0x80) : utf8Valid text := by
  induction text with
  | nil => rfl
  | cons a rest ih =>
    have ha : a < 0x80 := h a List.mem_cons_self
    have hrest := ih (fun b hb => h b (List.mem_cons_of_mem _ hb))
    rw [utf8Valid.eq_def]
    simp only [ha, if_true, hrest]

/-! ## Key ids and keys -/

/-- The bytes `validate_key_id` allows. -/
def isKeyIdByte (b : UInt8) : Bool :=
  (0x30 ≤ b && b ≤ 0x39) || (0x41 ≤ b && b ≤ 0x5A) || (0x61 ≤ b && b ≤ 0x7A) ||
    b == 0x5F || b == 0x2D

def validateKeyId (id : Text) : Except String Unit :=
  if id.isEmpty then
    .error "ERR encryption key id cannot be empty"
  else if 255 < id.length then
    .error "ERR encryption key id is too long"
  else if id.all isKeyIdByte then
    .ok ()
  else
    .error "ERR encryption key id must contain only letters, numbers, '_' or '-'"

/-- A key id that passed its validation. -/
abbrev KeyId := { id : Text // validateKeyId id = .ok () }

structure NetworkKey where
  secret : Bytes
  decryptOnly : Bool
  deriving DecidableEq, Repr

/-- The keyring: its entries in the order of their ids, and the writing key. -/
structure EncryptionState where
  activeKeyId : Option KeyId
  keys : List (KeyId × NetworkKey)
  sorted : keys.Pairwise fun a b => a.1.1 < b.1.1

namespace EncryptionState

/-- Look a key up by an id that need not be valid. -/
def find (state : EncryptionState) (id : Text) : Option NetworkKey :=
  (state.keys.find? fun entry => entry.1.1 == id).map Prod.snd

end EncryptionState

/-- The bytes of `lux-dek-wrap-v1`. -/
def dekWrapLabel : Bytes :=
  [0x6c, 0x75, 0x78, 0x2d, 0x64, 0x65, 0x6b, 0x2d, 0x77, 0x72, 0x61, 0x70, 0x2d, 0x76, 0x31]

def NetworkKey.wrapKey (crypto : Crypto) (key : NetworkKey) : Bytes :=
  crypto.deriveKey key.secret dekWrapLabel

/-! ## Places -/

/-- Where a value lives. -/
@[ext] structure Place where
  table : Text
  field : Text
  pk : Text
  deriving DecidableEq, Repr

/-- The bytes of `lux-dek-wrap-aad-v1`. -/
def wrapAadLabel : Bytes :=
  [0x6c, 0x75, 0x78, 0x2d, 0x64, 0x65, 0x6b, 0x2d, 0x77, 0x72, 0x61, 0x70, 0x2d, 0x61, 0x61,
    0x64, 0x2d, 0x76, 0x31]

/-- The bytes of `lux-value-aad-v1`. -/
def valueAadLabel : Bytes :=
  [0x6c, 0x75, 0x78, 0x2d, 0x76, 0x61, 0x6c, 0x75, 0x65, 0x2d, 0x61, 0x61, 0x64, 0x2d, 0x76,
    0x31]

def aadWithWriter (label : Bytes) (place : Place) (writerKeyId : Text) : Bytes :=
  label ++ [0] ++ place.table ++ [0] ++ place.field ++ [0] ++ place.pk ++ [0] ++ writerKeyId

def wrapAad (place : Place) (writerKeyId : Text) : Bytes :=
  aadWithWriter wrapAadLabel place writerKeyId

def valueAad (place : Place) (writerKeyId : Text) : Bytes :=
  aadWithWriter valueAadLabel place writerKeyId

/-! ## Envelopes -/

def nonceLen : Nat := 12
def dataKeyLen : Nat := 32
def wrappedDataKeyLen : Nat := dataKeyLen + 16

abbrev Nonce := { nonce : Bytes // nonce.length = nonceLen }
abbrev DataKey := { key : Bytes // key.length = dataKeyLen }

/-- The random bytes one encryption draws. -/
structure EncryptRandom where
  dataKey : DataKey
  valueNonce : Nonce
  wrapNonce : KeyId → Nonce

/-- The bytes of `LUXENC2`. -/
def envelopeMagic : Bytes := [0x4c, 0x55, 0x58, 0x45, 0x4e, 0x43, 0x32]

/-- The bytes of `luxsealed:`. -/
def sealedValuePrefix : Bytes :=
  [0x6c, 0x75, 0x78, 0x73, 0x65, 0x61, 0x6c, 0x65, 0x64, 0x3a]

structure KeyWrap where
  keyId : Text
  nonce : Bytes
  wrappedDataKey : Bytes
  deriving DecidableEq, Repr

structure ParsedEnvelope where
  writerKeyId : Text
  wraps : List KeyWrap
  valueNonce : Bytes
  ciphertext : Bytes
  deriving DecidableEq, Repr

def writeKeyWrap (wrap : KeyWrap) : Bytes :=
  UInt8.ofNat wrap.keyId.length :: (wrap.keyId ++ wrap.nonce ++ wrap.wrappedDataKey)

def writeEnvelope (parsed : ParsedEnvelope) : Bytes :=
  envelopeMagic ++ UInt8.ofNat parsed.writerKeyId.length :: (parsed.writerKeyId ++
    UInt8.ofNat parsed.wraps.length :: (parsed.wraps.flatMap writeKeyWrap ++
      parsed.valueNonce ++ parsed.ciphertext))

def truncated {α : Type} : Except String α := .error "ERR encrypted value is truncated"

def parseKeyWrap (input : Bytes) : Except String (KeyWrap × Bytes) :=
  match input with
  | [] => truncated
  | idLen :: input =>
    if input.length < idLen.toNat + nonceLen + wrappedDataKeyLen then
      truncated
    else if utf8Valid (input.take idLen.toNat) then
      let rest := input.drop idLen.toNat
      .ok (⟨input.take idLen.toNat, rest.take nonceLen,
          (rest.drop nonceLen).take wrappedDataKeyLen⟩,
        (rest.drop nonceLen).drop wrappedDataKeyLen)
    else
      .error "ERR encrypted value has invalid key id"

def parseKeyWraps : Nat → Bytes → Except String (List KeyWrap × Bytes)
  | 0, input => .ok ([], input)
  | count+1, input =>
    match parseKeyWrap input with
    | .error error => .error error
    | .ok (wrap, rest) =>
      match parseKeyWraps count rest with
      | .error error => .error error
      | .ok (wraps, rest) => .ok (wrap :: wraps, rest)

def parseEnvelope (envelope : Bytes) : Except String ParsedEnvelope :=
  if envelopeMagic.isPrefixOf envelope then
    match envelope.drop envelopeMagic.length with
    | [] => truncated
    | writerLen :: input =>
      if input.length < writerLen.toNat + 1 then
        truncated
      else if utf8Valid (input.take writerLen.toNat) then
        match input.drop writerLen.toNat with
        | [] => truncated
        | wrapCount :: rest =>
          match parseKeyWraps wrapCount.toNat rest with
          | .error error => .error error
          | .ok (wraps, rest) =>
            if rest.length < nonceLen then
              truncated
            else
              .ok ⟨input.take writerLen.toNat, wraps, rest.take nonceLen,
                rest.drop nonceLen⟩
      else
        .error "ERR encrypted value has invalid writer key id"
  else
    .error "ERR stored value is not encrypted"

/-! ## Encrypting and decrypting -/

section

variable (crypto : Crypto) (state : EncryptionState)

/-- The wraps of the data key under every key of the ring. -/
def keyWraps (random : EncryptRandom) (place : Place) (active : KeyId) : List KeyWrap :=
  state.keys.map fun (id, key) =>
    ⟨id.1, (random.wrapNonce id).1,
      crypto.aead.sealBytes (key.wrapKey crypto) (random.wrapNonce id).1
        (wrapAad place active.1) random.dataKey.1⟩

def encrypt (random : EncryptRandom) (place : Place) (plaintext : Bytes) :
    Except String Bytes :=
  match state.activeKeyId with
  | none => .error "ERR encrypted values require an active encryption key"
  | some active =>
    if state.keys.isEmpty then
      .error "ERR encrypted values require at least one encryption key"
    else
      let ciphertext := crypto.aead.sealBytes random.dataKey.1 random.valueNonce.1
        (valueAad place active.1) plaintext
      let wraps := keyWraps crypto state random place active
      if 255 < wraps.length then
        .error "ERR too many encryption keys for one encrypted value"
      else
        .ok (writeEnvelope ⟨active.1, wraps, random.valueNonce.1, ciphertext⟩)

/-- The first wrap that a key of the ring opens to a data key. -/
def findDataKey (aad : Bytes) : List KeyWrap → Option Bytes
  | [] => none
  | wrap :: wraps =>
    match state.find wrap.keyId with
    | none => findDataKey aad wraps
    | some key =>
      match crypto.aead.openBytes (key.wrapKey crypto) wrap.nonce aad
          wrap.wrappedDataKey with
      | none => findDataKey aad wraps
      | some opened =>
        if opened.length = dataKeyLen then some opened else findDataKey aad wraps

def decrypt (place : Place) (envelope : Bytes) : Except String Bytes :=
  match parseEnvelope envelope with
  | .error error => .error error
  | .ok parsed =>
    match findDataKey crypto state (wrapAad place parsed.writerKeyId) parsed.wraps with
    | none => .error "ERR encrypted value cannot be decrypted by configured keys"
    | some dataKey =>
      match crypto.aead.openBytes dataKey parsed.valueNonce
          (valueAad place parsed.writerKeyId) parsed.ciphertext with
      | none => .error "ERR encrypted value could not be decrypted"
      | some plaintext => .ok plaintext

end

/-! ## Values of the store -/

/-- Bytes that the readers take for an encrypted value. -/
def isEncryptedValue (crypto : Crypto) (raw : Bytes) : Bool :=
  envelopeMagic.isPrefixOf raw ||
    (sealedValuePrefix.isPrefixOf raw &&
      (crypto.decodeSealed (raw.drop sealedValuePrefix.length)).isSome)

/-- A slot of the key-value store that may hold an envelope or plain bytes. Keys and fields stand
here under the names that `user_kv_key` and `user_hash_field` give them: for text these are the
bytes themselves; two keys that are not text can have one name, and are then one place. -/
inductive Slot where
  | kv (key : Text)
  | hash (key field : Text)
  | listElement
  | stream (key field : Text)
  deriving DecidableEq, Repr

/-- The place that an envelope in the slot is bound to. List elements are bound
to no key, so that they can move between lists. -/
def Slot.place : Slot → Place
  | kv key => ⟨ascii "__lux_kv", ascii "value", key⟩
  | hash key field => ⟨ascii "__lux_hash", field, key⟩
  | listElement => ⟨ascii "__lux_list", ascii "element", []⟩
  | stream key field => ⟨ascii "__lux_stream", field, key⟩

def isTableStorageKey (key : Text) : Bool :=
  (ascii "_t:").isPrefixOf key

/-- The decrypting reader shared by all slots. -/
def decryptSlotValue (crypto : Crypto) (state : EncryptionState) (slot : Slot)
    (value : Bytes) : Except String Bytes :=
  if isEncryptedValue crypto value then
    decrypt crypto state slot.place value
  else
    .ok value

/-- Reading a value back. Table rows live in hashes that bypass decryption; list
elements and stream fields fall back to the stored bytes when they do not open. -/
def readSlot (crypto : Crypto) (state : EncryptionState) (slot : Slot) (value : Bytes) :
    Except String Bytes :=
  match slot with
  | .kv _ => decryptSlotValue crypto state slot value
  | .hash key _ =>
    if isTableStorageKey key then .ok value else decryptSlotValue crypto state slot value
  | .listElement | .stream _ _ =>
    match decryptSlotValue crypto state slot value with
    | .ok opened => .ok opened
    | .error _ => .ok value

end Lux
