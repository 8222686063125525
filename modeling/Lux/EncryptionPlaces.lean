import Lux.Encryption

/-!
# An envelope opens only at its place

Under ideal authenticated encryption whatever opens was sealed, so an envelope
can open elsewhere only if another place gives the same associated data. The
associated data joins table, field and row with zero bytes: it names the place
exactly when none of the three contains one (`opensOnlyWhereSealed_iff`).

Values written without encryption share their slots with envelopes, and readers
tell the two apart by the first bytes. `readSlot_eq_iff` says which plain values
survive that.
-/

namespace Lux

open ByteCodec IdealAead List

/-! ## Reading envelopes back -/

/-- The field lengths an envelope is written with. -/
structure ParsedEnvelope.Fits (parsed : ParsedEnvelope) : Prop where
  writer_length : parsed.writerKeyId.length ≤ 255
  writer_utf8 : utf8Valid parsed.writerKeyId
  wrap_count : parsed.wraps.length ≤ 255
  wraps : ∀ wrap ∈ parsed.wraps, wrap.keyId.length ≤ 255 ∧ utf8Valid wrap.keyId ∧
    wrap.nonce.length = nonceLen ∧ wrap.wrappedDataKey.length = wrappedDataKeyLen
  nonce_length : parsed.valueNonce.length = nonceLen

private theorem toNat_ofNat {n : Nat} (h : n ≤ 255) : (UInt8.ofNat n).toNat = n := by
  simp only [UInt8.toNat_ofNat']
  omega

theorem parseKeyWrap_write {wrap : KeyWrap} (hid : wrap.keyId.length ≤ 255)
    (hutf8 : utf8Valid wrap.keyId) (hnonce : wrap.nonce.length = nonceLen)
    (hwrapped : wrap.wrappedDataKey.length = wrappedDataKeyLen) (rest : Bytes) :
    parseKeyWrap (writeKeyWrap wrap ++ rest) = .ok (wrap, rest) := by
  have hlong : ¬ (wrap.keyId ++ (wrap.nonce ++ (wrap.wrappedDataKey ++ rest))).length <
      wrap.keyId.length + nonceLen + wrappedDataKeyLen := by
    simp only [length_append, hnonce]
    omega
  simp only [writeKeyWrap, cons_append, append_assoc, parseKeyWrap,
    toNat_ofNat hid, hlong, if_false, take_left, hutf8, if_true, drop_left]
  rw [← hnonce, drop_left, take_left, ← hwrapped, take_left, drop_left]

theorem parseKeyWraps_write {wraps : List KeyWrap}
    (h : ∀ wrap ∈ wraps, wrap.keyId.length ≤ 255 ∧ utf8Valid wrap.keyId ∧
      wrap.nonce.length = nonceLen ∧ wrap.wrappedDataKey.length = wrappedDataKeyLen)
    (rest : Bytes) :
    parseKeyWraps wraps.length (wraps.flatMap writeKeyWrap ++ rest) = .ok (wraps, rest) := by
  induction wraps with
  | nil => rfl
  | cons wrap wraps ih =>
    obtain ⟨hid, hutf8, hnonce, hwrapped⟩ := h wrap mem_cons_self
    have hhead := parseKeyWrap_write hid hutf8 hnonce hwrapped (wraps.flatMap writeKeyWrap ++ rest)
    have htail := ih (fun w hw => h w (mem_cons_of_mem _ hw))
    simp only [flatMap_cons, append_assoc, length_cons, parseKeyWraps, hhead, htail]

/-- **The parser inverts the writer.** -/
theorem parseEnvelope_write {parsed : ParsedEnvelope} (h : parsed.Fits) :
    parseEnvelope (writeEnvelope parsed) = .ok parsed := by
  have hmagic : envelopeMagic.isPrefixOf (writeEnvelope parsed) = true := by
    simp [writeEnvelope]
  have hwraps := parseKeyWraps_write h.wraps (parsed.valueNonce ++ parsed.ciphertext)
  have hlong : ¬ (parsed.writerKeyId ++ UInt8.ofNat parsed.wraps.length ::
      (parsed.wraps.flatMap writeKeyWrap ++ (parsed.valueNonce ++ parsed.ciphertext))).length <
        parsed.writerKeyId.length + 1 := by
    simp only [length_append, length_cons]
    omega
  have hnonce : ¬ (parsed.valueNonce ++ parsed.ciphertext).length < nonceLen := by
    simp only [length_append, h.nonce_length]
    omega
  rw [parseEnvelope, if_pos hmagic, writeEnvelope]
  simp only [append_assoc, toNat_ofNat h.writer_length, hlong, if_false, take_left,
    h.writer_utf8, if_true, drop_left, toNat_ofNat h.wrap_count, hwraps, hnonce]
  rw [← h.nonce_length, take_left, drop_left]

theorem parseKeyWraps_length {count : Nat} {input rest : Bytes} {wraps : List KeyWrap}
    (h : parseKeyWraps count input = .ok (wraps, rest)) : rest.length ≤ input.length := by
  induction count generalizing input wraps with
  | zero =>
    cases h
    exact le_rfl
  | succ count ih =>
    simp only [parseKeyWraps] at h
    cases hwrap : parseKeyWrap input with
    | error error => simp [hwrap] at h
    | ok pair =>
      obtain ⟨wrap, mid⟩ := pair
      have hmid : mid.length ≤ input.length := by
        cases input with
        | nil => cases hwrap
        | cons idLen input =>
          simp only [parseKeyWrap] at hwrap
          repeat' split at hwrap
          all_goals cases hwrap
          simp only [length_drop, length_cons]
          omega
      cases hrest : parseKeyWraps count mid with
      | error error => simp [hwrap, hrest] at h
      | ok pair =>
        simp only [hwrap, hrest] at h
        cases h
        exact (ih hrest).trans hmid

/-- What parses starts with the magic bytes and is longer than its ciphertext. -/
theorem parseEnvelope_length {envelope : Bytes} {parsed : ParsedEnvelope}
    (h : parseEnvelope envelope = .ok parsed) :
    envelopeMagic.isPrefixOf envelope = true ∧
      parsed.ciphertext.length < envelope.length := by
  unfold parseEnvelope at h
  split at h
  case isFalse => cases h
  rename_i hmagic
  refine ⟨hmagic, ?_⟩
  split at h
  · cases h
  rename_i writerLen input hinput
  have hlen := congrArg length hinput
  simp only [length_drop, length_cons] at hlen
  split at h
  · cases h
  split at h
  case isFalse => cases h
  split at h
  · cases h
  rename_i wrapCount rest hrest
  have hrestlen := congrArg length hrest
  simp only [length_drop, length_cons] at hrestlen
  split at h
  · cases h
  rename_i wraps tail hwraps
  have htail := parseKeyWraps_length hwraps
  split at h
  · cases h
  · cases h
    simp only [length_drop]
    omega

/-! ## Associated data -/

/-- No part of the place contains a zero byte. -/
def Place.NulFree (place : Place) : Prop :=
  0 ∉ place.table ∧ 0 ∉ place.field ∧ 0 ∉ place.pk

instance (place : Place) : Decidable place.NulFree :=
  inferInstanceAs (Decidable (_ ∧ _))

theorem aadWithWriter_eq (label : Bytes) (place : Place) (writer : Text) :
    aadWithWriter label place writer =
      sepJoin 0 [label, place.table, place.field, place.pk, writer] := by
  simp [aadWithWriter, sepJoin]

theorem keyId_bytes (id : KeyId) : id.1 ≠ [] ∧ id.1.length ≤ 255 ∧ id.1.all isKeyIdByte := by
  have hvalid := id.2
  unfold validateKeyId at hvalid
  repeat' split at hvalid
  all_goals cases hvalid
  rename_i hne hlen hbytes
  exact ⟨by simpa using hne, by omega, hbytes⟩

/-- The bytes of a key id are ASCII and not zero. -/
theorem keyId_byte {id : KeyId} {b : UInt8} (h : b ∈ id.1) : b < 0x80 ∧ b ≠ 0 := by
  have hbyte := all_eq_true.mp (keyId_bytes id).2.2 b h
  simp only [isKeyIdByte, Bool.or_eq_true, Bool.and_eq_true, beq_iff_eq,
    UInt8.le_iff_toNat_le, ← UInt8.toNat_inj] at hbyte
  simp only [UInt8.lt_iff_toNat_lt, ne_eq, ← UInt8.toNat_inj]
  simp at hbyte ⊢
  omega

theorem keyId_utf8 (id : KeyId) : utf8Valid id.1 :=
  utf8Valid_of_ascii fun _ hb => (keyId_byte hb).1

/-- The associated data of a place without zero bytes is that of no other place,
whatever writer id the other envelope claims. -/
theorem aadWithWriter_inj {label : Bytes} (hlabel : 0 ∉ label) {place place' : Place}
    (hplace : place.NulFree) {writer : KeyId} {writer' : Text}
    (h : aadWithWriter label place writer.1 = aadWithWriter label place' writer') :
    place = place' := by
  rw [aadWithWriter_eq, aadWithWriter_eq] at h
  have hfree : ∀ field ∈ [label, place.table, place.field, place.pk, writer.1],
      (0 : UInt8) ∉ field := by
    have hwriter : (0 : UInt8) ∉ writer.1 := fun hmem => (keyId_byte hmem).2 rfl
    simpa using ⟨hlabel, hplace.1, hplace.2.1, hplace.2.2, hwriter⟩
  have hfields : [label, place.table, place.field, place.pk, writer.1] =
      [label, place'.table, place'.field, place'.pk, writer'] :=
    sepJoin_inj rfl hfree h
  simp only [cons.injEq] at hfields
  obtain ⟨-, htable, hfield, hpk, -⟩ := hfields
  exact Place.ext htable hfield hpk

/-- A place with a zero byte shares its associated data with another place. -/
theorem exists_same_aad {place : Place} (h : ¬ place.NulFree) :
    ∃ place', place' ≠ place ∧ ∀ label writer,
      aadWithWriter label place' writer = aadWithWriter label place writer := by
  have hlonger (before after : Bytes) : before ≠ before ++ 0 :: after := by
    intro hsame
    have hlen := congrArg length hsame
    simp at hlen
  by_cases htable : 0 ∈ place.table
  · obtain ⟨before, after, hsplit⟩ := append_of_mem htable
    refine ⟨⟨before, after ++ 0 :: place.field, place.pk⟩, ?_, ?_⟩
    · intro hsame
      have := congrArg Place.table hsame
      rw [hsplit] at this
      exact hlonger before after this
    · simp [aadWithWriter, hsplit]
  by_cases hfield : 0 ∈ place.field
  · obtain ⟨before, after, hsplit⟩ := append_of_mem hfield
    refine ⟨⟨place.table ++ 0 :: before, after, place.pk⟩, ?_, ?_⟩
    · intro hsame
      exact hlonger place.table before (congrArg Place.table hsame).symm
    · simp [aadWithWriter, hsplit]
  have hpk : 0 ∈ place.pk := by
    by_contra hpk
    exact h ⟨htable, hfield, hpk⟩
  obtain ⟨before, after, hsplit⟩ := append_of_mem hpk
  refine ⟨⟨place.table, place.field ++ 0 :: before, after⟩, ?_, ?_⟩
  · intro hsame
    exact hlonger place.field before (congrArg Place.field hsame).symm
  · simp [aadWithWriter, hsplit]

/-- The two layers never share associated data. -/
theorem wrapAad_ne_valueAad (place place' : Place) (writer writer' : Text) :
    wrapAad place writer ≠ valueAad place' writer' := by
  intro h
  have hbyte := congrArg (fun aad => aad[4]?) h
  simp [wrapAad, valueAad, aadWithWriter, wrapAadLabel, valueAadLabel] at hbyte

/-! ## What an encryption seals -/

/-- The seal calls of one encryption. -/
def encryptCalls (crypto : Crypto) (state : EncryptionState) (random : EncryptRandom)
    (place : Place) (plaintext : Bytes) : List SealCall :=
  match state.activeKeyId with
  | none => []
  | some active =>
    ⟨random.dataKey.1, random.valueNonce.1, valueAad place active.1, plaintext⟩ ::
      state.keys.map fun (id, key) =>
        ⟨key.wrapKey crypto, (random.wrapNonce id).1, wrapAad place active.1,
          random.dataKey.1⟩

/-- The rings share an entry, so the second one still holds a wrapping key. -/
def EncryptionState.SharesKey (state ring : EncryptionState) : Prop :=
  ∃ entry ∈ state.keys, ring.find entry.1.1 = some entry.2

section Sealed

variable {crypto : Crypto} {state : EncryptionState} {random : EncryptRandom}
  {place : Place} {plaintext envelope : Bytes}

/-- What a successful encryption wrote. -/
theorem encrypt_ok (h : encrypt crypto state random place plaintext = .ok envelope) :
    ∃ active, state.activeKeyId = some active ∧ state.keys ≠ [] ∧
      state.keys.length ≤ 255 ∧
      envelope = writeEnvelope ⟨active.1, keyWraps crypto state random place active,
        random.valueNonce.1, crypto.aead.sealBytes random.dataKey.1 random.valueNonce.1
          (valueAad place active.1) plaintext⟩ := by
  unfold encrypt at h
  split at h
  · cases h
  rename_i active hactive
  split at h
  · cases h
  rename_i hne
  dsimp only at h
  split at h
  · cases h
  rename_i hcount
  injection h with h
  refine ⟨active, hactive, by simpa using hne, ?_, h.symm⟩
  simp only [keyWraps, length_map] at hcount
  omega

variable {active : KeyId} {opened : Bytes} {place' : Place} {ring : EncryptionState}

section Sound

variable (hactive : state.activeKeyId = some active)
  (hideal : Ideal crypto.aead (encryptCalls crypto state random place plaintext))
include hactive hideal

/-- Everything that opens under wrap data is the data key, sealed for the same
associated data. -/
theorem open_wrap {key nonce sealed : Bytes} {writer : Text}
    (h : crypto.aead.openBytes key nonce (wrapAad place' writer) sealed = some opened) :
    opened = random.dataKey.1 ∧ wrapAad place' writer = wrapAad place active.1 := by
  obtain ⟨hcall, -⟩ := (hideal.open_iff ..).mp h
  simp only [encryptCalls, hactive, mem_cons, SealCall.mk.injEq, mem_map] at hcall
  rcases hcall with ⟨-, -, haad, -⟩ | ⟨entry, -, -, -, haad, hopened⟩
  · exact absurd haad (wrapAad_ne_valueAad _ _ _ _)
  · exact ⟨hopened.symm, haad.symm⟩

theorem findDataKey_sound {writer : Text} {wraps : List KeyWrap} {dataKey : Bytes}
    (h : findDataKey crypto ring (wrapAad place' writer) wraps = some dataKey) :
    dataKey = random.dataKey.1 ∧ wrapAad place' writer = wrapAad place active.1 := by
  induction wraps with
  | nil => cases h
  | cons wrap wraps ih =>
    simp only [findDataKey] at h
    split at h
    · exact ih h
    split at h
    · exact ih h
    rename_i opened hopen
    split at h
    · obtain rfl := Option.some.inj h
      exact open_wrap hactive hideal hopen
    · exact ih h

/-- **Only what was sealed opens.**  Whatever bytes are decrypted, at whatever
place and with whatever ring, a success returns the sealed plaintext and proves
that the associated data is that of the sealing place. -/
theorem decrypt_sound {bytes : Bytes} (h : decrypt crypto ring place' bytes = .ok opened) :
    opened = plaintext ∧ ∃ writer, wrapAad place' writer = wrapAad place active.1 := by
  unfold decrypt at h
  split at h
  · cases h
  rename_i parsed hparsed
  split at h
  · cases h
  rename_i dataKey hfind
  split at h
  · cases h
  rename_i value hopen
  cases h
  obtain ⟨hkey, haad⟩ := findDataKey_sound hactive hideal hfind
  refine ⟨?_, parsed.writerKeyId, haad⟩
  obtain ⟨hcall, -⟩ := (hideal.open_iff ..).mp hopen
  simp only [encryptCalls, hactive, mem_cons, SealCall.mk.injEq, mem_map] at hcall
  rcases hcall with ⟨-, -, -, hvalue⟩ | ⟨entry, -, -, -, hother, -⟩
  · exact hvalue
  · exact absurd hother (wrapAad_ne_valueAad _ _ _ _)

end Sound

/-- A ring that opens one of the wraps finds the data key. -/
theorem findDataKey_isSome {aad : Bytes} {wraps : List KeyWrap} {wrap : KeyWrap}
    (hwrap : wrap ∈ wraps) {key : NetworkKey} (hkey : ring.find wrap.keyId = some key)
    (hopen : crypto.aead.openBytes (key.wrapKey crypto) wrap.nonce aad
      wrap.wrappedDataKey = some opened) (hlen : opened.length = dataKeyLen) :
    ∃ dataKey, findDataKey crypto ring aad wraps = some dataKey := by
  induction wraps with
  | nil => cases hwrap
  | cons first wraps ih =>
    simp only [findDataKey]
    rcases mem_cons.mp hwrap with rfl | hwrap
    · exact ⟨opened, by simp [hkey, hopen, hlen]⟩
    have hrest := ih hwrap
    split
    · exact hrest
    split
    · exact hrest
    · split
      · exact ⟨_, rfl⟩
      · exact hrest

section Ideal

variable (hideal : Ideal crypto.aead (encryptCalls crypto state random place plaintext))
include hideal

/-- The envelope that an encryption writes is parsed back. -/
theorem encrypt_fits (hcount : state.keys.length ≤ 255) (ciphertext : Bytes) :
    ParsedEnvelope.Fits ⟨active.1, keyWraps crypto state random place active,
      random.valueNonce.1, ciphertext⟩ where
  writer_length := (keyId_bytes active).2.1
  writer_utf8 := keyId_utf8 active
  wrap_count := by simpa [keyWraps] using hcount
  wraps := by
    intro wrap hwrap
    obtain ⟨⟨id, key⟩, -, rfl⟩ := mem_map.mp hwrap
    exact ⟨(keyId_bytes id).2.1, keyId_utf8 id, (random.wrapNonce id).2, by
      rw [hideal.seal_length, random.dataKey.2]
      rfl⟩
  nonce_length := random.valueNonce.2

/-- **What was sealed opens**, at every place with the same associated data and
with every ring that still holds one of the wrapping keys. -/
theorem decrypt_complete (h : encrypt crypto state random place plaintext = .ok envelope)
    (hshare : state.SharesKey ring)
    (hsame : ∀ label writer, aadWithWriter label place' writer = aadWithWriter label place writer) :
    decrypt crypto ring place' envelope = .ok plaintext := by
  obtain ⟨active, hactive, -, hcount, rfl⟩ := encrypt_ok h
  obtain ⟨⟨id, key⟩, hentry, hfind⟩ := hshare
  have hcalls : ⟨key.wrapKey crypto, (random.wrapNonce id).1, wrapAad place active.1,
      random.dataKey.1⟩ ∈ encryptCalls crypto state random place plaintext := by
    rw [encryptCalls, hactive]
    exact mem_cons_of_mem _ (mem_map_of_mem hentry)
  have hvalue : ⟨random.dataKey.1, random.valueNonce.1, valueAad place active.1, plaintext⟩ ∈
      encryptCalls crypto state random place plaintext := by
    rw [encryptCalls, hactive]
    exact mem_cons_self
  have hwrap : wrapAad place' active.1 = wrapAad place active.1 := hsame _ _
  have hvaad : valueAad place' active.1 = valueAad place active.1 := hsame _ _
  have hmem : (⟨id.1, (random.wrapNonce id).1, crypto.aead.sealBytes (key.wrapKey crypto)
      (random.wrapNonce id).1 (wrapAad place active.1) random.dataKey.1⟩ : KeyWrap) ∈
      keyWraps crypto state random place active :=
    mem_map.mpr ⟨(id, key), hentry, rfl⟩
  obtain ⟨dataKey, hdata⟩ :=
    findDataKey_isSome hmem hfind (hideal.open_seal hcalls) random.dataKey.2
  obtain ⟨rfl, -⟩ := findDataKey_sound hactive hideal hdata
  rw [decrypt, parseEnvelope_write (encrypt_fits hideal hcount _)]
  simp only [hwrap, hdata, hvaad, hideal.open_seal hvalue]

/-! ## The place and the slot -/

/-- **Place binding.**  With any ring that still holds a wrapping key the envelope
opens at its place to the plaintext, and nothing at all opens elsewhere or to
anything else. -/
def OpensOnlyWhereSealed (crypto : Crypto) (state : EncryptionState) (place : Place)
    (plaintext envelope : Bytes) : Prop :=
  (∀ ring, state.SharesKey ring → decrypt crypto ring place envelope = .ok plaintext) ∧
  ∀ ring place' bytes opened, decrypt crypto ring place' bytes = .ok opened →
    place' = place ∧ opened = plaintext

omit hideal in
/-- A ring that has encrypted shares a key with itself. -/
theorem EncryptionState.sharesKey_self (hne : state.keys ≠ []) : state.SharesKey state := by
  obtain ⟨entry, rest, hkeys⟩ := exists_cons_of_ne_nil hne
  exact ⟨entry, by simp [hkeys], by simp [EncryptionState.find, hkeys]⟩

theorem opensOnlyWhereSealed_iff_nulFree
    (h : encrypt crypto state random place plaintext = .ok envelope) :
    OpensOnlyWhereSealed crypto state place plaintext envelope ↔ place.NulFree := by
  obtain ⟨active, hactive, hne, -, -⟩ := encrypt_ok h
  constructor
  · intro hbound
    by_contra hnul
    obtain ⟨place', hother, hsame⟩ := exists_same_aad hnul
    have hopen := decrypt_complete hideal h (EncryptionState.sharesKey_self hne) hsame
    exact hother (hbound.2 _ _ _ _ hopen).1
  · intro hfree
    refine ⟨fun ring hshare => decrypt_complete hideal h hshare fun _ _ => rfl, ?_⟩
    intro ring place' bytes opened hopen
    obtain ⟨rfl, writer, haad⟩ := decrypt_sound hactive hideal hopen
    exact ⟨(aadWithWriter_inj (by decide) hfree haad.symm).symm, rfl⟩

/-- What opens is shorter than the bytes it was opened from. -/
theorem decrypt_length {bytes : Bytes} (h : decrypt crypto ring place' bytes = .ok opened) :
    envelopeMagic.isPrefixOf bytes = true ∧ opened.length < bytes.length := by
  unfold decrypt at h
  split at h
  · cases h
  rename_i parsed hparsed
  obtain ⟨hmagic, hlen⟩ := parseEnvelope_length hparsed
  refine ⟨hmagic, ?_⟩
  split at h
  · cases h
  split at h
  · cases h
  rename_i value hopen
  cases h
  obtain ⟨-, hsealed⟩ := (hideal.open_iff ..).mp hopen
  rw [hsealed, hideal.seal_length] at hlen
  omega

/-- The plain values that a slot returns as they were written. -/
def Slot.PassesThrough (crypto : Crypto) (ring : EncryptionState) (value : Bytes) : Slot → Prop
  | .kv _ => isEncryptedValue crypto value = false
  | .hash key _ => isTableStorageKey key = true ∨ isEncryptedValue crypto value = false
  | .listElement =>
    ∀ opened, decrypt crypto ring Slot.listElement.place value ≠ .ok opened
  | .stream key field =>
    ∀ opened, decrypt crypto ring (Slot.stream key field).place value ≠ .ok opened

variable (ring : EncryptionState) (slot : Slot) (value : Bytes)

private theorem decryptSlotValue_eq_iff :
    decryptSlotValue crypto ring slot value = .ok value ↔
      isEncryptedValue crypto value = false := by
  unfold decryptSlotValue
  cases hrecognised : isEncryptedValue crypto value with
  | false => simp
  | true =>
    simp only [Bool.true_eq_false, iff_false]
    intro hopen
    exact absurd (decrypt_length hideal hopen).2 (lt_irrefl _)

/-- **Plain values that survive.**  A slot returns a plain value unchanged if and
only if the value passes through it. -/
theorem readSlot_eq_iff :
    readSlot crypto ring slot value = .ok value ↔ slot.PassesThrough crypto ring value := by
  -- A list element or a stream field falls back to the stored bytes.
  have hfallback (slot : Slot)
      (hok : ∀ opened, decryptSlotValue crypto ring slot value = .ok opened →
        readSlot crypto ring slot value = .ok opened)
      (herror : ∀ error, decryptSlotValue crypto ring slot value = .error error →
        readSlot crypto ring slot value = .ok value) :
      readSlot crypto ring slot value = .ok value ↔
      ∀ opened, decrypt crypto ring slot.place value ≠ .ok opened := by
    constructor
    · intro hread opened hopen
      obtain ⟨hmagic, hlen⟩ := decrypt_length hideal hopen
      have hslot : decryptSlotValue crypto ring slot value = .ok opened := by
        simp only [decryptSlotValue, isEncryptedValue, hmagic, Bool.true_or, if_true, hopen]
      rw [hok opened hslot] at hread
      obtain rfl := Except.ok.inj hread
      exact lt_irrefl _ hlen
    · intro hclosed
      cases hslot : decryptSlotValue crypto ring slot value with
      | error error => exact herror error hslot
      | ok opened =>
        rw [hok opened hslot]
        unfold decryptSlotValue at hslot
        split at hslot
        · exact absurd hslot (hclosed opened)
        · exact hslot.symm
  cases slot with
  | kv key => exact decryptSlotValue_eq_iff hideal ring _ value
  | hash key field =>
    cases htable : isTableStorageKey key with
    | true => simp [readSlot, Slot.PassesThrough, htable]
    | false =>
      simp only [readSlot, Slot.PassesThrough, htable, Bool.false_eq_true, false_or]
      exact decryptSlotValue_eq_iff hideal ring _ value
  | listElement =>
    exact hfallback .listElement (fun _ h => by simp only [readSlot, h])
      (fun _ h => by simp only [readSlot, h])
  | stream key field =>
    exact hfallback (.stream key field) (fun _ h => by simp only [readSlot, h])
      (fun _ h => by simp only [readSlot, h])

end Ideal

/-- **Envelopes and plain values keep to their places.**  For every encryption
that succeeds and every plain value in every slot: the envelope is bound to its
place and the plain value is read back, if and only if the place has no zero
byte and the plain value passes through its slot. -/
theorem opensOnlyWhereSealed_iff
    (h : encrypt crypto state random place plaintext = .ok envelope)
    (hideal : Ideal crypto.aead (encryptCalls crypto state random place plaintext))
    (ring : EncryptionState) (slot : Slot) (value : Bytes) :
    OpensOnlyWhereSealed crypto state place plaintext envelope ∧
        readSlot crypto ring slot value = .ok value ↔
      place.NulFree ∧ slot.PassesThrough crypto ring value :=
  and_congr (opensOnlyWhereSealed_iff_nulFree hideal h) (readSlot_eq_iff hideal ring slot value)

end Sealed

/-! ## One ring, two places -/

/-- A ring with the single key `k1`. -/
def oneKeyRing : EncryptionState where
  activeKeyId := some ⟨ascii "k1", by decide⟩
  keys := [(⟨ascii "k1", by decide⟩, ⟨[1], false⟩)]
  sorted := List.pairwise_singleton _ _

def fixedRandom : EncryptRandom where
  dataKey := ⟨List.replicate 32 7, rfl⟩
  valueNonce := ⟨List.replicate 12 8, rfl⟩
  wrapNonce _ := ⟨List.replicate 12 9, rfl⟩

/-- An ideal cipher that has sealed one value at one place. -/
def oneValueCrypto (place : Place) (plaintext : Bytes) : Crypto where
  aead := ledger [
    ⟨List.replicate 32 7, List.replicate 12 8, valueAad place (ascii "k1"), plaintext⟩,
    ⟨[1], List.replicate 12 9, wrapAad place (ascii "k1"), List.replicate 32 7⟩]
  deriveKey secret _ := secret
  decodeSealed _ := none

/-- The envelope of that value. -/
def oneEnvelope (place : Place) (plaintext : Bytes) : Bytes :=
  writeEnvelope ⟨ascii "k1", keyWraps (oneValueCrypto place plaintext) oneKeyRing fixedRandom
    place ⟨ascii "k1", by decide⟩, List.replicate 12 8, plaintext ++ ledgerTag⟩

/-- The encrypted key `k`, and a plain neighbour. -/
theorem opensOnlyWhereSealed_kv :
    let place := (Slot.kv (ascii "k")).place
    let crypto := oneValueCrypto place (ascii "secret")
    OpensOnlyWhereSealed crypto oneKeyRing place (ascii "secret")
        (oneEnvelope place (ascii "secret")) ∧
      readSlot crypto oneKeyRing (.kv (ascii "n")) (ascii "plain") = .ok (ascii "plain") :=
  (opensOnlyWhereSealed_iff rfl (ledger_ideal _) oneKeyRing
    (.kv (ascii "n")) (ascii "plain")).mpr ⟨by decide, rfl⟩

/-- **Two fields, one place.**  The envelope of field `f\0x` of the hash `k` opens
in field `f` of the hash `x\0k`, and a plain value that starts like an envelope
cannot be read back. -/
theorem opens_elsewhere_hash :
    let place := (Slot.hash (ascii "k") (ascii "f" ++ 0 :: ascii "x")).place
    let other := (Slot.hash (ascii "x" ++ 0 :: ascii "k") (ascii "f")).place
    let crypto := oneValueCrypto place (ascii "secret")
    encrypt crypto oneKeyRing fixedRandom place (ascii "secret") =
        .ok (oneEnvelope place (ascii "secret")) ∧
      decrypt crypto oneKeyRing other (oneEnvelope place (ascii "secret")) = .ok (ascii "secret") ∧
      ¬ OpensOnlyWhereSealed crypto oneKeyRing place (ascii "secret")
        (oneEnvelope place (ascii "secret")) ∧
      readSlot crypto oneKeyRing (.kv (ascii "n")) (ascii "LUXENC2 is a magic word") =
        .error "ERR encrypted value is truncated" := by
  intro place other crypto
  have hopen : decrypt crypto oneKeyRing other (oneEnvelope place (ascii "secret")) =
      .ok (ascii "secret") := by decide
  have hdiffer : other ≠ place := by decide
  refine ⟨rfl, hopen, fun hbound => ?_, by decide⟩
  exact hdiffer (hbound.2 _ _ _ _ hopen).1

end Lux
