import Lux.FrameScan

/-!
# The frame formats of the write-ahead log

A frame carries one payload. Three formats exist: bare frames, frames with a
checksum (`LXW1`, `LXW2`), and the current guarded frames (`LXW3`), which repeat
their length as its complement. A reader that meets the end of the file inside
a guarded frame answers `none`; inside an older frame it answers `none` only
when the four length bytes are incomplete.

`readGuarded_header` is the whole behaviour of the reader after a complete
guarded frame header; every later fact about guarded frames follows from it.
-/

namespace Lux

open ByteCodec List

def walMagicV1 : Bytes := [0x4c, 0x58, 0x57, 0x31]
def walMagicV2 : Bytes := [0x4c, 0x58, 0x57, 0x32]
def walMagic : Bytes := [0x4c, 0x58, 0x57, 0x33]
def walFrameMagic : Bytes := [0x4c, 0x58, 0x46, 0x31]
def walGenerationLen : Nat := 16
def maxWalFrameBytes : Nat := 512 * 1024 * 1024

/-! ## Checksum -/

/-- One bit of a table entry. -/
def crc32Bit (crc : UInt32) : UInt32 :=
  if crc &&& 1 != 0 then (crc >>> 1) ^^^ 0xEDB88320 else crc >>> 1

/-- The table entry for a byte: eight bit steps. -/
def crc32Entry (i : UInt32) : UInt32 :=
  crc32Bit (crc32Bit (crc32Bit (crc32Bit (crc32Bit (crc32Bit (crc32Bit (crc32Bit i)))))))

def crc32 (data : Bytes) : UInt32 :=
  data.foldl (fun crc b => crc32Entry ((crc ^^^ b.toUInt32) &&& 0xFF) ^^^ (crc >>> 8))
    0xFFFFFFFF ^^^ 0xFFFFFFFF

/-- A 32-bit number printed as `{:#010x}`. -/
def hex010 (n : Nat) : String :=
  "0x" ++ String.ofList ((Nat.toDigits 16 n).leftpad 8 '0')

def checksumMismatch (stored computed : Nat) : IoError :=
  ⟨.invalidData, "WAL frame checksum mismatch (stored=" ++ hex010 stored ++
    " computed=" ++ hex010 computed ++ ")"⟩

/-! ## Writing frames -/

inductive WalFrameFormat where
  | legacy
  | checksummed
  | guarded
  deriving DecidableEq, Repr

/-- The bitwise complement of a 32-bit number. -/
def complementU32 (n : Nat) : Nat := 2 ^ 32 - 1 - n

/-- The sixteen bytes of a guarded frame before its payload. -/
def guardedHeader (payload : Bytes) : Bytes :=
  let frameLen := payload.length % 2 ^ 32
  walFrameMagic ++ leBytes 4 frameLen ++ leBytes 4 (complementU32 frameLen) ++
    leBytes 4 (crc32 (leBytes 4 frameLen ++ payload)).toNat

def encodeGuardedPayload (payload : Bytes) : Bytes :=
  guardedHeader payload ++ payload

/-- A payload as a frame of the given format. -/
def encodePayload (format : WalFrameFormat) (payload : Bytes) : Bytes :=
  match format with
  | .guarded => encodeGuardedPayload payload
  | .checksummed =>
    leBytes 4 (4 + payload.length) ++ leBytes 4 (crc32 payload).toNat ++ payload
  | .legacy => leBytes 4 payload.length ++ payload

/-! ## Reading frames -/

/-- Continue after a read, or report a torn frame when the file ended in it. -/
def orTorn {α β : Type} (result : IoResult α) (next : α → IoResult (Option β)) :
    IoResult (Option β) :=
  match result with
  | .ok value => next value
  | .error error =>
    if error.kind = .unexpectedEof then .ok none else .error error

/-- A guarded frame: the end of the file inside it is a torn write. -/
def readGuardedFrame (input : Bytes) : IoResult (Option (Bytes × Bytes)) :=
  orTorn (readExact 4 input) fun (magic, input) =>
  if magic ≠ walFrameMagic then
    .error ⟨.invalidData, "WAL frame boundary marker is corrupt"⟩
  else
    orTorn (readU32 input) fun (frameLen, input) =>
    orTorn (readU32 input) fun (complement, input) =>
    orTorn (readU32 input) fun (storedCrc, input) =>
    if complement ≠ complementU32 frameLen then
      .error ⟨.invalidData, "WAL frame length guard is corrupt"⟩
    else if maxWalFrameBytes < frameLen then
      .error ⟨.invalidData, "WAL frame length exceeds maximum"⟩
    else if input.length < frameLen then
      .ok none
    else
      let payload := input.take frameLen
      let computedCrc := (crc32 (leBytes 4 frameLen ++ payload)).toNat
      if storedCrc ≠ computedCrc then
        .error (checksumMismatch storedCrc computedCrc)
      else
        .ok (some (payload, input.drop frameLen))

/-- A frame of one of the older formats. -/
def readOlderFrame (format : WalFrameFormat) (input : Bytes) :
    IoResult (Option (Bytes × Bytes)) :=
  orTorn (readU32 input) fun (frameLen, input) =>
  if maxWalFrameBytes < frameLen then
    .error ⟨.invalidData, "WAL frame length exceeds maximum"⟩
  else if input.length < frameLen then
    .error ⟨.invalidData, "legacy WAL ends inside a frame"⟩
  else
    let frame := input.take frameLen
    let rest := input.drop frameLen
    if format = .legacy then
      .ok (some (frame, rest))
    else if frame.length < 4 then
      .error ⟨.invalidData, "WAL frame is too short for its checksum"⟩
    else
      let storedCrc := ofLeBytes (frame.take 4)
      let payload := frame.drop 4
      let computedCrc := (crc32 payload).toNat
      if storedCrc ≠ computedCrc then
        .error (checksumMismatch storedCrc computedCrc)
      else
        .ok (some (payload, rest))

/-- The next frame of the file from the current position, as its payload and
the bytes after it. `none` stands for a frame the file ends inside of. -/
def readNextFramePayload (format : WalFrameFormat) :
    FrameScan.Reader Bytes := fun input =>
  if input.isEmpty then
    .ok none
  else
    match format with
    | .guarded => readGuardedFrame input
    | _ => readOlderFrame format input

theorem readNextFramePayload_nil (format : WalFrameFormat) :
    readNextFramePayload format [] = .ok none := rfl

theorem readNextFramePayload_guarded {input : Bytes} (hne : input ≠ []) :
    readNextFramePayload .guarded input = readGuardedFrame input := by
  simp [readNextFramePayload, hne]

variable {format : WalFrameFormat}

theorem readNextFramePayload_older (hformat : format ≠ .guarded) {input : Bytes}
    (hne : input ≠ []) :
    readNextFramePayload format input = readOlderFrame format input := by
  cases format with
  | guarded => exact absurd rfl hformat
  | checksummed | legacy => simp [readNextFramePayload, hne]

@[simp] theorem orTorn_ok {α β : Type} (value : α) (next : α → IoResult (Option β)) :
    orTorn (.ok value) next = next value := rfl

@[simp] theorem orTorn_eof {α β : Type} (message : String) (next : α → IoResult (Option β)) :
    orTorn (.error ⟨.unexpectedEof, message⟩) next = .ok none := rfl

theorem orTorn_some {α β : Type} {result : IoResult α} {next : α → IoResult (Option β)}
    {value : β} (h : orTorn result next = .ok (some value)) :
    ∃ a, result = .ok a ∧ next a = .ok (some value) := by
  cases result with
  | ok a => exact ⟨a, rfl, h⟩
  | error error =>
    simp only [orTorn] at h
    split at h <;> cases h

theorem guardedHeader_length (payload : Bytes) : (guardedHeader payload).length = 16 := by
  simp [guardedHeader, walFrameMagic]

private theorem crc32_mod (data : Bytes) : (crc32 data).toNat % 2 ^ 32 = (crc32 data).toNat :=
  Nat.mod_eq_of_lt (crc32 data).toNat_lt

private theorem complementU32_mod (n : Nat) : complementU32 n % 2 ^ 32 = complementU32 n :=
  Nat.mod_eq_of_lt (by unfold complementU32; omega)

/-- **Behind a complete guarded header.**  The announced length decides between
an oversized frame, a torn one and a complete one, whose checksum is then
compared with the one the header carries. -/
theorem readGuarded_header (payload body : Bytes) :
    readNextFramePayload .guarded (guardedHeader payload ++ body) =
      let frameLen := payload.length % 2 ^ 32
      let stored := (crc32 (leBytes 4 frameLen ++ payload)).toNat
      let computed := (crc32 (leBytes 4 frameLen ++ body.take frameLen)).toNat
      if maxWalFrameBytes < frameLen then
        .error ⟨.invalidData, "WAL frame length exceeds maximum"⟩
      else if body.length < frameLen then
        .ok none
      else if stored ≠ computed then
        .error (checksumMismatch stored computed)
      else
        .ok (some (body.take frameLen, body.drop frameLen)) := by
  have hne : guardedHeader payload ++ body ≠ [] := by simp [guardedHeader, walFrameMagic]
  have hmagic (rest : Bytes) : readExact 4 (walFrameMagic ++ rest) = .ok (walFrameMagic, rest) :=
    readExact_append (show walFrameMagic.length = 4 from rfl) rest
  rw [readNextFramePayload_guarded hne, readGuardedFrame]
  simp only [guardedHeader, append_assoc, hmagic, readU32_append, orTorn_ok,
    crc32_mod, complementU32_mod, Nat.mod_mod, ne_eq, not_true_eq_false, if_false]

/-- A cut inside a guarded header leaves a torn frame. -/
theorem readGuarded_short (payload : Bytes) {m : Nat} (hm : m < 16) :
    readNextFramePayload .guarded ((encodeGuardedPayload payload).take m) = .ok none := by
  by_cases hzero : m = 0
  · simp [hzero, readNextFramePayload_nil]
  have hne : (encodeGuardedPayload payload).take m ≠ [] := by
    simp [encodeGuardedPayload, guardedHeader, walFrameMagic, hzero]
  rw [readNextFramePayload_guarded hne, readGuardedFrame]
  simp only [encodeGuardedPayload, guardedHeader, append_assoc,
    readExact_take (show walFrameMagic.length = 4 from rfl)]
  -- The cut falls in one of the four header fields.
  by_cases h4 : 4 ≤ m
  · simp only [h4, if_true, orTorn_ok, ne_eq, not_true_eq_false, readU32_take]
    by_cases h8 : 4 ≤ m - 4
    · simp only [h8, if_true, orTorn_ok, readU32_take]
      by_cases h12 : 4 ≤ m - 4 - 4
      · have h16 : ¬ 4 ≤ m - 4 - 4 - 4 := by omega
        simp only [h12, if_true, orTorn_ok, readU32_take, h16, if_false, orTorn_eof]
      · simp [h12]
    · simp [h8]
  · simp [h4]

variable {payload : Bytes}

private theorem length_mod_of_fits (hfit : payload.length ≤ maxWalFrameBytes) :
    payload.length % 2 ^ 32 = payload.length := by
  unfold maxWalFrameBytes at hfit
  omega

/-- A complete guarded frame is read back in front of any further bytes. -/
theorem readGuarded_frame (hfit : payload.length ≤ maxWalFrameBytes) (rest : Bytes) :
    readNextFramePayload .guarded (encodeGuardedPayload payload ++ rest) =
      .ok (some (payload, rest)) := by
  have hmax : ¬ maxWalFrameBytes < payload.length := by omega
  rw [encodeGuardedPayload, append_assoc, readGuarded_header, length_mod_of_fits hfit]
  simp [hmax]

/-! ## The older frames -/

/-- The body of an older frame: what its length counts. -/
def olderBody (format : WalFrameFormat) (payload : Bytes) : Bytes :=
  match format with
  | .checksummed => leBytes 4 (crc32 payload).toNat ++ payload
  | _ => payload

theorem length_le_olderBody (format : WalFrameFormat) (payload : Bytes) :
    payload.length ≤ (olderBody format payload).length := by
  cases format <;> simp [olderBody]

theorem encodePayload_older (hformat : format ≠ .guarded) (payload : Bytes) :
    encodePayload format payload =
      leBytes 4 (olderBody format payload).length ++ olderBody format payload := by
  cases format with
  | guarded => exact absurd rfl hformat
  | checksummed | legacy => simp [encodePayload, olderBody]

/-- What the reader makes of an older frame once its length is read. -/
private theorem readOlderFrame_body (hfit : (olderBody format payload).length ≤ maxWalFrameBytes)
    {rest : Bytes} (hformat : format ≠ .guarded) :
    readOlderFrame format (leBytes 4 (olderBody format payload).length ++
      (olderBody format payload ++ rest)) = .ok (some (payload, rest)) := by
  have hmod := length_mod_of_fits hfit
  have hmax : ¬ maxWalFrameBytes < (olderBody format payload).length := by omega
  have hlong : ¬ (olderBody format payload ++ rest).length <
      (olderBody format payload).length := by simp
  have hcrc : ofLeBytes (leBytes 4 (crc32 payload).toNat) = (crc32 payload).toNat := by
    rw [ofLeBytes_leBytes]
    exact Nat.mod_eq_of_lt (crc32 payload).toNat_lt
  rw [readOlderFrame, readU32_append, hmod]
  simp only [orTorn_ok, hmax, hlong, take_left, drop_left]
  cases format with
  | guarded => exact absurd rfl hformat
  | checksummed => simp [olderBody, hcrc]
  | legacy => simp [olderBody]

/-- A complete older frame is read back in front of any further bytes. -/
theorem readOlder_frame (hformat : format ≠ .guarded)
    (hfit : (olderBody format payload).length ≤ maxWalFrameBytes) (rest : Bytes) :
    readNextFramePayload format (encodePayload format payload ++ rest) =
      .ok (some (payload, rest)) := by
  rw [encodePayload_older hformat, append_assoc,
    readNextFramePayload_older hformat (by simp [leBytes]), readOlderFrame_body hfit hformat]

/-- **The short length prefix.**  An older frame cut inside its four length
bytes is taken for a torn tail. -/
theorem readOlder_short (hformat : format ≠ .guarded) (payload : Bytes) {m : Nat} (hm : m < 4) :
    readNextFramePayload format ((encodePayload format payload).take m) = .ok none := by
  by_cases hzero : m = 0
  · simp [hzero, readNextFramePayload_nil]
  have hshort : ¬ 4 ≤ m := by omega
  rw [encodePayload_older hformat,
    readNextFramePayload_older hformat (by simp [leBytes, hzero]), readOlderFrame,
    readU32_take, if_neg hshort, orTorn_eof]

/-- An older frame cut behind its length bytes is rejected. -/
theorem readOlder_cut (hformat : format ≠ .guarded)
    (hfit : (olderBody format payload).length ≤ maxWalFrameBytes) {m : Nat} (hfour : 4 ≤ m)
    (hm : m < (encodePayload format payload).length) :
    readNextFramePayload format ((encodePayload format payload).take m) =
      .error ⟨.invalidData, "legacy WAL ends inside a frame"⟩ := by
  have hmod := length_mod_of_fits hfit
  have hmax : ¬ maxWalFrameBytes < (olderBody format payload).length := by omega
  have hpos : m ≠ 0 := by omega
  rw [encodePayload_older hformat] at hm ⊢
  have hshort : ((olderBody format payload).take (m - 4)).length <
      (olderBody format payload).length := by
    simp only [length_append, leBytes_length] at hm
    rw [length_take]
    omega
  rw [readNextFramePayload_older hformat (by simp [leBytes, hpos]), readOlderFrame,
    readU32_take, if_pos hfour, orTorn_ok]
  simp only [hmod, hmax, hshort, if_true, if_false]

/-- Every returned frame consumed at least its four length bytes. -/
theorem readNextFramePayload_consumes (format : WalFrameFormat) :
    FrameScan.Consumes (readNextFramePayload format) := by
  intro input payload rest hread
  have hne : input ≠ [] := by
    rintro rfl
    cases hread
  by_cases hformat : format = .guarded
  · subst hformat
    rw [readNextFramePayload_guarded hne] at hread
    obtain ⟨⟨magic, input1⟩, hmagic, hlen⟩ := orTorn_some hread
    dsimp only at hlen
    split at hlen
    · cases hlen
    obtain ⟨⟨frameLen, input2⟩, h1, hcomplement⟩ := orTorn_some hlen
    obtain ⟨⟨complement, input3⟩, h2, hcrc⟩ := orTorn_some hcomplement
    obtain ⟨⟨stored, input4⟩, h3, hbody⟩ := orTorn_some hcrc
    have hrest : rest = input4.drop frameLen := by
      repeat' split at hbody
      all_goals cases hbody
      rfl
    obtain ⟨rfl, hfour⟩ := readExact_ok hmagic
    obtain ⟨raw1, rfl, -, -⟩ := readU32_ok h1
    obtain ⟨raw2, rfl, -, -⟩ := readU32_ok h2
    obtain ⟨raw3, rfl, -, -⟩ := readU32_ok h3
    simp only [hrest, length_append, length_drop]
    omega
  rw [readNextFramePayload_older hformat hne] at hread
  obtain ⟨⟨frameLen, input1⟩, hlen, hbody⟩ := orTorn_some hread
  have hrest : rest = input1.drop frameLen := by
    dsimp only at hbody
    repeat' split at hbody
    all_goals cases hbody
    all_goals rfl
  obtain ⟨raw, rfl, hraw, -⟩ := readU32_ok hlen
  simp only [hrest, length_append, length_drop]
  omega

end Lux
