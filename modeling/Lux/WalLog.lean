import Lux.Wal

/-!
# What a log holds

A log is its header followed by the frames of a list of payloads. `Wal.Holds`
is that relation. It starts with any file that opens and replays
(`holds_of_replay`), an append extends the list, and a replay from the header or
from a frame boundary returns the commands of the payloads behind it.

Everything here is for all three frame formats at once.
-/

namespace Lux

open ByteCodec FrameScan List

/-! ## Payloads -/

/-- The reader takes a frame of the payload, and the decoder takes the payload. -/
structure Readable (format : WalFrameFormat) (payload : Bytes) : Prop where
  fits : (olderBody format payload).length ≤ maxWalFrameBytes
  decodes : (decodeWalPayload payload).isOk = true

/-- The commands of a payload; none if it does not decode. -/
def payloadCommands (payload : Bytes) : List Command :=
  match decodeWalPayload payload with
  | .ok (commands, _) => commands
  | .error _ => []

/-- The bytes of a list of payloads in one format. -/
def framesOf (format : WalFrameFormat) (payloads : List Bytes) : Bytes :=
  payloads.flatMap (encodePayload format)

variable (format : WalFrameFormat)

@[simp] theorem framesOf_nil : framesOf format [] = [] := rfl

@[simp] theorem framesOf_append (first second : List Bytes) :
    framesOf format (first ++ second) = framesOf format first ++ framesOf format second := by
  simp [framesOf]

theorem framesOf_cons (payload : Bytes) (payloads : List Bytes) :
    framesOf format (payload :: payloads) =
      encodePayload format payload ++ framesOf format payloads := rfl

theorem four_le_encodePayload (payload : Bytes) :
    4 ≤ (encodePayload format payload).length := by
  cases format with
  | guarded =>
    rw [encodePayload, encodeGuardedPayload, length_append, guardedHeader_length]
    omega
  | checksummed | legacy => simp [encodePayload]

theorem encodePayload_ne_nil (payload : Bytes) :
    encodePayload format payload ≠ [] := by
  intro h
  have hlen := four_le_encodePayload format payload
  rw [h] at hlen
  simp at hlen

variable {format} {payload : Bytes}

/-- A frame with a legal length is read back in front of any further bytes. -/
theorem readNextFramePayload_frame (hfit : (olderBody format payload).length ≤ maxWalFrameBytes)
    (rest : Bytes) :
    readNextFramePayload format (encodePayload format payload ++ rest) =
      .ok (some (payload, rest)) := by
  by_cases hformat : format = .guarded
  · subst hformat
    exact readGuarded_frame hfit rest
  · exact readOlder_frame hformat hfit rest

theorem decodes_payloadCommands (h : (decodeWalPayload payload).isOk = true) :
    ∃ checked, decodeWalPayload payload = .ok (payloadCommands payload, checked) := by
  cases hdecode : decodeWalPayload payload with
  | error error =>
    rw [hdecode] at h
    cases h
  | ok decoded =>
    refine ⟨decoded.2, ?_⟩
    simp [payloadCommands, hdecode]

/-! ## Scanning -/

/-- Readable payloads are folded into the commands. -/
theorem scan_readable {payloads : List Bytes} (h : ∀ payload ∈ payloads, Readable format payload)
    (fileLen : Nat) (rest : Bytes) (replay : WalReplay) :
    ∃ next, scan (readNextFramePayload format) (Wal.replayStep fileLen)
        (framesOf format payloads ++ rest) replay =
      scan (readNextFramePayload format) (Wal.replayStep fileLen) rest next ∧
      next.commands = replay.commands ++ payloads.flatMap payloadCommands := by
  induction payloads generalizing replay with
  | nil => exact ⟨replay, rfl, by simp⟩
  | cons payload payloads ih =>
    have hhead := h payload mem_cons_self
    obtain ⟨checked, hdecode⟩ := decodes_payloadCommands hhead.decodes
    have hread := readNextFramePayload_frame hhead.fits (framesOf format payloads ++ rest)
    obtain ⟨mid, hstep, hmid⟩ := Wal.replayStep_ok hdecode fileLen replay
      (encodePayload format payload ++ (framesOf format payloads ++ rest))
    obtain ⟨next, htail, hnext⟩ := ih (fun p hp => h p (mem_cons_of_mem _ hp)) mid
    refine ⟨next, ?_, ?_⟩
    · rw [framesOf_cons, append_assoc,
        scan_frame (readNextFramePayload_consumes format) hread hstep, htail]
    · rw [hnext, hmid, flatMap_cons, append_assoc]

variable {input rest : Bytes}

/-- A guarded frame that is read is the frame that would be written. -/
private theorem readGuardedFrame_ok
    (h : readGuardedFrame input = .ok (some (payload, rest))) :
    input = encodeGuardedPayload payload ++ rest ∧ payload.length ≤ maxWalFrameBytes := by
  obtain ⟨⟨magic, input1⟩, hmagic, hbehindMagic⟩ := orTorn_some h
  dsimp only at hbehindMagic
  split at hbehindMagic
  · cases hbehindMagic
  rename_i hmarker
  obtain ⟨⟨frameLen, input2⟩, hlen, hbehindLen⟩ := orTorn_some hbehindMagic
  obtain ⟨⟨complement, input3⟩, hcomplement, hbehindGuard⟩ := orTorn_some hbehindLen
  obtain ⟨⟨stored, input4⟩, hcrc, hbody⟩ := orTorn_some hbehindGuard
  split at hbody
  · cases hbody
  split at hbody
  · cases hbody
  split at hbody
  · cases hbody
  split at hbody
  · cases hbody
  rename_i hguard hmax hlong hsum
  obtain ⟨rfl, -⟩ := readExact_ok hmagic
  obtain ⟨rawLen, rfl, hrawLen, rfl⟩ := readU32_ok hlen
  obtain ⟨rawComplement, rfl, hrawComplement, rfl⟩ := readU32_ok hcomplement
  obtain ⟨rawCrc, rfl, hrawCrc, rfl⟩ := readU32_ok hcrc
  injection hbody with hbody
  injection hbody with hbody
  injection hbody with hpayload hrest
  have hpayloadLen : payload.length = ofLeBytes rawLen := by
    rw [← hpayload, length_take]
    omega
  have hlt : ofLeBytes rawLen < 2 ^ 32 := by
    have := ofLeBytes_lt rawLen
    rw [hrawLen] at this
    simpa using this
  refine ⟨?_, by omega⟩
  rw [encodeGuardedPayload, guardedHeader, hpayloadLen, Nat.mod_eq_of_lt hlt,
    leBytes_ofLeBytes hrawLen, ← not_not.mp hguard, leBytes_ofLeBytes hrawComplement,
    ← hpayload, ← hrest]
  rw [← not_not.mp hmarker]
  have hstored := not_not.mp hsum
  rw [leBytes_ofLeBytes hrawLen] at hstored
  rw [← hstored, leBytes_ofLeBytes hrawCrc]
  simp

private theorem readOlderFrame_ok (hformat : format ≠ .guarded)
    (h : readOlderFrame format input = .ok (some (payload, rest))) :
    input = encodePayload format payload ++ rest ∧
      (olderBody format payload).length ≤ maxWalFrameBytes := by
  obtain ⟨⟨frameLen, body⟩, hlen, hbody⟩ := orTorn_some h
  obtain ⟨rawLen, hinput, hrawLen, hvalue⟩ := readU32_ok hlen
  dsimp only at hbody
  split at hbody
  · cases hbody
  split at hbody
  · cases hbody
  have htaken : (body.take frameLen).length = frameLen := by
    rw [length_take]
    omega
  -- Both formats come down to the body that the length counts.
  have hframe : body.take frameLen = olderBody format payload ∧
      rest = body.drop frameLen := by
    cases format with
    | guarded => exact absurd rfl hformat
    | legacy =>
      injection hbody with hbody
      injection hbody with hbody
      injection hbody with hpayload hrest
      exact ⟨hpayload, hrest.symm⟩
    | checksummed =>
      simp only [reduceCtorEq, if_false] at hbody
      split at hbody
      · cases hbody
      split at hbody
      · cases hbody
      rename_i hfour hsum
      injection hbody with hbody
      injection hbody with hbody
      injection hbody with hpayload hrest
      have hraw : ((body.take frameLen).take 4).length = 4 := by
        rw [length_take]
        omega
      refine ⟨?_, hrest.symm⟩
      rw [olderBody, ← hpayload, ← not_not.mp hsum, leBytes_ofLeBytes hraw, take_append_drop]
  obtain ⟨hframe, hrest⟩ := hframe
  have hbodyLen : (olderBody format payload).length = frameLen := by rw [← hframe, htaken]
  refine ⟨?_, by omega⟩
  rw [encodePayload_older hformat, hbodyLen, hvalue, leBytes_ofLeBytes hrawLen, ← hframe,
    hrest, hinput, append_assoc, take_append_drop]

/-- **A frame that is read is the frame that would be written** for its payload. -/
theorem readNextFramePayload_ok
    (h : readNextFramePayload format input = .ok (some (payload, rest))) :
    input = encodePayload format payload ++ rest ∧
      (olderBody format payload).length ≤ maxWalFrameBytes := by
  have hne : input ≠ [] := by
    rintro rfl
    cases h
  by_cases hformat : format = .guarded
  · subst hformat
    rw [readNextFramePayload_guarded hne] at h
    exact readGuardedFrame_ok h
  · rw [readNextFramePayload_older hformat hne] at h
    exact readOlderFrame_ok hformat h

/-- An older frame reads as torn only inside its four length bytes. -/
theorem readNextFramePayload_torn_older (hformat : format ≠ .guarded)
    (h : readNextFramePayload format input = .ok none) : input.length < 4 := by
  by_contra hlong
  have hne : input ≠ [] := by
    rintro rfl
    simp at hlong
  rw [readNextFramePayload_older hformat hne, readOlderFrame] at h
  have hread : readU32 input = .ok (ofLeBytes (input.take 4), input.drop 4) := by
    have hfour : 4 ≤ input.length := by omega
    simp [readU32, readExact, hfour]
  rw [hread, orTorn_ok] at h
  dsimp only at h
  repeat' split at h
  all_goals cases h

/-- **What a scan found.**  Everything in front of the torn bytes are frames of
readable payloads, and the commands are theirs. -/
theorem scan_ok {fileLen : Nat} {torn : Bytes} {replay next : WalReplay}
    (h : scan (readNextFramePayload format) (Wal.replayStep fileLen) input replay =
      .ok ⟨next, torn⟩) :
    ∃ payloads, input = framesOf format payloads ++ torn ∧
      (∀ payload ∈ payloads, Readable format payload) ∧
      next.commands = replay.commands ++ payloads.flatMap payloadCommands ∧
      (torn = [] ∨ readNextFramePayload format torn = .ok none) := by
  -- Induction on the length of what is still to be read.
  induction hlen : input.length using Nat.strong_induction_on generalizing input replay with
  | _ n ih =>
    by_cases hnil : input = []
    · rw [hnil] at h
      injection h with h
      injection h with hnext htorn
      exact ⟨[], by simp [hnil, ← htorn], by simp, by simp [hnext], .inl htorn.symm⟩
    cases hread : readNextFramePayload format input with
    | error error =>
      rw [scan_read_error hnil hread] at h
      cases h
    | ok answer =>
      cases answer with
      | none =>
        rw [scan_torn hnil hread] at h
        cases h
        exact ⟨[], by simp, by simp, by simp, .inr hread⟩
      | some pair =>
        obtain ⟨payload, rest⟩ := pair
        obtain ⟨hinput, hfits⟩ := readNextFramePayload_ok hread
        cases hdecode : decodeWalPayload payload with
        | error error =>
          rw [scan_step_error hnil hread (Wal.replayStep_error hdecode fileLen replay input)] at h
          cases h
        | ok decoded =>
          obtain ⟨commands, checked⟩ := decoded
          obtain ⟨mid, hstep, hmid⟩ :=
            Wal.replayStep_ok hdecode fileLen replay input
          have hless := readNextFramePayload_consumes format input payload rest hread
          rw [scan_frame (readNextFramePayload_consumes format) hread hstep] at h
          obtain ⟨payloads, hrest, hall, hcommands, htorn⟩ :=
            ih rest.length (by omega) h rfl
          have hown : payloadCommands payload = commands := by
            simp [payloadCommands, hdecode]
          refine ⟨payload :: payloads, ?_, ?_, ?_, htorn⟩
          · rw [hinput, hrest, framesOf_cons, append_assoc]
          · intro other hother
            rcases mem_cons.mp hother with rfl | hother
            · exact ⟨hfits, by rw [hdecode]; rfl⟩
            · exact hall other hother
          · rw [hcommands, hmid, flatMap_cons, hown, append_assoc]

/-! ## Opening -/

namespace Wal

theorem readGeneration_ok {context : String} {input rest : Bytes} {generation : Generation}
    (h : readGeneration context input = .ok (generation, rest)) :
    input = generation.1 ++ rest := by
  unfold readGeneration at h
  cases hread : readExact walGenerationLen input with
  | error error =>
    rw [hread] at h
    cases h
  | ok pair =>
    rw [hread] at h
    dsimp only [describe] at h
    split at h
    · injection h with h
      injection h with hgeneration hrest
      rw [← hgeneration, ← hrest]
      exact (readExact_ok hread).1
    · cases h

variable {fresh : Generation} {create : Bool} {file : Bytes}

/-- **The head of a file decides how it is opened.**  The head is the header, or
the first four bytes of a file without one. -/
theorem openIn_head (hne : file ≠ [])
    {wal : Wal} (h : openIn file create fresh = .ok wal) :
    wal.file = file ∧
      (4 ≤ wal.headerLen ∨ wal.headerLen = 0 ∧ wal.frameFormat ≠ .guarded) ∧
      ∃ head tail, file = head ++ tail ∧ head.length = max 4 wal.headerLen ∧
        ∀ other create fresh, openIn (head ++ other) create fresh =
          .ok { wal with file := head ++ other } := by
  have hempty : file.isEmpty = false := by simpa using hne
  rw [openIn, hempty] at h
  simp only [Bool.false_eq_true, if_false] at h
  cases hmagic : readExact 4 file with
  | error error =>
    rw [hmagic] at h
    cases h
  | ok pair =>
    obtain ⟨magic, rest⟩ := pair
    obtain ⟨hfile, hfour⟩ := readExact_ok hmagic
    simp only [hmagic] at h
    by_cases h3 : magic = walMagic
    · subst h3
      simp only [if_true] at h
      cases hgeneration : readGeneration "truncated LXW3 WAL header" rest with
      | error error =>
        rw [hgeneration] at h
        cases h
      | ok pair =>
        obtain ⟨generation, rest2⟩ := pair
        cases hcrc : readU32 rest2 with
        | error error =>
          simp only [hgeneration, hcrc] at h
          cases h
        | ok pair =>
          obtain ⟨stored, tail⟩ := pair
          simp only [hgeneration, hcrc, describe] at h
          split at h
          · cases h
          rename_i hsum
          cases h
          have hrest := readGeneration_ok hgeneration
          obtain ⟨raw, hrest2, hraw, hstored⟩ := readU32_ok hcrc
          have hvalue : ofLeBytes raw = (walHeaderCrc generation).toNat := by
            rw [← hstored]
            exact not_not.mp hsum
          have hbytes : walMagic ++ generation.1 ++ raw = walHeaderBytes generation := by
            rw [walHeaderBytes, ← hvalue, leBytes_ofLeBytes hraw]
          refine ⟨rfl, .inl (show 4 ≤ walHeaderLen by decide), walHeaderBytes generation,
            tail, ?_, ?_, ?_⟩
          · rw [hfile, hrest, hrest2, ← hbytes]
            simp
          · rw [walHeaderBytes_length]
            rfl
          · exact openIn_guarded generation
    by_cases h2 : magic = walMagicV2
    · subst h2
      cases hgeneration : readGeneration "truncated LXW2 WAL header" rest with
      | error error =>
        rw [hgeneration] at h
        cases h
      | ok pair =>
        obtain ⟨generation, tail⟩ := pair
        simp only [hgeneration] at h
        cases h
        refine ⟨rfl, .inl (show 4 ≤ walHeaderV2Len by decide),
          walMagicV2 ++ generation.1, tail, ?_, ?_, openIn_lxw2 generation⟩
        · rw [hfile, readGeneration_ok hgeneration, append_assoc]
        · rw [length_append, generation.2]
          rfl
    by_cases h1 : magic = walMagicV1
    · subst h1
      cases h
      exact ⟨rfl, .inl (show 4 ≤ walMagicV1.length by decide), walMagicV1, rest, hfile, rfl,
        openIn_lxw1⟩
    simp only [h3, h2, h1] at h
    cases h
    exact ⟨rfl, .inr ⟨rfl, by simp⟩, magic, rest, hfile, by rw [hfour]; rfl,
      openIn_bare hfour h3 h2 h1⟩

/-- **What a log holds.**  The file is its header followed by the frames of the
payloads, and it is opened as this log again, also with more bytes behind it. -/
structure Holds (wal : Wal) (payloads : List Bytes) : Prop where
  header : wal.headerLen ≤ wal.file.length
  frames : wal.file.drop wal.headerLen = framesOf wal.frameFormat payloads
  opens : ∀ more create fresh,
    openIn (wal.file ++ more) create fresh = .ok (wal.appendEncodedFrames more)

namespace Holds

variable {wal : Wal} {payloads : List Bytes} (h : wal.Holds payloads)
include h

theorem reopens (create : Bool) (fresh : Generation) : openIn wal.file create fresh = .ok wal := by
  have hopen := h.opens [] create fresh
  rw [append_nil] at hopen
  rw [hopen, appendEncodedFrames, append_nil]

theorem file_ne_nil : wal.file ≠ [] := by
  intro hnil
  have hopen := h.reopens false legacyWalGeneration
  rw [hnil] at hopen
  cases hopen

theorem file_eq : wal.file = wal.file.take wal.headerLen ++ framesOf wal.frameFormat payloads := by
  rw [← h.frames, take_append_drop]

theorem header_length : (wal.file.take wal.headerLen).length = wal.headerLen := by
  rw [length_take]
  have hheader := h.header
  omega

/-- An append adds the payload to what the log holds. -/
theorem append (more : List Bytes) :
    (wal.appendEncodedFrames (framesOf wal.frameFormat more)).Holds (payloads ++ more) where
  header := by
    have hheader := h.header
    simp only [appendEncodedFrames, length_append]
    omega
  frames := by
    have hdrop : (wal.file ++ framesOf wal.frameFormat more).drop wal.headerLen =
        wal.file.drop wal.headerLen ++ framesOf wal.frameFormat more :=
      drop_append_of_le_length h.header
    rw [h.frames] at hdrop
    rw [framesOf_append]
    exact hdrop
  opens := by
    intro other create fresh
    have hopen := h.opens (framesOf wal.frameFormat more ++ other) create fresh
    simp only [appendEncodedFrames, append_assoc] at hopen ⊢
    exact hopen

end Holds

/-- A file of a current header and guarded frames. -/
theorem holds_guarded (generation : Generation) (payloads : List Bytes) :
    (⟨walHeaderBytes generation ++ framesOf .guarded payloads, .guarded, walHeaderLen,
      generation⟩ : Wal).Holds payloads where
  header := by
    dsimp only
    rw [length_append, walHeaderBytes_length]
    omega
  frames := drop_left' (walHeaderBytes_length generation)
  opens := by
    intro more create fresh
    have hopen := openIn_guarded generation (framesOf .guarded payloads ++ more) create fresh
    rw [← append_assoc] at hopen
    exact hopen

/-- What a scan of an opened file leaves in front of its torn bytes is a log
that holds the payloads the scan found. -/
private theorem holds_of_scan (hne : file ≠ [])
    {wal : Wal} (hopen : openIn file create fresh = .ok wal)
    {payloads : List Bytes} {torn : Bytes}
    (hbody : wal.file.drop wal.headerLen = framesOf wal.frameFormat payloads ++ torn)
    (htorn : torn = [] ∨ readNextFramePayload wal.frameFormat torn = .ok none) :
    wal.file = (wal.file.take wal.headerLen ++ framesOf wal.frameFormat payloads) ++ torn ∧
      Holds { wal with
        file := wal.file.take wal.headerLen ++ framesOf wal.frameFormat payloads } payloads := by
  obtain ⟨hfile, hformat, head, tail, hsplit, hhead, hhow⟩ := openIn_head hne hopen
  set kept := wal.file.take wal.headerLen ++ framesOf wal.frameFormat payloads with hkept
  have hwhole : wal.file = kept ++ torn := by
    rw [hkept, append_assoc, ← hbody, take_append_drop]
  have hheader : (wal.file.take wal.headerLen).length = wal.headerLen := by
    rw [length_take, hfile, hsplit, length_append]
    omega
  -- The head of the file is in front of the torn bytes.
  have hlen : head.length ≤ kept.length := by
    rw [hkept, length_append, hhead]
    rcases hformat with hlong | ⟨hzero, holder⟩
    · omega
    cases payloads with
    | cons payload payloads =>
      have hfour := four_le_encodePayload wal.frameFormat payload
      rw [framesOf_cons, length_append]
      omega
    | nil =>
      have hlen := congrArg length hbody
      have hlong : head.length ≤ wal.file.length := by
        rw [hfile, hsplit, length_append]
        omega
      simp only [framesOf_nil, nil_append, length_drop] at hlen
      rcases htorn with rfl | htorn
      · simp only [length_nil] at hlen
        omega
      · have hshort := readNextFramePayload_torn_older holder htorn
        omega
  obtain ⟨rest, hrest⟩ : head <+: kept := by
    have hpre : head <+: wal.file := ⟨tail, by rw [hfile, hsplit]⟩
    exact prefix_of_prefix_length_le hpre ⟨torn, hwhole.symm⟩ hlen
  refine ⟨hwhole, ?_, drop_left' hheader, ?_⟩
  · dsimp only
    omega
  · intro more create fresh
    have hagain := hhow (rest ++ more) create fresh
    rw [← append_assoc, hrest] at hagain
    exact hagain

/-- **After a replay.**  Whatever file was opened, once it has been replayed the
log holds readable payloads, and the commands returned are theirs. -/
theorem holds_of_replay {wal after : Wal}
    {replay : WalReplay} (hopen : openIn file create fresh = .ok wal)
    (hreplay : wal.replayFrom none = (.ok replay, after)) :
    ∃ payloads, after.Holds payloads ∧
      (∀ payload ∈ payloads, Readable after.frameFormat payload) ∧
      replay.commands = payloads.flatMap payloadCommands := by
  -- An empty file becomes a new log, whose file opens the same way.
  obtain ⟨file, hne, hopen⟩ : ∃ file, file ≠ [] ∧ openIn file create fresh = .ok wal := by
    by_cases hnil : file = []
    · cases create with
      | false =>
        rw [hnil] at hopen
        cases hopen
      | true =>
        rw [hnil] at hopen
        cases hopen
        refine ⟨walHeaderBytes fresh, by simp [walHeaderBytes, walMagic], ?_⟩
        have hreopen := (holds_guarded fresh []).reopens true fresh
        simp only [framesOf_nil, append_nil] at hreopen
        exact hreopen
    · exact ⟨file, hnil, hopen⟩
  obtain ⟨hfile, -, head, tail, hsplit, hhead, -⟩ := openIn_head hne hopen
  have hheader : (wal.file.take wal.headerLen).length = wal.headerLen := by
    rw [length_take, hfile, hsplit, length_append]
    omega
  rw [replayFrom_none (take_append_drop wal.headerLen wal.file).symm hheader
    (by rw [hfile]; exact hne)] at hreplay
  cases hscan : wal.replayScan (wal.file.drop wal.headerLen) ⟨[], none⟩ with
  | error error =>
    rw [hscan] at hreplay
    cases hreplay
  | ok outcome =>
    obtain ⟨payloads, hbody, hread, hcommands, htorn⟩ := scan_ok hscan
    obtain ⟨hwhole, hholds⟩ := holds_of_scan hne hopen hbody htorn
    rw [hscan] at hreplay
    dsimp only at hreplay
    split at hreplay
    · rename_i hempty
      cases hreplay
      rw [isEmpty_iff.mp hempty, append_nil] at hwhole
      rw [← hwhole] at hholds
      exact ⟨payloads, hholds, hread, hcommands⟩
    · injection hreplay with hreplay hafter
      injection hreplay with hreplay
      rw [rollbackTo_tail hwhole] at hafter
      subst hafter hreplay
      exact ⟨payloads, hholds, hread, hcommands⟩

/-! ## Replaying from a frame boundary -/

/-- Where the frame of the `k`-th payload starts. -/
def boundary (wal : Wal) (payloads : List Bytes) (k : Nat) : Nat :=
  wal.headerLen + (framesOf wal.frameFormat (payloads.take k)).length

theorem boundary_zero (wal : Wal) (payloads : List Bytes) :
    wal.boundary payloads 0 = wal.headerLen := rfl

theorem boundary_succ (wal : Wal) {payloads : List Bytes} {k : Nat} (hk : k < payloads.length) :
    wal.boundary payloads (k + 1) =
      wal.boundary payloads k + (encodePayload wal.frameFormat payloads[k]).length := by
  rw [boundary, boundary, take_add_one, getElem?_eq_getElem hk, framesOf_append]
  simp [framesOf]
  omega

namespace Holds

variable {wal : Wal} {payloads : List Bytes} (h : wal.Holds payloads)
include h

theorem length_eq :
    wal.file.length = wal.headerLen + (framesOf wal.frameFormat payloads).length := by
  have hlen := congrArg length h.file_eq
  rw [length_append, h.header_length] at hlen
  exact hlen

theorem boundary_le (k : Nat) : wal.boundary payloads k ≤ wal.file.length := by
  have hsplit : (framesOf wal.frameFormat payloads).length =
      (framesOf wal.frameFormat (payloads.take k)).length +
        (framesOf wal.frameFormat (payloads.drop k)).length := by
    rw [← length_append, ← framesOf_append, take_append_drop]
  rw [h.length_eq, boundary]
  omega

/-- Behind a boundary are the frames of the remaining payloads. -/
theorem drop_boundary (k : Nat) :
    wal.file.drop (wal.boundary payloads k) = framesOf wal.frameFormat (payloads.drop k) := by
  have hsplit : framesOf wal.frameFormat payloads =
      framesOf wal.frameFormat (payloads.take k) ++
        framesOf wal.frameFormat (payloads.drop k) := by
    rw [← framesOf_append, take_append_drop]
  rw [boundary, ← drop_drop, h.frames, hsplit]
  exact drop_left

/-- Walking the frames from one boundary to another. -/
theorem validateFrames_boundary {k : Nat} (hk : k ≤ payloads.length)
    (hfits : ∀ payload ∈ payloads.take k,
      (olderBody wal.frameFormat payload).length ≤ maxWalFrameBytes) :
    ∀ {i fuel : Nat}, i ≤ k → k - i ≤ fuel →
      wal.validateFrames (wal.boundary payloads k) fuel (wal.boundary payloads i) = .ok () := by
  intro i fuel
  induction fuel generalizing i with
  | zero => exact fun _ _ => rfl
  | succ fuel ih =>
    intro hik hfuel
    by_cases hend : i = k
    · rw [hend, validateFrames, if_neg (Nat.lt_irrefl _)]
    have hi : i < payloads.length := by omega
    have hstep := wal.boundary_succ hi
    have hmono : wal.boundary payloads (i + 1) ≤ wal.boundary payloads k := by
      have hprefix : payloads.take (i + 1) <+: payloads.take k :=
        take_prefix_take_left (by omega)
      obtain ⟨rest, hrest⟩ := hprefix
      rw [boundary, boundary, ← hrest, framesOf_append, length_append]
      omega
    have hfour := four_le_encodePayload wal.frameFormat payloads[i]
    have hmem : payloads[i] ∈ payloads.take k :=
      mem_take_iff_getElem.mpr ⟨i, by omega, rfl⟩
    have hread := readNextFramePayload_frame (hfits _ hmem)
      (framesOf wal.frameFormat (payloads.drop (i + 1)))
    have hdrop : wal.file.drop (wal.boundary payloads i) =
        encodePayload wal.frameFormat payloads[i] ++
          framesOf wal.frameFormat (payloads.drop (i + 1)) := by
      rw [h.drop_boundary, drop_eq_getElem_cons hi, framesOf_cons]
    have hposition : wal.file.length -
        (framesOf wal.frameFormat (payloads.drop (i + 1))).length =
          wal.boundary payloads (i + 1) := by
      rw [← h.drop_boundary, length_drop]
      have hle := h.boundary_le (i + 1)
      omega
    rw [validateFrames, if_pos (by omega), hdrop, hread]
    dsimp only
    rw [hposition, if_neg (by omega)]
    exact ih (by omega) (by omega)

/-- A boundary behind frames with legal lengths is a valid checkpoint offset. -/
theorem validateCheckpointOffset_boundary {k : Nat} (hk : k ≤ payloads.length)
    (hfits : ∀ payload ∈ payloads.take k,
      (olderBody wal.frameFormat payload).length ≤ maxWalFrameBytes) :
    wal.validateCheckpointOffset (wal.boundary payloads k) = .ok () := by
  have hle := h.boundary_le k
  have hheader : wal.headerLen ≤ wal.boundary payloads k := Nat.le_add_right _ _
  have hfuel : k ≤ wal.file.length := by
    have hcount : ∀ l : List Bytes, l.length ≤ (framesOf wal.frameFormat l).length := by
      intro l
      induction l with
      | nil => simp
      | cons payload l ih =>
        have hfour := four_le_encodePayload wal.frameFormat payload
        rw [framesOf_cons, length_append, length_cons]
        omega
    have hall := hcount payloads
    have hlen := h.length_eq
    omega
  rw [validateCheckpointOffset, if_neg (by omega)]
  exact h.validateFrames_boundary hk hfits (Nat.zero_le k) (by omega)

/-- **A replay from a boundary** returns the commands of the payloads behind it
and leaves the log alone. -/
theorem replayFrom_boundary {k : Nat}
    (hread : ∀ payload ∈ payloads.drop k, Readable wal.frameFormat payload)
    {checkpoint : Option WalCheckpoint}
    (hoffset : wal.replayOffset checkpoint = .ok (wal.boundary payloads k)) :
    ∃ replay, wal.replayFrom checkpoint = (.ok replay, wal) ∧
      replay.commands = (payloads.drop k).flatMap payloadCommands := by
  obtain ⟨replay, hscan, hcommands⟩ := scan_readable hread wal.file.length [] ⟨[], none⟩
  rw [append_nil, scan_nil] at hscan
  refine ⟨replay, ?_, by rw [hcommands, nil_append]⟩
  have hempty : wal.file.isEmpty = false := by simpa using h.file_ne_nil
  rw [replayFrom, hempty, hoffset]
  simp only [Bool.false_eq_true, if_false, h.drop_boundary, replayScan, hscan, isEmpty_nil, if_true]

end Holds

theorem file_of_replay_error {wal after : Wal} {error : IoError}
    (hopen : openIn file create fresh = .ok wal)
    (hreplay : wal.replayFrom none = (.error error, after)) : after.file = file := by
  rw [replayFrom_error_unchanged hreplay]
  by_cases hnil : file = []
  · -- The log that is created for an empty file is replayed without an error.
    subst hnil
    cases create <;> cases hopen
    cases (newWal_replay fresh).symm.trans hreplay
  · exact (openIn_head hnil hopen).1

/-- **Recovery can be repeated.**  Whatever bytes a crash left: a recovery that fails leaves them as
they are, and after one that succeeds every other returns the same commands and changes nothing. -/
theorem recover_repeatable (file : Bytes) (create : Bool) (fresh : Generation) :
    match recover file create fresh with
    | (.error _, left) => left = file
    | (.ok replay, left) => ∀ create fresh, ∃ again,
        recover left create fresh = (.ok again, left) ∧ again.commands = replay.commands := by
  cases hopen : openIn file create fresh with
  | error error => simp only [recover, hopen]
  | ok wal =>
    rcases hreplay : wal.replayFrom none with ⟨error | replay, after⟩
    · simp only [recover, hopen, hreplay]
      exact file_of_replay_error hopen hreplay
    · obtain ⟨payloads, hholds, hread, hcommands⟩ := holds_of_replay hopen hreplay
      obtain ⟨again, hagain, hsame⟩ := @Holds.replayFrom_boundary after payloads hholds 0 hread
        none rfl
      simp only [recover, hopen, hreplay, hholds.reopens, hagain]
      exact fun _ _ => ⟨again, rfl, hsame.trans hcommands.symm⟩

end Wal

end Lux
