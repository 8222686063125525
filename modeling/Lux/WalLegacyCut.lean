import Lux.WalLog

/-!
# Cutting a log of an older format

The older formats cannot prove that a missing suffix was never acknowledged, so
a cut inside such a log has to be rejected. The reader rejects it once the four
length bytes of the cut frame are complete. Inside those bytes it reports a
torn frame instead, as it does for the current format, and the replay removes
what is left of the frame and succeeds.

`rejectsCut_iff` lists every cut that is not on a frame boundary and is accepted
nevertheless: one to three bytes of a frame behind an intact start of the file,
and the cut to nothing of a file with a header when a new log may be created.
-/

namespace Lux

open ByteCodec FrameScan List Wal

/-- The three headers a log of an older format can have. -/
inductive LegacyHeader where
  | bare
  | lxw1
  | lxw2 (generation : Generation)
  deriving DecidableEq, Repr

namespace LegacyHeader

def bytes : LegacyHeader → Bytes
  | bare => []
  | lxw1 => walMagicV1
  | lxw2 generation => walMagicV2 ++ generation.1

def format : LegacyHeader → WalFrameFormat
  | bare => .legacy
  | lxw1 => .checksummed
  | lxw2 _ => .checksummed

def generation : LegacyHeader → Generation
  | bare => legacyWalGeneration
  | lxw1 => legacyWalGeneration
  | lxw2 generation => generation

theorem format_ne_guarded (header : LegacyHeader) : header.format ≠ .guarded := by
  cases header <;> simp [format]

end LegacyHeader

open LegacyHeader

/-- A log of an older format: every frame has a legal length and decodes. -/
structure LegacyJournal where
  header : LegacyHeader
  payloads : List Bytes
  fits : ∀ payload ∈ payloads, (olderBody header.format payload).length ≤ maxWalFrameBytes
  decodes : ∀ payload ∈ payloads, ∃ decoded, decodeWalPayload payload = .ok decoded

namespace LegacyJournal

variable (journal : LegacyJournal)

def frames : Bytes :=
  journal.payloads.flatMap (encodePayload journal.header.format)

def file : Bytes := journal.header.bytes ++ journal.frames

/-- The cut falls behind the header and between two frames. -/
def OnBoundary (cut : Nat) : Prop :=
  ∃ k ≤ journal.payloads.length, cut = journal.header.bytes.length +
    ((journal.payloads.take k).flatMap (encodePayload journal.header.format)).length

instance (cut : Nat) : Decidable (journal.OnBoundary cut) := by
  unfold OnBoundary
  infer_instance

/-- What the cut leaves of the frame it falls in. -/
def tornBytes (cut : Nat) : Bytes :=
  tornTail (encodePayload journal.header.format) journal.payloads
    (cut - journal.header.bytes.length)

/-- Opening and replaying the cut file fails and leaves the file as it is. -/
def RejectsCut (cut : Nat) (create : Bool) (fresh : Generation) : Prop :=
  ∃ error, Wal.recover (journal.file.take cut) create fresh =
    (.error error, journal.file.take cut)

/-- The cuts that recovery notices. -/
def Noticed (cut : Nat) (create : Bool) : Prop :=
  if cut < journal.header.bytes.length then
    0 < cut ∨ create = false
  else
    cut < 4 ∨ 4 ≤ (journal.tornBytes cut).length

instance (cut : Nat) (create : Bool) : Decidable (journal.Noticed cut create) := by
  unfold Noticed
  infer_instance

/-! ## Opening -/

/-- The log that opening the journal's file gives, with the given frame bytes. -/
def opened (body : Bytes) : Wal :=
  ⟨journal.header.bytes ++ body, journal.header.format, journal.header.bytes.length,
    journal.header.generation⟩

/-- The first four bytes of a bare log are a legal frame length, which is no
magic number. -/
private theorem length_bytes_not_magic {n : Nat} (hn : n ≤ maxWalFrameBytes) :
    leBytes 4 n ≠ walMagic ∧ leBytes 4 n ≠ walMagicV2 ∧ leBytes 4 n ≠ walMagicV1 := by
  have hvalue : ofLeBytes (leBytes 4 n) = n := by
    rw [ofLeBytes_leBytes]
    unfold maxWalFrameBytes at hn
    omega
  have hmax : maxWalFrameBytes = 536870912 := by decide
  refine ⟨?_, ?_, ?_⟩
  all_goals
    intro h
    rw [h] at hvalue
    simp [ofLeBytes, walMagic, walMagicV2, walMagicV1] at hvalue
    omega

/-- A file of one to three bytes is not opened. -/
theorem openIn_tiny {file : Bytes} (hne : file ≠ []) (hlen : file.length < 4)
    (create : Bool) (fresh : Generation) :
    ∃ error, openIn file create fresh = .error error := by
  have hempty : file.isEmpty = false := by simpa using hne
  refine ⟨⟨.unexpectedEof, "failed to fill whole buffer"⟩, ?_⟩
  rw [openIn, hempty, readExact_short hlen]
  rfl

/-- A cut inside the generation of an `LXW2` header is not opened. -/
theorem openIn_lxw2_short {raw : Bytes} (hlen : raw.length < walGenerationLen)
    (create : Bool) (fresh : Generation) :
    ∃ error, openIn (walMagicV2 ++ raw) create fresh = .error error := by
  have hne : (walMagicV2 ++ raw).isEmpty = false := by simp [walMagicV2]
  have h3 : walMagicV2 ≠ walMagic := by decide
  have hgeneration : ∃ error, readGeneration "truncated LXW2 WAL header" raw = .error error :=
    ⟨_, by rw [readGeneration, readExact_short hlen]; rfl⟩
  obtain ⟨error, herror⟩ := hgeneration
  refine ⟨error, ?_⟩
  rw [openIn, hne, readExact_append (show walMagicV2.length = 4 from rfl)]
  simp only [h3, herror, if_true, if_false, Bool.false_eq_true]

theorem recover_of_openIn_error {file : Bytes} {create : Bool} {fresh : Generation}
    (h : ∃ error, openIn file create fresh = .error error) :
    ∃ error, recover file create fresh = (.error error, file) := by
  obtain ⟨error, herror⟩ := h
  exact ⟨error, by rw [recover, herror]⟩

/-! ## Cuts inside the header -/

/-- An empty file is initialized as a new log when it may be. -/
theorem rejectsCut_zero {create : Bool} {fresh : Generation} :
    journal.RejectsCut 0 create fresh ↔ create = false := by
  cases create with
  | false => simp [RejectsCut, recover, openIn]
  | true =>
    simp [RejectsCut, recover, openIn_empty, newWal_replay]

variable {cut : Nat}

theorem rejectsCut_in_header (hcut : cut < journal.header.bytes.length) (hpos : 0 < cut)
    (create : Bool) (fresh : Generation) : journal.RejectsCut cut create fresh := by
  have htake : journal.file.take cut = journal.header.bytes.take cut :=
    take_append_of_le_length (by omega)
  refine recover_of_openIn_error ?_
  rw [htake]
  by_cases hfour : cut < 4
  · refine openIn_tiny ?_ ?_ create fresh
    · intro h
      have hlen := congrArg length h
      simp only [length_take, length_nil] at hlen
      omega
    · rw [length_take]
      omega
  cases hheader : journal.header with
  | bare => simp [hheader, bytes] at hcut
  | lxw1 =>
    simp [hheader, bytes, walMagicV1] at hcut
    omega
  | lxw2 generation =>
    have hsplit : (lxw2 generation).bytes.take cut =
        walMagicV2 ++ generation.1.take (cut - 4) := by
      rw [bytes, take_append, take_of_length_le]
      · rfl
      · simp [walMagicV2]
        omega
    rw [hsplit]
    refine openIn_lxw2_short ?_ create fresh
    rw [hheader, bytes, length_append] at hcut
    have hmagic : walMagicV2.length = 4 := rfl
    rw [length_take]
    omega

/-! ## Cuts behind the header -/

theorem file_take (hcut : journal.header.bytes.length ≤ cut) :
    journal.file.take cut =
      journal.header.bytes ++ journal.frames.take (cut - journal.header.bytes.length) := by
  rw [file, take_append, take_of_length_le hcut]

/-- Behind the header, and behind four bytes, the cut file is still opened as
the journal it was. -/
theorem openIn_cut (hcut : journal.header.bytes.length ≤ cut) (hfour : 4 ≤ cut)
    (hne : journal.payloads ≠ []) (create : Bool) (fresh : Generation) :
    openIn (journal.file.take cut) create fresh =
      .ok (journal.opened (journal.frames.take (cut - journal.header.bytes.length))) := by
  rw [journal.file_take hcut]
  cases hheader : journal.header with
  | bare =>
    obtain ⟨payload, payloads, hpayloads⟩ := exists_cons_of_ne_nil hne
    have hfit := journal.fits payload (by simp [hpayloads])
    have hsplit : journal.frames = leBytes 4 (olderBody .legacy payload).length ++
        (olderBody .legacy payload ++ payloads.flatMap (encodePayload .legacy)) := by
      simp [frames, hpayloads, hheader, LegacyHeader.format,
        encodePayload_older (show WalFrameFormat.legacy ≠ .guarded by decide)]
    have htake : journal.frames.take cut =
        leBytes 4 (olderBody .legacy payload).length ++
          (olderBody .legacy payload ++
            payloads.flatMap (encodePayload .legacy)).take (cut - 4) := by
      rw [hsplit, take_append, take_of_length_le (by simpa using hfour), leBytes_length]
    have hfit' : (olderBody .legacy payload).length ≤ maxWalFrameBytes := by
      simpa [hheader, LegacyHeader.format] using hfit
    simp only [bytes, nil_append, length_nil, Nat.sub_zero]
    obtain ⟨h3, h2, h1⟩ := length_bytes_not_magic hfit'
    rw [htake, openIn_bare (leBytes_length 4 _) h3 h2 h1]
    simp [opened, hheader, LegacyHeader.bytes, LegacyHeader.format, LegacyHeader.generation]
  | lxw1 =>
    rw [bytes, openIn_lxw1]
    simp [opened, hheader, LegacyHeader.bytes, LegacyHeader.format, LegacyHeader.generation]
  | lxw2 generation =>
    rw [bytes, openIn_lxw2]
    simp [opened, hheader, LegacyHeader.bytes, LegacyHeader.format, LegacyHeader.generation,
      walHeaderV2Len, generation.2]

/-- The complete frames behind the cut's header. -/
def completePayloads (cut : Nat) : List Bytes :=
  completeFrames (encodePayload journal.header.format) journal.payloads
    (cut - journal.header.bytes.length)

theorem frames_take (cut : Nat) :
    journal.frames.take (cut - journal.header.bytes.length) =
      (journal.completePayloads cut).flatMap (encodePayload journal.header.format) ++
        journal.tornBytes cut :=
  take_flatMap _ journal.payloads _

theorem mem_of_mem_completePayloads {payload : Bytes} (h : payload ∈ journal.completePayloads cut) :
    payload ∈ journal.payloads := by
  rw [← completeFrames_append_remaining (encodePayload journal.header.format)
    journal.payloads (cut - journal.header.bytes.length)]
  exact mem_append_left _ h

/-- A cut that is not on a boundary leaves bytes of a frame. -/
theorem tornBytes_ne_nil (hheader : journal.header.bytes.length ≤ cut)
    (hcut : cut ≤ journal.file.length) (hboundary : ¬ journal.OnBoundary cut) :
    journal.tornBytes cut ≠ [] := by
  intro hnil
  have hcomplete : journal.completePayloads cut <+: journal.payloads :=
    ⟨_, completeFrames_append_remaining (encodePayload journal.header.format)
      journal.payloads (cut - journal.header.bytes.length)⟩
  refine hboundary ⟨(journal.completePayloads cut).length, hcomplete.length_le, ?_⟩
  have hlen := congrArg length (journal.frames_take cut)
  rw [hnil, append_nil, length_take] at hlen
  rw [file, length_append] at hcut
  rw [← prefix_iff_eq_take.mp hcomplete]
  omega

/-- The frame that the cut falls in, and how much of it is left. -/
theorem tornBytes_eq (hne : journal.tornBytes cut ≠ []) :
    ∃ payload ∈ journal.payloads, ∃ m,
      m < (encodePayload journal.header.format payload).length ∧
      journal.tornBytes cut = (encodePayload journal.header.format payload).take m := by
  rcases tornTail_eq (encodePayload journal.header.format) journal.payloads
    (cut - journal.header.bytes.length) with ⟨-, hnil⟩ | ⟨payload, more, hremaining, m, hm, htail⟩
  · exact absurd hnil hne
  · refine ⟨payload, ?_, m, hm, htail⟩
    rw [← completeFrames_append_remaining (encodePayload journal.header.format)
      journal.payloads (cut - journal.header.bytes.length), hremaining]
    exact mem_append_right _ mem_cons_self

/-- **The scan at the cut.**  Less than four bytes of a frame end the replay
without an error; four or more stop it. -/
theorem scan_tornBytes (hne : journal.tornBytes cut ≠ []) (fileLen : Nat) (replay : WalReplay) :
    scan (readNextFramePayload journal.header.format) (replayStep fileLen)
        (journal.tornBytes cut) replay =
      if 4 ≤ (journal.tornBytes cut).length then
        .error ⟨.invalidData, "legacy WAL ends inside a frame"⟩
      else
        .ok ⟨replay, journal.tornBytes cut⟩ := by
  obtain ⟨payload, hmem, m, hm, htail⟩ := journal.tornBytes_eq hne
  have hlen : (journal.tornBytes cut).length = m := by
    rw [htail, length_take]
    omega
  have hformat := journal.header.format_ne_guarded
  by_cases hfour : 4 ≤ m
  · rw [hlen, if_pos hfour]
    refine scan_read_error hne ?_ replay
    rw [htail]
    exact readOlder_cut hformat (journal.fits payload hmem) hfour hm
  · rw [hlen, if_neg hfour]
    refine scan_torn hne ?_ replay
    rw [htail]
    exact readOlder_short hformat payload (by omega)

theorem rejectsCut_behind_header (hheader : journal.header.bytes.length ≤ cut) (hfour : 4 ≤ cut)
    (hcut : cut ≤ journal.file.length) (hboundary : ¬ journal.OnBoundary cut) (create : Bool)
    (fresh : Generation) :
    journal.RejectsCut cut create fresh ↔ 4 ≤ (journal.tornBytes cut).length := by
  have hne := journal.tornBytes_ne_nil hheader hcut hboundary
  have hpayloads : journal.payloads ≠ [] := by
    obtain ⟨payload, hmem, -⟩ := journal.tornBytes_eq hne
    exact ne_nil_of_mem hmem
  have hopen := journal.openIn_cut hheader hfour hpayloads create fresh
  have htake := journal.file_take hheader
  rw [journal.frames_take] at hopen htake
  have hfile : (journal.opened ((journal.completePayloads cut).flatMap
      (encodePayload journal.header.format) ++ journal.tornBytes cut)).file ≠ [] := by
    simp [opened, hne]
  have hread : ∀ payload ∈ journal.completePayloads cut,
      Readable journal.header.format payload := by
    intro payload hmem
    have hown := journal.mem_of_mem_completePayloads hmem
    obtain ⟨decoded, hdecode⟩ := journal.decodes payload hown
    exact ⟨journal.fits payload hown, by rw [hdecode]; rfl⟩
  obtain ⟨next, hscan, -⟩ := scan_readable hread
    (journal.opened ((journal.completePayloads cut).flatMap
      (encodePayload journal.header.format) ++ journal.tornBytes cut)).file.length
    (journal.tornBytes cut) ⟨[], none⟩
  rw [framesOf, journal.scan_tornBytes hne] at hscan
  have hreplay := @replayFrom_none (journal.opened _) _ _ rfl rfl hfile
  rw [show (journal.opened _).replayScan _ _ = _ from hscan] at hreplay
  rw [RejectsCut, recover, hopen, htake]
  simp only [hreplay]
  by_cases htorn : 4 ≤ (journal.tornBytes cut).length
  · simp [htorn, opened]
  · simp [htorn, hne]

end LegacyJournal

/-- **Exactly these cuts are rejected.**  For every log of an older format and
every cut that is not on a frame boundary, recovery fails and leaves the file
alone if and only if the cut is a noticed one. -/
theorem rejectsCut_iff (journal : LegacyJournal) {cut : Nat}
    (hcut : cut ≤ journal.file.length) (hboundary : ¬ journal.OnBoundary cut)
    (create : Bool) (fresh : Generation) :
    journal.RejectsCut cut create fresh ↔ journal.Noticed cut create := by
  unfold LegacyJournal.Noticed
  by_cases hheader : cut < journal.header.bytes.length
  · rw [if_pos hheader]
    by_cases hzero : cut = 0
    · subst hzero
      rw [journal.rejectsCut_zero]
      simp
    · have hpos : 0 < cut := by omega
      exact ⟨fun _ => .inl hpos, fun _ => journal.rejectsCut_in_header hheader hpos create fresh⟩
  rw [if_neg hheader]
  by_cases hfour : cut < 4
  · refine ⟨fun _ => .inl hfour, fun _ => LegacyJournal.recover_of_openIn_error ?_⟩
    have hzero : cut ≠ 0 := by
      rintro rfl
      refine hboundary ⟨0, Nat.zero_le _, ?_⟩
      simp
      omega
    refine LegacyJournal.openIn_tiny ?_ ?_ create fresh
    · intro h
      have hlen := congrArg length h
      simp only [length_take, length_nil] at hlen
      omega
    · rw [length_take]
      omega
  · rw [journal.rejectsCut_behind_header (by omega) (by omega) hcut hboundary]
    simp [hfour]

/-- A bare log of `SET k v` and `DEL k`, in frames of 25 and 20 bytes. -/
def setDelJournal : LegacyJournal where
  header := .bare
  payloads := [commandPayload [[0x53, 0x45, 0x54], [0x6b], [0x76]],
    commandPayload [[0x44, 0x45, 0x4c], [0x6b]]]
  fits := by decide
  decodes := by
    intro payload hmem
    rcases List.mem_cons.mp hmem with rfl | hmem
    · exact ⟨_, rfl⟩
    · rw [List.mem_singleton.mp hmem]
      exact ⟨_, rfl⟩

/-- Four bytes of the second frame are enough to be noticed. -/
theorem rejectsCut_setDel : setDelJournal.RejectsCut 29 true ⟨List.replicate 16 1, rfl⟩ :=
  (rejectsCut_iff setDelJournal (by decide) (by decide) true _).mpr (by decide)

/-- **The lost `DEL`.**  A cut two bytes into the second frame is not on a
boundary, yet recovery succeeds without the `DEL` and shortens the file. -/
theorem accepted_cut_setDel :
    ¬ setDelJournal.OnBoundary 27 ∧
      recover (setDelJournal.file.take 27) true ⟨List.replicate 16 1, rfl⟩ =
        (.ok ⟨[[[0x53, 0x45, 0x54], [0x6b], [0x76]]], none⟩, setDelJournal.file.take 25) ∧
      ¬ setDelJournal.RejectsCut 27 true ⟨List.replicate 16 1, rfl⟩ := by
  have hrecover : recover (setDelJournal.file.take 27) true ⟨replicate 16 1, rfl⟩ =
      (.ok ⟨[[[0x53, 0x45, 0x54], [0x6b], [0x76]]], none⟩, setDelJournal.file.take 25) := by
    decide
  refine ⟨by decide, hrecover, ?_⟩
  rintro ⟨error, herror⟩
  cases herror

end Lux
