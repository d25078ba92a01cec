import Mago.Extension.Payload
import Mago.Library.BigEndian
import Mago.Library.Format

/-!
# Frames

A frame is a header of 32 bytes and a payload. A reader takes one frame after the other from a
stream of bytes; the end of the stream is clean only between two frames.
-/
namespace Mago.Extension
open Library

def frameMagic : Bytes := [0x4D, 0x41, 0x47, 0x4F]

def frameHeaderLength : ℕ := 32

def frameReserved : UInt16 := 0

structure ProtocolVersion where
  major : UInt16
  minor : UInt16
  deriving DecidableEq, Repr

def protocolVersion : ProtocolVersion := ⟨1, 0⟩

/-- The errors of reading and writing a frame; of the errors of a stream only its early end. -/
inductive ProtocolError
  | unexpectedEof
  | invalidMagic (magic : Bytes)
  | unsupportedVersion (version : ProtocolVersion)
  | unknownFrameKind (kind : UInt8)
  | reservedHeaderBits (bits : UInt16)
  | frameTooLarge (length maximum : ℕ)
  deriving DecidableEq, Repr

inductive FrameKind
  | request
  | response
  | notification
  | cancel
  | shutdown
  deriving DecidableEq, Repr

namespace FrameKind

def toByte : FrameKind → UInt8
  | request => 1
  | response => 2
  | notification => 3
  | cancel => 4
  | shutdown => 5

def tryFrom (value : UInt8) : Except ProtocolError FrameKind :=
  if value = 1 then .ok request
  else if value = 2 then .ok response
  else if value = 3 then .ok notification
  else if value = 4 then .ok cancel
  else if value = 5 then .ok shutdown
  else .error (.unknownFrameKind value)

theorem tryFrom_eq_ok_iff {value : UInt8} {kind : FrameKind} :
    tryFrom value = .ok kind ↔ value = kind.toByte := by
  constructor
  · intro h
    simp only [tryFrom] at h
    split_ifs at h <;> cases h <;> assumption
  · intro h
    subst h
    cases kind <;> rfl

end FrameKind

structure Frame where
  version : ProtocolVersion
  kind : FrameKind
  flags : UInt8
  id : UInt64
  parentId : UInt64
  payload : Bytes
  deriving DecidableEq, Repr

namespace Frame

def request (id : UInt64) (payload : Bytes) : Frame :=
  ⟨protocolVersion, .request, 0, id, 0, payload⟩

def shutdown : Frame := ⟨protocolVersion, .shutdown, 0, 0, 0, []⟩

/-! ## Writing -/

def header (frame : Frame) : Bytes :=
  frameMagic ++ (toBigEndian 2 frame.version.major.toNat ++ (toBigEndian 2 frame.version.minor.toNat
    ++ ([frame.kind.toByte] ++ ([frame.flags] ++ (toBigEndian 2 frameReserved.toNat
      ++ (toBigEndian 8 frame.id.toNat ++ (toBigEndian 8 frame.parentId.toNat
        ++ toBigEndian 4 frame.payload.length)))))))

def writeTo (maximumPayloadSize : ℕ) (frame : Frame) (writer : Bytes) :
    Except ProtocolError Bytes :=
  if frame.payload.length > maximumPayloadSize ∨ frame.payload.length > u32Max then
    .error (.frameTooLarge frame.payload.length maximumPayloadSize)
  else .ok (writer ++ frame.header ++ frame.payload)

/-! ## Reading -/

/-- Exactly so many bytes from the front of the stream. -/
def readExact (length : ℕ) : StateT Bytes (Except ProtocolError) Bytes := fun stream =>
  if length ≤ stream.length then .ok (stream.take length, stream.drop length)
  else .error .unexpectedEof

/-- The `width` bytes of a header from `start` on. -/
def field (header : Bytes) (start width : ℕ) : Bytes := (header.drop start).take width

/-- What follows the first byte of a frame. -/
def readAfter (maximumPayloadSize : ℕ) (first : UInt8) :
    StateT Bytes (Except ProtocolError) Frame := do
  let tail ← readExact (frameHeaderLength - 1)
  let header := first :: tail
  let magic := field header 0 4
  reject (magic ≠ frameMagic) (.invalidMagic magic)
  let version : ProtocolVersion :=
    ⟨.ofNat (ofBigEndian (field header 4 2)), .ofNat (ofBigEndian (field header 6 2))⟩
  reject (version.major ≠ protocolVersion.major) (.unsupportedVersion version)
  let reserved := UInt16.ofNat (ofBigEndian (field header 10 2))
  reject (reserved ≠ 0) (.reservedHeaderBits reserved)
  let kind ← liftM (FrameKind.tryFrom (header.getD 8 0))
  let payloadLength := ofBigEndian (field header 28 4)
  reject (payloadLength > maximumPayloadSize) (.frameTooLarge payloadLength maximumPayloadSize)
  let payload ← readExact payloadLength
  return ⟨version, kind, header.getD 9 0, .ofNat (ofBigEndian (field header 12 8)),
    .ofNat (ofBigEndian (field header 20 8)), payload⟩

/-- One frame, or none at the end of the stream. -/
def readFrom (maximumPayloadSize : ℕ) : StateT Bytes (Except ProtocolError) (Option Frame)
  | [] => .ok (none, [])
  | first :: stream => do
    let (frame, stream) ← readAfter maximumPayloadSize first stream
    return (some frame, stream)

/-! ## What is read is what was written -/

theorem accepts_readExact (length : ℕ) :
    Accepts (readExact length) fun bytes symbols => bytes.length = length ∧ symbols = bytes := by
  intro stream bytes rest
  simp only [readExact, advance_list]
  constructor
  · intro h
    split at h
    · next hle =>
      cases h
      exact ⟨_, ⟨List.length_take_of_le hle, rfl⟩, (List.take_append_drop length stream).symm⟩
    · cases h
  · intro h
    obtain ⟨_, ⟨rfl, rfl⟩, rfl⟩ := h
    rw [if_pos (by rw [List.length_append]; omega), List.take_left, List.drop_left]

theorem drop_eq_append_iff {bytes front back : Bytes} {start : ℕ} (width : ℕ)
    (hfront : front.length = width) :
    bytes.drop start = front ++ back ↔
      field bytes start width = front ∧ bytes.drop (start + width) = back := by
  rw [field, ← List.drop_drop]
  constructor
  · intro h
    rw [h, ← hfront, List.take_left, List.drop_left]
    exact ⟨rfl, rfl⟩
  · intro h
    rw [← h.1, ← h.2, List.take_append_drop]

theorem field_one {bytes : Bytes} {start : ℕ} (h : start < bytes.length) (byte : UInt8) :
    field bytes start 1 = [byte] ↔ bytes.getD start 0 = byte := by
  rw [field, List.drop_eq_getElem_cons h, List.take_succ_cons, List.take_zero,
    List.getD_eq_getElem _ _ h, List.cons_eq_cons]
  exact and_iff_left rfl

/-- A header has every field at its place. -/
theorem eq_header_iff {bytes : Bytes} (h : bytes.length = frameHeaderLength) (frame : Frame) :
    bytes = frame.header ↔ field bytes 0 4 = frameMagic ∧
      field bytes 4 2 = toBigEndian 2 frame.version.major.toNat ∧
      field bytes 6 2 = toBigEndian 2 frame.version.minor.toNat ∧
      bytes.getD 8 0 = frame.kind.toByte ∧ bytes.getD 9 0 = frame.flags ∧
      field bytes 10 2 = toBigEndian 2 frameReserved.toNat ∧
      field bytes 12 8 = toBigEndian 8 frame.id.toNat ∧
      field bytes 20 8 = toBigEndian 8 frame.parentId.toNat ∧
      field bytes 28 4 = toBigEndian 4 frame.payload.length := by
  rw [frameHeaderLength] at h
  have hlast : bytes.drop 28 = toBigEndian 4 frame.payload.length ↔
      field bytes 28 4 = toBigEndian 4 frame.payload.length := by
    rw [field, List.take_of_length_le (by rw [List.length_drop]; omega)]
  rw [header, ← hlast, ← field_one (by omega), ← field_one (by omega)]
  conv_lhs => lhs; rw [← List.drop_zero (l := bytes)]
  rw [drop_eq_append_iff 4 rfl,
    drop_eq_append_iff 2 (length_toBigEndian ..),
    drop_eq_append_iff 2 (length_toBigEndian ..),
    drop_eq_append_iff 1 rfl, drop_eq_append_iff 1 rfl,
    drop_eq_append_iff 2 (length_toBigEndian ..),
    drop_eq_append_iff 8 (length_toBigEndian ..),
    drop_eq_append_iff 8 (length_toBigEndian ..)]

theorem length_header (frame : Frame) : frame.header.length = frameHeaderLength := by
  simp only [header, List.length_append, length_toBigEndian]
  rfl

theorem length_field {bytes : Bytes} {start width : ℕ} (h : start + width ≤ bytes.length) :
    (field bytes start width).length = width := by
  rw [field, List.length_take, List.length_drop]
  omega

/-- A header is what its fields are read as. -/
theorem eq_header_iff_fields {bytes : Bytes} (h : bytes.length = frameHeaderLength) {frame : Frame}
    (hfits : frame.payload.length ≤ u32Max) :
    bytes = frame.header ↔ field bytes 0 4 = frameMagic ∧
      UInt16.ofNat (ofBigEndian (field bytes 4 2)) = frame.version.major ∧
      UInt16.ofNat (ofBigEndian (field bytes 6 2)) = frame.version.minor ∧
      bytes.getD 8 0 = frame.kind.toByte ∧ bytes.getD 9 0 = frame.flags ∧
      UInt16.ofNat (ofBigEndian (field bytes 10 2)) = 0 ∧
      UInt64.ofNat (ofBigEndian (field bytes 12 8)) = frame.id ∧
      UInt64.ofNat (ofBigEndian (field bytes 20 8)) = frame.parentId ∧
      frame.payload.length = ofBigEndian (field bytes 28 4) := by
  have hfield : ∀ start width, start + width ≤ frameHeaderLength →
      (field bytes start width).length = width := fun start width hle => length_field (h.symm ▸ hle)
  have hlength : frame.payload.length < 256 ^ 4 := by
    rw [u32Max] at hfits
    omega
  have hpayload : frame.payload.length = ofBigEndian (field bytes 28 4) ↔
      field bytes 28 4 = toBigEndian 4 frame.payload.length := by
    rw [eq_comm, ofBigEndian_eq_iff (hfield 28 4 (by decide))]
    exact and_iff_right hlength
  rw [eq_header_iff h, uint16_ofBigEndian_eq_iff (hfield 4 2 (by decide)),
    uint16_ofBigEndian_eq_iff (hfield 6 2 (by decide)),
    uint16_ofBigEndian_eq_iff (hfield 10 2 (by decide)),
    uint64_ofBigEndian_eq_iff (hfield 12 8 (by decide)),
    uint64_ofBigEndian_eq_iff (hfield 20 8 (by decide)), hpayload]
  rfl

/-- A frame that can be read: of this version, with a payload that is not too large. -/
def Readable (maximumPayloadSize : ℕ) (frame : Frame) : Prop :=
  frame.version.major = protocolVersion.major ∧
    frame.payload.length ≤ maximumPayloadSize ∧ frame.payload.length ≤ u32Max

theorem accepts_readAfter (maximumPayloadSize : ℕ) (first : UInt8) :
    Accepts (readAfter maximumPayloadSize first) fun frame symbols =>
      frame.Readable maximumPayloadSize ∧ first :: symbols = frame.header ++ frame.payload := by
  refine ((accepts_readExact _).bind fun tail => (accepts_reject _ _).bind fun _ =>
    (accepts_reject _ _).bind fun _ => (accepts_reject _ _).bind fun _ =>
    (accepts_lift _).bind fun kind => (accepts_reject _ _).bind fun _ =>
    (accepts_readExact _).bind fun payload => accepts_pure _).congr ?_
  intro frame symbols
  simp only [and_followed, followed_nil_left, followed_nil_right, exists_const, followed_exists,
    followed_and, followed_eq_eq, FrameKind.tryFrom_eq_ok_iff, not_not, not_lt]
  constructor
  · intro h
    obtain ⟨tail, kind, payload, rfl, hpayload, hmaximum, hkind, hreserved, hmajor, hmagic, htail,
      rfl⟩ := h
    have hlength : (first :: tail).length = frameHeaderLength := by
      rw [List.length_cons, htail, frameHeaderLength]
    have hfits : payload.length ≤ u32Max := by
      have hlt := ofBigEndian_lt (field (first :: tail) 28 4)
      rw [length_field (by rw [hlength]; decide), ← hpayload] at hlt
      rw [u32Max]
      omega
    refine ⟨⟨hmajor, hpayload.trans_le hmaximum, hfits⟩, ?_⟩
    rw [← List.cons_append]
    exact congrArg (· ++ payload) ((eq_header_iff_fields hlength hfits).mpr
      ⟨hmagic, rfl, rfl, hkind, rfl, hreserved, rfl, rfl, hpayload⟩)
  · intro h
    obtain ⟨⟨hmajor, hmaximum, hfits⟩, hsymbols⟩ := h
    have hlength := length_header frame
    obtain ⟨tail, htail, rfl⟩ : ∃ tail, frame.header = first :: tail ∧
        symbols = tail ++ frame.payload := by
      cases hheader : frame.header with
      | nil =>
        rw [hheader] at hlength
        cases hlength
      | cons byte tail =>
        rw [hheader, List.cons_append, List.cons.injEq] at hsymbols
        exact ⟨tail, by rw [hsymbols.1], hsymbols.2⟩
    rw [htail] at hlength
    obtain ⟨hmagic, hversion, hminor, hkind, hflags, hreserved, hid, hparent, hpayload⟩ :=
      (eq_header_iff_fields hlength hfits).mp htail.symm
    refine ⟨tail, frame.kind, frame.payload, ?_, hpayload, hpayload ▸ hmaximum, hkind, hreserved,
      hversion.trans hmajor, hmagic, Nat.succ.inj hlength, rfl⟩
    rw [hversion, hminor, hflags, hid, hparent]

theorem emits_writeTo (maximumPayloadSize : ℕ) (frame : Frame) :
    Emits (frame.writeTo maximumPayloadSize) fun symbols =>
      (frame.payload.length ≤ maximumPayloadSize ∧ frame.payload.length ≤ u32Max) ∧
        symbols = frame.header ++ frame.payload := by
  intro writer writer'
  rw [writeTo]
  split_ifs with hlarge
  · constructor
    · intro h
      cases h
    · intro h
      obtain ⟨_, ⟨hfits, _⟩, _⟩ := h
      omega
  · rw [Except.ok.injEq, List.append_assoc]
    constructor
    · intro h
      exact ⟨_, ⟨by omega, rfl⟩, h.symm⟩
    · intro h
      obtain ⟨_, ⟨_, rfl⟩, h⟩ := h
      exact h.symm

theorem readFrom_cons (maximumPayloadSize : ℕ) (first : UInt8) (stream : Bytes) :
    readFrom maximumPayloadSize (first :: stream) =
      (readAfter maximumPayloadSize first stream).map fun p => (some p.1, p.2) := by
  rw [readFrom]
  cases readAfter maximumPayloadSize first stream with
  | error e => rfl
  | ok p => rfl

theorem readFrom_cons_eq_some_iff {maximumPayloadSize : ℕ} {first : UInt8} {stream rest : Bytes}
    {frame : Frame} : readFrom maximumPayloadSize (first :: stream) = .ok (some frame, rest) ↔
      readAfter maximumPayloadSize first stream = .ok (frame, rest) := by
  rw [readFrom_cons]
  cases readAfter maximumPayloadSize first stream with
  | error e => exact iff_of_false nofun nofun
  | ok p =>
    obtain ⟨frame', rest'⟩ := p
    simp [Except.map]

theorem readFrom_eq_some_iff {maximumPayloadSize : ℕ} {stream rest : Bytes} {frame : Frame} :
    readFrom maximumPayloadSize stream = .ok (some frame, rest) ↔
      frame.Readable maximumPayloadSize ∧ stream = frame.header ++ frame.payload ++ rest := by
  cases stream with
  | nil =>
    refine iff_of_false nofun fun h => ?_
    have hlength := congrArg List.length h.2
    simp only [List.length_append, length_header, frameHeaderLength, List.length_nil] at hlength
    omega
  | cons first stream =>
    rw [readFrom_cons_eq_some_iff, accepts_readAfter maximumPayloadSize first]
    constructor
    · intro h
      obtain ⟨symbols, ⟨hreadable, hsymbols⟩, hstream⟩ := h
      rw [advance_list.mp hstream, ← List.cons_append, hsymbols]
      exact ⟨hreadable, rfl⟩
    · intro h
      obtain ⟨hreadable, hstream⟩ := h
      have hlength := length_header frame
      cases hbytes : frame.header ++ frame.payload with
      | nil =>
        rw [List.append_eq_nil_iff] at hbytes
        rw [hbytes.1] at hlength
        cases hlength
      | cons byte symbols =>
        rw [hbytes, List.cons_append, List.cons.injEq] at hstream
        exact ⟨symbols, ⟨hreadable, by rw [hstream.1, hbytes]⟩, hstream.2⟩

theorem readFrom_eq_none_iff {maximumPayloadSize : ℕ} {stream rest : Bytes} :
    readFrom maximumPayloadSize stream = .ok (none, rest) ↔ stream = [] ∧ rest = [] := by
  cases stream with
  | nil =>
    rw [readFrom, Except.ok.injEq, Prod.mk.injEq]
    exact ⟨fun h => ⟨rfl, h.2.symm⟩, fun h => ⟨rfl, h.2.symm⟩⟩
  | cons first stream =>
    refine iff_of_false (fun h => ?_) fun h => nomatch h.1
    rw [readFrom_cons] at h
    cases hread : readAfter maximumPayloadSize first stream with
    | error e =>
      rw [hread] at h
      cases h
    | ok p =>
      rw [hread] at h
      cases h

theorem patient_readExact (length : ℕ) : Patient .unexpectedEof (readExact length) := by
  intro stream more bytes rest h
  simp only [readExact] at h ⊢
  by_cases hle : length ≤ stream.length
  · rw [if_pos (by rw [List.length_append]; omega), List.take_append_of_le_length hle,
      List.drop_append_of_le_length hle] at h
    cases h
    exact Or.inl ⟨_, if_pos hle, rfl⟩
  · exact Or.inr (if_neg hle)

theorem patient_readAfter (maximumPayloadSize : ℕ) (first : UInt8) :
    Patient .unexpectedEof (readAfter maximumPayloadSize first) :=
  (patient_readExact _).bind fun _ => (patient_reject _ _).bind fun _ =>
    (patient_reject _ _).bind fun _ => (patient_reject _ _).bind fun _ =>
    (patient_lift _).bind fun _ => (patient_reject _ _).bind fun _ =>
    (patient_readExact _).bind fun _ => patient_pure _

/-- A frame that ends early is no frame and no clean end. -/
theorem readFrom_take {maximumPayloadSize n : ℕ} {frame : Frame}
    (h : frame.Readable maximumPayloadSize) (hpos : 0 < n)
    (hlt : n < frameHeaderLength + frame.payload.length) (stream : Bytes) :
    readFrom maximumPayloadSize ((frame.header ++ frame.payload ++ stream).take n) =
      .error .unexpectedEof := by
  have hread : readFrom maximumPayloadSize (frame.header ++ frame.payload ++ stream) =
      .ok (some frame, stream) := readFrom_eq_some_iff.mpr ⟨h, rfl⟩
  rw [← List.take_append_drop n (frame.header ++ frame.payload ++ stream)] at hread
  have hlength : ((frame.header ++ frame.payload ++ stream).take n).length = n := by
    rw [List.length_take_of_le]
    rw [List.length_append, List.length_append, length_header]
    omega
  cases hcut : (frame.header ++ frame.payload ++ stream).take n with
  | nil =>
    rw [hcut, List.length_nil] at hlength
    omega
  | cons first cut =>
    rw [hcut, List.cons_append, readFrom_cons_eq_some_iff] at hread
    rcases patient_readAfter _ first cut _ _ _ hread with ⟨rest, hwhole, _⟩ | heof
    · have hstream := (readFrom_eq_some_iff.mp (readFrom_cons_eq_some_iff.mpr hwhole)).2
      rw [hcut, hstream, List.length_append, List.length_append, length_header] at hlength
      omega
    · rw [readFrom_cons, heof]
      rfl

end Frame

/-! ## The stream of a worker -/

inductive StreamEnd
  | closed
  | failed (error : ProtocolError)
  deriving DecidableEq, Repr

theorem Frame.length_lt_of_readFrom {maximumPayloadSize : ℕ} {stream rest : Bytes} {frame : Frame}
    (h : readFrom maximumPayloadSize stream = .ok (some frame, rest)) :
    rest.length < stream.length := by
  rw [(readFrom_eq_some_iff.mp h).2, List.length_append, List.length_append, length_header,
    frameHeaderLength]
  omega

/-- The frames of a stream up to its end or the first failure. -/
def readWorkerStream (maximumPayloadSize : ℕ) (stream : Bytes) : List Frame × StreamEnd :=
  match h : Frame.readFrom maximumPayloadSize stream with
  | .ok (some frame, rest) =>
    have := Frame.length_lt_of_readFrom h
    let (frames, ending) := readWorkerStream maximumPayloadSize rest
    (frame :: frames, ending)
  | .ok (none, _) => ([], .closed)
  | .error error => ([], .failed error)
termination_by stream.length

/-- Frames written to one writer, one after the other. -/
def writeFrames (maximumPayloadSize : ℕ) (frames : List Frame) (writer : Bytes) :
    Except ProtocolError Bytes :=
  frames.foldlM (fun writer frame => frame.writeTo maximumPayloadSize writer) writer

section Stream

variable {maximumPayloadSize : ℕ} {stream rest : Bytes} {frame : Frame} {frames : List Frame}

theorem readWorkerStream_of_some
    (h : Frame.readFrom maximumPayloadSize stream = .ok (some frame, rest)) :
    readWorkerStream maximumPayloadSize stream =
      (frame :: (readWorkerStream maximumPayloadSize rest).1,
        (readWorkerStream maximumPayloadSize rest).2) := by
  rw [readWorkerStream]
  split
  · next h' =>
    rw [h] at h'
    cases h'
    rfl
  · next h' =>
    rw [h] at h'
    cases h'
  · next h' =>
    rw [h] at h'
    cases h'

theorem readWorkerStream_of_error {error : ProtocolError}
    (h : Frame.readFrom maximumPayloadSize stream = .error error) :
    readWorkerStream maximumPayloadSize stream = ([], .failed error) := by
  rw [readWorkerStream]
  split
  · next h' =>
    rw [h] at h'
    cases h'
  · next h' =>
    rw [h] at h'
    cases h'
  · next h' =>
    rw [h] at h'
    cases h'
    rfl

theorem readWorkerStream_nil : readWorkerStream maximumPayloadSize [] = ([], .closed) := by
  rw [readWorkerStream]
  split
  · next h' => cases h'
  · rfl
  · next h' => cases h'

theorem readWorkerStream_eq_cons_iff {ending : StreamEnd} :
    readWorkerStream maximumPayloadSize stream = (frame :: frames, ending) ↔
      ∃ rest, Frame.readFrom maximumPayloadSize stream = .ok (some frame, rest) ∧
        readWorkerStream maximumPayloadSize rest = (frames, ending) := by
  constructor
  · intro h
    match hread : Frame.readFrom maximumPayloadSize stream with
    | .ok (some frame', rest) =>
      rw [readWorkerStream_of_some hread] at h
      cases h
      exact ⟨rest, rfl, rfl⟩
    | .ok (none, rest) =>
      rw [(Frame.readFrom_eq_none_iff.mp hread).1, readWorkerStream_nil] at h
      cases h
    | .error error =>
      rw [readWorkerStream_of_error hread] at h
      cases h
  · intro h
    obtain ⟨rest, hread, hrest⟩ := h
    rw [readWorkerStream_of_some hread, hrest]

theorem readWorkerStream_eq_nil_iff :
    readWorkerStream maximumPayloadSize stream = ([], .closed) ↔ stream = [] := by
  constructor
  · intro h
    match hread : Frame.readFrom maximumPayloadSize stream with
    | .ok (some frame', rest) =>
      rw [readWorkerStream_of_some hread] at h
      cases h
    | .ok (none, rest) => exact (Frame.readFrom_eq_none_iff.mp hread).1
    | .error error =>
      rw [readWorkerStream_of_error hread] at h
      cases h
  · intro h
    rw [h, readWorkerStream_nil]

theorem writeFrames_eq_ok_iff {writer writer' : Bytes} :
    writeFrames maximumPayloadSize frames writer = .ok writer' ↔
      (∀ frame ∈ frames, frame.payload.length ≤ maximumPayloadSize ∧
        frame.payload.length ≤ u32Max) ∧
        writer' = writer ++ frames.flatMap fun frame => frame.header ++ frame.payload := by
  have hemits : Emits (writeFrames maximumPayloadSize frames) _ :=
    emits_foldlM fun frame _ => Frame.emits_writeTo maximumPayloadSize frame
  refine (hemits writer writer').trans ?_
  simp only [each_and, each_eq_iff]
  constructor
  · intro h
    obtain ⟨_, ⟨hframes, rfl⟩, hwriter⟩ := h
    exact ⟨hframes, hwriter⟩
  · intro h
    exact ⟨_, ⟨h.1, rfl⟩, h.2⟩

/-- A stream ends cleanly after some frames exactly where these frames were written to it. -/
theorem readWorkerStream_eq_closed_iff :
    readWorkerStream maximumPayloadSize stream = (frames, .closed) ↔
      (∀ frame ∈ frames, frame.version.major = protocolVersion.major) ∧
        writeFrames maximumPayloadSize frames [] = .ok stream := by
  induction frames generalizing stream with
  | nil =>
    rw [readWorkerStream_eq_nil_iff, writeFrames_eq_ok_iff]
    simp
  | cons frame frames ih =>
    rw [readWorkerStream_eq_cons_iff]
    simp only [Frame.readFrom_eq_some_iff, ih, writeFrames_eq_ok_iff, List.forall_mem_cons,
      List.flatMap_cons, List.nil_append, Frame.Readable]
    constructor
    · intro h
      obtain ⟨rest, ⟨⟨hmajor, hfits⟩, hstream⟩, hmajors, hall, rfl⟩ := h
      exact ⟨⟨hmajor, hmajors⟩, ⟨hfits, hall⟩, hstream⟩
    · intro h
      obtain ⟨⟨hmajor, hmajors⟩, ⟨hfits, hall⟩, hstream⟩ := h
      exact ⟨_, ⟨⟨hmajor, hfits⟩, hstream⟩, hmajors, hall, rfl⟩

/-- Of a stream that was cut, the frames that are there as a whole are read. The end is clean
only between two frames. -/
theorem readWorkerStream_take (hwritten : writeFrames maximumPayloadSize frames [] = .ok stream)
    (hmajor : ∀ frame ∈ frames, frame.version.major = protocolVersion.major) (n : ℕ) :
    ∃ k whole ending,
      readWorkerStream maximumPayloadSize (stream.take n) = (frames.take k, ending) ∧
      writeFrames maximumPayloadSize (frames.take k) [] = .ok whole ∧
      (ending = .closed ∧ whole = stream.take n ∨
        ending = .failed .unexpectedEof ∧ ∃ frame written, frames[k]? = some frame ∧
          frame.writeTo maximumPayloadSize whole = .ok written ∧
          whole.length < n ∧ n < written.length) := by
  simp only [writeFrames_eq_ok_iff, List.nil_append] at hwritten ⊢
  obtain ⟨hfits, rfl⟩ := hwritten
  induction frames generalizing n with
  | nil => exact ⟨0, [], .closed, by simp [readWorkerStream_nil], by simp, Or.inl ⟨rfl, by simp⟩⟩
  | cons frame frames ih =>
    rw [List.forall_mem_cons] at hfits hmajor
    rw [List.flatMap_cons]
    have hreadable : frame.Readable maximumPayloadSize := ⟨hmajor.1, hfits.1⟩
    have hlength : (frame.header ++ frame.payload).length =
        frameHeaderLength + frame.payload.length := by
      rw [List.length_append, Frame.length_header]
    by_cases hzero : n = 0
    · subst hzero
      exact ⟨0, [], .closed, by simp [readWorkerStream_nil], by simp, Or.inl ⟨rfl, by simp⟩⟩
    · by_cases hcut : n < frameHeaderLength + frame.payload.length
      · have heof := Frame.readFrom_take hreadable (by omega) hcut
          (frames.flatMap fun frame => frame.header ++ frame.payload)
        refine ⟨0, [], .failed .unexpectedEof, readWorkerStream_of_error heof, by simp,
          Or.inr ⟨rfl, frame, frame.header ++ frame.payload, rfl, ?_,
            by rw [List.length_nil]; omega, by rw [hlength]; exact hcut⟩⟩
        exact (Frame.emits_writeTo _ _ _ _).mpr ⟨_, ⟨hfits.1, rfl⟩, rfl⟩
      · obtain ⟨m, rfl⟩ := Nat.exists_eq_add_of_le (Nat.le_of_not_lt hcut)
        have htake : ((frame.header ++ frame.payload) ++ (frames.flatMap fun frame =>
            frame.header ++ frame.payload)).take (frameHeaderLength + frame.payload.length + m) =
            frame.header ++ frame.payload ++ (frames.flatMap fun frame =>
              frame.header ++ frame.payload).take m := by
          rw [← hlength, List.take_length_add_append]
        obtain ⟨k, whole, ending, hread, ⟨hwhole, rfl⟩, hending⟩ := ih hmajor.2 m hfits.2
        have hfirst : Frame.readFrom maximumPayloadSize (frame.header ++ frame.payload ++
            (frames.flatMap fun frame => frame.header ++ frame.payload).take m) =
              .ok (some frame, _) :=
          Frame.readFrom_eq_some_iff.mpr ⟨hreadable, rfl⟩
        refine ⟨k + 1, _, ending, ?_, ⟨List.forall_mem_cons.mpr ⟨hfits.1, hwhole⟩, rfl⟩, ?_⟩
        · rw [htake, readWorkerStream_of_some hfirst, hread]
          rfl
        · rw [htake]
          rcases hending with ⟨hclosed, hwhole⟩ |
            ⟨hfailed, next, written, hnext, hwritten, hlow, hhigh⟩
          · refine Or.inl ⟨hclosed, ?_⟩
            rw [List.take_succ_cons, List.flatMap_cons, hwhole]
          · obtain ⟨_, ⟨hnextFits, rfl⟩, rfl⟩ := (Frame.emits_writeTo _ _ _ _).mp hwritten
            refine Or.inr ⟨hfailed, next, _, hnext, (Frame.emits_writeTo _ _ _ _).mpr
              ⟨_, ⟨hnextFits, rfl⟩, rfl⟩, ?_, ?_⟩
            · rw [List.take_succ_cons, List.flatMap_cons, List.length_append, hlength]
              omega
            · rw [List.take_succ_cons, List.flatMap_cons, List.append_assoc, List.length_append,
                hlength]
              omega

/-- The second of two frames is cut. -/
theorem readWorkerStream_take_request : ∃ k whole ending,
    readWorkerStream 16 (((Frame.request 1 [7]).header ++ [7] ++ Frame.shutdown.header).take 40) =
      ([Frame.request 1 [7], Frame.shutdown].take k, ending) ∧
    writeFrames 16 ([Frame.request 1 [7], Frame.shutdown].take k) [] = .ok whole ∧
    (ending = .closed ∧
        whole = ((Frame.request 1 [7]).header ++ [7] ++ Frame.shutdown.header).take 40 ∨
      ending = .failed .unexpectedEof ∧ ∃ frame written,
        [Frame.request 1 [7], Frame.shutdown][k]? = some frame ∧
          frame.writeTo 16 whole = .ok written ∧ whole.length < 40 ∧ 40 < written.length) :=
  readWorkerStream_take (by decide +kernel) (by decide) 40

end Stream

end Mago.Extension
