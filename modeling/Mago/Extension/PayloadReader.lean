import Mago.Extension.Payload
import Mago.Library.BigEndian
import Mago.Library.Format
import Mago.Suppression.Collector

/-!
# Fields of payloads

Every kind of field has one encoding: integers in network byte order, byte strings and texts
after their length. The reader accepts the formats that the writer emits.
-/
namespace Mago.Extension
open Library
open Suppression (utf8)

/-! ## Writing -/

namespace PayloadWriter

def writeU16 (value : UInt16) (writer : Bytes) : Bytes := writer ++ toBigEndian 2 value.toNat

def writeBytes (bytes writer : Bytes) : Except PayloadError Bytes := do
  let writer ← writeLength bytes.length writer
  return writeRaw bytes writer

def writeString (value : Text) (writer : Bytes) : Except PayloadError Bytes :=
  writeBytes (utf8 value) writer

def writeOptionalString (value : Option Text) (writer : Bytes) : Except PayloadError Bytes :=
  let writer := writeBool value.isSome writer
  match value with
  | some value => writeString value writer
  | none => .ok writer

end PayloadWriter

/-! ## Reading -/

/-- The errors of a reader. -/
inductive PayloadReaderError
  | offsetOverflow (field : String)
  | unexpectedEnd (field : String) (needed remaining : ℕ)
  | invalidUtf8 (field : String)
  | invalidBoolean (field : String) (value : UInt8)
  | countExceeded (field : String) (count maximum : ℕ)
  | trailingBytes (remaining : ℕ)
  deriving DecidableEq, Repr

def PayloadReaderError.display : PayloadReaderError → String
  | offsetOverflow field => s!"{field} length overflowed the payload offset"
  | unexpectedEnd field needed remaining =>
    s!"payload ended while reading {field}: needed {needed} bytes, found {remaining}"
  | invalidUtf8 field => s!"{field} is not valid UTF-8"
  | invalidBoolean field value => s!"{field} has invalid boolean value {value}"
  | countExceeded field count maximum => s!"{field} count {count} exceeds limit {maximum}"
  | trailingBytes remaining => s!"payload contains {remaining} trailing bytes"

/-- The bytes of a slice lie in memory. -/
abbrev Buffer := {bytes : Bytes // bytes.length ≤ usizeMax}

structure PayloadReader where
  payload : Buffer
  offset : ℕ
  offset_le : offset ≤ payload.1.length

/-- The text that bytes encode, if they do. -/
def fromUtf8 (bytes : Bytes) : Option Text := bytes.toByteArray.utf8Decode?.map Array.toList

namespace PayloadReader

abbrev Read := StateT PayloadReader (Except PayloadReaderError)

def new (payload : Buffer) : PayloadReader := ⟨payload, 0, Nat.zero_le _⟩

def unread (reader : PayloadReader) : Bytes := reader.payload.1.drop reader.offset

def remaining (reader : PayloadReader) : ℕ := reader.payload.1.length - reader.offset

def readRaw (length : ℕ) (field : String) : Read Bytes := fun reader =>
  let stop := reader.offset + length
  if usizeMax < stop then .error (.offsetOverflow field)
  else if h : stop ≤ reader.payload.1.length then
    .ok ((reader.payload.1.drop reader.offset).take length, ⟨reader.payload, stop, h⟩)
  else .error (.unexpectedEnd field length reader.remaining)

def readU8 (field : String) : Read UInt8 := do
  let bytes ← readRaw 1 field
  return bytes.getD 0 0

def readU16 (field : String) : Read UInt16 := do
  let bytes ← readRaw 2 field
  return .ofNat (ofBigEndian bytes)

def readU32 (field : String) : Read ℕ := do
  let bytes ← readRaw 4 field
  return ofBigEndian bytes

def readBool (field : String) : Read Bool := do
  let value ← readU8 field
  if value = 0 then return false
  else if value = 1 then return true
  else throw (.invalidBoolean field value)

def readCount (field : String) (maximum : ℕ) : Read ℕ := do
  let count ← readU32 field
  reject (count > maximum) (.countExceeded field count maximum)
  return count

def readBytes (field : String) : Read Bytes := do
  let length ← readU32 field
  readRaw length field

def readStr (field : String) : Read Text := do
  let bytes ← readBytes field
  require (fromUtf8 bytes) (.invalidUtf8 field)

def readOptionalString (field : String) : Read (Option Text) := do
  let present ← readBool field
  if present then
    let text ← readStr field
    return some text
  else return none

def finish (reader : PayloadReader) : Except PayloadReaderError Unit :=
  if reader.remaining = 0 then .ok () else .error (.trailingBytes reader.remaining)

/-- The reader after some of its unread bytes. -/
def Forward (reader : PayloadReader) (symbols : Bytes) (reader' : PayloadReader) : Prop :=
  reader'.payload = reader.payload ∧ reader'.offset = reader.offset + symbols.length ∧
    reader.unread = symbols ++ reader'.unread

theorem Forward.nil {reader reader' : PayloadReader} :
    reader.Forward [] reader' ↔ reader' = reader := by
  constructor
  · intro h
    obtain ⟨hpayload, hoffset, _⟩ := h
    obtain ⟨payload, offset, _⟩ := reader'
    cases hpayload
    cases hoffset
    rfl
  · intro h
    subst h
    exact ⟨rfl, rfl, rfl⟩

theorem length_unread (reader : PayloadReader) :
    reader.unread.length + reader.offset = reader.payload.1.length := by
  have hle := reader.offset_le
  rw [unread, List.length_drop]
  omega

/-- The unread bytes of a later reader. -/
theorem unread_forward {reader reader' : PayloadReader} {n : ℕ}
    (hpayload : reader'.payload = reader.payload) (hoffset : reader'.offset = reader.offset + n) :
    reader'.unread = reader.unread.drop n := by
  rw [unread, unread, hpayload, hoffset, List.drop_drop]

theorem unread_mk {reader : PayloadReader} {n : ℕ}
    (h : reader.offset + n ≤ reader.payload.1.length) :
    (⟨reader.payload, reader.offset + n, h⟩ : PayloadReader).unread = reader.unread.drop n :=
  unread_forward rfl rfl

theorem forward_of_prefix {reader : PayloadReader} {symbols rest : Bytes}
    (h : reader.unread = symbols ++ rest) :
    ∃ hle, reader.Forward symbols ⟨reader.payload, reader.offset + symbols.length, hle⟩ := by
  have hlength := reader.length_unread
  rw [h, List.length_append] at hlength
  refine ⟨by omega, rfl, rfl, ?_⟩
  rw [unread_mk, h, List.drop_left]

theorem Forward.append {reader reader'' : PayloadReader} {front back : Bytes} :
    reader.Forward (front ++ back) reader'' ↔
      ∃ reader', reader.Forward front reader' ∧ reader'.Forward back reader'' := by
  constructor
  · intro h
    obtain ⟨hpayload, hoffset, hunread⟩ := h
    rw [List.append_assoc] at hunread
    obtain ⟨hle, hfront⟩ := forward_of_prefix hunread
    refine ⟨_, hfront, hpayload, ?_, ?_⟩
    · rw [hoffset, List.length_append, Nat.add_assoc]
    · rw [unread_forward hfront.1 hfront.2.1, hunread, List.drop_left]
  · intro h
    obtain ⟨reader', hfront, hback⟩ := h
    refine ⟨hback.1.trans hfront.1, ?_, ?_⟩
    · rw [hback.2.1, hfront.2.1, List.length_append, Nat.add_assoc]
    · rw [hfront.2.2, hback.2.2, List.append_assoc]

instance : Input PayloadReader UInt8 where
  Advance := Forward
  advance_nil := Forward.nil
  advance_append := Forward.append

theorem finish_eq_ok_iff {reader : PayloadReader} :
    reader.finish = .ok () ↔ reader.unread = [] := by
  have hlength := reader.length_unread
  have hremaining : reader.remaining = 0 ↔ reader.unread = [] := by
    rw [remaining, ← List.length_eq_zero_iff]
    omega
  rw [finish, ← hremaining]
  by_cases h : reader.remaining = 0
  · rw [if_pos h]
    exact iff_of_true rfl h
  · rw [if_neg h]
    exact iff_of_false nofun h

/-- A format that is accepted up to the end stands for the whole payload. -/
theorem accepts_finish {ε α : Type} {read : StateT PayloadReader (Except ε) α}
    {format : α → Bytes → Prop} (h : Accepts read format) {payload : Buffer} {value : α} :
    (∃ reader, read (.new payload) = .ok (value, reader) ∧ reader.finish = .ok ()) ↔
      format value payload.1 := by
  constructor
  · intro hread
    obtain ⟨reader, hread, hfinish⟩ := hread
    obtain ⟨symbols, hformat, _, _, hunread⟩ := (h _ _ _).mp hread
    rw [finish_eq_ok_iff.mp hfinish, List.append_nil] at hunread
    rwa [show payload.1 = symbols from hunread]
  · intro hformat
    have hunread : (new payload).unread = payload.1 ++ [] := (List.append_nil _).symm
    obtain ⟨hle, hforward⟩ := forward_of_prefix hunread
    refine ⟨_, (h _ _ _).mpr ⟨_, hformat, hforward⟩, finish_eq_ok_iff.mpr ?_⟩
    have hrest := hforward.2.2
    rwa [hunread, List.append_cancel_left_eq, eq_comm] at hrest

theorem accepts_readRaw (length : ℕ) (field : String) :
    Accepts (readRaw length field) fun bytes symbols =>
      bytes.length = length ∧ symbols = bytes := by
  intro reader bytes reader'
  constructor
  · intro h
    rw [readRaw] at h
    split_ifs at h with _ hle
    cases h
    have hlength : (reader.unread.take length).length = length := by
      rw [unread, List.length_take, List.length_drop]
      omega
    refine ⟨_, ⟨hlength, rfl⟩, rfl, congrArg (reader.offset + ·) hlength.symm, ?_⟩
    rw [unread_mk hle]
    exact (List.take_append_drop length _).symm
  · intro h
    obtain ⟨_, ⟨rfl, rfl⟩, hpayload, hoffset, hunread⟩ := h
    have hle := reader'.offset_le
    have hfits := reader.payload.2
    rw [hpayload, hoffset] at hle
    rw [readRaw, if_neg (by omega), dif_pos hle]
    obtain ⟨payload, offset, _⟩ := reader'
    cases hpayload
    cases hoffset
    rw [show reader.payload.1.drop reader.offset = _ from hunread, List.take_left]
    rfl

end PayloadReader

/-! ## The formats of fields -/

def IsU8 (value : UInt8) (symbols : Bytes) : Prop := symbols = [value]

def IsU16 (value : UInt16) (symbols : Bytes) : Prop := symbols = toBigEndian 2 value.toNat

def IsU32 (value : ℕ) (symbols : Bytes) : Prop := value ≤ u32Max ∧ symbols = toBeBytes value

def IsBool (value : Bool) (symbols : Bytes) : Prop := symbols = [if value then 1 else 0]

def IsBytes (bytes symbols : Bytes) : Prop := Followed (IsU32 bytes.length) (· = bytes) symbols

def IsString (value : Text) (symbols : Bytes) : Prop := IsBytes (utf8 value) symbols

def IsOptionalString : Option Text → Bytes → Prop
  | some value => Followed (IsBool true) (IsString value)
  | none => IsBool false

theorem followed_isU16 {value : UInt16} {Q : Bytes → Prop} {symbols : Bytes} :
    Followed (IsU16 value) Q symbols ↔
      ∃ back, Q back ∧ symbols = toBigEndian 2 value.toNat ++ back :=
  followed_eq_left

/-! ### Numbers -/

theorem toBeBytes_eq (value : ℕ) : toBeBytes value = toBigEndian 4 value := by
  simp [toBeBytes, toBigEndian]

theorem le_u32Max_iff {value : ℕ} : value ≤ u32Max ↔ value < 256 ^ 4 := by
  rw [u32Max]
  omega

/-! ### Texts -/

theorem utf8Encode_eq (value : Text) : value.utf8Encode = (utf8 value).toByteArray := rfl

theorem fromUtf8_eq_some_iff {bytes : Bytes} {value : Text} :
    fromUtf8 bytes = some value ↔ utf8 value = bytes := by
  rw [fromUtf8, Option.map_eq_some_iff]
  constructor
  · intro h
    obtain ⟨chars, hchars, rfl⟩ := h
    have hsome : bytes.toByteArray.utf8Decode?.isSome = true := by rw [hchars]; rfl
    have hencode : (bytes.toByteArray.utf8Decode?.get hsome).toList.utf8Encode =
        bytes.toByteArray := ByteArray.utf8Encode_get_utf8Decode?
    rw [Option.get_of_eq_some hsome hchars, utf8Encode_eq, List.toByteArray_inj] at hencode
    exact hencode
  · intro h
    subst h
    exact ⟨value.toArray, by rw [← utf8Encode_eq, List.utf8Decode?_utf8Encode], by simp⟩

namespace PayloadReader

theorem accepts_readU8 (field : String) : Accepts (readU8 field) IsU8 := by
  refine ((accepts_readRaw 1 field).bind fun bytes => accepts_pure _).congr fun value symbols => ?_
  simp only [followed_and, followed_nil_right, IsU8]
  constructor
  · intro h
    obtain ⟨bytes, rfl, hlength, rfl⟩ := h
    obtain ⟨byte, rfl⟩ := List.length_eq_one_iff.mp hlength
    rfl
  · intro h
    subst h
    exact ⟨[value], rfl, rfl, rfl⟩

/-- A field of fixed width is read from its bytes. -/
theorem accepts_fixed {α : Type} {width : ℕ} {field : String} {decode : Bytes → α}
    {format : α → Bytes → Prop}
    (h : ∀ value bytes, bytes.length = width ∧ decode bytes = value ↔ format value bytes) :
    Accepts (do let bytes ← readRaw width field; return decode bytes) format := by
  refine ((accepts_readRaw width field).bind fun bytes => accepts_pure _).congr
    fun value symbols => ?_
  simp only [followed_and, followed_nil_right, ← h]
  constructor
  · intro h
    obtain ⟨bytes, rfl, hlength, rfl⟩ := h
    exact ⟨hlength, rfl⟩
  · intro h
    exact ⟨symbols, h.2.symm, h.1, rfl⟩

theorem accepts_readU16 (field : String) : Accepts (readU16 field) IsU16 := by
  apply accepts_fixed
  intro value bytes
  constructor
  · intro h
    exact (uint16_ofBigEndian_eq_iff h.1).mp h.2
  · intro h
    have hlength : bytes.length = 2 := by rw [h, length_toBigEndian]
    exact ⟨hlength, (uint16_ofBigEndian_eq_iff hlength).mpr h⟩

theorem accepts_readU32 (field : String) : Accepts (readU32 field) IsU32 := by
  apply accepts_fixed
  intro value bytes
  rw [IsU32, le_u32Max_iff, toBeBytes_eq]
  constructor
  · intro h
    exact (ofBigEndian_eq_iff h.1).mp h.2
  · intro h
    have hlength : bytes.length = 4 := by rw [h.2, length_toBigEndian]
    exact ⟨hlength, (ofBigEndian_eq_iff hlength).mpr h⟩

theorem accepts_readBool (field : String) : Accepts (readBool field) IsBool := by
  refine ((accepts_readU8 field).bind fun value => (accepts_pure false).ite
    ((accepts_pure true).ite (accepts_throw _))).congr fun value symbols => ?_
  constructor
  · intro h
    obtain ⟨byte, _, _, rfl, hcases, rfl⟩ := h
    rcases hcases with ⟨rfl, rfl, rfl⟩ | ⟨_, ⟨rfl, rfl, rfl⟩ | ⟨_, hfalse⟩⟩
    · rfl
    · rfl
    · exact hfalse.elim
  · intro h
    cases value with
    | false => exact ⟨0, [0], [], rfl, Or.inl ⟨rfl, rfl, rfl⟩, h⟩
    | true => exact ⟨1, [1], [], rfl, Or.inr ⟨by decide, Or.inl ⟨rfl, rfl, rfl⟩⟩, h⟩

theorem accepts_readCount (field : String) (maximum : ℕ) :
    Accepts (readCount field maximum) fun count symbols =>
      count ≤ maximum ∧ IsU32 count symbols := by
  refine ((accepts_readU32 field).bind fun count => (accepts_reject _ _).bind fun _ =>
    accepts_pure count).congr fun count symbols => ?_
  simp only [followed_nil_right, exists_const, followed_and, not_lt]
  constructor
  · intro h
    obtain ⟨_, rfl, hle, hcount⟩ := h
    exact ⟨hle, hcount⟩
  · intro h
    exact ⟨count, rfl, h.1, h.2⟩

theorem accepts_readBytes (field : String) : Accepts (readBytes field) IsBytes := by
  refine ((accepts_readU32 field).bind fun length => accepts_readRaw length field).congr
    fun bytes symbols => ?_
  simp only [followed_and]
  constructor
  · intro h
    obtain ⟨length, rfl, hbytes⟩ := h
    exact hbytes
  · intro h
    exact ⟨bytes.length, rfl, h⟩

theorem accepts_readStr (field : String) : Accepts (readStr field) IsString := by
  refine ((accepts_readBytes field).bind fun bytes => accepts_require _ _).congr
    fun value symbols => ?_
  simp only [followed_and, followed_nil_right, fromUtf8_eq_some_iff]
  constructor
  · intro h
    obtain ⟨bytes, rfl, hbytes⟩ := h
    exact hbytes
  · intro h
    exact ⟨_, rfl, h⟩

theorem accepts_readOptionalString (field : String) :
    Accepts (readOptionalString field) IsOptionalString := by
  refine ((accepts_readBool field).bind fun present => ((accepts_readStr field).bind fun text =>
    accepts_pure (some text)).ite (accepts_pure none)).congr fun value symbols => ?_
  cases value with
  | none => simp [IsOptionalString]
  | some text => simp [IsOptionalString]

end PayloadReader

/-! ## Writers of fields -/

namespace PayloadWriter

theorem emits_writeU8 (value : UInt8) :
    Emits (fun writer => (.ok (writeU8 value writer) : Except PayloadError Bytes)) (IsU8 value) :=
  emits_ok [value]

theorem emits_writeU16 (value : UInt16) :
    Emits (fun writer => (.ok (writeU16 value writer) : Except PayloadError Bytes)) (IsU16 value) :=
  emits_ok _

theorem emits_writeBool (value : Bool) :
    Emits (fun writer => (.ok (writeBool value writer) : Except PayloadError Bytes))
      (IsBool value) :=
  emits_ok _

theorem emits_writeLength (length : ℕ) : Emits (writeLength length) (IsU32 length) := by
  intro writer writer'
  constructor
  · intro h
    obtain ⟨hle, rfl⟩ := le_of_writeLength h
    exact ⟨_, ⟨hle, rfl⟩, rfl⟩
  · intro h
    obtain ⟨_, ⟨hle, rfl⟩, rfl⟩ := h
    exact writeLength_of_le hle writer

theorem emits_writeBytes (bytes : Bytes) : Emits (writeBytes bytes) (IsBytes bytes) :=
  (emits_writeLength bytes.length).bind (emits_ok bytes)

theorem emits_writeString (value : Text) : Emits (writeString value) (IsString value) :=
  emits_writeBytes (utf8 value)

theorem emits_writeOptionalString (value : Option Text) :
    Emits (writeOptionalString value) (IsOptionalString value) := by
  cases value with
  | none => exact emits_writeBool false
  | some value => exact (emits_writeBool true).bind (emits_writeString value)

end PayloadWriter

end Mago.Extension
