import SmartQuant.Lib.Framing
import SmartQuant.Lib.LittleEndian
import SmartQuant.Lib.RingStream
import SmartQuant.Lib.Word64

/-!
# The binary logger

A log file is a header page and a ring of bytes. `write` puts a 12-byte record
header and the payload into the ring behind everything written before; a `Reader`
starts at the oldest byte the ring still has and takes record after record.
The mapping is shared, so `next` is handed the ring as it is at the call. System
calls (open, ftruncate, mmap) are taken to succeed.
-/
namespace SmartQuant

open LittleEndian RingStream

def kLogMagic : Nat := 0x474F4C5849465153

def kLogVersion : Nat := 1

def kHeaderSize : Nat := 4096

def kRecordHeaderSize : Nat := 12

/-- The file behind a logger or a reader. -/
structure LogFile where
  magic : Nat
  version : Nat
  bufferSize : Nat
  writePos : Nat
  fileSize : Nat
  ring : Nat → UInt8

/-- `round_up_page`, for a page of `page` bytes. -/
def roundUpPage (page n : Nat) : Nat := Word64.sub (Word64.add n page) 1 / page * page

structure BinaryLogger where
  bufSize : Nat
  file : LogFile

def recordHeader (tsNs length : Nat) : List UInt8 := toLE 8 tsNs ++ toLE 4 length

namespace BinaryLogger

/-- The constructor; `ftruncate` leaves the ring zeroed. -/
def create (page bufferSize : Nat) : Except String BinaryLogger :=
  if bufferSize = 0 then .error "BinaryLogger: buffer_size must be > 0"
  else
    let bufSize := roundUpPage page bufferSize
    .ok { bufSize
          file := { magic := kLogMagic, version := kLogVersion, bufferSize := bufSize
                    writePos := 0, fileSize := kHeaderSize + bufSize, ring := fun _ => 0 } }

def write (l : BinaryLogger) (tsNs : Nat) (data : List UInt8) : BinaryLogger :=
  let pos := l.file.writePos
  let header := ringWrite l.bufSize l.file.ring (pos % l.bufSize) (recordHeader tsNs data.length)
  let payload := ringWrite l.bufSize header.1 header.2 data
  { l with file := { l.file with
      ring := payload.1
      writePos := Word64.add pos (kRecordHeaderSize + data.length) } }

/-- `write` as the machine runs it: `pos % buf_size_` traps on a ring of no bytes. -/
def writeOrTrap (l : BinaryLogger) (tsNs : Nat) (data : List UInt8) : Option BinaryLogger :=
  if l.bufSize = 0 then none else some (l.write tsNs data)

/-- Where the payload of an entry lies: in the mapped ring, or in the reader's bounce buffer. -/
inductive DataPtr where
  | ring (off : Nat)
  | bounce
  deriving DecidableEq, Repr

structure Entry where
  timestampNs : Nat
  length : Nat
  data : DataPtr
  deriving DecidableEq, Repr

structure Reader where
  bufSize : Nat
  readPos : Nat
  endPos : Nat
  totalRecords : Nat := 0
  bounce : List UInt8 := []

namespace Reader

/-- The read position at a given `write_pos`: everything, or the last `buf_size_` bytes. -/
def oldest (bufSize endPos : Nat) : Nat := if bufSize < endPos then endPos - bufSize else 0

def ofFile (file : LogFile) : Except String Reader :=
  if file.fileSize < kHeaderSize then .error "BinaryLogger::Reader: file too small"
  else if file.magic ≠ kLogMagic then
    .error "BinaryLogger::Reader: bad magic — not a valid sq binary log file"
  else
    .ok { bufSize := file.bufferSize, endPos := file.writePos
          readPos := oldest file.bufferSize file.writePos }

/-- `ring_read_into`: the bytes read, and the reader behind them. -/
def ringReadInto (mem : Nat → UInt8) (r : Reader) (n : Nat) : List UInt8 × Reader :=
  (ringRead r.bufSize mem r.readPos n, { r with readPos := Word64.add r.readPos n })

/-- Set the entry for a payload at the read position: a pointer into the ring where the
payload is contiguous, a copy in the bounce buffer where it straddles the end. -/
def takePayload (mem : Nat → UInt8) (r : Reader) (tsNs length : Nat) : Entry × Reader :=
  let dataOff := r.readPos % r.bufSize
  if length ≤ r.bufSize - dataOff then
    ({ timestampNs := tsNs, length, data := .ring dataOff },
      { r with
        readPos := Word64.add r.readPos length
        totalRecords := r.totalRecords + 1 })
  else
    ({ timestampNs := tsNs, length, data := .bounce },
      { (r.ringReadInto mem length).2 with
        bounce := (r.ringReadInto mem length).1
        totalRecords := r.totalRecords + 1 })

/-- One call of `next`; without an entry it returned false. -/
def next (mem : Nat → UInt8) (r : Reader) : Option Entry × Reader :=
  if r.endPos < Word64.add r.readPos kRecordHeaderSize then (none, r)
  else
    let header := (r.ringReadInto mem kRecordHeaderSize).1
    let behind := (r.ringReadInto mem kRecordHeaderSize).2
    let length := ofLE (header.drop 8)
    if r.endPos < Word64.add behind.readPos length then
      (none, { behind with readPos := Word64.sub behind.readPos kRecordHeaderSize })
    else
      let taken := behind.takePayload mem (ofLE (header.take 8)) length
      (some taken.1, taken.2)

def rewind (file : LogFile) (r : Reader) : Reader :=
  { r with
    endPos := file.writePos
    readPos := oldest r.bufSize file.writePos
    totalRecords := 0 }

def bytesAvailable (r : Reader) : Nat := Word64.sub r.endPos r.readPos

def payload (mem : Nat → UInt8) (r : Reader) (e : Entry) : List UInt8 :=
  match e.data with
  | .ring off => slice mem off e.length
  | .bounce => r.bounce.take e.length

/-- Contiguous or not, the entry of a payload gives the bytes at the read position. -/
theorem payload_takePayload (mem : Nat → UInt8) (r : Reader)
    (tsNs length : Nat) :
    (r.takePayload mem tsNs length).2.payload mem (r.takePayload mem tsNs length).1 =
      ringRead r.bufSize mem r.readPos length := by
  rw [Reader.takePayload]
  simp only
  by_cases hfit : length ≤ r.bufSize - r.readPos % r.bufSize
  · rw [if_pos hfit, ringRead]
    exact (if_pos hfit).symm
  · rw [if_neg hfit]
    exact List.take_of_length_le (length_ringRead _ _ _ _).le

theorem takePayload_eq (mem : Nat → UInt8) (r : Reader) (tsNs length : Nat) :
    (r.takePayload mem tsNs length).1.timestampNs = tsNs ∧
      (r.takePayload mem tsNs length).1.length = length ∧
      (r.takePayload mem tsNs length).2 =
        { r with
          readPos := Word64.add r.readPos length
          totalRecords := r.totalRecords + 1
          bounce := (r.takePayload mem tsNs length).2.bounce } := by
  rw [Reader.takePayload]
  simp only
  split
  · exact ⟨rfl, rfl, rfl⟩
  · exact ⟨rfl, rfl, rfl⟩

end Reader
end BinaryLogger

/-- A record as its writer means it. -/
structure LogRecord where
  tsNs : Nat
  data : List UInt8
  tsNs_lt : tsNs < 2 ^ 64
  length_lt : data.length < 2 ^ 32

namespace LogRecord

def encode (rec : LogRecord) : List UInt8 := recordHeader rec.tsNs rec.data.length ++ rec.data

def size (rec : LogRecord) : Nat := kRecordHeaderSize + rec.data.length

/-- The payload length a header at the front of a stream announces. -/
def announced (s : List UInt8) : Nat := ofLE ((s.drop 8).take 4)

theorem announced_lt (s : List UInt8) : announced s < 2 ^ 32 := by
  have hval := ofLE_lt ((s.drop 8).take 4)
  have hlen : ((s.drop 8).take 4).length ≤ 4 := by
    rw [List.length_take]
    omega
  have hpow := Nat.pow_le_pow_right (n := 256) (by decide) hlen
  rw [announced]
  omega

def decode (s : List UInt8) : Option (LogRecord × List UInt8) :=
  if s.length < kRecordHeaderSize + announced s ∨ s.length < kRecordHeaderSize then none
  else
    some ({ tsNs := ofLE (s.take 8)
            data := (s.drop kRecordHeaderSize).take (announced s)
            tsNs_lt := by
              have hval := ofLE_lt (s.take 8)
              have hlen : (s.take 8).length ≤ 8 := by
                rw [List.length_take]
                omega
              have hpow := Nat.pow_le_pow_right (n := 256) (by decide) hlen
              omega
            length_lt := by
              have := announced_lt s
              rw [List.length_take]
              omega },
      s.drop (kRecordHeaderSize + announced s))

theorem decode_of_short {s : List UInt8}
    (h : s.length < kRecordHeaderSize + announced s ∨ s.length < kRecordHeaderSize) :
    decode s = none := if_pos h

theorem decode_of_long {s : List UInt8} (h : kRecordHeaderSize + announced s ≤ s.length) :
    ∃ rec : LogRecord, decode s = some (rec, s.drop (kRecordHeaderSize + announced s)) ∧
      rec.tsNs = ofLE (s.take 8) ∧ rec.data = (s.drop kRecordHeaderSize).take (announced s) := by
  rw [decode, if_neg (by omega)]
  exact ⟨_, rfl, rfl, rfl⟩

@[simp] theorem length_recordHeader (tsNs length : Nat) :
    (recordHeader tsNs length).length = kRecordHeaderSize := by
  simp [recordHeader, kRecordHeaderSize]

@[simp] theorem length_encode (rec : LogRecord) : rec.encode.length = rec.size := by
  simp [encode, size]

theorem announced_encode (rec : LogRecord) (rest : List UInt8) :
    announced (rec.encode ++ rest) = rec.data.length := by
  rw [announced, encode, recordHeader]
  simp only [List.append_assoc]
  rw [List.drop_left' (length_toLE 8 _), List.take_left' (length_toLE 4 _)]
  exact ofLE_toLE rec.length_lt

theorem decode_encode (rec : LogRecord) (rest : List UInt8) :
    decode (rec.encode ++ rest) = some (rec, rest) := by
  have hlen : (rec.encode ++ rest).length = kRecordHeaderSize + rec.data.length + rest.length := by
    rw [List.length_append, length_encode, size]
  rw [decode, if_neg (by rw [announced_encode, hlen]; omega)]
  have hts : ofLE ((rec.encode ++ rest).take 8) = rec.tsNs := by
    rw [encode, recordHeader]
    simp only [List.append_assoc]
    rw [List.take_left' (length_toLE 8 _)]
    exact ofLE_toLE rec.tsNs_lt
  have hdata : ((rec.encode ++ rest).drop kRecordHeaderSize).take
      (announced (rec.encode ++ rest)) = rec.data := by
    rw [announced_encode]
    rw [encode, List.append_assoc, List.drop_left' (length_recordHeader _ _), List.take_left' rfl]
  have hrest : (rec.encode ++ rest).drop (kRecordHeaderSize + announced (rec.encode ++ rest)) =
      rest := by
    rw [announced_encode]
    exact List.drop_left' (length_encode rec)
  simp only [hrest, Option.some.injEq, Prod.mk.injEq, and_true]
  cases rec
  simp only [LogRecord.mk.injEq]
  exact ⟨hts, hdata⟩

theorem eq_of_decode (s : List UInt8) (rec : LogRecord) (rest : List UInt8)
    (h : decode s = some (rec, rest)) : s = rec.encode ++ rest := by
  rw [decode] at h
  split at h
  · cases h
  · rename_i hlen
    cases h
    have h8 : (s.take 8).length = 8 := by
      rw [List.length_take]
      rw [kRecordHeaderSize] at hlen
      omega
    have h4 : ((s.drop 8).take 4).length = 4 := by
      rw [List.length_take, List.length_drop]
      rw [kRecordHeaderSize] at hlen
      omega
    have hdata : ((s.drop kRecordHeaderSize).take (announced s)).length = announced s := by
      rw [List.length_take, List.length_drop]
      omega
    have hann : toLE 4 (announced s) = (s.drop 8).take 4 := toLE_ofLE h4
    rw [encode, recordHeader]
    simp only [hdata, toLE_ofLE h8, hann]
    have hsplit : s.take 8 ++ (s.drop 8).take 4 = s.take kRecordHeaderSize := by
      rw [← List.take_add]
      rfl
    rw [hsplit, List.append_assoc, ← List.drop_drop, List.take_append_drop,
      List.take_append_drop]

def framing : Framing LogRecord UInt8 where
  encode := encode
  decode := decode
  decode_append := decode_encode
  eq_of_decode := eq_of_decode
  encode_ne_nil rec h := by
    have := congrArg List.length h
    rw [length_encode, List.length_nil, size, kRecordHeaderSize] at this
    omega

end LogRecord
end SmartQuant
