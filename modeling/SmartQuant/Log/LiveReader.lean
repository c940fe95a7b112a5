import SmartQuant.Lib.Runs
import SmartQuant.Log.RoundTrip

/-!
# A reader beside a running writer

The mapping is shared. `write` stores the bytes of a record one by one and publishes
`write_pos` last; a reader loads bytes of the same ring, and the caller loads those of a
payload it got a pointer to. Each store and load is a step of its own. Left alone, the
steps of a call come to what the call does.
-/
namespace SmartQuant

open BinaryLogger LogRecord RingStream RoundTrip Runs

/-- Where a reader stands: between two calls of `next`, in a header, or in a payload. The
payload is loaded inside the call where it straddles the end of the ring, else by the caller
behind it. -/
inductive ReaderPc where
  | idle
  | header (got : List UInt8)
  | payload (tsNs length : Nat) (got : List UInt8)

/-- A reader, the records completely written when it was constructed, and the entries it has
handed out, with the bytes the caller found. -/
structure LiveReader where
  reader : Reader
  pc : ReaderPc := .idle
  snapshot : List LogRecord
  seen : List Yielded := []

/-- A logger with its writer and one reader. A record under way comes with the number of its
bytes already stored. -/
structure LogSession where
  logger : BinaryLogger
  written : List LogRecord := []
  pending : Option (LogRecord × Nat) := none
  live : Option LiveReader := none

/-- Which thread moves. An idle writer starts to write the given record. -/
inductive LogLabel where
  | writer (rec : LogRecord)
  | openReader
  | reader

namespace BinaryLogger

/-- Store one byte of a record, `k` bytes behind `write_pos`. -/
def storeByte (l : BinaryLogger) (k : Nat) (b : UInt8) : BinaryLogger :=
  { l with file := { l.file with
      ring := (ringWrite l.bufSize l.file.ring ((l.file.writePos % l.bufSize + k) % l.bufSize)
        [b]).1 } }

def publish (l : BinaryLogger) (rec : LogRecord) : BinaryLogger :=
  { l with file := { l.file with
      writePos := Word64.add l.file.writePos (kRecordHeaderSize + rec.data.length) } }

end BinaryLogger

namespace LiveReader

/-- The byte `j` places behind the read position. -/
def load (file : LogFile) (v : LiveReader) (j : Nat) : UInt8 :=
  file.ring ((v.reader.readPos + j) % v.reader.bufSize)

/-- Go on with a payload; once it is complete, the entry has been handed out. -/
def takeBytes (v : LiveReader) (tsNs length : Nat) (got : List UInt8) : LiveReader :=
  if got.length < length then { v with pc := .payload tsNs length got }
  else
    { v with
      reader := { v.reader with
        readPos := Word64.add v.reader.readPos length
        totalRecords := v.reader.totalRecords + 1 }
      pc := .idle
      seen := v.seen ++ [⟨tsNs, length, got⟩] }

/-- Behind a header: without a complete record `next` reverts and returns false. -/
def takeHeader (v : LiveReader) (header : List UInt8) : LiveReader :=
  let behind := { v.reader with readPos := Word64.add v.reader.readPos kRecordHeaderSize }
  let length := LittleEndian.ofLE (header.drop 8)
  if behind.endPos < Word64.add behind.readPos length then
    { v with
      reader := { behind with readPos := Word64.sub behind.readPos kRecordHeaderSize }
      pc := .idle }
  else { v with reader := behind }.takeBytes (LittleEndian.ofLE (header.take 8)) length []

def step (file : LogFile) (v : LiveReader) : LiveReader :=
  match v.pc with
  | .idle =>
    if v.reader.endPos < Word64.add v.reader.readPos kRecordHeaderSize then v
    else { v with pc := .header [] }
  | .header got =>
    let got := got ++ [v.load file got.length]
    if got.length < kRecordHeaderSize then { v with pc := .header got } else v.takeHeader got
  | .payload tsNs length got => v.takeBytes tsNs length (got ++ [v.load file got.length])

section Loads

variable {file : LogFile} {v : LiveReader}

theorem step_header (got : List UInt8) : step file { v with pc := .header got } =
    if (got ++ [v.load file got.length]).length < kRecordHeaderSize then
      { v with pc := .header (got ++ [v.load file got.length]) }
    else v.takeHeader (got ++ [v.load file got.length]) := rfl

theorem step_payload (tsNs length : Nat) (got : List UInt8) :
    step file { v with pc := .payload tsNs length got } =
      v.takeBytes tsNs length (got ++ [v.load file got.length]) := rfl

/-- The first `n` bytes from the read position on. -/
def loads (file : LogFile) (v : LiveReader) (n : Nat) : List UInt8 :=
  (List.range n).map (v.load file)

@[simp] theorem length_loads (n : Nat) : (v.loads file n).length = n := by
  rw [loads, List.length_map, List.length_range]

theorem loads_succ (n : Nat) : v.loads file (n + 1) = v.loads file n ++ [v.load file n] := by
  rw [loads, List.range_succ, List.map_append]
  rfl

theorem iterate_header {n : Nat} (hn : n < kRecordHeaderSize) :
    (step file)^[n] { v with pc := .header [] } = { v with pc := .header (v.loads file n) } := by
  induction n with
  | zero => rfl
  | succ n ih =>
    rw [Function.iterate_succ_apply', ih (by omega), step_header, length_loads, ← loads_succ,
      length_loads, if_pos hn]

theorem iterate_header_all : (step file)^[kRecordHeaderSize] { v with pc := .header [] } =
    v.takeHeader (v.loads file kRecordHeaderSize) := by
  rw [kRecordHeaderSize, Function.iterate_succ_apply', iterate_header (by decide), step_header,
    length_loads, ← loads_succ, length_loads, if_neg (by decide)]

theorem iterate_payload {tsNs length n : Nat} (hn : n < length) :
    (step file)^[n] { v with pc := .payload tsNs length [] } =
      { v with pc := .payload tsNs length (v.loads file n) } := by
  induction n with
  | zero => rfl
  | succ n ih =>
    rw [Function.iterate_succ_apply', ih (by omega), step_payload, length_loads, ← loads_succ,
      takeBytes, length_loads, if_pos hn]

theorem iterate_takeBytes (tsNs length : Nat) :
    (step file)^[length] (v.takeBytes tsNs length []) =
      { v with
        reader := { v.reader with
          readPos := Word64.add v.reader.readPos length
          totalRecords := v.reader.totalRecords + 1 }
        pc := .idle
        seen := v.seen ++ [⟨tsNs, length, v.loads file length⟩] } := by
  cases length with
  | zero => rfl
  | succ n =>
    have hbegin : v.takeBytes tsNs (n + 1) [] = { v with pc := .payload tsNs (n + 1) [] } :=
      if_pos (Nat.zero_lt_succ n)
    rw [hbegin, Function.iterate_succ_apply', iterate_payload (Nat.lt_succ_self n), step_payload,
      length_loads, ← loads_succ, takeBytes, length_loads, if_neg (lt_irrefl _)]

theorem loads_eq_ringRead (hpos : 0 < v.reader.bufSize) {n : Nat} (hn : n ≤ v.reader.bufSize) :
    v.loads file n = ringRead v.reader.bufSize file.ring v.reader.readPos n :=
  (ringRead_eq hpos _ _ hn).symm

/-- The loads of a payload come to what `takePayload` hands out. -/
theorem iterate_takePayload (hpos : 0 < v.reader.bufSize) (tsNs : Nat) {length : Nat}
    (hlength : length ≤ v.reader.bufSize) :
    (step file)^[length] (v.takeBytes tsNs length []) =
      { v with
        reader := { (v.reader.takePayload file.ring tsNs length).2 with
          bounce := v.reader.bounce }
        pc := .idle
        seen := v.seen ++ [⟨(v.reader.takePayload file.ring tsNs length).1.timestampNs,
          (v.reader.takePayload file.ring tsNs length).1.length,
          (v.reader.takePayload file.ring tsNs length).2.payload file.ring
            (v.reader.takePayload file.ring tsNs length).1⟩] } := by
  obtain ⟨hts, hlen, hreader⟩ := Reader.takePayload_eq file.ring v.reader tsNs length
  rw [iterate_takeBytes, loads_eq_ringRead hpos hlength, Reader.payload_takePayload, hts, hlen,
    hreader]

end Loads

/-- A call of `next` with the loads of its caller, and nothing in between. -/
def call (file : LogFile) (v : LiveReader) : LiveReader :=
  match v.reader.next file.ring with
  | (none, r) => { v with reader := r }
  | (some e, r) =>
    { v with
      reader := { r with bounce := v.reader.bounce }
      seen := v.seen ++ [⟨e.timestampNs, e.length, r.payload file.ring e⟩] }

/-- An idle reader left alone does what a call of `next` does. -/
theorem exists_iterate_call {file : LogFile} {v : LiveReader} (hidle : v.pc = .idle)
    (hpos : kRecordHeaderSize ≤ v.reader.bufSize) (hsmall : v.reader.endPos < 2 ^ 63)
    (hspan : v.reader.endPos ≤ v.reader.readPos + v.reader.bufSize)
    (hle : v.reader.readPos ≤ v.reader.endPos) :
    ∃ n, (step file)^[n] v = v.call file := by
  have hring : 0 < v.reader.bufSize := Nat.lt_of_lt_of_le (by decide) hpos
  have hadd : Word64.add v.reader.readPos kRecordHeaderSize =
      v.reader.readPos + kRecordHeaderSize :=
    Word64.add_of_small (by omega) (by decide)
  rw [call, Reader.next, Reader.ringReadInto]
  by_cases hover : v.reader.endPos < Word64.add v.reader.readPos kRecordHeaderSize
  · refine ⟨0, ?_⟩
    rw [if_pos hover]
    rfl
  rw [if_neg hover]
  have hbegin : v.step file = { v with pc := .header [] } := by
    rw [step, hidle]
    exact if_neg hover
  have hheader : (step file)^[kRecordHeaderSize + 1] v = v.takeHeader
      (ringRead v.reader.bufSize file.ring v.reader.readPos kRecordHeaderSize) := by
    rw [Function.iterate_succ_apply, hbegin, iterate_header_all, loads_eq_ringRead hring hpos]
  simp only
  have hlen := length_ringRead v.reader.bufSize file.ring v.reader.readPos kRecordHeaderSize
  generalize ringRead v.reader.bufSize file.ring v.reader.readPos kRecordHeaderSize = header
    at hheader hlen ⊢
  have hlength : LittleEndian.ofLE (header.drop 8) < 256 ^ 4 := by
    have hlt := LittleEndian.ofLE_lt (header.drop 8)
    rwa [List.length_drop, hlen] at hlt
  by_cases hmore : v.reader.endPos < Word64.add (Word64.add v.reader.readPos kRecordHeaderSize)
      (LittleEndian.ofLE (header.drop 8))
  · refine ⟨kRecordHeaderSize + 1, ?_⟩
    rw [hheader, takeHeader]
    simp only
    rw [if_pos hmore, hidle]
    simp only [hmore, ↓reduceIte]
  · refine ⟨LittleEndian.ofLE (header.drop 8) + (kRecordHeaderSize + 1), ?_⟩
    rw [Function.iterate_add_apply, hheader, takeHeader]
    simp only
    rw [if_neg hmore]
    simp only [hmore, ↓reduceIte]
    rw [hidle]
    refine iterate_takePayload ?_ _ ?_
    · exact hring
    · have hhead : kRecordHeaderSize = 12 := rfl
      have hadd' : Word64.add (v.reader.readPos + kRecordHeaderSize)
          (LittleEndian.ofLE (header.drop 8)) =
          v.reader.readPos + kRecordHeaderSize + LittleEndian.ofLE (header.drop 8) :=
        Word64.add_of_small (by omega) (by omega)
      rw [hadd, hadd'] at hmore
      simp only
      omega

end LiveReader

namespace LogSession

def writerStep (s : LogSession) (rec : LogRecord) : LogSession :=
  match s.pending with
  | none => { s with pending := some (rec, 0) }
  | some (rec, k) =>
    match rec.encode[k]? with
    | some b => { s with logger := s.logger.storeByte k b, pending := some (rec, k + 1) }
    | none =>
      { s with logger := s.logger.publish rec, written := s.written ++ [rec], pending := none }

def openReader (s : LogSession) : LogSession :=
  match s.live, Reader.ofFile s.logger.file with
  | none, .ok reader => { s with live := some { reader, snapshot := s.written } }
  | _, _ => s

def step (s : LogSession) : LogLabel → LogSession
  | .writer rec => s.writerStep rec
  | .openReader => s.openReader
  | .reader => { s with live := s.live.map (LiveReader.step s.logger.file) }

/-- All bytes of a list stored one by one, from `k` bytes behind `write_pos` on. -/
def storeAll (l : BinaryLogger) (k : Nat) : List UInt8 → BinaryLogger
  | [] => l
  | b :: bs => storeAll (l.storeByte k b) (k + 1) bs

section Write

variable {l : BinaryLogger} {k : Nat}

theorem storeAll_concat (bs : List UInt8) (b : UInt8) :
    storeAll l k (bs ++ [b]) = (storeAll l k bs).storeByte (k + bs.length) b := by
  induction bs generalizing l k with
  | nil => rfl
  | cons b' bs ih =>
    rw [List.cons_append, storeAll, ih, storeAll, List.length_cons]
    congr 1
    omega

/-- Storing changes the ring only. -/
theorem storeAll_eq (bs : List UInt8) : storeAll l k bs =
    { l with file := { l.file with ring := (storeAll l k bs).file.ring } } := by
  induction bs generalizing l k with
  | nil => rfl
  | cons b bs ih => rw [storeAll, ih, storeByte]

theorem wrote_storeByte (h : 0 < l.bufSize) (b : UInt8) :
    Wrote l.bufSize l.file.ring (l.file.writePos % l.bufSize + k) [b]
      (l.storeByte k b).file.ring := by
  have hlen : [b].length ≤ l.bufSize := h
  exact (wrote_ringWrite (Nat.mod_lt _ h).le hlen).of_mod_eq (Nat.mod_mod _ _)

theorem wrote_storeAll (h : 0 < l.bufSize) {bs : List UInt8} (hlen : bs.length ≤ l.bufSize) :
    Wrote l.bufSize l.file.ring (l.file.writePos % l.bufSize + k) bs
      (storeAll l k bs).file.ring := by
  induction bs generalizing l k with
  | nil => exact ⟨fun j hj => absurd hj (Nat.not_lt_zero j), fun _ _ => rfl⟩
  | cons b bs ih =>
    rw [List.length_cons] at hlen
    have hrest : Wrote l.bufSize (l.storeByte k b).file.ring
        (l.file.writePos % l.bufSize + (k + 1)) bs (storeAll l k (b :: bs)).file.ring :=
      ih (show 0 < (l.storeByte k b).bufSize from h)
        (show bs.length ≤ (l.storeByte k b).bufSize by exact Nat.le_of_succ_le hlen)
    exact (wrote_storeByte h b).append hrest (by rw [List.length_singleton]; omega)

theorem wrote_write (h : 0 < l.bufSize) {rec : LogRecord} (hsize : rec.size ≤ l.bufSize) :
    Wrote l.bufSize l.file.ring (l.file.writePos % l.bufSize) rec.encode
      (l.write rec.tsNs rec.data).file.ring := by
  rw [LogRecord.size] at hsize
  have hoff : l.file.writePos % l.bufSize ≤ l.bufSize := (Nat.mod_lt _ h).le
  have hheader : (recordHeader rec.tsNs rec.data.length).length ≤ l.bufSize := by
    rw [length_recordHeader]
    omega
  have hdata : rec.data.length ≤ l.bufSize := by omega
  have hfirst : Wrote l.bufSize l.file.ring (l.file.writePos % l.bufSize)
      (recordHeader rec.tsNs rec.data.length)
      (ringWrite l.bufSize l.file.ring (l.file.writePos % l.bufSize)
        (recordHeader rec.tsNs rec.data.length)).1 := wrote_ringWrite hoff hheader
  refine hfirst.append ((wrote_ringWrite (ringWrite_off_le hoff hheader) hdata).of_mod_eq
    (ringWrite_off_mod hoff)) ?_
  rw [length_recordHeader]
  exact hsize

/-- The stores of a record and the publication come to a call of `write`. -/
theorem publish_storeAll (h : 0 < l.bufSize) {rec : LogRecord} (hsize : rec.size ≤ l.bufSize) :
    (storeAll l 0 rec.encode).publish rec = l.write rec.tsNs rec.data := by
  have hring : (storeAll l 0 rec.encode).file.ring = (l.write rec.tsNs rec.data).file.ring :=
    (wrote_storeAll h (by rwa [length_encode])).unique (wrote_write h hsize)
  rw [storeAll_eq, hring]
  rfl

end Write

theorem run_stores {s : LogSession} {rec : LogRecord} (hs : s.pending = some (rec, 0)) {n : Nat}
    (hn : n ≤ rec.size) (next : LogRecord) : run step s (List.replicate n (.writer next)) =
      { s with
        logger := storeAll s.logger 0 (rec.encode.take n)
        pending := some (rec, n) } := by
  induction n with
  | zero =>
    rw [List.replicate_zero, run_nil, ← hs]
    rfl
  | succ n ih =>
    have hlt : n < rec.encode.length := by rwa [length_encode]
    have hbyte : rec.encode[n]? = some rec.encode[n] := List.getElem?_eq_getElem hlt
    have hstored := @storeAll_concat s.logger 0 (rec.encode.take n) rec.encode[n]
    rw [List.take_concat_get' _ _ hlt, Nat.zero_add, List.length_take,
      Nat.min_eq_left hlt.le] at hstored
    rw [List.replicate_succ', run_concat, ih (Nat.le_of_succ_le hn), step, writerStep, hstored]
    simp only [hbyte]

/-- An idle writer left alone completes its write. -/
theorem run_write {s : LogSession} (hs : s.pending = none) (hpos : 0 < s.logger.bufSize)
    {rec : LogRecord} (hsize : rec.size ≤ s.logger.bufSize) :
    run step s (List.replicate (rec.size + 2) (.writer rec)) =
      { s with
        logger := s.logger.write rec.tsNs rec.data
        written := s.written ++ [rec] } := by
  have hbegin : s.step (.writer rec) = { s with pending := some (rec, 0) } := by
    rw [step, writerStep, hs]
  have hdone : rec.encode[rec.size]? = none := by
    rw [List.getElem?_eq_none_iff, length_encode]
  rw [List.replicate_succ', run_concat, List.replicate_succ, run_cons, hbegin,
    run_stores rfl le_rfl, step, writerStep]
  simp only [hdone]
  rw [List.take_of_length_le (by rw [length_encode]), publish_storeAll hpos hsize, ← hs]

end LogSession
end SmartQuant
