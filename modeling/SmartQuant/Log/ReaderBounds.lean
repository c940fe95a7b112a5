import SmartQuant.Lib.Runs
import SmartQuant.Log.ReaderPass

/-!
# Where `next` reads

The constructor compares the size of the file with the header page, but not with the
`buffer_size` the header names, and every offset is reduced modulo the latter. A call
stays in the file exactly when the record it takes ends there; it always does where the
file has the whole ring.
-/
namespace SmartQuant.ReaderBounds

open BinaryLogger RingStream ReaderPass Runs

inductive ReaderCall where
  | next
  | rewind

def readerStep (file : LogFile) (r : Reader) : ReaderCall → Reader
  | .next => (r.next file.ring).2
  | .rewind => r.rewind file

/-- The header is read while 12 bytes remain. On a ring of no bytes the call traps first. -/
def headerReads (r : Reader) : List Nat :=
  if r.bufSize = 0 ∨ r.endPos < Word64.add r.readPos kRecordHeaderSize then []
  else ringCells r.bufSize (r.readPos % r.bufSize) kRecordHeaderSize

/-- The payload is read by the call, or by who follows the pointer it returns. -/
def payloadReads (mem : Nat → UInt8) (r : Reader) : List Nat :=
  match (r.next mem).1 with
  | none => []
  | some e =>
    match e.data with
    | .ring off => List.range' off e.length
    | .bounce =>
      ringCells r.bufSize (Word64.add r.readPos kRecordHeaderSize % r.bufSize) e.length

/-- The ring offsets read on account of a call of `next`. -/
def reads (mem : Nat → UInt8) (r : Reader) : List Nat :=
  if r.bufSize = 0 then [] else headerReads r ++ payloadReads mem r

/-- Every byte read on account of a call lies in the file. -/
def StaysInFile (file : LogFile) (r : Reader) : ReaderCall → Prop
  | .next => ∀ i ∈ reads file.ring r, kHeaderSize + i < file.fileSize
  | .rewind => True

/-- A stretch of `n` bytes from ring offset `off` on ends before the file does. Going around,
it has the last byte of the ring. -/
def EndsInFile (file : LogFile) (size off n : Nat) : Prop :=
  if n ≤ size - off then n = 0 ∨ kHeaderSize + off + n ≤ file.fileSize
  else kHeaderSize + size ≤ file.fileSize ∧ kHeaderSize + (n - (size - off)) ≤ file.fileSize

/-- The payload length that the header at the read position announces. -/
def announced (mem : Nat → UInt8) (r : Reader) : Nat :=
  LittleEndian.ofLE ((ringRead r.bufSize mem r.readPos kRecordHeaderSize).drop 8)

/-- If a header remains, it ends in the file, and so does its payload if that remains too. -/
def RecordInFile (file : LogFile) (r : Reader) : ReaderCall → Prop
  | .next =>
    let behind := Word64.add r.readPos kRecordHeaderSize
    let len := announced file.ring r
    r.bufSize = 0 ∨ r.endPos < behind ∨
      EndsInFile file r.bufSize (r.readPos % r.bufSize) kRecordHeaderSize ∧
        (Word64.add behind len ≤ r.endPos →
          EndsInFile file r.bufSize (behind % r.bufSize) len)
  | .rewind => True

section Call

variable {mem mem' : Nat → UInt8} {r : Reader}

theorem next_of_short (h : r.endPos < Word64.add r.readPos kRecordHeaderSize) :
    r.next mem = (none, r) := if_pos h

/-- Of an incomplete record the call keeps nothing but a read position. -/
theorem next_of_cut (h : ¬ r.endPos < Word64.add r.readPos kRecordHeaderSize)
    (hcut : r.endPos < Word64.add (Word64.add r.readPos kRecordHeaderSize) (announced mem r)) :
    ∃ pos, ∀ mem', announced mem' r = announced mem r →
      r.next mem' = (none, { r with readPos := pos }) := by
  refine ⟨Word64.sub (Word64.add r.readPos kRecordHeaderSize) kRecordHeaderSize,
    fun mem' hlen => ?_⟩
  rw [Reader.next, if_neg h]
  rw [← hlen] at hcut
  exact if_pos hcut

/-- A call that takes a record, in terms of the bytes of its header. -/
theorem next_of_record (h : ¬ r.endPos < Word64.add r.readPos kRecordHeaderSize)
    (hcut : ¬ r.endPos < Word64.add (Word64.add r.readPos kRecordHeaderSize) (announced mem r)) :
    ∃ pos, pos = Word64.add r.readPos kRecordHeaderSize ∧ r.next mem =
      let taken := Reader.takePayload mem { r with readPos := pos }
        (LittleEndian.ofLE ((ringRead r.bufSize mem r.readPos kRecordHeaderSize).take 8))
        (announced mem r)
      (some taken.1, taken.2) := by
  refine ⟨_, rfl, ?_⟩
  rw [Reader.next, if_neg h]
  exact if_neg hcut

theorem payloadReads_of_none (h : (r.next mem).1 = none) : payloadReads mem r = [] := by
  rw [payloadReads, h]

/-- Contiguous or not, a payload occupies the cells behind its header. -/
theorem payloadReads_of_record (h : ¬ r.endPos < Word64.add r.readPos kRecordHeaderSize)
    (hcut : ¬ r.endPos < Word64.add (Word64.add r.readPos kRecordHeaderSize) (announced mem r)) :
    payloadReads mem r = ringCells r.bufSize
      (Word64.add r.readPos kRecordHeaderSize % r.bufSize) (announced mem r) := by
  obtain ⟨pos, hpos, hnext⟩ := next_of_record h hcut
  rw [payloadReads, hnext, ← hpos, Reader.takePayload]
  by_cases hfit : announced mem r ≤ r.bufSize - pos % r.bufSize
  · rw [if_pos hfit, ringCells, if_pos hfit]
  · rw [if_neg hfit]

/-- The bytes of a returned entry are those at the offsets read for it. -/
theorem payload_eq_map {e : Entry} (h : (r.next mem).1 = some e) :
    (r.next mem).2.payload mem e = (payloadReads mem r).map mem := by
  by_cases hhead : r.endPos < Word64.add r.readPos kRecordHeaderSize
  · rw [next_of_short hhead] at h
    cases h
  by_cases hcut :
      r.endPos < Word64.add (Word64.add r.readPos kRecordHeaderSize) (announced mem r)
  · obtain ⟨pos, hnext⟩ := next_of_cut hhead hcut
    rw [hnext mem rfl] at h
    cases h
  · obtain ⟨pos, hpos, hnext⟩ := next_of_record hhead hcut
    rw [payloadReads_of_record hhead hcut, ← hpos]
    rw [hnext] at h ⊢
    cases h
    exact (Reader.payload_takePayload _ _ _ _).trans (ringRead_eq_map pos)

theorem takePayload_congr {tsNs length : Nat} (h : ringRead r.bufSize mem' r.readPos length =
    ringRead r.bufSize mem r.readPos length) :
    r.takePayload mem' tsNs length = r.takePayload mem tsNs length := by
  rw [Reader.takePayload, Reader.takePayload, Reader.ringReadInto, Reader.ringReadInto, h]

/-- A call depends on no other byte of the file. -/
theorem next_congr (hsize : r.bufSize ≠ 0) (h : ∀ i ∈ reads mem r, mem' i = mem i) :
    r.next mem' = r.next mem := by
  rw [reads, if_neg hsize, List.forall_mem_append] at h
  by_cases hhead : r.endPos < Word64.add r.readPos kRecordHeaderSize
  · rw [next_of_short hhead, next_of_short hhead]
  have hheader : ringRead r.bufSize mem' r.readPos kRecordHeaderSize =
      ringRead r.bufSize mem r.readPos kRecordHeaderSize := by
    have hcells := h.1
    rw [headerReads, if_neg (by rw [not_or]; exact ⟨hsize, hhead⟩)] at hcells
    rw [ringRead_eq_map, ringRead_eq_map]
    exact List.map_congr_left hcells
  have hlen : announced mem' r = announced mem r := by rw [announced, hheader, announced]
  by_cases hcut :
      r.endPos < Word64.add (Word64.add r.readPos kRecordHeaderSize) (announced mem r)
  · obtain ⟨pos, hnext⟩ := next_of_cut hhead hcut
    rw [hnext mem' hlen, hnext mem rfl]
  · obtain ⟨pos, hpos, hnext⟩ := next_of_record hhead hcut
    obtain ⟨pos', hpos', hnext'⟩ := @next_of_record mem' r hhead (by rwa [hlen])
    have hcells := h.2
    rw [payloadReads_of_record hhead hcut, ← hpos] at hcells
    have hpayload : ringRead r.bufSize mem' pos (announced mem r) =
        ringRead r.bufSize mem pos (announced mem r) := by
      rw [ringRead_eq_map, ringRead_eq_map]
      exact List.map_congr_left hcells
    rw [← hpos] at hpos'
    rw [hnext, hnext', hheader, hlen, hpos', takePayload_congr hpayload]

theorem takePayload_bufSize (tsNs length : Nat) :
    (r.takePayload mem tsNs length).2.bufSize = r.bufSize := by
  rw [(Reader.takePayload_eq mem r tsNs length).2.2]

theorem next_bufSize : (r.next mem).2.bufSize = r.bufSize := by
  by_cases hhead : r.endPos < Word64.add r.readPos kRecordHeaderSize
  · rw [next_of_short hhead]
  by_cases hcut :
      r.endPos < Word64.add (Word64.add r.readPos kRecordHeaderSize) (announced mem r)
  · obtain ⟨pos, hnext⟩ := next_of_cut hhead hcut
    rw [hnext mem rfl]
  · obtain ⟨pos, -, hnext⟩ := next_of_record hhead hcut
    rw [hnext, takePayload_bufSize]

end Call

section InFile

variable {file : LogFile} {r : Reader}

theorem ringCells_in_file_iff {size off n : Nat} (hoff : off < size) :
    (∀ i ∈ ringCells size off n, kHeaderSize + i < file.fileSize) ↔
      EndsInFile file size off n := by
  have hlt : ∀ i, kHeaderSize + i < file.fileSize ↔ i < file.fileSize - kHeaderSize := by omega
  simp only [hlt]
  unfold ringCells EndsInFile
  simp only
  split
  · rw [forall_range'_lt]
    omega
  · rw [List.forall_mem_append, forall_range'_lt, forall_range'_lt]
    omega

theorem staysInFile_iff_recordInFile (call : ReaderCall) :
    StaysInFile file r call ↔ RecordInFile file r call := by
  cases call with
  | rewind => exact Iff.rfl
  | next =>
    rw [StaysInFile, RecordInFile, reads]
    by_cases hsize : r.bufSize = 0
    · rw [if_pos hsize]
      exact iff_of_true (fun i hi => absurd hi List.not_mem_nil) (Or.inl hsize)
    rw [if_neg hsize, or_iff_right hsize, headerReads]
    by_cases hhead : r.endPos < Word64.add r.readPos kRecordHeaderSize
    · rw [if_pos (Or.inr hhead), payloadReads, next_of_short hhead]
      exact iff_of_true (fun i hi => absurd hi List.not_mem_nil) (Or.inl hhead)
    have hpos : 0 < r.bufSize := Nat.pos_of_ne_zero hsize
    rw [if_neg (by rw [not_or]; exact ⟨hsize, hhead⟩), or_iff_right hhead,
      List.forall_mem_append, ringCells_in_file_iff (Nat.mod_lt _ hpos)]
    apply and_congr_right
    intro _
    by_cases hcut : r.endPos <
        Word64.add (Word64.add r.readPos kRecordHeaderSize) (announced file.ring r)
    · obtain ⟨pos, hnext⟩ := next_of_cut hhead hcut
      rw [payloadReads_of_none (by rw [hnext file.ring rfl])]
      exact iff_of_true (fun i hi => absurd hi List.not_mem_nil) fun hle => absurd hle hcut.not_ge
    · rw [payloadReads_of_record hhead hcut, ringCells_in_file_iff (Nat.mod_lt _ hpos)]
      exact ⟨fun h _ => h, fun h => h (Nat.not_lt.mp hcut)⟩

/-- A stretch of at most one turn ends in a file that has the whole ring. -/
theorem endsInFile_of_ring {size off n : Nat} (hring : kHeaderSize + size ≤ file.fileSize)
    (hoff : off < size) (hn : n ≤ size) : EndsInFile file size off n := by
  unfold EndsInFile
  split <;> omega

/-- What a reader of this file is at any time: nothing to read at all, or in a window. -/
def Ready (file : LogFile) (r : Reader) : Prop :=
  r.bufSize = file.bufferSize ∧ (r.bufSize = 0 ∨ ∃ start, InWindow start r)

theorem ready_oldest {total : Nat} {bounce : List UInt8}
    (hend : file.writePos + 2 ^ 33 < 2 ^ 64) : Ready file
      { bounce
        bufSize := file.bufferSize
        endPos := file.writePos
        readPos := Reader.oldest file.bufferSize file.writePos
        totalRecords := total } := by
  refine ⟨rfl, ?_⟩
  rcases Nat.eq_zero_or_pos file.bufferSize with hzero | hpos
  · exact Or.inl hzero
  · exact Or.inr ⟨_, inWindow_oldest hpos hend⟩

theorem ready_step (hend : file.writePos + 2 ^ 33 < 2 ^ 64) (h : Ready file r)
    (call : ReaderCall) : Ready file (readerStep file r call) := by
  obtain ⟨hsize, hwindow⟩ := h
  cases call with
  | rewind =>
    rw [readerStep, Reader.rewind, hsize]
    exact ready_oldest hend
  | next =>
    have hconst : (r.next file.ring).2.bufSize = r.bufSize := next_bufSize
    refine ⟨hconst.trans hsize, ?_⟩
    rcases hwindow with hzero | ⟨start, hwindow⟩
    · exact Or.inl (hconst.trans hzero)
    · exact Or.inr ⟨start, hwindow.step file.ring⟩

/-- No stretch that a reader takes is longer than its window. -/
theorem recordInFile_of_ready (hring : kHeaderSize + file.bufferSize ≤ file.fileSize)
    (h : Ready file r) (call : ReaderCall) : RecordInFile file r call := by
  obtain ⟨hsize, hwindow⟩ := h
  rw [← hsize] at hring
  cases call with
  | rewind => trivial
  | next =>
    rcases hwindow with hzero | ⟨start, hwindow⟩
    · exact Or.inl hzero
    have hsmall := hwindow.small
    have hstart := hwindow.start_le
    have hle := hwindow.le_end
    have hroom := hwindow.room
    have hlen : announced file.ring r < 2 ^ 32 := announced_header_lt file.ring r.readPos
    have hadd : Word64.add r.readPos kRecordHeaderSize = r.readPos + kRecordHeaderSize := by
      apply Word64.add_of_lt
      rw [Word64.size, kRecordHeaderSize]
      omega
    rw [RecordInFile, hadd]
    by_cases hhead : r.endPos < r.readPos + kRecordHeaderSize
    · exact Or.inr (Or.inl hhead)
    have hadd' : Word64.add (r.readPos + kRecordHeaderSize) (announced file.ring r) =
        r.readPos + kRecordHeaderSize + announced file.ring r := by
      apply Word64.add_of_lt
      rw [Word64.size]
      omega
    rw [hadd']
    have hpos := hwindow.bufSize_pos
    refine Or.inr (Or.inr ⟨?_, fun hbody => ?_⟩)
    · exact endsInFile_of_ring hring (Nat.mod_lt _ hpos) (by omega)
    · exact endsInFile_of_ring hring (Nat.mod_lt _ hpos) (by omega)

end InFile

/-- In any sequence of calls a reader stays in its file exactly when the records it takes end
there. Where the file has the whole ring of its header, they all do. -/
theorem staysInFile_iff {file : LogFile} {r : Reader} (h : Reader.ofFile file = .ok r) :
    (∀ calls, Along (readerStep file) (StaysInFile file) r calls ↔
      Along (readerStep file) (RecordInFile file) r calls) ∧
    (kHeaderSize + file.bufferSize ≤ file.fileSize → file.writePos + 2 ^ 33 < 2 ^ 64 →
      ∀ calls, Along (readerStep file) (StaysInFile file) r calls) := by
  have hiff : ∀ calls, Along (readerStep file) (StaysInFile file) r calls ↔
      Along (readerStep file) (RecordInFile file) r calls :=
    fun calls => along_congr fun r call _ => staysInFile_iff_recordInFile call
  refine ⟨hiff, fun hring hend calls => (hiff calls).mpr ?_⟩
  have hready : Ready file r := by
    rw [Reader.ofFile] at h
    split at h
    · cases h
    · split at h
      · cases h
      · cases h
        exact ready_oldest hend
  have hkeeps : ∀ r call, Ready file r → Ready file (readerStep file r call) :=
    fun _ call hr => ready_step hend hr call
  have hinFile : ∀ r call, Ready file r → RecordInFile file r call :=
    fun _ call hr => recordInFile_of_ready hring hr call
  exact along_of_invariant hkeeps hinFile hready calls

theorem staysInFile_iff_fullPage :
    Along (readerStep fullPage) (StaysInFile fullPage)
      { bufSize := 4096, endPos := 5000, readPos := 904 } [.next, .rewind, .next] :=
  (@staysInFile_iff fullPage _ rfl).2 (by decide) (by decide) [.next, .rewind, .next]

/-- A copy of the log that broke off after its header page. -/
def headerOnly : LogFile := { fullPage with fileSize := 4096 }

/-- Its first record would stand behind its end, and is read there. -/
theorem not_staysInFile_headerOnly :
    ∃ r, Reader.ofFile headerOnly = .ok r ∧
      ¬ Along (readerStep headerOnly) (StaysInFile headerOnly) r [.next] := by
  refine ⟨{ bufSize := 4096, endPos := 5000, readPos := 904 }, rfl, fun hstays => ?_⟩
  obtain hzero | hshort | ⟨hheader, -⟩ := (staysInFile_iff_recordInFile .next).mp hstays.1
  · exact absurd hzero (by decide)
  · exact absurd hshort (by decide)
  · rw [EndsInFile, if_pos (by decide)] at hheader
    exact absurd hheader (by decide)

end SmartQuant.ReaderBounds
