import SmartQuant.Lib.Runs
import SmartQuant.Log.RingContents

/-!
# Where `write` stores

`ring_write` goes around the end of the ring once. The header always has room, and the
offset behind it is one of the ring or its end. What does not fit between there and the
end is copied to the front, however long it is: a payload longer than the rest of the
ring and a whole turn runs out of it.
-/
namespace SmartQuant.WriterBounds

open BinaryLogger RingStream RingContents RoundTrip Runs

/-- The offset that the second `ring_write` of a call starts from. -/
def payloadOff (l : BinaryLogger) : Nat :=
  ringOff l.bufSize (l.file.writePos % l.bufSize) kRecordHeaderSize

/-- The ring offsets that a call stores to, in order, for a payload of `len` bytes. On a ring
of no bytes it traps first. -/
def storedBy (l : BinaryLogger) (len : Nat) : List Nat :=
  if l.bufSize = 0 then []
  else ringCells l.bufSize (l.file.writePos % l.bufSize) kRecordHeaderSize ++
    ringCells l.bufSize (payloadOff l) len

def writeStep (l : BinaryLogger) (rec : LogRecord) : BinaryLogger := l.write rec.tsNs rec.data

/-- The call stores to offsets of the ring only, and its second copy starts inside. -/
structure StaysInRing (l : BinaryLogger) (rec : LogRecord) : Prop where
  stored : ∀ i ∈ storedBy l rec.data.length, i < l.bufSize
  second : l.bufSize ≠ 0 → payloadOff l ≤ l.bufSize

/-- Where a payload is to begin, `pos` being the write position: behind the header. -/
def behindHeader (size pos : Nat) : Nat :=
  if pos % size + kRecordHeaderSize ≤ size then pos % size + kRecordHeaderSize
  else pos % size + kRecordHeaderSize - size

/-- The payload is no longer than the rest of the ring and a whole turn. -/
def PayloadFits (l : BinaryLogger) (rec : LogRecord) : Prop :=
  l.bufSize = 0 ∨
    rec.data.length ≤ l.bufSize - behindHeader l.bufSize l.file.writePos + l.bufSize

instance (l : BinaryLogger) (rec : LogRecord) : Decidable (PayloadFits l rec) :=
  inferInstanceAs (Decidable (_ ∨ _))

/-- The ring has room for a header, or it has no bytes at all. -/
def HasRoom (l : BinaryLogger) : Prop := l.bufSize = 0 ∨ kRecordHeaderSize ≤ l.bufSize

variable {l : BinaryLogger} {rec : LogRecord}

/-- The ring after a call: header and payload stored at these offsets. -/
theorem write_ring (h : l.bufSize ≠ 0) (tsNs : Nat) (data : List UInt8) :
    (l.write tsNs data).file.ring = storeAt l.file.ring (storedBy l data.length)
      (recordHeader tsNs data.length ++ data) := by
  have hlen : (ringCells l.bufSize (l.file.writePos % l.bufSize) kRecordHeaderSize).length =
      (recordHeader tsNs data.length).length := by
    rw [length_ringCells, LogRecord.length_recordHeader]
  rw [storedBy, if_neg h, storeAt_append hlen, payloadOff]
  simp only [write]
  rw [ringWrite_eq_storeAt, ringWrite_eq_storeAt, LogRecord.length_recordHeader]

theorem hasRoom_create {page bufferSize : Nat} (hpage : kRecordHeaderSize ≤ page)
    (hpage' : page < Word64.size) (hbuffer : bufferSize < Word64.size)
    (hl : create page bufferSize = .ok l) : HasRoom l := by
  obtain ⟨hpos, hsize⟩ := create_bufSize hl
  rw [HasRoom, hsize]
  rcases Nat.lt_or_ge Word64.size (bufferSize + page) with hwrap | hfit
  · exact Or.inl (roundUpPage_eq_zero hpage' hbuffer hwrap)
  · have hpage₀ : 0 < page := Nat.lt_of_lt_of_le (by decide) hpage
    exact Or.inr (hpage.trans (page_le_roundUpPage hpage₀ hpos hfit))

/-- The header takes the offsets up to where the payload begins. -/
theorem payloadOff_eq (hroom : kRecordHeaderSize ≤ l.bufSize) :
    payloadOff l = behindHeader l.bufSize l.file.writePos ∧ payloadOff l ≤ l.bufSize := by
  have hpos : 0 < l.bufSize := Nat.lt_of_lt_of_le (by decide) hroom
  have hoff := Nat.mod_lt l.file.writePos hpos
  unfold payloadOff ringOff behindHeader
  simp only
  split
  · rw [if_pos (by omega)]
    omega
  · rw [if_neg (by omega)]
    omega

theorem header_in_ring (hroom : kRecordHeaderSize ≤ l.bufSize) :
    ∀ i ∈ ringCells l.bufSize (l.file.writePos % l.bufSize) kRecordHeaderSize, i < l.bufSize := by
  have hpos : 0 < l.bufSize := Nat.lt_of_lt_of_le (by decide) hroom
  have hoff := Nat.mod_lt l.file.writePos hpos
  unfold ringCells
  simp only
  split
  · exact forall_range'_lt.mpr (Or.inr (by omega))
  · rw [List.forall_mem_append]
    exact ⟨forall_range'_lt.mpr (Or.inr (by omega)), forall_range'_lt.mpr (Or.inr (by omega))⟩

theorem payload_in_ring_iff {size off : Nat} (hoff : off ≤ size) (len : Nat) :
    (∀ i ∈ ringCells size off len, i < size) ↔ len ≤ size - off + size := by
  unfold ringCells
  simp only
  split
  · rw [forall_range'_lt]
    omega
  · rw [List.forall_mem_append, forall_range'_lt, forall_range'_lt]
    omega

theorem staysInRing_iff (h : HasRoom l) : StaysInRing l rec ↔ PayloadFits l rec := by
  rcases h with hzero | hroom
  · constructor
    · exact fun _ => Or.inl hzero
    · intro _
      refine ⟨?_, fun hne => absurd hzero hne⟩
      rw [storedBy, if_pos hzero]
      exact fun i hi => absurd hi List.not_mem_nil
  · have hne : l.bufSize ≠ 0 := by
      rw [kRecordHeaderSize] at hroom
      omega
    obtain ⟨hoff, hle⟩ := payloadOff_eq hroom
    have hpayload := payload_in_ring_iff hle rec.data.length
    rw [PayloadFits, or_iff_right hne, ← hoff, ← hpayload]
    constructor
    · intro hstays
      have hstored := hstays.stored
      rw [storedBy, if_neg hne, List.forall_mem_append] at hstored
      exact hstored.2
    · intro hfits
      refine ⟨?_, fun _ => hle⟩
      rw [storedBy, if_neg hne, List.forall_mem_append]
      exact ⟨header_in_ring hroom, hfits⟩

/-- A call that stays in the ring changes nothing behind it. -/
theorem write_beyond (h : l.bufSize ≠ 0) (hstays : StaysInRing l rec) {i : Nat}
    (hi : l.bufSize ≤ i) : (writeStep l rec).file.ring i = l.file.ring i := by
  rw [writeStep, write_ring h]
  apply storeAt_of_not_mem
  intro hmem
  have := hstays.stored i hmem
  omega

theorem run_beyond (h : l.bufSize ≠ 0) {recs : List LogRecord}
    (hstays : Along writeStep StaysInRing l recs) {i : Nat} (hi : l.bufSize ≤ i) :
    (run writeStep l recs).file.ring i = l.file.ring i := by
  induction recs generalizing l with
  | nil => rfl
  | cons rec recs ih =>
    rw [run_cons, ih (show (writeStep l rec).bufSize ≠ 0 from h) hstays.2 hi]
    exact write_beyond h hstays.1 hi

/-- For every size the constructor accepts, the writes of a run stay in the ring exactly when
each payload fits between its header and that place one turn later. The page size of the
system holds a record header at least. -/
theorem staysInRing_iff_payloadFits {page bufferSize : Nat} (hpage : kRecordHeaderSize ≤ page)
    (hpage' : page < Word64.size) (hbuffer : bufferSize < Word64.size) {l : BinaryLogger}
    (hl : create page bufferSize = .ok l) (recs : List LogRecord) :
    Along writeStep StaysInRing l recs ↔ Along writeStep PayloadFits l recs := by
  have hkeeps : ∀ l rec, HasRoom l → HasRoom (writeStep l rec) := fun _ _ h => h
  exact along_congr_of_invariant hkeeps (fun _ _ h => staysInRing_iff h)
    (hasRoom_create hpage hpage' hbuffer hl) recs

/-- Nine records of 1012 bytes, twice around a ring of 4096. -/
theorem staysInRing_iff_payloadFits_filler :
    Along writeStep StaysInRing onePage (List.replicate 9 filler) :=
  (staysInRing_iff_payloadFits (by decide) (by decide) (by decide) create_onePage
    (List.replicate 9 filler)).mpr (by decide +kernel)

theorem overlong_lt : (List.replicate 8181 (0 : UInt8)).length < 2 ^ 32 := by
  rw [List.length_replicate]
  decide

/-- A payload one byte too long for a ring of one page. -/
def overlong : LogRecord where
  tsNs := 0
  data := List.replicate 8181 0
  tsNs_lt := zero_lt_two_pow_64
  length_lt := overlong_lt

/-- Its last byte goes behind the last byte of the ring. -/
theorem not_staysInRing_overlong :
    create 4096 1 = .ok onePage ∧ ¬ Along writeStep StaysInRing onePage [overlong] := by
  refine ⟨create_onePage, fun hstays => ?_⟩
  have hroom : HasRoom onePage := Or.inr (by decide)
  have hfits := (staysInRing_iff hroom).mp hstays.1
  have hlen : overlong.data.length = 8181 := List.length_replicate
  have hbehind : behindHeader onePage.bufSize onePage.file.writePos = 12 := by decide
  rw [PayloadFits, hlen, hbehind] at hfits
  exact absurd hfits (by decide)

end SmartQuant.WriterBounds
