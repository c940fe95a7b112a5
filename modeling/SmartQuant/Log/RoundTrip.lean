import SmartQuant.Log.BinaryLogger

/-!
# What a reader gets back

The ring always carries the last bytes of the stream the writer produced. A
reader starts at the oldest of them, which need not be where a record starts: after
the ring has wrapped, the records come back exactly when the oldest retained
record begins the window, or when the window happens to repeat itself.
-/
namespace SmartQuant.RoundTrip

open BinaryLogger LogRecord RingStream

/-- A logger has written the stream `s`: its ring carries the end of it. -/
structure Carries (l : BinaryLogger) (s : List UInt8) : Prop where
  magic : l.file.magic = kLogMagic
  bufferSize : l.file.bufferSize = l.bufSize
  fileSize : l.file.fileSize = kHeaderSize + l.bufSize
  writePos : l.file.writePos = s.length
  ring : Holds l.bufSize l.file.ring s

theorem carries_create {page bufferSize : Nat} {l : BinaryLogger}
    (h : create page bufferSize = .ok l) : Carries l [] := by
  rw [create] at h
  split at h
  · cases h
  · cases h
    exact ⟨rfl, rfl, rfl, rfl, fun p hp => absurd hp (Nat.not_lt_zero p)⟩

@[simp] theorem write_bufSize (l : BinaryLogger) (tsNs : Nat) (data : List UInt8) :
    (l.write tsNs data).bufSize = l.bufSize := rfl

theorem carries_write {l : BinaryLogger} {s : List UInt8} (h : Carries l s) {tsNs : Nat}
    {data : List UInt8} (hheader : kRecordHeaderSize ≤ l.bufSize) (hdata : data.length ≤ l.bufSize)
    (htotal : s.length + (kRecordHeaderSize + data.length) < Word64.size) :
    Carries (l.write tsNs data) (s ++ recordHeader tsNs data.length ++ data) := by
  have hoff : l.file.writePos % l.bufSize ≤ l.bufSize := by
    refine (Nat.mod_lt _ ?_).le
    rw [kRecordHeaderSize] at hheader
    omega
  have hend : l.file.writePos % l.bufSize % l.bufSize = s.length % l.bufSize := by
    rw [Nat.mod_mod, h.writePos]
  have hlen : (recordHeader tsNs data.length).length ≤ l.bufSize := by
    rwa [length_recordHeader]
  refine ⟨h.magic, h.bufferSize, h.fileSize, ?_, ?_⟩
  · simp only [write, h.writePos]
    rw [Word64.add_of_lt htotal]
    simp only [List.length_append, length_recordHeader]
    omega
  · refine holds_ringWrite (ringWrite_off_le hoff hlen) hdata ?_
      (holds_ringWrite hoff hlen hend h.ring)
    rw [write_bufSize, ringWrite_off_mod hoff, List.length_append, Nat.add_mod, hend, ← Nat.add_mod]

def writeAll (l : BinaryLogger) (recs : List LogRecord) : BinaryLogger :=
  recs.foldl (fun l rec => l.write rec.tsNs rec.data) l

def totalSize (recs : List LogRecord) : Nat := (recs.map LogRecord.size).sum

theorem totalSize_append (recs recs' : List LogRecord) :
    totalSize (recs ++ recs') = totalSize recs + totalSize recs' := by
  rw [totalSize, List.map_append, List.sum_append]
  rfl

@[simp] theorem length_encodeAll (recs : List LogRecord) :
    (framing.encodeAll recs).length = totalSize recs := by
  induction recs with
  | nil => rfl
  | cons rec recs ih =>
    rw [Framing.encodeAll_cons, List.length_append, ih]
    simp [framing, totalSize]

theorem carries_writeAll {l : BinaryLogger} {s : List UInt8} (h : Carries l s)
    {recs : List LogRecord}
    (hfit : ∀ rec ∈ recs, kRecordHeaderSize ≤ l.bufSize ∧ rec.data.length ≤ l.bufSize)
    (htotal : s.length + totalSize recs < Word64.size) :
    Carries (writeAll l recs) (s ++ framing.encodeAll recs) := by
  induction recs generalizing l s with
  | nil =>
    rw [Framing.encodeAll_nil, List.append_nil]
    exact h
  | cons rec recs ih =>
    obtain ⟨hheader, hdata⟩ := hfit rec List.mem_cons_self
    have hsize : totalSize (rec :: recs) = rec.size + totalSize recs := rfl
    rw [LogRecord.size] at hsize
    have hstep : Carries (l.write rec.tsNs rec.data) (s ++ rec.encode) := by
      have hw : Carries (l.write rec.tsNs rec.data)
          (s ++ recordHeader rec.tsNs rec.data.length ++ rec.data) :=
        carries_write h hheader hdata (by omega)
      rwa [List.append_assoc] at hw
    have htail := ih hstep (fun r hr => hfit r (List.mem_cons_of_mem _ hr)) (by
      rw [List.length_append, length_encode, LogRecord.size]
      omega)
    rwa [List.append_assoc] at htail

theorem writeAll_bufSize (l : BinaryLogger) (recs : List LogRecord) :
    (writeAll l recs).bufSize = l.bufSize := by
  induction recs generalizing l with
  | nil => rfl
  | cons rec recs ih => exact ih (l.write rec.tsNs rec.data)

structure Yielded where
  tsNs : Nat
  length : Nat
  bytes : List UInt8
  deriving DecidableEq

/-- The loop over `next` yields these entries and then gets false. -/
inductive Drains (mem : Nat → UInt8) : Reader → List Yielded → Prop where
  | done {r : Reader} (h : (r.next mem).1 = none) : Drains mem r []
  | more {r : Reader} {e : Entry} {ys : List Yielded} (h : (r.next mem).1 = some e)
      (hs : Drains mem (r.next mem).2 ys) :
      Drains mem r (⟨e.timestampNs, e.length, (r.next mem).2.payload mem e⟩ :: ys)

def yielded (rec : LogRecord) : Yielded := ⟨rec.tsNs, rec.data.length, rec.data⟩

theorem yielded_injective : Function.Injective yielded := by
  intro a b h
  cases a
  cases b
  simp only [yielded, Yielded.mk.injEq] at h
  simp only [LogRecord.mk.injEq]
  exact ⟨h.1, h.2.2⟩

/-- A reader stands inside the part of the stream `s` that the ring carries. -/
structure StandsIn (mem : Nat → UInt8) (r : Reader) (s : List UInt8) : Prop where
  ring : Holds r.bufSize mem s
  endPos : r.endPos = s.length
  small : s.length < 2 ^ 63
  start : s.length ≤ r.readPos + r.bufSize
  le : r.readPos ≤ s.length

section Reader

variable {mem : Nat → UInt8} {r : Reader} {s : List UInt8}

theorem StandsIn.advance (h : StandsIn mem r s) {n : Nat} (hn : r.readPos + n ≤ s.length) :
    StandsIn mem { r with readPos := r.readPos + n } s := by
  have hstart := h.start
  refine ⟨h.ring, h.endPos, h.small, ?_, hn⟩
  simp only
  omega

theorem StandsIn.add_eq (h : StandsIn mem r s) {n : Nat} (hn : n < 2 ^ 33) :
    Word64.add r.readPos n = r.readPos + n := by
  have hle := h.le
  have hsmall := h.small
  exact Word64.add_of_small (by omega) (by omega)

theorem StandsIn.ringRead (h : StandsIn mem r s) {n : Nat} (hn : r.readPos + n ≤ s.length) :
    ringRead r.bufSize mem r.readPos n = (s.drop r.readPos).take n := by
  by_cases hz : n = 0
  · subst hz
    simp [RingStream.ringRead, slice]
  · have hstart := h.start
    exact ringRead_of_holds (by omega) h.ring h.start hn

theorem StandsIn.takePayload (h : StandsIn mem r s) (tsNs : Nat) {length : Nat}
    (hlt : length < 2 ^ 32) (hn : r.readPos + length ≤ s.length) :
    ∃ e r', r.takePayload mem tsNs length = (e, r') ∧ e.timestampNs = tsNs ∧ e.length = length ∧
      r'.payload mem e = (s.drop r.readPos).take length ∧ StandsIn mem r' s ∧
      r'.readPos = r.readPos + length := by
  obtain ⟨hts, hlength, hreader⟩ := Reader.takePayload_eq mem r tsNs length
  have hadv := h.advance hn
  have hbytes := Reader.payload_takePayload mem r tsNs length
  rw [h.ringRead hn] at hbytes
  rw [h.add_eq (by omega)] at hreader
  refine ⟨(r.takePayload mem tsNs length).1, (r.takePayload mem tsNs length).2, rfl, hts,
    hlength, hbytes, ?_, ?_⟩
  · rw [hreader]
    exact ⟨hadv.ring, hadv.endPos, hadv.small, hadv.start, hadv.le⟩
  · rw [hreader]

/-- A call of `next` does what decoding the rest of the stream does. -/
theorem StandsIn.next_cases (h : StandsIn mem r s) :
    (decode (s.drop r.readPos) = none ∧ (r.next mem).1 = none) ∨
    ∃ rec rest e r', decode (s.drop r.readPos) = some (rec, rest) ∧
      r.next mem = (some e, r') ∧ ⟨e.timestampNs, e.length, r'.payload mem e⟩ = yielded rec ∧
      StandsIn mem r' s ∧ s.drop r'.readPos = rest := by
  have hle := h.le
  have hlen : (s.drop r.readPos).length = s.length - r.readPos := List.length_drop
  rw [Reader.next, h.add_eq (by decide), h.endPos]
  by_cases hhead : s.length < r.readPos + kRecordHeaderSize
  · left
    rw [if_pos hhead]
    exact ⟨decode_of_short (by omega), rfl⟩
  have hroom : r.readPos + kRecordHeaderSize ≤ s.length := by omega
  have hbehind := h.advance hroom
  have hann : LittleEndian.ofLE (((s.drop r.readPos).take kRecordHeaderSize).drop 8) =
      announced (s.drop r.readPos) := by
    rw [List.drop_take]
    rfl
  have hts : ((s.drop r.readPos).take kRecordHeaderSize).take 8 = (s.drop r.readPos).take 8 := by
    rw [List.take_take]
    rfl
  have hlt := announced_lt (s.drop r.readPos)
  rw [if_neg hhead]
  simp only [Reader.ringReadInto, h.ringRead hroom, h.add_eq (n := kRecordHeaderSize) (by decide),
    hann, hts]
  rw [hbehind.add_eq (n := announced (s.drop r.readPos)) (by omega)]
  by_cases hbody : s.length < r.readPos + kRecordHeaderSize + announced (s.drop r.readPos)
  · left
    rw [if_pos hbody]
    exact ⟨decode_of_short (by omega), rfl⟩
  · right
    rw [if_neg hbody]
    obtain ⟨rec, hdec, hrts, hrdata⟩ := decode_of_long (s := s.drop r.readPos) (by omega)
    obtain ⟨e, r', htake, hets, helen, hpay, hstand, hpos⟩ := hbehind.takePayload
      (LittleEndian.ofLE ((s.drop r.readPos).take 8)) hlt (by simp only; omega)
    have hdata : rec.data = r'.payload mem e := by rw [hrdata, hpay, List.drop_drop]
    refine ⟨rec, _, e, r', hdec, by rw [htake], ?_, hstand, ?_⟩
    · have hlength : e.length = rec.data.length := by
        rw [helen, hrdata, List.length_take, List.length_drop]
        omega
      rw [yielded, hets, ← hrts, hlength, hdata]
    · rw [hpos, List.drop_drop, Nat.add_assoc]

/-- What the loop over `next` yields, the rest of the stream reads as. -/
theorem StandsIn.reads_of_drains (h : StandsIn mem r s) {ys : List Yielded}
    (hd : Drains mem r ys) :
    ∃ recs, framing.Reads (s.drop r.readPos) recs ∧ ys = recs.map yielded := by
  induction hd with
  | done hnone =>
    obtain ⟨hdec, -⟩ | ⟨rec, rest, e, r', -, hnext, -⟩ := h.next_cases
    · exact ⟨[], Framing.reads_nil_iff.mpr hdec, rfl⟩
    · rw [hnext] at hnone
      cases hnone
  | more hsome _ ih =>
    obtain ⟨-, hnext⟩ | ⟨rec, rest, e, r', hdec, hnext, hyield, hstand, hrest⟩ := h.next_cases
    · rw [hnext] at hsome
      cases hsome
    · rw [hnext] at hsome ih
      cases hsome
      obtain ⟨recs, hreads, hys⟩ := ih hstand
      refine ⟨rec :: recs, Framing.reads_cons_iff.mpr ⟨rest, hdec, hrest ▸ hreads⟩, ?_⟩
      rw [hnext, hyield, hys]
      rfl

theorem StandsIn.drains_of_reads (h : StandsIn mem r s) {recs : List LogRecord}
    (hreads : framing.Reads (s.drop r.readPos) recs) : Drains mem r (recs.map yielded) := by
  induction recs generalizing r with
  | nil =>
    obtain ⟨-, hnext⟩ | ⟨rec, rest, e, r', hdec, -⟩ := h.next_cases
    · exact .done hnext
    · have hnone : decode (s.drop r.readPos) = none := Framing.reads_nil_iff.mp hreads
      rw [hnone] at hdec
      cases hdec
  | cons rec recs ih =>
    obtain ⟨rest, hdec, htail⟩ := Framing.reads_cons_iff.mp hreads
    have hdec : decode (s.drop r.readPos) = some (rec, rest) := hdec
    obtain ⟨hnone, -⟩ | ⟨rec', rest', e, r', hdec', hnext, hyield, hstand, hrest⟩ := h.next_cases
    · rw [hnone] at hdec
      cases hdec
    · rw [hdec] at hdec'
      cases hdec'
      have hmore : Drains mem r
          (⟨e.timestampNs, e.length, (r.next mem).2.payload mem e⟩ :: recs.map yielded) := by
        refine .more (by rw [hnext]) ?_
        rw [hnext]
        exact ih hstand (hrest ▸ htail)
      rw [hnext, hyield] at hmore
      exact hmore

/-- The loop over `next` yields exactly the records the rest of the stream reads as. -/
theorem StandsIn.drains_iff (h : StandsIn mem r s) {ys : List Yielded} :
    Drains mem r ys ↔ ∃ recs, framing.Reads (s.drop r.readPos) recs ∧ ys = recs.map yielded := by
  constructor
  · exact h.reads_of_drains
  · intro hex
    obtain ⟨recs, hreads, rfl⟩ := hex
    exact h.drains_of_reads hreads

end Reader

/-- The longest suffix of the records that takes at most `size` bytes. -/
def retained (size : Nat) : List LogRecord → List LogRecord
  | [] => []
  | oldest :: recs =>
    if totalSize (oldest :: recs) ≤ size then oldest :: recs else retained size recs

/-- The bytes a reader of the written records starts with: the last `size` of them. -/
def window (size : Nat) (recs : List LogRecord) : List UInt8 :=
  (framing.encodeAll recs).drop (totalSize recs - size)

/-- The oldest byte the ring still has is the first byte of a record. -/
def StartsOnRecord (size : Nat) (recs : List LogRecord) : Prop :=
  totalSize recs ≤ size ∨ totalSize (retained size recs) = size

/-- The window begins with the very bytes it ends with, those of the retained records, and
no whole record follows the first copy. -/
def Repeats (size : Nat) (recs : List LogRecord) : Prop :=
  let w := window size recs
  let n := totalSize (retained size recs)
  w.take n = w.drop (w.length - n) ∧ decode (w.drop n) = none

theorem retained_suffix (size : Nat) (recs : List LogRecord) : retained size recs <:+ recs := by
  induction recs with
  | nil => exact List.suffix_refl _
  | cons rec recs ih =>
    rw [retained]
    split
    · exact List.suffix_refl _
    · exact ih.trans (List.suffix_cons rec recs)

theorem totalSize_retained_le (size : Nat) (recs : List LogRecord) :
    totalSize (retained size recs) ≤ size := by
  induction recs with
  | nil => exact Nat.zero_le _
  | cons rec recs ih =>
    rw [retained]
    split
    · assumption
    · exact ih

theorem retained_of_le {size : Nat} {recs : List LogRecord} (h : totalSize recs ≤ size) :
    retained size recs = recs := by
  cases recs with
  | nil => rfl
  | cons rec recs => exact if_pos h

theorem length_window (size : Nat) (recs : List LogRecord) :
    (window size recs).length = min (totalSize recs) size := by
  rw [window, List.length_drop, length_encodeAll]
  omega

theorem window_drop (size : Nat) (recs : List LogRecord) :
    (window size recs).drop ((window size recs).length - totalSize (retained size recs)) =
      framing.encodeAll (retained size recs) := by
  obtain ⟨older, hrecs⟩ := retained_suffix size recs
  have hle := totalSize_retained_le size recs
  have hsum : totalSize recs = totalSize older + totalSize (retained size recs) := by
    conv_lhs => rw [← hrecs]
    exact totalSize_append older (retained size recs)
  rw [length_window, window, List.drop_drop]
  conv_lhs => rw [← hrecs, Framing.encodeAll_append]
  exact List.drop_left' (by rw [length_encodeAll, hrecs]; omega)

theorem reads_window_iff (size : Nat) (recs : List LogRecord) :
    framing.Reads (window size recs) (retained size recs) ↔ Repeats size recs := by
  rw [Repeats]
  simp only [window_drop]
  have hlen := length_encodeAll (retained size recs)
  constructor
  · intro hreads
    obtain ⟨rest, hw, hdec⟩ := hreads
    rw [hw, List.take_left' hlen, List.drop_left' hlen]
    exact ⟨rfl, hdec⟩
  · intro hrepeats
    obtain ⟨hw, hdec⟩ := hrepeats
    exact ⟨_, by rw [← hw, List.take_append_drop], hdec⟩

theorem reads_of_startsOnRecord {size : Nat} {recs : List LogRecord}
    (h : StartsOnRecord size recs) : framing.Reads (window size recs) (retained size recs) := by
  have hw := window_drop size recs
  have hfull : (window size recs).length - totalSize (retained size recs) = 0 := by
    rw [length_window]
    rcases h with h | h
    · rw [retained_of_le h]
      omega
    · omega
  rw [hfull, List.drop_zero] at hw
  rw [hw]
  exact Framing.reads_encodeAll _

theorem standsIn_ofFile {l : BinaryLogger} {recs : List LogRecord}
    (h : Carries l (framing.encodeAll recs)) (htotal : totalSize recs < 2 ^ 63) :
    ∃ r, Reader.ofFile l.file = .ok r ∧ StandsIn l.file.ring r (framing.encodeAll recs) ∧
      (framing.encodeAll recs).drop r.readPos = window l.bufSize recs := by
  have hlen := length_encodeAll recs
  have hpos : Reader.oldest l.file.bufferSize l.file.writePos = totalSize recs - l.bufSize := by
    rw [Reader.oldest, h.bufferSize, h.writePos, hlen]
    split <;> omega
  refine ⟨{ bufSize := l.file.bufferSize, endPos := l.file.writePos
            readPos := Reader.oldest l.file.bufferSize l.file.writePos }, ?_,
    ⟨?_, h.writePos, by omega, ?_, ?_⟩, ?_⟩
  · rw [Reader.ofFile, if_neg (by rw [h.fileSize]; omega), if_neg (not_not.mpr h.magic)]
  · rw [h.bufferSize]
    exact h.ring
  · simp only [hpos, hlen]
    rw [h.bufferSize]
    omega
  · simp only [hpos, hlen]
    omega
  · simp only [hpos]
    rfl

/-- Behind a writer the loop over `next` ends, and it yields the retained records exactly
when the window begins with them. -/
theorem drains_iff_repeats {l : BinaryLogger} {recs : List LogRecord}
    (h : Carries l (framing.encodeAll recs)) (htotal : totalSize recs < 2 ^ 63) :
    ∃ r, Reader.ofFile l.file = .ok r ∧ (∃ ys, Drains l.file.ring r ys) ∧
      (Drains l.file.ring r ((retained l.bufSize recs).map yielded) ↔ Repeats l.bufSize recs) := by
  obtain ⟨r, hr, hstand, hwindow⟩ := standsIn_ofFile h htotal
  refine ⟨r, hr, ?_, ?_⟩
  · obtain ⟨as, has⟩ := framing.exists_reads ((framing.encodeAll recs).drop r.readPos)
    exact ⟨_, hstand.drains_iff.mpr ⟨as, has, rfl⟩⟩
  · rw [hstand.drains_iff, hwindow, ← reads_window_iff]
    constructor
    · intro hreads
      obtain ⟨as, has, heq⟩ := hreads
      rwa [yielded_injective.list_map heq]
    · intro hreads
      exact ⟨_, hreads, rfl⟩

theorem carries_created {page bufferSize : Nat} {l : BinaryLogger}
    (hl : create page bufferSize = .ok l) {recs : List LogRecord}
    (hfit : ∀ rec ∈ recs, rec.size ≤ l.bufSize) (htotal : totalSize recs < 2 ^ 63) :
    Carries (writeAll l recs) (framing.encodeAll recs) := by
  have hsize : ([] : List UInt8).length + totalSize recs < Word64.size := by
    rw [Word64.size]
    simp only [List.length_nil]
    omega
  refine carries_writeAll (carries_create hl) (fun rec hrec => ?_) hsize
  have hrec := hfit rec hrec
  rw [LogRecord.size] at hrec
  exact ⟨by omega, by omega⟩

/-- Whatever was written, a reader opened afterwards comes to an end, and it has yielded
exactly the retained records if and only if the oldest byte of the ring starts a record or
the window happens to repeat itself. -/
theorem drains_retained_iff {page bufferSize : Nat} {l : BinaryLogger}
    (hl : create page bufferSize = .ok l) (recs : List LogRecord)
    (hfit : ∀ rec ∈ recs, rec.size ≤ l.bufSize) (htotal : totalSize recs < 2 ^ 63) :
    ∃ r, Reader.ofFile (writeAll l recs).file = .ok r ∧
      (∃ ys, Drains (writeAll l recs).file.ring r ys) ∧
      (Drains (writeAll l recs).file.ring r ((retained l.bufSize recs).map yielded) ↔
        StartsOnRecord l.bufSize recs ∨ Repeats l.bufSize recs) := by
  have h := drains_iff_repeats (carries_created hl hfit htotal) htotal
  rw [writeAll_bufSize] at h
  rwa [or_iff_right_of_imp fun hstart =>
    (reads_window_iff l.bufSize recs).mp (reads_of_startsOnRecord hstart)]

theorem zero_lt_two_pow_64 : 0 < 2 ^ 64 := by
  decide

theorem length_nil_lt : ([] : List UInt8).length < 2 ^ 32 := by
  decide

def filler : LogRecord where
  tsNs := 0
  data := List.replicate 1000 255
  tsNs_lt := by decide
  length_lt := by
    rw [List.length_replicate]
    decide

def onePage : BinaryLogger :=
  { bufSize := 4096
    file := { magic := kLogMagic, version := kLogVersion, bufferSize := 4096, writePos := 0
              fileSize := 8192, ring := fun _ => 0 } }

theorem create_onePage : create 4096 1 = .ok onePage := rfl

/-- Five records of 1012 bytes in a ring of 4096. -/
theorem drains_retained_iff_filler :
    ∃ r, Reader.ofFile (writeAll onePage (List.replicate 5 filler)).file = .ok r ∧
      (∃ ys, Drains (writeAll onePage (List.replicate 5 filler)).file.ring r ys) ∧
      (Drains (writeAll onePage (List.replicate 5 filler)).file.ring r
          ((retained 4096 (List.replicate 5 filler)).map yielded) ↔
        StartsOnRecord 4096 (List.replicate 5 filler) ∨
          Repeats 4096 (List.replicate 5 filler)) :=
  drains_retained_iff create_onePage (List.replicate 5 filler) (by decide +kernel)
    (by decide +kernel)

/-- The reader starts inside the payload of the first, and the last four do not come back. -/
theorem not_drains_retained_wrapped :
    ∃ r, Reader.ofFile (writeAll onePage (List.replicate 5 filler)).file = .ok r ∧
      ¬ Drains (writeAll onePage (List.replicate 5 filler)).file.ring r
        ((retained 4096 (List.replicate 5 filler)).map yielded) := by
  have hcarries : Carries (writeAll onePage (List.replicate 5 filler))
      (framing.encodeAll (List.replicate 5 filler)) :=
    carries_created create_onePage (by decide +kernel) (by decide +kernel)
  obtain ⟨r, hr, -, hiff⟩ := drains_iff_repeats hcarries (by decide +kernel)
  refine ⟨r, hr, fun hd => ?_⟩
  have hrep := (hiff.mp hd).1
  rw [writeAll_bufSize] at hrep
  exact absurd hrep (by decide +kernel)

end SmartQuant.RoundTrip
