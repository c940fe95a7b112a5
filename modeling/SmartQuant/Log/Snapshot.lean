import SmartQuant.Log.LiveReader

/-!
# The snapshot of a reader

A reader snapshots `write_pos` once and then loads the live ring. The snapshot bounds how far
it reads, not how far the writer goes: as long as the writer, with the bytes of a record under
way, has not come round to the byte about to be loaded, the reader hands out the records that
were complete when it was constructed, in order. Nothing in `next` checks it.
-/
namespace SmartQuant.Snapshot

open BinaryLogger LogRecord LogSession RingStream RoundTrip Runs

/-- The bytes stored of a record that is not published yet. -/
def underWay : Option (LogRecord × Nat) → List UInt8
  | none => []
  | some (record, k) => record.encode.take k

/-- All bytes the writer has stored. -/
def stored (s : LogSession) : List UInt8 :=
  framing.encodeAll s.written ++ underWay s.pending

/-- The position of the byte a reader is about to load. -/
def loading (v : LiveReader) : Option Nat :=
  match v.pc with
  | .idle => none
  | .header got => some (v.reader.readPos + got.length)
  | .payload _ _ got => some (v.reader.readPos + got.length)

/-- The records fit the ring, and the reader is constructed while all of them are still in it. -/
def Proper (s : LogSession) : LogLabel → Prop
  | .writer record => record.size ≤ s.logger.bufSize
  | .openReader => s.logger.file.writePos ≤ s.logger.bufSize
  | .reader => True

/-- The writer has not come round to the byte about to be loaded. -/
def NotOverwritten (s : LogSession) : LogLabel → Prop
  | .reader => ∀ v ∈ s.live, ∀ p ∈ loading v, (stored s).length ≤ p + s.logger.bufSize
  | _ => True

instance (s : LogSession) : (label : LogLabel) → Decidable (Proper s label)
  | .writer record => inferInstanceAs (Decidable (record.size ≤ s.logger.bufSize))
  | .openReader => inferInstanceAs (Decidable (s.logger.file.writePos ≤ s.logger.bufSize))
  | .reader => inferInstanceAs (Decidable True)

instance (s : LogSession) : (label : LogLabel) → Decidable (NotOverwritten s label)
  | .reader => inferInstanceAs (Decidable (∀ v ∈ s.live, ∀ p ∈ loading v,
      (stored s).length ≤ p + s.logger.bufSize))
  | .writer _ => inferInstanceAs (Decidable True)
  | .openReader => inferInstanceAs (Decidable True)

/-- What a reader has handed out are the records of its snapshot, in order; so is the entry it
is handing out, as far as the bytes of its payload have been loaded. -/
structure Exact (v : LiveReader) : Prop where
  seen : v.seen <+: v.snapshot.map yielded
  current : ∀ tsNs length got, v.pc = .payload tsNs length got →
    ∃ rec : LogRecord, v.seen ++ [yielded rec] <+: v.snapshot.map yielded ∧
      tsNs = rec.tsNs ∧ length = rec.data.length ∧ got <+: rec.data

def Consistent (s : LogSession) : Prop := ∀ v, s.live = some v → Exact v

/-- The file behind a session: `write_pos` counts the published bytes, and the ring carries
the bytes stored, until there are too many of them to count. -/
structure Keeps (s : LogSession) : Prop where
  magic : s.logger.file.magic = kLogMagic
  bufferSize : s.logger.file.bufferSize = s.logger.bufSize
  fileSize : s.logger.file.fileSize = kHeaderSize + s.logger.bufSize
  small : s.logger.bufSize < 2 ^ 63
  writePos : s.logger.file.writePos = totalSize s.written % Word64.size
  pending : ∀ rec k, s.pending = some (rec, k) → rec.size ≤ s.logger.bufSize
  ring : (stored s).length < Word64.size → Holds s.logger.bufSize s.logger.file.ring (stored s)

section Writer

variable {s : LogSession} {rec : LogRecord} {k : Nat}

theorem stored_of_idle (h : s.pending = none) : stored s = framing.encodeAll s.written := by
  rw [stored, h, underWay, List.append_nil]

theorem stored_of_pending (h : s.pending = some (rec, k)) :
    stored s = framing.encodeAll s.written ++ rec.encode.take k := by
  rw [stored, h, underWay]

/-- What one step of the writer does: begin a record, store a byte of it, or publish it. -/
inductive WriterMove (s : LogSession) (next : LogRecord) : LogSession → Prop where
  | start (hp : s.pending = none) : WriterMove s next { s with pending := some (next, 0) }
  | store {rec : LogRecord} {k : Nat} (hp : s.pending = some (rec, k))
      (hk : k < rec.encode.length) :
      WriterMove s next
        { s with logger := s.logger.storeByte k rec.encode[k], pending := some (rec, k + 1) }
  | publish {rec : LogRecord} {k : Nat} (hp : s.pending = some (rec, k))
      (hk : rec.encode.length ≤ k) :
      WriterMove s next
        { s with
          logger := s.logger.publish rec
          written := s.written ++ [rec]
          pending := none }

theorem writerMove (s : LogSession) (next : LogRecord) : WriterMove s next (s.writerStep next) := by
  rcases hp : s.pending with _ | ⟨rec, k⟩
  · rw [writerStep, hp]
    exact .start hp
  · by_cases hk : k < rec.encode.length
    · have hbyte : rec.encode[k]? = some rec.encode[k] := List.getElem?_eq_getElem hk
      rw [writerStep, hp]
      simp only [hbyte]
      exact .store hp hk
    · have hnone : rec.encode[k]? = none := List.getElem?_eq_none_iff.mpr (by omega)
      rw [writerStep, hp]
      simp only [hnone]
      exact .publish hp (by omega)

theorem length_stored (hp : s.pending = some (rec, k)) (hk : k ≤ rec.encode.length) :
    (stored s).length = totalSize s.written + k := by
  rw [stored_of_pending hp, List.length_append, length_encodeAll, List.length_take,
    Nat.min_eq_left hk]

theorem stored_start (hp : s.pending = none) (next : LogRecord) :
    stored { s with pending := some (next, 0) } = stored s := by
  rw [stored_of_idle hp, stored, underWay, List.take_zero, List.append_nil]

theorem stored_store (hp : s.pending = some (rec, k)) (hk : k < rec.encode.length) :
    stored { s with
      logger := s.logger.storeByte k rec.encode[k], pending := some (rec, k + 1) } =
      stored s ++ [rec.encode[k]] := by
  rw [stored_of_pending hp, stored, underWay, ← List.take_concat_get' _ _ hk, List.append_assoc]

theorem stored_publish (hp : s.pending = some (rec, k)) (hk : rec.encode.length ≤ k) :
    stored { s with
      logger := s.logger.publish rec, written := s.written ++ [rec], pending := none } =
      stored s := by
  rw [stored_of_pending hp, List.take_of_length_le hk, stored, underWay, List.append_nil,
    Framing.encodeAll_append, Framing.encodeAll_cons, Framing.encodeAll_nil, List.append_nil]
  rfl

/-- The bytes stored are never taken back. -/
theorem WriterMove.stored_le {next : LogRecord} {s' : LogSession} (hm : WriterMove s next s') :
    (stored s).length ≤ (stored s').length := by
  cases hm with
  | start hp => rw [stored_start hp]
  | store hp hk =>
    rw [stored_store hp hk, List.length_append]
    exact Nat.le_add_right _ _
  | publish hp hk => rw [stored_publish hp hk]

theorem WriterMove.keeps {next : LogRecord} {s' : LogSession} (hm : WriterMove s next s')
    (h : Keeps s) (hnext : next.size ≤ s.logger.bufSize) : Keeps s' := by
  cases hm with
  | start hp =>
    refine ⟨h.magic, h.bufferSize, h.fileSize, h.small, h.writePos, ?_, ?_⟩
    · intro rec k heq
      cases heq
      exact hnext
    · rw [stored_start hp]
      exact h.ring
  | @store rec k hp hk =>
    refine ⟨h.magic, h.bufferSize, h.fileSize, h.small, h.writePos, ?_, ?_⟩
    · intro rec' k' heq
      cases heq
      exact h.pending rec k hp
    · rw [stored_store hp hk]
      intro hcount
      have hlen := length_stored hp hk.le
      rw [List.length_append, List.length_singleton] at hcount
      have hpos : 0 < s.logger.bufSize := by
        have hsize := h.pending rec k hp
        rw [LogRecord.size, kRecordHeaderSize] at hsize
        omega
      have hend : (s.logger.file.writePos % s.logger.bufSize + k) % s.logger.bufSize %
          s.logger.bufSize = (stored s).length % s.logger.bufSize := by
        have hwritten : totalSize s.written % Word64.size = totalSize s.written :=
          Nat.mod_eq_of_lt (by omega)
        rw [Nat.mod_mod, Nat.mod_add_mod, h.writePos, hwritten, hlen]
      have hone : [rec.encode[k]].length ≤ s.logger.bufSize := hpos
      exact holds_ringWrite (Nat.mod_lt _ hpos).le hone hend (h.ring (by omega))
  | @publish rec k hp hk =>
    refine ⟨h.magic, h.bufferSize, h.fileSize, h.small, ?_, ?_, ?_⟩
    · have hsize : totalSize [rec] = kRecordHeaderSize + rec.data.length := Nat.add_zero _
      show Word64.add s.logger.file.writePos (kRecordHeaderSize + rec.data.length) =
        totalSize (s.written ++ [rec]) % Word64.size
      rw [Word64.add, h.writePos, Nat.mod_add_mod, totalSize_append, hsize]
    · intro rec' k' heq
      cases heq
    · rw [stored_publish hp hk]
      exact h.ring

end Writer

/-- Where a reader stands between the records it has handed out and those before it: at the
next record, inside its header or inside its payload. -/
def Standing (v : LiveReader) (done rest : List LogRecord) : ReaderPc → Prop
  | .idle => v.reader.readPos = totalSize done
  | .header got => v.reader.readPos = totalSize done ∧ got.length < kRecordHeaderSize ∧
      ∃ rec rest', rest = rec :: rest' ∧ got <+: recordHeader rec.tsNs rec.data.length
  | .payload tsNs length got => v.reader.readPos = totalSize done + kRecordHeaderSize ∧
      ∃ rec rest', rest = rec :: rest' ∧ tsNs = rec.tsNs ∧ length = rec.data.length ∧
        got.length < length ∧ got <+: rec.data

/-- The records a reader has handed out, and those of its snapshot it has before it. -/
structure Among (v : LiveReader) (done rest : List LogRecord) : Prop where
  snapshot : v.snapshot = done ++ rest
  seen : v.seen = done.map yielded
  endPos : v.reader.endPos = totalSize done + totalSize rest
  small : totalSize done + totalSize rest < 2 ^ 63

/-- A reader goes through the records of its snapshot. -/
structure Tracks (v : LiveReader) (done rest : List LogRecord) : Prop
    extends Among v done rest where
  standing : Standing v done rest v.pc

/-- The ring has the byte the reader is about to load. -/
def Intact (file : LogFile) (v : LiveReader) : Prop :=
  ∀ p b, loading v = some p → (framing.encodeAll v.snapshot)[p]? = some b →
    file.ring (p % v.reader.bufSize) = b

section Reader

variable {file : LogFile} {v : LiveReader} {done rest : List LogRecord} {rec : LogRecord}

theorem Tracks.exact (h : Tracks v done rest) : Exact v := by
  refine ⟨?_, ?_⟩
  · rw [h.seen, h.snapshot, List.map_append]
    exact List.prefix_append _ _
  · intro tsNs length got hpc
    have hstanding := h.standing
    rw [hpc] at hstanding
    obtain ⟨-, rec, rest', rfl, hts, hlength, -, hgot⟩ := hstanding
    refine ⟨rec, ?_, hts, hlength, hgot⟩
    rw [h.seen, h.snapshot, List.map_append, List.prefix_append_right_inj]
    exact ⟨rest'.map yielded, rfl⟩

theorem totalSize_cons (rec : LogRecord) (recs : List LogRecord) :
    totalSize (rec :: recs) = kRecordHeaderSize + rec.data.length + totalSize recs := rfl

theorem totalSize_concat (recs : List LogRecord) (rec : LogRecord) :
    totalSize (recs ++ [rec]) = totalSize recs + kRecordHeaderSize + rec.data.length := by
  have hnil : totalSize [] = 0 := rfl
  rw [totalSize_append, totalSize_cons, hnil, Nat.add_zero, Nat.add_assoc]

/-- The bytes of the next record in the stream of the snapshot. -/
theorem Among.getElem? (h : Among v done (rec :: rest)) {j : Nat} (hj : j < rec.encode.length) :
    (framing.encodeAll v.snapshot)[totalSize done + j]? = some rec.encode[j] := by
  have hencode : framing.encodeAll v.snapshot =
      framing.encodeAll done ++ (rec.encode ++ framing.encodeAll rest) := by
    rw [h.snapshot, Framing.encodeAll_append]
    rfl
  rw [hencode, List.getElem?_append_right (by rw [length_encodeAll]; omega), length_encodeAll,
    Nat.add_sub_cancel_left, List.getElem?_append_left hj, List.getElem?_eq_getElem hj]

theorem Among.takeBytes (h : Among v done (rec :: rest))
    (hpos : v.reader.readPos = totalSize done + kRecordHeaderSize) {got : List UInt8}
    (hgot : got <+: rec.data) :
    ∃ done' rest', Tracks (v.takeBytes rec.tsNs rec.data.length got) done' rest' := by
  have hsmall := h.small
  rw [totalSize_cons] at hsmall
  rw [LiveReader.takeBytes]
  by_cases hmore : got.length < rec.data.length
  · rw [if_pos hmore]
    exact ⟨done, rec :: rest, ⟨h.snapshot, h.seen, h.endPos, h.small⟩,
      hpos, rec, rest, rfl, rfl, rfl, hmore, hgot⟩
  · have hall : got = rec.data := hgot.eq_of_length_le (by omega)
    have hadd : Word64.add v.reader.readPos rec.data.length = totalSize (done ++ [rec]) := by
      rw [hpos, totalSize_concat]
      exact Word64.add_of_small (by omega) (by omega)
    have hsum : totalSize done + totalSize (rec :: rest) =
        totalSize (done ++ [rec]) + totalSize rest := by
      rw [totalSize_cons, totalSize_concat]
      omega
    rw [if_neg hmore]
    refine ⟨done ++ [rec], rest, ⟨?_, ?_, h.endPos.trans hsum, hsum ▸ h.small⟩, hadd⟩
    · rw [List.append_assoc]
      exact h.snapshot
    · rw [List.map_append, ← h.seen, hall]
      rfl

theorem ofLE_recordHeader (rec : LogRecord) :
    LittleEndian.ofLE ((recordHeader rec.tsNs rec.data.length).take 8) = rec.tsNs ∧
      LittleEndian.ofLE ((recordHeader rec.tsNs rec.data.length).drop 8) = rec.data.length := by
  rw [recordHeader]
  rw [List.take_left' (LittleEndian.length_toLE 8 _),
    List.drop_left' (LittleEndian.length_toLE 8 _)]
  exact ⟨LittleEndian.ofLE_toLE rec.tsNs_lt, LittleEndian.ofLE_toLE rec.length_lt⟩

/-- A header of the snapshot is never taken for that of an incomplete record. -/
theorem Among.takeHeader (h : Among v done (rec :: rest))
    (hpos : v.reader.readPos = totalSize done) :
    ∃ done' rest', Tracks (v.takeHeader (recordHeader rec.tsNs rec.data.length)) done' rest' := by
  have hsmall := h.small
  have hend := h.endPos
  rw [totalSize_cons] at hsmall hend
  obtain ⟨hts, hlength⟩ := ofLE_recordHeader rec
  have hadd : Word64.add v.reader.readPos kRecordHeaderSize =
      totalSize done + kRecordHeaderSize := by
    rw [hpos]
    exact Word64.add_of_small (by omega) (by decide)
  have hbehind : Word64.add (totalSize done + kRecordHeaderSize) rec.data.length =
      totalSize done + kRecordHeaderSize + rec.data.length :=
    Word64.add_of_small (by omega) (by omega)
  rw [LiveReader.takeHeader]
  simp only [hts, hlength, hadd, hbehind]
  rw [if_neg (by omega)]
  have hamong : Among { v with reader := { v.reader with
      readPos := totalSize done + kRecordHeaderSize } } done (rec :: rest) :=
    ⟨h.snapshot, h.seen, h.endPos, h.small⟩
  exact hamong.takeBytes rfl List.nil_prefix

/-- A reader that finds the byte it loads intact goes on through its snapshot. -/
theorem Tracks.step (h : Tracks v done rest) (hintact : Intact file v) :
    ∃ done' rest', Tracks (v.step file) done' rest' := by
  have hsmall := h.small
  have hend := h.endPos
  have hstanding := h.standing
  rw [LiveReader.step]
  cases hpc : v.pc with
  | idle =>
    rw [hpc] at hstanding
    have hpos : v.reader.readPos = totalSize done := hstanding
    have hadd : Word64.add v.reader.readPos kRecordHeaderSize =
        totalSize done + kRecordHeaderSize := by
      rw [hpos]
      exact Word64.add_of_small (by omega) (by decide)
    simp only [hadd]
    by_cases hover : v.reader.endPos < totalSize done + kRecordHeaderSize
    · rw [if_pos hover]
      exact ⟨done, rest, h⟩
    · rw [if_neg hover]
      refine ⟨done, rest, ⟨h.snapshot, h.seen, h.endPos, h.small⟩, hpos, by decide, ?_⟩
      cases rest with
      | nil =>
        -- no record is left, so the snapshot ends here
        have hnil : totalSize [] = 0 := rfl
        rw [kRecordHeaderSize] at hover
        omega
      | cons rec rest => exact ⟨rec, rest, rfl, List.nil_prefix⟩
  | header got =>
    rw [hpc] at hstanding
    obtain ⟨hpos, hshort, rec, rest', rfl, hgot⟩ := hstanding
    have hlt : got.length < (recordHeader rec.tsNs rec.data.length).length := by
      rwa [length_recordHeader]
    have hencode : got.length < rec.encode.length := by
      rw [length_encode, LogRecord.size]
      omega
    have hload : v.load file got.length = (recordHeader rec.tsNs rec.data.length)[got.length] := by
      apply hintact _ _ (by rw [loading, hpc])
      rw [hpos, h.toAmong.getElem? hencode]
      exact congrArg some (List.getElem_append_left hlt)
    have hnext : got ++ [v.load file got.length] <+: recordHeader rec.tsNs rec.data.length := by
      rw [hload]
      exact List.concat_get_prefix hgot hlt
    simp only
    by_cases hmore : (got ++ [v.load file got.length]).length < kRecordHeaderSize
    · rw [if_pos hmore]
      exact ⟨done, rec :: rest', ⟨h.snapshot, h.seen, h.endPos, h.small⟩,
        hpos, hmore, rec, rest', rfl, hnext⟩
    · have hall : got ++ [v.load file got.length] = recordHeader rec.tsNs rec.data.length :=
        hnext.eq_of_length_le (by rw [length_recordHeader]; omega)
      rw [if_neg hmore, hall]
      exact h.toAmong.takeHeader hpos
  | payload tsNs length got =>
    rw [hpc] at hstanding
    obtain ⟨hpos, rec, rest', rfl, rfl, rfl, hshort, hgot⟩ := hstanding
    have hencode : kRecordHeaderSize + got.length < rec.encode.length := by
      rw [length_encode, LogRecord.size]
      omega
    have hload : v.load file got.length = rec.data[got.length] := by
      apply hintact _ _ (by rw [loading, hpc])
      rw [hpos, Nat.add_assoc, h.toAmong.getElem? hencode]
      congr 1
      have hhead := length_recordHeader rec.tsNs rec.data.length
      apply (List.getElem_append_right (by omega)).trans
      simp only [hhead, Nat.add_sub_cancel_left]
    have hnext : got ++ [v.load file got.length] <+: rec.data := by
      rw [hload]
      exact List.concat_get_prefix hgot hshort
    exact h.toAmong.takeBytes hpos hnext

end Reader

/-- A reader that was constructed after `write_pos` had wrapped: what it should load first is
long overwritten. -/
structure Late (s : LogSession) (v : LiveReader) : Prop where
  wrapped : Word64.size ≤ (stored s).length
  seen : v.seen = []
  readPos : v.reader.readPos = 0
  pc : v.pc = .idle ∨ v.pc = .header []

structure Follows (s : LogSession) (v : LiveReader) : Prop where
  bufSize : v.reader.bufSize = s.logger.bufSize
  endPos_le : v.reader.endPos ≤ s.logger.bufSize
  place : (v.snapshot <+: s.written ∧ ∃ done rest, Tracks v done rest) ∨ Late s v

structure Sound (s : LogSession) : Prop where
  keeps : Keeps s
  follows : ∀ v, s.live = some v → Follows s v

theorem Late.exact {s : LogSession} {v : LiveReader} (h : Late s v) : Exact v := by
  refine ⟨?_, ?_⟩
  · rw [h.seen]
    exact List.nil_prefix
  · intro tsNs length got hpc
    rcases h.pc with hidle | hheader
    · rw [hidle] at hpc
      cases hpc
    · rw [hheader] at hpc
      cases hpc

section Session

variable {s : LogSession} {v : LiveReader}

theorem Sound.consistent (h : Sound s) : Consistent s := by
  intro v hv
  rcases (h.follows v hv).place with ⟨-, done, rest, htracks⟩ | hlate
  · exact htracks.exact
  · exact hlate.exact

theorem stored_snapshot (h : v.snapshot <+: s.written) :
    framing.encodeAll v.snapshot <+: stored s := by
  obtain ⟨later, hwritten⟩ := h
  rw [stored, ← hwritten, Framing.encodeAll_append, List.append_assoc]
  exact List.prefix_append _ _

/-- The byte is in the ring if the writer has not come round to it. -/
theorem Keeps.intact (h : Keeps s) (hbuf : v.reader.bufSize = s.logger.bufSize)
    (hsnap : v.snapshot <+: s.written) (hfit : totalSize v.snapshot ≤ s.logger.bufSize)
    (hread : ∀ p, loading v = some p → (stored s).length ≤ p + s.logger.bufSize) :
    Intact s.logger.file v := by
  intro p b hp hb
  obtain ⟨hlt, -⟩ := List.getElem?_eq_some_iff.mp hb
  have hstream : (stored s)[p]? = some b := by
    obtain ⟨tail, htail⟩ := stored_snapshot hsnap
    rw [← htail, List.getElem?_append_left hlt]
    exact hb
  obtain ⟨hlt', hget⟩ := List.getElem?_eq_some_iff.mp hstream
  have hlast := hread p hp
  have hcount : (stored s).length < Word64.size := by
    have hsmall := h.small
    rw [length_encodeAll] at hlt
    rw [Word64.size]
    omega
  rw [hbuf, h.ring hcount p hlt' hlast, hget]

/-- A reader has moved within its snapshot. -/
structure SameSnapshot (v v' : LiveReader) : Prop where
  bufSize : v'.reader.bufSize = v.reader.bufSize
  endPos : v'.reader.endPos = v.reader.endPos
  snapshot : v'.snapshot = v.snapshot

/-- Behind a header only the read position moves; then a reader is idle or takes a payload. -/
theorem takeHeader_cases (v : LiveReader) (header : List UInt8) :
    ∃ p, v.takeHeader header = { v with reader := { v.reader with readPos := p }, pc := .idle } ∨
      ∃ tsNs length, v.takeHeader header =
        { v with reader := { v.reader with readPos := p } }.takeBytes tsNs length [] := by
  by_cases hover : v.reader.endPos <
      Word64.add (Word64.add v.reader.readPos kRecordHeaderSize) (LittleEndian.ofLE (header.drop 8))
  · refine ⟨Word64.sub (Word64.add v.reader.readPos kRecordHeaderSize) kRecordHeaderSize,
      Or.inl ?_⟩
    rw [LiveReader.takeHeader]
    simp only
    rw [if_pos hover]
  · refine ⟨Word64.add v.reader.readPos kRecordHeaderSize, Or.inr
      ⟨LittleEndian.ofLE (header.take 8), LittleEndian.ofLE (header.drop 8), ?_⟩⟩
    rw [LiveReader.takeHeader]
    simp only
    rw [if_neg hover]

theorem sameSnapshot_takeBytes (v : LiveReader) (tsNs length : Nat) (got : List UInt8) :
    SameSnapshot v (v.takeBytes tsNs length got) := by
  rw [LiveReader.takeBytes]
  split
  · exact ⟨rfl, rfl, rfl⟩
  · exact ⟨rfl, rfl, rfl⟩

theorem sameSnapshot_step (file : LogFile) (v : LiveReader) : SameSnapshot v (v.step file) := by
  rw [LiveReader.step]
  split
  · split
    · exact ⟨rfl, rfl, rfl⟩
    · exact ⟨rfl, rfl, rfl⟩
  · simp only
    split
    · exact ⟨rfl, rfl, rfl⟩
    · obtain ⟨p, hidle | ⟨tsNs, length, htake⟩⟩ := takeHeader_cases v _
      · rw [hidle]
        exact ⟨rfl, rfl, rfl⟩
      · rw [htake]
        have h := sameSnapshot_takeBytes { v with reader := { v.reader with readPos := p } }
          tsNs length []
        exact ⟨h.bufSize, h.endPos, h.snapshot⟩
  · exact sameSnapshot_takeBytes _ _ _ _

theorem Late.step (h : Late s v) (hkeeps : Keeps s)
    (hread : ∀ p, loading v = some p → (stored s).length ≤ p + s.logger.bufSize) :
    Late s (v.step s.logger.file) := by
  rw [LiveReader.step]
  rcases h.pc with hidle | hheader
  · simp only [hidle]
    split
    · exact h
    · exact ⟨h.wrapped, h.seen, h.readPos, Or.inr rfl⟩
  · have hfirst := hread v.reader.readPos (by rw [loading, hheader]; rfl)
    have hwrapped := h.wrapped
    have hsmall := hkeeps.small
    rw [h.readPos] at hfirst
    rw [Word64.size] at hwrapped
    omega

theorem Follows.step (h : Follows s v) (hkeeps : Keeps s)
    (hread : ∀ p, loading v = some p → (stored s).length ≤ p + s.logger.bufSize) :
    Follows s (v.step s.logger.file) := by
  have hsame := sameSnapshot_step s.logger.file v
  refine ⟨hsame.bufSize.trans h.bufSize, hsame.endPos.trans_le h.endPos_le, ?_⟩
  rcases h.place with ⟨hbefore, done, rest, htracks⟩ | hlate
  · left
    have hfit : totalSize v.snapshot ≤ s.logger.bufSize := by
      rw [htracks.snapshot, totalSize_append, ← htracks.endPos]
      exact h.endPos_le
    rw [hsame.snapshot]
    exact ⟨hbefore, htracks.step (hkeeps.intact h.bufSize hbefore hfit hread)⟩
  · exact Or.inr (hlate.step hkeeps hread)

theorem Keeps.withLive (h : Keeps s) (live : Option LiveReader) : Keeps { s with live } :=
  ⟨h.magic, h.bufferSize, h.fileSize, h.small, h.writePos, h.pending, h.ring⟩

theorem Follows.withLive (h : Follows s v) (live : Option LiveReader) :
    Follows { s with live } v :=
  ⟨h.bufSize, h.endPos_le, h.place.imp_right fun hlate =>
    ⟨hlate.wrapped, hlate.seen, hlate.readPos, hlate.pc⟩⟩

theorem WriterMove.bufSize {next : LogRecord} {s' : LogSession} (hm : WriterMove s next s') :
    s'.logger.bufSize = s.logger.bufSize := by
  cases hm <;> rfl

/-- What the writer does leaves a reader where it stands. -/
theorem WriterMove.follows {next : LogRecord} {s' : LogSession} (hm : WriterMove s next s')
    (h : Follows s v) : Follows s' v := by
  have hstored := hm.stored_le
  have hbuf := hm.bufSize
  have hwritten : s.written <+: s'.written := by
    cases hm with
    | start => exact List.prefix_refl _
    | store => exact List.prefix_refl _
    | publish => exact List.prefix_append _ _
  refine ⟨h.bufSize.trans hbuf.symm, h.endPos_le.trans hbuf.ge, ?_⟩
  rcases h.place with ⟨hbefore, htracks⟩ | hlate
  · exact Or.inl ⟨hbefore.trans hwritten, htracks⟩
  · exact Or.inr ⟨hlate.wrapped.trans hstored, hlate.seen, hlate.readPos, hlate.pc⟩

/-- A new reader stands before the first record of its snapshot. -/
theorem Sound.opened (h : Sound s) (hpos : s.logger.file.writePos ≤ s.logger.bufSize)
    {r : Reader} (hr : Reader.ofFile s.logger.file = .ok r) :
    Follows s { reader := r, snapshot := s.written } := by
  have hkeeps := h.keeps
  rw [Reader.ofFile] at hr
  rw [if_neg (by rw [hkeeps.fileSize]; omega), if_neg (not_not.mpr hkeeps.magic)] at hr
  cases hr
  have holdest : Reader.oldest s.logger.file.bufferSize s.logger.file.writePos = 0 := by
    rw [Reader.oldest, hkeeps.bufferSize, if_neg (by omega)]
  refine ⟨hkeeps.bufferSize, hpos, ?_⟩
  by_cases hcount : totalSize s.written < Word64.size
  · left
    have hend : s.logger.file.writePos = totalSize s.written := by
      rw [hkeeps.writePos, Nat.mod_eq_of_lt hcount]
    have hsmall := hkeeps.small
    have hzero : totalSize [] + totalSize s.written = totalSize s.written := Nat.zero_add _
    exact ⟨List.prefix_refl _, [], s.written,
      ⟨rfl, rfl, hend.trans hzero.symm, by rw [hzero]; omega⟩, holdest⟩
  · right
    refine ⟨?_, rfl, holdest, Or.inl rfl⟩
    rw [stored, List.length_append, length_encodeAll]
    omega

theorem sound_step {label : LogLabel} (h : Sound s) (hproper : Proper s label)
    (hread : NotOverwritten s label) : Sound (s.step label) := by
  cases label with
  | writer next =>
    have hm := writerMove s next
    have hlive : (s.writerStep next).live = s.live := by
      generalize s.writerStep next = s' at hm
      cases hm <;> rfl
    refine ⟨hm.keeps h.keeps hproper, fun v hv => hm.follows (h.follows v ?_)⟩
    rw [← hlive]
    exact hv
  | openReader =>
    rw [LogSession.step, openReader]
    split
    · rename_i r hlive hr
      refine ⟨h.keeps.withLive _, fun v hv => ?_⟩
      cases hv
      exact (h.opened hproper hr).withLive _
    · exact h
  | reader =>
    refine ⟨h.keeps.withLive _, fun v hv => ?_⟩
    obtain ⟨v₀, hv₀, rfl⟩ := Option.map_eq_some_iff.mp hv
    exact ((h.follows v₀ hv₀).step h.keeps (hread v₀ hv₀)).withLive _

end Session

theorem sound_create {page bufferSize : Nat} {l : BinaryLogger}
    (hl : create page bufferSize = .ok l) (hfile : l.file.fileSize < 2 ^ 63) :
    Sound { logger := l } := by
  have h := carries_create hl
  refine ⟨⟨h.magic, h.bufferSize, h.fileSize, ?_, h.writePos, ?_, fun _ => h.ring⟩, ?_⟩
  · rw [h.fileSize] at hfile
    exact Nat.lt_of_le_of_lt (Nat.le_add_left _ _) hfile
  · intro rec k hp
    cases hp
  · intro v hv
    cases hv

/-- Over every interleaving in which a reader loads no byte that the writer has come round to,
it hands out the records of its snapshot, in order. `ftruncate` refuses a file of 2^63 bytes. -/
theorem consistent_of_notOverwritten {page bufferSize : Nat} {l : BinaryLogger}
    (hl : create page bufferSize = .ok l) (hfile : l.file.fileSize < 2 ^ 63)
    {labels : List LogLabel} (hproper : Along LogSession.step Proper { logger := l } labels)
    (hread : Along LogSession.step NotOverwritten { logger := l } labels) :
    Always LogSession.step Consistent { logger := l } labels := by
  have hsound : Always LogSession.step Sound { logger := l } labels :=
    always_of_along (fun s label hs hq => sound_step hs hq.1 hq.2) (sound_create hl hfile)
      (along_and.mpr ⟨hproper, hread⟩)
  apply always_iff_forall_run.mpr
  intro pre hpre
  exact (always_iff_forall_run.mp hsound pre hpre).consistent

theorem seven_lt_two_pow_64 : 7 < 2 ^ 64 := by
  decide

theorem length_three_lt : [1, 2, (3 : UInt8)].length < 2 ^ 32 := by
  decide

/-- A record of 15 bytes. -/
def noted : LogRecord where
  tsNs := 7
  data := [1, 2, 3]
  tsNs_lt := seven_lt_two_pow_64
  length_lt := length_three_lt

/-- The record is written and a reader constructed, which loads it byte by byte while the next
record is being stored. -/
def inTime : List LogLabel :=
  List.replicate (noted.size + 2) (.writer noted) ++
    .openReader :: (List.replicate 17 [.reader, .writer noted]).flatten

theorem consistent_of_notOverwritten_inTime :
    Always LogSession.step Consistent { logger := onePage } inTime :=
  consistent_of_notOverwritten create_onePage (by decide) (by decide +kernel) (by decide +kernel)

theorem along_proper {s : LogSession} {labels : List LogLabel}
    (h : ∀ label ∈ labels, label = .reader ∨
      ∃ record, label = .writer record ∧ record.size ≤ s.logger.bufSize) :
    Along LogSession.step Proper s labels := by
  induction labels generalizing s with
  | nil => trivial
  | cons label labels ih =>
    rcases h label List.mem_cons_self with rfl | ⟨record, rfl, hsize⟩
    · exact ⟨trivial, ih fun label hlabel => h label (List.mem_cons_of_mem _ hlabel)⟩
    · refine ⟨hsize, ih fun label hlabel => ?_⟩
      have hbuf : (s.step (.writer record)).logger.bufSize = s.logger.bufSize :=
        (writerMove s record).bufSize
      rw [hbuf]
      exact h label (List.mem_cons_of_mem _ hlabel)

/-- A record is written and a reader constructed; another record is written before the reader
takes its first steps. -/
def laps (first second : LogRecord) (steps : Nat) : List LogLabel :=
  List.replicate (first.size + 2) (.writer first) ++
    .openReader ::
      (List.replicate (second.size + 2) (.writer second) ++ List.replicate steps .reader)

section Laps

variable {s : LogSession} {first second : LogRecord}

theorem proper_laps (hidle : s.pending = none) (hpos : 0 < s.logger.bufSize)
    (hfirst : first.size ≤ s.logger.bufSize) (hsecond : second.size ≤ s.logger.bufSize)
    (hopen : (s.logger.write first.tsNs first.data).file.writePos ≤ s.logger.bufSize)
    (steps : Nat) : Along LogSession.step Proper s (laps first second steps) := by
  rw [laps, along_append, run_write hidle hpos hfirst]
  refine ⟨along_proper fun label hlabel => ?_, hopen, along_proper fun label hlabel => ?_⟩
  · exact Or.inr ⟨first, List.eq_of_mem_replicate hlabel, hfirst⟩
  · rcases List.mem_append.mp hlabel with hwriter | hreader
    · refine Or.inr ⟨second, List.eq_of_mem_replicate hwriter, ?_⟩
      rw [LogSession.step, openReader]
      split
      · exact hsecond
      · exact hsecond
    · exact Or.inl (List.eq_of_mem_replicate hreader)

theorem run_laps (hidle : s.pending = none) (hpos : 0 < s.logger.bufSize)
    (hfirst : first.size ≤ s.logger.bufSize) (hsecond : second.size ≤ s.logger.bufSize)
    (hlive : s.live = none) {r : Reader}
    (hr : Reader.ofFile (s.logger.write first.tsNs first.data).file = .ok r) (steps : Nat) :
    run LogSession.step s (laps first second steps) =
      run LogSession.step
        { logger := (s.logger.write first.tsNs first.data).write second.tsNs second.data
          written := s.written ++ [first] ++ [second]
          live := some { reader := r, snapshot := s.written ++ [first] } }
        (List.replicate steps .reader) := by
  have hopen : LogSession.step
      { s with
        logger := s.logger.write first.tsNs first.data
        written := s.written ++ [first] } .openReader =
      { logger := s.logger.write first.tsNs first.data
        written := s.written ++ [first]
        live := some { reader := r, snapshot := s.written ++ [first] } } := by
    rw [LogSession.step, openReader, hlive, hidle]
    simp only [hr]
  have hlast := @run_write
    { logger := s.logger.write first.tsNs first.data
      written := s.written ++ [first]
      live := some { reader := r, snapshot := s.written ++ [first] } } rfl hpos second hsecond
  rw [laps, run_append, run_write hidle hpos hfirst, run_cons, hopen, run_append, hlast]

end Laps

theorem length_zeros_lt : (List.replicate 4084 (0 : UInt8)).length < 2 ^ 32 := by
  rw [List.length_replicate]
  decide

/-- A record that takes a whole ring of one page. -/
def wide : LogRecord where
  tsNs := 0
  data := List.replicate 4084 0
  tsNs_lt := zero_lt_two_pow_64
  length_lt := length_zeros_lt

/-- A record of 12 bytes, the header. -/
def early : LogRecord where
  tsNs := 7
  data := []
  tsNs_lt := seven_lt_two_pow_64
  length_lt := length_nil_lt

/-- Both records have been written, and the reader has not taken a step. -/
def overwritten : LogSession where
  logger := (onePage.write early.tsNs early.data).write wide.tsNs wide.data
  written := [early, wide]
  live := some
    { reader := { bufSize := 4096, readPos := 0, endPos := 12 }
      snapshot := [early] }

/-- The writer goes once round the ring of one page before the reader takes its first step: it
hands out an entry with the time 0, out of the middle of the second record. -/
theorem not_consistent_overwritten :
    create 4096 1 = .ok onePage ∧ onePage.file.fileSize < 2 ^ 63 ∧
      Along LogSession.step Proper { logger := onePage } (laps early wide 13) ∧
      ¬ Always LogSession.step Consistent { logger := onePage } (laps early wide 13) := by
  have hsize : wide.size ≤ onePage.bufSize := by decide +kernel
  refine ⟨create_onePage, by decide, proper_laps rfl (by decide) (by decide) hsize (by decide) 13,
    fun hconsistent => ?_⟩
  have hrun : run LogSession.step { logger := onePage } (laps early wide 13) =
      run LogSession.step overwritten (List.replicate 13 .reader) :=
    run_laps rfl (by decide) (by decide) hsize rfl rfl 13
  have hend := always_iff_forall_run.mp hconsistent _ (List.prefix_refl _)
  rw [hrun] at hend
  have hseen : (run LogSession.step overwritten (List.replicate 13 .reader)).live.map
      LiveReader.seen = some [⟨0, 0, []⟩] := by
    decide +kernel
  have hsnapshot : (run LogSession.step overwritten (List.replicate 13 .reader)).live.map
      (fun v => v.snapshot.map yielded) = some [yielded early] := by
    decide +kernel
  obtain ⟨v, hv, hv'⟩ := Option.map_eq_some_iff.mp hseen
  rw [hv, Option.map_some, Option.some.injEq] at hsnapshot
  have hbefore := (hend v hv).seen
  rw [hv', hsnapshot] at hbefore
  exact absurd hbefore (by decide)

end SmartQuant.Snapshot
