import Mathlib.Algebra.Order.BigOperators.Group.List
import SmartQuant.Lib.Runs
import SmartQuant.Log.ReaderBounds

/-!
# A reader as a cursor

While the whole log fits the ring, a reader of it is a place in the list of records: each
`next` hands out the record at that place, until the records of the snapshot are through,
and `rewind` goes back to the first record and on to what has been written meanwhile.
-/
namespace SmartQuant.ReaderCursor

open BinaryLogger LogRecord RingStream RoundTrip Runs

inductive LogCall where
  | write (rec : LogRecord)
  | next
  | rewind

/-- A logger, and a reader of its file. -/
structure Tail where
  logger : BinaryLogger
  reader : Reader

namespace Tail

def step (s : Tail) : LogCall → Tail
  | .write rec => { s with logger := s.logger.write rec.tsNs rec.data }
  | .next => { s with reader := (s.reader.next s.logger.file.ring).2 }
  | .rewind => { s with reader := s.reader.rewind s.logger.file }

/-- What `next` returns. -/
def out (s : Tail) : LogCall → List (Option Yielded)
  | .next =>
    let res := s.reader.next s.logger.file.ring
    [res.1.map fun e => ⟨e.timestampNs, e.length, res.2.payload s.logger.file.ring e⟩]
  | _ => []

/-- What is written fits the ring behind everything written before. -/
def Fits (s : Tail) : LogCall → Prop
  | .write rec => s.logger.file.writePos + rec.size ≤ s.logger.bufSize
  | _ => True

instance (s : Tail) : (call : LogCall) → Decidable (Fits s call)
  | .write rec => inferInstanceAs (Decidable (s.logger.file.writePos + rec.size ≤ s.logger.bufSize))
  | .next => inferInstanceAs (Decidable True)
  | .rewind => inferInstanceAs (Decidable True)

end Tail

/-- The records written, those handed out since the snapshot, and those of the snapshot ahead. -/
structure Cursor where
  written : List LogRecord
  seen : List LogRecord
  ahead : List LogRecord

namespace Cursor

def step (c : Cursor) : LogCall → Cursor
  | .write rec => { c with written := c.written ++ [rec] }
  | .next => { c with seen := c.seen ++ c.ahead.take 1, ahead := c.ahead.drop 1 }
  | .rewind => { c with seen := [], ahead := c.written }

def out (c : Cursor) : LogCall → List (Option Yielded)
  | .next => [c.ahead.head?.map yielded]
  | _ => []

/-- A reader just opened on a log. -/
def opened (recs : List LogRecord) : Cursor := { written := recs, seen := [], ahead := recs }

end Cursor

/-- The reader is where the cursor is. -/
structure Follows (s : Tail) (c : Cursor) : Prop where
  carries : Carries s.logger (framing.encodeAll c.written)
  fits : totalSize c.written ≤ s.logger.bufSize
  small : s.logger.bufSize < 2 ^ 63
  bufSize : s.reader.bufSize = s.logger.bufSize
  snapshot : c.seen ++ c.ahead <+: c.written
  readPos : s.reader.readPos = totalSize c.seen
  endPos : s.reader.endPos = totalSize (c.seen ++ c.ahead)
  totalRecords : s.reader.totalRecords = c.seen.length

section Next

variable {mem : Nat → UInt8} {r : Reader} {s : List UInt8}

theorem next_totalRecords (mem : Nat → UInt8) (r : Reader) :
    (r.next mem).2.totalRecords = r.totalRecords + (r.next mem).1.toList.length := by
  rw [Reader.next]
  split
  · rfl
  · simp only
    split
    · rfl
    · exact (Reader.takePayload_eq mem _ _ _).2.2 ▸ rfl

theorem next_of_none (h : StandsIn mem r s) (hnone : (r.next mem).1 = none) :
    (r.next mem).2 = r := by
  have hle := h.le
  have hsmall := h.small
  have hback : Word64.sub (r.readPos + kRecordHeaderSize) kRecordHeaderSize = r.readPos := by
    rw [Word64.sub_of_le (Nat.le_add_left _ _) (by rw [Word64.size, kRecordHeaderSize]; omega),
      Nat.add_sub_cancel]
  rw [Reader.next, h.add_eq (by decide)] at hnone ⊢
  split
  · rfl
  · rename_i hlong
    rw [if_neg hlong] at hnone
    simp only [Reader.ringReadInto, h.add_eq (n := kRecordHeaderSize) (by decide), hback] at hnone ⊢
    split
    · rfl
    · rename_i hbody
      rw [if_neg hbody] at hnone
      cases hnone

end Next

variable {s : Tail} {c : Cursor}

/-- A log that fits the ring is in it from the first byte on, so every earlier log is too. -/
theorem holds_start {size : Nat} {mem : Nat → UInt8} {s t : List UInt8}
    (h : Holds size mem (s ++ t)) (hfit : (s ++ t).length ≤ size) : Holds size mem s := by
  intro p hp _
  have hlen : p < (s ++ t).length := by
    rw [List.length_append]
    omega
  rw [h p hlen (by omega), List.getElem_append_left hp]

theorem Follows.total_le (h : Follows s c) : totalSize (c.seen ++ c.ahead) ≤ s.logger.bufSize := by
  obtain ⟨later, hwritten⟩ := h.snapshot
  have hfits := h.fits
  rw [← hwritten, totalSize_append] at hfits
  omega

theorem Follows.standsIn (h : Follows s c) :
    StandsIn s.logger.file.ring s.reader (framing.encodeAll (c.seen ++ c.ahead)) where
  ring := by
    obtain ⟨later, hwritten⟩ := h.snapshot
    have hring := h.carries.ring
    have hfits := h.fits
    rw [← hwritten, framing.encodeAll_append] at hring
    rw [h.bufSize]
    apply holds_start hring
    rwa [← framing.encodeAll_append, length_encodeAll, hwritten]
  endPos := by rw [h.endPos, length_encodeAll]
  small := by
    rw [length_encodeAll]
    exact Nat.lt_of_le_of_lt h.total_le h.small
  start := by
    rw [length_encodeAll, h.bufSize]
    exact h.total_le.trans (Nat.le_add_left _ _)
  le := by
    rw [length_encodeAll, h.readPos, totalSize_append]
    exact Nat.le_add_right _ _

theorem Follows.rest (h : Follows s c) :
    (framing.encodeAll (c.seen ++ c.ahead)).drop s.reader.readPos = framing.encodeAll c.ahead := by
  rw [framing.encodeAll_append]
  apply List.drop_left'
  rw [length_encodeAll, h.readPos]

theorem Follows.write (h : Follows s c) {rec : LogRecord} (hfit : s.Fits (.write rec)) :
    Follows (s.step (.write rec)) (c.step (.write rec)) := by
  have hpos : s.logger.file.writePos = totalSize c.written := by
    rw [h.carries.writePos, length_encodeAll]
  have hsmall := h.small
  have hsize : totalSize c.written + (kRecordHeaderSize + rec.data.length) ≤ s.logger.bufSize := by
    rw [← hpos]
    exact hfit
  have htotal : totalSize (c.written ++ [rec]) = totalSize c.written + rec.size :=
    totalSize_append _ _
  have hcarries : Carries (s.logger.write rec.tsNs rec.data)
      (framing.encodeAll c.written ++ recordHeader rec.tsNs rec.data.length ++ rec.data) := by
    apply carries_write h.carries (by omega) (by omega)
    rw [length_encodeAll, Word64.size]
    omega
  have hencode : framing.encodeAll (c.written ++ [rec]) =
      framing.encodeAll c.written ++ recordHeader rec.tsNs rec.data.length ++ rec.data := by
    rw [framing.encodeAll_append, Framing.encodeAll_cons, Framing.encodeAll_nil, List.append_nil,
      List.append_assoc]
    rfl
  refine { h with carries := ?_, fits := ?_, snapshot := ?_ }
  · show Carries _ (framing.encodeAll (c.written ++ [rec]))
    rw [hencode]
    exact hcarries
  · show totalSize (c.written ++ [rec]) ≤ s.logger.bufSize
    rw [htotal, LogRecord.size]
    exact hsize
  · exact h.snapshot.trans (List.prefix_append _ _)

theorem Follows.rewind (h : Follows s c) : Follows (s.step .rewind) (c.step .rewind) := by
  have hpos : s.logger.file.writePos = totalSize c.written := by
    rw [h.carries.writePos, length_encodeAll]
  refine { h with
    snapshot := List.prefix_refl _
    readPos := ?_
    endPos := hpos
    totalRecords := rfl }
  show Reader.oldest s.reader.bufSize s.logger.file.writePos = 0
  rw [Reader.oldest, if_neg]
  rw [hpos, h.bufSize]
  exact Nat.not_lt.mpr h.fits

/-- With no record ahead `next` returns false and stays. -/
theorem Follows.next_nil (h : Follows s c) (hahead : c.ahead = []) :
    (s.reader.next s.logger.file.ring).1 = none ∧
      (s.reader.next s.logger.file.ring).2 = s.reader := by
  have hcases := h.standsIn.next_cases
  rw [h.rest, hahead, Framing.encodeAll_nil] at hcases
  obtain ⟨-, hnone⟩ | ⟨rec, rest, e, r', hdecode, -⟩ := hcases
  · exact ⟨hnone, next_of_none h.standsIn hnone⟩
  · have hnil : decode [] = none := framing.decode_nil
    rw [hnil] at hdecode
    cases hdecode

/-- With a record ahead `next` hands it out and goes behind it. -/
theorem Follows.next_cons (h : Follows s c) {rec : LogRecord} {ahead : List LogRecord}
    (hahead : c.ahead = rec :: ahead) :
    ∃ e r', s.reader.next s.logger.file.ring = (some e, r') ∧
      ⟨e.timestampNs, e.length, r'.payload s.logger.file.ring e⟩ = yielded rec ∧
      r'.readPos = totalSize (c.seen ++ [rec]) ∧ r'.endPos = s.reader.endPos := by
  have hcases := h.standsIn.next_cases
  have hdecode : decode (framing.encodeAll c.ahead) = some (rec, framing.encodeAll ahead) := by
    rw [hahead, Framing.encodeAll_cons]
    exact framing.decode_append rec _
  rw [h.rest, hdecode] at hcases
  obtain ⟨hnone, -⟩ | ⟨rec', rest, e, r', hsome, hnext, hyielded, hstand, hrest⟩ := hcases
  · cases hnone
  obtain ⟨rfl, rfl⟩ := Prod.mk.inj (Option.some.inj hsome)
  refine ⟨e, r', hnext, hyielded, ?_, by rw [hstand.endPos, h.standsIn.endPos]⟩
  have hlen := congrArg List.length hrest
  have hle := hstand.le
  have hsum : totalSize (c.seen ++ rec :: ahead) =
      totalSize (c.seen ++ [rec]) + totalSize ahead := by
    rw [← totalSize_append, List.append_assoc, List.singleton_append]
  rw [List.length_drop, length_encodeAll, length_encodeAll, hahead, hsum] at hlen
  rw [length_encodeAll, hahead, hsum] at hle
  omega

theorem Follows.next (h : Follows s c) :
    s.out .next = c.out .next ∧ Follows (s.step .next) (c.step .next) := by
  have hcount := next_totalRecords s.logger.file.ring s.reader
  have hbuf : (s.reader.next s.logger.file.ring).2.bufSize = s.reader.bufSize :=
    ReaderBounds.next_bufSize
  cases hahead : c.ahead with
  | nil =>
    obtain ⟨hnone, hsame⟩ := h.next_nil hahead
    have hstep : s.step .next = s := by rw [Tail.step, hsame]
    have hcursor : c.step .next = c := by
      rw [Cursor.step, hahead, List.take_nil, List.append_nil, List.drop_nil, ← hahead]
    rw [hstep, hcursor, Tail.out, Cursor.out, hnone, hahead]
    exact ⟨rfl, h⟩
  | cons rec ahead =>
    obtain ⟨e, r', hnext, hyielded, hreadPos, hendPos⟩ := h.next_cons hahead
    have hcursor : c.step .next = { c with seen := c.seen ++ [rec], ahead } := by
      rw [Cursor.step, hahead]
      rfl
    rw [hnext] at hcount hbuf
    rw [hcursor, Tail.step, Tail.out, Cursor.out, hnext, hahead]
    have hsame : c.seen ++ [rec] ++ ahead = c.seen ++ c.ahead := by
      rw [hahead, List.append_assoc, List.singleton_append]
    refine ⟨congrArg (fun y => [some y]) hyielded, ?_⟩
    exact {
      carries := h.carries
      fits := h.fits
      small := h.small
      bufSize := hbuf.trans h.bufSize
      snapshot := hsame ▸ h.snapshot
      readPos := hreadPos
      endPos := by rw [hendPos, h.endPos, hsame]
      totalRecords := by
        rw [List.length_append, ← h.totalRecords]
        exact hcount }

theorem Follows.step (h : Follows s c) (call : LogCall) (hfit : s.Fits call) :
    s.out call = c.out call ∧ Follows (s.step call) (c.step call) := by
  cases call with
  | write rec => exact ⟨rfl, h.write hfit⟩
  | next => exact h.next
  | rewind => exact ⟨rfl, h.rewind⟩

theorem follows_opened {page bufferSize : Nat} {l : BinaryLogger}
    (hl : create page bufferSize = .ok l) (hsmall : l.bufSize < 2 ^ 63) {recs : List LogRecord}
    (hrecs : totalSize recs ≤ l.bufSize) {r : Reader}
    (hr : Reader.ofFile (writeAll l recs).file = .ok r) :
    Follows ⟨writeAll l recs, r⟩ (.opened recs) := by
  have hfit : ∀ rec ∈ recs, rec.size ≤ l.bufSize := fun rec hrec =>
    (List.le_sum_of_mem (List.mem_map_of_mem hrec)).trans hrecs
  have hcarries := carries_created hl hfit (Nat.lt_of_le_of_lt hrecs hsmall)
  have hbuf := writeAll_bufSize l recs
  have hpos : (writeAll l recs).file.writePos = totalSize recs := by
    rw [hcarries.writePos, length_encodeAll]
  have hbuffer : (writeAll l recs).file.bufferSize = l.bufSize := hcarries.bufferSize.trans hbuf
  rw [Reader.ofFile, if_neg (by rw [hcarries.fileSize]; omega),
    if_neg (not_not.mpr hcarries.magic)] at hr
  cases hr
  exact {
    carries := hcarries
    fits := hrecs.trans_eq hbuf.symm
    small := hbuf.trans_lt hsmall
    bufSize := hcarries.bufferSize
    snapshot := List.prefix_refl _
    readPos := by
      show Reader.oldest _ _ = 0
      rw [Reader.oldest, if_neg]
      rw [hpos, hbuffer]
      exact Nat.not_lt.mpr hrecs
    endPos := hpos
    totalRecords := rfl }

/-- Whole calls in any order, the log fitting the ring throughout: `next` returns what the
cursor gives, `total_records()` counts the records handed out since the snapshot, and
`bytes_available()` is the size of those ahead. -/
theorem reader_is_cursor {page bufferSize : Nat} {l : BinaryLogger}
    (hl : create page bufferSize = .ok l) (hsmall : l.bufSize < 2 ^ 63) {recs : List LogRecord}
    (hrecs : totalSize recs ≤ l.bufSize) {r : Reader}
    (hr : Reader.ofFile (writeAll l recs).file = .ok r) {calls : List LogCall}
    (hfits : Along Tail.step Tail.Fits ⟨writeAll l recs, r⟩ calls) :
    let s := run Tail.step ⟨writeAll l recs, r⟩ calls
    let c := run Cursor.step (.opened recs) calls
    outputs Tail.step Tail.out ⟨writeAll l recs, r⟩ calls =
        outputs Cursor.step Cursor.out (.opened recs) calls ∧
      s.reader.totalRecords = c.seen.length ∧ s.reader.bytesAvailable = totalSize c.ahead := by
  have hstep : ∀ (s : Tail) (c : Cursor) (call call' : LogCall), Follows s c → call = call' →
      s.Fits call → List.Forall₂ Eq (s.out call) (c.out call') ∧
        Follows (s.step call) (c.step call') := by
    rintro s c call _ h rfl hfit
    obtain ⟨hout, hnext⟩ := h.step call hfit
    rw [hout]
    exact ⟨List.forall₂_refl _, hnext⟩
  obtain ⟨hout, hlast⟩ := outputs_related hstep (follows_opened hl hsmall hrecs hr)
    (List.forall₂_refl calls) hfits
  refine ⟨List.forall₂_eq_eq_eq ▸ hout, hlast.totalRecords, ?_⟩
  have hle := hlast.standsIn.le
  have hend := hlast.standsIn.endPos
  have hlt := hlast.standsIn.small
  rw [Reader.bytesAvailable, Word64.sub_of_le (by omega) (by rw [Word64.size]; omega),
    hlast.endPos, hlast.readPos, totalSize_append, Nat.add_sub_cancel_left]

def note : LogRecord where
  tsNs := 5
  data := [1, 2, 3]
  tsNs_lt := by decide
  length_lt := by decide

/-- A record written behind the snapshot shows after the rewind. -/
def followed : List LogCall := [.next, .write note, .next, .rewind, .next, .next, .next]

theorem reader_is_cursor_followed :
    let s₀ : Tail := ⟨writeAll onePage [note], { bufSize := 4096, readPos := 0, endPos := 15 }⟩
    outputs Tail.step Tail.out s₀ followed =
        [some (yielded note), none, some (yielded note), some (yielded note), none] ∧
      (run Tail.step s₀ followed).reader.totalRecords = 2 ∧
      (run Tail.step s₀ followed).reader.bytesAvailable = 0 :=
  reader_is_cursor create_onePage (by decide) (by decide +kernel) rfl (by decide +kernel)

end SmartQuant.ReaderCursor
