import Mathlib.Logic.Function.Iterate
import Mathlib.Tactic.Linarith
import SmartQuant.Log.RoundTrip

/-!
# One pass of the reader

A pass goes from the construction of a reader, or a rewind, to the next rewind. The
bytes of the ring may be anything, and so may the lengths they announce. What a call
takes lies in a window of at most `buf_size_` bytes, and the calls take it piece by
piece, so only one piece can have the end of the ring strictly inside.
-/
namespace SmartQuant.ReaderPass

open BinaryLogger LogRecord RingStream RoundTrip

/-- A pass starts where a reader is constructed or rewound. -/
inductive StartsPass (file : LogFile) : Reader → Prop where
  | opened {r : Reader} (h : Reader.ofFile file = .ok r) : StartsPass file r
  | rewound (r : Reader) : StartsPass file (r.rewind file)

/-- The reader after `k` calls of `next`. -/
def pass (mem : Nat → UInt8) (r : Reader) (k : Nat) : Reader :=
  (fun r : Reader => (r.next mem).2)^[k] r

/-- Call `k` of the pass returns this entry. -/
def Returns (mem : Nat → UInt8) (r : Reader) (k : Nat) (e : Entry) : Prop :=
  ((pass mem r k).next mem).1 = some e

/-- Call `k` of the pass overwrites the bounce buffer. -/
def Bounces (mem : Nat → UInt8) (r : Reader) (k : Nat) : Prop :=
  ∃ e, Returns mem r k e ∧ e.data = .bounce

structure OrderlyPass (mem : Nat → UInt8) (r : Reader) : Prop where
  advances : ∀ k e, Returns mem r k e →
    (pass mem r (k + 1)).readPos = (pass mem r k).readPos + (kRecordHeaderSize + e.length)
  stays : ∀ k, ((pass mem r k).next mem).1 = none →
    (pass mem r (k + 1)).readPos = (pass mem r k).readPos
  within : ∀ k, (pass mem r k).readPos ≤ (pass mem r k).endPos
  available : ∀ k, (pass mem r k).bytesAvailable =
    (pass mem r k).endPos - (pass mem r k).readPos
  ends : ∃ ys, Drains mem r ys
  oneBounce : ∀ j k, Bounces mem r j → Bounces mem r k → j = k
  dataKept : ∀ j k e, j < k → Returns mem r j e →
    (pass mem r k).payload mem e = (pass mem r (j + 1)).payload mem e

/-- A reader in the window of a pass that began at `start`. -/
structure InWindow (start : Nat) (r : Reader) : Prop where
  bufSize_pos : 0 < r.bufSize
  small : r.endPos + 2 ^ 33 < 2 ^ 64
  start_le : start ≤ r.readPos
  le_end : r.readPos ≤ r.endPos
  room : r.endPos ≤ start + r.bufSize

/-- What a call that returns an entry does to the reader. -/
structure Takes (r r' : Reader) (e : Entry) : Prop where
  bufSize : r'.bufSize = r.bufSize
  endPos : r'.endPos = r.endPos
  readPos : r'.readPos = r.readPos + (kRecordHeaderSize + e.length)
  le_end : r'.readPos ≤ r.endPos
  /-- A payload goes through the bounce buffer only with the end of the ring inside. -/
  straddles : e.data = .bounce → ∃ m, r.readPos < m * r.bufSize ∧ m * r.bufSize < r'.readPos
  bounce : e.data ≠ .bounce → r'.bounce = r.bounce

variable (mem : Nat → UInt8) {r : Reader} {start : Nat}

theorem announced_header_lt (pos : Nat) :
    LittleEndian.ofLE ((ringRead r.bufSize mem pos kRecordHeaderSize).drop 8) < 2 ^ 32 := by
  have hval := LittleEndian.ofLE_lt ((ringRead r.bufSize mem pos kRecordHeaderSize).drop 8)
  have hlen : ((ringRead r.bufSize mem pos kRecordHeaderSize).drop 8).length = 4 := by
    rw [List.length_drop, length_ringRead]
    rfl
  rw [hlen] at hval
  exact hval

/-- Behind the position `pos` the ring ends at the next multiple of its size. -/
theorem ring_end_inside {size pos length : Nat} (hsize : 0 < size)
    (h : ¬ length ≤ size - pos % size) :
    ∃ m, pos < m * size ∧ m * size < pos + length := by
  have hmod := Nat.mod_lt pos hsize
  have hdiv := Nat.div_add_mod' pos size
  refine ⟨pos / size + 1, ?_, ?_⟩
  · rw [Nat.add_mul, Nat.one_mul]
    omega
  · rw [Nat.add_mul, Nat.one_mul]
    omega

theorem takes_takePayload (h : 0 < r.bufSize) {tsNs length : Nat} {r₀ : Reader}
    (hbuf : r₀.bufSize = r.bufSize) (hend : r₀.endPos = r.endPos) (hbounce : r₀.bounce = r.bounce)
    (hpos : r₀.readPos = r.readPos + kRecordHeaderSize)
    (hadd : Word64.add r₀.readPos length = r₀.readPos + length)
    (hle : r₀.readPos + length ≤ r.endPos) :
    Takes r (r₀.takePayload mem tsNs length).2 (r₀.takePayload mem tsNs length).1 := by
  have hnext : Word64.add r₀.readPos length = r.readPos + (kRecordHeaderSize + length) := by
    rw [hadd, hpos, Nat.add_assoc]
  rw [Reader.takePayload]
  by_cases hfit : length ≤ r₀.bufSize - r₀.readPos % r₀.bufSize
  · rw [if_pos hfit]
    refine ⟨hbuf, hend, hnext, hadd.trans_le hle, fun hdata => ?_, fun _ => hbounce⟩
    cases hdata
  · rw [if_neg hfit]
    refine ⟨hbuf, hend, hnext, hadd.trans_le hle, fun _ => ?_, fun hdata => absurd rfl hdata⟩
    rw [hbuf] at hfit
    obtain ⟨m, hlow, hhigh⟩ := ring_end_inside h hfit
    refine ⟨m, by omega, ?_⟩
    show m * r.bufSize < Word64.add r₀.readPos length
    rw [hadd]
    exact hhigh

/-- A call leaves the reader as it was, or takes a header and the payload it announces. -/
theorem InWindow.next_cases (h : InWindow start r) :
    r.next mem = (none, r) ∨ ∃ e, (r.next mem).1 = some e ∧ Takes r (r.next mem).2 e := by
  have hle := h.le_end
  have hsmall := h.small
  have hlen := @announced_header_lt mem r r.readPos
  have hhead : Word64.add r.readPos kRecordHeaderSize = r.readPos + kRecordHeaderSize := by
    apply Word64.add_of_lt
    rw [Word64.size, kRecordHeaderSize]
    omega
  rw [Reader.next]
  by_cases hshort : r.endPos < Word64.add r.readPos kRecordHeaderSize
  · left
    rw [if_pos hshort]
  rw [if_neg hshort]
  simp only [Reader.ringReadInto, hhead]
  rw [hhead] at hshort
  generalize LittleEndian.ofLE
    ((ringRead r.bufSize mem r.readPos kRecordHeaderSize).drop 8) = length at *
  have hadd : Word64.add (r.readPos + kRecordHeaderSize) length =
      r.readPos + kRecordHeaderSize + length := by
    apply Word64.add_of_lt
    rw [Word64.size]
    omega
  by_cases hbody : r.endPos < Word64.add (r.readPos + kRecordHeaderSize) length
  · left
    rw [if_pos hbody, Word64.sub_of_le (Nat.le_add_left _ _) (by rw [Word64.size]; omega),
      Nat.add_sub_cancel]
  · right
    rw [if_neg hbody]
    rw [hadd] at hbody
    exact ⟨_, rfl, takes_takePayload mem h.bufSize_pos rfl rfl rfl rfl hadd (by simp only; omega)⟩

theorem InWindow.step (h : InWindow start r) : InWindow start (r.next mem).2 := by
  obtain hnone | ⟨e, -, htakes⟩ := h.next_cases mem
  · rw [hnone]
    exact h
  · have hstart := h.start_le
    have hpos := htakes.readPos
    refine ⟨?_, ?_, by omega, ?_, ?_⟩
    · rw [htakes.bufSize]
      exact h.bufSize_pos
    · rw [htakes.endPos]
      exact h.small
    · rw [htakes.endPos]
      exact htakes.le_end
    · rw [htakes.endPos, htakes.bufSize]
      exact h.room

theorem pass_succ (k : Nat) : pass mem r (k + 1) = ((pass mem r k).next mem).2 :=
  Function.iterate_succ_apply' _ k r

theorem InWindow.along (h : InWindow start r) (k : Nat) : InWindow start (pass mem r k) := by
  induction k with
  | zero => exact h
  | succ k ih =>
    rw [pass_succ]
    exact ih.step mem

theorem InWindow.constant (h : InWindow start r) (k : Nat) :
    (pass mem r k).bufSize = r.bufSize ∧ (pass mem r k).endPos = r.endPos := by
  induction k with
  | zero => exact ⟨rfl, rfl⟩
  | succ k ih =>
    rw [pass_succ]
    obtain hnone | ⟨e, -, htakes⟩ := (h.along mem k).next_cases mem
    · rw [hnone]
      exact ih
    · rw [htakes.bufSize, htakes.endPos]
      exact ih

theorem InWindow.readPos_mono (h : InWindow start r) {j k : Nat} (hjk : j ≤ k) :
    (pass mem r j).readPos ≤ (pass mem r k).readPos := by
  induction hjk with
  | refl => exact le_rfl
  | step _ ih =>
    rename_i k _
    refine ih.trans ?_
    rw [pass_succ]
    obtain hnone | ⟨e, -, htakes⟩ := (h.along mem k).next_cases mem
    · rw [hnone]
    · rw [htakes.readPos]
      exact Nat.le_add_right _ _

variable {mem}

theorem InWindow.takes (h : InWindow start r) {k : Nat} {e : Entry} (he : Returns mem r k e) :
    Takes (pass mem r k) (pass mem r (k + 1)) e := by
  rw [pass_succ]
  rw [Returns] at he
  obtain hnone | ⟨e', hsome, htakes⟩ := (h.along mem k).next_cases mem
  · rw [hnone] at he
    cases he
  · rw [hsome] at he
    cases he
    exact htakes

/-- The ring ends at most once strictly inside the window. -/
theorem InWindow.not_bounces_later (h : InWindow start r) {j k : Nat} (hjk : j < k)
    (hj : Bounces mem r j) : ¬ Bounces mem r k := by
  intro hk
  obtain ⟨e, he, hdata⟩ := hj
  obtain ⟨e', he', hdata'⟩ := hk
  have htakes := h.takes he
  have htakes' := h.takes he'
  obtain ⟨m, hm, hm'⟩ := htakes.straddles hdata
  obtain ⟨n, hn, hn'⟩ := htakes'.straddles hdata'
  rw [(h.constant mem j).1] at hm hm'
  rw [(h.constant mem k).1] at hn hn'
  have hmono := h.readPos_mono mem (show j + 1 ≤ k from hjk)
  have hstart := (h.along mem j).start_le
  have hend : (pass mem r (k + 1)).readPos ≤ start + r.bufSize := by
    have hle := (h.along mem (k + 1)).le_end
    rw [(h.constant mem (k + 1)).2] at hle
    exact hle.trans h.room
  have hlt : m < n := by
    by_contra hge
    have := Nat.mul_le_mul_right r.bufSize (Nat.not_lt.mp hge)
    omega
  have hfar := Nat.mul_le_mul_right r.bufSize (Nat.succ_le_of_lt hlt)
  rw [Nat.succ_mul] at hfar
  omega

theorem InWindow.bounce_step (h : InWindow start r) {k : Nat} (hk : ¬ Bounces mem r k) :
    (pass mem r (k + 1)).bounce = (pass mem r k).bounce := by
  rw [pass_succ]
  obtain hnone | ⟨e, hsome, htakes⟩ := (h.along mem k).next_cases mem
  · rw [hnone]
  · exact htakes.bounce fun hdata => hk ⟨e, hsome, hdata⟩

/-- Only the call that filled the bounce buffer has overwritten it. -/
theorem InWindow.bounce_eq (h : InWindow start r) {j : Nat} (hj : Bounces mem r j) {k : Nat}
    (hjk : j < k) :
    (pass mem r k).bounce = (pass mem r (j + 1)).bounce := by
  induction hjk with
  | refl => rfl
  | step hlt ih => rw [h.bounce_step (h.not_bounces_later hlt hj), ih]

theorem InWindow.payload_eq (h : InWindow start r) {j k : Nat} (hjk : j < k) {e : Entry}
    (he : Returns mem r j e) :
    (pass mem r k).payload mem e = (pass mem r (j + 1)).payload mem e := by
  rw [Reader.payload, Reader.payload]
  cases hdata : e.data with
  | ring off => rfl
  | bounce => rw [h.bounce_eq ⟨e, he, hdata⟩ hjk]

/-- Every entry takes a header at least, so the loop over `next` comes to its end. -/
theorem InWindow.drains (h : InWindow start r) : ∃ ys, Drains mem r ys := by
  induction hn : r.endPos - r.readPos using Nat.strong_induction_on generalizing r with
  | _ n ih =>
    obtain hnone | ⟨e, hsome, htakes⟩ := h.next_cases mem
    · exact ⟨[], .done (by rw [hnone])⟩
    · have hpos := htakes.readPos
      have hle := htakes.le_end
      have hend := htakes.endPos
      rw [kRecordHeaderSize] at hpos
      obtain ⟨ys, hys⟩ := ih _ (by omega) (h.step mem) rfl
      exact ⟨_, .more hsome hys⟩

theorem InWindow.orderly (h : InWindow start r) : OrderlyPass mem r where
  advances k e he := (h.takes he).readPos
  stays k hnone := by
    rw [pass_succ]
    obtain hsame | ⟨e, hsome, -⟩ := (h.along mem k).next_cases mem
    · rw [hsame]
    · rw [hsome] at hnone
      cases hnone
  within k := (h.along mem k).le_end
  available k := by
    have hsmall := (h.along mem k).small
    rw [Reader.bytesAvailable]
    exact Word64.sub_of_le (h.along mem k).le_end (by rw [Word64.size]; omega)
  ends := h.drains
  oneBounce j k hj hk := by
    rcases Nat.lt_trichotomy j k with hlt | heq | hgt
    · exact absurd hk (h.not_bounces_later hlt hj)
    · exact heq
    · exact absurd hj (h.not_bounces_later hgt hk)
  dataKept j k e hjk he := h.payload_eq hjk he

theorem inWindow_oldest {bufSize endPos total : Nat} {bounce : List UInt8} (hbuf : 0 < bufSize)
    (hend : endPos + 2 ^ 33 < 2 ^ 64) : InWindow (Reader.oldest bufSize endPos)
      { bufSize, endPos, bounce
        readPos := Reader.oldest bufSize endPos
        totalRecords := total } := by
  refine ⟨hbuf, hend, le_rfl, ?_, ?_⟩
  · simp only [Reader.oldest]
    split <;> omega
  · simp only [Reader.oldest]
    split <;> omega

/-- Whatever the ring contains, a pass over it advances by whole records, ends, and leaves the
data of its entries alone. -/
theorem orderlyPass_of_startsPass (mem : Nat → UInt8) {file : LogFile} {r : Reader}
    (h : StartsPass file r) (hbuf : 0 < r.bufSize) (hpos : file.writePos + 2 ^ 33 < 2 ^ 64) :
    OrderlyPass mem r := by
  cases h with
  | opened hopen =>
    rw [Reader.ofFile] at hopen
    split at hopen
    · cases hopen
    · split at hopen
      · cases hopen
      · cases hopen
        exact (inWindow_oldest hbuf hpos).orderly
  | rewound r => exact (inWindow_oldest hbuf hpos).orderly

/-- A full page, read from the middle of nowhere. -/
def fullPage : LogFile where
  magic := kLogMagic
  version := kLogVersion
  bufferSize := 4096
  writePos := 5000
  fileSize := 8192
  ring := fun _ => 0

theorem orderlyPass_of_startsPass_fullPage :
    OrderlyPass fullPage.ring { bufSize := 4096, endPos := 5000, readPos := 904 } :=
  @orderlyPass_of_startsPass fullPage.ring fullPage _ (.opened rfl) (by decide) (by decide)

end SmartQuant.ReaderPass
