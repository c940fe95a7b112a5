import SmartQuant.Log.RoundTrip

/-!
# What the ring holds

After any writes the ring holds the last `buf_size_` bytes of the stream of
headers and payloads, at the cells their positions name. The one way out is a
size so large that rounding it up to whole pages wraps: the check for 0 stands
before the rounding, the ring gets no bytes, and the first write divides by zero.
-/
namespace SmartQuant.RingContents

open BinaryLogger LogRecord RingStream RoundTrip

/-- The sequence of writes, unless one of them traps. -/
def writesOrTrap (l : BinaryLogger) (recs : List LogRecord) : Option BinaryLogger :=
  recs.foldlM (fun l rec => l.writeOrTrap rec.tsNs rec.data) l

/-- The write position counts the stream, and the ring has the last `buf_size_` bytes of it. -/
structure HoldsLast (l : BinaryLogger) (s : List UInt8) : Prop where
  writePos : l.file.writePos = s.length
  ring : ∀ p, (h : p < s.length) → s.length - l.bufSize ≤ p → l.file.ring (p % l.bufSize) = s[p]

theorem holdsLast_of_carries {l : BinaryLogger} {s : List UInt8} (h : Carries l s) :
    HoldsLast l s :=
  ⟨h.writePos, fun p hp hlast => h.ring p hp (by omega)⟩

theorem page_le_roundUpPage {page n : Nat} (hpage : 0 < page) (hn : 0 < n)
    (hfit : n + page ≤ Word64.size) : page ≤ roundUpPage page n := by
  have hlast : Word64.sub (Word64.add n page) 1 = n + page - 1 := by
    rcases Nat.lt_or_eq_of_le hfit with hlt | heq
    · rw [Word64.add_of_lt hlt, Word64.sub_of_le (by omega) hlt]
    · -- the sum is 2^64 exactly: the subtraction wraps back
      rw [Word64.add, heq, Nat.mod_self]
      rfl
  rw [roundUpPage, hlast]
  exact Nat.le_mul_of_pos_left page (Nat.div_pos (by omega) hpage)

theorem roundUpPage_eq_zero {page n : Nat} (hpage : page < Word64.size) (hn : n < Word64.size)
    (hwrap : Word64.size < n + page) : roundUpPage page n = 0 := by
  have hadd : Word64.add n page = n + page - Word64.size := by
    rw [Word64.add, Nat.mod_eq_sub_mod hwrap.le, Nat.mod_eq_of_lt (by omega)]
  rw [roundUpPage, hadd, Word64.sub_of_le (by omega) (by omega),
    Nat.div_eq_of_lt (by omega), Nat.zero_mul]

theorem create_bufSize {page bufferSize : Nat} {l : BinaryLogger}
    (h : create page bufferSize = .ok l) :
    0 < bufferSize ∧ l.bufSize = roundUpPage page bufferSize := by
  rw [create] at h
  split at h
  · cases h
  · cases h
    exact ⟨by omega, rfl⟩

theorem writesOrTrap_of_pos {l : BinaryLogger} (h : l.bufSize ≠ 0) (recs : List LogRecord) :
    writesOrTrap l recs = some (writeAll l recs) := by
  induction recs generalizing l with
  | nil => rfl
  | cons rec recs ih =>
    have hstep : l.writeOrTrap rec.tsNs rec.data = some (l.write rec.tsNs rec.data) := if_neg h
    rw [writesOrTrap, List.foldlM_cons, hstep]
    exact ih h

theorem writesOrTrap_of_zero {l : BinaryLogger} (h : l.bufSize = 0) {recs : List LogRecord}
    (hne : recs ≠ []) : writesOrTrap l recs = none := by
  cases recs with
  | nil => exact absurd rfl hne
  | cons rec recs =>
    have hstep : l.writeOrTrap rec.tsNs rec.data = none := if_pos h
    rw [writesOrTrap, List.foldlM_cons, hstep]
    rfl

/-- For every size the constructor accepts and every sequence of writes, the ring holds the
last bytes of the stream exactly when rounding the size up does not wrap, or nothing was
written. The page size of the system holds a record header at least. -/
theorem holdsLast_iff {page bufferSize : Nat} (hpage : kRecordHeaderSize ≤ page)
    (hpage' : page < Word64.size) (hbuffer : bufferSize < Word64.size) {l : BinaryLogger}
    (hl : create page bufferSize = .ok l) (recs : List LogRecord)
    (hlen : ∀ rec ∈ recs, rec.data.length ≤ l.bufSize) (htotal : totalSize recs < Word64.size) :
    (∃ l', writesOrTrap l recs = some l' ∧ HoldsLast l' (framing.encodeAll recs)) ↔
      bufferSize + page ≤ Word64.size ∨ recs = [] := by
  obtain ⟨hpos, hsize⟩ := create_bufSize hl
  constructor
  · intro hlast
    obtain ⟨l', hwrites, -⟩ := hlast
    by_contra hc
    push Not at hc
    have hzero : l.bufSize = 0 := hsize.trans (roundUpPage_eq_zero hpage' hbuffer hc.1)
    rw [writesOrTrap_of_zero hzero hc.2] at hwrites
    cases hwrites
  · rintro (hfit | rfl)
    · have hheader : kRecordHeaderSize ≤ l.bufSize := by
        rw [hsize]
        have hpage₀ : 0 < page := Nat.lt_of_lt_of_le (by decide) hpage
        exact hpage.trans (page_le_roundUpPage hpage₀ hpos hfit)
      have hcarries : Carries (writeAll l recs) (framing.encodeAll recs) :=
        carries_writeAll (carries_create hl) (fun rec hrec => ⟨hheader, hlen rec hrec⟩)
          (by rwa [List.length_nil, Nat.zero_add])
      refine ⟨_, writesOrTrap_of_pos ?_ recs, holdsLast_of_carries hcarries⟩
      rw [kRecordHeaderSize] at hheader
      omega
    · exact ⟨l, rfl, holdsLast_of_carries (carries_create hl)⟩

theorem holdsLast_iff_wrapped :
    (∃ l', writesOrTrap onePage (List.replicate 5 filler) = some l' ∧
      HoldsLast l' (framing.encodeAll (List.replicate 5 filler))) ↔
      1 + 4096 ≤ Word64.size ∨ List.replicate 5 filler = [] :=
  holdsLast_iff (by decide) (by decide) (by decide) create_onePage _ (by decide +kernel)
    (by decide +kernel)

/-- A record without payload. -/
def emptyRecord : LogRecord where
  tsNs := 0
  data := []
  tsNs_lt := zero_lt_two_pow_64
  length_lt := length_nil_lt

/-- The largest size there is passes the check for 0, and the first write traps. -/
theorem not_holdsLast_wrapped_size :
    ∃ l, create 4096 (Word64.size - 1) = .ok l ∧ l.bufSize = 0 ∧
      ¬ ∃ l', writesOrTrap l [emptyRecord] = some l' ∧
        HoldsLast l' (framing.encodeAll [emptyRecord]) := by
  refine ⟨_, rfl, by decide, ?_⟩
  intro hlast
  obtain ⟨l', hwrites, -⟩ := hlast
  cases hwrites

end SmartQuant.RingContents
