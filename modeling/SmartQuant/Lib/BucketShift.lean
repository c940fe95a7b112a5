import SmartQuant.Lib.BucketWindow

/-!
# The same ring at another time

Two rings, brought forward by clocks that differ by a constant and filled with values that
correspond, correspond bucket by bucket, as long as no sum leaves the word. So a window
of the one is the window of the other, at the other's times.
-/
namespace SmartQuant.BucketRing

variable {β γ : Type*} {size len cap delay top : ℕ} {f : β → γ}

/-- The bucket at a later time, with another value. -/
def shift (delay : ℕ) (f : β → γ) (b : Bucket β) : Bucket γ :=
  { tsNs := b.tsNs + delay, val := f b.val }

/-- The second ring is the first, `delay` later; no bucket of the first opens after `top`. -/
structure Shifted (size delay top : ℕ) (f : β → γ) (r : BucketRing β) (r' : BucketRing γ) :
    Prop where
  fits : Fits size r
  early : 0 < r.count → r.headBucket.tsNs ≤ top
  head : r'.head = r.head
  count : r'.count = r.count
  back : ∀ i < r.count, r'.back size i = shift delay f (r.back size i)

variable {r : BucketRing β} {r' : BucketRing γ}

theorem shifted_empty (hsize : 0 < size) (zero : β) (zero' : γ) :
    Shifted size delay top f (empty zero) (empty zero') where
  fits := fits_empty hsize
  early hc := absurd hc (Nat.lt_irrefl 0)
  head := rfl
  count := rfl
  back i hi := absurd hi (Nat.not_lt_zero i)

theorem Shifted.headBucket (h : Shifted size delay top f r r') (hc : 0 < r.count) :
    r'.headBucket = shift delay f r.headBucket := by
  have hhead : r'.head < size := by
    rw [h.head]
    exact h.fits.head_lt
  rw [← back_zero hhead, ← back_zero h.fits.head_lt]
  exact h.back 0 hc

theorem Shifted.setHead (h : Shifted size delay top f r r') {b : Bucket β} {b' : Bucket γ}
    (hb : b' = shift delay f b) (hearly : b.tsNs ≤ top) :
    Shifted size delay top f (r.setHead b) (r'.setHead b') where
  fits := ⟨h.fits.head_lt, h.fits.count_le⟩
  early _ := by
    rw [setHead_headBucket]
    exact hearly
  head := h.head
  count := h.count
  back i hi := by
    have hhead : r'.head < size := by
      rw [h.head]
      exact h.fits.head_lt
    have hlt : i < size := Nat.lt_of_lt_of_le hi h.fits.count_le
    by_cases h0 : i = 0
    · rw [h0, back_zero (by exact hhead), back_zero (by exact h.fits.head_lt), setHead_headBucket,
        setHead_headBucket, hb]
    · rw [back_setHead h.fits.head_lt hlt h0, back_setHead hhead hlt h0]
      exact h.back i hi

theorem Shifted.modifyHead (h : Shifted size delay top f r r') (hc : 0 < r.count) {g : β → β}
    {g' : γ → γ} (hg : ∀ v, g' (f v) = f (g v)) :
    Shifted size delay top f (r.modifyHead g) (r'.modifyHead g') := by
  refine h.setHead ?_ (h.early hc)
  rw [h.headBucket hc, shift, shift, hg]

theorem Shifted.push (h : Shifted size delay top f r r') {b : Bucket β} {b' : Bucket γ}
    (hb : b' = shift delay f b) (hearly : b.tsNs ≤ top) :
    Shifted size delay top f (r.push size b) (r'.push size b') where
  fits := fits_push h.fits b
  early _ := by
    rw [push_headBucket]
    exact hearly
  head := by rw [push_head, push_head, h.head]
  count := by rw [push_count, push_count, h.count]
  back i hi := by
    have hhead : r'.head < size := by
      rw [h.head]
      exact h.fits.head_lt
    have hle : i < size ∧ i < r.count + 1 := by
      have hcount := h.fits.count_le
      rw [push_count] at hi
      split at hi <;> omega
    have hpos : 0 < size := Nat.zero_lt_of_lt hle.1
    cases i with
    | zero =>
      rw [back_zero (by exact Nat.mod_lt _ hpos), back_zero (by exact Nat.mod_lt _ hpos),
        push_headBucket, push_headBucket, hb]
    | succ i =>
      rw [back_push h.fits.head_lt hle.1, back_push hhead hle.1]
      exact h.back i (by omega)

theorem Shifted.openBuckets (h : Shifted size delay top f r r') {zero : β} {zero' : γ}
    (hzero : f zero = zero') {start n : ℕ} (hn : start + n * len ≤ top)
    (htop : top + delay < Word64.size) :
    Shifted size delay top f (openBuckets size len start zero r n)
      (openBuckets size len (start + delay) zero' r' n) := by
  induction n with
  | zero => exact h
  | succ n ih =>
    have hsucc : (n + 1) * len = n * len + len := Nat.succ_mul n len
    have hearly : Word64.add start ((n + 1) * len) = start + (n + 1) * len :=
      Word64.add_of_lt (by omega)
    have hlate : Word64.add (start + delay) ((n + 1) * len) = start + delay + (n + 1) * len :=
      Word64.add_of_lt (by omega)
    refine (ih (by omega)).push ?_ ?_
    · rw [shift, hzero, hearly, hlate, Nat.add_right_comm]
    · rw [hearly]
      exact hn

/-- Clocks that differ by the delay bring the rings forward alike. -/
theorem Shifted.advance (h : Shifted size delay top f r r') {zero : β} {zero' : γ}
    (hzero : f zero = zero') {now : ℕ} (hnow : now ≤ top) (htop : top + delay + len < Word64.size) :
    Shifted size delay top f (advance size cap len zero r now)
      (advance size cap len zero' r' (now + delay)) := by
  by_cases hc : r.count = 0
  · have hsize : 0 < size := Nat.zero_lt_of_lt h.fits.head_lt
    rw [BucketRing.advance, if_pos hc, BucketRing.advance, if_pos (h.count.trans hc)]
    refine ⟨⟨hsize, hsize⟩, fun _ => ?_, rfl, rfl, fun i hi => ?_⟩
    · rw [setHead_headBucket]
      exact hnow
    · obtain rfl : i = 0 := Nat.lt_one_iff.mp hi
      rw [back_zero (by exact hsize), back_zero (by exact hsize), setHead_headBucket,
        setHead_headBucket, shift, hzero]
  · have hpos := Nat.pos_of_ne_zero hc
    have hearly := h.early hpos
    have hts : r'.headBucket.tsNs = r.headBucket.tsNs + delay := by rw [h.headBucket hpos, shift]
    rw [advance_of_started hc, advance_of_started (by rw [h.count]; exact hc), hts,
      Word64.add_of_lt (by omega), Word64.add_of_lt (by omega)]
    by_cases hlt : now < r.headBucket.tsNs + len
    · rw [if_pos hlt, if_pos (by omega)]
      exact h
    · have hsub : now + delay - (r.headBucket.tsNs + delay) = now - r.headBucket.tsNs := by omega
      rw [if_neg hlt, if_neg (by omega), Word64.sub_of_le (by omega) (by omega),
        Word64.sub_of_le (by omega) (by omega), hsub]
      have hopened := opened_le (now - r.headBucket.tsNs) cap len
      exact h.openBuckets hzero (by omega) (by omega)

theorem Shifted.newestFirst (h : Shifted size delay top f r r') :
    r'.newestFirst size = (r.newestFirst size).map (shift delay f) := by
  rw [BucketRing.newestFirst, BucketRing.newestFirst, h.count, List.map_map]
  exact List.map_congr_left fun i hi => h.back i (List.mem_range.mp hi)

/-- The start of a window, or 0 where the window is longer than the clock has run. -/
def cutoff (window headTs : ℕ) : ℕ := if window ≤ headTs then headTs - window else 0

theorem cutoff_shift (window headTs delay t : ℕ) :
    cutoff window (headTs + delay) ≤ t + delay ↔ cutoff window headTs ≤ t := by
  rw [cutoff, cutoff]
  split <;> split <;> omega

/-- The windows have the same buckets. -/
theorem Shifted.since (h : Shifted size delay top f r r') (window headTs : ℕ) :
    r'.since size (cutoff window (headTs + delay)) =
      (r.since size (cutoff window headTs)).map (shift delay f) := by
  rw [BucketRing.since, BucketRing.since, h.newestFirst, List.takeWhile_map]
  congr 2
  funext b
  exact decide_eq_decide.mpr (cutoff_shift window headTs delay b.tsNs)

end SmartQuant.BucketRing
