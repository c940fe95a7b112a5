import Mathlib.Data.List.TakeWhile
import SmartQuant.Lib.BucketRing

/-!
# Windows over evenly spaced buckets

While no clock reading lies as far back as 2^63, the buckets of a ring in use follow
each other at the length of a bucket, whatever the gaps and the order of the readings.
So a window holds no more buckets than its length has room for.
-/
namespace SmartQuant.BucketRing

variable {β : Type*} {size len cap : ℕ}

/-- The bucket `i` places before the head. -/
def back (size : ℕ) (r : BucketRing β) (i : ℕ) : Bucket β := r.buckets ((r.head + size - i) % size)

/-- The head is one of the slots, and no more are in use than there are. -/
structure Fits (size : ℕ) (r : BucketRing β) : Prop where
  head_lt : r.head < size
  count_le : r.count ≤ size

/-- The buckets in use start at distance `len` from each other. -/
structure Spaced (size len : ℕ) (r : BucketRing β) : Prop where
  head_lt : r.head < size
  count_le : r.count ≤ size
  spaced : ∀ i < r.count, (r.back size i).tsNs + i * len = r.headBucket.tsNs
  early : 0 < r.count → r.headBucket.tsNs < 2 ^ 63

theorem back_zero {r : BucketRing β} (h : r.head < size) : r.back size 0 = r.headBucket := by
  rw [back, headBucket, Nat.sub_zero, Nat.add_mod_right, Nat.mod_eq_of_lt h]

/-- Where the bucket `i` places before `head` stands. -/
theorem slot_eq {head i : ℕ} (hhead : head < size) (hi : i < size) :
    (head + size - i) % size = if i ≤ head then head - i else head + size - i := by
  split
  · rw [show head + size - i = head - i + size by omega, Nat.add_mod_right,
      Nat.mod_eq_of_lt (by omega)]
  · exact Nat.mod_eq_of_lt (by omega)

theorem next_eq {head : ℕ} (hhead : head < size) :
    (head + 1) % size = if head + 1 = size then 0 else head + 1 := by
  split
  · rename_i h
    rw [h, Nat.mod_self]
  · exact Nat.mod_eq_of_lt (by omega)

theorem back_setHead {r : BucketRing β} {b : Bucket β} {i : ℕ} (hhead : r.head < size)
    (hi : i < size) (h0 : i ≠ 0) : (r.setHead b).back size i = r.back size i := by
  show (if (r.head + size - i) % size = r.head then b else r.back size i) = r.back size i
  rw [if_neg]
  rw [slot_eq hhead hi]
  split <;> omega

/-- A push moves every bucket one place back. -/
theorem back_push {r : BucketRing β} {b : Bucket β} {i : ℕ} (hhead : r.head < size)
    (hi : i + 1 < size) : (r.push size b).back size (i + 1) = r.back size i := by
  have hnext := next_eq hhead
  have hlt : (r.head + 1) % size < size := Nat.mod_lt _ (by omega)
  rw [push, back_setHead hlt hi (by omega)]
  show r.buckets (((r.head + 1) % size + size - (i + 1)) % size) =
    r.buckets ((r.head + size - i) % size)
  rw [slot_eq hlt hi, slot_eq hhead (by omega)]
  congr 1
  rw [hnext]
  split <;> split <;> split <;> omega

theorem fits_empty {zero : β} (h : 0 < size) : Fits size (empty zero) := ⟨h, Nat.zero_le _⟩

theorem fits_modifyHead {r : BucketRing β} (h : Fits size r) (f : β → β) :
    Fits size (r.modifyHead f) := ⟨h.head_lt, h.count_le⟩

theorem fits_push {r : BucketRing β} (h : Fits size r) (b : Bucket β) :
    Fits size (r.push size b) := by
  refine ⟨Nat.mod_lt _ (Nat.zero_lt_of_lt h.head_lt), ?_⟩
  have hcount := h.count_le
  rw [push_count]
  split <;> omega

theorem fits_openBuckets {r : BucketRing β} (h : Fits size r) (start : ℕ) (zero : β) (n : ℕ) :
    Fits size (openBuckets size len start zero r n) := by
  induction n with
  | zero => exact h
  | succ n ih => exact fits_push ih _

theorem fits_advance {r : BucketRing β} (h : Fits size r) (zero : β) (now : ℕ) :
    Fits size (advance size cap len zero r now) := by
  have hsize : 0 < size := Nat.zero_lt_of_lt h.head_lt
  by_cases hc : r.count = 0
  · rw [advance, if_pos hc]
    exact ⟨hsize, hsize⟩
  · rw [advance_of_started hc]
    split
    · exact h
    · exact fits_openBuckets h _ zero _

/-- The head starts one bucket length behind the bucket before it, in 64-bit arithmetic. -/
structure Chained (size len : ℕ) (r : BucketRing β) : Prop where
  fits : Fits size r
  link : 1 < r.count → Word64.add (r.back size 1).tsNs len = r.headBucket.tsNs

theorem chained_empty {zero : β} (h : 0 < size) : Chained size len (empty zero) where
  fits := fits_empty h
  link hc := absurd hc (Nat.not_lt_zero 1)

theorem chained_modifyHead {r : BucketRing β} (h : Chained size len r) (f : β → β) :
    Chained size len (r.modifyHead f) where
  fits := fits_modifyHead h.fits f
  link hc := by
    have hlt : 1 < size := Nat.lt_of_lt_of_le hc h.fits.count_le
    rw [modifyHead_tsNs, modifyHead, back_setHead h.fits.head_lt hlt Nat.one_ne_zero]
    exact h.link hc

theorem chained_push {r : BucketRing β} (h : Fits size r) (hsize : 1 < size) {b : Bucket β}
    (hb : b.tsNs = Word64.add r.headBucket.tsNs len) : Chained size len (r.push size b) where
  fits := fits_push h b
  link _ := by
    rw [push_headBucket, back_push h.head_lt hsize, back_zero h.head_lt, hb]

theorem add_openBuckets_tsNs (start : ℕ) (zero : β) (r : BucketRing β)
    (hstart : start = r.headBucket.tsNs) (n : ℕ) :
    Word64.add (openBuckets size len start zero r n).headBucket.tsNs len =
      Word64.add start ((n + 1) * len) := by
  cases n with
  | zero => rw [openBuckets, ← hstart, Nat.zero_add, Nat.one_mul]
  | succ n =>
    rw [openBuckets, push_headBucket, Word64.add_add, Nat.succ_mul (n + 1) len]

theorem chained_openBuckets {r : BucketRing β} (h : Chained size len r) (hsize : 1 < size)
    (zero : β) (n : ℕ) :
    Chained size len (openBuckets size len r.headBucket.tsNs zero r n) := by
  cases n with
  | zero => exact h
  | succ n =>
    exact chained_push (fits_openBuckets h.fits _ zero n) hsize
      (add_openBuckets_tsNs _ zero r rfl n).symm

theorem chained_advance {zero : β} {r : BucketRing β} (h : Chained size len r) (hsize : 1 < size)
    (now : ℕ) : Chained size len (advance size cap len zero r now) := by
  by_cases hc : r.count = 0
  · refine ⟨fits_advance h.fits zero now, fun hcount => ?_⟩
    rw [advance, if_pos hc] at hcount
    exact absurd hcount (Nat.lt_irrefl 1)
  · rw [advance_of_started hc]
    split
    · exact h
    · exact chained_openBuckets h hsize zero _

theorem spaced_empty {zero : β} (h : 0 < size) : Spaced size len (empty zero) where
  head_lt := h
  count_le := Nat.zero_le _
  spaced i hi := absurd hi (Nat.not_lt_zero i)
  early hc := absurd hc (Nat.lt_irrefl 0)

theorem spaced_modifyHead {r : BucketRing β} (h : Spaced size len r) (f : β → β) :
    Spaced size len (r.modifyHead f) where
  head_lt := h.head_lt
  count_le := h.count_le
  spaced i hi := by
    rw [modifyHead_tsNs, ← h.spaced i hi]
    cases i with
    | zero => rw [back_zero h.head_lt, back_zero (by exact h.head_lt), modifyHead_tsNs]
    | succ i =>
      have hlt : i + 1 < size := Nat.lt_of_lt_of_le hi h.count_le
      rw [modifyHead, back_setHead h.head_lt hlt (Nat.succ_ne_zero i)]
  early hc := by
    rw [modifyHead_tsNs]
    exact h.early hc

theorem spaced_push {r : BucketRing β} (h : Spaced size len r) {b : Bucket β}
    (hb : b.tsNs = r.headBucket.tsNs + len) (hearly : b.tsNs < 2 ^ 63) :
    Spaced size len (r.push size b) where
  head_lt := Nat.mod_lt _ (Nat.zero_lt_of_lt h.head_lt)
  count_le := by
    have hcount := h.count_le
    rw [push_count]
    split <;> omega
  spaced i hi := by
    have hle : i < size ∧ i < r.count + 1 := by
      have hcount := h.count_le
      rw [push_count] at hi
      split at hi <;> omega
    rw [push_headBucket, hb]
    cases i with
    | zero =>
      rw [back_zero (Nat.mod_lt _ (Nat.zero_lt_of_lt h.head_lt)), push_headBucket, hb]
      omega
    | succ i =>
      rw [back_push h.head_lt hle.1, ← h.spaced i (by omega), Nat.succ_mul, Nat.add_assoc]
  early _ := by
    rw [push_headBucket]
    exact hearly

theorem spaced_openBuckets {r : BucketRing β} (h : Spaced size len r) (zero : β) {n : ℕ}
    (hn : r.headBucket.tsNs + n * len < 2 ^ 63) :
    Spaced size len (openBuckets size len r.headBucket.tsNs zero r n) := by
  induction n with
  | zero => exact h
  | succ n ih =>
    have hsucc : (n + 1) * len = n * len + len := Nat.succ_mul n len
    have hword : r.headBucket.tsNs + n * len < Word64.size := by
      rw [Word64.size]
      omega
    have hadd : Word64.add r.headBucket.tsNs ((n + 1) * len) =
        r.headBucket.tsNs + n * len + len := by
      rw [Word64.add_of_lt (by unfold Word64.size; omega)]
      omega
    refine spaced_push (ih (by omega)) ?_ ?_
    · rw [openBuckets_tsNs size len zero r hword]
      exact hadd
    · show Word64.add r.headBucket.tsNs ((n + 1) * len) < 2 ^ 63
      omega

/-- Bringing the head up to any clock reading keeps the buckets spaced. -/
theorem spaced_advance {zero : β} {r : BucketRing β} {now : ℕ} (h : Spaced size len r)
    (hlen : len ≤ 2 ^ 63) (hnow : now < 2 ^ 63) :
    Spaced size len (advance size cap len zero r now) := by
  by_cases hc : r.count = 0
  · rw [advance, if_pos hc]
    have hsize : 0 < size := Nat.zero_lt_of_lt h.head_lt
    refine ⟨hsize, hsize, ?_, fun _ => by rwa [setHead_headBucket]⟩
    intro i hi
    obtain rfl : i = 0 := Nat.lt_one_iff.mp hi
    rw [back_zero hsize, Nat.zero_mul, Nat.add_zero]
  · rw [advance_of_started hc]
    have hearly := h.early (Nat.pos_of_ne_zero hc)
    have hword : Word64.add r.headBucket.tsNs len = r.headBucket.tsNs + len :=
      Word64.add_of_small (by omega) (by omega)
    split
    · exact h
    · rename_i hge
      rw [Word64.sub_of_le (by omega) (by unfold Word64.size; omega)]
      have hopened := opened_le (now - r.headBucket.tsNs) cap len
      exact spaced_openBuckets h zero (by omega)

/-- The head never goes back, even if the clock does. -/
theorem tsNs_le_advance {zero : β} {r : BucketRing β} {now : ℕ} (h : Spaced size len r)
    (hc : 0 < r.count) (hlen : 0 < len) (hlen' : len ≤ 2 ^ 63) (hnow : now < 2 ^ 63) :
    r.headBucket.tsNs ≤ (advance size cap len zero r now).headBucket.tsNs := by
  have hearly := h.early hc
  by_cases hle : r.headBucket.tsNs ≤ now
  · rw [advance_tsNs hc.ne' hle (by rw [Word64.size]; omega)]
    exact Nat.le_add_right _ _
  · have hword : Word64.add r.headBucket.tsNs len = r.headBucket.tsNs + len :=
      Word64.add_of_small hearly hlen'
    rw [advance_of_started hc.ne', hword, if_pos (by omega)]

theorem since_eq_cons {r : BucketRing β} (hlt : r.head < size) (hc : 0 < r.count)
    {cutoff : ℕ} (hcut : cutoff ≤ r.headBucket.tsNs) :
    ∃ older, r.since size cutoff = r.headBucket :: older := by
  obtain ⟨n, hn⟩ : ∃ n, r.count = n + 1 := ⟨r.count - 1, by omega⟩
  have hhead := back_zero hlt
  rw [back] at hhead
  rw [since, newestFirst]
  rw [hn, List.range_succ_eq_map, List.map_cons, hhead, List.takeWhile_cons_of_pos (by simpa)]
  exact ⟨_, rfl⟩

/-- A window that reaches the bucket before the head holds the two of them. -/
theorem since_eq_cons_cons {r : BucketRing β} (hlt : r.head < size) (hc : 1 < r.count)
    {cutoff : ℕ} (hhead : cutoff ≤ r.headBucket.tsNs) (hcut : cutoff ≤ (r.back size 1).tsNs) :
    ∃ older, r.since size cutoff = r.headBucket :: r.back size 1 :: older := by
  obtain ⟨n, hn⟩ : ∃ n, r.count = n + 1 + 1 := ⟨r.count - 2, by omega⟩
  have hzero := back_zero hlt
  rw [back] at hzero
  rw [since, newestFirst, hn, List.range_succ_eq_map, List.range_succ_eq_map, List.map_cons, hzero,
    List.map_cons, List.map_cons, List.takeWhile_cons_of_pos, List.takeWhile_cons_of_pos]
  · exact ⟨_, rfl⟩
  · exact decide_eq_true hcut
  · exact decide_eq_true hhead

/-- A window longer than a bucket holds two of them, wherever the clock stands in its word. -/
theorem two_le_length_since {r : BucketRing β} (h : Chained size len r) (hc : 1 < r.count)
    (window : ℕ) (hlen : len ≤ window) :
    2 ≤ (r.since size (if window ≤ r.headBucket.tsNs then r.headBucket.tsNs - window
      else 0)).length := by
  have hlink := h.link hc
  rw [Word64.add] at hlink
  have hmod := Nat.mod_le ((r.back size 1).tsNs + len) Word64.size
  obtain ⟨older, hsince⟩ := since_eq_cons_cons h.fits.head_lt hc
    (show (if window ≤ r.headBucket.tsNs then r.headBucket.tsNs - window else 0) ≤
      r.headBucket.tsNs by split <;> omega) (by split <;> omega)
  rw [hsince]
  simp

theorem exists_bucket_of_since {r : BucketRing β} {cutoff : ℕ} {b : Bucket β}
    (h : b ∈ r.since size cutoff) : ∃ i, r.buckets i = b := by
  obtain ⟨i, -, rfl⟩ := List.mem_map.mp (List.takeWhile_subset _ h)
  exact ⟨_, rfl⟩

theorem length_since_le_count (size : ℕ) (r : BucketRing β) (cutoff : ℕ) :
    (r.since size cutoff).length ≤ r.count := by
  have hpre : r.since size cutoff <+: r.newestFirst size := List.takeWhile_prefix _
  simpa [newestFirst] using hpre.length_le

/-- A window from the head back to `cutoff` holds at most one bucket more than its length has
room for. -/
theorem length_since_le {r : BucketRing β} (h : Spaced size len r) (hlen : 0 < len)
    {cutoff window : ℕ} (hcut : r.headBucket.tsNs ≤ cutoff + window) :
    (r.since size cutoff).length ≤ window / len + 1 := by
  by_contra hlong
  have hk : window / len + 1 < (r.since size cutoff).length := by omega
  have hpre : r.since size cutoff <+: r.newestFirst size := List.takeWhile_prefix _
  have hcount : window / len + 1 < r.count :=
    hk.trans_le (length_since_le_count size r cutoff)
  have hback : (r.since size cutoff)[window / len + 1] = r.back size (window / len + 1) := by
    rw [hpre.getElem hk]
    simp [newestFirst, back]
  have hin : cutoff ≤ (r.back size (window / len + 1)).tsNs := by
    rw [← hback]
    simpa using List.mem_takeWhile_imp (List.getElem_mem hk)
  have hts := h.spaced _ hcount
  have hroom := Nat.lt_div_mul_add (a := window) hlen
  rw [Nat.add_mul, Nat.one_mul] at hts
  omega

end SmartQuant.BucketRing
