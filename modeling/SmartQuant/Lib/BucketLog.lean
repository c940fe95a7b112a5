import Mathlib.Algebra.BigOperators.Group.List.Basic
import Mathlib.Data.List.Chain
import SmartQuant.Lib.BucketWindow

/-!
# The log of all buckets

A ring keeps the newest of the buckets it has opened. `Logged` relates it to the list
of all of them, newest first. As long as a window reaches no further back than the
ring, summing over the ring's window is summing over the window of the log, and so
over everything ever recorded in one of its buckets.
-/
namespace SmartQuant.BucketRing

variable {β : Type*} {size len cap : ℕ} {zero : β}

/-- The ring holds the newest buckets of the log, which start at distance `len`. -/
structure Logged (size len : ℕ) (r : BucketRing β) (log : List (Bucket β)) : Prop where
  head_lt : r.head < size
  count_eq : r.count = min log.length size
  slots : ∀ (i : ℕ) (hi : i < log.length), i < size → r.back size i = log[i]
  spaced : log.IsChain fun newer older => newer.tsNs = older.tsNs + len
  early : r.count ≠ 0 → r.headBucket.tsNs < 2 ^ 63

/-- The log once the `n` empty buckets that follow the one starting at `start` are opened. -/
def openLog (len start : ℕ) (zero : β) (log : List (Bucket β)) : ℕ → List (Bucket β)
  | 0 => log
  | n + 1 => { tsNs := start + (n + 1) * len, val := zero } :: openLog len start zero log n

/-- The log once the head is brought up to a clock reading. -/
def advanceLog (cap len : ℕ) (zero : β) (log : List (Bucket β)) (now : ℕ) : List (Bucket β) :=
  match log with
  | [] => [{ tsNs := now, val := zero }]
  | b :: _ => openLog len b.tsNs zero log (min ((now - b.tsNs) / len) cap)

/-- The starts of the buckets that bringing the head up to a clock reading opens. -/
def opened (cap len : ℕ) (r : BucketRing β) (now : ℕ) : List ℕ :=
  if r.count = 0 then [now]
  else (List.range (min ((now - r.headBucket.tsNs) / len) cap)).map fun i =>
    r.headBucket.tsNs + (i + 1) * len

section Operations

variable {r : BucketRing β} {log : List (Bucket β)} {b : Bucket β}

theorem logged_empty (h : 0 < size) : Logged size len (empty zero) [] where
  head_lt := h
  count_eq := by simp [empty]
  slots i hi := absurd hi (Nat.not_lt_zero i)
  spaced := .nil
  early hc := absurd rfl hc

theorem Logged.count_ne_zero (h : Logged size len r (b :: log)) : r.count ≠ 0 := by
  have hcount := h.count_eq
  have hsize := h.head_lt
  rw [List.length_cons] at hcount
  omega

theorem Logged.headBucket_eq (h : Logged size len r (b :: log)) : r.headBucket = b := by
  rw [← back_zero h.head_lt]
  exact h.slots 0 (Nat.zero_lt_succ _) (Nat.zero_lt_of_lt h.head_lt)

theorem Logged.exists_cons (h : Logged size len r log) (hc : r.count ≠ 0) :
    ∃ rest, log = r.headBucket :: rest := by
  cases log with
  | nil => exact absurd (by simpa using h.count_eq) hc
  | cons b rest => exact ⟨rest, by rw [h.headBucket_eq]⟩

theorem Logged.modifyHead (h : Logged size len r (b :: log)) (f : β → β) :
    Logged size len (r.modifyHead f) ({ b with val := f b.val } :: log) where
  head_lt := h.head_lt
  count_eq := h.count_eq
  slots i hi hs := by
    cases i with
    | zero =>
      rw [back_zero (show (r.modifyHead f).head < size from h.head_lt), BucketRing.modifyHead,
        setHead_headBucket, h.headBucket_eq]
      rfl
    | succ i =>
      rw [BucketRing.modifyHead, back_setHead h.head_lt hs (Nat.succ_ne_zero i)]
      exact h.slots (i + 1) hi hs
  spaced := by
    cases log with
    | nil => exact .singleton _
    | cons older log =>
      have hspaced := h.spaced
      rw [List.isChain_cons_cons] at hspaced ⊢
      exact hspaced
  early hc := by
    rw [modifyHead_tsNs]
    exact h.early hc

theorem Logged.push (h : Logged size len r log) (hc : r.count ≠ 0)
    (hb : b.tsNs = r.headBucket.tsNs + len) (hearly : b.tsNs < 2 ^ 63) :
    Logged size len (r.push size b) (b :: log) where
  head_lt := Nat.mod_lt _ (Nat.zero_lt_of_lt h.head_lt)
  count_eq := by
    rw [push_count, h.count_eq, List.length_cons]
    split <;> omega
  slots i hi hs := by
    cases i with
    | zero =>
      rw [back_zero (Nat.mod_lt _ (Nat.zero_lt_of_lt h.head_lt)), push_headBucket]
      rfl
    | succ i =>
      rw [back_push h.head_lt hs]
      exact h.slots i (Nat.lt_of_succ_lt_succ hi) (Nat.lt_of_succ_lt hs)
  spaced := by
    obtain ⟨rest, rfl⟩ := h.exists_cons hc
    exact List.isChain_cons_cons.mpr ⟨hb, h.spaced⟩
  early _ := by
    rw [push_headBucket]
    exact hearly

theorem Logged.openBuckets (h : Logged size len r log) (hc : r.count ≠ 0) {n : ℕ}
    (hn : r.headBucket.tsNs + n * len < 2 ^ 63) :
    Logged size len (openBuckets size len r.headBucket.tsNs zero r n)
        (openLog len r.headBucket.tsNs zero log n) ∧
      (BucketRing.openBuckets size len r.headBucket.tsNs zero r n).count ≠ 0 := by
  induction n with
  | zero => exact ⟨h, hc⟩
  | succ n ih =>
    have hsucc : (n + 1) * len = n * len + len := Nat.succ_mul n len
    obtain ⟨hlogged, hcount⟩ := ih (by omega)
    have hword : r.headBucket.tsNs + (n + 1) * len < Word64.size := by
      rw [Word64.size]
      omega
    have hts := openBuckets_tsNs size len zero r
      (show r.headBucket.tsNs + n * len < Word64.size by omega)
    have hpush : Logged size len
        (BucketRing.openBuckets size len r.headBucket.tsNs zero r (n + 1))
        (openLog len r.headBucket.tsNs zero log (n + 1)) := by
      rw [BucketRing.openBuckets, openLog, Word64.add_of_lt hword]
      refine hlogged.push hcount ?_ hn
      rw [hts, hsucc, Nat.add_assoc]
    exact ⟨hpush, hpush.count_ne_zero⟩

/-- Bringing the ring up to a clock reading brings its log up to it. -/
theorem Logged.advance (h : Logged size len r log) (hpos : 0 < len) (hlen : len ≤ 2 ^ 63)
    {now : ℕ} (hnow : now < 2 ^ 63) :
    Logged size len (advance size cap len zero r now) (advanceLog cap len zero log now) ∧
      (BucketRing.advance size cap len zero r now).count ≠ 0 := by
  have hsize : 0 < size := Nat.zero_lt_of_lt h.head_lt
  by_cases hc : r.count = 0
  · have hnil : log = [] := by
      have hcount := h.count_eq
      exact List.eq_nil_of_length_eq_zero (by omega)
    have hnew : Logged size len (BucketRing.advance size cap len zero r now)
        [{ tsNs := now, val := zero }] := by
      rw [BucketRing.advance, if_pos hc]
      refine ⟨hsize, by simp [setHead]; omega, ?_, .singleton _, ?_⟩
      · intro i hi _
        obtain rfl : i = 0 := Nat.lt_one_iff.mp hi
        exact back_zero hsize
      · intro _
        rw [setHead_headBucket]
        exact hnow
    rw [hnil]
    exact ⟨hnew, hnew.count_ne_zero⟩
  · obtain ⟨rest, hlog⟩ := h.exists_cons hc
    have hearly := h.early hc
    have hword : Word64.add r.headBucket.tsNs len = r.headBucket.tsNs + len :=
      Word64.add_of_small (by omega) (by omega)
    have hgo : advanceLog cap len zero log now = openLog len r.headBucket.tsNs zero log
        (min ((now - r.headBucket.tsNs) / len) cap) := by
      rw [hlog]
      rfl
    rw [hgo, advance_of_started hc, hword]
    split
    · rename_i hlt
      have hzero : min ((now - r.headBucket.tsNs) / len) cap = 0 := by
        rw [Nat.div_eq_of_lt (by omega), Nat.zero_min]
      rw [hzero]
      exact ⟨h, hc⟩
    · rename_i hge
      rw [Word64.sub_of_le (by omega) (by unfold Word64.size; omega)]
      have hopened := opened_le (now - r.headBucket.tsNs) cap len
      exact h.openBuckets hc (by omega)

end Operations

section Window

variable {r : BucketRing β} {log : List (Bucket β)}

theorem Logged.newestFirst_eq (h : Logged size len r log) :
    r.newestFirst size = log.take size := by
  apply List.ext_getElem
  · simp [newestFirst, h.count_eq, Nat.min_comm]
  · intro i hi hi'
    rw [List.length_take] at hi'
    rw [List.getElem_take, ← h.slots i (by omega) (by omega)]
    simp [newestFirst, back]

/-- Going `i` buckets back in the log goes `i` times `len` back in time. -/
theorem tsNs_add_mul {b : Bucket β}
    (h : (b :: log).IsChain fun newer older => newer.tsNs = older.tsNs + len) (i : ℕ)
    (hi : i < (b :: log).length) : (b :: log)[i].tsNs + i * len = b.tsNs := by
  induction i generalizing b log with
  | zero => simp
  | succ i ih =>
    cases log with
    | nil => exact absurd (Nat.lt_of_succ_lt_succ hi) (Nat.not_lt_zero i)
    | cons older log =>
      obtain ⟨hts, hrest⟩ := List.isChain_cons_cons.mp h
      have hback := ih hrest (Nat.lt_of_succ_lt_succ hi)
      rw [List.getElem_cons_succ, Nat.succ_mul]
      omega

theorem pairwise_of_spaced (hlen : 0 < len)
    (h : log.IsChain fun newer older => newer.tsNs = older.tsNs + len) :
    log.Pairwise fun newer older => older.tsNs < newer.tsNs := by
  have hlt : log.IsChain fun newer older => older.tsNs < newer.tsNs :=
    h.imp fun newer older hts => by omega
  have : IsTrans (Bucket β) fun newer older => older.tsNs < newer.tsNs :=
    ⟨fun a b c hab hbc => hbc.trans hab⟩
  exact hlt.pairwise

theorem takeWhile_eq_filter {cutoff : ℕ}
    (h : log.Pairwise fun newer older => older.tsNs < newer.tsNs) :
    log.takeWhile (fun b => cutoff ≤ b.tsNs) = log.filter fun b => cutoff ≤ b.tsNs := by
  induction log with
  | nil => rfl
  | cons b log ih =>
    obtain ⟨hb, hrest⟩ := List.pairwise_cons.mp h
    by_cases hcut : cutoff ≤ b.tsNs
    · rw [List.takeWhile_cons_of_pos (by simpa using hcut),
        List.filter_cons_of_pos (by simpa using hcut), ih hrest]
    · rw [List.takeWhile_cons_of_neg (by simpa using hcut),
        List.filter_cons_of_neg (by simpa using hcut), eq_comm, List.filter_eq_nil_iff]
      intro older holder
      have hlt := hb older holder
      simp only [decide_eq_true_eq]
      omega

/-- The ring's window is the window of the log, if it reaches no further back than the ring. -/
theorem Logged.since_eq_filter (h : Logged size len r log) (hlen : 0 < len) {cutoff : ℕ}
    (hreach : r.headBucket.tsNs < cutoff + size * len) :
    r.since size cutoff = log.filter fun b => cutoff ≤ b.tsNs := by
  have hpair := pairwise_of_spaced hlen h.spaced
  have hold : (log.drop size).filter (fun b => cutoff ≤ b.tsNs) = [] := by
    rw [List.filter_eq_nil_iff]
    intro b hb
    obtain ⟨j, hj, rfl⟩ := List.getElem_of_mem hb
    rw [List.length_drop] at hj
    cases log with
    | nil => exact absurd hj (by simp)
    | cons newest log =>
      have hback := tsNs_add_mul h.spaced (size + j) (by omega)
      have hfar : size * len ≤ (size + j) * len := Nat.mul_le_mul_right len (Nat.le_add_right _ _)
      rw [h.headBucket_eq] at hreach
      rw [List.getElem_drop]
      simp only [decide_eq_true_eq]
      omega
  have hnewest : (log.take size).Pairwise fun newer older => older.tsNs < newer.tsNs :=
    hpair.sublist (List.take_sublist size log)
  rw [since, h.newestFirst_eq, takeWhile_eq_filter hnewest]
  conv_rhs => rw [← List.take_append_drop size log]
  rw [List.filter_append, hold, List.append_nil]

/-- A window that reaches further back than the ring is cut at the ring's oldest place. -/
theorem Logged.since_eq_clamped (h : Logged size len r log) (hlen : 0 < len) (cutoff : ℕ) :
    r.since size cutoff =
      log.filter fun b => max cutoff (r.headBucket.tsNs - (size - 1) * len) ≤ b.tsNs := by
  have hsize := h.head_lt
  have hspan : (size - 1) * len + len = size * len := by
    rw [← Nat.succ_mul, Nat.succ_eq_add_one, Nat.sub_add_cancel (by omega)]
  have hheld : ∀ b ∈ log.take size, r.headBucket.tsNs - (size - 1) * len ≤ b.tsNs := by
    intro b hb
    obtain ⟨i, hi, rfl⟩ := List.getElem_of_mem hb
    rw [List.length_take] at hi
    rw [List.getElem_take]
    cases log with
    | nil => exact absurd hi (by simp)
    | cons newest log =>
      have hback := tsNs_add_mul h.spaced i (by omega)
      have hnear : i * len ≤ (size - 1) * len := Nat.mul_le_mul_right len (by omega)
      rw [h.headBucket_eq]
      omega
  have hnewest := (pairwise_of_spaced hlen h.spaced).sublist (List.take_sublist size log)
  rw [← h.since_eq_filter hlen (by omega), since, since, h.newestFirst_eq,
    takeWhile_eq_filter hnewest, takeWhile_eq_filter hnewest]
  apply List.filter_congr
  intro b hb
  have hb' := hheld b hb
  rw [decide_eq_decide]
  omega

theorem map_tsNs_openLog (start : ℕ) (n : ℕ) :
    (openLog len start zero log n).map Bucket.tsNs =
      ((List.range n).map fun i => start + (i + 1) * len).reverse ++ log.map Bucket.tsNs := by
  induction n with
  | zero => rfl
  | succ n ih =>
    rw [openLog, List.map_cons, ih, List.range_succ, List.map_append, List.reverse_append]
    rfl

/-- The log grows by the buckets that the ring opens. -/
theorem Logged.map_tsNs_advance (h : Logged size len r log) (now : ℕ) :
    (advanceLog cap len zero log now).map Bucket.tsNs =
      (opened cap len r now).reverse ++ log.map Bucket.tsNs := by
  rw [opened]
  cases log with
  | nil =>
    have hc : r.count = 0 := by
      have hcount := h.count_eq
      rw [List.length_nil] at hcount
      omega
    rw [if_pos hc]
    rfl
  | cons b log =>
    rw [if_neg h.count_ne_zero, h.headBucket_eq]
    exact map_tsNs_openLog _ _

end Window

section Records

variable {M : Type*} [AddCommMonoid M]

/-- What the buckets of a log add up to whose start meets `p`. -/
def tally (w : β → M) (p : ℕ → Bool) (log : List (Bucket β)) : M :=
  ((log.filter fun b => p b.tsNs).map fun b => w b.val).sum

/-- What was recorded in buckets whose start meets `p`. -/
def recorded (p : ℕ → Bool) (recs : List (ℕ × M)) : M :=
  ((recs.filter fun rec => p rec.1).map Prod.snd).sum

/-- The log accounts for all that was recorded, under the start it was recorded at. -/
def Accounts (w : β → M) (log : List (Bucket β)) (recs : List (ℕ × M)) : Prop :=
  ∀ p : ℕ → Bool, tally w p log = recorded p recs

variable {w : β → M} {log : List (Bucket β)} {recs : List (ℕ × M)}

theorem tally_cons (p : ℕ → Bool) (b : Bucket β) (log : List (Bucket β)) :
    tally w p (b :: log) = (if p b.tsNs then w b.val else 0) + tally w p log := by
  unfold tally
  by_cases hp : p b.tsNs
  · rw [if_pos hp, List.filter_cons_of_pos (by exact hp), List.map_cons, List.sum_cons]
  · rw [if_neg hp, List.filter_cons_of_neg (by exact hp), zero_add]

theorem recorded_concat (p : ℕ → Bool) (recs : List (ℕ × M)) (start : ℕ) (m : M) :
    recorded p (recs ++ [(start, m)]) = recorded p recs + if p start then m else 0 := by
  unfold recorded
  rw [List.filter_append, List.map_append, List.sum_append]
  by_cases hp : p start
  · simp [hp]
  · simp [hp]

theorem accounts_nil : Accounts w ([] : List (Bucket β)) [] := fun _ => rfl

theorem Accounts.openLog (h : Accounts w log recs) (hzero : w zero = 0) (start : ℕ) (n : ℕ) :
    Accounts w (openLog len start zero log n) recs := by
  induction n with
  | zero => exact h
  | succ n ih =>
    intro p
    rw [BucketRing.openLog, tally_cons, ih p, hzero, ite_self, zero_add]

theorem Accounts.advance (h : Accounts w log recs) (hzero : w zero = 0) (now : ℕ) :
    Accounts w (advanceLog cap len zero log now) recs := by
  cases log with
  | nil =>
    intro p
    rw [advanceLog, tally_cons, hzero, ite_self, zero_add]
    exact h p
  | cons b log => exact h.openLog hzero _ _

/-- What is added to the head bucket is recorded at its start. -/
theorem Accounts.modifyHead {b : Bucket β} (h : Accounts w (b :: log) recs) {v : β} {m : M}
    (hv : w v = w b.val + m) :
    Accounts w ({ b with val := v } :: log) (recs ++ [(b.tsNs, m)]) := by
  intro p
  have hp := h p
  rw [tally_cons] at hp
  rw [tally_cons, recorded_concat, ← hp]
  by_cases hb : p b.tsNs
  · simp only [hb, if_true, hv]
    rw [add_right_comm]
  · simp [hb]

/-- One bucket accounts for what was recorded at its start. -/
theorem Accounts.val_eq (h : Accounts w log recs)
    (hpair : log.Pairwise fun newer older => older.tsNs < newer.tsNs) {b : Bucket β}
    (hb : b ∈ log) : w b.val = recorded (fun start => start = b.tsNs) recs := by
  rw [← h]
  clear h
  induction log with
  | nil => cases hb
  | cons newest log ih =>
    obtain ⟨hnewest, hrest⟩ := List.pairwise_cons.mp hpair
    rw [tally_cons]
    rcases List.mem_cons.mp hb with rfl | hb
    · have hnone : log.filter (fun older => decide (older.tsNs = b.tsNs)) = [] := by
        rw [List.filter_eq_nil_iff]
        intro older holder
        have hlt := hnewest older holder
        simp only [decide_eq_true_eq]
        omega
      rw [if_pos (decide_eq_true rfl), tally, hnone, List.map_nil, List.sum_nil, add_zero]
    · have hlt := hnewest b hb
      rw [if_neg (by simp only [decide_eq_true_eq]; omega), zero_add]
      exact ih hrest hb

end Records

end SmartQuant.BucketRing
