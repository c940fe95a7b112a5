import Mathlib.Algebra.Order.BigOperators.Group.List
import Mathlib.Algebra.Order.Field.Basic
import SmartQuant.Alpha.CancelAttribution
import SmartQuant.Lib.BucketWindow

/-!
# A score needs a cancel

A score compares the head bucket with the mean of the window, and no bucket counts fewer
cancels than none. In a bucket without a cancel on a side the score of that side is not
positive, whatever was cancelled before and wherever the clock stands.
-/
namespace SmartQuant.CancelBurst

open BucketRing CancelFactor CancelAttribution

variable {R : Type*} [Field R] [LinearOrder R] {sqrt : R → R} {f : CancelFactor R}

/-- The score of one side. -/
def scoreOn (f : CancelFactor R) : MDEntryType → R
  | .bid => f.zBid
  | .offer => f.zAsk
  | .trade => 0

/-- No cancel of the side has been counted in the bucket that the event falls in, and the event
is none. -/
def NoCancel (side : MDEntryType) (f : CancelFactor R) (ev : LOBEvent) : Prop :=
  cancelsOn (f.advanceTime ev.timestampNs).ring.headBucket.val side = 0 ∧
    ¬ (ev.action = .delete ∧ ev.side = side)

instance (side : MDEntryType) (f : CancelFactor R) (ev : LOBEvent) :
    Decidable (NoCancel side f ev) := inferInstanceAs (Decidable (_ ∧ ¬ _))

def NonnegCounts (v : Cancels R) : Prop := ∀ side, 0 ≤ cancelsOn v side

/-- The counts are not negative, the buckets follow each other, and the scores are not positive
before there are two of them. -/
structure Counting (f : CancelFactor R) : Prop where
  counts : ∀ i, NonnegCounts (f.ring.buckets i).val
  chained : Chained kMaxBuckets kBucketNs f.ring
  young : f.ring.count < 2 → ∀ side, scoreOn f side ≤ 0

theorem nonnegCounts_zero : NonnegCounts ({} : Cancels R) := by
  intro side
  cases side <;> exact le_rfl

theorem counting_initial : Counting ({} : CancelFactor R) where
  counts _ := nonnegCounts_zero
  chained := chained_empty (by decide)
  young _ side := by cases side <;> exact le_rfl

/-- What a recomputation does to the scores: nothing while there is one bucket, otherwise it
takes them from the window. -/
theorem scoreOn_recompute (h : Chained kMaxBuckets kBucketNs f.ring) (side : MDEntryType)
    (hside : side ≠ .trade) : scoreOn (f.recomputeZscores sqrt) side =
      if f.ring.count < 2 then scoreOn f side
      else zScore sqrt ((f.ring.since kMaxBuckets
          (if kWindowNs ≤ f.ring.headBucket.tsNs then f.ring.headBucket.tsNs - kWindowNs
            else 0)).map fun b => cancelsOn b.val side)
        (cancelsOn f.ring.headBucket.val side) := by
  rw [recomputeZscores]
  split
  · rfl
  · have hwindow := two_le_length_since h (by omega) kWindowNs (by decide)
    simp only
    rw [if_neg (by omega)]
    cases side with
    | bid => rfl
    | offer => rfl
    | trade => exact absurd rfl hside

section Ordered

variable [IsStrictOrderedRing R]

theorem zScore_nonpos (hsqrt : ∀ x, 0 ≤ sqrt x) {counts : List R} (h : ∀ c ∈ counts, 0 ≤ c) :
    zScore sqrt counts 0 ≤ 0 := by
  have hmean : 0 ≤ counts.sum / counts.length :=
    div_nonneg (List.sum_nonneg h) (Nat.cast_nonneg _)
  rw [zScore]
  refine div_nonpos_of_nonpos_of_nonneg (by rwa [zero_sub, neg_nonpos]) ?_
  split
  · exact hsqrt _
  · exact zero_le_one

theorem nonnegCounts_record (h : ∀ i, NonnegCounts (f.ring.buckets i).val) (ev : LOBEvent)
    (i : ℕ) : NonnegCounts ((f.record ev).ring.buckets i).val := by
  obtain ⟨g, hring, hg⟩ := record_ring f ev
  rw [hring]
  refine val_modifyHead h (fun side => ?_) i
  by_cases hside : side = .trade
  · rw [hside, cancelsOn]
  · rw [hg side hside]
    refine add_nonneg (h _ side) ?_
    split
    · exact zero_le_one
    · exact le_rfl

theorem counting_onEvent (h : Counting f) (ev : LOBEvent) : Counting (f.onEvent sqrt ev) := by
  obtain ⟨g, hg⟩ := (f.advanceTime ev.timestampNs).record_eq_modifyHead ev
  have hchained : Chained kMaxBuckets kBucketNs
      ((f.advanceTime ev.timestampNs).record ev).ring := by
    rw [hg]
    exact chained_modifyHead (chained_advance h.chained (by decide) ev.timestampNs) g
  refine ⟨fun i => ?_, ?_, fun hcount side => ?_⟩
  · rw [onEvent, recomputeZscores_ring]
    exact nonnegCounts_record (val_advance nonnegCounts_zero h.counts ev.timestampNs) ev i
  · rw [onEvent, recomputeZscores_ring]
    exact hchained
  · rw [onEvent, recomputeZscores_ring] at hcount
    have hgrown : f.ring.count ≤ (f.advanceTime ev.timestampNs).ring.count :=
      count_le_advance ..
    rw [record_count] at hcount
    by_cases hside : side = .trade
    · rw [hside, scoreOn]
    · rw [onEvent, scoreOn_recompute hchained side hside, if_pos (by simpa using hcount), hg]
      have hyoung := h.young (by omega) side
      cases side <;> exact hyoung

/-- In a bucket without a cancel of the side, the side's score is not positive. -/
theorem scoreOn_nonpos (hsqrt : ∀ x, 0 ≤ sqrt x) (h : Counting f) {ev : LOBEvent}
    {side : MDEntryType} (hside : side ≠ .trade) (hnone : NoCancel side f ev) :
    scoreOn (f.onEvent sqrt ev) side ≤ 0 := by
  obtain ⟨g, hring, hg⟩ := record_ring (f.advanceTime ev.timestampNs) ev
  obtain ⟨hempty, hother⟩ := hnone
  have hafter : Counting (f.onEvent sqrt ev) := counting_onEvent h ev
  by_cases hcount : (f.onEvent sqrt ev).ring.count < 2
  · exact hafter.young hcount side
  · have hchained := hafter.chained
    have hcounts := hafter.counts
    rw [onEvent, recomputeZscores_ring] at hchained hcounts hcount
    have hhead : cancelsOn ((f.advanceTime ev.timestampNs).record ev).ring.headBucket.val side =
        0 := by
      rw [hring, modifyHead_val, hg side hside, hempty, if_neg hother, add_zero]
    rw [onEvent, scoreOn_recompute hchained side hside, if_neg hcount, hhead]
    refine zScore_nonpos hsqrt fun c hc => ?_
    obtain ⟨b, hb, rfl⟩ := List.mem_map.mp hc
    obtain ⟨i, rfl⟩ := exists_bucket_of_since hb
    exact hcounts i side

end Ordered

end SmartQuant.CancelBurst
