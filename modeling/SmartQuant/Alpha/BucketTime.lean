import Mathlib.Data.Rat.Sqrt
import SmartQuant.Alpha.CancelFactor
import SmartQuant.Alpha.DeltaFactor
import SmartQuant.Lib.Runs

/-!
# Bucket time against event time

Both factors place an event in their head bucket, so the head should cover the
event's time. It does exactly when the event comes within as many buckets of the
head's start as one call may open: `num_buckets_` for `DeltaFactor`, 200 for
`CancelFactor`. After a longer gap the head stays behind the clock.
-/
namespace SmartQuant.BucketTime

open BucketRing Runs

/-- Event times do not decrease and stay below 2^63. -/
structure Ordered (evs : List LOBEvent) : Prop where
  sorted : evs.Pairwise fun a b => a.timestampNs ≤ b.timestampNs
  bounded : ∀ ev ∈ evs, ev.timestampNs < 2 ^ 63

/-- A ring in use starts its head no later than any of the events to come. -/
def Precedes {β : Type*} (r : BucketRing β) (evs : List LOBEvent) : Prop :=
  r.count ≠ 0 → ∀ ev ∈ evs, r.headBucket.tsNs ≤ ev.timestampNs

section Ring

variable {σ β : Type*} {onEvent : σ → LOBEvent → σ} {ring : σ → BucketRing β}
  {size : Nat} {cap len : σ → Nat} {zero : β}

/-- Any state that keeps time in a ring is aligned after every event of a run exactly when
no gap of the run is longer than one call may open. -/
theorem along_headCovers_iff (hlen : ∀ s, 0 < len s)
    (hts : ∀ s ev, (ring (onEvent s ev)).headBucket.tsNs =
      ((ring s).advance size (cap s) (len s) zero ev.timestampNs).headBucket.tsNs)
    {s : σ} {evs : List LOBEvent} (hevs : Ordered evs) (hs : Precedes (ring s) evs) :
    Along onEvent (fun s ev => HeadCovers (len s) (ring (onEvent s ev)) ev.timestampNs) s evs ↔
      Along onEvent (fun s ev => GapWithin (cap s) (len s) (ring s) ev.timestampNs) s evs := by
  induction evs generalizing s with
  | nil => exact Iff.rfl
  | cons ev evs ih =>
    obtain ⟨hfirst, hrest⟩ := List.pairwise_cons.mp hevs.sorted
    have hnow : ev.timestampNs < Word64.size := by
      have := hevs.bounded ev List.mem_cons_self
      rw [Word64.size]
      omega
    have hle : (ring s).count ≠ 0 → (ring s).headBucket.tsNs ≤ ev.timestampNs :=
      fun hc => hs hc ev List.mem_cons_self
    have hstep : HeadCovers (len s) (ring (onEvent s ev)) ev.timestampNs ↔
        GapWithin (cap s) (len s) (ring s) ev.timestampNs := by
      rw [← headCovers_advance_iff (hlen s) hle hnow]
      unfold HeadCovers
      rw [hts]
    refine and_congr hstep (ih ⟨hrest, fun e he => ?_⟩ fun _ e he => ?_)
    · exact hevs.bounded e (List.mem_cons_of_mem _ he)
    · rw [hts]
      exact (advance_tsNs_le hle hnow).trans (hfirst e he)

end Ring

variable {R : Type*} [Field R]

def DeltaAligned (f : DeltaFactor R) (ev : LOBEvent) : Prop :=
  HeadCovers f.bucketNs (f.onEvent ev).ring ev.timestampNs

/-- The event comes within `num_buckets_` buckets of the head's start. -/
def DeltaGapWithin (f : DeltaFactor R) (ev : LOBEvent) : Prop :=
  GapWithin f.numBuckets f.bucketNs f.ring ev.timestampNs

/-- The event comes within 200 buckets of the head's start. -/
def CancelGapWithin (f : CancelFactor R) (ev : LOBEvent) : Prop :=
  GapWithin CancelFactor.kMaxBuckets CancelFactor.kBucketNs f.ring ev.timestampNs

instance (f : DeltaFactor R) (ev : LOBEvent) : Decidable (DeltaGapWithin f ev) :=
  inferInstanceAs (Decidable (GapWithin ..))

instance (f : CancelFactor R) (ev : LOBEvent) : Decidable (CancelGapWithin f ev) :=
  inferInstanceAs (Decidable (GapWithin ..))

theorem delta_along_iff {f : DeltaFactor R} (hf : f.ring.count = 0) {evs : List LOBEvent}
    (hevs : Ordered evs) :
    Along DeltaFactor.onEvent DeltaAligned f evs ↔
      Along DeltaFactor.onEvent DeltaGapWithin f evs :=
  along_headCovers_iff DeltaFactor.bucketNs_pos DeltaFactor.onEvent_headTs hevs
    fun hc => absurd hf hc

variable [LinearOrder R]

def CancelAligned (sqrt : R → R) (f : CancelFactor R) (ev : LOBEvent) : Prop :=
  HeadCovers CancelFactor.kBucketNs (f.onEvent sqrt ev).ring ev.timestampNs

theorem cancel_along_iff (sqrt : R → R) {evs : List LOBEvent} (hevs : Ordered evs) :
    Along (CancelFactor.onEvent sqrt) (CancelAligned sqrt) {} evs ↔
      Along (CancelFactor.onEvent sqrt) CancelGapWithin {} evs :=
  along_headCovers_iff (fun _ => by decide) (CancelFactor.onEvent_headTs sqrt) hevs
    fun hc => absurd rfl hc

/-- Over any events in time order, each factor's head covers every event as it takes it
exactly when no gap is longer than the factor's cap. -/
theorem aligned_iff_gapWithin (sqrt : R → R) (windowNs bucketNs : Nat) {f : DeltaFactor R}
    (hf : DeltaFactor.create windowNs bucketNs = .ok f) {evs : List LOBEvent}
    (hevs : Ordered evs) :
    (Along DeltaFactor.onEvent DeltaAligned f evs ↔
      Along DeltaFactor.onEvent DeltaGapWithin f evs) ∧
    (Along (CancelFactor.onEvent sqrt) (CancelAligned sqrt) {} evs ↔
      Along (CancelFactor.onEvent sqrt) CancelGapWithin {} evs) :=
  ⟨delta_along_iff (DeltaFactor.create_bucketNs hf).2 hevs, cancel_along_iff sqrt hevs⟩

def quietGap : List LOBEvent :=
  [{ timestampNs := 0, action := .new }, { timestampNs := 3000000000, action := .new }]

theorem ordered_quietGap : Ordered quietGap :=
  ⟨by decide, by decide⟩

theorem aligned_iff_gapWithin_quietGap :
    (Along DeltaFactor.onEvent DeltaAligned (.initial : DeltaFactor ℚ) quietGap ↔
      Along DeltaFactor.onEvent DeltaGapWithin (.initial : DeltaFactor ℚ) quietGap) ∧
    (Along (CancelFactor.onEvent Rat.sqrt) (CancelAligned Rat.sqrt) {} quietGap ↔
      Along (CancelFactor.onEvent Rat.sqrt) CancelGapWithin {} quietGap) :=
  aligned_iff_gapWithin Rat.sqrt DeltaFactor.kDefaultWindowNs DeltaFactor.kDefaultBucketNs
    DeltaFactor.create_default ordered_quietGap

/-- Three quiet seconds leave both heads behind the clock: at 110 ms and at 2 s. -/
theorem not_aligned_quietGap :
    ¬ Along DeltaFactor.onEvent DeltaAligned (.initial : DeltaFactor ℚ) quietGap ∧
    ¬ Along (CancelFactor.onEvent Rat.sqrt) (CancelAligned Rat.sqrt) {} quietGap := by
  rw [delta_along_iff rfl ordered_quietGap, cancel_along_iff Rat.sqrt ordered_quietGap]
  decide +kernel

end SmartQuant.BucketTime
