import Mathlib.Algebra.Order.Floor.Semifield
import Mathlib.Data.Rat.Floor
import Mathlib.Data.Rat.Sqrt
import SmartQuant.Alpha.CancelFactor
import SmartQuant.Lib.BucketWindow
import SmartQuant.Lib.Runs
import SmartQuant.Lib.SlidingQuantile

/-!
# The samples behind the dynamic threshold

Once two buckets exist every event records a sample, since a window of one second
from the head has room for both. The head never goes back, so the samples come in
the order of their times and the loop over the front of the deques finds all that
are older than 30 seconds. What is left is ranked.
-/
namespace SmartQuant.ThresholdWindow

open BucketRing CancelFactor Runs SlidingQuantile

/-- The two scores of an event, under the start of its head bucket. -/
structure Sample (R : Type*) where
  tsNs : ℕ
  zBid : R
  zAsk : R

variable {R : Type*} [Field R] [LinearOrder R] (sqrt : R → R)

def Sample.score (s : Sample R) : R := max s.zBid s.zAsk

/-- The sample of an event: there is one as soon as there are two buckets. -/
def sampledAt (f : CancelFactor R) (ev : LOBEvent) : List (Sample R) :=
  let f' := f.onEvent sqrt ev
  if 2 ≤ f'.ring.count then [⟨f'.ring.headBucket.tsNs, f'.zBid, f'.zAsk⟩] else []

/-- All samples of a run, in order. -/
def samples (evs : List LOBEvent) : List (Sample R) :=
  outputs (CancelFactor.onEvent sqrt) (sampledAt sqrt) {} evs

/-- The three deques hold these samples. -/
structure Holds (f : CancelFactor R) (kept : List (Sample R)) : Prop where
  ts : f.recentTs = kept.map Sample.tsNs
  zBid : f.recentZBid = kept.map Sample.zBid
  zAsk : f.recentZAsk = kept.map Sample.zAsk

/-- The deques hold the samples of the last 30 seconds, and the threshold is their 95th
percentile. -/
structure ThresholdExact (f : CancelFactor R) (hist : List (Sample R)) : Prop where
  lengthBid : f.recentZBid.length = f.recentTs.length
  lengthAsk : f.recentZAsk.length = f.recentTs.length
  inOrder : f.recentTs.Pairwise (· ≤ ·)
  holds : Holds f (recent Sample.tsNs kQuantileNs hist)
  threshold : f.recentTs ≠ [] →
    IsQuantile ⌊(95 / 100 : ℚ) * ((f.recentTs.length : ℚ) - 1)⌋₊
      ((recent Sample.tsNs kQuantileNs hist).map Sample.score) f.dynamicThreshold

/-- What a run has left in the factor. -/
structure Sampled (f : CancelFactor R) (hist : List (Sample R)) : Prop where
  ring : Spaced kMaxBuckets kBucketNs f.ring
  holds : Holds f (recent Sample.tsNs kQuantileNs hist)
  inOrder : InOrder Sample.tsNs hist
  past : ∀ s ∈ hist, 0 < f.ring.count ∧ s.tsNs ≤ f.ring.headBucket.tsNs

variable {sqrt}

section Event

variable {f : CancelFactor R} {hist : List (Sample R)}

omit [LinearOrder R] in
theorem holds_sample {kept : List (Sample R)} (h : Holds f kept) (nowNs : ℕ) :
    Holds (f.sample nowNs) ((kept ++ [Sample.mk nowNs f.zBid f.zAsk]).dropWhile
      fun s => s.tsNs < nowNs - kQuantileNs) := by
  have hcut : (if kQuantileNs ≤ nowNs then nowNs - kQuantileNs else 0) = nowNs - kQuantileNs := by
    split <;> omega
  generalize hkept' : kept ++ [Sample.mk nowNs f.zBid f.zAsk] = kept'
  have hts : f.recentTs ++ [nowNs] = kept'.map Sample.tsNs := by
    rw [h.ts, ← hkept', List.map_append]
    rfl
  have hbid : f.recentZBid ++ [f.zBid] = kept'.map Sample.zBid := by
    rw [h.zBid, ← hkept', List.map_append]
    rfl
  have hask : f.recentZAsk ++ [f.zAsk] = kept'.map Sample.zAsk := by
    rw [h.zAsk, ← hkept', List.map_append]
    rfl
  have hexpired : ∀ cutoff : ℕ, ((kept'.map Sample.tsNs).takeWhile (· < cutoff)).length =
      (kept'.takeWhile fun s => s.tsNs < cutoff).length := by
    intro cutoff
    rw [List.takeWhile_map, List.length_map]
    rfl
  rw [sample, hcut, hts, hbid, hask, hexpired]
  exact ⟨drop_length_takeWhile _ _ _, drop_length_takeWhile _ _ _, drop_length_takeWhile _ _ _⟩

omit [LinearOrder R] in
theorem sampled_advance (h : Sampled f hist) {now : ℕ} (hnow : now < 2 ^ 63) :
    Sampled (f.advanceTime now) hist where
  ring := spaced_advance h.ring (by decide) hnow
  holds := ⟨h.holds.ts, h.holds.zBid, h.holds.zAsk⟩
  inOrder := h.inOrder
  past s hs := by
    obtain ⟨hc, hle⟩ := h.past s hs
    have hmono := @tsNs_le_advance _ _ _ kMaxBuckets {} _ _ h.ring hc (by decide) (by decide) hnow
    exact ⟨count_advance_pos .., hle.trans hmono⟩

omit [LinearOrder R] in
theorem sampled_record (h : Sampled f hist) (ev : LOBEvent) : Sampled (f.record ev) hist := by
  obtain ⟨g, hg⟩ := f.record_eq_modifyHead ev
  rw [hg]
  refine ⟨spaced_modifyHead h.ring g, ⟨h.holds.ts, h.holds.zBid, h.holds.zAsk⟩, h.inOrder, ?_⟩
  intro s hs
  obtain ⟨hc, hle⟩ := h.past s hs
  rw [modifyHead_tsNs]
  exact ⟨hc, hle⟩

variable (sqrt) in
/-- With two buckets the scan finds both, so `recompute_zscores` goes on to its sample. -/
theorem recompute_eq_sample (h : Spaced kMaxBuckets kBucketNs f.ring) (hc : 2 ≤ f.ring.count) :
    ∃ zBid zAsk, f.recomputeZscores sqrt =
      CancelFactor.sample { f with zBid := zBid, zAsk := zAsk } f.ring.headBucket.tsNs := by
  have hspaced := h.spaced 1 hc
  have hlast : kBucketNs ≤ kWindowNs := by decide
  obtain ⟨older, hwindow⟩ := since_eq_cons_cons h.head_lt hc
    (show (if kWindowNs ≤ f.ring.headBucket.tsNs then f.ring.headBucket.tsNs - kWindowNs else 0) ≤
      f.ring.headBucket.tsNs by split <;> omega) (by split <;> omega)
  rw [recomputeZscores, if_neg (by omega)]
  simp only
  rw [hwindow, if_neg (by simp)]
  exact ⟨_, _, rfl⟩

/-- One sample more, and the deques hold the last 30 seconds again. -/
theorem sampled_sample (h : Sampled f hist) (hc : 2 ≤ f.ring.count) {g : CancelFactor R}
    (hg : g = f.recomputeZscores sqrt) :
    Sampled g (hist ++ [⟨g.ring.headBucket.tsNs, g.zBid, g.zAsk⟩]) := by
  obtain ⟨zBid, zAsk, hsample⟩ := recompute_eq_sample sqrt h.ring hc
  have hring : g.ring = f.ring := by rw [hg, recomputeZscores_ring]
  have hbid : g.zBid = zBid := by rw [hg, hsample]; rfl
  have hask : g.zAsk = zAsk := by rw [hg, hsample]; rfl
  have hheld : Holds { f with zBid := zBid, zAsk := zAsk }
      (recent Sample.tsNs kQuantileNs hist) := ⟨h.holds.ts, h.holds.zBid, h.holds.zAsk⟩
  have hinOrder : InOrder Sample.tsNs (hist ++ [⟨f.ring.headBucket.tsNs, zBid, zAsk⟩]) :=
    inOrder_concat.mpr ⟨h.inOrder, fun s hs => (h.past s hs).2⟩
  rw [hring, hbid, hask]
  refine ⟨?_, ?_, hinOrder, ?_⟩
  · rw [hring]
    exact h.ring
  · rw [← recent_concat hinOrder, hg, hsample]
    exact holds_sample hheld f.ring.headBucket.tsNs
  · intro s hs
    rw [hring]
    refine ⟨by omega, ?_⟩
    rcases List.mem_append.mp hs with hs | hs
    · exact (h.past s hs).2
    · rw [List.mem_singleton.mp hs]

theorem sampled_onEvent (h : Sampled f hist) {ev : LOBEvent} (hev : ev.timestampNs < 2 ^ 63) :
    Sampled (f.onEvent sqrt ev) (hist ++ sampledAt sqrt f ev) := by
  have hrec := sampled_record (sampled_advance h hev) ev
  rw [sampledAt]
  by_cases hc : 2 ≤ (f.onEvent sqrt ev).ring.count
  · rw [if_pos hc]
    rw [CancelFactor.onEvent, recomputeZscores_ring] at hc
    exact sampled_sample hrec hc rfl
  · rw [if_neg hc, List.append_nil]
    rw [CancelFactor.onEvent, recomputeZscores_ring] at hc
    rw [CancelFactor.onEvent, recomputeZscores, if_pos (by omega)]
    exact hrec

end Event

theorem sampled_run {f : CancelFactor R} {hist : List (Sample R)} (h : Sampled f hist)
    {evs : List LOBEvent} (hevs : ∀ ev ∈ evs, ev.timestampNs < 2 ^ 63) :
    Sampled (run (CancelFactor.onEvent sqrt) f evs)
      (hist ++ outputs (CancelFactor.onEvent sqrt) (sampledAt sqrt) f evs) := by
  induction evs generalizing f hist with
  | nil =>
    rw [outputs_nil, List.append_nil]
    exact h
  | cons ev evs ih =>
    obtain ⟨hev, hevs⟩ := List.forall_mem_cons.mp hevs
    rw [run_cons, outputs_cons, ← List.append_assoc]
    exact ih (sampled_onEvent h hev) hevs

omit [LinearOrder R] in
theorem sampled_initial : Sampled ({} : CancelFactor R) [] :=
  ⟨spaced_empty (by decide), ⟨rfl, rfl, rfl⟩, List.Pairwise.nil, fun _ hs => by cases hs⟩

/-- The index is 0.95 times the last place, rounded down. -/
theorem floor_percentile (n : ℕ) : ⌊(95 / 100 : ℚ) * n⌋₊ = 95 * n / 100 := by
  rw [← Nat.floor_div_eq_div (K := ℚ)]
  congr 1
  push_cast
  ring

theorem isQuantile_dynamicThreshold {f : CancelFactor R} {kept : List (Sample R)}
    (h : Holds f kept) (hne : kept ≠ []) :
    IsQuantile (95 * (kept.length - 1) / 100) (kept.map Sample.score) f.dynamicThreshold := by
  have hpos := List.length_pos_iff.mpr hne
  have hcombined : List.zipWith max f.recentZBid f.recentZAsk = kept.map Sample.score := by
    rw [h.zBid, h.zAsk, List.zipWith_map, List.zipWith_self]
    rfl
  have hlen : ((kept.map Sample.score).insertionSort (· ≤ ·)).length = kept.length := by
    rw [List.length_insertionSort, List.length_map]
  have hbid : f.recentZBid ≠ [] := by
    rw [h.zBid]
    exact fun hnil => hne (List.map_eq_nil_iff.mp hnil)
  rw [dynamicThreshold, if_neg hbid]
  simp only
  rw [hcombined, hlen]
  apply isQuantile_insertionSort
  rw [List.length_map]
  omega

theorem thresholdExact_of_sampled {f : CancelFactor R} {hist : List (Sample R)}
    (h : Sampled f hist) : ThresholdExact f hist := by
  have hts := h.holds.ts
  refine ⟨?_, ?_, ?_, h.holds, fun hne => ?_⟩
  · rw [hts, h.holds.zBid, List.length_map, List.length_map]
  · rw [hts, h.holds.zAsk, List.length_map, List.length_map]
  · rw [hts, List.pairwise_map]
    exact h.inOrder.sublist List.filter_sublist
  · have hkept : recent Sample.tsNs kQuantileNs hist ≠ [] := by
      intro hnil
      rw [hnil] at hts
      exact hne hts
    have hpos := List.length_pos_iff.mpr hkept
    have hcast : ((f.recentTs.length : ℚ) - 1) = (f.recentTs.length - 1 : ℕ) := by
      rw [hts, List.length_map, Nat.cast_pred hpos]
    rw [hcast, floor_percentile, hts, List.length_map]
    exact isQuantile_dynamicThreshold h.holds hkept

/-- After any events before 2^63 the deques hold exactly the samples of the last 30 seconds,
and the dynamic threshold is their 95th percentile. -/
theorem threshold_exact (sqrt : R → R) (evs : List LOBEvent)
    (hevs : ∀ ev ∈ evs, ev.timestampNs < 2 ^ 63) :
    ThresholdExact (run (CancelFactor.onEvent sqrt) {} evs) (samples sqrt evs) :=
  thresholdExact_of_sampled (sampled_run sampled_initial hevs)

/-- A bid withdrawn after 20 ms, and an offer after half a minute. -/
def sparse : List LOBEvent :=
  [{ timestampNs := 0, action := .delete }, { timestampNs := 20000000, action := .delete },
    { timestampNs := 32000000000, action := .delete, side := .offer }]

theorem threshold_exact_sparse :
    ThresholdExact (run (CancelFactor.onEvent Rat.sqrt) {} sparse) (samples Rat.sqrt sparse) :=
  threshold_exact Rat.sqrt sparse (by decide)

end SmartQuant.ThresholdWindow
