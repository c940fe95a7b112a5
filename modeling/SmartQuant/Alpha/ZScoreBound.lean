import Mathlib.Analysis.Real.Sqrt
import SmartQuant.Alpha.SignalEngine
import SmartQuant.Lib.BucketWindow
import SmartQuant.Lib.Runs
import SmartQuant.Lib.Samuelson

/-!
# How far a z-score can go

The window of one second holds at most 101 buckets of 10 ms, the head among them, so
by Samuelson's inequality the head's count is within `√100` deviations of the mean. An
engine that asks for a score above 10 never fires.
-/
namespace SmartQuant.ZScoreBound

open BucketRing Runs Samuelson CancelFactor
open SignalEngine (engineStep)

def ScoresWithin (f : CancelFactor ℝ) : Prop := |f.zBid| ≤ 10 ∧ |f.zAsk| ≤ 10

/-- The factor's buckets are 10 ms apart and its scores bounded. -/
structure Scored (f : CancelFactor ℝ) : Prop where
  ring : Spaced kMaxBuckets kBucketNs f.ring
  scores : ScoresWithin f

/-- `on_event` does not fire. -/
def Silent (s : SignalEngine ℝ) (x : LOBEvent × OrderBook) : Prop :=
  (s.onEvent Real.sqrt x.1 x.2).2 = false

theorem zScore_le (c : ℝ) {older : List ℝ} {b : ℝ} (hb : 0 ≤ b) (h : older.length ≤ b ^ 2) :
    |zScore Real.sqrt (c :: older) c| ≤ b := by
  have hsq := sq_sub_mean_le c older
  change |(c - mean (c :: older)) /
    (if 0 < variance (c :: older) then √(variance (c :: older)) else 1)| ≤ b
  by_cases hvar : 0 < variance (c :: older)
  · rw [if_pos hvar, abs_div, abs_of_pos (Real.sqrt_pos.mpr hvar),
      div_le_iff₀ (Real.sqrt_pos.mpr hvar)]
    have hroot : √(b ^ 2 * variance (c :: older)) = b * √(variance (c :: older)) := by
      rw [Real.sqrt_mul (sq_nonneg b), Real.sqrt_sq hb]
    rw [← hroot]
    apply Real.abs_le_sqrt
    have hle := mul_le_mul_of_nonneg_right h hvar.le
    linarith [sq (c - mean (c :: older))]
  · rw [if_neg hvar, div_one]
    have hzero : c - mean (c :: older) = 0 := by
      rw [← mul_self_eq_zero]
      have hle := mul_nonpos_of_nonneg_of_nonpos (Nat.cast_nonneg older.length) (not_lt.mp hvar)
      exact le_antisymm (hsq.trans hle) (mul_self_nonneg _)
    rw [hzero, abs_zero]
    exact hb

/-- The scores stay within the root of the room a window has behind the head. -/
theorem abs_recompute_le {f : CancelFactor ℝ} {b : ℝ} (hb : 0 ≤ b)
    (h : |f.zBid| ≤ b ∧ |f.zAsk| ≤ b)
    (hroom : ∀ cutoff, 0 < f.ring.count → cutoff ≤ f.ring.headBucket.tsNs →
      f.ring.headBucket.tsNs ≤ cutoff + kWindowNs → ∃ older : List (Bucket (Cancels ℝ)),
        older.length ≤ b ^ 2 ∧ f.ring.since kMaxBuckets cutoff = f.ring.headBucket :: older) :
    |(f.recomputeZscores Real.sqrt).zBid| ≤ b ∧ |(f.recomputeZscores Real.sqrt).zAsk| ≤ b := by
  rw [recomputeZscores]
  split
  · exact h
  · rename_i hc
    obtain ⟨older, hlen, hwindow⟩ := hroom
      (if kWindowNs ≤ f.ring.headBucket.tsNs then f.ring.headBucket.tsNs - kWindowNs else 0)
      (by omega) (by split <;> omega) (by split <;> omega)
    simp only [hwindow]
    split
    · exact h
    · exact ⟨zScore_le _ hb (by simpa using hlen), zScore_le _ hb (by simpa using hlen)⟩

/-- An engine whose cancel threshold the scores do not reach does not fire. -/
theorem decision_of_le {s : SignalEngine ℝ} {b : ℝ}
    (h : |s.cancel.zBid| ≤ b ∧ |s.cancel.zAsk| ≤ b) (hfloor : b ≤ s.minCancelZ) :
    s.decision = .none := by
  have hmax : b ≤ max s.minCancelZ s.cancel.dynamicThreshold := le_max_of_le_left hfloor
  have hbid := (abs_le.mp h.1).2.trans hmax
  have hask := (abs_le.mp h.2).2.trans hmax
  unfold SignalEngine.decision
  simp only
  rw [if_neg fun hc => hc.2.not_ge hask, if_neg fun hc => hc.2.not_ge hbid]

theorem scored_initial : Scored {} := by
  refine ⟨spaced_empty (by decide), ?_, ?_⟩ <;> norm_num

theorem scored_record {f : CancelFactor ℝ} (h : Scored f) (ev : LOBEvent) :
    Scored (f.record ev) := by
  obtain ⟨g, hg⟩ := f.record_eq_modifyHead ev
  rw [hg]
  exact ⟨spaced_modifyHead h.ring g, h.scores⟩

/-- The window of a second is the head and at most 100 older buckets. -/
theorem window_eq {r : BucketRing (Cancels ℝ)} (h : Spaced kMaxBuckets kBucketNs r)
    (hc : 0 < r.count) {cutoff : ℕ} (hcut : cutoff ≤ r.headBucket.tsNs)
    (hback : r.headBucket.tsNs ≤ cutoff + kWindowNs) :
    ∃ older, older.length ≤ 100 ∧ r.since kMaxBuckets cutoff = r.headBucket :: older := by
  obtain ⟨older, hsince⟩ := since_eq_cons h.head_lt hc hcut
  have hlen := length_since_le h (by decide) hback
  rw [hsince, List.length_cons] at hlen
  have hroom : kWindowNs / kBucketNs = 100 := by decide
  exact ⟨older, by omega, hsince⟩

theorem scoresWithin_recompute {f : CancelFactor ℝ} (h : Scored f) :
    ScoresWithin (f.recomputeZscores Real.sqrt) := by
  refine abs_recompute_le (by norm_num) h.scores fun cutoff hc hcut hback => ?_
  obtain ⟨older, hlen, hwindow⟩ := window_eq h.ring hc hcut hback
  have hlen' : (older.length : ℝ) ≤ 100 := by exact_mod_cast hlen
  exact ⟨older, by linarith, hwindow⟩

theorem scored_onEvent {f : CancelFactor ℝ} (h : Scored f) {ev : LOBEvent}
    (hev : ev.timestampNs < 2 ^ 63) : Scored (f.onEvent Real.sqrt ev) := by
  have hadv : Scored (f.advanceTime ev.timestampNs) :=
    ⟨spaced_advance h.ring (by decide) hev, h.scores⟩
  have hrec := scored_record hadv ev
  refine ⟨?_, scoresWithin_recompute hrec⟩
  rw [onEvent, recomputeZscores_ring]
  exact hrec.ring

/-- An engine with a floor of 10 under its cancel threshold. -/
structure Muted (s : SignalEngine ℝ) : Prop where
  scored : Scored s.cancel
  floor : 10 ≤ s.minCancelZ

theorem muted_feed {s : SignalEngine ℝ} (h : Muted s) {ev : LOBEvent}
    (hev : ev.timestampNs < 2 ^ 63) (bid ask : Int) :
    Muted ((s.trackMidprice bid ask).feed Real.sqrt ev) := by
  rw [SignalEngine.trackMidprice]
  split
  · exact ⟨scored_onEvent h.scored hev, h.floor⟩
  · exact ⟨scored_onEvent h.scored hev, h.floor⟩

theorem decision_of_muted {s : SignalEngine ℝ} (h : Muted s) : s.decision = .none :=
  decision_of_le h.scored.scores h.floor

theorem muted_step {s : SignalEngine ℝ} (h : Muted s) {x : LOBEvent × OrderBook}
    (hx : x.1.timestampNs < 2 ^ 63) : Silent s x ∧ Muted (engineStep Real.sqrt s x) := by
  have hfed := muted_feed h hx x.2.bestBid x.2.bestAsk
  have hres : s.onEvent Real.sqrt x.1 x.2 =
      ((s.trackMidprice x.2.bestBid x.2.bestAsk).feed Real.sqrt x.1, false) :=
    if_pos (decision_of_muted hfed)
  rw [Silent, engineStep, hres]
  exact ⟨rfl, hfed⟩

theorem always_scoresWithin {f : CancelFactor ℝ} (h : Scored f) {evs : List LOBEvent}
    (hevs : ∀ ev ∈ evs, ev.timestampNs < 2 ^ 63) :
    Always (CancelFactor.onEvent Real.sqrt) ScoresWithin f evs := by
  induction evs generalizing f with
  | nil => exact h.scores
  | cons ev evs ih =>
    obtain ⟨hev, hevs⟩ := List.forall_mem_cons.mp hevs
    exact ⟨h.scores, ih (scored_onEvent h hev) hevs⟩

theorem along_silent {s : SignalEngine ℝ} (h : Muted s) {xs : List (LOBEvent × OrderBook)}
    (hxs : ∀ x ∈ xs, x.1.timestampNs < 2 ^ 63) : Along (engineStep Real.sqrt) Silent s xs := by
  induction xs generalizing s with
  | nil => trivial
  | cons x xs ih =>
    obtain ⟨hx, hxs⟩ := List.forall_mem_cons.mp hxs
    obtain ⟨hsilent, hnext⟩ := muted_step h hx
    exact ⟨hsilent, ih hnext hxs⟩

/-- Over any events before 2^63 both scores stay within 10, and an engine that asks for 10 or
more never fires, whatever books it is shown. -/
theorem scores_within_ten (xs : List (LOBEvent × OrderBook))
    (hxs : ∀ x ∈ xs, x.1.timestampNs < 2 ^ 63) :
    Always (CancelFactor.onEvent Real.sqrt) ScoresWithin {} (xs.map Prod.fst) ∧
      ∀ threshDelta minCancelZ : ℝ, 10 ≤ minCancelZ →
        Along (engineStep Real.sqrt) Silent { threshDelta, minCancelZ } xs := by
  refine ⟨always_scoresWithin scored_initial ?_, fun _ _ hmin => along_silent ?_ hxs⟩
  · intro ev hev
    obtain ⟨x, hx, rfl⟩ := List.mem_map.mp hev
    exact hxs x hx
  · exact ⟨scored_initial, hmin⟩

def burst : List (LOBEvent × OrderBook) :=
  [({ timestampNs := 0, action := .delete }, {}),
    ({ timestampNs := 40000000, action := .delete, side := .offer }, {})]

theorem scores_within_ten_burst :
    Always (CancelFactor.onEvent Real.sqrt) ScoresWithin {} (burst.map Prod.fst) ∧
      ∀ threshDelta minCancelZ : ℝ, 10 ≤ minCancelZ →
        Along (engineStep Real.sqrt) Silent { threshDelta, minCancelZ } burst :=
  scores_within_ten burst (by decide)

end SmartQuant.ZScoreBound
