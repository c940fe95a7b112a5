import Mathlib.Algebra.Field.Defs
import Mathlib.Algebra.BigOperators.Group.List.Defs
import Mathlib.Data.List.Sort
import SmartQuant.Common.Types
import SmartQuant.Lib.BucketRing

/-!
# Cancellation rate velocity

`CancelFactor` counts Delete events per side in 10 ms buckets and scores the head
bucket against the last second. The scores of the last 30 seconds give its
dynamic threshold. `R` stands for `double`, `sqrt` for `std::sqrt`.
-/
namespace SmartQuant

structure Cancels (R : Type*) [Zero R] where
  bidCancels : R := 0
  askCancels : R := 0

structure CancelFactor (R : Type*) [Zero R] where
  ring : BucketRing (Cancels R) := .empty {}
  zBid : R := 0
  zAsk : R := 0
  /-- The samples kept for the threshold, oldest first, in three deques. -/
  recentZBid : List R := []
  recentZAsk : List R := []
  recentTs : List Nat := []

namespace CancelFactor

def kBucketNs : Nat := 10000000

def kWindowNs : Nat := 1000000000

def kQuantileNs : Nat := 30000000000

def kMaxBuckets : Nat := 200

variable {R : Type*} [Field R]

def reset (_ : CancelFactor R) : CancelFactor R := {}

def advanceTime (f : CancelFactor R) (nowNs : Nat) : CancelFactor R :=
  { f with ring := f.ring.advance kMaxBuckets kMaxBuckets kBucketNs {} nowNs }

/-- Count a Delete in the head bucket, on its side. -/
def record (f : CancelFactor R) (ev : LOBEvent) : CancelFactor R :=
  if ev.action = .delete then
    match ev.side with
    | .bid => { f with
        ring := f.ring.modifyHead fun v => { v with bidCancels := v.bidCancels + 1 } }
    | .offer => { f with
        ring := f.ring.modifyHead fun v => { v with askCancels := v.askCancels + 1 } }
    | .trade => f
  else f

/-- Append a sample and drop those older than `kQuantileNs`. -/
def sample (f : CancelFactor R) (nowNs : Nat) : CancelFactor R :=
  let cutoff := if kQuantileNs ≤ nowNs then nowNs - kQuantileNs else 0
  let ts := f.recentTs ++ [nowNs]
  let expired := (ts.takeWhile (· < cutoff)).length
  { f with
    recentZBid := (f.recentZBid ++ [f.zBid]).drop expired
    recentZAsk := (f.recentZAsk ++ [f.zAsk]).drop expired
    recentTs := ts.drop expired }

variable [LinearOrder R] (sqrt : R → R)

/-- The score of a count against the counts of a window; a spread of 0 divides by 1. -/
def zScore (counts : List R) (c : R) : R :=
  let mu := counts.sum / counts.length
  let var := (counts.map fun x => x * x).sum / counts.length - mu * mu
  let sigma := if 0 < var then sqrt var else 1
  (c - mu) / sigma

def recomputeZscores (f : CancelFactor R) : CancelFactor R :=
  if f.ring.count < 2 then f
  else
    let nowNs := f.ring.headBucket.tsNs
    let cutoff := if kWindowNs ≤ nowNs then nowNs - kWindowNs else 0
    let window := f.ring.since kMaxBuckets cutoff
    if window.length < 2 then f
    else
      let head := f.ring.headBucket.val
      let zBid := zScore sqrt (window.map (·.val.bidCancels)) head.bidCancels
      let zAsk := zScore sqrt (window.map (·.val.askCancels)) head.askCancels
      { f with zBid, zAsk }.sample nowNs

def onEvent (f : CancelFactor R) (ev : LOBEvent) : CancelFactor R :=
  ((f.advanceTime ev.timestampNs).record ev).recomputeZscores sqrt

/-- The 95th percentile of the larger of the two scores over the samples; 2 without any. -/
def dynamicThreshold (f : CancelFactor R) : R :=
  if f.recentZBid = [] then ((2 : ℕ) : R)
  else
    let combined := (List.zipWith max f.recentZBid f.recentZAsk).insertionSort (· ≤ ·)
    combined.getD (95 * (combined.length - 1) / 100) 0

@[simp] theorem recomputeZscores_ring (f : CancelFactor R) :
    (f.recomputeZscores sqrt).ring = f.ring := by
  rw [recomputeZscores]
  simp only
  split_ifs <;> rfl

omit [LinearOrder R] in
/-- A Delete goes into the head bucket and nowhere else. -/
theorem record_eq_modifyHead (f : CancelFactor R) (ev : LOBEvent) :
    ∃ g, f.record ev = { f with ring := f.ring.modifyHead g } := by
  have hsame : f = { f with ring := f.ring.modifyHead id } := by rw [BucketRing.modifyHead_id]
  rw [record]
  split
  · split
    · exact ⟨_, rfl⟩
    · exact ⟨_, rfl⟩
    · exact ⟨id, hsame⟩
  · exact ⟨id, hsame⟩

omit [LinearOrder R] in
@[simp] theorem record_headTs (f : CancelFactor R) (ev : LOBEvent) :
    (f.record ev).ring.headBucket.tsNs = f.ring.headBucket.tsNs := by
  obtain ⟨g, hg⟩ := f.record_eq_modifyHead ev
  rw [hg]
  exact BucketRing.modifyHead_tsNs _ g

omit [LinearOrder R] in
@[simp] theorem record_count (f : CancelFactor R) (ev : LOBEvent) :
    (f.record ev).ring.count = f.ring.count := by
  obtain ⟨g, hg⟩ := f.record_eq_modifyHead ev
  rw [hg]
  exact BucketRing.modifyHead_count _ g

theorem onEvent_headTs (f : CancelFactor R) (ev : LOBEvent) :
    (f.onEvent sqrt ev).ring.headBucket.tsNs =
      (f.advanceTime ev.timestampNs).ring.headBucket.tsNs := by
  simp [onEvent]

theorem onEvent_count (f : CancelFactor R) (ev : LOBEvent) :
    (f.onEvent sqrt ev).ring.count = (f.advanceTime ev.timestampNs).ring.count := by
  simp [onEvent]

end CancelFactor
end SmartQuant
