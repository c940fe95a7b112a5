import Mathlib.Algebra.Field.Defs
import Mathlib.Algebra.BigOperators.Group.List.Defs
import SmartQuant.Common.Types
import SmartQuant.Lib.BucketRing

/-!
# Tick delta velocity

`DeltaFactor` collects traded volume in time buckets, by side of the midprice, and
takes the second difference of the net volume inside its window. `R` stands for
`double`: the definitions use its operations alone, so they run over `Double`, and over
any field where rounding is left aside.
-/
namespace SmartQuant

structure TradeVol (R : Type*) [Zero R] where
  buyVol : R := 0
  sellVol : R := 0

structure DeltaFactor (R : Type*) [Zero R] where
  windowNs : Nat
  bucketNs : Nat
  numBuckets : Nat
  ring : BucketRing (TradeVol R) := .empty {}
  midprice : Int := 0
  netDelta : R := 0
  prevDelta : R := 0
  prevPrevDelta : R := 0
  acceleration : R := 0
  bucketNs_pos : 0 < bucketNs

namespace DeltaFactor

def kDefaultWindowNs : Nat := 100000000

def kDefaultBucketNs : Nat := 10000000

def kMaxBuckets : Nat := 64

variable {R : Type*} [Zero R]

/-- The constructor. The count of buckets is computed in 64 bits. -/
def create (windowNs bucketNs : Nat) : Except String (DeltaFactor R) :=
  if h : bucketNs = 0 then .error "DeltaFactor: bucket_ns must be > 0"
  else
    let needed := Word64.add (Word64.sub (Word64.add windowNs bucketNs) 1 / bucketNs) 1
    .ok { windowNs, bucketNs, numBuckets := min needed kMaxBuckets
          bucketNs_pos := Nat.pos_of_ne_zero h }

theorem create_bucketNs {windowNs bucketNs : Nat} {f : DeltaFactor R}
    (h : create windowNs bucketNs = .ok f) : f.bucketNs = bucketNs ∧ f.ring.count = 0 := by
  rw [create] at h
  split at h
  · cases h
  · cases h
    exact ⟨rfl, rfl⟩

theorem create_ring {windowNs bucketNs : Nat} {f : DeltaFactor R}
    (h : create windowNs bucketNs = .ok f) : f.ring = .empty {} := by
  rw [create] at h
  split at h
  · cases h
  · cases h
    rfl

/-- What the constructor makes of its default arguments. -/
def initial : DeltaFactor R :=
  { windowNs := kDefaultWindowNs, bucketNs := kDefaultBucketNs, numBuckets := 11
    bucketNs_pos := by decide }

theorem create_default :
    create kDefaultWindowNs kDefaultBucketNs = .ok (initial : DeltaFactor R) := rfl

/-- The midprice survives a reset. -/
def reset (f : DeltaFactor R) : DeltaFactor R :=
  { f with ring := .empty {}, netDelta := 0, prevDelta := 0, prevPrevDelta := 0, acceleration := 0 }

def setMidprice (f : DeltaFactor R) (mid : Int) : DeltaFactor R := { f with midprice := mid }

def advanceTime (f : DeltaFactor R) (nowNs : Nat) : DeltaFactor R :=
  { f with ring := f.ring.advance kMaxBuckets f.numBuckets f.bucketNs {} nowNs }

variable [Add R] [IntCast R]

/-- Add a trade's quantity to the head bucket, on the side of the midprice it was made at. -/
def record (f : DeltaFactor R) (ev : LOBEvent) : DeltaFactor R :=
  if ev.side = .trade ∧ 0 < ev.qty then
    if f.midprice ≤ 0 ∨ f.midprice ≤ ev.price then
      { f with ring := f.ring.modifyHead fun v => { v with buyVol := v.buyVol + ev.qty } }
    else { f with ring := f.ring.modifyHead fun v => { v with sellVol := v.sellVol + ev.qty } }
  else f

@[simp] theorem record_headTs (f : DeltaFactor R) (ev : LOBEvent) :
    (f.record ev).ring.headBucket.tsNs = f.ring.headBucket.tsNs := by
  rw [record]
  split_ifs <;> simp

@[simp] theorem record_count (f : DeltaFactor R) (ev : LOBEvent) :
    (f.record ev).ring.count = f.ring.count := by
  rw [record]
  split_ifs <;> simp

/-- A trade goes into the ring and nowhere else. -/
theorem record_eq (f : DeltaFactor R) (ev : LOBEvent) :
    f.record ev = { f with ring := (f.record ev).ring } := by
  rw [record]
  split_ifs <;> rfl

theorem record_ring_of_trade {f : DeltaFactor R} {ev : LOBEvent}
    (h : ev.side = .trade ∧ 0 < ev.qty) :
    (f.record ev).ring = f.ring.modifyHead fun v =>
      if f.midprice ≤ 0 ∨ f.midprice ≤ ev.price then { v with buyVol := v.buyVol + ev.qty }
      else { v with sellVol := v.sellVol + ev.qty } := by
  rw [record, if_pos h]
  split_ifs <;> rfl

variable [Sub R] [Mul R] [NatCast R]

/-- Sum the window, shift the last two sums, take the second difference. -/
def recompute (f : DeltaFactor R) : DeltaFactor R :=
  let headTs := f.ring.headBucket.tsNs
  let cutoff := if f.windowNs ≤ headTs then headTs - f.windowNs else 0
  let window := f.ring.since kMaxBuckets cutoff
  let netDelta := (window.map (·.val.buyVol)).sum - (window.map (·.val.sellVol)).sum
  { f with
    prevPrevDelta := f.prevDelta
    prevDelta := f.netDelta
    netDelta
    acceleration := netDelta - 2 * f.netDelta + f.prevDelta }

def onEvent (f : DeltaFactor R) (ev : LOBEvent) : DeltaFactor R :=
  ((f.advanceTime ev.timestampNs).record ev).recompute

def value (f : DeltaFactor R) : R := f.acceleration

/-- The factor with other values for the sums before the last. -/
def withPast (f : DeltaFactor R) (prevDelta prevPrevDelta acceleration : R) : DeltaFactor R :=
  { f with prevDelta, prevPrevDelta, acceleration }

omit [IntCast R] in
@[simp] theorem recompute_ring (f : DeltaFactor R) : f.recompute.ring = f.ring := rfl

theorem onEvent_headTs (f : DeltaFactor R) (ev : LOBEvent) :
    (f.onEvent ev).ring.headBucket.tsNs =
      (f.advanceTime ev.timestampNs).ring.headBucket.tsNs := by
  simp [onEvent]

theorem onEvent_count (f : DeltaFactor R) (ev : LOBEvent) :
    (f.onEvent ev).ring.count = (f.advanceTime ev.timestampNs).ring.count := by
  simp [onEvent]

theorem onEvent_value (f : DeltaFactor R) (ev : LOBEvent) :
    (f.onEvent ev).value = (f.onEvent ev).netDelta - 2 * f.netDelta + f.prevDelta := by
  rw [onEvent, record_eq]
  rfl

end DeltaFactor
end SmartQuant
