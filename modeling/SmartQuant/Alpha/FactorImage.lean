import Mathlib.Algebra.BigOperators.Ring.List
import Mathlib.Algebra.Order.BigOperators.Group.List
import SmartQuant.Alpha.CancelFactor
import SmartQuant.Alpha.DeltaFactor
import SmartQuant.Lib.BucketShift
import SmartQuant.Md.BookMirror

/-!
# The factors seen through a map

Where the clock starts, what a unit of volume is and which side is called which are a matter
of description. Two factors that hear the same events under two descriptions keep
corresponding buckets, and their values correspond.
-/
namespace SmartQuant.FactorImage

open BucketRing BookMirror

variable {R : Type*} [Field R] {delay top : Nat}

/-- A map of volumes that multiplies what is bought net by `c`. -/
structure NetMap (c : R) (vol : TradeVol R → TradeVol R) : Prop where
  zero : vol {} = {}
  net : ∀ v, (vol v).buyVol - (vol v).sellVol = c * (v.buyVol - v.sellVol)

/-- The buckets correspond, `delay` later; no bucket of the first opens after `top`. -/
structure DeltaImage (delay top : Nat) (c : R) (vol : TradeVol R → TradeVol R)
    (f f' : DeltaFactor R) : Prop where
  windowNs : f'.windowNs = f.windowNs
  bucketNs : f'.bucketNs = f.bucketNs
  numBuckets : f'.numBuckets = f.numBuckets
  ring : Shifted DeltaFactor.kMaxBuckets delay top vol f.ring f'.ring
  netDelta : f'.netDelta = c * f.netDelta
  prevDelta : f'.prevDelta = c * f.prevDelta
  acceleration : f'.acceleration = c * f.acceleration

section Delta

open DeltaFactor

variable {f f' : DeltaFactor R} {c : R} {vol : TradeVol R → TradeVol R}

theorem deltaImage_initial (delay top : Nat) (c : R) (vol : TradeVol R → TradeVol R) :
    DeltaImage delay top c vol .initial .initial where
  windowNs := rfl
  bucketNs := rfl
  numBuckets := rfl
  ring := shifted_empty (by decide) _ _
  netDelta := (mul_zero c).symm
  prevDelta := (mul_zero c).symm
  acceleration := (mul_zero c).symm

theorem DeltaImage.setMidprice (h : DeltaImage delay top c vol f f') (mid mid' : Int) :
    DeltaImage delay top c vol (f.setMidprice mid) (f'.setMidprice mid') := { h with }

theorem DeltaImage.advanceTime (h : DeltaImage delay top c vol f f') (hvol : NetMap c vol)
    {now : Nat} (hnow : now ≤ top) (htop : top + delay + f.bucketNs < Word64.size) :
    DeltaImage delay top c vol (f.advanceTime now) (f'.advanceTime (now + delay)) where
  windowNs := h.windowNs
  bucketNs := h.bucketNs
  numBuckets := h.numBuckets
  ring := by
    show Shifted kMaxBuckets delay top vol _
      (f'.ring.advance kMaxBuckets f'.numBuckets f'.bucketNs {} (now + delay))
    rw [h.bucketNs, h.numBuckets]
    exact h.ring.advance hvol.zero hnow htop
  netDelta := h.netDelta
  prevDelta := h.prevDelta
  acceleration := h.acceleration

theorem onEvent_kept (f : DeltaFactor R) (ev : LOBEvent) :
    (f.onEvent ev).midprice = f.midprice ∧ (f.onEvent ev).bucketNs = f.bucketNs := by
  rw [DeltaFactor.onEvent, DeltaFactor.record_eq]
  exact ⟨rfl, rfl⟩

/-- The head bucket with a trade in it. -/
def added (mid : Int) (ev : LOBEvent) (v : TradeVol R) : TradeVol R :=
  if mid ≤ 0 ∨ mid ≤ ev.price then { v with buyVol := v.buyVol + ev.qty }
  else { v with sellVol := v.sellVol + ev.qty }

theorem DeltaImage.record (h : DeltaImage delay top c vol f f') (hc : 0 < f.ring.count)
    {ev ev' : LOBEvent}
    (htrade : ev'.side = .trade ∧ 0 < ev'.qty ↔ ev.side = .trade ∧ 0 < ev.qty)
    (hadd : ev.side = .trade ∧ 0 < ev.qty →
      ∀ v, added f'.midprice ev' (vol v) = vol (added f.midprice ev v)) :
    DeltaImage delay top c vol (f.record ev) (f'.record ev') := by
  by_cases hev : ev.side = .trade ∧ 0 < ev.qty
  · rw [f.record_eq ev, f'.record_eq ev']
    refine { h with ring := ?_ }
    rw [record_ring_of_trade hev, record_ring_of_trade (htrade.mpr hev)]
    exact h.ring.modifyHead hc (hadd hev)
  · rw [DeltaFactor.record, if_neg hev, DeltaFactor.record, if_neg (mt htrade.mp hev)]
    exact h

theorem net_map (hvol : NetMap c vol) (window : List (Bucket (TradeVol R))) :
    ((window.map (shift delay vol)).map (·.val.buyVol)).sum -
        ((window.map (shift delay vol)).map (·.val.sellVol)).sum =
      c * ((window.map (·.val.buyVol)).sum - (window.map (·.val.sellVol)).sum) := by
  induction window with
  | nil => simp
  | cons b window ih =>
    have hb := hvol.net b.val
    simp only [List.map_cons, List.sum_cons, shift] at ih ⊢
    rw [add_sub_add_comm, hb, ih, ← mul_add, add_sub_add_comm]

/-- The sums over the window, and with them the second difference, are `c` times the first's. -/
theorem DeltaImage.recompute (h : DeltaImage delay top c vol f f') (hvol : NetMap c vol)
    (hc : 0 < f.ring.count) : DeltaImage delay top c vol f.recompute f'.recompute := by
  have hhead : f'.ring.headBucket.tsNs = f.ring.headBucket.tsNs + delay := by
    rw [h.ring.headBucket hc, shift]
  have hwindow := h.ring.since f.windowNs f.ring.headBucket.tsNs
  have hnet : f'.recompute.netDelta = c * f.recompute.netDelta := by
    rw [DeltaFactor.recompute, DeltaFactor.recompute]
    simp only [h.windowNs, hhead]
    simp only [cutoff] at hwindow
    rw [hwindow, net_map hvol]
  refine { h with netDelta := hnet, prevDelta := h.netDelta, acceleration := ?_ }
  show f'.recompute.netDelta - 2 * f'.netDelta + f'.prevDelta =
    c * (f.recompute.netDelta - 2 * f.netDelta + f.prevDelta)
  rw [hnet, h.netDelta, h.prevDelta]
  ring

theorem DeltaImage.onEvent (h : DeltaImage delay top c vol f f') (hvol : NetMap c vol)
    {ev ev' : LOBEvent} (hts : ev.timestampNs ≤ top)
    (hts' : ev'.timestampNs = ev.timestampNs + delay)
    (htrade : ev'.side = .trade ∧ 0 < ev'.qty ↔ ev.side = .trade ∧ 0 < ev.qty)
    (hadd : ev.side = .trade ∧ 0 < ev.qty →
      ∀ v, added f'.midprice ev' (vol v) = vol (added f.midprice ev v))
    (htop : top + delay + f.bucketNs < Word64.size) :
    DeltaImage delay top c vol (f.onEvent ev) (f'.onEvent ev') := by
  have hc : 0 < (f.advanceTime ev.timestampNs).ring.count := count_advance_pos _ _ _ _ _ _
  have hadvanced := h.advanceTime hvol hts htop
  rw [← hts'] at hadvanced
  apply DeltaImage.recompute _ hvol
  · rw [record_count]
    exact hc
  · exact hadvanced.record hc htrade hadd

end Delta

/-- The counts, with the sides exchanged in a turned market. -/
def turnCancels (turn : Bool) (v : Cancels R) : Cancels R :=
  if turn then { bidCancels := v.askCancels, askCancels := v.bidCancels } else v

/-- The second factor is the first, `delay` later; in a turned market its sides are exchanged. -/
structure CancelImage (turn : Bool) (delay top : Nat) (f f' : CancelFactor R) : Prop where
  ring : Shifted CancelFactor.kMaxBuckets delay top (turnCancels turn) f.ring f'.ring
  zBid : f'.zBid = if turn then f.zAsk else f.zBid
  zAsk : f'.zAsk = if turn then f.zBid else f.zAsk
  recentZBid : f'.recentZBid = if turn then f.recentZAsk else f.recentZBid
  recentZAsk : f'.recentZAsk = if turn then f.recentZBid else f.recentZAsk
  recentTs : f'.recentTs = f.recentTs.map (· + delay)
  balanced : f.recentZBid.length = f.recentZAsk.length

section Cancel

open CancelFactor

variable {f f' : CancelFactor R} {turn : Bool} {ev ev' : LOBEvent}

theorem cancelImage_initial (turn : Bool) (delay top : Nat) :
    CancelImage turn delay top ({} : CancelFactor R) {} where
  ring := shifted_empty (by decide) _ _
  zBid := by cases turn <;> rfl
  zAsk := by cases turn <;> rfl
  recentZBid := by cases turn <;> rfl
  recentZAsk := by cases turn <;> rfl
  recentTs := rfl
  balanced := rfl

theorem CancelImage.advanceTime (h : CancelImage turn delay top f f') {now : Nat}
    (hnow : now ≤ top) (htop : top + delay + kBucketNs < Word64.size) :
    CancelImage turn delay top (f.advanceTime now) (f'.advanceTime (now + delay)) :=
  { h with ring := h.ring.advance (by cases turn <;> rfl) hnow htop }

/-- A Delete counts on the side it is called in the second description. -/
theorem CancelImage.record (h : CancelImage turn delay top f f') (hc : 0 < f.ring.count)
    (hact : ev'.action = ev.action)
    (hside : ev'.side = if turn then mirrorSide ev.side else ev.side) :
    CancelImage turn delay top (f.record ev) (f'.record ev') := by
  have hcounted : ∀ g g', (∀ v, g' (turnCancels turn v) = turnCancels turn (g v)) →
      CancelImage turn delay top { f with ring := f.ring.modifyHead g }
        { f' with ring := f'.ring.modifyHead g' } := fun g g' hg =>
    { h with ring := h.ring.modifyHead hc hg }
  rw [CancelFactor.record, CancelFactor.record, hact, hside]
  split
  · cases turn with
    | false =>
      cases ev.side with
      | bid => exact hcounted _ _ fun _ => rfl
      | offer => exact hcounted _ _ fun _ => rfl
      | trade => exact h
    | true =>
      cases ev.side with
      | bid => exact hcounted _ _ fun _ => rfl
      | offer => exact hcounted _ _ fun _ => rfl
      | trade => exact h
  · exact h

/-- How many samples `sample` drops. -/
def expired (now : Nat) (ts : List Nat) : Nat :=
  (ts.takeWhile (· < cutoff kQuantileNs now)).length

theorem sample_eq (f : CancelFactor R) (now : Nat) : f.sample now =
    { f with
      recentZBid := (f.recentZBid ++ [f.zBid]).drop (expired now (f.recentTs ++ [now]))
      recentZAsk := (f.recentZAsk ++ [f.zAsk]).drop (expired now (f.recentTs ++ [now]))
      recentTs := (f.recentTs ++ [now]).drop (expired now (f.recentTs ++ [now])) } := rfl

theorem expired_shift (now delay : Nat) (ts : List Nat) :
    expired (now + delay) (ts.map (· + delay)) = expired now ts := by
  rw [expired, expired, List.takeWhile_map, List.length_map]
  congr 2
  funext t
  show decide (t + delay < _) = decide (t < _)
  have hcut := cutoff_shift kQuantileNs now delay t
  exact decide_eq_decide.mpr (by omega)

/-- The same samples expire. -/
theorem CancelImage.sample (h : CancelImage turn delay top f f') (now : Nat) :
    CancelImage turn delay top (f.sample now) (f'.sample (now + delay)) := by
  have hts : f'.recentTs ++ [now + delay] = (f.recentTs ++ [now]).map (· + delay) := by
    rw [h.recentTs, List.map_append, List.map_singleton]
  rw [sample_eq, sample_eq, hts, expired_shift, h.recentZBid, h.recentZAsk, h.zBid, h.zAsk]
  refine ⟨h.ring, rfl, rfl, ?_, ?_, List.map_drop.symm, ?_⟩
  · cases turn <;> rfl
  · cases turn <;> rfl
  · simp [h.balanced]

/-- The buckets the scores are taken over. -/
def lastSecond (f : CancelFactor R) : List (Bucket (Cancels R)) :=
  f.ring.since kMaxBuckets (cutoff kWindowNs f.ring.headBucket.tsNs)

variable [LinearOrder R] (sqrt : R → R)

theorem recomputeZscores_eq (f : CancelFactor R) : f.recomputeZscores sqrt =
    if f.ring.count < 2 then f
    else if (lastSecond f).length < 2 then f
    else CancelFactor.sample
      { f with
        zBid := zScore sqrt ((lastSecond f).map (·.val.bidCancels))
          f.ring.headBucket.val.bidCancels
        zAsk := zScore sqrt ((lastSecond f).map (·.val.askCancels))
          f.ring.headBucket.val.askCancels } f.ring.headBucket.tsNs := rfl

theorem CancelImage.recomputeZscores (h : CancelImage turn delay top f f')
    (hc : 0 < f.ring.count) :
    CancelImage turn delay top (f.recomputeZscores sqrt) (f'.recomputeZscores sqrt) := by
  have hhead : f'.ring.headBucket = shift delay (turnCancels turn) f.ring.headBucket :=
    h.ring.headBucket hc
  have hwindow : lastSecond f' = (lastSecond f).map (shift delay (turnCancels turn)) := by
    rw [lastSecond, hhead]
    exact h.ring.since kWindowNs f.ring.headBucket.tsNs
  rw [recomputeZscores_eq, recomputeZscores_eq, h.ring.count, hwindow, hhead, List.length_map,
    List.map_map, List.map_map]
  split
  · exact h
  · split
    · exact h
    · apply CancelImage.sample
      cases turn with
      | true => exact { h with zBid := rfl, zAsk := rfl }
      | false => exact { h with zBid := rfl, zAsk := rfl }

theorem CancelImage.onEvent (h : CancelImage turn delay top f f') (hts : ev.timestampNs ≤ top)
    (hts' : ev'.timestampNs = ev.timestampNs + delay) (hact : ev'.action = ev.action)
    (hside : ev'.side = if turn then mirrorSide ev.side else ev.side)
    (htop : top + delay + kBucketNs < Word64.size) :
    CancelImage turn delay top (f.onEvent sqrt ev) (f'.onEvent sqrt ev') := by
  have hc : 0 < (f.advanceTime ev.timestampNs).ring.count := count_advance_pos _ _ _ _ _ _
  have hadvanced := h.advanceTime hts htop
  rw [← hts'] at hadvanced
  apply CancelImage.recomputeZscores
  · exact hadvanced.record hc hact hside
  · rw [record_count]
    exact hc

theorem CancelImage.dynamicThreshold (h : CancelImage turn delay top f f') :
    f'.dynamicThreshold = f.dynamicThreshold := by
  rw [CancelFactor.dynamicThreshold, CancelFactor.dynamicThreshold, h.recentZBid, h.recentZAsk]
  cases turn with
  | false => rfl
  | true =>
    have hnil : f.recentZAsk = [] ↔ f.recentZBid = [] := by
      rw [← List.length_eq_zero_iff, ← h.balanced, List.length_eq_zero_iff]
    have hlarger : List.zipWith max f.recentZAsk f.recentZBid =
        List.zipWith max f.recentZBid f.recentZAsk := List.zipWith_comm_of_comm max_comm
    simp only [if_true, hnil, hlarger]

end Cancel
end SmartQuant.FactorImage
