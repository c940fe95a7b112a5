import Mathlib.Algebra.Order.Field.Basic
import Mathlib.Data.Int.Cast.Lemmas
import SmartQuant.Alpha.FactorImage
import SmartQuant.Alpha.SignalEngine
import SmartQuant.Md.BookRelabel

/-!
# A signal under other labels

Volumes scale, the midprice moves with the level, buckets open later, and the cancellation
scores are the same numbers: the engine fires at the same events.
-/
namespace SmartQuant.SignalRelabel

open BucketRing BookRelabel FactorImage

variable {R : Type*} [Field R] {L : Relabelling} {top : Nat}

def volumes (L : Relabelling) (v : TradeVol R) : TradeVol R :=
  { buyVol := (L.scale : R) * v.buyVol, sellVol := (L.scale : R) * v.sellVol }

theorem netMap_volumes (L : Relabelling) : NetMap (L.scale : R) (volumes L) where
  zero := by rw [volumes, mul_zero]
  net v := by rw [volumes, mul_sub]

/-- The second engine is the first under the labels; its clock has not passed `top`. The last
signal is not part of it: no step reads it. -/
structure SameEngine (L : Relabelling) (top : Nat) (s s' : SignalEngine R) : Prop where
  delta : DeltaImage L.delay top (L.scale : R) (volumes L) s.delta s'.delta
  midprice : L.SamePrice s.delta.midprice s'.delta.midprice
  cancel : CancelImage false L.delay top s.cancel s'.cancel
  threshDelta : s'.threshDelta = L.scale * s.threshDelta
  minCancelZ : s'.minCancelZ = s.minCancelZ
  bucketNs : s.delta.bucketNs = DeltaFactor.kDefaultBucketNs

def signal (L : Relabelling) (sig : Signal R) : Signal R :=
  { sig with
    triggerTimeNs := sig.triggerTimeNs + L.delay
    l1Price := sig.l1Price + L.raise
    deltaVal := L.scale * sig.deltaVal }

section Engine

open SignalEngine

variable {s s' : SignalEngine R} {ev : LOBEvent} {bid ask bid' ask' mid mid' : Int}

theorem samePrice_mid (hbid : L.SamePrice bid bid') (hask : L.SamePrice ask ask')
    (hquoted : 0 < bid ∧ 0 < ask) :
    L.SamePrice (quoteMid bid ask) (quoteMid bid' ask') := by
  rcases hbid with ⟨hnone, -⟩ | ⟨⟨-, hbid⟩, ⟨hbid', hbid''⟩, rfl⟩
  · omega
  rcases hask with ⟨hnone, -⟩ | ⟨⟨-, hask⟩, ⟨hask', hask''⟩, rfl⟩
  · omega
  rw [quoteMid_of_lt hquoted.1 hquoted.2 (by omega), quoteMid_of_lt hbid' hask' (by omega)]
  exact Or.inr ⟨⟨by omega, by omega⟩, ⟨by omega, by omega⟩, by omega⟩

theorem samePrice_pos_iff {p p' : Int} (h : L.SamePrice p p') : 0 < p' ↔ 0 < p := by
  rcases h with ⟨hp, hp'⟩ | ⟨hp, hp', rfl⟩
  · omega
  · exact iff_of_true hp'.1 hp.1

theorem sameEngine_ofThreshold (L : Relabelling) (top : Nat) (threshDelta minCancelZ : R) :
    SameEngine L top ({ threshDelta, minCancelZ } : SignalEngine R)
      { threshDelta := L.scale * threshDelta, minCancelZ } where
  delta := deltaImage_initial _ _ _ _
  midprice := Or.inl ⟨rfl, rfl⟩
  cancel := cancelImage_initial _ _ _
  threshDelta := rfl
  minCancelZ := rfl
  bucketNs := rfl

theorem SameEngine.trackMidprice (h : SameEngine L top s s') (hbid : L.SamePrice bid bid')
    (hask : L.SamePrice ask ask') :
    SameEngine L top (s.trackMidprice bid ask) (s'.trackMidprice bid' ask') := by
  rw [SignalEngine.trackMidprice, SignalEngine.trackMidprice]
  simp only [samePrice_pos_iff hbid, samePrice_pos_iff hask]
  split
  · exact { h with
      delta := h.delta.setMidprice _ _
      midprice := samePrice_mid hbid hask ‹_› }
  · exact h

/-- A trade is on the same side of the midprice. -/
theorem added_event (h : L.SamePrice mid mid') (ev : LOBEvent) (v : TradeVol R) :
    added mid' (L.event ev) (volumes L v) = volumes L (added mid ev v) := by
  have hbought : (mid' ≤ 0 ∨ mid' ≤ (L.event ev).price) ↔ (mid ≤ 0 ∨ mid ≤ ev.price) := by
    show (_ ∨ _ ≤ ev.price + L.raise) ↔ _
    rcases h with ⟨hmid, hmid'⟩ | ⟨⟨hpos, -⟩, ⟨hpos', -⟩, hmid'⟩
    · exact iff_of_true (Or.inl hmid'.le) (Or.inl hmid.le)
    · rw [hmid'] at hpos' ⊢
      omega
  have hqty : (((L.event ev).qty : Int) : R) = L.scale * ev.qty := Int.cast_mul _ _
  rw [added, added]
  simp only [hbought, hqty]
  split
  · simp only [volumes, mul_add]
  · simp only [volumes, mul_add]

variable [LinearOrder R] (sqrt : R → R)

theorem SameEngine.feed (h : SameEngine L top s s') (hts : ev.timestampNs ≤ top)
    (htop : top + L.delay + DeltaFactor.kDefaultBucketNs < Word64.size) :
    SameEngine L top (s.feed sqrt ev) (s'.feed sqrt (L.event ev)) where
  delta := by
    have hsign : 0 < (L.event ev).qty ↔ 0 < ev.qty := mul_pos_iff_of_pos_left L.scale_pos
    exact h.delta.onEvent (netMap_volumes L) hts rfl (and_congr_right fun _ => hsign)
      (fun _ v => added_event h.midprice ev v) (by rw [h.bucketNs]; exact htop)
  midprice := by
    show L.SamePrice (s.delta.onEvent ev).midprice (s'.delta.onEvent (L.event ev)).midprice
    rw [(onEvent_kept _ _).1, (onEvent_kept _ _).1]
    exact h.midprice
  cancel := h.cancel.onEvent sqrt hts rfl rfl rfl htop
  threshDelta := h.threshDelta
  minCancelZ := h.minCancelZ
  bucketNs := by
    show (s.delta.onEvent ev).bucketNs = _
    rw [(onEvent_kept _ _).2]
    exact h.bucketNs

/-- Both sides of every comparison scale, or neither does. -/
theorem SameEngine.decision [IsStrictOrderedRing R] (h : SameEngine L top s s') :
    s'.decision = s.decision := by
  have hscale : (0 : R) < L.scale := Int.cast_pos.mpr L.scale_pos
  have hbuy : s'.threshDelta < s'.delta.value ↔ s.threshDelta < s.delta.value := by
    rw [h.threshDelta, DeltaFactor.value, h.delta.acceleration]
    exact mul_lt_mul_iff_of_pos_left hscale
  have hsell : s'.delta.value < -s'.threshDelta ↔ s.delta.value < -s.threshDelta := by
    rw [h.threshDelta, DeltaFactor.value, h.delta.acceleration, ← mul_neg]
    exact mul_lt_mul_iff_of_pos_left hscale
  simp only [SignalEngine.decision, hbuy, hsell, h.minCancelZ, h.cancel.dynamicThreshold,
    h.cancel.zAsk, h.cancel.zBid]
  rfl

theorem raised_of_samePrice {p p' : Int} (h : L.SamePrice p p') (hp : L.raise = 0 ∨ p ≠ 0) :
    p' = p + L.raise := by
  rcases h with ⟨hnone, hnone'⟩ | ⟨-, -, hraised⟩
  · omega
  · exact hraised

/-- The second engine fires when the first does, and its signal is that of the first. -/
theorem SameEngine.answer [IsStrictOrderedRing R] (h : SameEngine L top s s') (ev : LOBEvent)
    (hbid : L.SamePrice bid bid') (hask : L.SamePrice ask ask') :
    SameEngine L top (s.answer ev bid ask).1 (s'.answer (L.event ev) bid' ask').1 ∧
      (s'.answer (L.event ev) bid' ask').2 = (s.answer ev bid ask).2 ∧
      ((s.answer ev bid ask).2 = true →
        L.raise = 0 ∨ (s.answer ev bid ask).1.lastSignal.l1Price ≠ 0 →
        (s'.answer (L.event ev) bid' ask').1.lastSignal =
          signal L (s.answer ev bid ask).1.lastSignal) := by
  have hdelta : s'.delta.value = L.scale * s.delta.value := h.delta.acceleration
  rw [SignalEngine.answer, SignalEngine.answer, h.decision]
  by_cases hnone : s.decision = .none
  · rw [if_pos hnone, if_pos hnone]
    exact ⟨h, rfl, fun hfired => absurd hfired Bool.false_ne_true⟩
  · rw [if_neg hnone, if_neg hnone]
    refine ⟨{ h with }, rfl, fun _ hpriced => ?_⟩
    have hl1 : L.SamePrice (if s.decision = .buy then ask else bid)
        (if s.decision = .buy then ask' else bid') := by
      split
      · exact hask
      · exact hbid
    rw [signal, raised_of_samePrice hl1 hpriced, hdelta, h.cancel.zAsk, h.cancel.zBid]
    rfl

theorem SameEngine.onEvent [IsStrictOrderedRing R] (h : SameEngine L top s s')
    {book book' : OrderBook} (hbook : L.map.SameBook book book') (hts : ev.timestampNs ≤ top)
    (htop : top + L.delay + DeltaFactor.kDefaultBucketNs < Word64.size) :
    SameEngine L top (s.onEvent sqrt ev book).1 (s'.onEvent sqrt (L.event ev) book').1 ∧
      (s'.onEvent sqrt (L.event ev) book').2 = (s.onEvent sqrt ev book).2 ∧
      ((s.onEvent sqrt ev book).2 = true →
        L.raise = 0 ∨ (s.onEvent sqrt ev book).1.lastSignal.l1Price ≠ 0 →
        (s'.onEvent sqrt (L.event ev) book').1.lastSignal =
          signal L (s.onEvent sqrt ev book).1.lastSignal) := by
  have hbid := samePrice_bestBid hbook
  have hask := samePrice_bestAsk hbook
  rw [onEvent_eq, onEvent_eq]
  exact ((h.trackMidprice hbid hask).feed sqrt hts htop).answer ev hbid hask

end Engine

end SmartQuant.SignalRelabel
