import Mathlib.Algebra.Order.Field.Basic
import SmartQuant.Alpha.FactorImage
import SmartQuant.Alpha.SignalEngine

/-!
# A signal in the mirrored market

What was bought is sold there, and what was cancelled on one side on the other: the engine
fires at the same events, the other way. Two things break the mirror. A trade at the midpoint,
or half a tick from it, counts as a buy in both markets, and so does every trade before a
midprice is known.
-/
namespace SmartQuant.SignalMirror

open BookMirror FactorImage

variable {R : Type*} [Field R] {axis : Int} {top : Nat}

def turned (v : TradeVol R) : TradeVol R := { buyVol := v.sellVol, sellVol := v.buyVol }

theorem netMap_turned : NetMap (-1 : R) turned where
  zero := rfl
  net v := by
    show v.sellVol - v.buyVol = _
    rw [neg_one_mul, neg_sub]

/-- Midpoints of mirrored quotes, each rounded down, or none yet. -/
def OppositeMid (axis mid mid' : Int) : Prop :=
  (mid = 0 ∧ mid' = 0) ∨ (0 < mid ∧ 0 < mid' ∧ axis - 1 ≤ mid + mid' ∧ mid + mid' ≤ axis)

/-- If it is a trade, a midprice is known and the trade is a whole tick off the midpoint. -/
def OffMidpoint (mid : Int) (ev : LOBEvent) : Prop :=
  ev.side = .trade → 0 < ev.qty → 0 < mid ∧ (ev.price < mid ∨ mid + 1 < ev.price)

instance (mid : Int) (ev : LOBEvent) : Decidable (OffMidpoint mid ev) :=
  inferInstanceAs (Decidable (_ → _ → _))

def opposite : Direction → Direction
  | .buy => .sell
  | .sell => .buy
  | .none => .none

/-- The second engine hears the mirrored market; no step reads the last signal. -/
structure MirrorEngine [LinearOrder R] (axis : Int) (top : Nat) (s s' : SignalEngine R) :
    Prop where
  delta : DeltaImage 0 top (-1) turned s.delta s'.delta
  midprice : OppositeMid axis s.delta.midprice s'.delta.midprice
  cancel : CancelImage true 0 top s.cancel s'.cancel
  threshDelta : s'.threshDelta = s.threshDelta
  thresh_nonneg : 0 ≤ s.threshDelta
  minCancelZ : s'.minCancelZ = s.minCancelZ
  bucketNs : s.delta.bucketNs = DeltaFactor.kDefaultBucketNs

def signal (axis : Int) (sig : Signal R) : Signal R :=
  { sig with
    l1Price := axis - sig.l1Price
    deltaVal := -sig.deltaVal
    direction := opposite sig.direction }

open SignalEngine

variable {s s' : SignalEngine R} {ev : LOBEvent} {bid ask bid' ask' mid mid' : Int}

theorem oppositeMid_mid (hbid : Opposite axis bid ask') (hask : Opposite axis ask bid')
    (hquoted : 0 < bid ∧ 0 < ask) :
    OppositeMid axis (quoteMid bid ask) (quoteMid bid' ask') := by
  rcases hbid with ⟨hnone, -⟩ | ⟨⟨-, hbid⟩, ⟨hbid', hbid''⟩, rfl⟩
  · omega
  rcases hask with ⟨hnone, -⟩ | ⟨⟨-, hask⟩, ⟨hask', hask''⟩, rfl⟩
  · omega
  rw [quoteMid_of_lt hquoted.1 hquoted.2 (by omega), quoteMid_of_lt hask' hbid' (by omega)]
  exact Or.inr ⟨by omega, by omega, by omega, by omega⟩

theorem opposite_pos_iff {p p' : Int} (h : Opposite axis p p') : 0 < p' ↔ 0 < p := by
  rcases h with ⟨hp, hp'⟩ | ⟨hp, hp', rfl⟩
  · omega
  · exact iff_of_true hp'.1 hp.1

theorem turned_of_opposite {p p' : Int} (h : Opposite axis p p') (hp : p ≠ 0) :
    p' = axis - p := by
  rcases h with ⟨hnone, -⟩ | ⟨-, -, hturned⟩
  · exact absurd hnone hp
  · exact hturned

/-- Off the midpoint a trade is bought in one of the markets only. -/
theorem added_mirror (h : OppositeMid axis mid mid') (htrade : ev.side = .trade ∧ 0 < ev.qty)
    (hoff : OffMidpoint mid ev) (v : TradeVol R) :
    added mid' ((mirror axis).event ev) (turned v) = turned (added mid ev v) := by
  obtain ⟨hmid, hprice⟩ := hoff htrade.1 htrade.2
  have hprice' : ((mirror axis).event ev).price = axis - ev.price := rfl
  have hqty : ((mirror axis).event ev).qty = ev.qty := Int.one_mul _
  rcases h with ⟨hnone, -⟩ | ⟨-, hmid', hlow, hhigh⟩
  · omega
  rw [added, added, hprice', hqty]
  rcases hprice with hbelow | habove
  · rw [if_pos (by omega), if_neg (by omega)]
    rfl
  · rw [if_neg (by omega), if_pos (by omega)]
    rfl

variable [LinearOrder R]

theorem mirrorEngine_ofThreshold (axis : Int) (top : Nat) {threshDelta : R}
    (h : 0 ≤ threshDelta) (minCancelZ : R) :
    MirrorEngine axis top ({ threshDelta, minCancelZ } : SignalEngine R)
      { threshDelta, minCancelZ } where
  delta := deltaImage_initial _ _ _ _
  midprice := Or.inl ⟨rfl, rfl⟩
  cancel := cancelImage_initial _ _ _
  threshDelta := rfl
  thresh_nonneg := h
  minCancelZ := rfl
  bucketNs := rfl

theorem MirrorEngine.trackMidprice (h : MirrorEngine axis top s s')
    (hbid : Opposite axis bid ask') (hask : Opposite axis ask bid') :
    MirrorEngine axis top (s.trackMidprice bid ask) (s'.trackMidprice bid' ask') := by
  rw [SignalEngine.trackMidprice, SignalEngine.trackMidprice]
  simp only [opposite_pos_iff hbid, opposite_pos_iff hask, and_comm (a := 0 < ask)]
  split
  · exact { h with
      delta := h.delta.setMidprice _ _
      midprice := oppositeMid_mid hbid hask ‹_› }
  · exact h

variable (sqrt : R → R)

theorem MirrorEngine.feed (h : MirrorEngine axis top s s') (hts : ev.timestampNs ≤ top)
    (htop : top + DeltaFactor.kDefaultBucketNs < Word64.size)
    (hoff : OffMidpoint s.delta.midprice ev) :
    MirrorEngine axis top (s.feed sqrt ev) (s'.feed sqrt ((mirror axis).event ev)) where
  delta := by
    have htrade : ((mirror axis).event ev).side = .trade ∧ 0 < ((mirror axis).event ev).qty ↔
        ev.side = .trade ∧ 0 < ev.qty := by
      have hqty : ((mirror axis).event ev).qty = ev.qty := Int.one_mul _
      rw [hqty]
      exact and_congr_left fun _ => (mirror axis).side_eq_trade_iff ev.side
    exact h.delta.onEvent netMap_turned hts rfl htrade
      (fun hev v => added_mirror h.midprice hev hoff v) (by rw [h.bucketNs]; exact htop)
  midprice := by
    show OppositeMid axis (s.delta.onEvent ev).midprice
      (s'.delta.onEvent ((mirror axis).event ev)).midprice
    rw [(onEvent_kept _ _).1, (onEvent_kept _ _).1]
    exact h.midprice
  cancel := h.cancel.onEvent sqrt hts rfl rfl rfl htop
  threshDelta := h.threshDelta
  thresh_nonneg := h.thresh_nonneg
  minCancelZ := h.minCancelZ
  bucketNs := by
    show (s.delta.onEvent ev).bucketNs = _
    rw [(onEvent_kept _ _).2]
    exact h.bucketNs

/-- A threshold of at least 0 is exceeded on one side at most. -/
theorem MirrorEngine.decision [IsStrictOrderedRing R] (h : MirrorEngine axis top s s') :
    s'.decision = opposite s.decision := by
  have hvalue : s'.delta.value = -s.delta.value := by
    rw [DeltaFactor.value, h.delta.acceleration, neg_one_mul]
    rfl
  have hbid : s'.cancel.zBid = s.cancel.zAsk := h.cancel.zBid
  have hask : s'.cancel.zAsk = s.cancel.zBid := h.cancel.zAsk
  have hnot : s.threshDelta < s.delta.value → ¬ s.delta.value < -s.threshDelta := by
    intro hbuy hsell
    exact absurd (hbuy.trans hsell) (not_lt.mpr (neg_le_self h.thresh_nonneg))
  simp only [SignalEngine.decision, hvalue, h.threshDelta, h.minCancelZ,
    h.cancel.dynamicThreshold, hbid, hask, neg_lt_neg_iff, lt_neg]
  split
  · rename_i hsell
    rw [if_neg fun hbuy => hnot hbuy.1 hsell.1]
    rfl
  · split
    · rfl
    · rfl

/-- The second engine fires when the first does, the other way and on the other side's quote. -/
theorem MirrorEngine.answer [IsStrictOrderedRing R] (h : MirrorEngine axis top s s')
    (ev : LOBEvent) (hbid : Opposite axis bid ask') (hask : Opposite axis ask bid') :
    MirrorEngine axis top (s.answer ev bid ask).1
        (s'.answer ((mirror axis).event ev) bid' ask').1 ∧
      (s'.answer ((mirror axis).event ev) bid' ask').2 = (s.answer ev bid ask).2 ∧
      ((s.answer ev bid ask).2 = true → (s.answer ev bid ask).1.lastSignal.l1Price ≠ 0 →
        (s'.answer ((mirror axis).event ev) bid' ask').1.lastSignal =
          signal axis (s.answer ev bid ask).1.lastSignal) := by
  have hvalue : s'.delta.value = -s.delta.value := by
    rw [DeltaFactor.value, h.delta.acceleration, neg_one_mul]
    rfl
  have hzBid : s'.cancel.zBid = s.cancel.zAsk := h.cancel.zBid
  have hzAsk : s'.cancel.zAsk = s.cancel.zBid := h.cancel.zAsk
  rw [SignalEngine.answer, SignalEngine.answer, h.decision]
  cases hdir : s.decision with
  | none => exact ⟨h, rfl, fun hfired => absurd hfired Bool.false_ne_true⟩
  | buy =>
    refine ⟨{ h with }, rfl, fun _ hpriced => ?_⟩
    show Signal.mk ev.timestampNs bid' s'.delta.value s'.cancel.zBid .sell =
      signal axis ⟨ev.timestampNs, ask, s.delta.value, s.cancel.zAsk, .buy⟩
    rw [turned_of_opposite hask hpriced, hvalue, hzBid]
    rfl
  | sell =>
    refine ⟨{ h with }, rfl, fun _ hpriced => ?_⟩
    show Signal.mk ev.timestampNs ask' s'.delta.value s'.cancel.zAsk .buy =
      signal axis ⟨ev.timestampNs, bid, s.delta.value, s.cancel.zBid, .sell⟩
    rw [turned_of_opposite hbid hpriced, hvalue, hzAsk]
    rfl

theorem MirrorEngine.onEvent [IsStrictOrderedRing R] (h : MirrorEngine axis top s s')
    {book book' : OrderBook} (hbook : (mirror axis).SameBook book book')
    (hts : ev.timestampNs ≤ top) (htop : top + DeltaFactor.kDefaultBucketNs < Word64.size)
    (hoff : OffMidpoint (s.trackMidprice book.bestBid book.bestAsk).delta.midprice ev) :
    MirrorEngine axis top (s.onEvent sqrt ev book).1
        (s'.onEvent sqrt ((mirror axis).event ev) book').1 ∧
      (s'.onEvent sqrt ((mirror axis).event ev) book').2 = (s.onEvent sqrt ev book).2 ∧
      ((s.onEvent sqrt ev book).2 = true →
        (s.onEvent sqrt ev book).1.lastSignal.l1Price ≠ 0 →
        (s'.onEvent sqrt ((mirror axis).event ev) book').1.lastSignal =
          signal axis (s.onEvent sqrt ev book).1.lastSignal) := by
  have hbid := opposite_bestBid hbook
  have hask := opposite_bestAsk hbook
  rw [SignalEngine.onEvent_eq, SignalEngine.onEvent_eq]
  exact ((h.trackMidprice hbid hask).feed sqrt hts htop hoff).answer ev hbid hask

omit [LinearOrder R] in
/-- What the midprice becomes does not depend on the rest of the engine. -/
theorem trackMidprice_midprice {s t : SignalEngine R}
    (h : t.delta.midprice = s.delta.midprice) (bid ask : Int) :
    (t.trackMidprice bid ask).delta.midprice = (s.trackMidprice bid ask).delta.midprice := by
  rw [SignalEngine.trackMidprice, SignalEngine.trackMidprice]
  split
  · rfl
  · exact h

theorem onEvent_midprice (s : SignalEngine R) (ev : LOBEvent) (book : OrderBook) :
    (s.onEvent sqrt ev book).1.delta.midprice =
      (s.trackMidprice book.bestBid book.bestAsk).delta.midprice := by
  obtain ⟨sig, hsig⟩ := ((s.trackMidprice book.bestBid book.bestAsk).feed sqrt ev).answer_fst ev
    book.bestBid book.bestAsk
  rw [SignalEngine.onEvent_eq, hsig]
  exact (onEvent_kept _ _).1

end SmartQuant.SignalMirror
