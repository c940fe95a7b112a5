import SmartQuant.Alpha.SignalMirror
import SmartQuant.Engine.BacktestRelabel

/-!
# A backtest of the mirrored market

Where no trade is at the midpoint, the backtest of the mirrored log has the same report, its
buy signals for sell signals: the strategy does not prefer a side.
-/
namespace SmartQuant.BacktestMirror

open Runs BacktestLoop PendingWindows SignalOutcomes BookMirror SignalMirror PendingMap

variable {R : Type*} [Field R] {axis : Int} {top : Nat}

def point (axis : Int) (pt : PricePoint) : PricePoint :=
  { tsNs := pt.tsNs, bid := axis - pt.ask, ask := axis - pt.bid }

def pendingAs (axis : Int) (p : PendingSignal R) : PendingSignal R :=
  { p with sig := signal axis p.sig, entryPrice := axis - p.entryPrice }

/-- The report with buy and sell signals exchanged. -/
def exchanged (r : BacktestResult R) : BacktestResult R :=
  { r with buySignals := r.sellSignals, sellSignals := r.buySignals }

/-- A signal of a step up to `top`, with a direction. -/
def Directed (top : Nat) (p : PendingSignal R) : Prop :=
  p.sig.triggerTimeNs ≤ top ∧ p.sig.direction ≠ .none

theorem pricePoint_mirror {b b' : OrderBook} (h : (mirror axis).SameBook b b') (ev : LOBEvent) :
    pricePoint ((mirror axis).event ev) b' = (pricePoint ev b).map (point axis) := by
  have hbid := opposite_bestBid h
  have hask := opposite_bestAsk h
  rw [pricePoint, pricePoint]
  simp only [opposite_pos_iff hbid, opposite_pos_iff hask]
  by_cases hquoted : 0 < b.bestBid ∧ 0 < b.bestAsk
  · rw [if_pos hquoted, if_pos hquoted.symm, turned_of_opposite hbid (by omega),
      turned_of_opposite hask (by omega)]
    rfl
  · rw [if_neg hquoted, if_neg (mt And.symm hquoted)]
    rfl

/-- A move up there is a move down here. -/
theorem transports_mirror (axis : Int) (top : Nat) :
    Transports (R := R) 0 top (Directed top) exchanged (pendingAs axis) (point axis) where
  early _ hp := hp.1
  trigger _ := rfl
  tsNs _ := rfl
  count r p pit hp := by
    have hmove : (pendingAs axis p).move (point axis pit) = p.move pit := by
      show (if opposite p.sig.direction = .buy then axis - pit.bid - (axis - p.entryPrice)
        else axis - p.entryPrice - (axis - pit.ask)) = if p.sig.direction = .buy then
          pit.ask - p.entryPrice else p.entryPrice - pit.bid
      cases hdir : p.sig.direction with
      | none => exact absurd hdir hp.2
      | buy => exact sub_sub_sub_cancel_left _ _ _
      | sell => exact sub_sub_sub_cancel_left _ _ _
    show (exchanged r).count (pendingAs axis p) (point axis pit) = exchanged (r.count p pit)
    rw [BacktestResult.count, hmove]
    rfl

theorem trigger_exchanged (axis : Int) (r : BacktestResult R) (p : PendingSignal R) :
    (exchanged r).trigger (pendingAs axis p).sig.direction =
      exchanged (r.trigger p.sig.direction) := by
  show (exchanged r).trigger (opposite p.sig.direction) = _
  cases p.sig.direction <;> rfl

variable [LinearOrder R] (sqrt : R → R)

/-- The second state is the first in the mirrored market; both engines hold one midprice. -/
structure MirrorState (axis : Int) (top : Nat) (s s' : State R) : Prop where
  book : (mirror axis).SameBook s.book s'.book
  engine : MirrorEngine axis top s.engine s'.engine
  sfEngine : MirrorEngine axis top s.sfEngine s'.sfEngine
  midprice : s.sfEngine.delta.midprice = s.engine.delta.midprice
  result : s'.result = exchanged s.result
  pending : s'.pending = s.pending.map (pendingAs axis)
  priceHistory : s'.priceHistory = s.priceHistory.map (point axis)
  directed : ∀ p ∈ s.pending, Directed top p

/-- The event of a step is no trade at the midpoint the engines then hold. -/
def TradesOffMidpoint (s : State R) (ev : LOBEvent) : Prop :=
  let book := s.book.update ev
  OffMidpoint (s.engine.trackMidprice book.bestBid book.bestAsk).delta.midprice ev

instance (s : State R) (ev : LOBEvent) : Decidable (TradesOffMidpoint s ev) :=
  inferInstanceAs (Decidable (OffMidpoint _ _))

theorem mirrorState_initial (axis : Int) (top : Nat) {threshDelta : R} (h : 0 ≤ threshDelta) :
    MirrorState axis top (initial threshDelta) (initial threshDelta) where
  book := BookMap.sameBook_empty (mirror axis)
  engine := mirrorEngine_ofThreshold axis top h _
  sfEngine := mirrorEngine_ofThreshold axis top h _
  midprice := rfl
  result := rfl
  pending := rfl
  priceHistory := rfl
  directed p hp := by cases hp

variable [IsStrictOrderedRing R]

theorem mirrorState_step {s s' : State R} (h : MirrorState axis top s s') {ev : LOBEvent}
    (hts : ev.timestampNs ≤ top) (htop : top + kLookForwardNs < Word64.size)
    (hquoted : (mirror axis).Quoted ev) (hpriced : FiresPriced sqrt s ev)
    (hoff : TradesOffMidpoint s ev) :
    MirrorState axis top (step sqrt s ev) (step sqrt s' ((mirror axis).event ev)) := by
  have hbook := BookMap.sameBook_update h.book hquoted
  have hbucket : top + DeltaFactor.kDefaultBucketNs < Word64.size := by
    have hle : DeltaFactor.kDefaultBucketNs ≤ kLookForwardNs := by decide
    omega
  have hmid := trackMidprice_midprice h.midprice (s.book.update ev).bestBid
    (s.book.update ev).bestAsk
  obtain ⟨hengine, hfires, hsig⟩ := h.engine.onEvent sqrt hbook hts hbucket hoff
  obtain ⟨hsfEngine, hsfFires, -⟩ := h.sfEngine.onEvent sqrt hbook hts hbucket (hmid ▸ hoff)
  have hhistory : historyAt s' ((mirror axis).event ev) = (historyAt s ev).map (point axis) := by
    rw [historyAt, historyAt, h.priceHistory, pricePoint_mirror hbook, List.map_append,
      Option.toList_map]
  have hfired : firedAt sqrt s' ((mirror axis).event ev) =
      (firedAt sqrt s ev).map (pendingAs axis) := by
    unfold firedAt
    simp only [hfires, hsfFires]
    split
    · rw [hsig ‹_› (hpriced.l1Price_ne sqrt ‹_›)]
      rfl
    · rfl
  have hts' : ((mirror axis).event ev).timestampNs = ev.timestampNs + 0 := rfl
  obtain ⟨hresult, hpending⟩ := (transports_mirror axis top).step sqrt hts hts' htop h.result
    h.pending h.directed hhistory hfired (trigger_exchanged axis)
  have hkept : (step sqrt s ev).sfEngine.delta.midprice =
      (step sqrt s ev).engine.delta.midprice := by
    show (s.sfEngine.onEvent sqrt ev _).1.delta.midprice =
      (s.engine.onEvent sqrt ev _).1.delta.midprice
    rw [onEvent_midprice, onEvent_midprice, hmid]
  refine ⟨hbook, hengine, hsfEngine, hkept, hresult, hpending, hhistory, ?_⟩
  refine pending_step sqrt h.directed fun p hp => ⟨(mem_firedAt sqrt hp).2.trans_le hts, ?_⟩
  unfold firedAt at hp
  simp only at hp
  split at hp
  · rw [List.mem_singleton.mp hp]
    exact SignalEngine.direction_of_fired sqrt ‹_›
  · cases hp

theorem loop_mirrored (axis : Int) {threshDelta : R} (hthresh : 0 ≤ threshDelta)
    {evs : List LOBEvent} {top : Nat} (hword : ∀ ev ∈ evs, ev.timestampNs ≤ top)
    (htop : top + kLookForwardNs < Word64.size) (hquoted : ∀ ev ∈ evs, (mirror axis).Quoted ev)
    (hpriced : Along (step sqrt) (FiresPriced sqrt) (initial threshDelta) evs)
    (hoff : Along (step sqrt) TradesOffMidpoint (initial threshDelta) evs) :
    (loop sqrt threshDelta (evs.map (mirror axis).event)).result =
        exchanged (loop sqrt threshDelta evs).result ∧
      (loop sqrt threshDelta (evs.map (mirror axis).event)).pending =
        (loop sqrt threshDelta evs).pending.map (pendingAs axis) := by
  have hsteps := along_and.mpr ⟨along_of_forall hword,
    along_and.mpr ⟨along_of_forall hquoted, along_and.mpr ⟨hpriced, hoff⟩⟩⟩
  have hsame : MirrorState axis top (loop sqrt threshDelta evs)
      (loop sqrt threshDelta (evs.map (mirror axis).event)) := by
    apply run_related _ (mirrorState_initial axis top hthresh) hsteps
    rintro s s' ev h ⟨hts, hprices, hfires, htrades⟩
    exact mirrorState_step sqrt h hts htop hprices hfires htrades
  exact ⟨hsame.result, hsame.pending⟩

theorem loop_mirrored_covered :
    (loop Rat.sqrt (50 : ℚ) (BacktestRelabel.covered.map (mirror 20200).event)).result =
        exchanged (loop Rat.sqrt (50 : ℚ) BacktestRelabel.covered).result ∧
      (loop Rat.sqrt (50 : ℚ) (BacktestRelabel.covered.map (mirror 20200).event)).pending =
        (loop Rat.sqrt (50 : ℚ) BacktestRelabel.covered).pending.map (pendingAs 20200) :=
  have hword : ∀ ev ∈ BacktestRelabel.covered, ev.timestampNs ≤ 5040000000 := by decide
  loop_mirrored Rat.sqrt 20200 (by decide) hword (by decide) (by decide) (by decide +kernel)
    (by decide +kernel)

/-- The second trade, moved to the midpoint. -/
def atMidpoint : List LOBEvent :=
  BacktestRelabel.covered.map fun ev => if ev.entryId = 4 then { ev with price := 10050 } else ev

/-- It is a buy in both markets: here the engine does not fire, there it does. -/
example : (loop Rat.sqrt (50 : ℚ) atMidpoint).result.totalSignals = 0 ∧
    (loop Rat.sqrt (50 : ℚ) (atMidpoint.map (mirror 20200).event)).result.totalSignals = 1 := by
  decide +kernel

end SmartQuant.BacktestMirror
