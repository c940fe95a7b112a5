import SmartQuant.Alpha.SignalRelabel
import SmartQuant.Engine.PendingMap
import SmartQuant.Engine.SignalOutcomes

/-!
# A backtest under other labels

Ids, the start of the clock, the price level and the unit of quantities are labels: a log
under other labels, run with the threshold in the new unit, has the same report. A signal
that fires without a quote has an entry price of 0 at any level, so where the level moves
every signal must fire at a price.
-/
namespace SmartQuant.BacktestRelabel

open Runs BacktestLoop PendingWindows SignalOutcomes BookRelabel SignalRelabel PendingMap

variable {R : Type*} [Field R] {L : Relabelling} {top : Nat}

def point (L : Relabelling) (pt : PricePoint) : PricePoint :=
  { tsNs := pt.tsNs + L.delay, bid := pt.bid + L.raise, ask := pt.ask + L.raise }

def pendingAs (L : Relabelling) (p : PendingSignal R) : PendingSignal R :=
  { p with sig := signal L p.sig, entryPrice := p.entryPrice + L.raise }

/-- The second state is the first under the labels; the clock has not passed `top`. -/
structure SameState (L : Relabelling) (top : Nat) (s s' : State R) : Prop where
  book : L.map.SameBook s.book s'.book
  engine : SameEngine L top s.engine s'.engine
  sfEngine : SameEngine L top s.sfEngine s'.sfEngine
  result : s'.result = s.result
  pending : s'.pending = s.pending.map (pendingAs L)
  priceHistory : s'.priceHistory = s.priceHistory.map (point L)
  early : ∀ p ∈ s.pending, p.sig.triggerTimeNs ≤ top

theorem pricePoint_event {b b' : OrderBook} (h : L.map.SameBook b b') (ev : LOBEvent) :
    pricePoint (L.event ev) b' = (pricePoint ev b).map (point L) := by
  have hbid := samePrice_bestBid h
  have hask := samePrice_bestAsk h
  rw [pricePoint, pricePoint]
  simp only [samePrice_pos_iff hbid, samePrice_pos_iff hask]
  split
  · rename_i hquoted
    rw [raised_of_samePrice hbid (Or.inr (by omega)), raised_of_samePrice hask (Or.inr (by omega))]
    rfl
  · rfl

/-- A move is a difference of prices. -/
theorem transports_pendingAs (L : Relabelling) (top : Nat) :
    Transports (R := R) L.delay top (fun p => p.sig.triggerTimeNs ≤ top) id (pendingAs L)
      (point L) where
  early _ hp := hp
  trigger _ := rfl
  tsNs _ := rfl
  count r p pit _ := by
    have hmove : (pendingAs L p).move (point L pit) = p.move pit := by
      show (if p.sig.direction = .buy then pit.ask + L.raise - (p.entryPrice + L.raise)
        else p.entryPrice + L.raise - (pit.bid + L.raise)) = _
      rw [add_sub_add_right_eq_sub, add_sub_add_right_eq_sub]
      rfl
    show r.count (pendingAs L p) (point L pit) = r.count p pit
    rw [BacktestResult.count, hmove]
    rfl

theorem sameState_initial (L : Relabelling) (top : Nat) (threshDelta : R) :
    SameState L top (initial threshDelta) (initial (L.scale * threshDelta)) where
  book := BookMap.sameBook_empty L.map
  engine := sameEngine_ofThreshold L top threshDelta _
  sfEngine := sameEngine_ofThreshold L top threshDelta _
  result := rfl
  pending := rfl
  priceHistory := rfl
  early p hp := by cases hp

variable [LinearOrder R] (sqrt : R → R)

variable [IsStrictOrderedRing R]

/-- A step that fires at a price, or fires nothing, keeps the states alike. -/
theorem sameState_step {s s' : State R} (h : SameState L top s s') {ev : LOBEvent}
    (hts : ev.timestampNs ≤ top) (htop : top + L.delay + kLookForwardNs < Word64.size)
    (hquoted : L.map.Quoted ev) (hpriced : L.raise = 0 ∨ FiresPriced sqrt s ev) :
    SameState L top (step sqrt s ev) (step sqrt s' (L.event ev)) := by
  have hbook : L.map.SameBook (s.book.update ev) (s'.book.update (L.event ev)) := by
    rw [update_event]
    exact BookMap.sameBook_update h.book hquoted
  have hbucket : top + L.delay + DeltaFactor.kDefaultBucketNs < Word64.size := by
    have hle : DeltaFactor.kDefaultBucketNs ≤ kLookForwardNs := by decide
    omega
  obtain ⟨hengine, hfires, hsig⟩ := h.engine.onEvent sqrt hbook hts hbucket
  obtain ⟨hsfEngine, hsfFires, -⟩ := h.sfEngine.onEvent sqrt hbook hts hbucket
  have hhistory : historyAt s' (L.event ev) = (historyAt s ev).map (point L) := by
    rw [historyAt, historyAt, h.priceHistory, pricePoint_event hbook, List.map_append,
      Option.toList_map]
  have hfired : firedAt sqrt s' (L.event ev) = (firedAt sqrt s ev).map (pendingAs L) := by
    unfold firedAt
    simp only [hfires, hsfFires]
    split
    · rw [hsig ‹_› (hpriced.imp_right fun hall => hall.l1Price_ne sqrt ‹_›)]
      rfl
    · rfl
  obtain ⟨hresult, hpending⟩ := (transports_pendingAs L top).step sqrt hts rfl htop h.result
    h.pending h.early hhistory hfired fun _ _ => rfl
  refine ⟨hbook, hengine, hsfEngine, hresult, hpending, hhistory, ?_⟩
  exact pending_step sqrt h.early fun p hp => (mem_firedAt sqrt hp).2.trans_le hts

/-- The report, and all the loop has when the log is over. -/
theorem loop_relabelled (L : Relabelling) (threshDelta : R) {evs : List LOBEvent} {top : Nat}
    (hword : ∀ ev ∈ evs, ev.timestampNs ≤ top)
    (htop : top + L.delay + kLookForwardNs < Word64.size) (hquoted : ∀ ev ∈ evs, L.map.Quoted ev)
    (hpriced : L.raise = 0 ∨ Along (step sqrt) (FiresPriced sqrt) (initial threshDelta) evs) :
    (loop sqrt (L.scale * threshDelta) (evs.map L.event)).result =
        (loop sqrt threshDelta evs).result ∧
      (loop sqrt (L.scale * threshDelta) (evs.map L.event)).pending =
        (loop sqrt threshDelta evs).pending.map (pendingAs L) := by
  have hsteps : Along (step sqrt) (fun s ev => ev.timestampNs ≤ top ∧ L.map.Quoted ev ∧
      (L.raise = 0 ∨ FiresPriced sqrt s ev)) (initial threshDelta) evs := by
    refine along_and.mpr ⟨along_of_forall hword, along_and.mpr ⟨along_of_forall hquoted, ?_⟩⟩
    rcases hpriced with hlevel | hpriced
    · exact along_of_invariant (I := fun _ => True) (fun _ _ _ => trivial)
        (fun _ _ _ => Or.inl hlevel) trivial evs
    · exact along_mono (fun _ _ hfires => Or.inr hfires) hpriced
  have hsame : SameState L top (loop sqrt threshDelta evs)
      (loop sqrt (L.scale * threshDelta) (evs.map L.event)) := by
    apply run_related _ (sameState_initial L top threshDelta) hsteps
    rintro s s' ev h ⟨hts, hprices, hfires⟩
    exact sameState_step sqrt h hts htop hprices hfires
  exact ⟨hsame.result, hsame.pending⟩

/-- Ids from 100 on, a clock 1 us ahead, prices 5 USD up, quantities in thirds. -/
def dearer : Relabelling where
  id := (· + 100)
  delay := 1000
  raise := 500
  scale := 3
  id_injective := fun _ _ h => Nat.add_right_cancel h
  scale_pos := by decide

/-- With a second offer behind it, the one deleted at 40 ms leaves a price to fire at. -/
def covered : List LOBEvent := quoteAt 0 7 .offer :: restored

theorem loop_relabelled_dearer :
    (loop Rat.sqrt (dearer.scale * (50 : ℚ)) (covered.map dearer.event)).result =
        (loop Rat.sqrt (50 : ℚ) covered).result ∧
      (loop Rat.sqrt (dearer.scale * (50 : ℚ)) (covered.map dearer.event)).pending =
        (loop Rat.sqrt (50 : ℚ) covered).pending.map (pendingAs dearer) :=
  have hword : ∀ ev ∈ covered, ev.timestampNs ≤ 5040000000 := by decide
  loop_relabelled Rat.sqrt dearer 50 hword (by decide) (by decide) (Or.inr (by decide +kernel))

/-- The signal of `restored` fires without an offer, at 0: its move is 5 USD more up there. -/
example : (loop Rat.sqrt (50 : ℚ) restored).result.totalMoveTicks = 101 ∧
    (loop Rat.sqrt (150 : ℚ) (restored.map dearer.event)).result.totalMoveTicks = 106 := by
  decide +kernel

end SmartQuant.BacktestRelabel
