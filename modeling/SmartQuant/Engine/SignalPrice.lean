import SmartQuant.Alpha.CancelBurst
import SmartQuant.Engine.AlphaLoop
import SmartQuant.Engine.Pipeline
import SmartQuant.Md.PriceSentinel

/-!
# The price a signal carries

A Buy fires while offers are being withdrawn, and takes the best ask for its price. When
the last offer goes, the signal carries 0, which `slippage_ticks` takes for a price it
does not know: the order's fill costs nothing, whatever its price. It takes a cancel of the
emptied side in the bucket of the event for that to happen.
-/
namespace SmartQuant.SignalPrice

open Std OrderManager RiskManager PriceSentinel CancelBurst Runs
open SignalEngine (engineStep)

variable {R : Type*} [Field R] [LinearOrder R] (sqrt : R → R)

def Priced (b : OrderBook) : Prop := LevelsPriced b.bids ∧ LevelsPriced b.asks

/-- The fill, at a price, of an order sent on the signal. -/
def filledOrder (sig : Signal R) (clordid : String) (qty : Int) (sentNs : Nat) (px : Int) :
    Order :=
  { iocOrder clordid (signalSide sig) qty sig.l1Price sentNs with fillPrice := px }

/-- The signal carries the positive best price of the side it takes, and no fill of an order
sent on it skips the slippage check. -/
structure RealL1 (sig : Signal R) (book : OrderBook) : Prop where
  buy : sig.direction = .buy → sig.l1Price = book.bestAsk
  sell : sig.direction = .sell → sig.l1Price = book.bestBid
  directed : sig.direction ≠ .none
  positive : 0 < sig.l1Price
  checked : ∀ clordid qty sentNs px, px ≠ 0 →
    (filledOrder sig clordid qty sentNs px).signalL1 ≠ 0 ∧
      slippageTicks R (filledOrder sig clordid qty sentNs px) =
        |((px - sig.l1Price : Int) : R)| / (kPriceScale : R)

/-- If `on_event` returns true, `last_signal()` carries a real price. -/
def FiresAtPrice (s : SignalEngine R) (x : LOBEvent × OrderBook) : Prop :=
  (s.onEvent sqrt x.1 x.2).2 = true → RealL1 (s.onEvent sqrt x.1 x.2).1.lastSignal x.2

/-- On either side the book passed in has a quote, or the event's bucket has no cancel, which
is enough unless the engine was built with a negative cancel threshold. -/
structure FindsQuote (s : SignalEngine R) (x : LOBEvent × OrderBook) : Prop where
  asks : x.2.askDepth ≠ 0 ∨ 0 ≤ s.minCancelZ ∧ NoCancel .offer s.cancel x.1
  bids : x.2.bidDepth ≠ 0 ∨ 0 ≤ s.minCancelZ ∧ NoCancel .bid s.cancel x.1

instance (s : SignalEngine R) (x : LOBEvent × OrderBook) : Decidable (FindsQuote s x) :=
  decidable_of_iff ((x.2.askDepth ≠ 0 ∨ 0 ≤ s.minCancelZ ∧ NoCancel .offer s.cancel x.1) ∧
      (x.2.bidDepth ≠ 0 ∨ 0 ≤ s.minCancelZ ∧ NoCancel .bid s.cancel x.1))
    ⟨fun h => ⟨h.1, h.2⟩, fun h => ⟨h.asks, h.bids⟩⟩

/-- Both factors after an event. -/
def fed (s : SignalEngine R) (x : LOBEvent × OrderBook) : SignalEngine R :=
  (s.trackMidprice x.2.bestBid x.2.bestAsk).feed sqrt x.1

theorem bestAsk_pos {b : OrderBook} (h : LevelsPriced b.asks) (hdepth : b.askDepth ≠ 0) :
    0 < b.bestAsk := by
  have hne : b.bestAsk ≠ 0 := by
    rw [Ne, bestAsk_eq_zero_iff h, ExtTreeMap.eq_empty_iff_size_eq_zero]
    exact hdepth
  have hnonneg : 0 ≤ b.bestAsk := by
    rw [OrderBook.bestAsk]
    cases hhead : b.asks.keys.head? with
    | none => exact le_rfl
    | some p => exact (h p (ExtTreeMap.mem_keys.mp (List.mem_of_mem_head? hhead))).le
  omega

theorem bestBid_pos {b : OrderBook} (h : LevelsPriced b.bids) (hdepth : b.bidDepth ≠ 0) :
    0 < b.bestBid := by
  have hne : b.bestBid ≠ 0 := by
    rw [Ne, bestBid_eq_zero_iff h, ExtTreeMap.eq_empty_iff_size_eq_zero]
    exact hdepth
  have hnonneg : 0 ≤ b.bestBid := by
    rw [OrderBook.bestBid]
    cases hlast : b.bids.keys.getLast? with
    | none => exact le_rfl
    | some p => exact (h p (ExtTreeMap.mem_keys.mp (List.mem_of_getLast? hlast))).le
  omega

/-- A positive price is all the check needs. -/
theorem realL1_iff {sig : Signal R} {book : OrderBook}
    (hbuy : sig.direction = .buy → sig.l1Price = book.bestAsk)
    (hsell : sig.direction = .sell → sig.l1Price = book.bestBid)
    (hdir : sig.direction ≠ .none) : RealL1 sig book ↔ 0 < sig.l1Price := by
  refine ⟨RealL1.positive, fun hpos => ⟨hbuy, hsell, hdir, hpos, ?_⟩⟩
  intro clordid qty sentNs px hpx
  refine ⟨hpos.ne', ?_⟩
  rw [slippageTicks, if_neg (by exact not_or.mpr ⟨hpx, hpos.ne'⟩)]
  rfl

theorem onEvent_fed (s : SignalEngine R) (x : LOBEvent × OrderBook) :
    s.onEvent sqrt x.1 x.2 = (fed sqrt s x).answer x.1 x.2.bestBid x.2.bestAsk :=
  SignalEngine.onEvent_eq sqrt s x.1 x.2

theorem engineStep_cancel (s : SignalEngine R) (x : LOBEvent × OrderBook) :
    (engineStep sqrt s x).cancel = s.cancel.onEvent sqrt x.1 := by
  obtain ⟨sig, hsig⟩ := (fed sqrt s x).answer_fst x.1 x.2.bestBid x.2.bestAsk
  rw [engineStep, onEvent_fed, hsig, fed, SignalEngine.trackMidprice]
  split <;> rfl

/-- A direction asks for a score over the threshold on the other side. -/
theorem decision_fed {s : SignalEngine R} {x : LOBEvent × OrderBook} :
    ((fed sqrt s x).decision = .buy →
        s.minCancelZ < scoreOn (s.cancel.onEvent sqrt x.1) .offer) ∧
      ((fed sqrt s x).decision = .sell →
        s.minCancelZ < scoreOn (s.cancel.onEvent sqrt x.1) .bid) := by
  have hfed : (fed sqrt s x).minCancelZ = s.minCancelZ ∧
      (fed sqrt s x).cancel = s.cancel.onEvent sqrt x.1 := by
    rw [fed, SignalEngine.trackMidprice]
    split <;> exact ⟨rfl, rfl⟩
  unfold SignalEngine.decision
  rw [hfed.1, hfed.2]
  simp only
  constructor
  · intro hbuy
    split at hbuy
    · rename_i hcrossed
      exact (le_max_left _ _).trans_lt hcrossed.2
    · split at hbuy <;> cases hbuy
  · intro hsell
    split at hsell
    · cases hsell
    · split at hsell
      · rename_i hcrossed
        exact (le_max_left _ _).trans_lt hcrossed.2
      · cases hsell

section Ordered

variable [IsStrictOrderedRing R]

/-- A score over the threshold is that of a side with a cancel in the bucket. -/
theorem score_over {s : SignalEngine R} {x : LOBEvent × OrderBook} (hcount : Counting s.cancel)
    (hsqrt : ∀ y, 0 ≤ sqrt y) {side : MDEntryType} (hside : side ≠ .trade)
    (hover : s.minCancelZ < scoreOn (s.cancel.onEvent sqrt x.1) side) :
    ¬ (0 ≤ s.minCancelZ ∧ NoCancel side s.cancel x.1) := by
  rintro ⟨hfloor, hnone⟩
  exact (hfloor.trans_lt hover).not_ge (scoreOn_nonpos hsqrt hcount hside hnone)

/-- Where each side has a quote or no cancel, a signal fires at a real price. -/
theorem firesAtPrice_step {s : SignalEngine R} {x : LOBEvent × OrderBook}
    (hcount : Counting s.cancel) (hsqrt : ∀ y, 0 ≤ sqrt y) (hpriced : Priced x.2)
    (hfinds : FindsQuote s x) : FiresAtPrice sqrt s x := by
  rw [FiresAtPrice, onEvent_fed, SignalEngine.answer]
  cases hdir : (fed sqrt s x).decision with
  | none => exact fun hfired => absurd hfired Bool.false_ne_true
  | buy =>
    have hover := score_over sqrt hcount hsqrt (by decide) ((decision_fed sqrt).1 hdir)
    have hpos := bestAsk_pos hpriced.2 (hfinds.asks.resolve_right hover)
    exact fun _ => (realL1_iff (fun _ => rfl) (fun hc => by cases hc)
      (fun hc => by cases hc)).mpr hpos
  | sell =>
    have hover := score_over sqrt hcount hsqrt (by decide) ((decision_fed sqrt).2 hdir)
    have hpos := bestBid_pos hpriced.1 (hfinds.bids.resolve_right hover)
    exact fun _ => (realL1_iff (fun hc => by cases hc) (fun _ => rfl)
      (fun hc => by cases hc)).mpr hpos

/-- For any thresholds, events and books with positive prices: if at every call each side of
the book has a quote, or has no cancel in the event's bucket with a cancel threshold that is not
negative, then every signal fired carries the positive best price of the side it takes. -/
theorem firesAtPrice_of_findsQuote (hsqrt : ∀ y, 0 ≤ sqrt y) (threshDelta minCancelZ : R)
    {xs : List (LOBEvent × OrderBook)} (hpriced : ∀ x ∈ xs, Priced x.2)
    (hfinds : Along (engineStep sqrt) FindsQuote { threshDelta, minCancelZ } xs) :
    Along (engineStep sqrt) (FiresAtPrice sqrt) { threshDelta, minCancelZ } xs := by
  have hcalls := along_and.mpr ⟨along_of_forall hpriced, hfinds⟩
  refine along_mono_of_invariant (I := fun s : SignalEngine R => Counting s.cancel)
    (fun s x h => ?_) (fun s x h hx => firesAtPrice_step sqrt h hsqrt hx.1 hx.2)
    counting_initial hcalls
  rw [engineStep_cancel]
  exact counting_onEvent h x.1

end Ordered

/-- Each event of a list with the book it leaves. -/
def withBooks (evs : List LOBEvent) : List (LOBEvent × OrderBook) :=
  outputs OrderBook.update (fun b ev => [(ev, b.update ev)]) {} evs

theorem priced_iff_keys {b : OrderBook} :
    Priced b ↔ (∀ p ∈ b.bids.keys, 0 < p) ∧ ∀ p ∈ b.asks.keys, 0 < p := by
  simp only [Priced, LevelsPriced, ExtTreeMap.mem_keys]

/-- `collapse` with a second offer behind the one that is deleted. -/
def covered : List LOBEvent :=
  { timestampNs := 0, entryId := 5, price := 10300, qty := 1, action := .new, side := .offer } ::
    Pipeline.collapse

theorem firesAtPrice_of_findsQuote_covered :
    Along (engineStep Rat.sqrt) (FiresAtPrice Rat.sqrt)
      { threshDelta := 50, minCancelZ := 3 / 2 } (withBooks covered) :=
  have hpriced : ∀ x ∈ withBooks covered, Priced x.2 := by
    simp only [priced_iff_keys]
    decide +kernel
  firesAtPrice_of_findsQuote Rat.sqrt Rat.sqrt_nonneg 50 (3 / 2) hpriced (by decide +kernel)

/-- The Buy on the withdrawal of the last offer carries price 0. -/
theorem not_firesAtPrice_collapse :
    ¬ Along (engineStep Rat.sqrt) (FiresAtPrice Rat.sqrt)
      { threshDelta := 50, minCancelZ := 3 / 2 } (withBooks Pipeline.collapse) := by
  intro h
  have hlast := h.2.2.2.2.1
  have hpos := (hlast (by decide +kernel)).positive
  revert hpos
  decide +kernel

end SmartQuant.SignalPrice
