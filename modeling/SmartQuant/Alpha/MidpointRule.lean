import Mathlib.Algebra.Order.Ring.Cast
import Mathlib.Algebra.Order.Ring.Rat
import Mathlib.Data.Rat.Sqrt
import SmartQuant.Alpha.SignalEngine

/-!
# Trades against the midpoint

The engine hands the factor the midpoint as a whole number of ticks, rounded down. A trade
half a tick below the true midpoint, the best bid of a one-tick spread, is taken for a
buy. Two prices whose sum leaves `int64_t` give a negative midprice, under which every trade
is a buy.
-/
namespace SmartQuant.MidpointRule

open DeltaFactor SignalEngine

variable {R : Type*} [Field R] [LinearOrder R] (sqrt : R → R)

/-- By how much `on_event` raises the volumes of the head bucket it has moved to. -/
def raised (s : SignalEngine R) (ev : LOBEvent) (book : OrderBook) : TradeVol R :=
  let before := (s.delta.advanceTime ev.timestampNs).ring.headBucket.val
  let after := (s.onEvent sqrt ev book).1.delta.ring.headBucket.val
  { buyVol := after.buyVol - before.buyVol, sellVol := after.sellVol - before.sellVol }

def bought (qty : Int) : TradeVol R := { buyVol := qty }

def sold (qty : Int) : TradeVol R := { sellVol := qty }

/-- The quantity counts as bought at or above the midpoint and as sold below it; so at the best
bid of an uncrossed book it is sold, and at the best ask bought. -/
structure ClassifiedAtMidpoint (s : SignalEngine R) (ev : LOBEvent) (book : OrderBook) :
    Prop where
  rule : raised sqrt s ev book =
    if book.bestAsk + book.bestBid ≤ 2 * ev.price then bought ev.qty else sold ev.qty
  atBid : book.bestBid < book.bestAsk → ev.price = book.bestBid →
    raised sqrt s ev book = sold ev.qty
  atAsk : book.bestBid < book.bestAsk → ev.price = book.bestAsk →
    raised sqrt s ev book = bought ev.qty

omit [LinearOrder R] in
theorem headVal_onEvent (f : DeltaFactor R) (mid : Int) {ev : LOBEvent}
    (h : ev.side = .trade ∧ 0 < ev.qty) :
    ((f.setMidprice mid).onEvent ev).ring.headBucket.val =
      if mid ≤ 0 ∨ mid ≤ ev.price then
        { (f.advanceTime ev.timestampNs).ring.headBucket.val with
          buyVol := (f.advanceTime ev.timestampNs).ring.headBucket.val.buyVol + ev.qty }
      else
        { (f.advanceTime ev.timestampNs).ring.headBucket.val with
          sellVol := (f.advanceTime ev.timestampNs).ring.headBucket.val.sellVol + ev.qty } := by
  have hring := record_ring_of_trade (f := (f.advanceTime ev.timestampNs).setMidprice mid) h
  show (((f.advanceTime ev.timestampNs).setMidprice mid).record ev).ring.headBucket.val = _
  rw [hring, BucketRing.modifyHead_val]
  rfl

/-- A positive quantity goes to the side of the rounded midpoint. -/
theorem raised_eq (s : SignalEngine R) {ev : LOBEvent} {book : OrderBook}
    (hbid : 0 < book.bestBid) (hask : 0 < book.bestAsk) (htrade : ev.side = .trade)
    (hqty : 0 < ev.qty) : raised sqrt s ev book =
      if quoteMid book.bestBid book.bestAsk ≤ 0 ∨ quoteMid book.bestBid book.bestAsk ≤ ev.price
      then bought ev.qty else sold ev.qty := by
  have hfactor : (s.trackMidprice book.bestBid book.bestAsk).delta =
      s.delta.setMidprice (quoteMid book.bestBid book.bestAsk) := by
    rw [trackMidprice, if_pos ⟨hbid, hask⟩]
  rw [raised, onEvent_delta, hfactor, headVal_onEvent _ _ ⟨htrade, hqty⟩]
  split_ifs
  · simp [bought]
  · simp [sold]

/-- In exact terms: where the sum of the best prices leaves the range, every trade is a buy. -/
theorem raised_eq_rounded (s : SignalEngine R) {ev : LOBEvent} {book : OrderBook}
    (hbid : 0 < book.bestBid) (hask : 0 < book.bestAsk)
    (hbid' : book.bestBid < 2 ^ 63) (hask' : book.bestAsk < 2 ^ 63) (htrade : ev.side = .trade)
    (hqty : 0 < ev.qty) : raised sqrt s ev book =
      if 2 ^ 63 ≤ book.bestBid + book.bestAsk ∨ (book.bestBid + book.bestAsk) / 2 ≤ ev.price
      then bought ev.qty else sold ev.qty := by
  rw [raised_eq sqrt s hbid hask htrade hqty]
  rcases lt_or_ge (book.bestBid + book.bestAsk) (2 ^ 63) with hlt | hge
  · rw [quoteMid_of_lt hbid hask hlt]
    exact if_congr (by omega) rfl rfl
  · have hneg := quoteMid_of_ge hbid' hask' hge
    rw [if_pos (Or.inl hneg.le), if_pos (Or.inl hge)]

section Ordered

variable [IsStrictOrderedRing R]

theorem bought_ne_sold {qty : Int} (h : 0 < qty) : (bought qty : TradeVol R) ≠ sold qty := by
  intro heq
  have hbuy : (qty : R) = 0 := congrArg TradeVol.buyVol heq
  exact (Int.cast_pos.mpr h).ne' hbuy

/-- A trade is classified against the true midpoint exactly if it is not half a tick below it,
where the sum of the best prices is in range, and exactly if it is a buy, where it is not. -/
theorem classifiedAtMidpoint_iff (s : SignalEngine R) {ev : LOBEvent} {book : OrderBook}
    (hbid : 0 < book.bestBid) (hask : 0 < book.bestAsk)
    (hbid' : book.bestBid < 2 ^ 63) (hask' : book.bestAsk < 2 ^ 63) (htrade : ev.side = .trade)
    (hqty : 0 < ev.qty) :
    ClassifiedAtMidpoint sqrt s ev book ↔
      if book.bestAsk + book.bestBid < 2 ^ 63 then
        2 * ev.price + 1 ≠ book.bestAsk + book.bestBid
      else book.bestAsk + book.bestBid ≤ 2 * ev.price := by
  have hraised := raised_eq_rounded sqrt s hbid hask hbid' hask' htrade hqty
  constructor
  · intro h
    have hrule := h.rule
    have hsides := bought_ne_sold (R := R) hqty
    rw [hraised] at hrule
    split_ifs with hrange
    · intro hhalf
      rw [if_pos (Or.inr (by omega)), if_neg (by omega)] at hrule
      exact hsides hrule
    · by_contra hbelow
      rw [if_pos (Or.inl (by omega)), if_neg hbelow] at hrule
      exact hsides hrule
  · intro h
    refine ⟨?_, fun hlt hprice => ?_, fun hlt hprice => ?_⟩
    · rw [hraised]
      refine if_congr ?_ rfl rfl
      split_ifs at h <;> omega
    · rw [hraised, if_neg]
      split_ifs at h <;> omega
    · rw [hraised, if_pos]
      split_ifs at h <;> omega

end Ordered

/-- A bid at 10000 and an offer one tick above. -/
def oneTick : OrderBook :=
  (({} : OrderBook).update
      { timestampNs := 0, entryId := 1, price := 10000, qty := 5, action := .new }).update
    { timestampNs := 0, entryId := 2, price := 10001, qty := 5, action := .new, side := .offer }

def printAt (price : Int) : LOBEvent :=
  { timestampNs := 1000, price, qty := 3, action := .new, side := .trade }

/-- A trade at the ask is not. -/
theorem classifiedAtMidpoint_iff_ask : ClassifiedAtMidpoint Rat.sqrt {} (printAt 10001) oneTick :=
  (classifiedAtMidpoint_iff Rat.sqrt {} (by decide +kernel) (by decide +kernel)
    (by decide +kernel) (by decide +kernel) rfl (by decide)).mpr (by decide +kernel)

/-- A trade at the bid counts as bought. -/
theorem not_classifiedAtMidpoint_bid :
    ¬ ClassifiedAtMidpoint Rat.sqrt {} (printAt 10000) oneTick := by
  intro h
  have hbuy := congrArg TradeVol.buyVol (h.atBid (by decide +kernel) (by decide +kernel))
  revert hbuy
  decide +kernel

end SmartQuant.MidpointRule
