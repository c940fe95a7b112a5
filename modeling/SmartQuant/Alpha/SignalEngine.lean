import SmartQuant.Alpha.CancelFactor
import SmartQuant.Alpha.DeltaFactor
import SmartQuant.Md.OrderBook

/-!
# The dual-factor signal engine

`on_event` feeds an event to both factors and fires when the acceleration of the
net volume and the cancellation score of the opposite side exceed their
thresholds. Of the book it reads the best bid and the best ask only.
-/
namespace SmartQuant

structure SignalEngine (R : Type*) [Field R] where
  delta : DeltaFactor R := .initial
  cancel : CancelFactor R := {}
  threshDelta : R := 50
  minCancelZ : R := 3 / 2
  lastSignal : Signal R := {}

namespace SignalEngine

variable {R : Type*} [Field R]

/-- The constructor with its default cancel threshold, 1.5. -/
def ofThreshold (threshDelta : R) : SignalEngine R :=
  { threshDelta, minCancelZ := ((3 : ℕ) : R) / ((2 : ℕ) : R) }

def reset (s : SignalEngine R) : SignalEngine R :=
  { s with delta := s.delta.reset, cancel := s.cancel.reset, lastSignal := {} }

/-- `(bid + ask) / 2` on `int64_t`. -/
def quoteMid (bid ask : Int) : Int := (Word64.signed (bid + ask)).tdiv 2

/-- `set_midprice` while both sides of the book have a quote. -/
def trackMidprice (s : SignalEngine R) (bid ask : Int) : SignalEngine R :=
  if 0 < bid ∧ 0 < ask then { s with delta := s.delta.setMidprice (quoteMid bid ask) } else s

theorem quoteMid_of_lt {bid ask : Int} (hbid : 0 < bid) (hask : 0 < ask)
    (h : bid + ask < 2 ^ 63) : quoteMid bid ask = (bid + ask) / 2 := by
  rw [quoteMid, Word64.signed_of_mem (by omega) h, Int.tdiv_eq_ediv_of_nonneg (by omega)]

/-- A sum that leaves `int64_t` makes the midprice negative. -/
theorem quoteMid_of_ge {bid ask : Int} (hbid : bid < 2 ^ 63) (hask : ask < 2 ^ 63)
    (h : 2 ^ 63 ≤ bid + ask) : quoteMid bid ask < 0 := by
  rw [quoteMid, Word64.signed_of_ge h (by omega), ← neg_sub, Int.neg_tdiv,
    Int.tdiv_eq_ediv_of_nonneg (by omega)]
  omega

variable [LinearOrder R] (sqrt : R → R)

def feed (s : SignalEngine R) (ev : LOBEvent) : SignalEngine R :=
  { s with delta := s.delta.onEvent ev, cancel := s.cancel.onEvent sqrt ev }

def decision (s : SignalEngine R) : Direction :=
  let threshCancel := max s.minCancelZ s.cancel.dynamicThreshold
  if s.threshDelta < s.delta.value ∧ threshCancel < s.cancel.zAsk then .buy
  else if s.delta.value < -s.threshDelta ∧ threshCancel < s.cancel.zBid then .sell
  else .none

/-- The engine after an event, and whether it fired. -/
def onEvent (s : SignalEngine R) (ev : LOBEvent) (book : OrderBook) : SignalEngine R × Bool :=
  let bid := book.bestBid
  let ask := book.bestAsk
  let s := (s.trackMidprice bid ask).feed sqrt ev
  let dir := s.decision
  if dir = .none then (s, false)
  else
    ({ s with lastSignal :=
        { triggerTimeNs := ev.timestampNs
          l1Price := if dir = .buy then ask else bid
          deltaVal := s.delta.value
          cancelZ := if dir = .buy then s.cancel.zAsk else s.cancel.zBid
          direction := dir } }, true)

/-- The part of `on_event` behind the two factors. -/
def answer (s : SignalEngine R) (ev : LOBEvent) (bid ask : Int) : SignalEngine R × Bool :=
  if s.decision = .none then (s, false)
  else
    ({ s with lastSignal :=
        { triggerTimeNs := ev.timestampNs
          l1Price := if s.decision = .buy then ask else bid
          deltaVal := s.delta.value
          cancelZ := if s.decision = .buy then s.cancel.zAsk else s.cancel.zBid
          direction := s.decision } }, true)

/-- The engine over events and the books they come with. -/
def engineStep (s : SignalEngine R) (x : LOBEvent × OrderBook) : SignalEngine R :=
  (s.onEvent sqrt x.1 x.2).1

theorem onEvent_eq (s : SignalEngine R) (ev : LOBEvent) (book : OrderBook) :
    s.onEvent sqrt ev book = ((s.trackMidprice book.bestBid book.bestAsk).feed sqrt ev).answer ev
      book.bestBid book.bestAsk := rfl

/-- Firing changes the last signal only. -/
theorem answer_fst (s : SignalEngine R) (ev : LOBEvent) (bid ask : Int) :
    ∃ sig, (s.answer ev bid ask).1 = { s with lastSignal := sig } := by
  rw [answer]
  split
  · exact ⟨s.lastSignal, rfl⟩
  · exact ⟨_, rfl⟩

/-- What the delta factor becomes, whether or not the engine fires. -/
theorem onEvent_delta (s : SignalEngine R) (ev : LOBEvent) (book : OrderBook) :
    (s.onEvent sqrt ev book).1.delta =
      (s.trackMidprice book.bestBid book.bestAsk).delta.onEvent ev := by
  obtain ⟨sig, hsig⟩ := answer_fst
    ((s.trackMidprice book.bestBid book.bestAsk).feed sqrt ev) ev book.bestBid book.bestAsk
  rw [onEvent_eq, hsig]
  rfl

/-- An engine that fires names a direction. -/
theorem direction_of_fired {s : SignalEngine R} {ev : LOBEvent} {book : OrderBook}
    (h : (s.onEvent sqrt ev book).2 = true) :
    (s.onEvent sqrt ev book).1.lastSignal.direction ≠ .none := by
  rw [onEvent_eq, answer] at h ⊢
  split at h
  · cases h
  · rename_i hdir
    rw [if_neg hdir]
    exact hdir

/-- A signal bears the time of the event it fires on. -/
theorem triggerTime_of_fired {s : SignalEngine R} {ev : LOBEvent} {book : OrderBook}
    (h : (s.onEvent sqrt ev book).2 = true) :
    (s.onEvent sqrt ev book).1.lastSignal.triggerTimeNs = ev.timestampNs := by
  unfold onEvent at h ⊢
  simp only at h ⊢
  split at h
  · cases h
  · rename_i hdir
    rw [if_neg hdir]

/-- The engine sees no more of a book than its best prices. -/
theorem onEvent_congr (s : SignalEngine R) (ev : LOBEvent) {book book' : OrderBook}
    (hbid : book.bestBid = book'.bestBid) (hask : book.bestAsk = book'.bestAsk) :
    s.onEvent sqrt ev book = s.onEvent sqrt ev book' := by
  unfold onEvent
  rw [hbid, hask]

end SignalEngine
end SmartQuant
