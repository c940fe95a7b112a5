import Mathlib.Data.Rat.Sqrt
import SmartQuant.Alpha.SignalEngine
import SmartQuant.Lib.Runs

/-!
# A reset engine against a new one

`reset` clears both factors but for the midprice. Until a two-sided book brings a new one,
trades are classified against the midprice of the session before, where a new engine
takes every trade for a buy.
-/
namespace SmartQuant.EngineReset

open DeltaFactor Runs
open SignalEngine (engineStep)

variable {R : Type*} [Field R] [LinearOrder R] (sqrt : R → R)

/-- What an event shows: the result of `on_event` and `last_signal()`. -/
def shown (s : SignalEngine R) (x : LOBEvent × OrderBook) : List (Bool × Signal R) :=
  [((s.onEvent sqrt x.1 x.2).2, (s.onEvent sqrt x.1 x.2).1.lastSignal)]

def observations (s : SignalEngine R) (xs : List (LOBEvent × OrderBook)) :
    List (Bool × Signal R) := outputs (engineStep sqrt) (shown sqrt) s xs

/-- The engine after a history, from construction. -/
def engineAfter (threshDelta minCancelZ : R) (xs : List (LOBEvent × OrderBook)) :
    SignalEngine R := run (engineStep sqrt) { threshDelta, minCancelZ } xs

/-- After a history and a reset, a continuation shows what it shows on a new engine. -/
def StartsFresh (threshDelta minCancelZ : R) (xs ys : List (LOBEvent × OrderBook)) : Prop :=
  observations sqrt (engineAfter sqrt threshDelta minCancelZ xs).reset ys =
    observations sqrt { threshDelta, minCancelZ } ys

def TwoSided (book : OrderBook) : Prop := 0 < book.bestBid ∧ 0 < book.bestAsk

instance : DecidablePred TwoSided := fun _ => inferInstanceAs (Decidable (_ ∧ _))

/-- The event is a trade below a positive midprice. -/
def SoldAt (mid : Int) (ev : LOBEvent) : Prop :=
  ev.side = .trade ∧ 0 < ev.qty ∧ 0 < mid ∧ ev.price < mid

instance (mid : Int) : DecidablePred (SoldAt mid) :=
  fun _ => inferInstanceAs (Decidable (_ ∧ _ ∧ _ ∧ _))

def withMidprice (s : SignalEngine R) (mid : Int) : SignalEngine R :=
  { s with delta := s.delta.setMidprice mid }

omit [LinearOrder R] in
/-- A midprice shows in an event only if it is a trade sold at it. -/
theorem onEvent_setMidprice {f : DeltaFactor R} (hf : f.midprice = 0) {mid : Int} {ev : LOBEvent}
    (h : ¬ SoldAt mid ev) : (f.setMidprice mid).onEvent ev = (f.onEvent ev).setMidprice mid := by
  have hrecord : ((f.advanceTime ev.timestampNs).setMidprice mid).record ev =
      ((f.advanceTime ev.timestampNs).record ev).setMidprice mid := by
    rw [record, record]
    by_cases htrade : ev.side = .trade ∧ 0 < ev.qty
    · have hbought : mid ≤ 0 ∨ mid ≤ ev.price := by
        by_contra hc
        rw [not_or, not_le, not_le] at hc
        exact h ⟨htrade.1, htrade.2, hc.1, hc.2⟩
      rw [if_pos htrade, if_pos htrade, if_pos (by exact hbought), if_pos (by exact Or.inl hf.le)]
      rfl
    · rw [if_neg htrade, if_neg htrade]
  show (((f.advanceTime ev.timestampNs).setMidprice mid).record ev).recompute = _
  rw [hrecord]
  rfl

omit [LinearOrder R] in
theorem onEvent_midprice (f : DeltaFactor R) (ev : LOBEvent) :
    (f.onEvent ev).midprice = f.midprice := by
  show ((f.advanceTime ev.timestampNs).record ev).midprice = _
  rw [record_eq]
  rfl

omit [LinearOrder R] in
theorem onEvent_reset (f : DeltaFactor R) (ev : LOBEvent) : (f.onEvent ev).reset = f.reset := by
  show (((f.advanceTime ev.timestampNs).record ev).recompute).reset = _
  rw [record_eq]
  rfl

/-- A two-sided book replaces the midprice before it is used. -/
theorem onEvent_of_twoSided (s : SignalEngine R) (mid : Int) (ev : LOBEvent) {book : OrderBook}
    (h : TwoSided book) : (withMidprice s mid).onEvent sqrt ev book = s.onEvent sqrt ev book := by
  have htrack : (withMidprice s mid).trackMidprice book.bestBid book.bestAsk =
      s.trackMidprice book.bestBid book.bestAsk := by
    rw [SignalEngine.trackMidprice, SignalEngine.trackMidprice, if_pos (by exact h),
      if_pos (by exact h)]
    rfl
  rw [SignalEngine.onEvent_eq, SignalEngine.onEvent_eq, htrack]

/-- Without a two-sided book the midprice stays, and shows only in a trade sold at it. -/
theorem onEvent_of_oneSided {s : SignalEngine R} (hs : s.delta.midprice = 0) {mid : Int}
    {ev : LOBEvent} {book : OrderBook} (hbook : ¬ TwoSided book) (hev : ¬ SoldAt mid ev) :
    (withMidprice s mid).onEvent sqrt ev book =
      (withMidprice (s.onEvent sqrt ev book).1 mid, (s.onEvent sqrt ev book).2) := by
  have hfeed : (withMidprice s mid).feed sqrt ev = withMidprice (s.feed sqrt ev) mid := by
    show { s with delta := (s.delta.setMidprice mid).onEvent ev
                  cancel := s.cancel.onEvent sqrt ev } = _
    rw [onEvent_setMidprice hs hev]
    rfl
  have htrack : ∀ s : SignalEngine R, s.trackMidprice book.bestBid book.bestAsk = s :=
    fun s => if_neg hbook
  have hdecision : (withMidprice (s.feed sqrt ev) mid).decision = (s.feed sqrt ev).decision := rfl
  rw [SignalEngine.onEvent_eq, SignalEngine.onEvent_eq, htrack, htrack, hfeed,
    SignalEngine.answer, SignalEngine.answer, hdecision]
  split <;> rfl

theorem onEvent_fed (s : SignalEngine R) (x : LOBEvent × OrderBook) :
    (engineStep sqrt s x).reset = (s.trackMidprice x.2.bestBid x.2.bestAsk).reset ∧
      (engineStep sqrt s x).delta.midprice =
        (s.trackMidprice x.2.bestBid x.2.bestAsk).delta.midprice := by
  have hfeed : ∀ s : SignalEngine R, (s.feed sqrt x.1).reset = s.reset := by
    intro s
    show { s with delta := (s.delta.onEvent x.1).reset, cancel := {}, lastSignal := {} } = _
    rw [onEvent_reset]
    rfl
  have hmid : ∀ s : SignalEngine R, (s.feed sqrt x.1).delta.midprice = s.delta.midprice :=
    fun s => onEvent_midprice s.delta x.1
  obtain ⟨sig, hsig⟩ := SignalEngine.answer_fst
    ((s.trackMidprice x.2.bestBid x.2.bestAsk).feed sqrt x.1) x.1 x.2.bestBid x.2.bestAsk
  rw [engineStep, SignalEngine.onEvent_eq, hsig]
  exact ⟨hfeed _, hmid _⟩

/-- What a reset leaves of a step is the midprice. -/
theorem reset_step (s : SignalEngine R) (x : LOBEvent × OrderBook) :
    (engineStep sqrt s x).reset =
      withMidprice s.reset (engineStep sqrt s x).delta.midprice := by
  obtain ⟨hreset, hmid⟩ := onEvent_fed sqrt s x
  rw [hreset, hmid, SignalEngine.trackMidprice]
  split <;> rfl

theorem reset_engineAfter (threshDelta minCancelZ : R) (xs : List (LOBEvent × OrderBook)) :
    (engineAfter sqrt threshDelta minCancelZ xs).reset =
      withMidprice { threshDelta, minCancelZ }
        (engineAfter sqrt threshDelta minCancelZ xs).delta.midprice := by
  rw [engineAfter]
  induction xs using List.reverseRecOn with
  | nil => rfl
  | append_singleton xs x ih =>
    rw [run_concat, reset_step, ih]
    rfl

/-- An engine that differs in its midprice only shows the same, as long as no trade is sold at
it. -/
theorem observations_withMidprice {s : SignalEngine R} (hs : s.delta.midprice = 0) {mid : Int}
    {ys : List (LOBEvent × OrderBook)}
    (h : ∀ y ∈ ys.takeWhile fun y => ¬ TwoSided y.2, ¬ SoldAt mid y.1) :
    observations sqrt (withMidprice s mid) ys = observations sqrt s ys := by
  induction ys generalizing s with
  | nil => rfl
  | cons y ys ih =>
    unfold observations at ih ⊢
    rw [outputs_cons, outputs_cons, shown, shown, engineStep, engineStep]
    by_cases hbook : TwoSided y.2
    · rw [onEvent_of_twoSided sqrt s mid y.1 hbook]
    · rw [List.takeWhile_cons_of_pos (by simpa using hbook), List.forall_mem_cons] at h
      have hnext : (s.onEvent sqrt y.1 y.2).1.delta.midprice = 0 := by
        have hmid := (onEvent_fed sqrt s y).2
        rw [SignalEngine.trackMidprice, if_neg (by exact hbook)] at hmid
        exact hmid.trans hs
      rw [onEvent_of_oneSided sqrt hs hbook h.1, ih hnext h.2]
      rfl

/-- After any history and a reset, a continuation runs as on a new engine, if before its first
two-sided book no trade comes in below the midprice left over from the history. -/
theorem startsFresh_of_noneSold (threshDelta minCancelZ : R)
    (xs ys : List (LOBEvent × OrderBook))
    (h : ∀ y ∈ ys.takeWhile fun y => ¬ TwoSided y.2,
      ¬ SoldAt (engineAfter sqrt threshDelta minCancelZ xs).delta.midprice y.1) :
    StartsFresh sqrt threshDelta minCancelZ xs ys := by
  rw [StartsFresh, reset_engineAfter]
  exact observations_withMidprice sqrt rfl h

/-- A book with a midprice of 10100. -/
def yesterday : List (LOBEvent × OrderBook) :=
  let book := (({} : OrderBook).update
      { timestampNs := 0, entryId := 1, price := 10000, qty := 5, action := .new }).update
    { timestampNs := 0, entryId := 2, price := 10200, qty := 5, action := .new, side := .offer }
  [({ timestampNs := 0, entryId := 2, price := 10200, qty := 5, action := .new, side := .offer },
    book)]

/-- A trade above that midprice, one below it, and an offer withdrawn, before any quote. -/
def today : List (LOBEvent × OrderBook) :=
  [({ timestampNs := 0, price := 10200, qty := 100, action := .new, side := .trade }, {}),
    ({ timestampNs := 10000000, price := 10000, qty := 100, action := .new, side := .trade }, {}),
    ({ timestampNs := 40000000, price := 10200, qty := 1, action := .delete, side := .offer }, {})]

theorem startsFresh_of_noneSold_quoted :
    StartsFresh Rat.sqrt 50 (3 / 2) yesterday yesterday :=
  startsFresh_of_noneSold Rat.sqrt 50 (3 / 2) yesterday yesterday (by decide +kernel)

/-- The reset engine fires on the withdrawn offer, a new one does not. -/
theorem not_startsFresh_unquoted : ¬ StartsFresh Rat.sqrt 50 (3 / 2) yesterday today := by
  intro h
  have hfired := congrArg (List.map Prod.fst) h
  revert hfired
  decide +kernel

end SmartQuant.EngineReset
