import Mathlib.Data.Rat.Sqrt
import SmartQuant.Alpha.SignalEngine
import SmartQuant.Lib.Runs

/-!
# Live signals against backtest signals

The gateway thread updates the shared book and pushes the event; the alpha thread
pops it and runs the engine on the book as it finds it, which may have moved on.
The backtest runs the engine on the book right after the event. Each thread's step
is atomic and no push is refused, so the queue is a list.
-/
namespace SmartQuant.Pipeline

open Runs

variable {R : Type*} [Field R]

/-- What an `on_event` call leaves: its result and `last_signal`. -/
abbrev Output (R : Type*) [Field R] := Bool × Signal R

structure Backtest (R : Type*) [Field R] where
  book : OrderBook := {}
  engine : SignalEngine R
  outputs : List (Output R) := []

/-- The live threads between two steps. -/
structure Live (R : Type*) [Field R] where
  todo : List LOBEvent
  /-- In the book, but not yet pushed. -/
  updated : Option LOBEvent := none
  book : OrderBook := {}
  queue : List LOBEvent := []
  /-- Off the queue, but not yet handed to the engine. -/
  popped : Option LOBEvent := none
  engine : SignalEngine R
  outputs : List (Output R) := []

inductive LiveLabel where
  | gateway
  | alpha
  deriving DecidableEq, Repr

/-- `book_.update(ev)`, then `queue_->push(ev)`. -/
def Live.gatewayStep (s : Live R) : Live R :=
  match s.updated, s.todo with
  | some ev, _ => { s with updated := none, queue := s.queue ++ [ev] }
  | none, ev :: todo => { s with todo, updated := some ev, book := s.book.update ev }
  | none, [] => s

variable [LinearOrder R] (sqrt : R → R)

/-- `book.update(ev)`, then `engine.on_event(ev, book)`. -/
def Backtest.step (b : Backtest R) (ev : LOBEvent) : Backtest R :=
  let book := b.book.update ev
  let res := b.engine.onEvent sqrt ev book
  { book, engine := res.1, outputs := b.outputs ++ [(res.2, res.1.lastSignal)] }

def backtest (engine : SignalEngine R) (evs : List LOBEvent) : Backtest R :=
  run (Backtest.step sqrt) { engine } evs

/-- `queue.pop(ev)`, then `engine.on_event(ev, book)` on the shared book. -/
def Live.alphaStep (s : Live R) : Live R :=
  match s.popped, s.queue with
  | some ev, _ =>
    let res := s.engine.onEvent sqrt ev s.book
    { s with popped := none, engine := res.1, outputs := s.outputs ++ [(res.2, res.1.lastSignal)] }
  | none, ev :: queue => { s with queue, popped := some ev }
  | none, [] => s

def Live.step (s : Live R) : LiveLabel → Live R
  | .gateway => s.gatewayStep
  | .alpha => s.alphaStep sqrt

def bookAfter (evs : List LOBEvent) (k : Nat) : OrderBook := run OrderBook.update {} (evs.take k)

/-- An `on_event` call for the `k`-th event finds the best prices the book had right after
the `k`-th update. -/
def SeesOwnQuotes (evs : List LOBEvent) (s : Live R) : LiveLabel → Prop
  | .gateway => True
  | .alpha => s.popped.isSome = true →
      s.book.bestBid = (bookAfter evs (s.outputs.length + 1)).bestBid ∧
      s.book.bestAsk = (bookAfter evs (s.outputs.length + 1)).bestAsk

instance (evs : List LOBEvent) (s : Live R) : (l : LiveLabel) → Decidable (SeesOwnQuotes evs s l)
  | .gateway => inferInstanceAs (Decidable True)
  | .alpha => inferInstanceAs (Decidable (_ → _ ∧ _))

theorem backtest_concat (engine : SignalEngine R) (evs : List LOBEvent) (ev : LOBEvent) :
    backtest sqrt engine (evs ++ [ev]) = (backtest sqrt engine evs).step sqrt ev :=
  run_concat _ evs ev

theorem backtest_book (engine : SignalEngine R) (evs : List LOBEvent) :
    (backtest sqrt engine evs).book = run OrderBook.update {} evs := by
  induction evs using List.reverseRecOn with
  | nil => rfl
  | append_singleton evs ev ih =>
    rw [backtest_concat, run_concat, ← ih]
    rfl

theorem backtest_outputs_length (engine : SignalEngine R) (evs : List LOBEvent) :
    (backtest sqrt engine evs).outputs.length = evs.length := by
  induction evs using List.reverseRecOn with
  | nil => rfl
  | append_singleton evs ev ih => simp [backtest_concat, Backtest.step, ih]

theorem backtest_outputs_isPrefix (engine : SignalEngine R) (evs rest : List LOBEvent) :
    (backtest sqrt engine evs).outputs <+: (backtest sqrt engine (evs ++ rest)).outputs := by
  induction rest using List.reverseRecOn with
  | nil => rw [List.append_nil]
  | append_singleton rest ev ih =>
    rw [← List.append_assoc, backtest_concat]
    exact ih.trans (List.prefix_append _ _)

/-- The events, in order, from those already handed to the engine to those yet to come. -/
def Live.stream (s : Live R) (handled : List LOBEvent) : List LOBEvent :=
  handled ++ s.popped.toList ++ s.queue ++ s.updated.toList ++ s.todo

/-- The live engine has handled some of the events, and stands where the backtest stands
after the same ones. -/
structure Follows (start : SignalEngine R) (evs : List LOBEvent) (s : Live R)
    (handled : List LOBEvent) : Prop where
  stream : s.stream handled = evs
  engine : s.engine = (backtest sqrt start handled).engine
  outputs : s.outputs = (backtest sqrt start handled).outputs

variable {sqrt} {start : SignalEngine R} {evs : List LOBEvent} {s : Live R}
  {handled : List LOBEvent}

theorem Follows.gatewayStep (h : Follows sqrt start evs s handled) :
    Follows sqrt start evs s.gatewayStep handled := by
  rw [Live.gatewayStep]
  split
  · rename_i ev hup
    refine ⟨?_, h.engine, h.outputs⟩
    rw [← h.stream]
    simp [Live.stream, hup]
  · rename_i ev todo hup htodo
    refine ⟨?_, h.engine, h.outputs⟩
    rw [← h.stream]
    simp [Live.stream, hup, htodo]
  · exact h

/-- The engine takes the next event; on its own quotes it does what the backtest does. -/
theorem Follows.alphaStep (h : Follows sqrt start evs s handled)
    (hq : SeesOwnQuotes evs s .alpha) :
    ∃ handled', Follows sqrt start evs (s.alphaStep sqrt) handled' := by
  rw [Live.alphaStep]
  split
  · rename_i ev hpop
    obtain ⟨hbid, hask⟩ := hq (by rw [hpop]; rfl)
    have hbook : bookAfter evs (s.outputs.length + 1) =
        (backtest sqrt start handled).book.update ev := by
      have htake : evs.take (handled.length + 1) = handled ++ [ev] := by
        rw [← h.stream, Live.stream, hpop]
        simp [List.take_append]
      rw [h.outputs, backtest_outputs_length, bookAfter, htake, run_concat, backtest_book]
    rw [hbook] at hbid hask
    have hsame := SignalEngine.onEvent_congr sqrt s.engine ev hbid hask
    refine ⟨handled ++ [ev], ?_, ?_, ?_⟩
    · rw [← h.stream]
      simp [Live.stream, hpop]
    · rw [backtest_concat, hsame, h.engine]
      rfl
    · rw [backtest_concat, hsame, h.engine, h.outputs]
      rfl
  · rename_i ev queue hpop hqueue
    refine ⟨handled, ?_, h.engine, h.outputs⟩
    rw [← h.stream]
    simp [Live.stream, hpop, hqueue]
  · exact ⟨handled, h⟩

variable (sqrt) in
/-- In every schedule whose `on_event` calls find the best prices of their own event, the
live outputs are those of the backtest, call by call. -/
theorem outputs_prefix_backtest (engine : SignalEngine R) (evs : List LOBEvent)
    (ls : List LiveLabel)
    (hquotes : Along (Live.step sqrt) (SeesOwnQuotes evs) { todo := evs, engine } ls) :
    (run (Live.step sqrt) { todo := evs, engine } ls).outputs <+:
      (backtest sqrt engine evs).outputs := by
  have hinit : ∃ handled, Follows sqrt engine evs { todo := evs, engine } handled :=
    ⟨[], rfl, rfl, rfl⟩
  have hstep : ∀ (s : Live R) l, (∃ handled, Follows sqrt engine evs s handled) →
      SeesOwnQuotes evs s l → ∃ handled, Follows sqrt engine evs (s.step sqrt l) handled := by
    intro s l hsim hq
    obtain ⟨handled, h⟩ := hsim
    cases l with
    | gateway => exact ⟨handled, h.gatewayStep⟩
    | alpha => exact h.alphaStep hq
  obtain ⟨handled, h⟩ := always_iff_forall_run.mp (always_of_along hstep hinit hquotes) ls
    (List.prefix_refl ls)
  rw [h.outputs]
  conv_rhs => rw [← h.stream]
  simp only [Live.stream, List.append_assoc]
  exact backtest_outputs_isPrefix sqrt engine handled _

/-- Two quotes, a trade at each, and the offer withdrawn 40 ms later. -/
def collapse : List LOBEvent :=
  [{ timestampNs := 0, entryId := 1, price := 10000, qty := 1, action := .new, side := .bid },
    { timestampNs := 0, entryId := 2, price := 10200, qty := 1, action := .new, side := .offer },
    { timestampNs := 0, entryId := 3, price := 10200, qty := 100, action := .new, side := .trade },
    { timestampNs := 10000000, entryId := 4, price := 10000, qty := 100, action := .new,
      side := .trade },
    { timestampNs := 40000000, entryId := 2, price := 10200, qty := 1, action := .delete,
      side := .offer }]

def lockstep : List LiveLabel :=
  (List.replicate 5 [LiveLabel.gateway, .gateway, .alpha, .alpha]).flatten

theorem outputs_prefix_backtest_lockstep :
    (run (Live.step Rat.sqrt) { todo := collapse, engine := {} } lockstep).outputs <+:
      (backtest Rat.sqrt {} collapse).outputs :=
  outputs_prefix_backtest Rat.sqrt {} collapse lockstep (by decide +kernel)

def lagging : List LiveLabel := List.replicate 10 .gateway ++ List.replicate 10 .alpha

/-- The backtest fires on the withdrawn offer. The lagging engine never has a two-sided book
to take a midprice from, and does not fire. -/
theorem not_outputs_prefix_backtest_lagging :
    ¬ (run (Live.step Rat.sqrt) { todo := collapse, engine := {} } lagging).outputs <+:
      (backtest Rat.sqrt {} collapse).outputs := by
  intro h
  have hfired := h.map Prod.fst
  revert hfired
  decide +kernel

end SmartQuant.Pipeline
