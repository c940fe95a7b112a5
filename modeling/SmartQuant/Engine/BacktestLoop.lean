import SmartQuant.Engine.Pipeline
import SmartQuant.Lib.LowerBound

/-!
# The backtest loop

One pass over a log. Each event goes into the book, a two-sided book becomes a price
point, the pending signals whose five seconds are over are evaluated against the points
so far, and then both engines take the event. A signal whose look-up finds no point
leaves the pending list all the same.
-/
namespace SmartQuant.BacktestLoop

open Runs LowerBound

variable {R : Type*} [Field R]

structure BacktestResult (R : Type*) [Zero R] where
  totalSignals : Nat := 0
  buySignals : Nat := 0
  sellSignals : Nat := 0
  wins : Nat := 0
  losses : Nat := 0
  sfWins : Nat := 0
  sfTotal : Nat := 0
  totalMoveTicks : R := 0

structure PendingSignal (R : Type*) [Zero R] where
  sig : Signal R
  /-- The L1 price at signal time. -/
  entryPrice : Int
  sfFired : Bool := false

structure PricePoint where
  tsNs : Nat
  bid : Int
  ask : Int
  deriving DecidableEq, Repr

def kLookForwardNs : Nat := 5000000000

/-- The book, if it is two-sided, as a point of the price history. -/
def pricePoint (ev : LOBEvent) (book : OrderBook) : Option PricePoint :=
  if 0 < book.bestBid ∧ 0 < book.bestAsk then
    some { tsNs := ev.timestampNs, bid := book.bestBid, ask := book.bestAsk }
  else none

namespace PendingSignal

/-- How far the price has moved in the predicted direction. -/
def move (p : PendingSignal R) (pit : PricePoint) : Int :=
  if p.sig.direction = .buy then pit.ask - p.entryPrice else p.entryPrice - pit.bid

/-- The window has elapsed; the difference is one of `uint64_t`. -/
def Elapsed (nowNs : Nat) (p : PendingSignal R) : Prop :=
  kLookForwardNs ≤ Word64.sub nowNs p.sig.triggerTimeNs

instance (nowNs : Nat) : DecidablePred (Elapsed nowNs : PendingSignal R → Prop) :=
  fun _ => inferInstanceAs (Decidable (_ ≤ _))

/-- The first point of the history at or behind the end of the window. -/
def lookUp (history : List PricePoint) (p : PendingSignal R) : Option PricePoint :=
  lowerBound (fun pt => pt.tsNs < Word64.add p.sig.triggerTimeNs kLookForwardNs) history

end PendingSignal

namespace BacktestResult

def count (r : BacktestResult R) (p : PendingSignal R) (pit : PricePoint) : BacktestResult R :=
  let win : Bool := kPriceScale ≤ p.move pit
  { r with
    totalMoveTicks := r.totalMoveTicks + (p.move pit : R) / (kPriceScale : R)
    wins := if win then r.wins + 1 else r.wins
    losses := if win then r.losses else r.losses + 1
    sfTotal := if p.sfFired then r.sfTotal + 1 else r.sfTotal
    sfWins := if p.sfFired && win then r.sfWins + 1 else r.sfWins }

def trigger (r : BacktestResult R) (dir : Direction) : BacktestResult R :=
  { r with
    totalSignals := r.totalSignals + 1
    buySignals := if dir = .buy then r.buySignals + 1 else r.buySignals
    sellSignals := if dir = .sell then r.sellSignals + 1 else r.sellSignals }

end BacktestResult

/-- The scan of the pending list: what has elapsed is erased, and counted if a point is found. -/
def evaluate (history : List PricePoint) (nowNs : Nat) : BacktestResult R →
    List (PendingSignal R) → BacktestResult R × List (PendingSignal R)
  | r, [] => (r, [])
  | r, p :: ps =>
    if p.Elapsed nowNs then
      match p.lookUp history with
      | some pit => evaluate history nowNs (r.count p pit) ps
      | none => evaluate history nowNs r ps
    else
      let rest := evaluate history nowNs r ps
      (rest.1, p :: rest.2)

structure State (R : Type*) [Field R] where
  book : OrderBook := {}
  engine : SignalEngine R
  sfEngine : SignalEngine R
  result : BacktestResult R := {}
  pending : List (PendingSignal R) := []
  priceHistory : List PricePoint := []

/-- Both engines get the threshold; the single-factor one a cancel threshold out of reach. -/
def initial (threshDelta : R) : State R :=
  { engine := .ofThreshold threshDelta
    sfEngine := { threshDelta, minCancelZ := ((1000000000 : ℕ) : R) } }

variable [LinearOrder R] (sqrt : R → R)

def step (s : State R) (ev : LOBEvent) : State R :=
  let book := s.book.update ev
  let priceHistory := s.priceHistory ++ (pricePoint ev book).toList
  let evaluated := evaluate priceHistory ev.timestampNs s.result s.pending
  let res := s.engine.onEvent sqrt ev book
  let sfRes := s.sfEngine.onEvent sqrt ev book
  let sig := res.1.lastSignal
  { book, priceHistory, engine := res.1, sfEngine := sfRes.1
    result := if res.2 then evaluated.1.trigger sig.direction else evaluated.1
    pending := if res.2 then
        evaluated.2 ++ [{ sig, entryPrice := sig.l1Price, sfFired := sfRes.2 }]
      else evaluated.2 }

/-- The signals a scan counts, each with its point. -/
def counted (history : List PricePoint) (nowNs : Nat) (ps : List (PendingSignal R)) :
    List (PendingSignal R × PricePoint) :=
  (ps.filter fun p => p.Elapsed nowNs).filterMap fun p =>
    (p.lookUp history).map fun pit => (p, pit)

omit [LinearOrder R] in
theorem evaluate_eq (history : List PricePoint) (nowNs : Nat) (r : BacktestResult R)
    (ps : List (PendingSignal R)) : evaluate history nowNs r ps =
      ((counted history nowNs ps).foldl (fun r c => r.count c.1 c.2) r,
        ps.filter fun p => ¬ p.Elapsed nowNs) := by
  induction ps generalizing r with
  | nil => simp [evaluate, counted]
  | cons p ps ih =>
    unfold counted at ih ⊢
    rw [evaluate]
    by_cases h : p.Elapsed nowNs
    · rw [if_pos h, List.filter_cons_of_pos (by simp [h]), List.filter_cons_of_neg (by simp [h])]
      cases hpit : p.lookUp history with
      | none => simpa [hpit] using ih r
      | some pit => simpa [hpit] using ih (r.count p pit)
    · rw [if_neg h, List.filter_cons_of_neg (by simp [h]), List.filter_cons_of_pos (by simp [h]),
        ih]

/-- The price history a step searches. -/
def historyAt (s : State R) (ev : LOBEvent) : List PricePoint :=
  s.priceHistory ++ (pricePoint ev (s.book.update ev)).toList

/-- What a step counts. -/
def countedAt (s : State R) (ev : LOBEvent) : List (PendingSignal R × PricePoint) :=
  counted (historyAt s ev) ev.timestampNs s.pending

/-- The signal a step fires, if any. -/
def firedAt (s : State R) (ev : LOBEvent) : List (PendingSignal R) :=
  let res := s.engine.onEvent sqrt ev (s.book.update ev)
  if res.2 then
    [{ sig := res.1.lastSignal, entryPrice := res.1.lastSignal.l1Price
       sfFired := (s.sfEngine.onEvent sqrt ev (s.book.update ev)).2 }]
  else []

/-- The pending signals a step gives up: elapsed, but without a point. -/
def droppedAt (s : State R) (ev : LOBEvent) : Nat :=
  (s.pending.filter fun p => p.Elapsed ev.timestampNs).countP fun p =>
    p.lookUp (historyAt s ev) = none

omit [LinearOrder R] in
theorem mem_pending_of_countedAt {s : State R} {ev : LOBEvent} {c : PendingSignal R × PricePoint}
    (h : c ∈ countedAt s ev) : c.1 ∈ s.pending := by
  obtain ⟨p, hp, hmap⟩ := List.mem_filterMap.mp h
  obtain ⟨pit, -, rfl⟩ := Option.map_eq_some_iff.mp hmap
  exact List.mem_of_mem_filter hp

def won (c : PendingSignal R × PricePoint) : Bool := kPriceScale ≤ c.1.move c.2

omit [LinearOrder R] in
theorem foldl_count (cs : List (PendingSignal R × PricePoint)) (r : BacktestResult R) :
    let r' := cs.foldl (fun r c => r.count c.1 c.2) r
    r'.totalSignals = r.totalSignals ∧ r'.wins = r.wins + cs.countP won ∧
      r'.losses = r.losses + cs.countP (fun c => !won c) ∧
      r'.totalMoveTicks =
        r.totalMoveTicks + (cs.map fun c => (c.1.move c.2 : R) / (kPriceScale : R)).sum := by
  induction cs generalizing r with
  | nil => simp
  | cons c cs ih =>
    obtain ⟨htotal, hwins, hlosses, hmoved⟩ := ih (r.count c.1 c.2)
    refine ⟨htotal, ?_, ?_, ?_⟩
    · rw [List.foldl_cons, hwins, List.countP_cons]
      by_cases hw : kPriceScale ≤ c.1.move c.2
      · simp [BacktestResult.count, won, hw]
        omega
      · simp [BacktestResult.count, won, hw]
    · rw [List.foldl_cons, hlosses, List.countP_cons]
      by_cases hw : kPriceScale ≤ c.1.move c.2
      · simp [BacktestResult.count, won, hw]
      · simp [BacktestResult.count, won, hw]
        omega
    · rw [List.foldl_cons, hmoved, List.map_cons, List.sum_cons, BacktestResult.count, add_assoc]

theorem step_pending (s : State R) (ev : LOBEvent) : (step sqrt s ev).pending =
    (s.pending.filter fun p => ¬ p.Elapsed ev.timestampNs) ++ firedAt sqrt s ev := by
  simp only [step, firedAt, evaluate_eq]
  split
  · rfl
  · rw [List.append_nil]

/-- The sums of the result grow by what the step counts and fires. -/
theorem step_result (s : State R) (ev : LOBEvent) :
    (step sqrt s ev).result.totalSignals =
        s.result.totalSignals + (firedAt sqrt s ev).length ∧
      (step sqrt s ev).result.wins = s.result.wins + (countedAt s ev).countP won ∧
      (step sqrt s ev).result.losses =
        s.result.losses + (countedAt s ev).countP (fun c => !won c) ∧
      (step sqrt s ev).result.totalMoveTicks = s.result.totalMoveTicks +
        ((countedAt s ev).map fun c => (c.1.move c.2 : R) / (kPriceScale : R)).sum := by
  obtain ⟨htotal, hrest⟩ := foldl_count (countedAt s ev) s.result
  simp only [step, firedAt, evaluate_eq]
  split
  · exact ⟨congrArg (· + 1) htotal, hrest⟩
  · exact ⟨htotal, hrest⟩

omit [LinearOrder R] in
/-- An elapsed signal is counted or given up, the others stay. -/
theorem length_pending (s : State R) (ev : LOBEvent) :
    s.pending.length = (countedAt s ev).length + droppedAt s ev +
      (s.pending.filter fun p => ¬ p.Elapsed ev.timestampNs).length := by
  have hsplit : s.pending.length =
      (s.pending.filter fun p => p.Elapsed ev.timestampNs).length +
        (s.pending.filter fun p => ¬ p.Elapsed ev.timestampNs).length := by
    rw [← List.countP_eq_length_filter, ← List.countP_eq_length_filter]
    simpa using List.length_eq_countP_add_countP _
  have hfound : ∀ ps : List (PendingSignal R), ps.length =
      ps.countP (fun p => (p.lookUp (historyAt s ev)).isSome) +
        ps.countP (fun p => p.lookUp (historyAt s ev) = none) := by
    intro ps
    simpa using List.length_eq_countP_add_countP fun p : PendingSignal R =>
      (p.lookUp (historyAt s ev)).isSome
  rw [countedAt, counted, droppedAt, List.length_filterMap_eq_countP]
  simp only [Option.isSome_map]
  rw [← hfound, hsplit]

theorem mem_firedAt {s : State R} {ev : LOBEvent} {p : PendingSignal R}
    (h : p ∈ firedAt sqrt s ev) :
    p.entryPrice = p.sig.l1Price ∧ p.sig.triggerTimeNs = ev.timestampNs := by
  unfold firedAt at h
  simp only at h
  split at h
  · rw [List.mem_singleton] at h
    subst h
    exact ⟨rfl, SignalEngine.triggerTime_of_fired sqrt ‹_›⟩
  · cases h

theorem firedAt_pairwise (s : State R) (ev : LOBEvent)
    (r : PendingSignal R → PendingSignal R → Prop) : (firedAt sqrt s ev).Pairwise r := by
  unfold firedAt
  simp only
  split
  · exact List.pairwise_singleton _ _
  · exact List.Pairwise.nil

end SmartQuant.BacktestLoop
