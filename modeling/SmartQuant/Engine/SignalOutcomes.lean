import SmartQuant.Engine.PendingWindows

/-!
# The backtest's outcomes against an off-line evaluation

Off line, a signal's outcome is the first two-sided moment of the log at or behind the
end of its window. The loop agrees, signal by signal, exactly when no window elapses at
an event that leaves the book one-sided.
-/
namespace SmartQuant.SignalOutcomes

open Runs Pipeline BacktestLoop LowerBound PendingWindows

variable {R : Type*} [Field R]

/-- The moment after an event, if neither side of the book is empty. -/
def momentAt (book : OrderBook) (ev : LOBEvent) : List PricePoint :=
  let book := book.update ev
  if 0 < book.bidDepth ∧ 0 < book.askDepth then
    [{ tsNs := ev.timestampNs, bid := book.bestBid, ask := book.bestAsk }]
  else []

def moments (evs : List LOBEvent) : List PricePoint := outputs OrderBook.update momentAt {} evs

def outcome (evs : List LOBEvent) (sig : Signal R) : Option PricePoint :=
  (moments evs).find? fun pt => sig.triggerTimeNs + kLookForwardNs ≤ pt.tsNs

/-- The move from the signal's own L1 price, in the predicted direction. -/
def moveOf (c : Signal R × PricePoint) : Int :=
  if c.1.direction = .buy then c.2.ask - c.1.l1Price else c.1.l1Price - c.2.bid

def isWin (c : Signal R × PricePoint) : Bool := kPriceScale ≤ moveOf c

variable [LinearOrder R] (sqrt : R → R)

/-- The signals of a log, in the order they fire. -/
def signals (threshDelta : R) (evs : List LOBEvent) : List (Signal R) :=
  (backtest sqrt (.ofThreshold threshDelta) evs).outputs.filterMap fun o =>
    if o.1 then some o.2 else none

/-- The signals with an outcome, each with its own. -/
def offline (threshDelta : R) (evs : List LOBEvent) : List (Signal R × PricePoint) :=
  (signals sqrt threshDelta evs).filterMap fun sig => (outcome evs sig).map fun pt => (sig, pt)

/-- The signals the loop counts, each with the point it is counted at. -/
def countedBy (threshDelta : R) (evs : List LOBEvent) : List (Signal R × PricePoint) :=
  outputs (step sqrt) (fun s ev => (countedAt s ev).map fun c => (c.1.sig, c.2))
    (initial threshDelta) evs

/-- Every signal is counted or pending, and those are counted, once each and in order, that
have an outcome off line, with that outcome. -/
structure EvaluatesOnce (threshDelta : R) (evs : List LOBEvent) : Prop where
  all : (loop sqrt threshDelta evs).result.wins + (loop sqrt threshDelta evs).result.losses +
    (loop sqrt threshDelta evs).pending.length = (loop sqrt threshDelta evs).result.totalSignals
  counted : countedBy sqrt threshDelta evs = offline sqrt threshDelta evs
  wins : (loop sqrt threshDelta evs).result.wins = (offline sqrt threshDelta evs).countP isWin
  losses : (loop sqrt threshDelta evs).result.losses =
    (offline sqrt threshDelta evs).countP fun c => !isWin c
  moved : (loop sqrt threshDelta evs).result.totalMoveTicks =
    ((offline sqrt threshDelta evs).map fun c => (moveOf c : R) / (kPriceScale : R)).sum

theorem moments_concat (evs : List LOBEvent) (ev : LOBEvent) :
    moments (evs ++ [ev]) = moments evs ++ momentAt (run OrderBook.update {} evs) ev := by
  unfold moments
  rw [outputs_append, outputs_cons, outputs_nil, List.append_nil]

theorem mem_moments {evs : List LOBEvent} {pt : PricePoint} (h : pt ∈ moments evs) :
    ∃ e ∈ evs, pt.tsNs = e.timestampNs := by
  obtain ⟨b, e, he, hpt⟩ := mem_outputs h
  refine ⟨e, he, ?_⟩
  unfold momentAt at hpt
  simp only at hpt
  split at hpt
  · rw [List.mem_singleton.mp hpt]
  · cases hpt

omit [LinearOrder R] in
/-- While its window is running, a signal has no outcome. -/
theorem outcome_of_running {evs : List LOBEvent} {sig : Signal R}
    (h : ∀ e ∈ evs, e.timestampNs < sig.triggerTimeNs + kLookForwardNs) :
    outcome evs sig = none := by
  refine List.find?_eq_none.mpr fun pt hpt hle => ?_
  obtain ⟨e, he, hts⟩ := mem_moments hpt
  have hlt := h e he
  rw [← hts] at hlt
  exact absurd (of_decide_eq_true hle) (Nat.not_le.mpr hlt)

theorem depth_of_best {b : OrderBook} (hbid : 0 < b.bestBid) (hask : 0 < b.bestAsk) :
    0 < b.bidDepth ∧ 0 < b.askDepth := by
  rw [OrderBook.bestBid] at hbid
  rw [OrderBook.bestAsk] at hask
  rw [OrderBook.bidDepth, OrderBook.askDepth]
  rw [← Std.ExtTreeMap.length_keys, ← Std.ExtTreeMap.length_keys]
  constructor
  · cases hkeys : b.bids.keys with
    | nil => simp [hkeys] at hbid
    | cons => exact Nat.zero_lt_succ _
  · cases hkeys : b.asks.keys with
    | nil => simp [hkeys] at hask
    | cons => exact Nat.zero_lt_succ _

theorem momentAt_of_pricePoint {b : OrderBook} {ev : LOBEvent} {pt : PricePoint}
    (h : pricePoint ev (b.update ev) = some pt) : momentAt b ev = [pt] := by
  rw [pricePoint] at h
  split at h
  · rename_i hbest
    cases h
    exact if_pos (depth_of_best hbest.1 hbest.2)
  · cases h

theorem loop_book (threshDelta : R) (evs : List LOBEvent) :
    (loop sqrt threshDelta evs).book = run OrderBook.update {} evs := by
  induction evs using List.reverseRecOn with
  | nil => rfl
  | append_singleton evs ev ih =>
    rw [loop_concat, run_concat, ← ih]
    rfl

theorem loop_engine (threshDelta : R) (evs : List LOBEvent) :
    (loop sqrt threshDelta evs).engine = (backtest sqrt (.ofThreshold threshDelta) evs).engine := by
  induction evs using List.reverseRecOn with
  | nil => rfl
  | append_singleton evs ev ih =>
    have hstep : ((loop sqrt threshDelta evs).engine.onEvent sqrt ev
          ((loop sqrt threshDelta evs).book.update ev)).1 =
        ((backtest sqrt (.ofThreshold threshDelta) evs).step sqrt ev).engine := by
      rw [ih, loop_book, ← backtest_book sqrt (.ofThreshold threshDelta)]
      rfl
    rw [loop_concat, backtest_concat, ← hstep]
    rfl

theorem signals_concat (threshDelta : R) (evs : List LOBEvent) (ev : LOBEvent) :
    signals sqrt threshDelta (evs ++ [ev]) = signals sqrt threshDelta evs ++
      (firedAt sqrt (loop sqrt threshDelta evs) ev).map PendingSignal.sig := by
  unfold signals firedAt
  rw [backtest_concat, loop_engine, loop_book, ← backtest_book sqrt (.ofThreshold threshDelta)]
  simp only [Backtest.step, List.filterMap_append]
  split <;> simp_all

theorem countedBy_concat (threshDelta : R) (evs : List LOBEvent) (ev : LOBEvent) :
    countedBy sqrt threshDelta (evs ++ [ev]) = countedBy sqrt threshDelta evs ++
      (countedAt (loop sqrt threshDelta evs) ev).map fun c => (c.1.sig, c.2) := by
  rw [countedBy, outputs_append, outputs_cons, outputs_nil, List.append_nil]
  rfl

section Step

variable {evs : List LOBEvent} {ev : LOBEvent} {s : State R}

omit [LinearOrder R] in
/-- Where no signal is given up, the elapsed signals are counted and the others stay. -/
theorem countedAt_append_pending (ho : LogOrder (evs ++ [ev])) (h : Windowed evs s)
    (htwo : ElapsesTwoSided s ev) :
    ((countedAt s ev).map fun c => c.1) ++
      (s.pending.filter fun p => ¬ p.Elapsed ev.timestampNs) = s.pending := by
  have helapsed : ((countedAt s ev).map fun c => c.1) =
      s.pending.filter fun p => p.Elapsed ev.timestampNs := by
    rw [countedAt_eq ho h]
    cases hpt : pricePoint ev (s.book.update ev) with
    | some pt => simp [Function.comp_def]
    | none =>
      have hrun := htwo.resolve_left (by simp [hpt])
      have hnil : (s.pending.filter fun p => p.Elapsed ev.timestampNs) = [] := by
        rw [List.filter_eq_nil_iff]
        intro p hp
        simpa using hrun p hp
      rw [hnil]
      rfl
  obtain ⟨-, hle, hword⟩ := ho.concat
  have hbefore : ∀ p ∈ s.pending, p.sig.triggerTimeNs ≤ ev.timestampNs := by
    intro p hp
    obtain ⟨e, he, hts⟩ := h.fired p hp
    rw [hts]
    exact hle e he
  rw [helapsed]
  simp only [decide_not]
  refine filter_append_filter_not (h.inOrder.imp_of_mem fun {p q} hp hq hpq hq' => ?_)
  have hq' := (elapsed_iff (hbefore q hq) hword).mp (by simpa using hq')
  have hp' := (elapsed_iff (hbefore p hp) hword).mpr (by omega)
  simpa using hp'

omit [LinearOrder R] in
/-- What a step counts has its outcome at the event at hand. -/
theorem outcome_of_countedAt (ho : LogOrder (evs ++ [ev])) (h : Windowed evs s)
    (hbook : s.book = run OrderBook.update {} evs) {c : PendingSignal R × PricePoint}
    (hc : c ∈ countedAt s ev) : outcome (evs ++ [ev]) c.1.sig = some c.2 := by
  obtain ⟨hp, hend, hpt⟩ := pricePoint_of_countedAt ho h hc
  have hnone : outcome evs c.1.sig = none := outcome_of_running (h.running c.1 hp)
  rw [hbook] at hpt
  unfold outcome at hnone ⊢
  rw [moments_concat, List.find?_append, hnone, Option.none_or, momentAt_of_pricePoint hpt,
    List.find?_singleton, if_pos]
  rw [tsNs_of_pricePoint hpt]
  exact decide_eq_true hend

end Step

omit [LinearOrder R] in
theorem outcome_concat {evs : List LOBEvent} {sig : Signal R} {pt : PricePoint}
    (h : outcome evs sig = some pt) (ev : LOBEvent) : outcome (evs ++ [ev]) sig = some pt := by
  unfold outcome at h ⊢
  rw [moments_concat, List.find?_append, h, Option.some_or]

variable {evs : List LOBEvent} (threshDelta : R)

/-- Where no signal is given up, the signals are those counted and those pending, and what is
counted is counted at its outcome. -/
theorem countedBy_agrees (ho : LogOrder evs)
    (htwo : Along (step sqrt) ElapsesTwoSided (initial threshDelta) evs) :
    (countedBy sqrt threshDelta evs).map Prod.fst ++
        (loop sqrt threshDelta evs).pending.map PendingSignal.sig =
      signals sqrt threshDelta evs ∧
    ∀ c ∈ countedBy sqrt threshDelta evs, outcome evs c.1 = some c.2 := by
  induction evs using List.reverseRecOn with
  | nil => exact ⟨rfl, by simp [countedBy]⟩
  | append_singleton evs ev ih =>
    obtain ⟨hevs, hev, -⟩ := along_append.mp htwo
    obtain ⟨hsignals, hcounted⟩ := ih ho.concat.1 hevs
    have hwindow := windowed_loop sqrt threshDelta ho.concat.1
    have hbook := loop_book sqrt threshDelta evs
    constructor
    · have hpending := congrArg (List.map PendingSignal.sig)
        (countedAt_append_pending ho hwindow hev)
      rw [List.map_append, List.map_map] at hpending
      rw [signals_concat, ← hsignals, countedBy_concat, loop_concat, step_pending, List.map_append,
        List.map_append, List.map_map, ← hpending]
      simp only [List.append_assoc]
      rfl
    · intro c hc
      rw [countedBy_concat, List.mem_append, List.mem_map] at hc
      rcases hc with hc | ⟨c', hc', rfl⟩
      · exact outcome_concat (hcounted c hc) ev
      · exact outcome_of_countedAt ho hwindow hbook hc'

theorem countedBy_eq_offline (ho : LogOrder evs)
    (htwo : Along (step sqrt) ElapsesTwoSided (initial threshDelta) evs) :
    countedBy sqrt threshDelta evs = offline sqrt threshDelta evs := by
  obtain ⟨hsignals, hcounted⟩ := countedBy_agrees sqrt threshDelta ho htwo
  have hwindow := windowed_loop sqrt threshDelta ho
  have hfirst : ((countedBy sqrt threshDelta evs).map Prod.fst).filterMap
      (fun sig => (outcome evs sig).map fun pt => (sig, pt)) = countedBy sqrt threshDelta evs := by
    rw [List.filterMap_map]
    refine (List.filterMap_congr fun c hc => ?_).trans List.filterMap_some
    simp [hcounted c hc]
  have hrest : ((loop sqrt threshDelta evs).pending.map PendingSignal.sig).filterMap
      (fun sig => (outcome evs sig).map fun pt => (sig, pt)) = [] := by
    rw [List.filterMap_map, List.filterMap_eq_nil_iff]
    intro p hp
    simp [outcome_of_running (hwindow.running p hp)]
  rw [offline, ← hsignals, List.filterMap_append, hfirst, hrest, List.append_nil]

/-- The sums of the result are those over the signals counted. -/
theorem result_countedBy (ho : LogOrder evs) :
    (loop sqrt threshDelta evs).result.wins = (countedBy sqrt threshDelta evs).countP isWin ∧
      (loop sqrt threshDelta evs).result.losses =
        (countedBy sqrt threshDelta evs).countP (fun c => !isWin c) ∧
      (loop sqrt threshDelta evs).result.totalMoveTicks =
        ((countedBy sqrt threshDelta evs).map fun c => (moveOf c : R) / (kPriceScale : R)).sum := by
  induction evs using List.reverseRecOn with
  | nil => exact ⟨rfl, rfl, rfl⟩
  | append_singleton evs ev ih =>
    obtain ⟨hwins, hlosses, hmoved⟩ := ih ho.concat.1
    obtain ⟨-, hwins', hlosses', hmoved'⟩ := step_result sqrt (loop sqrt threshDelta evs) ev
    have hmove : ∀ c ∈ countedAt (loop sqrt threshDelta evs) ev,
        c.1.move c.2 = moveOf (c.1.sig, c.2) := by
      intro c hc
      have hentry := (windowed_loop sqrt threshDelta ho.concat.1).entry c.1
        (mem_pending_of_countedAt hc)
      rw [PendingSignal.move, moveOf, hentry]
    rw [loop_concat, countedBy_concat, hwins', hlosses', hmoved', hwins, hlosses, hmoved]
    simp only [List.countP_append, List.countP_map, List.map_append, List.map_map, List.sum_append]
    refine ⟨?_, ?_, ?_⟩
    · congr 1
      apply List.countP_congr
      intro c hc
      simp [won, isWin, hmove c hc]
    · congr 1
      apply List.countP_congr
      intro c hc
      simp [won, isWin, hmove c hc]
    · congr 2
      apply List.map_congr_left
      intro c hc
      simp [hmove c hc]

/-- For every log in time order: the loop counts every signal with an off-line outcome, once
and at that outcome, and counts or keeps every signal, exactly when no window elapses at an
event after which the book lacks a positive bid or ask. -/
theorem evaluatesOnce_iff (ho : LogOrder evs) : EvaluatesOnce sqrt threshDelta evs ↔
    Along (step sqrt) ElapsesTwoSided (initial threshDelta) evs := by
  constructor
  · intro h
    exact (all_iff_elapsesTwoSided sqrt threshDelta ho).mp h.all
  · intro h
    have hall := (all_iff_elapsesTwoSided sqrt threshDelta ho).mpr h
    have hcounted := countedBy_eq_offline sqrt threshDelta ho h
    obtain ⟨hwins, hlosses, hmoved⟩ := result_countedBy sqrt threshDelta ho
    rw [hcounted] at hwins hlosses hmoved
    exact ⟨hall, hcounted, hwins, hlosses, hmoved⟩

def quoteAt (tsNs id : Nat) (side : MDEntryType) : LOBEvent :=
  { timestampNs := tsNs, entryId := id, price := 10100, qty := 1, action := .new, side }

/-- The offer comes back before the window of the signal is over. -/
def restored : List LOBEvent :=
  collapse ++ [quoteAt 50000000 5 .offer, quoteAt 5040000000 6 .bid]

theorem logOrder_restored : LogOrder restored := ⟨by decide, by decide⟩

theorem evaluatesOnce_iff_restored : EvaluatesOnce Rat.sqrt (50 : ℚ) restored :=
  (evaluatesOnce_iff Rat.sqrt 50 logOrder_restored).mpr (by decide +kernel)

/-- The offer does not come back before that. -/
def oneSided : List LOBEvent :=
  collapse ++ [quoteAt 5040000000 6 .bid, quoteAt 5050000000 5 .offer]

/-- The signal of 40 ms is given up at 5.04 s, although the book is two-sided at 5.05 s. -/
theorem not_evaluatesOnce_oneSided : ¬ EvaluatesOnce Rat.sqrt (50 : ℚ) oneSided := by
  intro h
  have hall := (all_iff_elapsesTwoSided Rat.sqrt 50 ⟨by decide, by decide⟩).mp h.all
  revert hall
  decide +kernel

end SmartQuant.SignalOutcomes
