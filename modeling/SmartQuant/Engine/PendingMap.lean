import SmartQuant.Engine.BacktestLoop

/-!
# Pending signals seen through a map

The scan of the pending list reads times and moves. Where a map of signals and price points
delays the times of both alike and keeps what a move counts for, the scan of the mapped list
is the mapped scan.
-/
namespace SmartQuant.PendingMap

open LowerBound BacktestLoop

variable {R : Type*} [Field R]

/-- A map of results, of the signals that meet `P`, and of price points. -/
structure Transports (delay top : Nat) (P : PendingSignal R → Prop)
    (toR : BacktestResult R → BacktestResult R) (toP : PendingSignal R → PendingSignal R)
    (toPt : PricePoint → PricePoint) : Prop where
  early : ∀ p, P p → p.sig.triggerTimeNs ≤ top
  trigger : ∀ p, (toP p).sig.triggerTimeNs = p.sig.triggerTimeNs + delay
  tsNs : ∀ pt, (toPt pt).tsNs = pt.tsNs + delay
  count : ∀ r p pt, P p → (toR r).count (toP p) (toPt pt) = toR (r.count p pt)

variable {delay top now : Nat} {P : PendingSignal R → Prop}
  {toR : BacktestResult R → BacktestResult R} {toP : PendingSignal R → PendingSignal R}
  {toPt : PricePoint → PricePoint} {p : PendingSignal R}

theorem Transports.elapsed_iff (h : Transports delay top P toR toP toPt) (hp : P p)
    (hnow : now ≤ top) (htop : top + delay < Word64.size) :
    (toP p).Elapsed (now + delay) ↔ p.Elapsed now := by
  have hearly := h.early p hp
  have hsub : Word64.sub (now + delay) (toP p).sig.triggerTimeNs =
      Word64.sub now p.sig.triggerTimeNs := by
    rw [h.trigger]
    exact Word64.sub_add_add (by omega) (by omega)
  exact iff_of_eq (congrArg (kLookForwardNs ≤ ·) hsub)

theorem Transports.lookUp (h : Transports delay top P toR toP toPt) (hp : P p)
    (htop : top + delay + kLookForwardNs < Word64.size) (history : List PricePoint) :
    (toP p).lookUp (history.map toPt) = (p.lookUp history).map toPt := by
  have hearly := h.early p hp
  rw [PendingSignal.lookUp, PendingSignal.lookUp]
  apply lowerBound_map
  intro pt
  have hlt : p.sig.triggerTimeNs + delay + kLookForwardNs < Word64.size := by omega
  rw [h.tsNs, h.trigger]
  exact decide_eq_decide.mpr (Word64.lt_add_shift pt.tsNs hlt)

theorem Transports.evaluate (h : Transports delay top P toR toP toPt) (hnow : now ≤ top)
    (htop : top + delay + kLookForwardNs < Word64.size) (history : List PricePoint)
    (r : BacktestResult R) {ps : List (PendingSignal R)} (hps : ∀ p ∈ ps, P p) :
    evaluate (history.map toPt) (now + delay) (toR r) (ps.map toP) =
      (toR (evaluate history now r ps).1, (evaluate history now r ps).2.map toP) := by
  induction ps generalizing r with
  | nil => rfl
  | cons p ps ih =>
    obtain ⟨hp, hrest⟩ := List.forall_mem_cons.mp hps
    have helapsed := h.elapsed_iff hp hnow (by omega)
    rw [List.map_cons, BacktestLoop.evaluate, BacktestLoop.evaluate]
    by_cases hover : p.Elapsed now
    · rw [if_pos hover, if_pos (helapsed.mpr hover), h.lookUp hp htop]
      cases p.lookUp history with
      | none => exact ih r hrest
      | some pit =>
        show BacktestLoop.evaluate _ _ ((toR r).count (toP p) (toPt pit)) _ = _
        rw [h.count r p pit hp]
        exact ih _ hrest
    · rw [if_neg hover, if_neg (mt helapsed.mp hover), ih r hrest]
      rfl

variable [LinearOrder R] (sqrt : R → R)

/-- What a step fires, it fires at a price. -/
def FiresPriced (s : State R) (ev : LOBEvent) : Prop :=
  ∀ p ∈ firedAt sqrt s ev, p.entryPrice ≠ 0

instance (s : State R) (ev : LOBEvent) : Decidable (FiresPriced sqrt s ev) :=
  inferInstanceAs (Decidable (∀ p ∈ firedAt sqrt s ev, p.entryPrice ≠ 0))

theorem FiresPriced.l1Price_ne {s : State R} {ev : LOBEvent} (h : FiresPriced sqrt s ev)
    (hfires : (s.engine.onEvent sqrt ev (s.book.update ev)).2 = true) :
    (s.engine.onEvent sqrt ev (s.book.update ev)).1.lastSignal.l1Price ≠ 0 := by
  rw [FiresPriced, firedAt, if_pos hfires] at h
  exact h _ List.mem_cons_self

/-- The scan comes first; then what fires is counted and waits. -/
theorem step_eq (s : State R) (ev : LOBEvent) :
    (step sqrt s ev).result = (firedAt sqrt s ev).foldl (fun r p => r.trigger p.sig.direction)
        (BacktestLoop.evaluate (historyAt s ev) ev.timestampNs s.result s.pending).1 ∧
      (step sqrt s ev).pending =
        (BacktestLoop.evaluate (historyAt s ev) ev.timestampNs s.result s.pending).2 ++
          firedAt sqrt s ev := by
  simp only [step, firedAt]
  split
  · exact ⟨rfl, rfl⟩
  · exact ⟨rfl, (List.append_nil _).symm⟩

/-- If what is fired is mapped too, the step of the mapped state is the mapped step. -/
theorem Transports.step (h : Transports delay top P toR toP toPt) {s s' : State R}
    {ev ev' : LOBEvent} (hts : ev.timestampNs ≤ top)
    (hts' : ev'.timestampNs = ev.timestampNs + delay)
    (htop : top + delay + kLookForwardNs < Word64.size) (hresult : s'.result = toR s.result)
    (hpending : s'.pending = s.pending.map toP) (hps : ∀ p ∈ s.pending, P p)
    (hhistory : historyAt s' ev' = (historyAt s ev).map toPt)
    (hfired : firedAt sqrt s' ev' = (firedAt sqrt s ev).map toP)
    (htrigger : ∀ (r : BacktestResult R) (p : PendingSignal R),
      (toR r).trigger (toP p).sig.direction = toR (r.trigger p.sig.direction)) :
    (step sqrt s' ev').result = toR (step sqrt s ev).result ∧
      (step sqrt s' ev').pending = (step sqrt s ev).pending.map toP := by
  have hscan := h.evaluate hts htop (historyAt s ev) s.result hps
  have hfold : ∀ (ps : List (PendingSignal R)) (r : BacktestResult R),
      (ps.map toP).foldl (fun r p => r.trigger p.sig.direction) (toR r) =
        toR (ps.foldl (fun r p => r.trigger p.sig.direction) r) := by
    intro ps
    induction ps with
    | nil => exact fun _ => rfl
    | cons p ps ih =>
      intro r
      rw [List.map_cons, List.foldl_cons, List.foldl_cons, htrigger, ih]
  rw [← hhistory, ← hts', ← hresult, ← hpending] at hscan
  obtain ⟨hres, hpend⟩ := step_eq sqrt s ev
  obtain ⟨hres', hpend'⟩ := step_eq sqrt s' ev'
  rw [hres, hpend, hres', hpend', hscan, hfired, List.map_append]
  exact ⟨hfold _ _, rfl⟩

/-- What waits after a step waited before, or is what the step fired. -/
theorem pending_step {s : State R} {ev : LOBEvent} (hold : ∀ p ∈ s.pending, P p)
    (hnew : ∀ p ∈ firedAt sqrt s ev, P p) : ∀ p ∈ (step sqrt s ev).pending, P p := by
  intro p hp
  rw [step_pending] at hp
  rcases List.mem_append.mp hp with hkept | hfired
  · exact hold p (List.mem_of_mem_filter hkept)
  · exact hnew p hfired

end SmartQuant.PendingMap
