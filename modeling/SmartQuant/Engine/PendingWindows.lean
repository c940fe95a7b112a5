import SmartQuant.Engine.BacktestLoop

/-!
# The windows of the pending signals

The loop looks for a signal's outcome once, at the first event as old as the end of its
window. If the book is one-sided just then, the look-up finds nothing and the signal is
given up. The loop's own sums add up exactly when that never happens.
-/
namespace SmartQuant.PendingWindows

open Runs BacktestLoop LowerBound

variable {R : Type*} [Field R]

/-- The records of a log: times are 64-bit words and do not decrease. -/
structure LogOrder (evs : List LOBEvent) : Prop where
  sorted : evs.Pairwise fun a b => a.timestampNs ≤ b.timestampNs
  word : ∀ ev ∈ evs, ev.timestampNs < Word64.size

variable [LinearOrder R] (sqrt : R → R)

def loop (threshDelta : R) (evs : List LOBEvent) : State R :=
  run (step sqrt) (initial threshDelta) evs

/-- The book has two positive best prices after the event, or no pending window is over. -/
def ElapsesTwoSided (s : State R) (ev : LOBEvent) : Prop :=
  (pricePoint ev (s.book.update ev)).isSome ∨ ∀ p ∈ s.pending, ¬ p.Elapsed ev.timestampNs

instance (s : State R) (ev : LOBEvent) : Decidable (ElapsesTwoSided s ev) :=
  inferInstanceAs (Decidable (_ ∨ _))

/-- Counted or pending. -/
def accounted (s : State R) : Nat := s.result.wins + s.result.losses + s.pending.length

theorem step_accounted (s : State R) (ev : LOBEvent) :
    (step sqrt s ev).result.totalSignals + accounted s =
      s.result.totalSignals + accounted (step sqrt s ev) + droppedAt s ev := by
  obtain ⟨htotal, hwins, hlosses, -⟩ := step_result sqrt s ev
  have hpending := congrArg List.length (step_pending sqrt s ev)
  have hlength := length_pending s ev
  have hcounted : (countedAt s ev).length =
      (countedAt s ev).countP won + (countedAt s ev).countP (fun c => !won c) := by
    simpa using List.length_eq_countP_add_countP won
  rw [List.length_append] at hpending
  unfold accounted
  omega

/-- Over a run the difference to the total is what was given up. -/
theorem run_accounted (s : State R) (evs : List LOBEvent) :
    (run (step sqrt) s evs).result.totalSignals + accounted s =
      s.result.totalSignals + accounted (run (step sqrt) s evs) +
        (outputs (step sqrt) (fun s ev => [droppedAt s ev]) s evs).sum := by
  induction evs generalizing s with
  | nil => simp
  | cons ev evs ih =>
    have hstep := step_accounted sqrt s ev
    have hrest := ih (step sqrt s ev)
    rw [run_cons, outputs_cons, List.sum_append, List.sum_singleton]
    omega

theorem all_iff_noneDropped (threshDelta : R) (evs : List LOBEvent) :
    accounted (loop sqrt threshDelta evs) = (loop sqrt threshDelta evs).result.totalSignals ↔
      Along (step sqrt) (fun s ev => droppedAt s ev = 0) (initial threshDelta) evs := by
  have hrun := run_accounted sqrt (initial threshDelta) evs
  have hzero : (initial threshDelta).result.totalSignals = accounted (initial threshDelta) := rfl
  have hsum : accounted (loop sqrt threshDelta evs) =
        (loop sqrt threshDelta evs).result.totalSignals ↔
      (outputs (step sqrt) (fun s ev => [droppedAt s ev]) (initial threshDelta) evs).sum = 0 := by
    rw [loop]
    omega
  rw [hsum, List.sum_eq_zero_iff, forall_mem_outputs]
  simp only [List.mem_singleton, forall_eq]

theorem LogOrder.concat {evs : List LOBEvent} {ev : LOBEvent} (h : LogOrder (evs ++ [ev])) :
    LogOrder evs ∧ (∀ e ∈ evs, e.timestampNs ≤ ev.timestampNs) ∧
      ev.timestampNs < Word64.size := by
  obtain ⟨hevs, -, hlast⟩ := List.pairwise_append.mp h.sorted
  refine ⟨⟨hevs, fun e he => h.word e (List.mem_append_left _ he)⟩, fun e he => ?_, ?_⟩
  · exact hlast e he ev List.mem_cons_self
  · exact h.word ev (List.mem_append_right _ List.mem_cons_self)

/-- The pending signals have fired in this order, and no event is as old as their windows. -/
structure Windowed (evs : List LOBEvent) (s : State R) : Prop where
  entry : ∀ p ∈ s.pending, p.entryPrice = p.sig.l1Price
  fired : ∀ p ∈ s.pending, ∃ e ∈ evs, p.sig.triggerTimeNs = e.timestampNs
  running : ∀ p ∈ s.pending, ∀ e ∈ evs,
    e.timestampNs < p.sig.triggerTimeNs + kLookForwardNs
  inOrder : s.pending.Pairwise fun p q => p.sig.triggerTimeNs ≤ q.sig.triggerTimeNs
  history : ∀ pt ∈ s.priceHistory, ∃ e ∈ evs, pt.tsNs = e.timestampNs

omit [LinearOrder R] in
theorem elapsed_iff {p : PendingSignal R} {nowNs : Nat} (h : p.sig.triggerTimeNs ≤ nowNs)
    (hnow : nowNs < Word64.size) :
    p.Elapsed nowNs ↔ p.sig.triggerTimeNs + kLookForwardNs ≤ nowNs := by
  rw [PendingSignal.Elapsed, Word64.sub_of_le h hnow]
  omega

theorem tsNs_of_pricePoint {ev : LOBEvent} {book : OrderBook} {pt : PricePoint}
    (h : pricePoint ev book = some pt) : pt.tsNs = ev.timestampNs := by
  rw [pricePoint] at h
  split at h
  · cases h
    rfl
  · cases h

theorem windowed_step {evs : List LOBEvent} {ev : LOBEvent} (ho : LogOrder (evs ++ [ev]))
    {s : State R} (h : Windowed evs s) : Windowed (evs ++ [ev]) (step sqrt s ev) := by
  obtain ⟨-, hle, hword⟩ := ho.concat
  have hpending : ∀ p ∈ (step sqrt s ev).pending,
      (p ∈ s.pending ∧ ¬ p.Elapsed ev.timestampNs) ∨ p ∈ firedAt sqrt s ev := by
    intro p hp
    rw [step_pending, List.mem_append, List.mem_filter] at hp
    simpa using hp
  constructor
  · intro p hp
    rcases hpending p hp with ⟨hp, -⟩ | hp
    · exact h.entry p hp
    · exact (mem_firedAt sqrt hp).1
  · intro p hp
    rcases hpending p hp with ⟨hp, -⟩ | hp
    · obtain ⟨e, he, hts⟩ := h.fired p hp
      exact ⟨e, List.mem_append_left _ he, hts⟩
    · exact ⟨ev, List.mem_append_right _ List.mem_cons_self, (mem_firedAt sqrt hp).2⟩
  · intro p hp e he
    rcases hpending p hp with ⟨hp, hrun⟩ | hp
    · obtain ⟨e', he', hts⟩ := h.fired p hp
      rw [elapsed_iff (by rw [hts]; exact hle e' he') hword] at hrun
      rcases List.mem_append.mp he with he | he
      · exact h.running p hp e he
      · rw [List.mem_singleton.mp he]
        omega
    · have hpos : 0 < kLookForwardNs := by decide
      rw [(mem_firedAt sqrt hp).2]
      rcases List.mem_append.mp he with he | he
      · have := hle e he
        omega
      · rw [List.mem_singleton.mp he]
        omega
  · rw [step_pending]
    refine List.pairwise_append.mpr ⟨h.inOrder.sublist List.filter_sublist,
      firedAt_pairwise sqrt s ev _, fun p hp q hq => ?_⟩
    obtain ⟨e, he, hts⟩ := h.fired p (List.mem_of_mem_filter hp)
    rw [hts, (mem_firedAt sqrt hq).2]
    exact hle e he
  · intro pt hpt
    rcases List.mem_append.mp hpt with hpt | hpt
    · obtain ⟨e, he, hts⟩ := h.history pt hpt
      exact ⟨e, List.mem_append_left _ he, hts⟩
    · exact ⟨ev, List.mem_append_right _ List.mem_cons_self,
        tsNs_of_pricePoint (Option.mem_toList.mp hpt)⟩

theorem loop_concat (threshDelta : R) (evs : List LOBEvent) (ev : LOBEvent) :
    loop sqrt threshDelta (evs ++ [ev]) = step sqrt (loop sqrt threshDelta evs) ev :=
  run_concat _ evs ev

theorem windowed_loop (threshDelta : R) {evs : List LOBEvent} (ho : LogOrder evs) :
    Windowed evs (loop sqrt threshDelta evs) := by
  induction evs using List.reverseRecOn with
  | nil => constructor <;> simp [loop, initial]
  | append_singleton evs ev ih =>
    rw [loop_concat]
    exact windowed_step sqrt ho (ih ho.concat.1)

section Step

variable {evs : List LOBEvent} {ev : LOBEvent} {s : State R}

omit [LinearOrder R] in
/-- The look-up of an elapsed signal finds the point of the event at hand, or none. -/
theorem lookUp_elapsed (ho : LogOrder (evs ++ [ev])) (h : Windowed evs s) {p : PendingSignal R}
    (hp : p ∈ s.pending) (helapsed : p.Elapsed ev.timestampNs) :
    p.lookUp (historyAt s ev) = pricePoint ev (s.book.update ev) := by
  obtain ⟨-, hle, hword⟩ := ho.concat
  obtain ⟨e, he, hts⟩ := h.fired p hp
  rw [elapsed_iff (by rw [hts]; exact hle e he) hword] at helapsed
  have hold : ∀ pt ∈ s.priceHistory, pt.tsNs < p.sig.triggerTimeNs + kLookForwardNs := by
    intro pt hpt
    obtain ⟨e', he', hpts⟩ := h.history pt hpt
    rw [hpts]
    exact h.running p hp e' he'
  have hnew : ∀ pt ∈ (pricePoint ev (s.book.update ev)).toList,
      ¬ pt.tsNs < p.sig.triggerTimeNs + kLookForwardNs := by
    intro pt hpt
    rw [tsNs_of_pricePoint (Option.mem_toList.mp hpt)]
    omega
  have hend : Word64.add p.sig.triggerTimeNs kLookForwardNs =
      p.sig.triggerTimeNs + kLookForwardNs := Word64.add_of_lt (helapsed.trans_lt hword)
  generalize p.sig.triggerTimeNs + kLookForwardNs = target at *
  rw [PendingSignal.lookUp, historyAt, hend, lowerBound_eq_find?]
  · rw [List.find?_append, List.find?_eq_none.mpr fun pt hpt => by simpa using hold pt hpt]
    cases hpt : pricePoint ev (s.book.update ev) with
    | none => rfl
    | some pt =>
      have hlast := hnew pt (by rw [hpt]; exact List.mem_singleton_self pt)
      rw [Option.none_or, Option.toList_some, List.find?_singleton, decide_eq_false hlast]
      rfl
  · refine List.pairwise_append.mpr ⟨?_, ?_, fun pt hpt pt' hpt' hb => ?_⟩
    · exact List.pairwise_of_forall_mem_list fun pt hpt pt' _ _ => by simpa using hold pt hpt
    · cases pricePoint ev (s.book.update ev) with
      | none => exact List.Pairwise.nil
      | some pt => exact List.pairwise_singleton _ _
    · exact absurd (by simpa using hb) (hnew pt' hpt')

omit [LinearOrder R] in
theorem droppedAt_eq_zero_iff (ho : LogOrder (evs ++ [ev])) (h : Windowed evs s) :
    droppedAt s ev = 0 ↔ ElapsesTwoSided s ev := by
  rw [droppedAt, ElapsesTwoSided, List.countP_eq_zero]
  constructor
  · intro hnone
    by_cases hpt : (pricePoint ev (s.book.update ev)).isSome
    · exact Or.inl hpt
    · apply Or.inr
      intro p hp helapsed
      have := hnone p (List.mem_filter.mpr ⟨hp, by simpa using helapsed⟩)
      rw [lookUp_elapsed ho h hp helapsed] at this
      exact this (by simpa using hpt)
  · intro htwo p hp
    obtain ⟨hp, helapsed⟩ := List.mem_filter.mp hp
    rw [lookUp_elapsed ho h hp (by simpa using helapsed)]
    rcases htwo with hpt | hrun
    · simpa using Option.isSome_iff_ne_none.mp hpt
    · exact absurd (by simpa using helapsed) (hrun p hp)

omit [LinearOrder R] in
/-- A step counts the elapsed signals, all at the point of the event at hand. -/
theorem countedAt_eq (ho : LogOrder (evs ++ [ev])) (h : Windowed evs s) : countedAt s ev =
      (s.pending.filter fun p => p.Elapsed ev.timestampNs).filterMap fun p =>
        (pricePoint ev (s.book.update ev)).map fun pit => (p, pit) := by
  rw [countedAt, counted]
  apply List.filterMap_congr
  intro p hp
  obtain ⟨hp, helapsed⟩ := List.mem_filter.mp hp
  rw [lookUp_elapsed ho h hp (by simpa using helapsed)]

omit [LinearOrder R] in
/-- What a step counts was pending, its window is over, and the point is that of the event. -/
theorem pricePoint_of_countedAt (ho : LogOrder (evs ++ [ev])) (h : Windowed evs s)
    {c : PendingSignal R × PricePoint} (hc : c ∈ countedAt s ev) :
    c.1 ∈ s.pending ∧ c.1.sig.triggerTimeNs + kLookForwardNs ≤ ev.timestampNs ∧
      pricePoint ev (s.book.update ev) = some c.2 := by
  rw [countedAt_eq ho h, List.mem_filterMap] at hc
  obtain ⟨p, hp, hmap⟩ := hc
  obtain ⟨pit, hpit, rfl⟩ := Option.map_eq_some_iff.mp hmap
  obtain ⟨hp, helapsed⟩ := List.mem_filter.mp hp
  obtain ⟨-, hle, hword⟩ := ho.concat
  obtain ⟨e, he, hts⟩ := h.fired p hp
  have hend := (elapsed_iff (by rw [hts]; exact hle e he) hword).mp (by simpa using helapsed)
  exact ⟨hp, hend, hpit⟩

end Step

theorem LogOrder.split {pre post : List LOBEvent} {ev : LOBEvent}
    (h : LogOrder (pre ++ ev :: post)) : LogOrder (pre ++ [ev]) := by
  rw [List.append_cons] at h
  exact ⟨h.sorted.sublist (List.sublist_append_left _ _),
    fun e he => h.word e (List.mem_append_left _ he)⟩

/-- The sums add up exactly when no window elapses at an event that leaves no price point. -/
theorem all_iff_elapsesTwoSided (threshDelta : R) {evs : List LOBEvent} (ho : LogOrder evs) :
    accounted (loop sqrt threshDelta evs) = (loop sqrt threshDelta evs).result.totalSignals ↔
      Along (step sqrt) ElapsesTwoSided (initial threshDelta) evs := by
  rw [all_iff_noneDropped, along_iff_forall_split, along_iff_forall_split]
  apply forall₃_congr
  intro pre ev post
  apply forall_congr'
  intro hsplit
  have hpre : LogOrder (pre ++ [ev]) := (hsplit ▸ ho).split
  exact droppedAt_eq_zero_iff hpre (windowed_loop sqrt threshDelta hpre.concat.1)

end SmartQuant.PendingWindows
