import SmartQuant.Alpha.ZScoreBound
import SmartQuant.Engine.WinHorizon

/-!
# The single-factor baseline against the delta factor alone

The baseline is a dual-factor engine with a cancel threshold of 10^9, meant to take the
cancel condition out of the decision. Both directions ask for the cancel score as well, and
no score gets near it: 200 buckets bound every score by 15, whatever the timestamps. So the
engine never fires, and the report has no single-factor signals.
-/
namespace SmartQuant.SingleFactor

open Runs BacktestLoop PendingWindows WinHorizon BucketRing ZScoreBound CancelFactor

variable {R : Type*} [Field R]

/-- The delta factor alone, over the book of the log. -/
structure DeltaOnly (R : Type*) [Field R] where
  book : OrderBook := {}
  delta : DeltaFactor R := .initial

/-- An event as the engines hand it to their delta factors. -/
def hear (f : DeltaFactor R) (ev : LOBEvent) (book : OrderBook) : DeltaFactor R :=
  if 0 < book.bestBid ∧ 0 < book.bestAsk then
    (f.setMidprice (SignalEngine.quoteMid book.bestBid book.bestAsk)).onEvent ev
  else f.onEvent ev

def DeltaOnly.step (d : DeltaOnly R) (ev : LOBEvent) : DeltaOnly R :=
  let book := d.book.update ev
  { book, delta := hear d.delta ev book }

def deltaOnly (evs : List LOBEvent) : DeltaOnly R := run DeltaOnly.step {} evs

/-- The delta-only rule. -/
def Exceeds [LinearOrder R] (threshDelta : R) (value : R) : Prop := threshDelta < |value|

/-- The call of `sf_engine.on_event` agrees with the delta-only rule. -/
def FiresByDelta (threshDelta : ℝ) (s : State ℝ) (ev : LOBEvent) : Prop :=
  let res := s.sfEngine.onEvent Real.sqrt ev (s.book.update ev)
  res.2 = true ↔ Exceeds threshDelta res.1.delta.value

open Classical in
/-- The single-factor engine fires by the delta-only rule, and the total counts the evaluated
signals it holds for. -/
structure DeltaBaseline (threshDelta : ℝ) (evs : List LOBEvent) : Prop where
  fires : Along (step Real.sqrt) (FiresByDelta threshDelta) (initial threshDelta) evs
  total : (loop Real.sqrt threshDelta evs).result.sfTotal =
    (evaluated Real.sqrt threshDelta evs).countP fun c => Exceeds threshDelta c.1.sig.deltaVal

section Delta

variable [LinearOrder R] (sqrt : R → R)

theorem hear_eq (s : SignalEngine R) (ev : LOBEvent) (book : OrderBook) :
    hear s.delta ev book = (s.onEvent sqrt ev book).1.delta := by
  rw [SignalEngine.onEvent_delta, SignalEngine.trackMidprice, hear]
  split <;> rfl

/-- Both engines of the loop have the delta factor of the log. -/
theorem loop_delta (threshDelta : R) (evs : List LOBEvent) :
    (loop sqrt threshDelta evs).book = (deltaOnly (R := R) evs).book ∧
      (loop sqrt threshDelta evs).engine.delta = (deltaOnly evs).delta ∧
      (loop sqrt threshDelta evs).sfEngine.delta = (deltaOnly evs).delta := by
  induction evs using List.reverseRecOn with
  | nil => exact ⟨rfl, rfl, rfl⟩
  | append_singleton evs ev ih =>
    obtain ⟨hbook, hdual, hsf⟩ := ih
    have hrun : (deltaOnly (R := R) (evs ++ [ev])) = (deltaOnly evs).step ev := run_concat _ _ _
    rw [loop_concat, hrun]
    refine ⟨?_, ?_, ?_⟩
    · show (loop sqrt threshDelta evs).book.update ev = _
      rw [hbook]
      rfl
    · show (SignalEngine.onEvent sqrt _ ev ((loop sqrt threshDelta evs).book.update ev)).1.delta = _
      rw [← hear_eq, hbook, hdual]
      rfl
    · show (SignalEngine.onEvent sqrt _ ev ((loop sqrt threshDelta evs).book.update ev)).1.delta = _
      rw [← hear_eq, hbook, hsf]
      rfl

/-- A signal bears the value of the delta factor at its event. -/
theorem deltaVal_of_firedAt {threshDelta : R} {evs : List LOBEvent} {ev : LOBEvent}
    {p : PendingSignal R} (hp : p ∈ firedAt sqrt (loop sqrt threshDelta evs) ev) :
    p.sig.deltaVal = ((deltaOnly evs).step ev).delta.value := by
  obtain ⟨hbook, hdual, -⟩ := loop_delta sqrt threshDelta evs
  have hvalue : ∀ (s : SignalEngine R) (book : OrderBook), (s.onEvent sqrt ev book).2 = true →
      (s.onEvent sqrt ev book).1.lastSignal.deltaVal =
        (s.onEvent sqrt ev book).1.delta.value := by
    intro s book hfired
    rw [SignalEngine.onEvent_eq, SignalEngine.answer] at hfired ⊢
    split at hfired
    · cases hfired
    · rename_i hdir
      rw [if_neg hdir]
  unfold firedAt at hp
  simp only at hp
  split at hp
  · rename_i hfired
    rw [List.mem_singleton.mp hp]
    show (SignalEngine.onEvent sqrt _ ev _).1.lastSignal.deltaVal = _
    rw [hvalue _ _ hfired, ← hear_eq, hbook, hdual]
    rfl
  · cases hp

omit [LinearOrder R] in
theorem foldl_sfTotal (cs : List (PendingSignal R × PricePoint)) (r : BacktestResult R) :
    (cs.foldl (fun r c => r.count c.1 c.2) r).sfTotal =
      r.sfTotal + cs.countP fun c => c.1.sfFired := by
  induction cs generalizing r with
  | nil => rfl
  | cons c cs ih =>
    rw [List.foldl_cons, ih, List.countP_cons]
    cases hfired : c.1.sfFired with
    | true => simp [BacktestResult.count, hfired]; omega
    | false => simp [BacktestResult.count, hfired]

theorem step_sfTotal (s : State R) (ev : LOBEvent) : (step sqrt s ev).result.sfTotal =
    s.result.sfTotal + (countedAt s ev).countP fun c => c.1.sfFired := by
  rw [countedAt, ← foldl_sfTotal]
  simp only [step, evaluate_eq]
  split <;> rfl

theorem loop_sfTotal (threshDelta : R) (evs : List LOBEvent) :
    (loop sqrt threshDelta evs).result.sfTotal =
      (evaluated sqrt threshDelta evs).countP fun c => c.1.sfFired := by
  have hrun := run_add_countP (fun s => s.result.sfTotal) (step_sfTotal sqrt)
    (initial threshDelta) evs
  exact hrun.trans (Nat.zero_add _)

variable {threshDelta : R} {evs : List LOBEvent} {P : PendingSignal R → Prop}

/-- What is pending has been fired. -/
theorem pending_of_fired (h : Along (step sqrt) (fun s ev => ∀ p ∈ firedAt sqrt s ev, P p)
    (initial threshDelta) evs) : ∀ p ∈ (loop sqrt threshDelta evs).pending, P p := by
  induction evs using List.reverseRecOn with
  | nil => exact fun p hp => absurd hp List.not_mem_nil
  | append_singleton evs ev ih =>
    obtain ⟨hevs, hev, -⟩ := along_append.mp h
    intro p hp
    rw [loop_concat, step_pending, List.mem_append] at hp
    rcases hp with hp | hp
    · exact ih hevs p (List.mem_of_mem_filter hp)
    · exact hev p hp

/-- What is evaluated has been pending. -/
theorem evaluated_of_fired (h : Along (step sqrt) (fun s ev => ∀ p ∈ firedAt sqrt s ev, P p)
    (initial threshDelta) evs) : ∀ c ∈ evaluated sqrt threshDelta evs, P c.1 := by
  rw [evaluated, forall_mem_outputs, along_iff_forall_split]
  intro pre ev post hsplit c hc
  rw [hsplit] at h
  exact pending_of_fired sqrt (along_append.mp h).1 c.1 (mem_pending_of_countedAt hc)

end Delta

/-- The ring is one of 200 slots, and the scores are within 15. -/
structure Bounded (f : CancelFactor ℝ) : Prop where
  ring : Fits kMaxBuckets f.ring
  scores : |f.zBid| ≤ 15 ∧ |f.zAsk| ≤ 15

theorem bounded_initial : Bounded {} := by
  refine ⟨fits_empty (by decide), ?_, ?_⟩ <;> norm_num

theorem bounded_record {f : CancelFactor ℝ} (h : Bounded f) (ev : LOBEvent) :
    Bounded (f.record ev) := by
  obtain ⟨g, hg⟩ := f.record_eq_modifyHead ev
  rw [hg]
  exact ⟨fits_modifyHead h.ring g, h.scores⟩

theorem bounded_recompute {f : CancelFactor ℝ} (h : Bounded f) :
    Bounded (f.recomputeZscores Real.sqrt) := by
  refine ⟨?_, abs_recompute_le (by norm_num) h.scores fun cutoff hc hcut _ => ?_⟩
  · rw [recomputeZscores_ring]
    exact h.ring
  · obtain ⟨older, hsince⟩ := since_eq_cons h.ring.head_lt hc hcut
    have hlen := length_since_le_count kMaxBuckets f.ring cutoff
    have hcount := h.ring.count_le
    rw [hsince, List.length_cons] at hlen
    have hroom : kMaxBuckets = 200 := rfl
    have hlen' : (older.length : ℝ) ≤ 199 := by exact_mod_cast (by omega)
    exact ⟨older, by linarith, hsince⟩

theorem bounded_onEvent {f : CancelFactor ℝ} (h : Bounded f) (ev : LOBEvent) :
    Bounded (f.onEvent Real.sqrt ev) := by
  have hadv : Bounded (f.advanceTime ev.timestampNs) := ⟨fits_advance h.ring _ _, h.scores⟩
  exact bounded_recompute (bounded_record hadv ev)

/-- An engine with a cancel threshold out of reach. -/
structure OutOfReach (s : SignalEngine ℝ) : Prop where
  cancel : Bounded s.cancel
  floor : 15 ≤ s.minCancelZ

theorem outOfReach_onEvent {s : SignalEngine ℝ} (h : OutOfReach s) (ev : LOBEvent)
    (book : OrderBook) :
    (s.onEvent Real.sqrt ev book).2 = false ∧ OutOfReach (s.onEvent Real.sqrt ev book).1 := by
  have hfed : OutOfReach ((s.trackMidprice book.bestBid book.bestAsk).feed Real.sqrt ev) := by
    rw [SignalEngine.trackMidprice]
    split <;> exact ⟨bounded_onEvent h.cancel ev, h.floor⟩
  have hres : s.onEvent Real.sqrt ev book =
      ((s.trackMidprice book.bestBid book.bestAsk).feed Real.sqrt ev, false) :=
    if_pos (decision_of_le hfed.cancel.scores hfed.floor)
  rw [hres]
  exact ⟨rfl, hfed⟩

theorem outOfReach_run (threshDelta : ℝ) (evs : List LOBEvent) :
    OutOfReach (run (step Real.sqrt) (initial threshDelta) evs).sfEngine := by
  have hstep : ∀ (s : State ℝ) ev, OutOfReach s.sfEngine →
      OutOfReach (step Real.sqrt s ev).sfEngine :=
    fun s ev h => (outOfReach_onEvent h ev _).2
  refine run_invariant (I := fun s : State ℝ => OutOfReach s.sfEngine) hstep ?_ evs
  exact ⟨bounded_initial, by norm_num [initial]⟩

theorem sf_silent (threshDelta : ℝ) (evs : List LOBEvent) (ev : LOBEvent) (book : OrderBook) :
    ((run (step Real.sqrt) (initial threshDelta) evs).sfEngine.onEvent Real.sqrt ev book).2 =
      false :=
  (outOfReach_onEvent (outOfReach_run threshDelta evs) ev book).1

/-- The report's single-factor total is zero, over every log. -/
theorem sfTotal_eq_zero (threshDelta : ℝ) (evs : List LOBEvent) :
    (loop Real.sqrt threshDelta evs).result.sfTotal = 0 := by
  have hfired : Along (step Real.sqrt) (fun s ev => ∀ p ∈ firedAt Real.sqrt s ev,
      p.sfFired = false) (initial threshDelta) evs := by
    rw [along_iff_forall_split]
    intro pre ev post _ p hp
    unfold firedAt at hp
    simp only at hp
    split at hp
    · rw [List.mem_singleton.mp hp]
      exact sf_silent threshDelta pre ev _
    · cases hp
  rw [loop_sfTotal, List.countP_eq_zero]
  intro c hc
  rw [evaluated_of_fired Real.sqrt hfired c hc]
  exact Bool.false_ne_true

theorem firesByDelta_iff (threshDelta : ℝ) (evs : List LOBEvent) :
    Along (step Real.sqrt) (FiresByDelta threshDelta) (initial threshDelta) evs ↔
      Along DeltaOnly.step (fun d ev => ¬ Exceeds threshDelta (d.step ev).delta.value) {} evs := by
  rw [along_iff_forall_split, along_iff_forall_split]
  apply forall₃_congr
  intro pre ev post
  apply imp_congr_right
  intro _
  obtain ⟨hbook, -, hsf⟩ := loop_delta Real.sqrt threshDelta pre
  unfold loop at hbook hsf
  unfold FiresByDelta
  simp only [sf_silent, ← hear_eq, hbook, hsf, Bool.false_eq_true, false_iff]
  rfl

/-- Where the rule holds at no event, it holds for no signal. -/
theorem evaluated_not_exceeds {threshDelta : ℝ} {evs : List LOBEvent}
    (h : Along DeltaOnly.step (fun d ev => ¬ Exceeds threshDelta (d.step ev).delta.value) {} evs) :
    ∀ c ∈ evaluated Real.sqrt threshDelta evs, ¬ Exceeds threshDelta c.1.sig.deltaVal := by
  have hfired : Along (step Real.sqrt) (fun s ev => ∀ p ∈ firedAt Real.sqrt s ev,
      ¬ Exceeds threshDelta p.sig.deltaVal) (initial threshDelta) evs := by
    rw [along_iff_forall_split] at h ⊢
    intro pre ev post hsplit p hp
    rw [deltaVal_of_firedAt Real.sqrt hp]
    exact h pre ev post hsplit
  exact evaluated_of_fired Real.sqrt hfired

/-- Over every log, the single-factor baseline is the delta factor alone exactly when that
factor exceeds the threshold at no event. -/
theorem deltaBaseline_iff (threshDelta : ℝ) (evs : List LOBEvent) :
    DeltaBaseline threshDelta evs ↔
      Along DeltaOnly.step (fun d ev => ¬ Exceeds threshDelta (d.step ev).delta.value) {} evs := by
  constructor
  · intro h
    exact (firesByDelta_iff threshDelta evs).mp h.fires
  · intro h
    refine ⟨(firesByDelta_iff threshDelta evs).mpr h, ?_⟩
    rw [sfTotal_eq_zero, eq_comm, List.countP_eq_zero]
    intro c hc
    simpa using evaluated_not_exceeds h c hc

def blockTrade : LOBEvent :=
  { timestampNs := 0, entryId := 1, price := 10000, qty := 100, action := .new, side := .trade }

theorem value_blockTrade : (({} : DeltaOnly ℝ).step blockTrade).delta.value = 100 := by
  have hbook : ¬ (0 < (({} : OrderBook).update blockTrade).bestBid ∧
      0 < (({} : OrderBook).update blockTrade).bestAsk) := by decide +kernel
  rw [DeltaOnly.step, hear, if_neg hbook]
  show [(0 : ℝ) + (100 : Int)].sum - [(0 : ℝ)].sum - 2 * 0 + 0 = 100
  norm_num

/-- One trade of 100 lots puts the factor at twice the threshold, and the engine is silent. -/
theorem not_deltaBaseline_blockTrade : ¬ DeltaBaseline 50 [blockTrade] := by
  intro h
  have hrule := (firesByDelta_iff 50 [blockTrade]).mp h.fires
  apply hrule.1
  rw [Exceeds, value_blockTrade]
  norm_num

end SmartQuant.SingleFactor
