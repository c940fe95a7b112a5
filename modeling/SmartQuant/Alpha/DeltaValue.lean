import Mathlib.Tactic.Ring
import SmartQuant.Alpha.DeltaWindow

/-!
# The value against the history of trades

The constructor clamps the number of buckets, but not the window: a longer one is cut where the
ring ends, 63 buckets before the head. With this reach the sum is that of the whole history for
any lengths, and the value is its second difference over the last two events and what was
before them.
-/
namespace SmartQuant.DeltaValue

open BucketRing DeltaFactor DeltaWindow Runs

variable {R : Type*} [Field R]

/-- How far back from the head a window of the factor goes. -/
def reach (f : DeltaFactor R) : Nat := min f.windowNs ((kMaxBuckets - 1) * f.bucketNs)

/-- The signed sum of the trades recorded in a bucket within reach. -/
def reachSum (f : DeltaFactor R) (ts : List (Nat × R)) : R :=
  ((ts.filter fun t => f.ring.headBucket.tsNs ≤ t.1 + reach f).map Prod.snd).sum

/-- The signed sum within reach after a history of calls. -/
def netAfter (f : DeltaFactor R) (calls : List DeltaCall) : R :=
  reachSum (run deltaStep f calls) (trades f calls)

/-- The calls only set the midprice. -/
def Quoting (calls : List DeltaCall) : Prop := ∀ call ∈ calls, ∃ mid, call = .setMidprice mid

/-- The factor's ring tells the trades, and its sum is theirs. -/
structure Sums (f : DeltaFactor R) (ts : List (Nat × R)) : Prop where
  recorded : Recorded f ts
  net : f.netDelta = reachSum f ts

/-- Within its reach `recompute` sums the history, whatever the lengths. -/
theorem netDelta_recompute {f : DeltaFactor R} {ts : List (Nat × R)} (h : Recorded f ts) :
    f.recompute.netDelta = reachSum f ts := by
  obtain ⟨log, hlogged, haccounts⟩ := h
  rw [recompute, reachSum]
  simp only
  generalize hcut : (if f.windowNs ≤ f.ring.headBucket.tsNs then
    f.ring.headBucket.tsNs - f.windowNs else 0) = cutoff
  have hsame : ∀ start : Nat, decide (f.ring.headBucket.tsNs ≤ start + reach f) =
      decide (max cutoff (f.ring.headBucket.tsNs - (kMaxBuckets - 1) * f.bucketNs) ≤ start) := by
    intro start
    rw [decide_eq_decide, reach]
    split at hcut <;> omega
  rw [hlogged.since_eq_clamped f.bucketNs_pos, sum_sub_sum]
  simp only [hsame]
  exact haccounts fun start =>
    max cutoff (f.ring.headBucket.tsNs - (kMaxBuckets - 1) * f.bucketNs) ≤ start

theorem sums_create {windowNs bucketNs : Nat} {f : DeltaFactor R}
    (hf : create windowNs bucketNs = .ok f) :
    Sums f [] ∧ f.netDelta = 0 ∧ f.prevDelta = 0 := by
  have hrecorded := (recorded_create hf).1
  rw [create] at hf
  split at hf
  · cases hf
  · cases hf
    exact ⟨⟨hrecorded, rfl⟩, rfl, rfl⟩

theorem sums_step {f : DeltaFactor R} {ts : List (Nat × R)} (h : Sums f ts)
    (hbucket : f.bucketNs ≤ 2 ^ 63) {call : DeltaCall}
    (hearly : ∀ ev, call = .event ev → ev.timestampNs < 2 ^ 63) :
    Sums (deltaStep f call) (ts ++ tradeAt f call) := by
  have hrecorded := recorded_step h.recorded hbucket hearly
  refine ⟨hrecorded, ?_⟩
  cases call with
  | setMidprice mid =>
    rw [tradeAt, List.append_nil]
    exact h.net
  | event ev => exact netDelta_recompute hrecorded

theorem sums_run {f : DeltaFactor R} {ts : List (Nat × R)} (h : Sums f ts)
    (hbucket : f.bucketNs ≤ 2 ^ 63) {calls : List DeltaCall} (hearly : EarlyCalls calls) :
    Sums (run deltaStep f calls) (ts ++ trades f calls) := by
  induction calls generalizing f ts with
  | nil => simpa [trades] using h
  | cons call calls ih =>
    have hstep := sums_step h hbucket fun ev hev => hearly ev (hev ▸ List.mem_cons_self)
    have hlengths : Lengths f.windowNs f.bucketNs (deltaStep f call) :=
      lengths_step call ⟨rfl, rfl⟩
    have hrest := ih hstep (hlengths.bucket.trans_le hbucket)
      fun ev hev => hearly ev (List.mem_cons_of_mem _ hev)
    rwa [List.append_assoc] at hrest

theorem run_quoting {calls : List DeltaCall} (h : Quoting calls) (f : DeltaFactor R) :
    (run deltaStep f calls).netDelta = f.netDelta ∧
      (run deltaStep f calls).prevDelta = f.prevDelta := by
  induction calls generalizing f with
  | nil => exact ⟨rfl, rfl⟩
  | cons call calls ih =>
    obtain ⟨mid, rfl⟩ := h call List.mem_cons_self
    exact ih (fun c hc => h c (List.mem_cons_of_mem _ hc)) (f.setMidprice mid)

theorem prevDelta_onEvent (f : DeltaFactor R) (ev : LOBEvent) :
    (f.onEvent ev).prevDelta = f.netDelta := by
  rw [onEvent, record_eq]
  rfl

/-- For all lengths the constructor accepts, clamped or not: the value after an event is the
second difference of the signed sum of all trades within reach, taken at this event, at the one
before it and at whatever was before that; the first event has the sum itself. -/
theorem value_eq_secondDifference {windowNs bucketNs : Nat} (hbucket : bucketNs ≤ 2 ^ 63)
    {f : DeltaFactor R} (hf : create windowNs bucketNs = .ok f) {pre mid : List DeltaCall}
    (hmid : Quoting mid) (ev ev' : LOBEvent)
    (hearly : EarlyCalls (pre ++ .event ev :: mid ++ [.event ev'])) :
    (run deltaStep f (pre ++ .event ev :: mid ++ [.event ev'])).value =
        netAfter f (pre ++ .event ev :: mid ++ [.event ev']) -
          2 * netAfter f (pre ++ .event ev :: mid) + netAfter f pre ∧
      (run deltaStep f (mid ++ [.event ev'])).value = netAfter f (mid ++ [.event ev']) := by
  obtain ⟨hsums, hnet, hprev⟩ := sums_create hf
  have hlen : f.bucketNs ≤ 2 ^ 63 := (create_bucketNs hf).1.trans_le hbucket
  have hall : ∀ calls, EarlyCalls calls → (run deltaStep f calls).netDelta = netAfter f calls :=
    fun calls hcalls => (sums_run hsums hlen hcalls).net
  have hbefore : EarlyCalls (pre ++ .event ev :: mid) := fun e he =>
    hearly e (List.mem_append_left _ he)
  constructor
  · have hlast := hall _ hearly
    have hprevious : (run deltaStep f (pre ++ .event ev :: mid)).prevDelta = netAfter f pre := by
      rw [run_append, run_cons, (run_quoting hmid _).2]
      show ((run deltaStep f pre).onEvent ev).prevDelta = netAfter f pre
      rw [prevDelta_onEvent, hall pre fun e he => hbefore e (List.mem_append_left _ he)]
    rw [run_concat] at hlast ⊢
    show ((run deltaStep f (pre ++ .event ev :: mid)).onEvent ev').value = _
    rw [onEvent_value, hprevious, hall _ hbefore]
    exact congrArg (fun net => net - _ + _) hlast
  · have hfirst := hall (mid ++ [.event ev']) fun e he => hearly e (by
      rcases List.mem_append.mp he with he | he
      · exact List.mem_append_left _ (List.mem_append_right _ (List.mem_cons_of_mem _ he))
      · exact List.mem_append_right _ he)
    obtain ⟨hnone, hnone'⟩ := run_quoting hmid f
    rw [run_concat] at hfirst ⊢
    show ((run deltaStep f mid).onEvent ev').value = _
    rw [onEvent_value, hnone, hnone', hnet, hprev, mul_zero, sub_zero, add_zero]
    exact hfirst

/-- A window of ten seconds in buckets of 10 ms, cut at the ring's end. -/
def tenSeconds : DeltaFactor ℚ :=
  { windowNs := 10000000000, bucketNs := 10000000, numBuckets := 64, bucketNs_pos := by decide }

/-- The buy of the first event is out of reach at the last one. -/
theorem value_eq_secondDifference_tenSeconds :
    let buy : LOBEvent := { timestampNs := 0, price := 10000, qty := 5, action := .new
                            side := .trade }
    let later : LOBEvent := { timestampNs := 640000000, action := .new }
    (run deltaStep tenSeconds ([] ++ .event buy :: [.setMidprice 10000] ++ [.event later])).value =
        netAfter tenSeconds ([] ++ .event buy :: [.setMidprice 10000] ++ [.event later]) -
          2 * netAfter tenSeconds ([] ++ .event buy :: [.setMidprice 10000]) +
            netAfter tenSeconds [] ∧
      (run deltaStep tenSeconds ([.setMidprice 10000] ++ [.event later])).value =
        netAfter tenSeconds ([.setMidprice 10000] ++ [.event later]) :=
  @value_eq_secondDifference ℚ _ 10000000000 10000000 (by decide) tenSeconds rfl []
    [.setMidprice 10000] (by simp [Quoting]) _ _ (by
      intro ev hev
      simp only [List.nil_append, List.cons_append, List.mem_cons, DeltaCall.event.injEq,
        List.not_mem_nil, or_false, reduceCtorEq, false_or] at hev
      obtain rfl | rfl := hev <;> decide)

/-- 640 ms on, the window of ten seconds has lost its trade. -/
example :
    (run deltaStep tenSeconds
      [.event { timestampNs := 0, price := 10000, qty := 5, action := .new, side := .trade },
        .event { timestampNs := 640000000, action := .new }]).netDelta = 0 := by
  decide +kernel

end SmartQuant.DeltaValue
