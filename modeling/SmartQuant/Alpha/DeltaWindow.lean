import SmartQuant.Alpha.DeltaFactor
import SmartQuant.Lib.BucketLog
import SmartQuant.Lib.Runs

/-!
# The net volume against the history of trades

Where the constructor does not clamp, the window reaches back over 63 buckets at most,
so no bucket of it has been overwritten, and the sum over the ring is the sum over all
trades ever recorded in a bucket of the window.
-/
namespace SmartQuant.DeltaWindow

open BucketRing DeltaFactor Runs

variable {R : Type*} [Field R]

inductive DeltaCall where
  | setMidprice (mid : Int)
  | event (ev : LOBEvent)
  deriving DecidableEq, Repr

def deltaStep (f : DeltaFactor R) : DeltaCall → DeltaFactor R
  | .setMidprice mid => f.setMidprice mid
  | .event ev => f.onEvent ev

/-- The quantity of a trade, positive at or above the midprice in force or without one. -/
def signedQty (f : DeltaFactor R) (ev : LOBEvent) : R :=
  if f.midprice ≤ 0 ∨ f.midprice ≤ ev.price then ev.qty else -ev.qty

/-- The start of the head bucket that an event is recorded in. -/
def bucketOf (f : DeltaFactor R) (ev : LOBEvent) : Nat :=
  (f.advanceTime ev.timestampNs).ring.headBucket.tsNs

/-- The trade a call records, under the start of its bucket. -/
def tradeAt (f : DeltaFactor R) : DeltaCall → List (Nat × R)
  | .event ev =>
    if ev.side = .trade ∧ 0 < ev.qty then [(bucketOf f ev, signedQty f ev)] else []
  | .setMidprice _ => []

/-- All trades of a run, in order. -/
def trades (f : DeltaFactor R) (calls : List DeltaCall) : List (Nat × R) :=
  outputs deltaStep tradeAt f calls

/-- The trades whose bucket is in the window of `f`: it starts no earlier than the window
length before the head. -/
def windowSum (f : DeltaFactor R) (ts : List (Nat × R)) : R :=
  ((ts.filter fun t => f.ring.headBucket.tsNs ≤ t.1 + f.windowNs).map Prod.snd).sum

def EarlyCalls (calls : List DeltaCall) : Prop :=
  ∀ ev, DeltaCall.event ev ∈ calls → ev.timestampNs < 2 ^ 63

/-- The factor's ring keeps the newest buckets of a log that accounts for the trades. -/
def Recorded (f : DeltaFactor R) (ts : List (Nat × R)) : Prop :=
  ∃ log, Logged kMaxBuckets f.bucketNs f.ring log ∧
    Accounts (fun v : TradeVol R => v.buyVol - v.sellVol) log ts

/-- The lengths the factor was constructed with. -/
structure Lengths (windowNs bucketNs : Nat) (f : DeltaFactor R) : Prop where
  window : f.windowNs = windowNs
  bucket : f.bucketNs = bucketNs

@[simp] theorem record_windowNs (f : DeltaFactor R) (ev : LOBEvent) :
    (f.record ev).windowNs = f.windowNs := by
  rw [record_eq]

@[simp] theorem record_bucketNs (f : DeltaFactor R) (ev : LOBEvent) :
    (f.record ev).bucketNs = f.bucketNs := by
  rw [record_eq]

theorem lengths_step {windowNs bucketNs : Nat} {f : DeltaFactor R} (call : DeltaCall)
    (h : Lengths windowNs bucketNs f) : Lengths windowNs bucketNs (deltaStep f call) := by
  cases call with
  | setMidprice mid => exact ⟨h.window, h.bucket⟩
  | event ev =>
    constructor
    · show ((f.advanceTime ev.timestampNs).record ev).windowNs = windowNs
      rw [record_windowNs]
      exact h.window
    · show ((f.advanceTime ev.timestampNs).record ev).bucketNs = bucketNs
      rw [record_bucketNs]
      exact h.bucket

/-- A call records its trade in the head bucket, if it has one. -/
theorem recorded_step {f : DeltaFactor R} {ts : List (Nat × R)} (h : Recorded f ts)
    (hbucket : f.bucketNs ≤ 2 ^ 63) {call : DeltaCall}
    (hearly : ∀ ev, call = .event ev → ev.timestampNs < 2 ^ 63) :
    Recorded (deltaStep f call) (ts ++ tradeAt f call) := by
  obtain ⟨log, hlogged, haccounts⟩ := h
  cases call with
  | setMidprice mid => exact ⟨log, hlogged, by simpa [tradeAt] using haccounts⟩
  | event ev =>
    have hbegun := @Logged.advance _ _ _ f.numBuckets {} _ _ hlogged f.bucketNs_pos hbucket _
      (hearly ev rfl)
    obtain ⟨hadvanced, hstarted⟩ := hbegun
    have hacc := @Accounts.advance _ f.bucketNs f.numBuckets {} _ _ _ _ _ haccounts
      (sub_self (0 : R)) ev.timestampNs
    obtain ⟨rest, hlog⟩ := hadvanced.exists_cons hstarted
    rw [hlog] at hadvanced hacc
    show Recorded ((f.advanceTime ev.timestampNs).record ev).recompute
      (ts ++ if ev.side = .trade ∧ 0 < ev.qty then [(bucketOf f ev, signedQty f ev)] else [])
    rw [record]
    by_cases htrade : ev.side = .trade ∧ 0 < ev.qty
    · rw [if_pos htrade, if_pos htrade, signedQty]
      by_cases hbuy : f.midprice ≤ 0 ∨ f.midprice ≤ ev.price
      · rw [if_pos (by exact hbuy), if_pos hbuy]
        refine ⟨_, hadvanced.modifyHead fun v => { v with buyVol := v.buyVol + ev.qty },
          hacc.modifyHead ?_⟩
        exact add_sub_right_comm _ _ _
      · rw [if_neg (by exact hbuy), if_neg hbuy]
        refine ⟨_, hadvanced.modifyHead fun v => { v with sellVol := v.sellVol + ev.qty },
          hacc.modifyHead ?_⟩
        show _ - (_ + _) = _ - _ + -_
        rw [sub_add_eq_sub_sub, sub_eq_add_neg]
    · rw [if_neg htrade, if_neg htrade, List.append_nil]
      exact ⟨_, hadvanced, hacc⟩

theorem recorded_run {f : DeltaFactor R} {ts : List (Nat × R)} (h : Recorded f ts)
    (hbucket : f.bucketNs ≤ 2 ^ 63) {calls : List DeltaCall} (hearly : EarlyCalls calls) :
    Recorded (run deltaStep f calls) (ts ++ trades f calls) := by
  induction calls generalizing f ts with
  | nil => simpa [trades] using h
  | cons call calls ih =>
    have hstep : Recorded (deltaStep f call) (ts ++ tradeAt f call) :=
      recorded_step h hbucket fun ev hev => hearly ev (hev ▸ List.mem_cons_self)
    have hlengths : Lengths f.windowNs f.bucketNs (deltaStep f call) :=
      lengths_step call ⟨rfl, rfl⟩
    have hrest := ih hstep (hlengths.bucket.trans_le hbucket)
      fun ev hev => hearly ev (List.mem_cons_of_mem _ hev)
    rwa [List.append_assoc] at hrest

theorem sum_sub_sum {ι : Type*} (l : List ι) (g h : ι → R) :
    (l.map g).sum - (l.map h).sum = (l.map fun i => g i - h i).sum := by
  induction l with
  | nil => exact sub_zero 0
  | cons i l ih =>
    simp only [List.map_cons, List.sum_cons]
    rw [← ih, add_sub_add_comm]

/-- In a window that reaches back over 63 buckets at most, nothing is lost. -/
theorem netDelta_recompute {f : DeltaFactor R} {ts : List (Nat × R)} (h : Recorded f ts)
    (hfit : f.windowNs ≤ 63 * f.bucketNs) : f.recompute.netDelta = windowSum f ts := by
  obtain ⟨log, hlogged, haccounts⟩ := h
  have hpos := f.bucketNs_pos
  rw [recompute, windowSum]
  simp only
  generalize hcut : (if f.windowNs ≤ f.ring.headBucket.tsNs then
    f.ring.headBucket.tsNs - f.windowNs else 0) = cutoff
  have hreach : f.ring.headBucket.tsNs < cutoff + kMaxBuckets * f.bucketNs := by
    rw [kMaxBuckets]
    split at hcut <;> omega
  have hsame : ∀ start : Nat, (decide (f.ring.headBucket.tsNs ≤ start + f.windowNs)) =
      decide (cutoff ≤ start) := by
    intro start
    rw [decide_eq_decide]
    split at hcut <;> omega
  rw [hlogged.since_eq_filter hpos hreach, sum_sub_sum]
  simp only [hsame]
  exact haccounts fun start => cutoff ≤ start

theorem recorded_create {windowNs bucketNs : Nat} {f : DeltaFactor R}
    (hf : create windowNs bucketNs = .ok f) :
    Recorded f [] ∧ Lengths windowNs bucketNs f := by
  rw [create] at hf
  split at hf
  · cases hf
  · cases hf
    exact ⟨⟨[], logged_empty (by decide), accounts_nil⟩, rfl, rfl⟩

/-- After every event the net volume is the signed sum of all trades so far whose bucket is
in the window, for any lengths the constructor does not clamp and any calls before. -/
theorem netDelta_eq_windowSum {windowNs bucketNs : Nat} (hbucket : bucketNs < 2 ^ 63)
    (hfit : (windowNs + bucketNs - 1) / bucketNs + 1 ≤ kMaxBuckets) {f : DeltaFactor R}
    (hf : create windowNs bucketNs = .ok f) (calls : List DeltaCall) (ev : LOBEvent)
    (hearly : EarlyCalls (calls ++ [.event ev])) :
    (run deltaStep f (calls ++ [.event ev])).netDelta =
      windowSum (run deltaStep f (calls ++ [.event ev])) (trades f (calls ++ [.event ev])) := by
  obtain ⟨hfresh, hlengths⟩ := recorded_create hf
  have hpos : 0 < bucketNs := hlengths.bucket ▸ f.bucketNs_pos
  have hrec := recorded_run hfresh (hlengths.bucket.trans_le hbucket.le) hearly
  have hlen := run_invariant (fun _ call h => lengths_step call h) hlengths
    (calls ++ [.event ev])
  rw [List.nil_append] at hrec
  generalize trades f (calls ++ [.event ev]) = ts at *
  rw [run_concat] at hrec hlen ⊢
  generalize run deltaStep f calls = s at *
  apply netDelta_recompute (f := (s.advanceTime ev.timestampNs).record ev) hrec
  have hwindow : ((s.advanceTime ev.timestampNs).record ev).windowNs = windowNs := hlen.window
  have hlast : ((s.advanceTime ev.timestampNs).record ev).bucketNs = bucketNs := hlen.bucket
  have hdiv : windowNs + bucketNs - 1 < 64 * bucketNs := by
    rw [kMaxBuckets] at hfit
    exact (Nat.div_lt_iff_lt_mul hpos).mp (by omega)
  rw [hwindow, hlast]
  omega

/-- A buy at the midprice, a quiet second, and a sell. -/
def twoTrades : List DeltaCall :=
  [.setMidprice 10000,
    .event { timestampNs := 0, price := 10000, qty := 5, action := .new, side := .trade },
    .event { timestampNs := 1000000000, action := .new }]

theorem netDelta_eq_windowSum_twoTrades :
    let last : LOBEvent :=
      { timestampNs := 1005000000, price := 9900, qty := 3, action := .new, side := .trade }
    (run deltaStep (.initial : DeltaFactor ℚ) (twoTrades ++ [.event last])).netDelta =
      windowSum (run deltaStep (.initial : DeltaFactor ℚ) (twoTrades ++ [.event last]))
        (trades .initial (twoTrades ++ [.event last])) :=
  netDelta_eq_windowSum (by decide) (by decide) create_default twoTrades _ (by
    intro ev hev
    simp only [twoTrades, List.cons_append, List.nil_append, List.mem_cons, DeltaCall.event.injEq,
      List.not_mem_nil, or_false, reduceCtorEq, false_or] at hev
    obtain rfl | rfl | rfl := hev <;> decide)

end SmartQuant.DeltaWindow
