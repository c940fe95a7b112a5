import Mathlib.Analysis.Real.Sqrt
import SmartQuant.Alpha.CancelAttribution
import SmartQuant.Lib.BucketLog
import SmartQuant.Lib.Runs
import SmartQuant.Lib.Samuelson

/-!
# The z-scores against their definition

The ring holds two seconds of buckets and the window is one second, so no bucket of the
window has been overwritten and the scan leaves none out. The scores are those of the
head's count among the counts of all buckets ever created in the window.
-/
namespace SmartQuant.ScoreDefinition

open BucketRing CancelFactor CancelAttribution Runs Samuelson

/-- The factor after a run of events. -/
noncomputable def after (evs : List LOBEvent) : CancelFactor ℝ :=
  run (CancelFactor.onEvent Real.sqrt) {} evs

/-- The start of the head bucket that an event is recorded in. -/
noncomputable def bucketOf (f : CancelFactor ℝ) (ev : LOBEvent) : ℕ :=
  (f.advanceTime ev.timestampNs).ring.headBucket.tsNs

/-- The starts of the buckets an event creates. -/
def startsAt (f : CancelFactor ℝ) (ev : LOBEvent) : List ℕ :=
  opened kMaxBuckets kBucketNs f.ring ev.timestampNs

/-- The start of the bucket that an event is counted in, if it is a cancel of one side. -/
noncomputable def cancelAt (s : MDEntryType) (f : CancelFactor ℝ) (ev : LOBEvent) : List ℕ :=
  if ev.action = .delete ∧ ev.side = s then [bucketOf f ev] else []

/-- The starts of all buckets created so far, in order. -/
noncomputable def starts (evs : List LOBEvent) : List ℕ :=
  outputs (CancelFactor.onEvent Real.sqrt) startsAt {} evs

/-- The starts of the buckets that the cancels of one side so far were counted in. -/
noncomputable def cancels (s : MDEntryType) (evs : List LOBEvent) : List ℕ :=
  outputs (CancelFactor.onEvent Real.sqrt) (cancelAt s) {} evs

/-- The cancels in the bucket that starts at `start`. -/
noncomputable def countAt (cs : List ℕ) (start : ℕ) : ℝ := (cs.count start : ℕ)

/-- The counts of all buckets created whose start is within `kWindowNs` of the head's. -/
noncomputable def windowCounts (headTs : ℕ) (ts cs : List ℕ) : List ℝ :=
  (ts.filter fun start => headTs ≤ start + kWindowNs).map (countAt cs)

/-- The population standard deviation, 1 where there is none. -/
noncomputable def sigma (xs : List ℝ) : ℝ :=
  let meanSq := mean (xs.map fun x => (x - mean xs) * (x - mean xs))
  if meanSq = 0 then 1 else √meanSq

/-- The score of the head's count by definition. -/
noncomputable def score (headTs : ℕ) (ts cs : List ℕ) : ℝ :=
  (countAt cs headTs - mean (windowCounts headTs ts cs)) / sigma (windowCounts headTs ts cs)

/-- Both scores are the ones of the definition. -/
structure ScoresDefined (f : CancelFactor ℝ) (ts : List ℕ) (cs : MDEntryType → List ℕ) :
    Prop where
  bid : f.zBid = score f.ring.headBucket.tsNs ts (cs .bid)
  ask : f.zAsk = score f.ring.headBucket.tsNs ts (cs .offer)

/-- One cancel per start. -/
def units (cs : List ℕ) : List (ℕ × ℝ) := cs.map fun start => (start, 1)

/-- The factor's ring keeps the newest of all buckets created, whose counts are those of
the cancels. -/
def Counted (f : CancelFactor ℝ) (ts : List ℕ) (cs : MDEntryType → List ℕ) : Prop :=
  ∃ log, Logged kMaxBuckets kBucketNs f.ring log ∧ log.map Bucket.tsNs = ts.reverse ∧
    ∀ s, s ≠ .trade → Accounts (fun v => cancelsOn v s) log (units (cs s))

theorem recorded_units (cs : List ℕ) (start : ℕ) :
    recorded (fun t => t = start) (units cs) = countAt cs start := by
  rw [countAt, units, recorded]
  induction cs with
  | nil => simp
  | cons c cs ih =>
    by_cases hc : c = start
    · rw [List.map_cons, List.filter_cons_of_pos (by simpa using hc), List.map_cons, List.sum_cons,
        ih, hc, List.count_cons_self, Nat.cast_add, Nat.cast_one, add_comm]
    · rw [List.map_cons, List.filter_cons_of_neg (by simpa using hc), ih, List.count_cons_of_ne hc]

theorem accounts_units {w : Cancels ℝ → ℝ} {log : List (Bucket (Cancels ℝ))} {cs : List ℕ}
    {start : ℕ} {p : Prop} [Decidable p]
    (h : Accounts w log (units cs ++ [(start, if p then 1 else 0)])) :
    Accounts w log (units (cs ++ if p then [start] else [])) := by
  by_cases hp : p
  · rw [if_pos hp] at h ⊢
    rw [units, List.map_append]
    exact h
  · rw [if_neg hp] at h ⊢
    intro q
    rw [h q, recorded_concat, ite_self, add_zero, List.append_nil]

theorem counted_advance {f : CancelFactor ℝ} {ts : List ℕ} {cs : MDEntryType → List ℕ}
    (h : Counted f ts cs) {now : ℕ} (hnow : now < 2 ^ 63) :
    Counted (f.advanceTime now) (ts ++ opened kMaxBuckets kBucketNs f.ring now) cs ∧
      (f.advanceTime now).ring.count ≠ 0 := by
  obtain ⟨log, hlogged, hts, hcs⟩ := h
  have hbegun := @Logged.advance _ _ _ kMaxBuckets {} _ _ hlogged (by decide) (by decide) _ hnow
  obtain ⟨hadvanced, hstarted⟩ := hbegun
  refine ⟨⟨_, hadvanced, ?_, fun s hs => (hcs s hs).advance ?_ now⟩, hstarted⟩
  · rw [hlogged.map_tsNs_advance, hts, List.reverse_append]
  · cases s <;> rfl

theorem counted_record {f : CancelFactor ℝ} {ts : List ℕ} {cs : MDEntryType → List ℕ}
    (h : Counted f ts cs) (hc : f.ring.count ≠ 0) (ev : LOBEvent) :
    Counted (f.record ev) ts fun s =>
      cs s ++ if ev.action = .delete ∧ ev.side = s then [f.ring.headBucket.tsNs] else [] := by
  obtain ⟨log, hlogged, hts, hcs⟩ := h
  obtain ⟨rest, rfl⟩ := hlogged.exists_cons hc
  obtain ⟨g, hring, hg⟩ := record_ring f ev
  refine ⟨{ f.ring.headBucket with val := g f.ring.headBucket.val } :: rest, ?_, hts,
    fun s hs => accounts_units ?_⟩
  · rw [hring]
    exact hlogged.modifyHead g
  · exact (hcs s hs).modifyHead (hg s hs _)

/-- The ring reaches further back than the window. -/
theorem head_lt_reach {headTs cutoff : ℕ}
    (hcut : ∀ start, cutoff ≤ start ↔ headTs ≤ start + kWindowNs) :
    headTs < cutoff + kMaxBuckets * kBucketNs := by
  have hwithin := (hcut cutoff).mp le_rfl
  have hroom : kWindowNs < kMaxBuckets * kBucketNs := by decide
  omega

/-- The scan collects the counts of the window, newest first. -/
theorem since_counts {r : BucketRing (Cancels ℝ)} {log : List (Bucket (Cancels ℝ))}
    {ts cs : List ℕ} {s : MDEntryType} {cutoff : ℕ} (h : Logged kMaxBuckets kBucketNs r log)
    (hts : log.map Bucket.tsNs = ts.reverse)
    (hcs : Accounts (fun v => cancelsOn v s) log (units cs))
    (hcut : ∀ start, cutoff ≤ start ↔ r.headBucket.tsNs ≤ start + kWindowNs) :
    (r.since kMaxBuckets cutoff).map (fun b => cancelsOn b.val s) =
      (windowCounts r.headBucket.tsNs ts cs).reverse := by
  have hval : ∀ b ∈ log.filter (fun b => cutoff ≤ b.tsNs),
      cancelsOn b.val s = countAt cs b.tsNs := by
    intro b hb
    rw [← recorded_units]
    exact hcs.val_eq (pairwise_of_spaced (by decide) h.spaced) (List.mem_of_mem_filter hb)
  rw [h.since_eq_filter (by decide) (head_lt_reach hcut), List.map_congr_left hval, windowCounts,
    ← List.map_reverse, ← List.filter_reverse, ← hts, List.filter_map, List.map_map]
  simp only [hcut]
  rfl

theorem mean_reverse (xs : List ℝ) : mean xs.reverse = mean xs := by
  rw [mean, mean, List.sum_reverse, List.length_reverse]

theorem variance_reverse (xs : List ℝ) : variance xs.reverse = variance xs := by
  rw [variance, variance, mean_reverse, List.map_reverse, List.sum_reverse, List.length_reverse]

/-- The scan's order does not matter, and the mean of the squares less the square of the mean
is the mean squared deviation. -/
theorem zScore_reverse {xs : List ℝ} (h : xs ≠ []) (c : ℝ) :
    zScore Real.sqrt xs.reverse c = (c - mean xs) / sigma xs := by
  show (c - mean xs.reverse) /
    (if 0 < variance xs.reverse then √(variance xs.reverse) else 1) = _
  have hnonneg := variance_nonneg h
  have hmean := variance_eq_mean h
  rw [mean_reverse, variance_reverse, sigma, ← hmean]
  by_cases hvar : variance xs = 0
  · rw [if_pos hvar, if_neg hvar.not_gt]
  · rw [if_neg hvar, if_pos (lt_of_le_of_ne hnonneg (Ne.symm hvar))]

/-- The two newest buckets are in every window. -/
theorem two_le_length_since {r : BucketRing (Cancels ℝ)} {log : List (Bucket (Cancels ℝ))}
    {cutoff : ℕ} (h : Logged kMaxBuckets kBucketNs r log) (htwo : 2 ≤ log.length)
    (hcut : ∀ start, cutoff ≤ start ↔ r.headBucket.tsNs ≤ start + kWindowNs) :
    2 ≤ (r.since kMaxBuckets cutoff).length := by
  cases log with
  | nil => exact absurd htwo (by decide)
  | cons newest log =>
    cases log with
    | nil => exact absurd htwo (Nat.not_succ_le_self 1)
    | cons older log =>
      have hgap : newest.tsNs = older.tsNs + kBucketNs := (List.isChain_cons_cons.mp h.spaced).1
      have hhead := h.headBucket_eq
      have hlast : kBucketNs ≤ kWindowNs := by decide
      have hnewest : cutoff ≤ newest.tsNs := (hcut _).mpr (by rw [hhead]; omega)
      have holder : cutoff ≤ older.tsNs := (hcut _).mpr (by rw [hhead]; omega)
      rw [h.since_eq_filter (by decide) (head_lt_reach hcut),
        List.filter_cons_of_pos (by simpa using hnewest),
        List.filter_cons_of_pos (by simpa using holder)]
      exact Nat.le_add_left 2 _

/-- One side's score, from a window of two buckets or more. -/
theorem zScore_window {r : BucketRing (Cancels ℝ)} {log : List (Bucket (Cancels ℝ))}
    {ts cs : List ℕ} {s : MDEntryType} {cutoff : ℕ} (h : Logged kMaxBuckets kBucketNs r log)
    (htwo : 2 ≤ log.length) (hts : log.map Bucket.tsNs = ts.reverse)
    (hcs : Accounts (fun v => cancelsOn v s) log (units cs))
    (hcut : ∀ start, cutoff ≤ start ↔ r.headBucket.tsNs ≤ start + kWindowNs) :
    zScore Real.sqrt ((r.since kMaxBuckets cutoff).map fun b => cancelsOn b.val s)
      (cancelsOn r.headBucket.val s) = score r.headBucket.tsNs ts cs := by
  have hwindow := since_counts h hts hcs hcut
  have hlen := two_le_length_since h htwo hcut
  have hne : windowCounts r.headBucket.tsNs ts cs ≠ [] := by
    intro hnil
    rw [hnil, List.reverse_nil, List.map_eq_nil_iff] at hwindow
    rw [hwindow] at hlen
    exact absurd hlen (by decide)
  have hhead : cancelsOn r.headBucket.val s = countAt cs r.headBucket.tsNs := by
    rw [← recorded_units]
    apply hcs.val_eq (pairwise_of_spaced (by decide) h.spaced)
    obtain ⟨rest, hlog⟩ := h.exists_cons (by rw [h.count_eq]; unfold kMaxBuckets; omega)
    rw [hlog]
    exact List.mem_cons_self
  rw [hwindow, zScore_reverse hne, hhead]
  rfl

theorem scores_recompute {f : CancelFactor ℝ} {ts : List ℕ} {cs : MDEntryType → List ℕ}
    (h : Counted f ts cs) (htwo : 2 ≤ ts.length) :
    ScoresDefined (f.recomputeZscores Real.sqrt) ts cs := by
  obtain ⟨log, hlogged, hts, hcs⟩ := h
  have hlen : 2 ≤ log.length := by
    rwa [← List.length_map (f := Bucket.tsNs), hts, List.length_reverse]
  have hcount : ¬ f.ring.count < 2 := by
    rw [hlogged.count_eq]
    rw [kMaxBuckets]
    omega
  rw [recomputeZscores, if_neg hcount]
  simp only
  generalize hcut : (if kWindowNs ≤ f.ring.headBucket.tsNs then
    f.ring.headBucket.tsNs - kWindowNs else 0) = cutoff
  have hwithin : ∀ start, cutoff ≤ start ↔ f.ring.headBucket.tsNs ≤ start + kWindowNs := by
    intro start
    split at hcut <;> omega
  rw [if_neg (two_le_length_since hlogged hlen hwithin).not_gt]
  exact ⟨zScore_window hlogged hlen hts (hcs .bid (by decide)) hwithin,
    zScore_window hlogged hlen hts (hcs .offer (by decide)) hwithin⟩

theorem counted_onEvent {f : CancelFactor ℝ} {ts : List ℕ} {cs : MDEntryType → List ℕ}
    (h : Counted f ts cs) {ev : LOBEvent} (hev : ev.timestampNs < 2 ^ 63) :
    Counted (f.onEvent Real.sqrt ev) (ts ++ startsAt f ev) fun s => cs s ++ cancelAt s f ev := by
  obtain ⟨hadvanced, hstarted⟩ := counted_advance h hev
  obtain ⟨log, hlogged, hts, hcs⟩ := counted_record hadvanced hstarted ev
  refine ⟨log, ?_, hts, hcs⟩
  rw [CancelFactor.onEvent, recomputeZscores_ring]
  exact hlogged

theorem counted_run {f : CancelFactor ℝ} {ts : List ℕ} {cs : MDEntryType → List ℕ}
    (h : Counted f ts cs) {evs : List LOBEvent} (hevs : ∀ ev ∈ evs, ev.timestampNs < 2 ^ 63) :
    Counted (run (CancelFactor.onEvent Real.sqrt) f evs)
      (ts ++ outputs (CancelFactor.onEvent Real.sqrt) startsAt f evs)
      fun s => cs s ++ outputs (CancelFactor.onEvent Real.sqrt) (cancelAt s) f evs := by
  induction evs generalizing f ts cs with
  | nil => simpa using h
  | cons ev evs ih =>
    obtain ⟨hev, hevs⟩ := List.forall_mem_cons.mp hevs
    have hrest := ih (counted_onEvent h hev) hevs
    simp only [List.append_assoc] at hrest
    exact hrest

theorem counted_initial : Counted {} [] fun _ => [] :=
  ⟨[], logged_empty (by decide), rfl, fun _ _ => accounts_nil⟩

/-- After every event that leaves at least two buckets created, both scores are those of the
definition over the whole history. -/
theorem scores_defined (evs : List LOBEvent) (hevs : ∀ ev ∈ evs, ev.timestampNs < 2 ^ 63)
    (htwo : 2 ≤ (starts evs).length) :
    ScoresDefined (after evs) (starts evs) fun s => cancels s evs := by
  cases evs using List.reverseRecOn with
  | nil => exact absurd htwo (by simp [starts])
  | append_singleton evs ev =>
    have hall := counted_run counted_initial hevs
    have hbefore : Counted (after evs) (starts evs) fun s => cancels s evs :=
      counted_run counted_initial fun e he => hevs e (List.mem_append_left _ he)
    obtain ⟨hadvanced, hstarted⟩ := counted_advance hbefore (hevs ev (by simp))
    have hrec := counted_record hadvanced hstarted ev
    have hstarts : starts (evs ++ [ev]) = starts evs ++ startsAt (after evs) ev := by
      rw [starts, outputs_append]
      simp [starts, after]
    have hcancels : ∀ s, cancels s (evs ++ [ev]) = cancels s evs ++ cancelAt s (after evs) ev := by
      intro s
      rw [cancels, outputs_append]
      simp [cancels, after]
    rw [after, run_concat, funext hcancels, hstarts]
    rw [hstarts] at htwo
    exact scores_recompute hrec htwo

/-- A bid and an offer withdrawn, 30 ms apart. -/
def withdrawals : List LOBEvent :=
  [{ timestampNs := 0, action := .delete },
    { timestampNs := 30000000, action := .delete, side := .offer }]

theorem scores_defined_withdrawals :
    ScoresDefined (after withdrawals) (starts withdrawals) fun s => cancels s withdrawals := by
  apply scores_defined withdrawals (by decide)
  have hstarts : starts withdrawals = [0, 10000000, 20000000, 30000000] := rfl
  rw [hstarts]
  decide

end SmartQuant.ScoreDefinition
