import Mathlib.Algebra.Order.Field.Basic
import Mathlib.Tactic.Positivity
import SmartQuant.Engine.SignalOutcomes

/-!
# The report

The counters of a result grow in different places of the loop: when a signal fires, when its
window is over, and there by the outcome and by what the single-factor engine did at the
time. Whatever the log, they stay consistent with each other, so that the printed rates are
percentages.
-/
namespace SmartQuant.BacktestReport

open Runs BacktestLoop PendingWindows

variable {R : Type*} [Field R]

def winRate (r : BacktestResult R) : R :=
  if 0 < r.totalSignals then 100 * (r.wins : R) / (r.totalSignals : R) else 0

def sfWinRate (r : BacktestResult R) : R :=
  if 0 < r.sfTotal then 100 * (r.sfWins : R) / (r.sfTotal : R) else 0

def avgMove (r : BacktestResult R) : R :=
  if 0 < r.totalSignals then r.totalMoveTicks / (r.totalSignals : R) else 0

/-- The counters that an evaluation moves agree. -/
structure Tallied (r : BacktestResult R) : Prop where
  sfWins : r.sfWins ≤ r.wins
  sfLosses : r.sfTotal ≤ r.sfWins + r.losses
  sfTotal : r.sfWins ≤ r.sfTotal
  moved : r.wins + r.losses = 0 → r.totalMoveTicks = 0

/-- Every signal has a direction. -/
def Directed (r : BacktestResult R) : Prop := r.buySignals + r.sellSignals = r.totalSignals

/-- What the report says of a state of the loop. -/
structure Reports [LinearOrder R] (s : State R) : Prop where
  tallied : Tallied s.result
  directed : Directed s.result
  evaluated : s.result.wins + s.result.losses + s.pending.length ≤ s.result.totalSignals
  winRate : 0 ≤ winRate s.result ∧ BacktestReport.winRate s.result ≤ 100
  sfWinRate : 0 ≤ sfWinRate s.result ∧ BacktestReport.sfWinRate s.result ≤ 100
  /-- The rate is one of all signals, which makes it no higher than that of the evaluated. -/
  ofAll : BacktestReport.winRate s.result * ((s.result.wins + s.result.losses : Nat) : R) ≤
    100 * (s.result.wins : R)
  avgMove : avgMove s.result * (s.result.totalSignals : R) = s.result.totalMoveTicks

theorem tallied_count {r : BacktestResult R} (h : Tallied r) (p : PendingSignal R)
    (pit : PricePoint) : Tallied (r.count p pit) := by
  obtain ⟨hwins, hlosses, htotal, -⟩ := h
  rw [BacktestResult.count]
  by_cases hwin : kPriceScale ≤ p.move pit
  · cases p.sfFired with
    | true => constructor <;> simp [hwin] <;> omega
    | false => constructor <;> simp [hwin] <;> omega
  · cases p.sfFired with
    | true => constructor <;> simp [hwin] <;> omega
    | false => constructor <;> simp [hwin] <;> omega

/-- An evaluation touches no signal counter. -/
theorem tallied_evaluate (history : List PricePoint) (nowNs : Nat) (ps : List (PendingSignal R))
    {r : BacktestResult R} (h : Tallied r) (hdir : Directed r) :
    Tallied (evaluate history nowNs r ps).1 ∧ Directed (evaluate history nowNs r ps).1 := by
  induction ps generalizing r with
  | nil => exact ⟨h, hdir⟩
  | cons p ps ih =>
    rw [evaluate]
    split
    · split
      · exact ih (tallied_count h p _) hdir
      · exact ih h hdir
    · exact ih h hdir

theorem directed_trigger {r : BacktestResult R} (h : Directed r) {dir : Direction}
    (hdir : dir ≠ .none) : Directed (r.trigger dir) := by
  rw [Directed] at h ⊢
  cases dir with
  | none => exact absurd rfl hdir
  | buy =>
    simp only [BacktestResult.trigger]
    simp
    omega
  | sell =>
    simp only [BacktestResult.trigger]
    simp
    omega

variable [LinearOrder R] (sqrt : R → R)

theorem tallied_step (s : State R) (ev : LOBEvent) (h : Tallied s.result ∧ Directed s.result) :
    Tallied (step sqrt s ev).result ∧ Directed (step sqrt s ev).result := by
  obtain ⟨htallied, hdirected⟩ := tallied_evaluate (historyAt s ev) ev.timestampNs s.pending
    h.1 h.2
  simp only [step]
  split
  · rename_i hfired
    exact ⟨⟨htallied.sfWins, htallied.sfLosses, htallied.sfTotal, htallied.moved⟩,
      directed_trigger hdirected (SignalEngine.direction_of_fired sqrt hfired)⟩
  · exact ⟨htallied, hdirected⟩

theorem evaluated_le (threshDelta : R) (evs : List LOBEvent) :
    (loop sqrt threshDelta evs).result.wins + (loop sqrt threshDelta evs).result.losses +
      (loop sqrt threshDelta evs).pending.length ≤
        (loop sqrt threshDelta evs).result.totalSignals := by
  have hrun := run_accounted sqrt (initial threshDelta) evs
  have hzero : accounted (initial threshDelta) = 0 := rfl
  have hnone : (initial threshDelta).result.totalSignals = 0 := rfl
  rw [← loop, hzero, hnone, accounted] at hrun
  omega

section Figures

variable [IsStrictOrderedRing R]

/-- A part of a positive whole is a percentage of it. -/
theorem percentage {part whole : Nat} (h : part ≤ whole) (hpos : 0 < whole) :
    0 ≤ 100 * (part : R) / (whole : R) ∧ 100 * (part : R) / (whole : R) ≤ 100 := by
  have hwhole : (0 : R) < whole := by exact_mod_cast hpos
  have hpart : (part : R) ≤ whole := by exact_mod_cast h
  constructor
  · positivity
  · rw [div_le_iff₀ hwhole]
    exact mul_le_mul_of_nonneg_left hpart (by norm_num)

theorem winRate_mem {r : BacktestResult R} (h : r.wins ≤ r.totalSignals) :
    0 ≤ winRate r ∧ winRate r ≤ 100 := by
  rw [winRate]
  split
  · rename_i hpos
    exact percentage h hpos
  · exact ⟨le_rfl, by norm_num⟩

theorem sfWinRate_mem {r : BacktestResult R} (h : Tallied r) :
    0 ≤ sfWinRate r ∧ sfWinRate r ≤ 100 := by
  rw [sfWinRate]
  split
  · rename_i hpos
    exact percentage h.sfTotal hpos
  · exact ⟨le_rfl, by norm_num⟩

theorem winRate_ofAll {r : BacktestResult R} (h : r.wins + r.losses ≤ r.totalSignals) :
    winRate r * ((r.wins + r.losses : Nat) : R) ≤ 100 * (r.wins : R) := by
  rw [winRate]
  split
  · rename_i hpos
    have htotal : (0 : R) < r.totalSignals := by exact_mod_cast hpos
    have hle : ((r.wins + r.losses : Nat) : R) ≤ r.totalSignals := by exact_mod_cast h
    rw [div_mul_eq_mul_div, div_le_iff₀ htotal]
    exact mul_le_mul_of_nonneg_left hle (by positivity)
  · rw [zero_mul]
    positivity

omit [LinearOrder R] [IsStrictOrderedRing R] in
theorem avgMove_mul [CharZero R] {r : BacktestResult R}
    (h : 0 < r.totalSignals ∨ r.totalMoveTicks = 0) :
    avgMove r * (r.totalSignals : R) = r.totalMoveTicks := by
  rw [avgMove]
  split
  · rename_i hpos
    exact div_mul_cancel₀ _ (by exact_mod_cast hpos.ne')
  · rename_i hpos
    rw [zero_mul, h.resolve_left hpos]

/-- Whatever the log, the figures of the report are consistent. -/
theorem reports_loop (threshDelta : R) (evs : List LOBEvent) :
    Reports (loop sqrt threshDelta evs) := by
  obtain ⟨htallied, hdirected⟩ := run_invariant (tallied_step sqrt)
    (s := initial threshDelta) ⟨⟨le_rfl, le_rfl, le_rfl, fun _ => rfl⟩, rfl⟩ evs
  have hevaluated := evaluated_le sqrt threshDelta evs
  rw [← loop] at htallied hdirected
  refine ⟨htallied, hdirected, hevaluated, winRate_mem (by omega), sfWinRate_mem htallied,
    winRate_ofAll (by omega), avgMove_mul ?_⟩
  rcases Nat.eq_zero_or_pos (loop sqrt threshDelta evs).result.totalSignals with hzero | hpos
  · exact Or.inr (htallied.moved (by omega))
  · exact Or.inl hpos

theorem reports_loop_restored : Reports (loop Rat.sqrt (50 : ℚ) SignalOutcomes.restored) :=
  reports_loop Rat.sqrt 50 SignalOutcomes.restored

end Figures

end SmartQuant.BacktestReport
