import Mathlib.Tactic.Linarith
import SmartQuant.Lib.Runs
import SmartQuant.Risk.RiskManager

/-!
# The daily loss fuse

A fuse that tripped stays tripped and blocks every signal until `reset_daily`.
Whether it trips when it should is decided by `on_fill` alone: the loss check
stands behind the single-trade abort, which returns early. The runs that keep
the fuse rule are characterised by their aborting fills.
-/
namespace SmartQuant.DailyLoss

open RiskManager Runs

variable {R : Type*} [Field R] [LinearOrder R]

/-- The calls the engine makes between two daily resets. -/
inductive RiskCall (R : Type*) [Field R] where
  | orderSent (order : Order) (nowNs : Nat)
  | fill (order : Order) (nowNs : Nat)
  | reject (order : Order)
  | timer (nowNs : Nat)
  | check (sig : Signal R) (nowNs : Nat)

/-- `on_timer` and `check_signal` leave the manager as it is; what the force-close callback
does to it is a later call of the run. -/
def riskStep (m : RiskManager R) : RiskCall R → RiskManager R
  | .orderSent order nowNs => m.onOrderSent order nowNs
  | .fill order nowNs => m.onFill order nowNs
  | .reject order => m.onReject order
  | .timer _ => m
  | .check _ _ => m

/-- A loss beyond the limit has tripped the fuse, and nothing but a reset lets a signal
through again. -/
def FuseHolds (m : RiskManager R) : Prop :=
  m.dailyPnl < -m.cfg.maxDailyLossUsd →
    m.fused = true ∧
      ∀ (later : List (RiskCall R)) (sig : Signal R) (nowNs : Nat),
        (run riskStep m later).checkSignal sig nowNs = false

/-- The fill aborts on its slippage and takes the daily result beyond the limit, the fuse being
whole. -/
def LosesFuse (m : RiskManager R) (order : Order) : Prop :=
  m.cfg.singleSlipAbortTicks < slippageTicks R order ∧ m.fused = false ∧
    m.dailyPnl + -slippageTicks R order * m.cfg.tickSizeUsd < -m.cfg.maxDailyLossUsd

/-- No aborting fill takes the daily result beyond the limit while the fuse is whole. -/
def KeepsFuse (m : RiskManager R) : RiskCall R → Prop
  | .fill order _ => ¬ LosesFuse m order
  | _ => True

/-- The limit is not negative, or the run begins with a fill, whose loss check would trip a
negative limit at once. -/
def StartsWithin (m : RiskManager R) : List (RiskCall R) → Prop
  | [] => True
  | .fill _ _ :: _ => True
  | _ => 0 ≤ m.cfg.maxDailyLossUsd

theorem fused_step {m : RiskManager R} (call : RiskCall R) (h : m.fused = true) :
    (riskStep m call).fused = true := by
  cases call with
  | fill order nowNs =>
    simp only [riskStep]
    rw [onFill_fused, h]
    simp
  | orderSent | reject | timer | check => exact h

theorem fused_blocks {m : RiskManager R} (h : m.fused = true) (later : List (RiskCall R))
    (sig : Signal R) (nowNs : Nat) : (run riskStep m later).checkSignal sig nowNs = false :=
  checkSignal_of_fused
    (run_invariant (I := fun m : RiskManager R => m.fused = true) (fun _ call => fused_step call) h
      later) sig nowNs

theorem fuseHolds_iff {m : RiskManager R} :
    FuseHolds m ↔ (m.dailyPnl < -m.cfg.maxDailyLossUsd → m.fused = true) :=
  ⟨fun h hl => (h hl).1, fun h hl => ⟨h hl, fused_blocks (h hl)⟩⟩

theorem fuseHolds_fill_iff (m : RiskManager R) (order : Order) (nowNs : Nat) :
    FuseHolds (m.onFill order nowNs) ↔ ¬ LosesFuse m order := by
  rw [fuseHolds_iff, onFill_fused, onFill_dailyPnl, onFill_cfg]
  rw [LosesFuse]
  by_cases habort : m.cfg.singleSlipAbortTicks < slippageTicks R order
  · rw [if_pos habort]
    cases hf : m.fused <;> simp [habort]
  · rw [if_neg habort]
    simp [habort]
    intro h
    exact Or.inr h

theorem fuseHolds_step_iff {m : RiskManager R} (call : RiskCall R) (h : FuseHolds m) :
    FuseHolds (riskStep m call) ↔ KeepsFuse m call := by
  cases call with
  | fill order nowNs => exact fuseHolds_fill_iff m order nowNs
  | orderSent | reject | timer | check =>
    refine iff_of_true (fuseHolds_iff.mpr ?_) trivial
    exact (fuseHolds_iff (m := m)).mp h

variable [IsStrictOrderedRing R]

/-- The first call after a reset keeps the fuse rule exactly when the run starts within the
limit and the call does not lose the fuse. -/
theorem fuseHolds_first_iff (m : RiskManager R) (call : RiskCall R) (calls : List (RiskCall R)) :
    FuseHolds (riskStep m.resetDaily call) ↔
      StartsWithin m (call :: calls) ∧ KeepsFuse m.resetDaily call := by
  have hother : FuseHolds m.resetDaily ↔ 0 ≤ m.cfg.maxDailyLossUsd := by
    rw [fuseHolds_iff]
    simp only [resetDaily]
    constructor
    · intro h
      by_contra hc
      exact absurd (h (by linarith)) (by decide)
    · intro h hl
      linarith
  cases call with
  | fill order nowNs =>
    rw [riskStep, fuseHolds_fill_iff]
    simp [StartsWithin, KeepsFuse]
  | orderSent | reject | timer | check =>
    simp only [StartsWithin, KeepsFuse, and_true]
    rw [← hother, fuseHolds_iff, fuseHolds_iff]
    rfl

/-- After a reset, and so from construction too, the fuse rule holds after every call of a
run exactly when the run starts within the limit and no aborting fill loses the fuse. -/
theorem fuseHolds_iff_keepsFuse (m : RiskManager R) (calls : List (RiskCall R)) :
    (∀ pre, pre <+: calls → pre ≠ [] → FuseHolds (run riskStep m.resetDaily pre)) ↔
      StartsWithin m calls ∧ Along riskStep KeepsFuse m.resetDaily calls := by
  cases calls with
  | nil =>
    refine iff_of_true (fun pre hpre hne => absurd (List.prefix_nil.mp hpre) hne) ⟨trivial, trivial⟩
  | cons call calls =>
    have hsplit : (∀ pre, pre <+: call :: calls → pre ≠ [] →
          FuseHolds (run riskStep m.resetDaily pre)) ↔
        Always riskStep FuseHolds (riskStep m.resetDaily call) calls := by
      rw [always_iff_forall_run]
      constructor
      · intro h pre hpre
        exact h (call :: pre) (List.cons_prefix_cons.mpr ⟨rfl, hpre⟩) (List.cons_ne_nil _ _)
      · intro h pre hpre hne
        cases pre with
        | nil => exact absurd rfl hne
        | cons c pre =>
          obtain ⟨rfl, htail⟩ := List.cons_prefix_cons.mp hpre
          exact h pre htail
    have hrun : FuseHolds (riskStep m.resetDaily call) →
        (Always riskStep FuseHolds (riskStep m.resetDaily call) calls ↔
          Along riskStep KeepsFuse (riskStep m.resetDaily call) calls) := fun h =>
      always_iff_along (I := fun _ => True) (fun _ _ _ _ => trivial)
        (fun m call _ => fuseHolds_step_iff call) trivial h
    rw [hsplit, Along, ← and_assoc, ← fuseHolds_first_iff m call calls]
    constructor
    · intro h
      have hfirst : FuseHolds (riskStep m.resetDaily call) :=
        always_iff_forall_run.mp h [] List.nil_prefix
      exact ⟨hfirst, (hrun hfirst).mp h⟩
    · intro hboth
      obtain ⟨hfirst, h⟩ := hboth
      exact (hrun hfirst).mpr h

/-- The fill of the fuse test: 15 ticks under a 10 USD limit, with the abort out of the way. -/
theorem fuseHolds_cumulative :
    FuseHolds (run riskStep (RiskManager.resetDaily
        { cfg := { maxDailyLossUsd := 10, singleSlipAbortTicks := 100, cooldownSlipTicks := 0,
                   cooldownConsecSlips := 1000 } : RiskManager ℚ })
      [.fill { side := .buy, signalL1 := 200000, fillPrice := 201500, qty := 1 } 1001000000]) := by
  refine (fuseHolds_iff_keepsFuse _ _).mpr ⟨?_, ?_⟩ _ (List.prefix_refl _) (List.cons_ne_nil _ _)
  · trivial
  · exact ⟨fun h => absurd h.1 (by decide +kernel), trivial⟩

/-- With the default configuration a fill 60 ticks away from its signal price loses 60 USD
against a limit of 50; the abort returns before the fuse is looked at. -/
theorem not_fuseHolds_abort :
    ¬ FuseHolds (run riskStep (RiskManager.resetDaily { cfg := {} : RiskManager ℚ })
      [.orderSent { side := .buy, signalL1 := 200000, qty := 1 } 1000000000,
       .fill { side := .buy, signalL1 := 200000, fillPrice := 206000, qty := 1 } 1001000000]) := by
  intro h
  have hf := (h (by decide +kernel)).1
  revert hf
  decide +kernel

end SmartQuant.DailyLoss
