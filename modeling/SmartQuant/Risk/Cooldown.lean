import Mathlib.Order.Bounds.Basic
import SmartQuant.Risk.DailyLoss

/-!
# The cooldown

What starts a cooldown is a rule about the history of fills, which `on_fill` follows with
one counter. How long it lasts is decided by an unsigned difference of two clock
readings: it covers the readings from its start on, and none before.
-/
namespace SmartQuant.Cooldown

open RiskManager DailyLoss Runs

variable {R : Type*} [Field R] [LinearOrder R]

/-- The fill starts a cooldown: by its own slippage, or as the last slip that the counter
waits for. -/
def StartsCooldown (m : RiskManager R) (order : Order) : Prop :=
  m.cfg.singleSlipAbortTicks < slippageTicks R order ∨
    m.cfg.cooldownSlipTicks < slippageTicks R order ∧
      m.cfg.cooldownConsecSlips ≤ m.consecSlipCount + 1

instance (m : RiskManager R) (order : Order) : Decidable (StartsCooldown m order) :=
  inferInstanceAs (Decidable (_ ∨ _ ∧ _))

/-- What a fill does to the start of the cooldown and to the counter. -/
theorem onFill_slips (m : RiskManager R) (order : Order) (nowNs : Nat) :
    ((m.onFill order nowNs).cooldownStartNs, (m.onFill order nowNs).consecSlipCount) =
      if StartsCooldown m order then (nowNs, 0)
      else (m.cooldownStartNs,
        if m.cfg.cooldownSlipTicks < slippageTicks R order then m.consecSlipCount + 1 else 0) := by
  by_cases habort : m.cfg.singleSlipAbortTicks < slippageTicks R order
  · rw [if_pos (show StartsCooldown m order from Or.inl habort)]
    simp only [onFill, if_pos habort]
  · by_cases hslip : m.cfg.cooldownSlipTicks < slippageTicks R order
    · by_cases hlimit : m.cfg.cooldownConsecSlips ≤ m.consecSlipCount + 1
      · rw [if_pos (show StartsCooldown m order from Or.inr ⟨hslip, hlimit⟩)]
        simp only [onFill, if_neg habort, if_pos hslip, if_pos hlimit]
        split <;> rfl
      · rw [if_neg (show ¬ StartsCooldown m order from
          not_or.mpr ⟨habort, fun hc => hlimit hc.2⟩), if_pos hslip]
        simp only [onFill, if_neg habort, if_pos hslip, if_neg hlimit]
        split <;> rfl
    · rw [if_neg (show ¬ StartsCooldown m order from not_or.mpr ⟨habort, fun hc => hslip hc.1⟩),
        if_neg hslip]
      simp only [onFill, if_neg habort, if_neg hslip]
      split <;> rfl

theorem onFill_cooldownStartNs (m : RiskManager R) (order : Order) (nowNs : Nat) :
    (m.onFill order nowNs).cooldownStartNs =
      if StartsCooldown m order then nowNs else m.cooldownStartNs := by
  have hslips := congrArg Prod.fst (onFill_slips m order nowNs)
  rw [apply_ite Prod.fst] at hslips
  exact hslips

theorem onFill_consecSlipCount (m : RiskManager R) (order : Order) (nowNs : Nat) :
    (m.onFill order nowNs).consecSlipCount =
      if StartsCooldown m order then 0
      else if m.cfg.cooldownSlipTicks < slippageTicks R order then m.consecSlipCount + 1
      else 0 := by
  have hslips := congrArg Prod.snd (onFill_slips m order nowNs)
  rw [apply_ite Prod.snd] at hslips
  exact hslips

/-- The fill a call reports. -/
def fillsOf : RiskCall R → List Order
  | .fill order _ => [order]
  | _ => []

/-- How many slips in a row start a cooldown. -/
def slipLimit (cfg : Config R) : ℕ := (max cfg.cooldownConsecSlips 1).toNat

/-- The fill triggers a cooldown, `before` being the fills before it, newest first: its
slippage exceeds the single abort, or it ends a run of `slipLimit` fills that all exceed the
slip threshold and of which none before it was a trigger. -/
def Triggers (cfg : Config R) (before : List Order) (order : Order) : Prop :=
  cfg.singleSlipAbortTicks < slippageTicks R order ∨
    ∃ run, run <+: before ∧ run.length + 1 = slipLimit cfg ∧
      (∀ o ∈ order :: run, cfg.cooldownSlipTicks < slippageTicks R o) ∧
      ∀ newer o older, (h : before = newer ++ o :: older) → newer.length < run.length →
        ¬ Triggers cfg older o
termination_by before.length
decreasing_by
  rw [h, List.length_append, List.length_cons]
  omega

/-- The fills so far, newest first. -/
def history (before : List Order) (call : RiskCall R) : List Order := fillsOf call ++ before

open Classical in
/-- The time argument of a call that reports a triggering fill. -/
noncomputable def triggerAt (cfg : Config R) (before : List Order) : RiskCall R → List Nat
  | .fill order nowNs => if Triggers cfg before order then [nowNs] else []
  | _ => []

/-- The time arguments of all triggering fills of a run, in order. -/
noncomputable def triggerTimes (cfg : Config R) (calls : List (RiskCall R)) : List Nat :=
  outputs history (triggerAt cfg) [] calls

/-- The newest fills `run` all exceed the slip threshold, and none of them was a trigger. -/
structure SlipRun (cfg : Config R) (before run : List Order) : Prop where
  newest : run <+: before
  exceeds : ∀ o ∈ run, cfg.cooldownSlipTicks < slippageTicks R o
  untriggered : ∀ newer o older, before = newer ++ o :: older → newer.length < run.length →
    ¬ Triggers cfg older o

/-- The counter is the length of the longest run of slips without a trigger. -/
structure CountsSlips (cfg : Config R) (before : List Order) (m : RiskManager R) (n : ℕ) :
    Prop where
  cfg_eq : m.cfg = cfg
  count_eq : m.consecSlipCount = n
  below : n < slipLimit cfg
  greatest : IsGreatest {k | ∃ run, SlipRun cfg before run ∧ run.length = k} n

theorem triggers_iff {cfg : Config R} {before : List Order} {order : Order} :
    Triggers cfg before order ↔ cfg.singleSlipAbortTicks < slippageTicks R order ∨
      cfg.cooldownSlipTicks < slippageTicks R order ∧
        ∃ run, SlipRun cfg before run ∧ run.length + 1 = slipLimit cfg := by
  rw [Triggers]
  apply or_congr_right
  constructor
  · intro h
    obtain ⟨run, hnewest, hlen, hexceeds, huntriggered⟩ := h
    obtain ⟨horder, hrun⟩ := List.forall_mem_cons.mp hexceeds
    exact ⟨horder, run, ⟨hnewest, hrun, huntriggered⟩, hlen⟩
  · intro h
    obtain ⟨horder, run, hrun, hlen⟩ := h
    exact ⟨run, hrun.newest, hlen, List.forall_mem_cons.mpr ⟨horder, hrun.exceeds⟩,
      hrun.untriggered⟩

/-- With the counter at the length of the longest run, `on_fill` starts a cooldown exactly
where the rule says so. -/
theorem startsCooldown_iff {cfg : Config R} {before : List Order} {m : RiskManager R} {n : ℕ}
    (h : CountsSlips cfg before m n) (order : Order) :
    StartsCooldown m order ↔ Triggers cfg before order := by
  rw [triggers_iff, StartsCooldown, h.cfg_eq, h.count_eq]
  refine or_congr_right (and_congr_right fun _ => ?_)
  have hbelow := h.below
  obtain ⟨hmem, hupper⟩ := h.greatest
  constructor
  · intro hle
    obtain ⟨run, hrun, hlen⟩ := hmem
    refine ⟨run, hrun, ?_⟩
    unfold slipLimit at *
    omega
  · intro hex
    obtain ⟨run, hrun, hlen⟩ := hex
    have hle : run.length ≤ n := hupper ⟨run, hrun, rfl⟩
    unfold slipLimit at *
    omega

theorem slipRun_nil (cfg : Config R) (before : List Order) : SlipRun cfg before [] where
  newest := List.nil_prefix
  exceeds _ ho := absurd ho List.not_mem_nil
  untriggered _ _ _ _ hlen := absurd hlen (Nat.not_lt_zero _)

/-- A run that goes on with the newest fill. -/
theorem slipRun_cons_iff {cfg : Config R} {before run : List Order} {order o : Order} :
    SlipRun cfg (order :: before) (o :: run) ↔
      o = order ∧ cfg.cooldownSlipTicks < slippageTicks R order ∧
        ¬ Triggers cfg before order ∧ SlipRun cfg before run := by
  constructor
  · intro h
    obtain ⟨rfl, hnewest⟩ := List.cons_prefix_cons.mp h.newest
    obtain ⟨ho, hexceeds⟩ := List.forall_mem_cons.mp h.exceeds
    refine ⟨rfl, ho, h.untriggered [] o before rfl (Nat.zero_lt_succ _), hnewest, hexceeds, ?_⟩
    intro newer o' older hsplit hlen
    refine h.untriggered (o :: newer) o' older ?_ (Nat.succ_lt_succ hlen)
    rw [hsplit]
    rfl
  · intro h
    obtain ⟨rfl, ho, htrigger, hrun⟩ := h
    refine ⟨List.cons_prefix_cons.mpr ⟨rfl, hrun.newest⟩,
      List.forall_mem_cons.mpr ⟨ho, hrun.exceeds⟩, ?_⟩
    intro newer o' older hsplit hlen
    cases newer with
    | nil =>
      obtain ⟨rfl, rfl⟩ := List.cons.inj hsplit
      exact htrigger
    | cons newest newer =>
      obtain ⟨-, hrest⟩ := List.cons.inj hsplit
      exact hrun.untriggered newer o' older hrest (Nat.lt_of_succ_lt_succ hlen)

/-- A trigger, or a fill within the threshold, leaves no run behind it. -/
theorem greatest_broken {cfg : Config R} {before : List Order} {order : Order}
    (h : Triggers cfg before order ∨ ¬ cfg.cooldownSlipTicks < slippageTicks R order) :
    IsGreatest {k | ∃ run, SlipRun cfg (order :: before) run ∧ run.length = k} 0 := by
  refine ⟨⟨[], slipRun_nil _ _, rfl⟩, ?_⟩
  intro k hk
  obtain ⟨run, hrun, rfl⟩ := hk
  cases run with
  | nil => exact le_rfl
  | cons o run =>
    obtain ⟨-, hexceeds, htrigger, -⟩ := slipRun_cons_iff.mp hrun
    exact absurd h (not_or.mpr ⟨htrigger, not_not.mpr hexceeds⟩)

/-- Any other fill makes the longest run longer by one. -/
theorem greatest_extended {cfg : Config R} {before : List Order} {order : Order} {n : ℕ}
    (h : IsGreatest {k | ∃ run, SlipRun cfg before run ∧ run.length = k} n)
    (hexceeds : cfg.cooldownSlipTicks < slippageTicks R order)
    (htrigger : ¬ Triggers cfg before order) :
    IsGreatest {k | ∃ run, SlipRun cfg (order :: before) run ∧ run.length = k} (n + 1) := by
  obtain ⟨hmem, hupper⟩ := h
  obtain ⟨run, hrun, rfl⟩ := hmem
  refine ⟨⟨order :: run, slipRun_cons_iff.mpr ⟨rfl, hexceeds, htrigger, hrun⟩, rfl⟩, ?_⟩
  intro k hk
  obtain ⟨longer, hlonger, rfl⟩ := hk
  cases longer with
  | nil => exact Nat.zero_le _
  | cons o longer =>
    obtain ⟨-, -, -, hrest⟩ := slipRun_cons_iff.mp hlonger
    exact Nat.succ_le_succ (hupper ⟨longer, hrest, rfl⟩)

theorem countsSlips_fill {cfg : Config R} {before : List Order} {m : RiskManager R} {n : ℕ}
    (h : CountsSlips cfg before m n) (order : Order) (nowNs : Nat) :
    ∃ n', CountsSlips cfg (order :: before) (m.onFill order nowNs) n' := by
  have hcfg : (m.onFill order nowNs).cfg = cfg := (onFill_cfg m order nowNs).trans h.cfg_eq
  have hstarts := startsCooldown_iff h order
  have hcount := onFill_consecSlipCount m order nowNs
  have hlimit : 0 < slipLimit cfg := Nat.zero_lt_of_lt h.below
  by_cases htrigger : Triggers cfg before order
  · rw [if_pos (hstarts.mpr htrigger)] at hcount
    exact ⟨0, hcfg, hcount, hlimit, greatest_broken (Or.inl htrigger)⟩
  · rw [if_neg (hstarts.not.mpr htrigger), h.cfg_eq] at hcount
    by_cases hexceeds : cfg.cooldownSlipTicks < slippageTicks R order
    · rw [if_pos hexceeds, h.count_eq] at hcount
      have hbelow : n + 1 < slipLimit cfg := by
        refine Nat.lt_of_le_of_ne h.below fun hlast => htrigger ?_
        obtain ⟨run, hrun, hlen⟩ := h.greatest.1
        exact triggers_iff.mpr (Or.inr ⟨hexceeds, run, hrun, by rw [hlen]; exact hlast⟩)
      exact ⟨n + 1, hcfg, hcount, hbelow, greatest_extended h.greatest hexceeds htrigger⟩
    · rw [if_neg hexceeds] at hcount
      exact ⟨0, hcfg, hcount, hlimit, greatest_broken (Or.inr hexceeds)⟩

theorem cooldownStartNs_run {cfg : Config R} {before : List Order} {m : RiskManager R} {n : ℕ}
    (h : CountsSlips cfg before m n) (calls : List (RiskCall R)) :
    (run riskStep m calls).cooldownStartNs =
      (outputs history (triggerAt cfg) before calls).getLastD m.cooldownStartNs := by
  induction calls generalizing before m n with
  | nil => rfl
  | cons call calls ih =>
    cases call with
    | fill order nowNs =>
      obtain ⟨n', hnext⟩ := countsSlips_fill h order nowNs
      have hrest := ih hnext
      rw [onFill_cooldownStartNs] at hrest
      rw [run_cons, outputs_cons, riskStep, hrest, triggerAt]
      by_cases htrigger : Triggers cfg before order
      · rw [if_pos ((startsCooldown_iff h order).mpr htrigger), if_pos htrigger]
        exact List.getLastD_cons.symm
      · rw [if_neg ((startsCooldown_iff h order).not.mpr htrigger), if_neg htrigger]
        rfl
    | orderSent order nowNs =>
      exact ih ⟨h.cfg_eq, h.count_eq, h.below, h.greatest⟩
    | reject order => exact ih ⟨h.cfg_eq, h.count_eq, h.below, h.greatest⟩
    | timer nowNs => exact ih h
    | check sig nowNs => exact ih h

/-- After any run of calls the cooldown's start is the time of the last triggering fill, 0
without one. -/
theorem cooldownStartNs_eq_lastTrigger (cfg : Config R) (calls : List (RiskCall R)) :
    (run riskStep { cfg } calls).cooldownStartNs = (triggerTimes cfg calls).getLastD 0 := by
  refine cooldownStartNs_run (n := 0) ⟨rfl, rfl, ?_, ?_⟩ calls
  · rw [slipLimit]
    omega
  · refine ⟨⟨[], slipRun_nil cfg [], rfl⟩, fun k hk => ?_⟩
    obtain ⟨run, hrun, rfl⟩ := hk
    rw [List.prefix_nil.mp hrun.newest]
    exact le_rfl

/-- The manager reports a cooldown and lets no signal through. -/
def Blocks (m : RiskManager R) (nowNs : Nat) : Prop :=
  m.inCooldown nowNs = true ∧ ∀ sig, m.checkSignal sig nowNs = false

def NoFill (call : RiskCall R) : Prop := fillsOf call = []

omit [LinearOrder R] in
theorem blocks_iff {m : RiskManager R} {nowNs : Nat} :
    Blocks m nowNs ↔ m.inCooldown nowNs = true := by
  apply and_iff_left_of_imp
  intro h sig
  rw [checkSignal, h, if_pos rfl]
  split_ifs <;> rfl

omit [LinearOrder R] in
/-- Before its start the elapsed time wraps to more than any duration that fits behind it. -/
theorem inCooldown_iff {m : RiskManager R} {nowNs : Nat} (hstart : m.cooldownStartNs ≠ 0)
    (hfit : m.cooldownStartNs + m.cfg.cooldownDurationNs < Word64.size)
    (hnow : nowNs < m.cooldownStartNs + m.cfg.cooldownDurationNs) :
    m.inCooldown nowNs = true ↔ m.cooldownStartNs ≤ nowNs := by
  rw [inCooldown, if_neg hstart, decide_eq_true_eq]
  by_cases hle : m.cooldownStartNs ≤ nowNs
  · rw [Word64.sub_of_le hle (by omega)]
    exact iff_of_true (by omega) hle
  · rw [Word64.sub_of_lt (by omega) (by omega)]
    exact iff_of_false (by omega) hle

theorem riskStep_of_noFill {m : RiskManager R} {call : RiskCall R} (h : NoFill call) :
    (riskStep m call).cooldownStartNs = m.cooldownStartNs ∧ (riskStep m call).cfg = m.cfg := by
  cases call with
  | fill order nowNs => exact absurd h (List.cons_ne_nil _ _)
  | orderSent | reject | timer | check => exact ⟨rfl, rfl⟩

theorem run_of_noFill {m : RiskManager R} {calls : List (RiskCall R)}
    (h : ∀ call ∈ calls, NoFill call) :
    (run riskStep m calls).cooldownStartNs = m.cooldownStartNs ∧
      (run riskStep m calls).cfg = m.cfg := by
  induction calls generalizing m with
  | nil => exact ⟨rfl, rfl⟩
  | cons call calls ih =>
    obtain ⟨hcall, hcalls⟩ := List.forall_mem_cons.mp h
    obtain ⟨hstart, hcfg⟩ := riskStep_of_noFill (m := m) hcall
    rw [run_cons, ← hstart, ← hcfg]
    exact ih hcalls

/-- A cooldown that a fill has started, however it did, covers of its period exactly the clock
readings from the fill on, whatever other calls follow. -/
theorem blocks_iff_le (m : RiskManager R) (order : Order) {start nowNs : Nat} (hpos : 0 < start)
    (hstarts : StartsCooldown m order) {later : List (RiskCall R)}
    (hlater : ∀ call ∈ later, NoFill call)
    (hfit : start + m.cfg.cooldownDurationNs < 2 ^ 64)
    (hnow : nowNs < start + m.cfg.cooldownDurationNs) :
    Blocks (run riskStep (m.onFill order start) later) nowNs ↔ start ≤ nowNs := by
  obtain ⟨hstart, hcfg⟩ := run_of_noFill (m := m.onFill order start) hlater
  rw [onFill_cooldownStartNs, if_pos hstarts] at hstart
  rw [onFill_cfg] at hcfg
  rw [blocks_iff, inCooldown_iff, hstart]
  · rw [hstart]
    exact hpos.ne'
  · rw [hstart, hcfg]
    exact hfit
  · rw [hstart, hcfg]
    exact hnow

/-- A fill 6 ticks away from its signal price. -/
def badFill : Order := { side := .buy, signalL1 := 200000, fillPrice := 200600, qty := 1 }

theorem blocks_iff_le_badFill :
    Blocks (run riskStep (({ cfg := {} } : RiskManager ℚ).onFill badFill 1000001000)
      [.timer 1000000000]) 1000000000 ↔ 1000001000 ≤ 1000000000 :=
  blocks_iff_le _ badFill (by decide) (by decide +kernel) (by simp [NoFill, fillsOf]) (by decide)
    (by decide)

/-- A signal checked with a clock reading taken 1 µs before the fill passes. -/
theorem not_blocks_earlierReading :
    StartsCooldown ({ cfg := {} } : RiskManager ℚ) badFill ∧
      ¬ ∀ nowNs < 1000001000 + 60000000000,
        Blocks (({ cfg := {} } : RiskManager ℚ).onFill badFill 1000001000) nowNs := by
  refine ⟨by decide +kernel, fun h => ?_⟩
  have hpassed := (h 1000000000 (by decide)).2 { direction := .buy }
  revert hpassed
  decide +kernel

end SmartQuant.Cooldown
