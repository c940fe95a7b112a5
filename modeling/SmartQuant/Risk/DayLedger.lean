import Mathlib.Algebra.BigOperators.Group.List.Basic
import Mathlib.Tactic.Ring
import SmartQuant.Risk.Cooldown

/-!
# The day's ledger

`reset_daily` may come at any moment. What it leaves standing (the order kept for the
position and its time) no query looks at before the next order is sent, so that every
query answers as a manager would that was built at the last reset, and what it answers can be
computed from the calls since then.
-/
namespace SmartQuant.DayLedger

open RiskManager DailyLoss Cooldown Runs

variable {R : Type*} [Field R]

/-- The calls of a manager's whole life. -/
inductive DayCall (R : Type*) [Field R] where
  | call (c : RiskCall R)
  | resetDaily

/-- The calls since the last reset. -/
def sinceReset (day : List (RiskCall R)) : DayCall R → List (RiskCall R)
  | .call c => day ++ [c]
  | .resetDaily => []

def today (calls : List (DayCall R)) : List (RiskCall R) := run sinceReset [] calls

/-- Every query has one answer. -/
structure SameAnswers (m m' : RiskManager R) : Prop where
  checkSignal : ∀ sig nowNs, m.checkSignal sig nowNs = m'.checkSignal sig nowNs
  onTimer : ∀ nowNs, m.onTimer nowNs = m'.onTimer nowNs
  inCooldown : ∀ nowNs, m.inCooldown nowNs = m'.inCooldown nowNs
  hasPosition : m.hasPosition = m'.hasPosition
  dailyPnl : m.dailyPnl = m'.dailyPnl
  fused : m.fused = m'.fused
  totalTrades : m.totalTrades = m'.totalTrades

/-- The order was sent, and nothing since has ended its position. -/
def Held (day : List (RiskCall R)) (o : Order) (t : Nat) : Prop :=
  ∃ pre post, day = pre ++ .orderSent o t :: post ∧
    ∀ c ∈ post, (∃ nowNs, c = .timer nowNs) ∨ ∃ sig nowNs, c = .check sig nowNs

variable [LinearOrder R]

def dayStep (m : RiskManager R) : DayCall R → RiskManager R
  | .call c => riskStep m c
  | .resetDaily => m.resetDaily

/-- The slippage cost of all fills. -/
def lossOf (cfg : Config R) (day : List (RiskCall R)) : R :=
  ((day.flatMap fillsOf).map (slippageTicks R)).sum * cfg.tickSizeUsd

/-- The fill passed the abort and found the loss beyond the limit. -/
def Trips (cfg : Config R) (pre : List (RiskCall R)) (o : Order) (t : Nat) : Prop :=
  slippageTicks R o ≤ cfg.singleSlipAbortTicks ∧
    -lossOf cfg (pre ++ [.fill o t]) < -cfg.maxDailyLossUsd

/-- What the manager answers, by the calls of the day. -/
structure Ledger (cfg : Config R) (day : List (RiskCall R)) (m : RiskManager R) : Prop where
  fresh : SameAnswers m (run riskStep { cfg } day)
  pnl : m.dailyPnl = -lossOf cfg day
  trades : m.totalTrades = (day.flatMap fillsOf).length
  position : m.hasPosition = true ↔ ∃ o t, Held day o t
  timer : ∀ nowNs o, m.onTimer nowNs = some o ↔
    ∃ t, Held day o t ∧ cfg.positionTimeoutNs ≤ Word64.sub nowNs t
  fuse : m.fused = true ↔ ∃ pre o t post, day = pre ++ .fill o t :: post ∧ Trips cfg pre o t

/-- The managers agree but for what is kept for a position that is not open. -/
structure Agrees (m m' : RiskManager R) : Prop where
  rest : m' = { m with openOrder := m'.openOrder, positionOpenNs := m'.positionOpenNs }
  held : m.hasPosition = true →
    m'.openOrder = m.openOrder ∧ m'.positionOpenNs = m.positionOpenNs

section Agrees

variable {m m' : RiskManager R}

theorem Agrees.riskStep (h : Agrees m m') (c : RiskCall R) :
    Agrees (DailyLoss.riskStep m c) (DailyLoss.riskStep m' c) := by
  cases c with
  | orderSent o t =>
    refine ⟨?_, fun _ => ⟨rfl, rfl⟩⟩
    rw [DailyLoss.riskStep, DailyLoss.riskStep, h.rest]
    rfl
  | fill o t =>
    refine ⟨?_, fun hp => ?_⟩
    · rw [DailyLoss.riskStep, DailyLoss.riskStep, h.rest, onFill_openOrder]
    · rw [DailyLoss.riskStep, onFill_hasPosition] at hp
      cases hp
  | reject o =>
    refine ⟨?_, fun hp => absurd hp Bool.false_ne_true⟩
    rw [DailyLoss.riskStep, DailyLoss.riskStep, h.rest]
    rfl
  | timer | check => exact h

theorem Agrees.run (h : Agrees m m') (day : List (RiskCall R)) :
    Agrees (Runs.run DailyLoss.riskStep m day) (Runs.run DailyLoss.riskStep m' day) := by
  induction day generalizing m m' with
  | nil => exact h
  | cons c day ih => exact ih (h.riskStep c)

omit [LinearOrder R] in
/-- A query looks at the kept order only while a position is open. -/
theorem Agrees.sameAnswers (h : Agrees m m') : SameAnswers m m' := by
  have hcfg : m'.cfg = m.cfg := by rw [h.rest]
  have hflag : m'.hasPosition = m.hasPosition := by rw [h.rest]
  have hfused : m'.fused = m.fused := by rw [h.rest]
  have hcooldown : ∀ nowNs, m.inCooldown nowNs = m'.inCooldown nowNs := by
    intro nowNs
    rw [h.rest]
    rfl
  refine ⟨fun sig nowNs => ?_, fun nowNs => ?_, hcooldown, hflag.symm, ?_, hfused.symm, ?_⟩
  · rw [checkSignal, checkSignal, hcooldown, hflag, hfused]
  · rw [onTimer, onTimer, hcfg, hflag]
    cases hp : m.hasPosition with
    | false => rfl
    | true => rw [(h.held hp).1, (h.held hp).2]
  · rw [h.rest]
  · rw [h.rest]

end Agrees

theorem run_cfg (m : RiskManager R) (day : List (RiskCall R)) :
    (run riskStep m day).cfg = m.cfg := by
  induction day generalizing m with
  | nil => rfl
  | cons c day ih =>
    rw [run_cons, ih]
    cases c with
    | fill o t => exact onFill_cfg m o t
    | orderSent | reject | timer | check => rfl

theorem agrees_today (cfg : Config R) (calls : List (DayCall R)) :
    Agrees (run dayStep { cfg } calls) (run riskStep { cfg } (today calls)) := by
  induction calls using List.reverseRecOn with
  | nil => exact ⟨rfl, fun _ => ⟨rfl, rfl⟩⟩
  | append_singleton calls c ih =>
    rw [today, run_concat, run_concat, ← today]
    cases c with
    | call c =>
      rw [sinceReset, run_concat]
      exact ih.riskStep c
    | resetDaily =>
      have hcfg : (run dayStep { cfg } calls).cfg = cfg := by
        have hrun := run_cfg { cfg } (today calls)
        rw [ih.rest] at hrun
        exact hrun
      refine ⟨?_, fun hp => absurd hp Bool.false_ne_true⟩
      rw [dayStep, resetDaily, hcfg]
      rfl

section Day

variable (cfg : Config R) (day : List (RiskCall R))

theorem lossOf_fill (o : Order) (t : Nat) : lossOf cfg (day ++ [.fill o t]) =
    lossOf cfg day + slippageTicks R o * cfg.tickSizeUsd := by
  rw [lossOf, lossOf, List.flatMap_append, List.map_append, List.sum_append, add_mul]
  simp [fillsOf]

omit [LinearOrder R] in
theorem flatMap_fillsOf_of_noFill {c : RiskCall R} (hc : fillsOf c = []) :
    (day ++ [c]).flatMap fillsOf = day.flatMap fillsOf := by
  simp [hc]

theorem run_dailyPnl : (run riskStep { cfg } day).dailyPnl = -lossOf cfg day := by
  induction day using List.reverseRecOn with
  | nil => simp [lossOf]
  | append_singleton day c ih =>
    rw [run_concat]
    cases c with
    | fill o t =>
      rw [riskStep, onFill_dailyPnl, run_cfg, ih, lossOf_fill]
      ring
    | orderSent | reject | timer | check =>
      rw [lossOf, flatMap_fillsOf_of_noFill _ rfl]
      exact ih

theorem run_totalTrades :
    (run riskStep { cfg } day).totalTrades = (day.flatMap fillsOf).length := by
  induction day using List.reverseRecOn with
  | nil => rfl
  | append_singleton day c ih =>
    rw [run_concat]
    cases c with
    | fill o t =>
      rw [riskStep, onFill_totalTrades, ih, List.flatMap_append, List.length_append]
      rfl
    | orderSent | reject | timer | check =>
      rw [flatMap_fillsOf_of_noFill _ rfl]
      exact ih

omit [LinearOrder R] in
theorem held_concat_iff (c : RiskCall R) (o : Order) (t : Nat) :
    Held (day ++ [c]) o t ↔ c = .orderSent o t ∨
      Held day o t ∧ ((∃ nowNs, c = .timer nowNs) ∨ ∃ sig nowNs, c = .check sig nowNs) := by
  constructor
  · rintro ⟨pre, post, hday, hpost⟩
    obtain ⟨-, hc, -⟩ | ⟨post', rfl, hrest⟩ := concat_eq_split.mp hday
    · exact Or.inl hc
    · refine Or.inr ⟨⟨pre, post', hrest, fun c' hc' => ?_⟩, ?_⟩
      · exact hpost c' (List.mem_append_left _ hc')
      · exact hpost c (List.mem_append_right _ List.mem_cons_self)
  · rintro (rfl | ⟨⟨pre, post, rfl, hpost⟩, hc⟩)
    · exact ⟨day, [], rfl, by simp⟩
    · refine ⟨pre, post ++ [c], by simp, fun c' hc' => ?_⟩
      rcases List.mem_append.mp hc' with hc' | hc'
      · exact hpost c' hc'
      · rwa [List.mem_singleton.mp hc']

theorem run_held (o : Order) (t : Nat) : Held day o t ↔
    (run riskStep { cfg } day).hasPosition = true ∧
      (run riskStep { cfg } day).openOrder = o ∧
      (run riskStep { cfg } day).positionOpenNs = t := by
  induction day using List.reverseRecOn with
  | nil =>
    refine iff_of_false ?_ fun h => absurd h.1 Bool.false_ne_true
    rintro ⟨pre, post, hday, -⟩
    simp at hday
  | append_singleton day c ih =>
    rw [run_concat, held_concat_iff]
    cases c with
    | orderSent o' t' => simp [riskStep, onOrderSent]
    | fill o' t' => simp [riskStep]
    | reject o' => simp [riskStep, onReject]
    | timer | check => simp [riskStep, ih]

theorem trips_concat_iff (c : RiskCall R) :
    (∃ pre o t post, day ++ [c] = pre ++ .fill o t :: post ∧ Trips cfg pre o t) ↔
      (∃ pre o t post, day = pre ++ .fill o t :: post ∧ Trips cfg pre o t) ∨
        ∃ o t, c = .fill o t ∧ Trips cfg day o t := by
  constructor
  · rintro ⟨pre, o, t, post, hday, htrips⟩
    obtain ⟨rfl, hc, -⟩ | ⟨post', -, hday⟩ := concat_eq_split.mp hday
    · exact Or.inr ⟨o, t, hc, htrips⟩
    · exact Or.inl ⟨pre, o, t, post', hday, htrips⟩
  · rintro (⟨pre, o, t, post, rfl, htrips⟩ | ⟨o, t, rfl, htrips⟩)
    · exact ⟨pre, o, t, post ++ [c], by simp, htrips⟩
    · exact ⟨day, o, t, [], rfl, htrips⟩

theorem run_fused : (run riskStep { cfg } day).fused = true ↔
    ∃ pre o t post, day = pre ++ .fill o t :: post ∧ Trips cfg pre o t := by
  induction day using List.reverseRecOn with
  | nil => simp
  | append_singleton day c ih =>
    rw [run_concat, trips_concat_iff, ← ih]
    cases c with
    | fill o t =>
      have hloss : (run riskStep { cfg } day).dailyPnl +
          -slippageTicks R o * cfg.tickSizeUsd = -lossOf cfg (day ++ [.fill o t]) := by
        rw [run_dailyPnl, lossOf_fill]
        ring
      rw [riskStep, onFill_fused, onFill_dailyPnl, run_cfg, hloss]
      by_cases habort : cfg.singleSlipAbortTicks < slippageTicks R o
      · simp [Trips, habort]
      · simp [Trips, habort, not_lt.mp habort]
    | orderSent | reject | timer | check => simp [riskStep, onOrderSent, onReject]

end Day

/-- Through any number of days and resets: the manager answers every query as one built at the
last reset would, and as the calls since then add up. -/
theorem ledger_run (cfg : Config R) (calls : List (DayCall R)) :
    Ledger cfg (today calls) (run dayStep { cfg } calls) := by
  have hsame := (agrees_today cfg calls).sameAnswers
  have hheld := run_held cfg (today calls)
  refine ⟨hsame, ?_, ?_, ?_, fun nowNs o => ?_, ?_⟩
  · rw [hsame.dailyPnl, run_dailyPnl]
  · rw [hsame.totalTrades, run_totalTrades]
  · rw [hsame.hasPosition]
    simp [hheld]
  · rw [hsame.onTimer, onTimer, run_cfg]
    constructor
    · intro h
      split_ifs at h with hflag hlate
      have hpos : (run riskStep { cfg } (today calls)).hasPosition = true := by simpa using hflag
      exact ⟨_, (hheld o _).mpr ⟨hpos, Option.some.inj h, rfl⟩, hlate⟩
    · rintro ⟨t, hopen, hlate⟩
      obtain ⟨hpos, rfl, rfl⟩ := (hheld o t).mp hopen
      simp [hpos, hlate]
  · rw [hsame.fused, run_fused]

end SmartQuant.DayLedger
