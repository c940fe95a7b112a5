import Mathlib.Algebra.BigOperators.Group.List.Defs
import Mathlib.Logic.Function.Iterate
import Mathlib.Tactic.Ring
import SmartQuant.Lib.Runs
import SmartQuant.Oms.OrderManager

/-!
# Fills in pieces

`on_execution_report` reads LastQty and makes no use of it: every report of a fill is
charged as one whole trade. An order filled in `n + 1` pieces counts as `n + 1`
trades with the slippage of each, and moves the counters of the cooldown as often.
-/
namespace SmartQuant.SplitFills

open Std OrderManager RiskManager Runs

variable {R : Type*} [Field R] [LinearOrder R]

/-- What the risk manager keeps of the fills of a day. -/
structure Accounting (R : Type*) where
  dailyPnl : R
  totalTrades : Nat
  cooldownStartNs : Nat
  consecSlipCount : Int
  fused : Bool

def accounting (r : RiskManager R) : Accounting R :=
  ⟨r.dailyPnl, r.totalTrades, r.cooldownStartNs, r.consecSlipCount, r.fused⟩

/-- A report that some quantity was filled at a price. -/
def fillReport (id : String) (et : ExecType) (px qty : ℚ) : ExecutionReport :=
  { clordid := some id, execType := some et, lastPx := some px, lastQty := some qty }

/-- The reports of partial fills at one price, and the one that completes the order. -/
def inPieces (id : String) (px : ℚ) (partials : List ℚ) (last : ℚ) : List ExecutionReport :=
  partials.map (fillReport id .partialFill px) ++ [fillReport id .fill px last]

/-- The reports of one time reach the handler in their order. -/
def deliverAt (t : Nat) (m : OrderManager R) (r : ExecutionReport) : OrderManager R :=
  m.onExecutionReport r t

/-- Reporting the fill in pieces or at once leads to the same accounts. -/
def SameAccounting (m : OrderManager R) (id : String) (o : Order) (px : ℚ) (t : Nat)
    (partials : List ℚ) (last : ℚ) : Prop :=
  accounting (run (deliverAt t) m (inPieces id px partials last)).riskMgr =
    accounting (run (deliverAt t) m [fillReport id .fill px o.qty]).riskMgr

def pricedAt (o : Order) (px : ℚ) : Order := { o with fillPrice := toPrice px }

/-- One charge of the order as a whole trade. -/
def charge (o : Order) (px : ℚ) (t : Nat) (r : RiskManager R) : RiskManager R :=
  r.onFill (pricedAt o px) t

section Report

variable {m : OrderManager R} {id : String} {o : Order}

theorem riskMgr_of_fill (hopen : m.openOrders[id]? = some o) (px qty : ℚ) (t : Nat) :
    (m.onExecutionReport (fillReport id .fill px qty) t).riskMgr = charge o px t m.riskMgr := by
  rw [onExecutionReport, fillReport]
  simp only [hopen]
  exact onFill_congr rfl rfl _ _

/-- A partial fill is charged like a fill, and leaves the order open at its signal price. -/
theorem of_partialFill (hopen : m.openOrders[id]? = some o) (px qty : ℚ) (t : Nat) :
    (m.onExecutionReport (fillReport id .partialFill px qty) t).riskMgr =
        charge o px t m.riskMgr ∧
      ∃ o', (m.onExecutionReport (fillReport id .partialFill px qty) t).openOrders[id]? =
        some o' ∧ o'.signalL1 = o.signalL1 := by
  rw [onExecutionReport, fillReport]
  simp only [hopen]
  refine ⟨onFill_congr rfl rfl _ _, ?_⟩
  refine ⟨{ o with fillPrice := toPrice px, fillTsNs := t, status := .pending }, ?_, rfl⟩
  exact ExtTreeMap.getElem?_insert_self

end Report

theorem charge_congr {o o' : Order} (hsignal : o'.signalL1 = o.signalL1) (px : ℚ) (t : Nat) :
    (charge o' px t : RiskManager R → RiskManager R) = charge o px t := by
  funext r
  have hpriced : (pricedAt o' px).signalL1 = (pricedAt o px).signalL1 := hsignal
  refine onFill_congr ?_ hpriced r t
  rfl

theorem run_partials {m : OrderManager R} {id : String} {o : Order}
    (hopen : m.openOrders[id]? = some o) (px : ℚ) (t : Nat) (partials : List ℚ) :
    (run (deliverAt t) m (partials.map (fillReport id .partialFill px))).riskMgr =
        (charge o px t)^[partials.length] m.riskMgr ∧
      ∃ o', (run (deliverAt t) m (partials.map (fillReport id .partialFill px))).openOrders[id]? =
        some o' ∧ o'.signalL1 = o.signalL1 := by
  induction partials generalizing m o with
  | nil => exact ⟨rfl, o, hopen, rfl⟩
  | cons qty partials ih =>
    obtain ⟨hrisk, o', hopen', hsignal⟩ := of_partialFill hopen px qty t
    obtain ⟨hrun, o'', hopen'', hsignal'⟩ := ih hopen'
    rw [List.map_cons, run_cons, List.length_cons, Function.iterate_succ_apply]
    refine ⟨?_, o'', hopen'', hsignal'.trans hsignal⟩
    rw [← hrisk, ← charge_congr hsignal]
    exact hrun

/-- The order is charged once for every report. -/
theorem run_inPieces {m : OrderManager R} {id : String} {o : Order}
    (hopen : m.openOrders[id]? = some o) (px : ℚ) (t : Nat) (partials : List ℚ) (last : ℚ) :
    (run (deliverAt t) m (inPieces id px partials last)).riskMgr =
      (charge o px t)^[partials.length + 1] m.riskMgr := by
  obtain ⟨hrun, o', hopen', hsignal⟩ := run_partials hopen px t partials
  rw [inPieces, run_concat, Function.iterate_succ_apply', ← hrun, ← charge_congr hsignal]
  exact riskMgr_of_fill hopen' px last t

theorem iterate_charge_totalTrades (o : Order) (px : ℚ) (t : Nat) (r : RiskManager R) (n : Nat) :
    ((charge o px t)^[n] r).totalTrades = r.totalTrades + n := by
  induction n with
  | zero => rfl
  | succ n ih =>
    rw [Function.iterate_succ_apply', charge, onFill_totalTrades, ih]
    rfl

theorem iterate_charge_cfg (o : Order) (px : ℚ) (t : Nat) (r : RiskManager R) (n : Nat) :
    ((charge o px t)^[n] r).cfg = r.cfg := by
  induction n with
  | zero => rfl
  | succ n ih => rw [Function.iterate_succ_apply', charge, onFill_cfg, ih]

/-- The slippage of the whole trade is taken off once for every report. -/
theorem iterate_charge_dailyPnl (o : Order) (px : ℚ) (t : Nat) (r : RiskManager R) (n : Nat) :
    ((charge o px t)^[n] r).dailyPnl =
      r.dailyPnl + n * (-slippageTicks R (pricedAt o px) * r.cfg.tickSizeUsd) := by
  induction n with
  | zero => simp
  | succ n ih =>
    rw [Function.iterate_succ_apply', charge, onFill_dailyPnl, ih, iterate_charge_cfg]
    push_cast
    ring

/-- The loss of a fill is multiplied by the number of its reports. -/
theorem dailyPnl_inPieces {m : OrderManager R} {id : String} {o : Order}
    (hopen : m.openOrders[id]? = some o) (px : ℚ) (t : Nat) (partials : List ℚ) (last : ℚ) :
    (run (deliverAt t) m (inPieces id px partials last)).riskMgr.dailyPnl =
      m.riskMgr.dailyPnl + (partials.length + 1 : ℕ) *
        (-slippageTicks R (pricedAt o px) * m.riskMgr.cfg.tickSizeUsd) := by
  rw [run_inPieces hopen, iterate_charge_dailyPnl]

/-- For every state, open order, price and time, and every way to split the quantity: the
accounts come out the same exactly when the fill is reported at once. -/
theorem sameAccounting_iff {m : OrderManager R} {id : String} {o : Order}
    (hopen : m.openOrders[id]? = some o) (px : ℚ) (t : Nat) {partials : List ℚ} {last : ℚ}
    (hsum : partials.sum + last = o.qty) :
    SameAccounting m id o px t partials last ↔ partials = [] := by
  constructor
  · intro hsame
    have htrades := congrArg Accounting.totalTrades hsame
    change (run (deliverAt t) m (inPieces id px partials last)).riskMgr.totalTrades =
      (run (deliverAt t) m (inPieces id px [] o.qty)).riskMgr.totalTrades at htrades
    rw [run_inPieces hopen, run_inPieces hopen, iterate_charge_totalTrades,
      iterate_charge_totalTrades, List.length_nil] at htrades
    exact List.eq_nil_of_length_eq_zero (by omega)
  · rintro rfl
    rw [List.sum_nil, zero_add] at hsum
    rw [SameAccounting, hsum]
    rfl

/-- A manager with an order for two lots under way. -/
def twoLots (cfg : RiskManager.Config ℚ) : OrderManager ℚ :=
  (({ riskMgr := { cfg } } : OrderManager ℚ).onLogon.sendIoc .buy 2 200000 1000000000 true).1

def twoLotsOrder : Order := iocOrder "SQ_1" .buy 2 200000 1000000000

theorem open_twoLots : (twoLots {}).openOrders["SQ_1"]? = some twoLotsOrder := by
  decide +kernel

theorem sameAccounting_iff_twoLots :
    SameAccounting (twoLots {}) "SQ_1" twoLotsOrder 2003 1001000000 [] 2 ↔ ([] : List ℚ) = [] :=
  sameAccounting_iff open_twoLots 2003 1001000000 (by decide +kernel)

/-- Two lots filled one by one count as two trades. -/
theorem not_sameAccounting_oneByOne :
    (twoLots {}).openOrders["SQ_1"]? = some twoLotsOrder ∧
      ([1] : List ℚ).sum + 1 = twoLotsOrder.qty ∧
      ¬ SameAccounting (twoLots {}) "SQ_1" twoLotsOrder 2003 1001000000 [1] 1 := by
  refine ⟨open_twoLots, by decide +kernel, fun hsame => ?_⟩
  have htrades := congrArg Accounting.totalTrades hsame
  exact absurd htrades (by decide +kernel)

end SmartQuant.SplitFills
