import Mathlib.Algebra.Order.Field.Basic
import SmartQuant.Common.Types
import SmartQuant.Lib.Word64

/-!
# Risk manager

The guard before every signal and after every fill. `R` stands for `double`: the
definitions use only field operations and comparisons, so they run over the
rationals and are proved over every ordered field.
-/
namespace SmartQuant

variable {R : Type*} [Field R]

structure RiskManager.Config (R : Type*) [Field R] where
  maxDailyLossUsd : R := 50
  tickSizeUsd : R := 1
  cooldownConsecSlips : Int := 3
  cooldownSlipTicks : R := 2
  singleSlipAbortTicks : R := 5
  cooldownDurationNs : Nat := 60000000000
  positionTimeoutNs : Nat := 5000000000

structure RiskManager (R : Type*) [Field R] where
  cfg : RiskManager.Config R
  hasPosition : Bool := false
  openOrder : Order := {}
  positionOpenNs : Nat := 0
  dailyPnl : R := 0
  fused : Bool := false
  consecSlipCount : Int := 0
  cooldownStartNs : Nat := 0
  totalTrades : Nat := 0

namespace RiskManager

def inCooldown (m : RiskManager R) (nowNs : Nat) : Bool :=
  if m.cooldownStartNs = 0 then false
  else Word64.sub nowNs m.cooldownStartNs < m.cfg.cooldownDurationNs

def checkSignal (m : RiskManager R) (_sig : Signal R) (nowNs : Nat) : Bool :=
  if m.fused then false
  else if m.hasPosition then false
  else if m.inCooldown nowNs then false
  else true

theorem checkSignal_of_fused {m : RiskManager R} (h : m.fused = true) (sig : Signal R) (t : Nat) :
    m.checkSignal sig t = false := by
  simp [checkSignal, h]

theorem checkSignal_of_hasPosition {m : RiskManager R} (h : m.hasPosition = true) (sig : Signal R)
    (t : Nat) : m.checkSignal sig t = false := by
  simp [checkSignal, h]

theorem hasPosition_of_checkSignal {m : RiskManager R} {sig : Signal R} {t : Nat}
    (h : m.checkSignal sig t = true) : m.hasPosition = false := by
  by_contra hc
  rw [checkSignal_of_hasPosition (by simpa using hc)] at h
  exact absurd h (by decide)

def onOrderSent (m : RiskManager R) (order : Order) (nowNs : Nat) : RiskManager R :=
  { m with hasPosition := true, openOrder := order, positionOpenNs := nowNs }

def onReject (m : RiskManager R) (_order : Order) : RiskManager R :=
  { m with hasPosition := false }

/-- The order `on_timer` hands to the force-close callback, if it invokes it. -/
def onTimer (m : RiskManager R) (nowNs : Nat) : Option Order :=
  if !m.hasPosition then none
  else if m.cfg.positionTimeoutNs ≤ Word64.sub nowNs m.positionOpenNs then some m.openOrder
  else none

theorem onTimer_eq_some {m : RiskManager R} {t : Nat} {o : Order} (h : m.onTimer t = some o) :
    m.hasPosition = true ∧ o = m.openOrder := by
  rw [onTimer] at h
  split_ifs at h with h1
  exact ⟨by simpa using h1, (Option.some.inj h).symm⟩

def resetDaily (m : RiskManager R) : RiskManager R :=
  { m with
    dailyPnl := 0
    fused := false
    consecSlipCount := 0
    cooldownStartNs := 0
    hasPosition := false
    totalTrades := 0 }

variable [LinearOrder R]

def slippageTicks (R : Type*) [Field R] [LinearOrder R] (o : Order) : R :=
  if o.fillPrice = 0 ∨ o.signalL1 = 0 then 0
  else |((o.fillPrice - o.signalL1 : Int) : R)| / (kPriceScale : R)

def onFill (m : RiskManager R) (order : Order) (nowNs : Nat) : RiskManager R :=
  let slip : R := slippageTicks R order
  let m := { m with
    hasPosition := false
    totalTrades := m.totalTrades + 1
    dailyPnl := m.dailyPnl + -slip * m.cfg.tickSizeUsd }
  if m.cfg.singleSlipAbortTicks < slip then
    -- the hard abort returns here, before the loss check
    { m with cooldownStartNs := nowNs, consecSlipCount := 0 }
  else
    let m :=
      if m.cfg.cooldownSlipTicks < slip then
        if m.cfg.cooldownConsecSlips ≤ m.consecSlipCount + 1 then
          { m with cooldownStartNs := nowNs, consecSlipCount := 0 }
        else { m with consecSlipCount := m.consecSlipCount + 1 }
      else { m with consecSlipCount := 0 }
    if m.dailyPnl < -m.cfg.maxDailyLossUsd then { m with fused := true } else m

@[simp] theorem onFill_cfg (m : RiskManager R) (o : Order) (t : Nat) :
    (m.onFill o t).cfg = m.cfg := by
  simp only [onFill]
  split_ifs <;> rfl

@[simp] theorem onFill_hasPosition (m : RiskManager R) (o : Order) (t : Nat) :
    (m.onFill o t).hasPosition = false := by
  simp only [onFill]
  split_ifs <;> rfl

@[simp] theorem onFill_totalTrades (m : RiskManager R) (o : Order) (t : Nat) :
    (m.onFill o t).totalTrades = m.totalTrades + 1 := by
  simp only [onFill]
  split_ifs <;> rfl

@[simp] theorem onFill_dailyPnl (m : RiskManager R) (o : Order) (t : Nat) :
    (m.onFill o t).dailyPnl = m.dailyPnl + -slippageTicks R o * m.cfg.tickSizeUsd := by
  simp only [onFill]
  split_ifs <;> rfl

/-- A fill trips the fuse on the loss limit, except on the abort path. -/
theorem onFill_fused (m : RiskManager R) (o : Order) (t : Nat) :
    (m.onFill o t).fused =
      if m.cfg.singleSlipAbortTicks < slippageTicks R o then m.fused
      else m.fused || decide ((m.onFill o t).dailyPnl < -m.cfg.maxDailyLossUsd) := by
  rw [onFill_dailyPnl]
  simp only [onFill]
  split_ifs <;> simp_all

/-- Of the order a fill reads the two prices. -/
theorem onFill_congr {o o' : Order} (hprice : o'.fillPrice = o.fillPrice)
    (hsignal : o'.signalL1 = o.signalL1) (m : RiskManager R) (t : Nat) :
    m.onFill o' t = m.onFill o t := by
  have hslip : slippageTicks R o' = slippageTicks R o := by
    rw [slippageTicks, slippageTicks, hprice, hsignal]
  rw [onFill, onFill, hslip]

/-- A fill neither reads nor writes what was kept for the position. -/
theorem onFill_openOrder (m : RiskManager R) (held o : Order) (openNs t : Nat) :
    { m with openOrder := held, positionOpenNs := openNs }.onFill o t =
      { m.onFill o t with openOrder := held, positionOpenNs := openNs } := by
  simp only [onFill]
  split_ifs <;> rfl

end RiskManager
end SmartQuant
