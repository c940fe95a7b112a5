import SmartQuant.Lib.Runs
import SmartQuant.Oms.OrderManager

/-!
# The alpha loop and the trade session

The alpha thread runs through its loop body handler by handler: `on_timer` with
its force-close callback, `check_signal`, `send_ioc`. The trade session delivers
execution reports and logons in between. Each handler call is one step. What the
loop takes from the market (event time, best prices, the signal engine's answer)
and from the session (whether a send finds it) are inputs of the step, so a
run stands for every market and every session.
-/
namespace SmartQuant

open Std OrderManager

/-- Where the alpha thread stands in its loop body: before `queue.pop` and `on_timer`, behind
`on_timer`, or behind a `check_signal` that let the signal pass. -/
inductive AlphaPc (R : Type*) [Field R] where
  | pop
  | polled (nowNs : Nat)
  | cleared (nowNs : Nat) (sig : Signal R)

inductive SendKind where
  | signal | forceClose
  deriving DecidableEq, Repr

structure SentOrder where
  kind : SendKind
  order : Order
  deriving DecidableEq

structure Engine (R : Type*) [Field R] where
  oms : OrderManager R
  pc : AlphaPc R := .pop
  sent : List SentOrder := []

/-- What one handler call of the alpha thread reads from outside. -/
structure AlphaInput (R : Type*) [Field R] where
  nowNs : Nat := 0
  bestBid : Int := 0
  bestAsk : Int := 0
  session : Bool := true
  /-- `engine.on_event` returned true with this `last_signal`. -/
  signal : Option (Signal R) := none

inductive EngineLabel (R : Type*) [Field R] where
  | alpha (i : AlphaInput R)
  | report (r : ExecutionReport) (nowNs : Nat)
  | logon
  | logout

def closeSide : Side → Side
  | .buy => .sell
  | .sell => .buy

def signalSide {R : Type*} [Field R] (sig : Signal R) : Side :=
  if sig.direction = .buy then .buy else .sell

namespace Engine

variable {R : Type*} [Field R]

/-- A call of `send_ioc`, with the order it handed to the session, if any, on record. -/
def place (s : Engine R) (kind : SendKind) (side : Side) (qty px : Int) (nowNs : Nat)
    (session : Bool) : Engine R :=
  let res := s.oms.sendIoc side qty px nowNs session
  { s with
    oms := res.1
    sent := if res.2 = "" then s.sent
      else s.sent ++ [⟨kind, iocOrder res.2 side qty px nowNs⟩] }

/-- The force-close callback of `alpha_thread_fn`. -/
def forceClose (s : Engine R) (o : Order) (i : AlphaInput R) : Engine R :=
  { s with oms := s.oms.cancelOrder o.clordid }.place .forceClose (closeSide o.side) o.qty
    (if o.side = Side.buy then i.bestBid else i.bestAsk) i.nowNs i.session

/-- The next handler call of the alpha thread. -/
def alphaStep (s : Engine R) (i : AlphaInput R) : Engine R :=
  match s.pc with
  | .pop =>
    match s.oms.riskMgr.onTimer i.nowNs with
    | none => { s with pc := .polled i.nowNs }
    | some o => { s.forceClose o i with pc := .polled i.nowNs }
  | .polled nowNs =>
    match i.signal with
    | none => { s with pc := .pop }
    | some sig =>
      if s.oms.riskMgr.checkSignal sig nowNs then { s with pc := .cleared nowNs sig }
      else { s with pc := .pop }
  | .cleared nowNs sig =>
    { s.place .signal (signalSide sig) 1 sig.l1Price nowNs i.session with pc := .pop }

def signalOrders (s : Engine R) : List SentOrder := s.sent.filter (·.kind = .signal)

theorem place_offline {s : Engine R} (h : s.oms.loggedOn = false) (kind : SendKind) (side : Side)
    (qty px : Int) (t : Nat) (session : Bool) : s.place kind side qty px t session = s := by
  simp [place, sendIoc_offline h]

theorem place_sent {s : Engine R} (h : s.oms.loggedOn = true) (kind : SendKind) (side : Side)
    (qty px : Int) (t : Nat) :
    s.place kind side qty px t true = { s with
      oms := (s.oms.sendIoc side qty px t true).1
      sent := s.sent ++ [⟨kind, iocOrder (nextClordid s.oms.orderSeq) side qty px t⟩] } := by
  simp [place, sendIoc_sent h, nextClordid_ne_empty]

theorem place_failed {s : Engine R} (h : s.oms.loggedOn = true) (kind : SendKind) (side : Side)
    (qty px : Int) (t : Nat) :
    s.place kind side qty px t false =
      { s with oms := (s.oms.sendIoc side qty px t false).1 } := by
  simp [place, sendIoc_failed h]

@[simp] theorem place_oms (s : Engine R) (kind : SendKind) (side : Side) (qty px : Int) (t : Nat)
    (session : Bool) :
    (s.place kind side qty px t session).oms = (s.oms.sendIoc side qty px t session).1 := rfl

/-- A send is on record exactly when the thread is logged on and the session is there. -/
theorem place_sent_eq (s : Engine R) (kind : SendKind) (side : Side) (qty px : Int) (t : Nat)
    (session : Bool) :
    (s.place kind side qty px t session).sent =
      if s.oms.loggedOn ∧ session then
        s.sent ++ [⟨kind, iocOrder (nextClordid s.oms.orderSeq) side qty px t⟩]
      else s.sent := by
  cases hl : s.oms.loggedOn with
  | false => simp [place_offline hl]
  | true =>
    cases session with
    | true => simp [place_sent hl]
    | false => simp [place_failed hl]

/-- A placed order either stays here, leaving the order the risk manager holds as it was or
letting it go, or it goes out under the next id and is the one held. -/
theorem place_cases (s : Engine R) (kind : SendKind) (side : Side) (qty px : Int) (t : Nat)
    (session : Bool) :
    (¬ (s.oms.loggedOn = true ∧ session = true) ∧
      (s.place kind side qty px t session).sent = s.sent ∧
      s.oms.orderSeq ≤ (s.place kind side qty px t session).oms.orderSeq ∧
      ((s.place kind side qty px t session).oms.riskMgr.hasPosition = true →
        s.oms.riskMgr.hasPosition = true ∧
        (s.place kind side qty px t session).oms.riskMgr.openOrder = s.oms.riskMgr.openOrder)) ∨
    (s.oms.loggedOn = true ∧ session = true ∧ ∃ o : Order,
      o.clordid = nextClordid s.oms.orderSeq ∧ o.side = side ∧
      (s.place kind side qty px t session).sent = s.sent ++ [⟨kind, o⟩] ∧
      (s.place kind side qty px t session).oms.orderSeq = s.oms.orderSeq + 1 ∧
      (s.place kind side qty px t session).oms.riskMgr.openOrder = o) := by
  cases hl : s.oms.loggedOn with
  | false =>
    rw [place_offline hl]
    exact Or.inl ⟨by simp, rfl, Nat.le_refl _, fun hpos => ⟨hpos, rfl⟩⟩
  | true =>
    cases session with
    | true =>
      rw [place_sent hl, sendIoc_sent hl]
      exact Or.inr ⟨rfl, rfl, _, rfl, rfl, rfl, rfl, rfl⟩
    | false =>
      rw [place_failed hl, sendIoc_failed hl]
      refine Or.inl ⟨by simp, rfl, Nat.le_succ _, fun hpos => ?_⟩
      simp [RiskManager.onReject] at hpos

/-- All that a handler call of the alpha thread can do: send nothing, force a close through
the callback, or send the order of a signal that was let through. -/
theorem alphaStep_cases (s : Engine R) (i : AlphaInput R) :
    ((s.pc = .pop → s.oms.riskMgr.onTimer i.nowNs = none) ∧
      ∃ pc, s.alphaStep i = { s with pc := pc }) ∨
    (∃ o, s.pc = .pop ∧ s.oms.riskMgr.onTimer i.nowNs = some o ∧
      s.alphaStep i = { s.forceClose o i with pc := .polled i.nowNs }) ∨
    (∃ t sig, s.pc = .cleared t sig ∧ s.alphaStep i =
      { s.place .signal (signalSide sig) 1 sig.l1Price t i.session with pc := .pop }) := by
  rw [alphaStep]
  cases hpc : s.pc with
  | pop =>
    cases ht : s.oms.riskMgr.onTimer i.nowNs with
    | none => exact Or.inl ⟨fun _ => rfl, _, rfl⟩
    | some o => exact Or.inr (Or.inl ⟨o, rfl, rfl, rfl⟩)
  | polled t =>
    have hpop : (AlphaPc.polled t : AlphaPc R) = .pop → s.oms.riskMgr.onTimer i.nowNs = none := by
      intro hc
      cases hc
    cases i.signal with
    | none => exact Or.inl ⟨hpop, _, rfl⟩
    | some sig =>
      simp only
      split
      · exact Or.inl ⟨hpop, _, rfl⟩
      · exact Or.inl ⟨hpop, _, rfl⟩
  | cleared t sig => exact Or.inr (Or.inr ⟨t, sig, rfl, rfl⟩)

variable [LinearOrder R]

def step (s : Engine R) : EngineLabel R → Engine R
  | .alpha i => s.alphaStep i
  | .report r nowNs => { s with oms := s.oms.onExecutionReport r nowNs }
  | .logon => { s with oms := s.oms.onLogon }
  | .logout => { s with oms := s.oms.onLogout }

theorem idsBelow_step {s : Engine R} (h : s.oms.IdsBelow) (l : EngineLabel R) :
    (s.step l).oms.IdsBelow := by
  cases l with
  | logon => exact h
  | logout => exact h
  | report r t => exact h.onExecutionReport r t
  | alpha i =>
    simp only [step]
    obtain ⟨-, pc, he⟩ | ⟨o, -, -, he⟩ | ⟨t, sig, -, he⟩ := alphaStep_cases s i
    · rw [he]
      exact h
    · rw [he]
      exact (h.cancelOrder _).sendIoc _ _ _ _ _
    · rw [he]
      exact h.sendIoc _ _ _ _ _

/-- The engine of `main`: a fresh risk manager and order manager, not logged on. -/
def init (cfg : RiskManager.Config R) : Engine R := { oms := { riskMgr := { cfg } } }

end Engine
end SmartQuant
