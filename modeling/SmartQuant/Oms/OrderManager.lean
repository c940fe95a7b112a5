import Std.Data.ExtTreeMap
import Std.Data.String.ToNat
import SmartQuant.Risk.RiskManager

/-!
# Order manager

`OrderManager` owns the table of open orders by ClOrdID and drives the risk
manager it holds a reference to. `sendToTarget` is outside the repository: its
one outcome the code reacts to, `SessionNotFound`, is the flag `session` of the
calls below. The fill and reject callbacks only log and are left out.
-/
namespace SmartQuant

open Std

/-- ExecType (tag 150): the values of the configured FIX 4.4 dictionary, and the two values
for fills that FIX 4.2 had and the handler compares with. -/
inductive ExecType where
  | new | doneForDay | canceled | replace | pendingCancel | stopped | rejected | suspended
  | pendingNew | calculated | expired | restated | pendingReplace | trade | tradeCorrect
  | tradeCancel | orderStatus
  | partialFill | fill
  deriving DecidableEq, Repr

/-- The values the dictionary's ExecType field admits. -/
def ExecType.inDictionary (et : ExecType) : Bool := et != .partialFill && et != .fill

inductive OrdStatus where
  | new | partiallyFilled | filled | doneForDay | canceled | pendingCancel | stopped | rejected
  | suspended | pendingNew | calculated | expired | acceptedForBidding | pendingReplace
  deriving DecidableEq, Repr

/-- The fields of an ExecutionReport (35=8) that matter here; `none` is an absent tag. -/
structure ExecutionReport where
  clordid : Option String := none
  execType : Option ExecType := none
  ordStatus : Option OrdStatus := none
  lastPx : Option ℚ := none
  lastQty : Option ℚ := none

structure OrderManager (R : Type*) [Field R] where
  riskMgr : RiskManager R
  loggedOn : Bool := false
  /-- `order_seq_`; its wrap at 2^64 is left out. -/
  orderSeq : Nat := 1
  openOrders : ExtTreeMap String Order := ∅

namespace OrderManager

variable {R : Type*} [Field R]

def onLogon (m : OrderManager R) : OrderManager R := { m with loggedOn := true }

def onLogout (m : OrderManager R) : OrderManager R := { m with loggedOn := false }

/-- The id `next_clordid` returns; the call also increments the sequence. -/
def nextClordid (seq : Nat) : String := "SQ_" ++ toString seq

def iocOrder (clordid : String) (side : Side) (qty signalL1 : Int) (tsNs : Nat) : Order :=
  { clordid, side, qty, signalL1, sentTsNs := tsNs, status := .sent }

/-- `send_ioc`: the new state and the returned ClOrdID, empty on error. -/
def sendIoc (m : OrderManager R) (side : Side) (qty signalL1 : Int) (tsNs : Nat)
    (session : Bool) : OrderManager R × String :=
  if !m.loggedOn then (m, "")
  else
    let clordid := nextClordid m.orderSeq
    let o := iocOrder clordid side qty signalL1 tsNs
    let m := { m with
      orderSeq := m.orderSeq + 1
      openOrders := m.openOrders.insert clordid o
      riskMgr := m.riskMgr.onOrderSent o tsNs }
    if session then (m, clordid)
    else
      -- SessionNotFound
      ({ m with
        openOrders := m.openOrders.erase clordid
        riskMgr := m.riskMgr.onReject o }, "")

theorem sendIoc_offline {m : OrderManager R} (h : m.loggedOn = false) (side : Side)
    (qty px : Int) (t : Nat) (session : Bool) : m.sendIoc side qty px t session = (m, "") := by
  simp [sendIoc, h]

theorem sendIoc_sent {m : OrderManager R} (h : m.loggedOn = true) (side : Side)
    (qty px : Int) (t : Nat) :
    m.sendIoc side qty px t true =
      ({ m with
          orderSeq := m.orderSeq + 1
          openOrders := m.openOrders.insert (nextClordid m.orderSeq)
            (iocOrder (nextClordid m.orderSeq) side qty px t)
          riskMgr := m.riskMgr.onOrderSent (iocOrder (nextClordid m.orderSeq) side qty px t) t },
        nextClordid m.orderSeq) := by
  simp [sendIoc, h]

theorem sendIoc_failed {m : OrderManager R} (h : m.loggedOn = true) (side : Side)
    (qty px : Int) (t : Nat) :
    m.sendIoc side qty px t false =
      ({ m with
          orderSeq := m.orderSeq + 1
          openOrders := (m.openOrders.insert (nextClordid m.orderSeq)
            (iocOrder (nextClordid m.orderSeq) side qty px t)).erase (nextClordid m.orderSeq)
          riskMgr := (m.riskMgr.onOrderSent
            (iocOrder (nextClordid m.orderSeq) side qty px t) t).onReject
            (iocOrder (nextClordid m.orderSeq) side qty px t) }, "") := by
  simp [sendIoc, h]

theorem nextClordid_injective : Function.Injective nextClordid := by
  intro a b h
  exact Nat.repr_injective ((String.append_right_inj "SQ_").mp h)

theorem nextClordid_ne_empty (seq : Nat) : nextClordid seq ≠ "" := by
  intro h
  have hl := congrArg String.length h
  simp [nextClordid] at hl

def IdsBelow (m : OrderManager R) : Prop :=
  ∀ id, id ∈ m.openOrders → ∃ k < m.orderSeq, id = nextClordid k

theorem IdsBelow.fresh {m : OrderManager R} (h : IdsBelow m) :
    nextClordid m.orderSeq ∉ m.openOrders := by
  intro hmem
  obtain ⟨k, hk, he⟩ := h _ hmem
  have := nextClordid_injective he
  omega

theorem IdsBelow.insert_erase {m : OrderManager R} (h : IdsBelow m) (o : Order) :
    (m.openOrders.insert (nextClordid m.orderSeq) o).erase (nextClordid m.orderSeq) =
      m.openOrders := by
  ext id o'
  rw [ExtTreeMap.getElem?_erase, ExtTreeMap.getElem?_insert]
  by_cases he : nextClordid m.orderSeq = id
  · subst he
    have hnone : m.openOrders[nextClordid m.orderSeq]? = none := by
      simpa using h.fresh
    simp [hnone]
  · simp [he]

theorem IdsBelow.sendIoc {m : OrderManager R} (h : IdsBelow m) (side : Side) (qty px : Int)
    (t : Nat) (session : Bool) : IdsBelow (m.sendIoc side qty px t session).1 := by
  cases hl : m.loggedOn with
  | false => rwa [sendIoc_offline hl]
  | true =>
    cases session with
    | true =>
      rw [sendIoc_sent hl]
      intro id hid
      rcases ExtTreeMap.mem_insert.mp hid with he | hid
      · exact ⟨m.orderSeq, Nat.lt_succ_self _, (LawfulEqCmp.eq_of_compare he).symm⟩
      · obtain ⟨k, hk, he⟩ := h id hid
        exact ⟨k, Nat.lt_succ_of_lt hk, he⟩
    | false =>
      rw [sendIoc_failed hl]
      intro id hid
      simp only [h.insert_erase] at hid
      obtain ⟨k, hk, he⟩ := h id hid
      exact ⟨k, Nat.lt_succ_of_lt hk, he⟩

/-- `cancel_order` takes a sequence number for the request if the order is open. -/
def cancelOrder (m : OrderManager R) (clordid : String) : OrderManager R :=
  if clordid ∈ m.openOrders then { m with orderSeq := m.orderSeq + 1 } else m

@[simp] theorem cancelOrder_riskMgr (m : OrderManager R) (id : String) :
    (m.cancelOrder id).riskMgr = m.riskMgr := by
  rw [cancelOrder]
  split <;> rfl

@[simp] theorem cancelOrder_openOrders (m : OrderManager R) (id : String) :
    (m.cancelOrder id).openOrders = m.openOrders := by
  rw [cancelOrder]
  split <;> rfl

@[simp] theorem cancelOrder_loggedOn (m : OrderManager R) (id : String) :
    (m.cancelOrder id).loggedOn = m.loggedOn := by
  rw [cancelOrder]
  split <;> rfl

theorem cancelOrder_orderSeq_ge (m : OrderManager R) (id : String) :
    m.orderSeq ≤ (m.cancelOrder id).orderSeq := by
  rw [cancelOrder]
  split
  · exact Nat.le_succ _
  · exact Nat.le_refl _

theorem IdsBelow.cancelOrder {m : OrderManager R} (h : IdsBelow m) (id : String) :
    IdsBelow (m.cancelOrder id) := by
  intro a ha
  rw [cancelOrder_openOrders] at ha
  obtain ⟨k, hk, he⟩ := h a ha
  exact ⟨k, hk.trans_le (m.cancelOrder_orderSeq_ge id), he⟩

variable [LinearOrder R]

/-- `on_execution_report`. An absent ClOrdID or ExecType throws FieldNotFound, which `fromApp`
swallows; an absent LastPx leaves `getValue` nothing to convert, and it throws before
anything is written. -/
def onExecutionReport (m : OrderManager R) (msg : ExecutionReport) (nowNs : Nat) :
    OrderManager R :=
  match msg.clordid, msg.execType with
  | some id, some et =>
    match m.openOrders[id]? with
    | none => m
    | some o =>
      if et = .fill ∨ et = .partialFill then
        match msg.lastPx with
        | none => m
        | some px =>
          let o := { o with
            fillPrice := toPrice px
            fillTsNs := nowNs
            status := if et = .fill then .filled else .pending }
          { m with
            riskMgr := m.riskMgr.onFill o nowNs
            openOrders :=
              if et = .fill then m.openOrders.erase id else m.openOrders.insert id o }
      else if et = .rejected ∨ et = .expired then
        let o := { o with status := if et = .rejected then .rejected else .cancelled }
        { m with riskMgr := m.riskMgr.onReject o, openOrders := m.openOrders.erase id }
      else m
  | _, _ => m

/-- The report is one the handler acts on: it concerns an open order and either ends it
unfilled or reports a fill at a price. -/
def Acts (m : OrderManager R) (r : ExecutionReport) (id : String) (et : ExecType) : Prop :=
  r.clordid = some id ∧ id ∈ m.openOrders ∧ r.execType = some et ∧
    (et = .rejected ∨ et = .expired ∨ (et = .fill ∨ et = .partialFill) ∧ r.lastPx.isSome)

/-- All that a report can do: nothing; a fill of an open order, complete or partial; the end
of an open order by Rejected or Expired. -/
theorem onExecutionReport_cases (m : OrderManager R) (r : ExecutionReport) (t : Nat) :
    ((∀ id et, ¬ m.Acts r id et) ∧ m.onExecutionReport r t = m) ∨
    (∃ (id : String) (o : Order), m.Acts r id .fill ∧ m.onExecutionReport r t =
      { m with riskMgr := m.riskMgr.onFill o t, openOrders := m.openOrders.erase id }) ∨
    (∃ (id : String) (o : Order), m.Acts r id .partialFill ∧ m.onExecutionReport r t =
      { m with riskMgr := m.riskMgr.onFill o t, openOrders := m.openOrders.insert id o }) ∨
    (∃ (id : String) (et : ExecType) (o : Order), (et = .rejected ∨ et = .expired) ∧
      m.Acts r id et ∧ m.onExecutionReport r t =
        { m with riskMgr := m.riskMgr.onReject o, openOrders := m.openOrders.erase id }) := by
  rw [onExecutionReport]
  split
  · rename_i id et hid het
    cases ho : m.openOrders[id]? with
    | none =>
      refine Or.inl ⟨?_, rfl⟩
      rintro id' et' ⟨hid', hopen, -⟩
      obtain rfl := Option.some.inj (hid.symm.trans hid')
      rw [ExtTreeMap.mem_iff_isSome_getElem?, ho] at hopen
      exact absurd hopen (by decide)
    | some o =>
      have hopen : id ∈ m.openOrders := by
        rw [ExtTreeMap.mem_iff_isSome_getElem?, ho]
        rfl
      have hignored : ¬ (et = .rejected ∨ et = .expired ∨
          (et = .fill ∨ et = .partialFill) ∧ r.lastPx.isSome) → ∀ id et, ¬ m.Acts r id et := by
        rintro hn id' et' ⟨-, -, het', hact⟩
        obtain rfl := Option.some.inj (het.symm.trans het')
        exact hn hact
      have hended : et = .rejected ∨ et = .expired → m.Acts r id et := fun h =>
        ⟨hid, hopen, het, h.imp_right Or.inl⟩
      have hfilled : ∀ px, r.lastPx = some px → et = .fill ∨ et = .partialFill →
          m.Acts r id et := fun px hpx h =>
        ⟨hid, hopen, het, Or.inr (Or.inr ⟨h, by rw [hpx]; rfl⟩)⟩
      cases et with
      | fill =>
        cases hpx : r.lastPx with
        | none => exact Or.inl ⟨hignored (by simp [hpx]), rfl⟩
        | some px => exact Or.inr (Or.inl ⟨id, _, hfilled px hpx (Or.inl rfl), rfl⟩)
      | partialFill =>
        cases hpx : r.lastPx with
        | none => exact Or.inl ⟨hignored (by simp [hpx]), rfl⟩
        | some px => exact Or.inr (Or.inr (Or.inl ⟨id, _, hfilled px hpx (Or.inr rfl), rfl⟩))
      | rejected =>
        exact Or.inr (Or.inr (Or.inr ⟨id, _, _, Or.inl rfl, hended (Or.inl rfl), rfl⟩))
      | expired =>
        exact Or.inr (Or.inr (Or.inr ⟨id, _, _, Or.inr rfl, hended (Or.inr rfl), rfl⟩))
      | _ => exact Or.inl ⟨hignored (by simp), rfl⟩
  · rename_i hnone
    refine Or.inl ⟨?_, rfl⟩
    rintro id et ⟨hid, -, het, -⟩
    exact hnone id et hid het

@[simp] theorem onExecutionReport_orderSeq (m : OrderManager R) (r : ExecutionReport) (t : Nat) :
    (m.onExecutionReport r t).orderSeq = m.orderSeq := by
  obtain ⟨-, he⟩ | ⟨_, _, -, he⟩ | ⟨_, _, -, he⟩ | ⟨_, _, _, -, -, he⟩ :=
    onExecutionReport_cases m r t <;> rw [he]

/-- Whatever a report makes the handler do clears the flag. -/
theorem onExecutionReport_of_hasPosition {m : OrderManager R} {r : ExecutionReport} {t : Nat}
    (h : (m.onExecutionReport r t).riskMgr.hasPosition = true) :
    m.onExecutionReport r t = m ∧ ∀ id et, ¬ m.Acts r id et := by
  obtain ⟨hno, he⟩ | ⟨_, o, -, he⟩ | ⟨_, o, -, he⟩ | ⟨_, _, o, -, -, he⟩ :=
    onExecutionReport_cases m r t
  · exact ⟨he, hno⟩
  · rw [he] at h
    simp at h
  · rw [he] at h
    simp at h
  · rw [he] at h
    simp [RiskManager.onReject] at h

theorem IdsBelow.onExecutionReport {m : OrderManager R} (h : IdsBelow m) (r : ExecutionReport)
    (t : Nat) : IdsBelow (m.onExecutionReport r t) := by
  obtain ⟨-, he⟩ | ⟨id, o, -, he⟩ | ⟨id, o, hact, he⟩ | ⟨id, et, o, -, -, he⟩ :=
    onExecutionReport_cases m r t
  · rwa [he]
  · rw [he]
    exact fun a ha => h a (ExtTreeMap.mem_of_mem_erase ha)
  · rw [he]
    intro a ha
    rcases ExtTreeMap.mem_insert.mp ha with hc | ha
    · rw [← LawfulEqCmp.eq_of_compare hc]
      exact h id hact.2.1
    · exact h a ha
  · rw [he]
    exact fun a ha => h a (ExtTreeMap.mem_of_mem_erase ha)

end OrderManager
end SmartQuant
