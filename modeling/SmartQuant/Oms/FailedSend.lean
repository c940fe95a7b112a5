import SmartQuant.Lib.Runs
import SmartQuant.Oms.OrderManager

/-!
# What a failed send leaves behind

`send_ioc` registers the order with both objects before it sends, and its catch clause
takes the order out of the table and reports it to `on_reject`, which clears the position
flag whatever it was before. A send that fails while a position is open (the
force-close callback sends then) makes the risk manager forget the position.

Otherwise all that is left is a used up sequence number: the same story goes on with the
later ClOrdIDs one higher. Two runs are compared up to that shift.
-/
namespace SmartQuant.FailedSend

open Std OrderManager RiskManager Runs

variable {R : Type*} [Field R] [LinearOrder R]

/-- The calls that change the managers. What `on_timer` hands to its callback is looked up in
the states between them, and what the callback does is a later call. -/
inductive OmsCall where
  | logon
  | logout
  | sendIoc (side : Side) (qty signalL1 : Int) (tsNs : Nat) (session : Bool)
  | cancelOrder (clordid : String)
  | report (r : ExecutionReport) (nowNs : Nat)
  | resetDaily

def omsStep (m : OrderManager R) : OmsCall → OrderManager R
  | .logon => m.onLogon
  | .logout => m.onLogout
  | .sendIoc side qty signalL1 tsNs session => (m.sendIoc side qty signalL1 tsNs session).1
  | .cancelOrder clordid => m.cancelOrder clordid
  | .report r nowNs => m.onExecutionReport r nowNs
  | .resetDaily => { m with riskMgr := m.riskMgr.resetDaily }

/-- The managers as they are built. -/
def fresh (cfg : RiskManager.Config R) : OrderManager R := { riskMgr := { cfg } }

open Classical in
/-- The ids from number `s` on, shifted to start from `s'`. -/
noncomputable def shiftId (s s' : Nat) (id : String) : String :=
  if h : ∃ k, s ≤ k ∧ id = nextClordid k then nextClordid (h.choose + (s' - s)) else id

noncomputable def shiftOrder (s s' : Nat) (o : Order) : Order :=
  { o with clordid := shiftId s s' o.clordid }

noncomputable def shiftCall (s s' : Nat) : OmsCall → OmsCall
  | .cancelOrder clordid => .cancelOrder (shiftId s s' clordid)
  | .report r nowNs => .report { r with clordid := r.clordid.map (shiftId s s') } nowNs
  | call => call

/-- The call of `send_ioc` has not touched the table or the flag, and however the day goes on,
`on_timer` fires when it would have fired without the call, and for the same order. -/
structure ChangesNothing (m m' : OrderManager R) : Prop where
  openOrders : m'.openOrders = m.openOrders
  hasPosition : m'.riskMgr.hasPosition = m.riskMgr.hasPosition
  onTimer : ∀ calls nowNs,
    (run omsStep m' (calls.map (shiftCall m.orderSeq m'.orderSeq))).riskMgr.onTimer nowNs =
      ((run omsStep m calls).riskMgr.onTimer nowNs).map (shiftOrder m.orderSeq m'.orderSeq)

section Shift

variable {s s' : Nat}

theorem shiftId_next {k : Nat} (h : s ≤ k) :
    shiftId s s' (nextClordid k) = nextClordid (k + (s' - s)) := by
  have hex : ∃ j, s ≤ j ∧ nextClordid k = nextClordid j := ⟨k, h, rfl⟩
  rw [shiftId, dif_pos hex, ← nextClordid_injective hex.choose_spec.2]

theorem shiftId_of_not {id : String} (h : ¬ ∃ k, s ≤ k ∧ id = nextClordid k) :
    shiftId s s' id = id := dif_neg h

theorem shiftId_injective : Function.Injective (shiftId s s') := by
  intro id id' h
  by_cases hid : ∃ k, s ≤ k ∧ id = nextClordid k
  · obtain ⟨k, hk, rfl⟩ := hid
    rw [shiftId_next hk] at h
    by_cases hid' : ∃ k, s ≤ k ∧ id' = nextClordid k
    · obtain ⟨k', hk', rfl⟩ := hid'
      rw [shiftId_next hk'] at h
      rw [Nat.add_right_cancel (nextClordid_injective h)]
    · rw [shiftId_of_not hid'] at h
      exact absurd ⟨_, by omega, h.symm⟩ hid'
  · rw [shiftId_of_not hid] at h
    by_cases hid' : ∃ k, s ≤ k ∧ id' = nextClordid k
    · obtain ⟨k', hk', rfl⟩ := hid'
      rw [shiftId_next hk'] at h
      exact absurd ⟨_, by omega, h⟩ hid
    · rw [shiftId_of_not hid'] at h
      exact h

theorem shiftId_self (id : String) : shiftId s s id = id := by
  by_cases hid : ∃ k, s ≤ k ∧ id = nextClordid k
  · obtain ⟨k, hk, rfl⟩ := hid
    rw [shiftId_next hk, Nat.sub_self, Nat.add_zero]
  · exact shiftId_of_not hid

theorem shiftOrder_self (o : Order) : shiftOrder s s o = o := by
  rw [shiftOrder, shiftId_self]

theorem shiftCall_self (call : OmsCall) : shiftCall s s call = call := by
  have hid : shiftId s s = id := funext shiftId_self
  cases call with
  | cancelOrder clordid => rw [shiftCall, shiftId_self]
  | report r nowNs => rw [shiftCall, hid, Option.map_id]; rfl
  | _ => rfl

end Shift

/-- What a report makes of an open order: nothing, a fill that may end it, or its end without
one. -/
inductive Outcome where
  | ignored
  | filled (o : Order) (done : Bool)
  | ended (o : Order)

def outcome (r : ExecutionReport) (et : ExecType) (nowNs : Nat) (o : Order) : Outcome :=
  if et = .fill ∨ et = .partialFill then
    match r.lastPx with
    | none => .ignored
    | some px =>
      .filled { o with
        fillPrice := toPrice px
        fillTsNs := nowNs
        status := if et = .fill then .filled else .pending } (et = .fill)
  else if et = .rejected ∨ et = .expired then
    .ended { o with status := if et = .rejected then .rejected else .cancelled }
  else .ignored

def settle (m : OrderManager R) (id : String) (nowNs : Nat) : Outcome → OrderManager R
  | .ignored => m
  | .filled o done =>
    { m with
      riskMgr := m.riskMgr.onFill o nowNs
      openOrders := if done then m.openOrders.erase id else m.openOrders.insert id o }
  | .ended o =>
    { m with riskMgr := m.riskMgr.onReject o, openOrders := m.openOrders.erase id }

section Report

variable {m : OrderManager R} {r : ExecutionReport} {id : String}

theorem onExecutionReport_open {et : ExecType} {o : Order} (hid : r.clordid = some id)
    (het : r.execType = some et) (ho : m.openOrders[id]? = some o) (nowNs : Nat) :
    m.onExecutionReport r nowNs = settle m id nowNs (outcome r et nowNs o) := by
  rw [onExecutionReport, hid, het, outcome]
  simp only [ho]
  by_cases hfill : et = .fill ∨ et = .partialFill
  · rw [if_pos hfill, if_pos hfill]
    cases r.lastPx with
    | none => rfl
    | some px =>
      simp only [settle, decide_eq_true_eq]
  · rw [if_neg hfill, if_neg hfill]
    split <;> rfl

theorem onExecutionReport_unknown (hid : r.clordid = some id) (ho : m.openOrders[id]? = none)
    (nowNs : Nat) : m.onExecutionReport r nowNs = m := by
  rw [onExecutionReport, hid]
  cases r.execType with
  | none => rfl
  | some et => simp only [ho]

theorem onExecutionReport_incomplete (h : r.clordid = none ∨ r.execType = none) (nowNs : Nat) :
    m.onExecutionReport r nowNs = m := by
  rw [onExecutionReport]
  split
  · rename_i hid het
    rcases h with h | h
    · rw [h] at hid
      cases hid
    · rw [h] at het
      cases het
  · rfl

/-- A report changes nothing, or settles an order that is open. -/
theorem report_cases (m : OrderManager R) (r : ExecutionReport) (nowNs : Nat) :
    m.onExecutionReport r nowNs = m ∨ ∃ id et o, r.clordid = some id ∧ r.execType = some et ∧
      m.openOrders[id]? = some o ∧
      m.onExecutionReport r nowNs = settle m id nowNs (outcome r et nowNs o) := by
  cases hid : r.clordid with
  | none => exact Or.inl (onExecutionReport_incomplete (Or.inl hid) nowNs)
  | some id =>
    cases het : r.execType with
    | none => exact Or.inl (onExecutionReport_incomplete (Or.inr het) nowNs)
    | some et =>
      cases ho : m.openOrders[id]? with
      | none => exact Or.inl (onExecutionReport_unknown hid ho nowNs)
      | some o => exact Or.inr ⟨id, et, o, rfl, rfl, ho, onExecutionReport_open hid het ho nowNs⟩

end Report

/-- Every open order carries the id it is stored under, and the ids are used up. -/
structure Keyed (m : OrderManager R) : Prop where
  below : IdsBelow m
  clordid : ∀ (id : String) (o : Order), m.openOrders[id]? = some o → o.clordid = id

section Keyed

variable {orders : ExtTreeMap String Order}

theorem keyed_insert (h : ∀ (id : String) (o : Order), orders[id]? = some o → o.clordid = id)
    {key : String} {o' : Order} (ho' : o'.clordid = key) :
    ∀ (id : String) (o : Order), (orders.insert key o')[id]? = some o → o.clordid = id := by
  intro id o ho
  rw [ExtTreeMap.getElem?_insert] at ho
  split at ho
  · rename_i heq
    rw [← Option.some.inj ho, ho']
    exact LawfulEqCmp.eq_of_compare heq
  · exact h id o ho

theorem keyed_erase (h : ∀ (id : String) (o : Order), orders[id]? = some o → o.clordid = id)
    (gone : String) :
    ∀ (id : String) (o : Order), (orders.erase gone)[id]? = some o → o.clordid = id := by
  intro id o ho
  rw [ExtTreeMap.getElem?_erase] at ho
  split at ho
  · cases ho
  · exact h id o ho

omit [LinearOrder R] in
theorem keyed_fresh (cfg : RiskManager.Config R) : Keyed (fresh cfg) := by
  refine ⟨fun id hid => ?_, fun id o ho => ?_⟩
  · exact absurd hid ExtTreeMap.not_mem_empty
  · rw [fresh, ExtTreeMap.getElem?_empty] at ho
    cases ho

omit [LinearOrder R] in
theorem keyed_sendIoc {m : OrderManager R} (h : Keyed m) (side : Side) (qty px : Int) (t : Nat)
    (session : Bool) : Keyed (m.sendIoc side qty px t session).1 := by
  refine ⟨h.below.sendIoc side qty px t session, ?_⟩
  cases hl : m.loggedOn with
  | false =>
    rw [sendIoc_offline hl]
    exact h.clordid
  | true =>
    cases session with
    | true =>
      rw [sendIoc_sent hl]
      exact keyed_insert h.clordid rfl
    | false =>
      rw [sendIoc_failed hl]
      simp only [h.below.insert_erase]
      exact h.clordid

theorem keyed_report {m : OrderManager R} (h : Keyed m) (r : ExecutionReport) (t : Nat) :
    Keyed (m.onExecutionReport r t) := by
  refine ⟨h.below.onExecutionReport r t, ?_⟩
  obtain he | ⟨id, et, o, -, -, ho, he⟩ := report_cases m r t
  · rw [he]
    exact h.clordid
  · have hid := h.clordid id o ho
    rw [he, outcome]
    split
    · cases r.lastPx with
      | none => exact h.clordid
      | some px =>
        simp only [settle]
        split
        · exact keyed_erase h.clordid id
        · exact keyed_insert h.clordid hid
    · split
      · exact keyed_erase h.clordid id
      · exact h.clordid

theorem keyed_step (m : OrderManager R) (call : OmsCall) (h : Keyed m) :
    Keyed (omsStep m call) := by
  cases call with
  | sendIoc side qty px t session => exact keyed_sendIoc h side qty px t session
  | cancelOrder id =>
    refine ⟨h.below.cancelOrder id, ?_⟩
    rw [omsStep, cancelOrder_openOrders]
    exact h.clordid
  | report r t => exact keyed_report h r t
  | logon | logout | resetDaily => exact ⟨h.below, h.clordid⟩

end Keyed

/-- The risk managers agree but for what was kept for the position, and there too while one
is open. -/
structure SameRisk (s s' : Nat) (r r' : RiskManager R) : Prop where
  rest : r' = { r with openOrder := r'.openOrder, positionOpenNs := r'.positionOpenNs }
  held : r.hasPosition = true →
    r'.openOrder = shiftOrder s s' r.openOrder ∧ r'.positionOpenNs = r.positionOpenNs

/-- The tables have the same orders under shifted ids. -/
def SameOrders (s s' : Nat) (orders orders' : ExtTreeMap String Order) : Prop :=
  ∀ id : String, orders'[shiftId s s' id]? = orders[id]?.map (shiftOrder s s')

/-- The second manager tells the story of the first with the ids from `s` on shifted. -/
structure Shifted (s s' : Nat) (m m' : OrderManager R) : Prop where
  le : s ≤ m.orderSeq
  orderSeq : m'.orderSeq = m.orderSeq + (s' - s)
  loggedOn : m'.loggedOn = m.loggedOn
  risk : SameRisk s s' m.riskMgr m'.riskMgr
  orders : SameOrders s s' m.openOrders m'.openOrders

section Same

variable {s s' : Nat} {r r' : RiskManager R} {orders orders' : ExtTreeMap String Order}

theorem SameOrders.insert (h : SameOrders s s' orders orders') (key : String) (o : Order) :
    SameOrders s s' (orders.insert key o)
      (orders'.insert (shiftId s s' key) (shiftOrder s s' o)) := by
  intro id
  rw [ExtTreeMap.getElem?_insert, ExtTreeMap.getElem?_insert]
  by_cases hid : key = id
  · rw [hid]
    simp
  · have hid' : shiftId s s' key ≠ shiftId s s' id := fun hc => hid (shiftId_injective hc)
    rw [if_neg (by simpa using hid'), if_neg (by simpa using hid), h id]

theorem SameOrders.erase (h : SameOrders s s' orders orders') (gone : String) :
    SameOrders s s' (orders.erase gone) (orders'.erase (shiftId s s' gone)) := by
  intro id
  rw [ExtTreeMap.getElem?_erase, ExtTreeMap.getElem?_erase]
  by_cases hid : gone = id
  · rw [hid]
    simp
  · have hid' : shiftId s s' gone ≠ shiftId s s' id := fun hc => hid (shiftId_injective hc)
    rw [if_neg (by simpa using hid'), if_neg (by simpa using hid), h id]

theorem SameOrders.mem_iff (h : SameOrders s s' orders orders') (id : String) :
    shiftId s s' id ∈ orders' ↔ id ∈ orders := by
  rw [ExtTreeMap.mem_iff_isSome_getElem?, ExtTreeMap.mem_iff_isSome_getElem?, h id,
    Option.isSome_map]

omit [LinearOrder R] in
theorem SameRisk.onTimer (h : SameRisk s s' r r') (t : Nat) :
    r'.onTimer t = (r.onTimer t).map (shiftOrder s s') := by
  have hcfg : r'.cfg = r.cfg := by rw [h.rest]
  have hflag : r'.hasPosition = r.hasPosition := by rw [h.rest]
  rw [RiskManager.onTimer, RiskManager.onTimer, hcfg, hflag]
  cases hp : r.hasPosition with
  | false => rfl
  | true =>
    obtain ⟨hopen, hsince⟩ := h.held hp
    rw [hopen, hsince]
    simp only [Bool.not_true, Bool.false_eq_true, ↓reduceIte]
    split <;> rfl

omit [LinearOrder R] in
theorem SameRisk.onOrderSent (h : SameRisk s s' r r') (o : Order) (t : Nat) :
    SameRisk s s' (r.onOrderSent o t) (r'.onOrderSent (shiftOrder s s' o) t) := by
  refine ⟨?_, fun _ => ⟨rfl, rfl⟩⟩
  rw [h.rest]
  rfl

omit [LinearOrder R] in
theorem SameRisk.onReject (h : SameRisk s s' r r') (o o' : Order) :
    SameRisk s s' (r.onReject o) (r'.onReject o') := by
  refine ⟨?_, fun hp => absurd hp Bool.false_ne_true⟩
  rw [h.rest]
  rfl

theorem SameRisk.onFill (h : SameRisk s s' r r') (o : Order) (t : Nat) :
    SameRisk s s' (r.onFill o t) (r'.onFill (shiftOrder s s' o) t) := by
  have hfill : r'.onFill (shiftOrder s s' o) t = r'.onFill o t := onFill_congr rfl rfl r' t
  refine ⟨?_, fun hp => ?_⟩
  · rw [hfill, h.rest, onFill_openOrder]
  · rw [onFill_hasPosition] at hp
    cases hp

omit [LinearOrder R] in
theorem SameRisk.resetDaily (h : SameRisk s s' r r') :
    SameRisk s s' r.resetDaily r'.resetDaily := by
  refine ⟨?_, fun hp => absurd hp Bool.false_ne_true⟩
  rw [h.rest]
  rfl

end Same

section Step

variable {s s' : Nat} {m m' : OrderManager R}

omit [LinearOrder R] in
/-- The next id of the one is the next id of the other, shifted. -/
theorem Shifted.nextClordid (h : Shifted s s' m m') :
    OrderManager.nextClordid m'.orderSeq =
      shiftId s s' (OrderManager.nextClordid m.orderSeq) := by
  rw [shiftId_next h.le, h.orderSeq]

omit [LinearOrder R] in
theorem Shifted.iocOrder (h : Shifted s s' m m') (side : Side) (qty px : Int) (t : Nat) :
    OrderManager.iocOrder (OrderManager.nextClordid m'.orderSeq) side qty px t =
      shiftOrder s s'
        (OrderManager.iocOrder (OrderManager.nextClordid m.orderSeq) side qty px t) := by
  rw [h.nextClordid]
  rfl

omit [LinearOrder R] in
theorem Shifted.sendIoc (h : Shifted s s' m m') (side : Side) (qty px : Int) (t : Nat)
    (session : Bool) : Shifted s s' (m.sendIoc side qty px t session).1
      (m'.sendIoc side qty px t session).1 := by
  have hle := h.le
  have hseq := h.orderSeq
  cases hl : m.loggedOn with
  | false =>
    rw [sendIoc_offline hl, sendIoc_offline (h.loggedOn.trans hl)]
    exact h
  | true =>
    have hl' : m'.loggedOn = true := h.loggedOn.trans hl
    have hsent := h.risk.onOrderSent
      (OrderManager.iocOrder (OrderManager.nextClordid m.orderSeq) side qty px t) t
    have hinsert := h.orders.insert (OrderManager.nextClordid m.orderSeq)
      (OrderManager.iocOrder (OrderManager.nextClordid m.orderSeq) side qty px t)
    rw [← h.iocOrder] at hsent hinsert
    rw [← h.nextClordid] at hinsert
    cases session with
    | true =>
      rw [sendIoc_sent hl, sendIoc_sent hl']
      exact ⟨Nat.le_succ_of_le hle, by simp only; omega, h.loggedOn, hsent, hinsert⟩
    | false =>
      have herase := hinsert.erase (OrderManager.nextClordid m.orderSeq)
      rw [← h.nextClordid] at herase
      have hrejected := hsent.onReject
        (OrderManager.iocOrder (OrderManager.nextClordid m.orderSeq) side qty px t)
        (OrderManager.iocOrder (OrderManager.nextClordid m'.orderSeq) side qty px t)
      rw [sendIoc_failed hl, sendIoc_failed hl']
      exact ⟨Nat.le_succ_of_le hle, by simp only; omega, h.loggedOn, hrejected, herase⟩

omit [LinearOrder R] in
theorem Shifted.cancelOrder (h : Shifted s s' m m') (id : String) :
    Shifted s s' (m.cancelOrder id) (m'.cancelOrder (shiftId s s' id)) := by
  have hle := h.le
  have hseq := h.orderSeq
  by_cases hid : id ∈ m.openOrders
  · rw [OrderManager.cancelOrder, OrderManager.cancelOrder, if_pos hid,
      if_pos ((h.orders.mem_iff id).mpr hid)]
    exact ⟨Nat.le_succ_of_le hle, by simp only; omega, h.loggedOn, h.risk, h.orders⟩
  · rw [OrderManager.cancelOrder, OrderManager.cancelOrder, if_neg hid,
      if_neg fun hc => hid ((h.orders.mem_iff id).mp hc)]
    exact h

noncomputable def Outcome.shift (s s' : Nat) : Outcome → Outcome
  | .ignored => .ignored
  | .filled o done => .filled (shiftOrder s s' o) done
  | .ended o => .ended (shiftOrder s s' o)

theorem outcome_shift {r r' : ExecutionReport} (hpx : r'.lastPx = r.lastPx) (et : ExecType)
    (t : Nat) (o : Order) :
    outcome r' et t (shiftOrder s s' o) = (outcome r et t o).shift s s' := by
  rw [outcome, outcome, hpx]
  split
  · cases r.lastPx with
    | none => rfl
    | some px => rfl
  · split <;> rfl

theorem Shifted.settle (h : Shifted s s' m m') (id : String) (t : Nat) (out : Outcome) :
    Shifted s s' (FailedSend.settle m id t out)
      (FailedSend.settle m' (shiftId s s' id) t (out.shift s s')) := by
  cases out with
  | ignored => exact h
  | filled o done =>
    refine ⟨h.le, h.orderSeq, h.loggedOn, h.risk.onFill o t, ?_⟩
    cases done with
    | true => exact h.orders.erase id
    | false => exact h.orders.insert id o
  | ended o =>
    have hrejected := h.risk.onReject o (shiftOrder s s' o)
    exact ⟨h.le, h.orderSeq, h.loggedOn, hrejected, h.orders.erase id⟩

theorem Shifted.onExecutionReport (h : Shifted s s' m m') {r r' : ExecutionReport}
    (hclordid : r'.clordid = r.clordid.map (shiftId s s')) (htype : r'.execType = r.execType)
    (hpx : r'.lastPx = r.lastPx) (t : Nat) :
    Shifted s s' (m.onExecutionReport r t) (m'.onExecutionReport r' t) := by
  cases hid : r.clordid with
  | none =>
    rw [hid] at hclordid
    rw [onExecutionReport_incomplete (Or.inl hid), onExecutionReport_incomplete (Or.inl hclordid)]
    exact h
  | some id =>
    rw [hid] at hclordid
    cases het : r.execType with
    | none =>
      rw [het] at htype
      rw [onExecutionReport_incomplete (Or.inr het), onExecutionReport_incomplete (Or.inr htype)]
      exact h
    | some et =>
      rw [het] at htype
      have hlookup := h.orders id
      cases ho : m.openOrders[id]? with
      | none =>
        rw [ho] at hlookup
        rw [onExecutionReport_unknown hid ho, onExecutionReport_unknown hclordid hlookup]
        exact h
      | some o =>
        rw [ho] at hlookup
        rw [onExecutionReport_open hid het ho, onExecutionReport_open hclordid htype hlookup,
          outcome_shift hpx]
        exact h.settle id t _

theorem Shifted.step (h : Shifted s s' m m') (call : OmsCall) :
    Shifted s s' (omsStep m call) (omsStep m' (shiftCall s s' call)) := by
  cases call with
  | logon => exact ⟨h.le, h.orderSeq, rfl, h.risk, h.orders⟩
  | logout => exact ⟨h.le, h.orderSeq, rfl, h.risk, h.orders⟩
  | sendIoc side qty px t session => exact h.sendIoc side qty px t session
  | cancelOrder id => exact h.cancelOrder id
  | report r t =>
    exact @Shifted.onExecutionReport _ _ _ s s' m m' h r
      { r with clordid := r.clordid.map (shiftId s s') } rfl rfl rfl t
  | resetDaily => exact ⟨h.le, h.orderSeq, h.loggedOn, h.risk.resetDaily, h.orders⟩

theorem Shifted.run (h : Shifted s s' m m') (calls : List OmsCall) :
    Shifted s s' (Runs.run omsStep m calls)
      (Runs.run omsStep m' (calls.map (shiftCall s s'))) := by
  induction calls generalizing m m' with
  | nil => exact h
  | cons call calls ih => exact ih (h.step call)

end Step

section Failed

variable {m : OrderManager R}

omit [LinearOrder R] in
/-- Before any id is shifted, the tables are the same. -/
theorem sameOrders_of_keyed (h : Keyed m) (s' : Nat) :
    SameOrders m.orderSeq s' m.openOrders m.openOrders := by
  intro id
  by_cases hid : ∃ k, m.orderSeq ≤ k ∧ id = nextClordid k
  · obtain ⟨k, hk, rfl⟩ := hid
    have hnone : ∀ j, m.orderSeq ≤ j → m.openOrders[nextClordid j]? = none := by
      intro j hj
      apply ExtTreeMap.getElem?_eq_none
      intro hmem
      obtain ⟨i, hi, heq⟩ := h.below _ hmem
      rw [nextClordid_injective heq] at hj
      omega
    rw [shiftId_next hk, hnone k hk, hnone _ (by omega)]
    rfl
  · rw [shiftId_of_not hid]
    cases ho : m.openOrders[id]? with
    | none => rfl
    | some o => rw [Option.map_some, shiftOrder, h.clordid id o ho, shiftId_of_not hid,
        ← h.clordid id o ho]

omit [LinearOrder R] in
/-- A send fails when it returns no id: the manager is not logged on, or the session is gone. -/
theorem failed_of_empty {side : Side} {qty px : Int} {t : Nat} {session : Bool}
    (h : (m.sendIoc side qty px t session).2 = "") (hl : m.loggedOn = true) :
    session = false := by
  cases session with
  | false => rfl
  | true =>
    rw [sendIoc_sent hl] at h
    exact absurd h (nextClordid_ne_empty _)

theorem changesNothing_of_offline (hl : m.loggedOn = false) (side : Side) (qty px : Int) (t : Nat)
    (session : Bool) : ChangesNothing m (m.sendIoc side qty px t session).1 := by
  rw [sendIoc_offline hl]
  refine ⟨rfl, rfl, fun calls nowNs => ?_⟩
  have hcalls : calls.map (shiftCall m.orderSeq m.orderSeq) = calls := by
    rw [funext (shiftCall_self (s := m.orderSeq)), List.map_id']
  rw [hcalls, funext (shiftOrder_self (s := m.orderSeq)), Option.map_id']

omit [LinearOrder R] in
/-- Without a position, what a failed send leaves in the risk manager is never looked at. -/
theorem shifted_sendIoc (h : Keyed m) (hl : m.loggedOn = true)
    (hflat : m.riskMgr.hasPosition = false) (side : Side) (qty px : Int) (t : Nat) :
    Shifted m.orderSeq (m.sendIoc side qty px t false).1.orderSeq m
      (m.sendIoc side qty px t false).1 := by
  have hrejected : (m.sendIoc side qty px t false).1.riskMgr =
      { m.riskMgr with
        openOrder := iocOrder (nextClordid m.orderSeq) side qty px t
        positionOpenNs := t } := by
    rw [sendIoc_failed hl, onReject, onOrderSent, ← hflat]
  have horders : (m.sendIoc side qty px t false).1.openOrders = m.openOrders := by
    rw [sendIoc_failed hl]
    exact h.below.insert_erase _
  have hseq : (m.sendIoc side qty px t false).1.orderSeq = m.orderSeq + 1 := by
    rw [sendIoc_failed hl]
  refine ⟨le_rfl, ?_, ?_, ?_, ?_⟩
  · rw [hseq]
    omega
  · rw [sendIoc_failed hl]
  · rw [hrejected]
    refine ⟨rfl, fun hp => ?_⟩
    rw [hflat] at hp
    cases hp
  · rw [horders]
    exact sameOrders_of_keyed h _

theorem changesNothing_of_flat (h : Keyed m) (hl : m.loggedOn = true)
    (hflat : m.riskMgr.hasPosition = false) (side : Side) (qty px : Int) (t : Nat) :
    ChangesNothing m (m.sendIoc side qty px t false).1 := by
  have hshifted := shifted_sendIoc h hl hflat side qty px t
  refine ⟨?_, ?_, fun calls nowNs => (hshifted.run calls).risk.onTimer nowNs⟩
  · rw [sendIoc_failed hl]
    exact h.below.insert_erase _
  · rw [sendIoc_failed hl, hflat]
    rfl

/-- In every state the managers can be in, a call of `send_ioc` that returns no id changes
nothing exactly when the manager is not logged on or no position is open. -/
theorem changesNothing_iff (cfg : RiskManager.Config R) (calls : List OmsCall) {side : Side}
    {qty px : Int} {t : Nat} {session : Bool}
    (h : ((run omsStep (fresh cfg) calls).sendIoc side qty px t session).2 = "") :
    ChangesNothing (run omsStep (fresh cfg) calls)
        ((run omsStep (fresh cfg) calls).sendIoc side qty px t session).1 ↔
      (run omsStep (fresh cfg) calls).loggedOn = false ∨
        (run omsStep (fresh cfg) calls).riskMgr.hasPosition = false := by
  have hkeyed : Keyed (run omsStep (fresh cfg) calls) :=
    run_invariant keyed_step (keyed_fresh cfg) calls
  generalize run omsStep (fresh cfg) calls = m at h hkeyed ⊢
  cases hl : m.loggedOn with
  | false => exact iff_of_true (changesNothing_of_offline hl side qty px t session) (Or.inl rfl)
  | true =>
    obtain rfl := failed_of_empty h hl
    rw [or_iff_right (by decide)]
    constructor
    · intro hnothing
      have hflag := hnothing.hasPosition
      rw [sendIoc_failed hl] at hflag
      exact hflag.symm
    · exact fun hflat => changesNothing_of_flat hkeyed hl hflat side qty px t

theorem changesNothing_iff_dropped :
    ChangesNothing (run omsStep (fresh (R := ℚ) {}) [.logon])
      ((run omsStep (fresh (R := ℚ) {}) [.logon]).sendIoc .buy 1 200000 1000000000 false).1 :=
  (changesNothing_iff {} [.logon] (by decide +kernel)).mpr (Or.inr (by decide +kernel))

/-- The forced close is sent on a session that is gone: the position it was to close is
forgotten. -/
theorem not_changesNothing_forceClose :
    let m := run omsStep (fresh (R := ℚ) {}) [.logon, .sendIoc .buy 1 200000 1000000000 true]
    m.riskMgr.onTimer 6000000001 ≠ none ∧ (m.sendIoc .sell 1 199900 6000000001 false).2 = "" ∧
      ¬ ChangesNothing m (m.sendIoc .sell 1 199900 6000000001 false).1 := by
  intro m
  refine ⟨by decide +kernel, by decide +kernel, fun hnothing => ?_⟩
  have hflag : (m.sendIoc .sell 1 199900 6000000001 false).1.riskMgr.hasPosition ≠
      m.riskMgr.hasPosition := by decide +kernel
  exact hflag hnothing.hasPosition

end Failed

end SmartQuant.FailedSend
