import SmartQuant.Lib.Lifecycle
import SmartQuant.Oms.FailedSend

/-!
# The trade session from outside

What the manager gives out: the messages `send_ioc` and `cancel_order` write to the
session, and the orders `on_execution_report` hands to the two callbacks. Under any
order of calls and reports every order lives once: it is written under a new ClOrdID, cancel
requests and callbacks concern it only after that and before its last callback, with its own
side and quantity, and the table holds exactly the orders in between.
-/
namespace SmartQuant.OrderProtocol

open Std OrderManager FailedSend Runs Lifecycle

variable {R : Type*} [Field R] [LinearOrder R]

/-- The messages of the session, without the TransactTime that the engine fills in. -/
inductive TradeMessage where
  | newOrderSingle (clordid symbol : String) (side : Side) (orderQty : Int)
      (ordType timeInForce : Char)
  | orderCancelRequest (origClordid clordid symbol : String) (side : Side)
  deriving DecidableEq, Repr

/-- A market order, immediate or cancel. -/
def newOrderSingle (clordid : String) (side : Side) (qty : Int) : TradeMessage :=
  .newOrderSingle clordid "XAUUSD" side qty '1' '3'

def orderCancelRequest (origClordid clordid : String) (side : Side) : TradeMessage :=
  .orderCancelRequest origClordid clordid "XAUUSD" side

/-- What the manager gives out. -/
inductive TradeEvent where
  | wrote (msg : TradeMessage)
  | onFill (o : Order)
  | onReject (o : Order)
  deriving DecidableEq, Repr

/-- The calls of `OmsCall`, with the outcome of `sendToTarget` for a cancel request too. -/
inductive TradeCall where
  | logon
  | logout
  | sendIoc (side : Side) (qty signalL1 : Int) (tsNs : Nat) (session : Bool)
  | cancelOrder (clordid : String) (session : Bool)
  | report (r : ExecutionReport) (nowNs : Nat)
  | resetDaily

def TradeCall.toOms : TradeCall → OmsCall
  | .logon => .logon
  | .logout => .logout
  | .sendIoc side qty signalL1 tsNs session => .sendIoc side qty signalL1 tsNs session
  | .cancelOrder clordid _ => .cancelOrder clordid
  | .report r nowNs => .report r nowNs
  | .resetDaily => .resetDaily

def tradeStep (m : OrderManager R) (call : TradeCall) : OrderManager R := omsStep m call.toOms

def sendIocEvents (m : OrderManager R) (side : Side) (qty : Int) (session : Bool) :
    List TradeEvent :=
  if !m.loggedOn then []
  else if session then [.wrote (newOrderSingle (nextClordid m.orderSeq) side qty)]
  else []

def cancelOrderEvents (m : OrderManager R) (clordid : String) (session : Bool) :
    List TradeEvent :=
  match m.openOrders[clordid]? with
  | none => []
  | some o =>
    if session then [.wrote (orderCancelRequest clordid (nextClordid m.orderSeq) o.side)]
    else []

def callbacks : Outcome → List TradeEvent
  | .ignored => []
  | .filled o _ => [.onFill o]
  | .ended o => [.onReject o]

def reportEvents (m : OrderManager R) (r : ExecutionReport) (nowNs : Nat) : List TradeEvent :=
  match r.clordid, r.execType with
  | some id, some et =>
    match m.openOrders[id]? with
    | none => []
    | some o => callbacks (outcome r et nowNs o)
  | _, _ => []

def tradeEvents (m : OrderManager R) : TradeCall → List TradeEvent
  | .sendIoc side qty _ _ session => sendIocEvents m side qty session
  | .cancelOrder clordid session => cancelOrderEvents m clordid session
  | .report r nowNs => reportEvents m r nowNs
  | _ => []

/-- The ClOrdID a message uses up. -/
def requestId : TradeEvent → Option String
  | .wrote (.newOrderSingle clordid _ _ _ _ _) => some clordid
  | .wrote (.orderCancelRequest _ clordid _ _) => some clordid
  | _ => none

/-- The last callback of the order has been made. -/
def Settled (events : List TradeEvent) (id : String) : Prop :=
  ∃ o : Order, o.clordid = id ∧
    (.onReject o ∈ events ∨ .onFill o ∈ events ∧ o.status = .filled)

/-- The order was written and not settled since. -/
structure Working (events : List TradeEvent) (id : String) (side : Side) (qty : Int) : Prop where
  ordered : .wrote (newOrderSingle id side qty) ∈ events
  unsettled : ¬ Settled events id

structure SpeaksProtocol (events : List TradeEvent) (m : OrderManager R) : Prop where
  /-- The requests are numbered upwards. -/
  numbered : ∃ ks : List Nat, ks.Pairwise (· < ·) ∧ (∀ k ∈ ks, 1 ≤ k ∧ k < m.orderSeq) ∧
    events.filterMap requestId = ks.map nextClordid
  cancels : ∀ pre orig id symbol side post,
    events = pre ++ .wrote (.orderCancelRequest orig id symbol side) :: post →
      ∃ qty, Working pre orig side qty
  fills : ∀ pre o post, events = pre ++ .onFill o :: post →
    Working pre o.clordid o.side o.qty
  rejects : ∀ pre o post, events = pre ++ .onReject o :: post →
    Working pre o.clordid o.side o.qty
  table : ∀ id side qty, Working events id side qty ↔
    ∃ o, m.openOrders[id]? = some o ∧ o.side = side ∧ o.qty = qty

/-- An order is opened by the message that asks for it and closed by its last callback. -/
def lifecycle : TradeEvent → Event String TradeMessage
  | .wrote (.newOrderSingle id symbol side qty ordType timeInForce) =>
    .opened id (.newOrderSingle id symbol side qty ordType timeInForce)
  | .wrote (.orderCancelRequest orig _ _ side) =>
    .used orig fun msg => ∃ qty, msg = newOrderSingle orig side qty
  | .onFill o =>
    if o.status = .filled then
      .closed o.clordid fun msg => msg = newOrderSingle o.clordid o.side o.qty
    else .used o.clordid fun msg => msg = newOrderSingle o.clordid o.side o.qty
  | .onReject o => .closed o.clordid fun msg => msg = newOrderSingle o.clordid o.side o.qty

theorem opened_mem_iff {events : List TradeEvent} {id : String} {side : Side} {qty : Int} :
    .opened id (newOrderSingle id side qty) ∈ events.map lifecycle ↔
      .wrote (newOrderSingle id side qty) ∈ events := by
  rw [List.mem_map]
  constructor
  · rintro ⟨e, he, heq⟩
    match e, he, heq with
    | .wrote (.newOrderSingle _ _ _ _ _ _), he, heq =>
      rw [lifecycle, Event.opened.injEq] at heq
      rwa [heq.2] at he
    | .onFill o, he, heq =>
      rw [lifecycle] at heq
      split at heq <;> cases heq
  · exact fun hmem => ⟨_, hmem, rfl⟩

theorem closed_mem_iff {events : List TradeEvent} {id : String} :
    (∃ agrees, .closed id agrees ∈ events.map lifecycle) ↔ Settled events id := by
  constructor
  · rintro ⟨agrees, hmem⟩
    obtain ⟨e, he, heq⟩ := List.mem_map.mp hmem
    match e, he, heq with
    | .onReject o, he, heq =>
      rw [lifecycle, Event.closed.injEq] at heq
      exact ⟨o, heq.1, Or.inl he⟩
    | .onFill o, he, heq =>
      rw [lifecycle] at heq
      split at heq
      · rename_i hfilled
        rw [Event.closed.injEq] at heq
        exact ⟨o, heq.1, Or.inr ⟨he, hfilled⟩⟩
      · cases heq
  · rintro ⟨o, rfl, hmem | ⟨hmem, hfilled⟩⟩
    · exact ⟨_, List.mem_map.mpr ⟨_, hmem, rfl⟩⟩
    · have hevent : lifecycle (.onFill o) =
          .closed o.clordid fun msg => msg = newOrderSingle o.clordid o.side o.qty := by
        rw [lifecycle, if_pos hfilled]
      exact ⟨_, List.mem_map.mpr ⟨_, hmem, hevent⟩⟩

theorem working_iff {events : List TradeEvent} {id : String} {side : Side} {qty : Int} :
    Working events id side qty ↔
      OpenIn (events.map lifecycle) id (newOrderSingle id side qty) := by
  rw [OpenIn, opened_mem_iff, ← not_exists, closed_mem_iff]
  exact ⟨fun h => ⟨h.ordered, h.unsettled⟩, fun h => ⟨h.1, h.2⟩⟩

/-- The live items are the open orders, and no id still to come was seen. -/
structure Mirrors (m : OrderManager R) (s : Lifecycle.State String TradeMessage) : Prop where
  keyed : Keyed m
  live : ∀ id : String,
    s.live id = m.openOrders[id]?.map fun o => newOrderSingle id o.side o.qty
  unseen : ∀ k, m.orderSeq ≤ k → ¬ s.seen (nextClordid k)

section Mirrors

variable {m : OrderManager R} {s : Lifecycle.State String TradeMessage}

omit [LinearOrder R] in
theorem mirrors_fresh (cfg : RiskManager.Config R) :
    Mirrors (fresh cfg) Lifecycle.State.start := by
  refine ⟨keyed_fresh cfg, fun id => ?_, fun _ _ hseen => hseen⟩
  rw [fresh, ExtTreeMap.getElem?_empty]
  rfl

omit [LinearOrder R] in
theorem Mirrors.insert (h : Mirrors m s) (id : String) (o : Order) :
    ∀ id' : String, Function.update s.live id (some (newOrderSingle id o.side o.qty)) id' =
      (m.openOrders.insert id o)[id']?.map fun o => newOrderSingle id' o.side o.qty := by
  intro id'
  rw [ExtTreeMap.getElem?_insert]
  by_cases hid : id' = id
  · subst hid
    simp
  · rw [Function.update_of_ne hid, if_neg (by simpa using Ne.symm hid)]
    exact h.live id'

omit [LinearOrder R] in
theorem Mirrors.erase (h : Mirrors m s) (id : String) :
    ∀ id' : String, Function.update s.live id none id' =
      (m.openOrders.erase id)[id']?.map fun o => newOrderSingle id' o.side o.qty := by
  intro id'
  rw [ExtTreeMap.getElem?_erase]
  by_cases hid : id' = id
  · subst hid
    simp
  · rw [Function.update_of_ne hid, if_neg (by simpa using Ne.symm hid)]
    exact h.live id'

omit [LinearOrder R] in
/-- An order of the table may be touched by whoever agrees with it. -/
theorem Mirrors.touched (h : Mirrors m s) {id : String} {o : Order}
    (ho : m.openOrders[id]? = some o) {agrees : TradeMessage → Prop}
    (hagrees : agrees (newOrderSingle id o.side o.qty)) :
    ∃ msg, s.live id = some msg ∧ agrees msg := by
  refine ⟨_, ?_, hagrees⟩
  rw [h.live id, ho]
  rfl

omit [LinearOrder R] in
theorem mirrors_sendIoc (h : Mirrors m s) (side : Side) (qty px : Int) (t : Nat)
    (session : Bool) :
    Along Lifecycle.State.advance Legal s ((sendIocEvents m side qty session).map lifecycle) ∧
      Mirrors (m.sendIoc side qty px t session).1
        (run Lifecycle.State.advance s ((sendIocEvents m side qty session).map lifecycle)) := by
  have hkeyed := keyed_sendIoc h.keyed side qty px t session
  rw [sendIocEvents]
  cases hl : m.loggedOn with
  | false =>
    rw [sendIoc_offline hl]
    exact ⟨trivial, h⟩
  | true =>
    cases session with
    | true =>
      rw [sendIoc_sent hl] at hkeyed ⊢
      have hlive := h.insert (nextClordid m.orderSeq)
        (iocOrder (nextClordid m.orderSeq) side qty px t)
      refine ⟨⟨h.unseen _ le_rfl, trivial⟩, hkeyed, hlive, fun k hk => ?_⟩
      rintro (hk' | hseen)
      · have := nextClordid_injective hk'
        simp only at hk
        omega
      · exact h.unseen k (Nat.le_of_succ_le hk) hseen
    | false =>
      rw [sendIoc_failed hl] at hkeyed ⊢
      refine ⟨trivial, hkeyed, fun id => ?_, fun k hk => h.unseen k (Nat.le_of_succ_le hk)⟩
      simp only [h.keyed.below.insert_erase]
      exact h.live id

theorem mirrors_cancelOrder (h : Mirrors m s) (id : String) (session : Bool) :
    Along Lifecycle.State.advance Legal s ((cancelOrderEvents m id session).map lifecycle) ∧
      Mirrors (m.cancelOrder id)
        (run Lifecycle.State.advance s ((cancelOrderEvents m id session).map lifecycle)) := by
  have hkeyed : Keyed (m.cancelOrder id) := keyed_step m (.cancelOrder id) h.keyed
  have hnext : Mirrors (m.cancelOrder id) s := by
    refine ⟨hkeyed, fun id' => ?_, fun k hk => h.unseen k ?_⟩
    · rw [cancelOrder_openOrders]
      exact h.live id'
    · exact (m.cancelOrder_orderSeq_ge id).trans hk
  rw [cancelOrderEvents]
  cases ho : m.openOrders[id]? with
  | none => exact ⟨trivial, hnext⟩
  | some o =>
    cases session with
    | true => exact ⟨⟨h.touched ho ⟨o.qty, rfl⟩, trivial⟩, hnext⟩
    | false => exact ⟨trivial, hnext⟩

/-- The orders ask for the same under the same id. -/
structure SameTerms (o o' : Order) : Prop where
  clordid : o'.clordid = o.clordid
  side : o'.side = o.side
  qty : o'.qty = o.qty

/-- What a report leaves of the order it settles. -/
def Keeps (o : Order) : Outcome → Prop
  | .ignored => True
  | .filled o' done => SameTerms o o' ∧ (o'.status = .filled ↔ done = true)
  | .ended o' => SameTerms o o'

theorem keeps_outcome (r : ExecutionReport) (et : ExecType) (t : Nat) (o : Order) :
    Keeps o (outcome r et t o) := by
  rw [outcome]
  split
  · cases r.lastPx with
    | none => trivial
    | some px =>
      refine ⟨⟨rfl, rfl, rfl⟩, ?_⟩
      by_cases hfill : et = .fill
      · simp [hfill]
      · simp [hfill]
  · split
    · exact ⟨rfl, rfl, rfl⟩
    · trivial

omit [LinearOrder R] in
theorem Mirrors.agrees (h : Mirrors m s) {id : String} {o o' : Order}
    (ho : m.openOrders[id]? = some o) (hsame : SameTerms o o') :
    ∃ msg, s.live o'.clordid = some msg ∧ msg = newOrderSingle o'.clordid o'.side o'.qty := by
  have hid : o'.clordid = id := hsame.clordid.trans (h.keyed.clordid id o ho)
  rw [hid, hsame.side, hsame.qty]
  exact h.touched ho rfl

omit [LinearOrder R] in
/-- Storing an order again changes nothing to who looks at its terms. -/
theorem Mirrors.restore (h : Mirrors m s) {id : String} {o o' : Order}
    (ho : m.openOrders[id]? = some o) (hsame : SameTerms o o') :
    ∀ id' : String, s.live id' =
      (m.openOrders.insert id o')[id']?.map fun o => newOrderSingle id' o.side o.qty := by
  intro id'
  rw [← h.insert id o', hsame.side, hsame.qty]
  by_cases hid : id' = id
  · rw [hid, Function.update_self, h.live id, ho]
    rfl
  · rw [Function.update_of_ne hid]

theorem mirrors_settle (h : Mirrors m s) {id : String} {o : Order}
    (ho : m.openOrders[id]? = some o) {out : Outcome} (hout : Keeps o out) {t : Nat}
    (hkeyed : Keyed (settle m id t out)) :
    Along Lifecycle.State.advance Legal s ((callbacks out).map lifecycle) ∧
      Mirrors (settle m id t out)
        (run Lifecycle.State.advance s ((callbacks out).map lifecycle)) := by
  have hid : o.clordid = id := h.keyed.clordid id o ho
  cases out with
  | ignored => exact ⟨trivial, h⟩
  | filled o' done =>
    obtain ⟨hsame, hdone⟩ := hout
    rw [callbacks, List.map_singleton, lifecycle]
    cases done with
    | true =>
      rw [if_pos (hdone.mpr rfl), hsame.clordid, hid]
      refine ⟨⟨?_, trivial⟩, hkeyed, h.erase id, h.unseen⟩
      rw [← hid, ← hsame.clordid]
      exact h.agrees ho hsame
    | false =>
      rw [if_neg fun hfilled => Bool.false_ne_true (hdone.mp hfilled)]
      exact ⟨⟨h.agrees ho hsame, trivial⟩, hkeyed, h.restore ho hsame, h.unseen⟩
  | ended o' =>
    rw [callbacks, List.map_singleton, lifecycle, hout.clordid, hid]
    refine ⟨⟨?_, trivial⟩, hkeyed, h.erase id, h.unseen⟩
    rw [← hid, ← hout.clordid]
    exact h.agrees ho hout

theorem mirrors_report (h : Mirrors m s) (r : ExecutionReport) (t : Nat) :
    Along Lifecycle.State.advance Legal s ((reportEvents m r t).map lifecycle) ∧
      Mirrors (m.onExecutionReport r t)
        (run Lifecycle.State.advance s ((reportEvents m r t).map lifecycle)) := by
  have hkeyed := keyed_report h.keyed r t
  rw [reportEvents]
  cases hid : r.clordid with
  | none =>
    rw [onExecutionReport_incomplete (Or.inl hid)]
    exact ⟨trivial, h⟩
  | some id =>
    cases het : r.execType with
    | none =>
      rw [onExecutionReport_incomplete (Or.inr het)]
      exact ⟨trivial, h⟩
    | some et =>
      cases ho : m.openOrders[id]? with
      | none =>
        rw [onExecutionReport_unknown hid ho]
        simp only [ho]
        exact ⟨trivial, h⟩
      | some o =>
        rw [onExecutionReport_open hid het ho] at hkeyed ⊢
        simp only [ho]
        exact mirrors_settle h ho (keeps_outcome r et t o) hkeyed

end Mirrors

theorem mirrors_step (m : OrderManager R) (s : Lifecycle.State String TradeMessage)
    (call : TradeCall) (h : Mirrors m s) :
    Along Lifecycle.State.advance Legal s ((tradeEvents m call).map lifecycle) ∧
      Mirrors (tradeStep m call)
        (run Lifecycle.State.advance s ((tradeEvents m call).map lifecycle)) := by
  cases call with
  | sendIoc side qty px t session => exact mirrors_sendIoc h side qty px t session
  | cancelOrder id session => exact mirrors_cancelOrder h id session
  | report r t => exact mirrors_report h r t
  | logon | logout | resetDaily =>
    exact ⟨trivial, ⟨h.keyed.below, h.keyed.clordid⟩, h.live, h.unseen⟩

/-- A call uses up at most one number, the next one. -/
theorem requestId_step (m : OrderManager R) (call : TradeCall) :
    (tradeStep m call).orderSeq = m.orderSeq ∧ (tradeEvents m call).filterMap requestId = [] ∨
      (tradeStep m call).orderSeq = m.orderSeq + 1 ∧
        ((tradeEvents m call).filterMap requestId = [] ∨
          (tradeEvents m call).filterMap requestId = [nextClordid m.orderSeq]) := by
  cases call with
  | logon | logout | resetDaily => exact Or.inl ⟨rfl, rfl⟩
  | sendIoc side qty px t session =>
    rw [tradeStep, TradeCall.toOms, omsStep, tradeEvents, sendIocEvents]
    cases hl : m.loggedOn with
    | false =>
      rw [sendIoc_offline hl]
      exact Or.inl ⟨rfl, rfl⟩
    | true =>
      cases session with
      | true =>
        rw [sendIoc_sent hl]
        exact Or.inr ⟨rfl, Or.inr rfl⟩
      | false =>
        rw [sendIoc_failed hl]
        exact Or.inr ⟨rfl, Or.inl rfl⟩
  | cancelOrder id session =>
    rw [tradeStep, TradeCall.toOms, omsStep, tradeEvents, cancelOrderEvents, cancelOrder]
    cases ho : m.openOrders[id]? with
    | none =>
      rw [if_neg (by simp [ExtTreeMap.mem_iff_isSome_getElem?, ho])]
      exact Or.inl ⟨rfl, rfl⟩
    | some o =>
      rw [if_pos (by simp [ExtTreeMap.mem_iff_isSome_getElem?, ho])]
      cases session with
      | true => exact Or.inr ⟨rfl, Or.inr rfl⟩
      | false => exact Or.inr ⟨rfl, Or.inl rfl⟩
  | report r t =>
    refine Or.inl ⟨onExecutionReport_orderSeq m r t, ?_⟩
    rw [tradeEvents, reportEvents]
    split
    · split
      · rfl
      · rename_i o ho
        cases outcome r _ t o <;> rfl
    · rfl

theorem numbered_run (calls : List TradeCall) (m : OrderManager R) :
    m.orderSeq ≤ (run tradeStep m calls).orderSeq ∧
      ∃ ks : List Nat, ks.Pairwise (· < ·) ∧
        (∀ k ∈ ks, m.orderSeq ≤ k ∧ k < (run tradeStep m calls).orderSeq) ∧
        (outputs tradeStep tradeEvents m calls).filterMap requestId = ks.map nextClordid := by
  induction calls generalizing m with
  | nil => exact ⟨le_rfl, [], List.Pairwise.nil, by simp, rfl⟩
  | cons call calls ih =>
    obtain ⟨hle, ks, hsorted, hrange, hids⟩ := ih (tradeStep m call)
    rw [run_cons, outputs_cons, List.filterMap_append, hids]
    obtain ⟨hseq, hnone⟩ | ⟨hseq, hnone | hone⟩ := requestId_step m call
    · rw [hnone, List.nil_append]
      rw [hseq] at hle hrange
      exact ⟨hle, ks, hsorted, hrange, rfl⟩
    · rw [hnone, List.nil_append]
      refine ⟨by omega, ks, hsorted, fun k hk => ?_, rfl⟩
      have := hrange k hk
      omega
    · rw [hone, List.singleton_append]
      refine ⟨by omega, m.orderSeq :: ks, ?_, fun k hk => ?_, rfl⟩
      · refine List.pairwise_cons.mpr ⟨fun k hk => ?_, hsorted⟩
        have := hrange k hk
        omega
      · rcases List.mem_cons.mp hk with rfl | hk
        · omega
        · have := hrange k hk
          omega

omit [LinearOrder R] in
theorem table_iff {m : OrderManager R} {s : Lifecycle.State String TradeMessage}
    (h : Mirrors m s) (id : String) (side : Side) (qty : Int) :
    s.live id = some (newOrderSingle id side qty) ↔
      ∃ o, m.openOrders[id]? = some o ∧ o.side = side ∧ o.qty = qty := by
  rw [h.live id, Option.map_eq_some_iff]
  simp [newOrderSingle]

/-- A callback is about an order that is at work. -/
theorem working_of_callback {pre post : List TradeEvent} {e : TradeEvent} {o : Order}
    (hlegal : Along Lifecycle.State.advance Legal Lifecycle.State.start
      ((pre ++ e :: post).map lifecycle))
    (he : lifecycle e = .closed o.clordid (· = newOrderSingle o.clordid o.side o.qty) ∨
      lifecycle e = .used o.clordid (· = newOrderSingle o.clordid o.side o.qty)) :
    Working pre o.clordid o.side o.qty := by
  rw [List.map_append, List.map_cons] at hlegal
  rw [working_iff]
  rcases he with he | he
  · rw [he] at hlegal
    obtain ⟨msg, hopen, rfl⟩ := openIn_of_closed hlegal
    exact hopen
  · rw [he] at hlegal
    obtain ⟨msg, hopen, rfl⟩ := openIn_of_used hlegal
    exact hopen

/-- From a new manager on, whatever is called and reported in whatever order, what the
manager gives out keeps to the protocol. -/
theorem speaksProtocol_run (cfg : RiskManager.Config R) (calls : List TradeCall) :
    SpeaksProtocol (outputs tradeStep tradeEvents (fresh cfg) calls)
      (run tradeStep (fresh cfg) calls) := by
  obtain ⟨hlegal, hmirrors⟩ := along_outputs mirrors_step (mirrors_fresh cfg) calls
  rw [outputs_map] at hlegal hmirrors
  constructor
  · exact (numbered_run calls (fresh cfg)).2
  · intro pre orig id symbol side post heq
    rw [heq, List.map_append, List.map_cons] at hlegal
    obtain ⟨msg, hopen, qty, rfl⟩ := openIn_of_used hlegal
    exact ⟨qty, working_iff.mpr hopen⟩
  · intro pre o post heq
    rw [heq] at hlegal
    apply working_of_callback hlegal
    rw [lifecycle]
    split
    · exact Or.inl rfl
    · exact Or.inr rfl
  · intro pre o post heq
    rw [heq] at hlegal
    exact working_of_callback hlegal (Or.inl rfl)
  · intro id side qty
    rw [working_iff, ← live_iff hlegal]
    exact table_iff hmirrors id side qty

end SmartQuant.OrderProtocol
