import Mathlib.Algebra.Order.BigOperators.Group.List
import Mathlib.Algebra.Order.Group.Abs
import Mathlib.Tactic.Linarith
import SmartQuant.Engine.AlphaLoop

/-!
# Filled exposure

The broker's view of the orders the engine sent: which still work, which were
reported finished, how much of each was filled. The engine does not keep this
view; its flag is cleared by a fill and by the end of any order. The exposure
stays within one unit in every run in which each order is sent only when nothing
held or still working on its side could add up with it.
-/
namespace SmartQuant.Exposure

open OrderManager Engine Runs

variable {R : Type*} [Field R] [LinearOrder R]

/-- An order as the broker knows it: ended without a fill, or filled for a quantity. -/
structure Tracked where
  order : Order
  finished : Bool := false
  filled : Option ℚ := none
  deriving DecidableEq

/-- The engine together with the broker's view of the orders it sent. -/
structure Market (R : Type*) [Field R] where
  engine : Engine R
  orders : List Tracked := []

/-- A report of a fill: Trade, or the two values FIX 4.2 had for it. -/
def IsFill (r : ExecutionReport) : Prop :=
  r.execType = some .trade ∨ r.execType = some .fill ∨ r.execType = some .partialFill

def IsEnd (r : ExecutionReport) : Prop :=
  r.execType = some .canceled ∨ r.execType = some .rejected ∨ r.execType = some .expired

instance (r : ExecutionReport) : Decidable (IsFill r) :=
  inferInstanceAs (Decidable (_ ∨ _ ∨ _))

instance (r : ExecutionReport) : Decidable (IsEnd r) :=
  inferInstanceAs (Decidable (_ ∨ _ ∨ _))

def Tracked.observe (t : Tracked) (r : ExecutionReport) : Tracked :=
  if r.clordid = some t.order.clordid then
    if IsFill r then { t with filled := some (r.lastQty.getD 0) }
    else if IsEnd r then { t with finished := true }
    else t
  else t

def step (s : Market R) (l : EngineLabel R) : Market R :=
  let engine := s.engine.step l
  match l with
  | .report r _ => { engine, orders := s.orders.map (·.observe r) }
  | _ => { engine, orders := s.orders ++
      ((engine.sent.drop s.engine.sent.length).map fun o => { order := o.order }) }

def init (cfg : RiskManager.Config R) : Market R := { engine := Engine.init cfg }

def signed : Side → ℚ → ℚ
  | .buy, q => q
  | .sell, q => -q

/-- Total filled buy quantity minus total filled sell quantity. -/
def netFilled (orders : List Tracked) : ℚ :=
  (orders.map fun t => signed t.order.side (t.filled.getD 0)).sum

/-- What an order can contribute to the position on one side: its fill, or all of its quantity
while it works there. -/
def Tracked.reach (side : Side) (t : Tracked) : ℚ :=
  match t.filled with
  | some q => signed side (signed t.order.side q)
  | none => if t.finished = false ∧ t.order.side = side then t.order.qty else 0

def reach (orders : List Tracked) (side : Side) : ℚ := (orders.map (Tracked.reach side)).sum

/-- Each order is filled at most once and at most for its quantity. -/
def Admissible (s : Market R) : EngineLabel R → Prop
  | .report r _ => IsFill r → ∀ t ∈ s.orders, r.clordid = some t.order.clordid →
      t.filled = none ∧ ∃ q ∈ r.lastQty, 0 < q ∧ q ≤ t.order.qty
  | _ => True

instance (s : Market R) : (l : EngineLabel R) → Decidable (Admissible s l)
  | .report _ _ => inferInstanceAs (Decidable (_ → _))
  | .alpha _ | .logon | .logout => inferInstanceAs (Decidable True)

/-- Nothing is held or working on the side of the order the next handler call would send. -/
def RoomToSend (s : Market R) (i : AlphaInput R) : AlphaPc R → Prop
  | .pop => ∀ o ∈ s.engine.oms.riskMgr.onTimer i.nowNs, reach s.orders (closeSide o.side) ≤ 0
  | .polled _ => True
  | .cleared _ sig => reach s.orders (signalSide sig) ≤ 0

instance (s : Market R) (i : AlphaInput R) : (pc : AlphaPc R) → Decidable (RoomToSend s i pc)
  | .pop => inferInstanceAs (Decidable (∀ o ∈ _, _))
  | .polled _ => inferInstanceAs (Decidable True)
  | .cleared _ _ => inferInstanceAs (Decidable (_ ≤ _))

/-- The alpha thread sends an order only while there is room for it, and the broker fills no
order it reported finished. -/
def KeepsRoom (s : Market R) : EngineLabel R → Prop
  | .alpha i => s.engine.oms.loggedOn = true → i.session = true → RoomToSend s i s.engine.pc
  | .report r _ => IsFill r → ∀ t ∈ s.orders, r.clordid = some t.order.clordid →
      t.finished = false
  | _ => True

instance (s : Market R) : (l : EngineLabel R) → Decidable (KeepsRoom s l)
  | .alpha _ => inferInstanceAs (Decidable (_ → _))
  | .report _ _ => inferInstanceAs (Decidable (_ → _))
  | .logon | .logout => inferInstanceAs (Decidable True)

/-- On either side the position could reach one unit at most; every order has quantity 1, the
one the risk manager holds for its callback included. -/
structure WithinOne (s : Market R) : Prop where
  reach : ∀ side, reach s.orders side ≤ 1
  qty : ∀ t ∈ s.orders, t.order.qty = 1
  held : s.engine.oms.riskMgr.hasPosition = true → s.engine.oms.riskMgr.openOrder.qty = 1

theorem signed_signed_self (side : Side) (q : ℚ) : signed side (signed side q) = q := by
  cases side <;> simp [signed]

@[simp] theorem signed_zero (side : Side) : signed side 0 = 0 := by
  cases side <;> simp [signed]

theorem signed_add (side : Side) (q q' : ℚ) :
    signed side (q + q') = signed side q + signed side q' := by
  cases side
  · rfl
  · exact neg_add q q'

theorem signed_filled_le_reach {t : Tracked} (ht : 0 ≤ t.order.qty) (side : Side) :
    signed side (signed t.order.side (t.filled.getD 0)) ≤ t.reach side := by
  rw [Tracked.reach]
  cases hf : t.filled with
  | some q => exact le_refl _
  | none =>
    simp only [Option.getD_none, signed_zero]
    split
    · exact_mod_cast ht
    · exact le_refl _

theorem signed_netFilled_le_reach {orders : List Tracked} (h : ∀ t ∈ orders, 0 ≤ t.order.qty)
    (side : Side) : signed side (netFilled orders) ≤ reach orders side := by
  have hsum : signed side (netFilled orders) =
      (orders.map fun t => signed side (signed t.order.side (t.filled.getD 0))).sum := by
    rw [netFilled]
    clear h
    induction orders with
    | nil => simp
    | cons t orders ih => simp only [List.map_cons, List.sum_cons, signed_add, ih]
  rw [hsum]
  exact List.sum_le_sum fun t ht => signed_filled_le_reach (h t ht) side

/-- If both sides reach one unit at most, so does the absolute exposure. -/
theorem abs_netFilled_le {orders : List Tracked} (hq : ∀ t ∈ orders, 0 ≤ t.order.qty)
    (h : ∀ side, reach orders side ≤ 1) : |netFilled orders| ≤ 1 := by
  have hbuy := (signed_netFilled_le_reach hq .buy).trans (h .buy)
  have hsell := (signed_netFilled_le_reach hq .sell).trans (h .sell)
  simp only [signed] at hbuy hsell
  exact abs_le.mpr ⟨by linarith, hbuy⟩

@[simp] theorem observe_order (t : Tracked) (r : ExecutionReport) :
    (t.observe r).order = t.order := by
  rw [Tracked.observe]
  split_ifs <;> rfl

theorem reach_observe_le {t : Tracked} {r : ExecutionReport} (ht : 0 ≤ t.order.qty)
    (hadm : IsFill r → r.clordid = some t.order.clordid →
      t.filled = none ∧ ∃ q ∈ r.lastQty, 0 < q ∧ q ≤ t.order.qty)
    (hroom : IsFill r → r.clordid = some t.order.clordid → t.finished = false) (side : Side) :
    (t.observe r).reach side ≤ t.reach side := by
  rw [Tracked.observe]
  by_cases hid : r.clordid = some t.order.clordid
  · rw [if_pos hid]
    by_cases hfill : IsFill r
    · rw [if_pos hfill]
      obtain ⟨hnone, q, hq, hpos, hle⟩ := hadm hfill hid
      have hopen := hroom hfill hid
      simp only [Tracked.reach, hnone, Option.mem_def.mp hq, Option.getD_some, hopen, true_and]
      by_cases hside : t.order.side = side
      · rw [if_pos hside, hside, signed_signed_self]
        exact hle
      · rw [if_neg hside]
        have hneg : signed side (signed t.order.side q) = -q := by
          revert hside
          cases side <;> cases t.order.side <;> simp [signed]
        rw [hneg]
        linarith
    · rw [if_neg hfill]
      split
      · unfold Tracked.reach
        cases t.filled with
        | some q => exact le_refl _
        | none =>
          simp only [Bool.true_eq_false, false_and, if_false]
          split
          · exact_mod_cast ht
          · exact le_refl _
      · exact le_refl _
  · rw [if_neg hid]

theorem reach_concat (orders : List Tracked) (o : Order) (side : Side) :
    reach (orders ++ [{ order := o }]) side =
      reach orders side + if o.side = side then (o.qty : ℚ) else 0 := by
  simp [reach, Tracked.reach]

theorem reach_concat_le {orders : List Tracked} (h : ∀ side, reach orders side ≤ 1) {o : Order}
    (hq : o.qty = 1) (hroom : reach orders o.side ≤ 0) (side : Side) :
    reach (orders ++ [{ order := o }]) side ≤ 1 := by
  rw [reach_concat]
  by_cases hside : o.side = side
  · subst hside
    rw [if_pos rfl, hq]
    push_cast
    linarith
  · rw [if_neg hside, add_zero]
    exact h side

omit [LinearOrder R] in
theorem withinOne_place {s : Engine R} {orders : List Tracked}
    (hreach : ∀ side, reach orders side ≤ 1) (hqty : ∀ t ∈ orders, t.order.qty = 1)
    (hheld : s.oms.riskMgr.hasPosition = true → s.oms.riskMgr.openOrder.qty = 1)
    (kind : SendKind) (side : Side) (px : Int) (t : Nat) (session : Bool)
    (hroom : s.oms.loggedOn = true → session = true → reach orders side ≤ 0) (pc : AlphaPc R) :
    WithinOne
      { engine := { s.place kind side 1 px t session with pc := pc }
        orders := orders ++ (((s.place kind side 1 px t session).sent.drop s.sent.length).map
          fun o => { order := o.order }) } := by
  cases hl : s.oms.loggedOn with
  | false =>
    rw [place_offline hl, List.drop_length]
    exact ⟨by simpa using hreach, by simpa using hqty, hheld⟩
  | true =>
    cases session with
    | true =>
      rw [place_sent hl, List.drop_left]
      refine ⟨?_, ?_, fun _ => ?_⟩
      · exact reach_concat_le hreach rfl (hroom hl rfl)
      · intro t' ht'
        rcases List.mem_append.mp ht' with ht' | ht'
        · exact hqty t' ht'
        · rw [List.mem_singleton.mp ht']
          rfl
      · simp [sendIoc_sent hl, RiskManager.onOrderSent, iocOrder]
    | false =>
      rw [place_failed hl, List.drop_length]
      refine ⟨by simpa using hreach, by simpa using hqty, fun hpos => ?_⟩
      simp [sendIoc_failed hl, RiskManager.onReject] at hpos

theorem withinOne_report {s : Market R} {r : ExecutionReport} {t : Nat} (h : WithinOne s)
    (hadm : Admissible s (.report r t)) (hroom : KeepsRoom s (.report r t)) :
    WithinOne (step s (.report r t)) := by
  refine ⟨?_, ?_, ?_⟩
  · intro side
    refine le_trans ?_ (h.reach side)
    simp only [step, reach, List.map_map]
    apply List.sum_le_sum
    intro t' ht'
    apply reach_observe_le
    · rw [h.qty t' ht']
      decide
    · exact fun hf hid => hadm hf t' ht' hid
    · exact fun hf hid => hroom hf t' ht' hid
  · intro t' ht'
    obtain ⟨t₀, ht₀, rfl⟩ := List.mem_map.mp ht'
    rw [observe_order]
    exact h.qty t₀ ht₀
  · intro hpos
    simp only [step, Engine.step] at hpos ⊢
    have he := (onExecutionReport_of_hasPosition hpos).1
    rw [he] at hpos ⊢
    exact h.held hpos

theorem withinOne_step {s : Market R} {l : EngineLabel R} (h : WithinOne s)
    (hadm : Admissible s l) (hroom : KeepsRoom s l) : WithinOne (step s l) := by
  have hidle : ∀ e : Engine R, e.sent = s.engine.sent → e.oms.riskMgr = s.engine.oms.riskMgr →
      WithinOne { engine := e, orders := s.orders ++
        ((e.sent.drop s.engine.sent.length).map fun o => { order := o.order }) } := by
    intro e hsent hrisk
    rw [hsent, List.drop_length]
    exact ⟨by simpa using h.reach, by simpa using h.qty, by rw [hrisk]; exact h.held⟩
  cases l with
  | logon => exact hidle _ rfl rfl
  | logout => exact hidle _ rfl rfl
  | report r t => exact withinOne_report h hadm hroom
  | alpha i =>
    simp only [step, Engine.step]
    obtain ⟨-, pc, he⟩ | ⟨o, hpc, ho, he⟩ | ⟨t, sig, hpc, he⟩ := alphaStep_cases s.engine i
    · rw [he]
      exact hidle _ rfl rfl
    · obtain ⟨hpos, rfl⟩ := RiskManager.onTimer_eq_some ho
      simp only [he, forceClose, h.held hpos]
      refine withinOne_place (s := { s.engine with oms := s.engine.oms.cancelOrder _ }) h.reach
        h.qty (by simpa using h.held) _ _ _ _ _ (fun hl hs => ?_) _
      have hr : RoomToSend s i .pop := hpc ▸ hroom (by simpa using hl) hs
      exact hr _ ho
    · rw [he]
      refine withinOne_place h.reach h.qty h.held _ _ _ _ _ (fun hl hs => ?_) _
      have hr : RoomToSend s i (.cleared t sig) := hpc ▸ hroom hl hs
      exact hr

omit [LinearOrder R] in
theorem withinOne_init (cfg : RiskManager.Config R) : WithinOne (init cfg) :=
  ⟨fun side => by simp [init, reach], fun t ht => by simp [init] at ht,
    fun hpos => by simp [init, Engine.init] at hpos⟩

/-- Whatever the interleaving, the filled exposure stays within one unit in every state of a
run whose orders are sent only when nothing is held or working on their side. -/
theorem abs_netFilled_le_one (cfg : RiskManager.Config R) (ls : List (EngineLabel R))
    (hadm : Along step Admissible (init cfg) ls) (hroom : Along step KeepsRoom (init cfg) ls) :
    ∀ pre, pre <+: ls → |netFilled (run step (init cfg) pre).orders| ≤ 1 := by
  have hboth : Along step (fun s l => Admissible s l ∧ KeepsRoom s l) (init cfg) ls :=
    along_and.mpr ⟨hadm, hroom⟩
  have hrun := always_of_along (fun s l h hl => withinOne_step h hl.1 hl.2) (withinOne_init cfg)
    hboth
  intro pre hpre
  have h := always_iff_forall_run.mp hrun pre hpre
  exact abs_netFilled_le (fun t ht => by rw [h.qty t ht]; decide) h.reach

/-- A buy order is filled; the closing order sent at the timeout ends without a fill. -/
def unfilledClose : List (EngineLabel ℚ) :=
  [.logon, .alpha { nowNs := 1000000000 },
    .alpha { signal := some { l1Price := 200000, direction := .buy } }, .alpha {},
    .report { clordid := some "SQ_1", execType := some .trade, ordStatus := some .filled,
              lastQty := some 1 } 1001000000,
    .alpha { nowNs := 6000000000, bestBid := 199900, bestAsk := 200000 },
    .report { clordid := some "SQ_3", execType := some .canceled, ordStatus := some .canceled }
      6001000000]

theorem abs_netFilled_le_one_unfilledClose :
    |netFilled (run step (init {}) unfilledClose).orders| ≤ 1 :=
  abs_netFilled_le_one {} unfilledClose (by decide +kernel) (by decide +kernel) _
    (List.prefix_refl _)

/-- A buy order is filled by a Trade report, which leaves the flag standing; the timeout
sends a closing order, the broker rejects that one, and the next signal buys again. -/
def secondEntry : List (EngineLabel ℚ) :=
  [.logon, .alpha { nowNs := 1000000000 },
    .alpha { signal := some { l1Price := 200000, direction := .buy } }, .alpha {},
    .report { clordid := some "SQ_1", execType := some .trade, ordStatus := some .filled,
              lastQty := some 1 } 1001000000,
    .alpha { nowNs := 6000000000, bestBid := 199900, bestAsk := 200000 },
    .report { clordid := some "SQ_3", execType := some .rejected, ordStatus := some .rejected }
      6001000000,
    .alpha { signal := some { l1Price := 200000, direction := .buy } }, .alpha {},
    .report { clordid := some "SQ_4", execType := some .trade, ordStatus := some .filled,
              lastQty := some 1 } 6002000000]

/-- Every order is filled once and for its quantity, and two units are held. -/
theorem not_abs_netFilled_le_one_secondEntry :
    Along step Admissible (init {}) secondEntry ∧
      ¬ |netFilled (run step (init {}) secondEntry).orders| ≤ 1 := by
  decide +kernel

end SmartQuant.Exposure
