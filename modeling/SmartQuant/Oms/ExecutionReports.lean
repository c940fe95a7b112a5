import SmartQuant.Oms.OrderManager

/-!
# Which reports finish an order

The session delivers the execution types of its dictionary. Of the reports that
end an order, `on_execution_report` recognises Rejected and Expired; it looks for
fills under the FIX 4.2 values that the dictionary does not have, so a Trade
passes through it without effect, and so does Canceled. What LastQty says on a report of
any other type is not read.
-/
namespace SmartQuant.ExecutionReports

open Std OrderManager

variable {R : Type*} [Field R] [LinearOrder R]

/-- The report says that the order is finished. -/
def Finished (r : ExecutionReport) : Prop :=
  (r.execType = some .trade ∧ r.ordStatus = some .filled) ∨ r.execType = some .canceled ∨
    r.execType = some .rejected ∨ r.execType = some .expired

/-- The report gives a LastQty above 0. -/
def HasLastQty (r : ExecutionReport) : Prop := ∃ q ∈ r.lastQty, 0 < q

/-- The report says that some quantity was filled, by its ExecType or by its LastQty. -/
def SaysFilled (r : ExecutionReport) : Prop := r.execType = some .trade ∨ HasLastQty r

def ReachesOnFill (m m' : OrderManager R) : Prop :=
  ∃ (o : Order) (t : Nat), m'.riskMgr = m.riskMgr.onFill o t

/-- What the handler owes a report on the open order `id`. -/
structure Settles (m : OrderManager R) (id : String) (r : ExecutionReport) (nowNs : Nat) :
    Prop where
  removed : Finished r → id ∉ (m.onExecutionReport r nowNs).openOrders
  released : Finished r → (m.onExecutionReport r nowNs).openOrders = ∅ →
    (m.onExecutionReport r nowNs).riskMgr.hasPosition = false
  filled : SaysFilled r → ReachesOnFill m (m.onExecutionReport r nowNs)

theorem onExecutionReport_ignored {m : OrderManager R} {r : ExecutionReport} {et : ExecType}
    (het : r.execType = some et)
    (h : et ≠ .fill ∧ et ≠ .partialFill ∧ et ≠ .rejected ∧ et ≠ .expired)
    (nowNs : Nat) : m.onExecutionReport r nowNs = m := by
  have hother : ∀ id et', m.Acts r id et' → et = et' := fun id et' hact =>
    Option.some.inj (het.symm.trans hact.2.2.1)
  obtain ⟨-, he⟩ | ⟨id, o, hact, -⟩ | ⟨id, o, hact, -⟩ | ⟨id, et', o, het', hact, -⟩ :=
    onExecutionReport_cases m r nowNs
  · exact he
  · exact absurd (hother _ _ hact) h.1
  · exact absurd (hother _ _ hact) h.2.1
  · obtain rfl := hother _ _ hact
    exact absurd het' (by simp [h.2.2.1, h.2.2.2])

theorem onExecutionReport_rejected {m : OrderManager R} {r : ExecutionReport} {id : String}
    {et : ExecType} (hid : r.clordid = some id) (hopen : id ∈ m.openOrders)
    (het : r.execType = some et) (h : et = .rejected ∨ et = .expired) (nowNs : Nat) :
    (m.onExecutionReport r nowNs).openOrders = m.openOrders.erase id ∧
      (m.onExecutionReport r nowNs).riskMgr.hasPosition = false := by
  have hacts : m.Acts r id et := ⟨hid, hopen, het, h.imp_right Or.inl⟩
  have hsame : ∀ id' et', m.Acts r id' et' → id = id' ∧ et = et' := fun id' et' hact =>
    ⟨Option.some.inj (hid.symm.trans hact.1), Option.some.inj (het.symm.trans hact.2.2.1)⟩
  obtain ⟨hno, -⟩ | ⟨id', o, hact, -⟩ | ⟨id', o, hact, -⟩ | ⟨id', et', o, -, hact, he⟩ :=
    onExecutionReport_cases m r nowNs
  · exact absurd hacts (hno id et)
  · exact absurd (hsame _ _ hact).2 (by rcases h with rfl | rfl <;> decide)
  · exact absurd (hsame _ _ hact).2 (by rcases h with rfl | rfl <;> decide)
  · rw [he, (hsame _ _ hact).1]
    exact ⟨rfl, rfl⟩

/-- A fill always counts a trade, and no report that the dictionary admits counts one. -/
theorem not_reachesOnFill {m : OrderManager R} {r : ExecutionReport} {et : ExecType}
    (het : r.execType = some et) (hdict : et.inDictionary = true) (nowNs : Nat) :
    ¬ ReachesOnFill m (m.onExecutionReport r nowNs) := by
  have hnofill : ∀ id et', m.Acts r id et' → et' ≠ .fill ∧ et' ≠ .partialFill := by
    intro id et' hact
    obtain rfl := Option.some.inj (het.symm.trans hact.2.2.1)
    simpa [ExecType.inDictionary, and_comm] using hdict
  have hcount : (m.onExecutionReport r nowNs).riskMgr.totalTrades = m.riskMgr.totalTrades := by
    obtain ⟨-, he⟩ | ⟨id, o, hact, -⟩ | ⟨id, o, hact, -⟩ | ⟨id, et', o, -, -, he⟩ :=
      onExecutionReport_cases m r nowNs
    · rw [he]
    · exact absurd rfl (hnofill _ _ hact).1
    · exact absurd rfl (hnofill _ _ hact).2
    · rw [he]
      rfl
  rintro ⟨o, t, h⟩
  rw [h, RiskManager.onFill_totalTrades] at hcount
  omega

/-- For every state and every report the dictionary admits on an open order, the handler
does what it owes exactly when the report is neither a Trade nor a Canceled and gives no
LastQty above 0. -/
theorem settles_iff {m : OrderManager R} {r : ExecutionReport} {id : String} {et : ExecType}
    (hid : r.clordid = some id) (hopen : id ∈ m.openOrders) (het : r.execType = some et)
    (hdict : et.inDictionary = true) (nowNs : Nat) :
    Settles m id r nowNs ↔ et ≠ .trade ∧ et ≠ .canceled ∧ ¬ HasLastQty r := by
  have hnofill : et ≠ .fill ∧ et ≠ .partialFill := by
    simpa [ExecType.inDictionary, and_comm] using hdict
  constructor
  · intro h
    have hsilent : ¬ SaysFilled r := fun hf => not_reachesOnFill het hdict nowNs (h.filled hf)
    refine ⟨?_, ?_, fun hqty => hsilent (Or.inr hqty)⟩
    · rintro rfl
      exact hsilent (Or.inl het)
    · rintro rfl
      have hsame := onExecutionReport_ignored het (by decide) nowNs (m := m)
      have hremoved := h.removed (Or.inr (Or.inl het))
      rw [hsame] at hremoved
      exact hremoved hopen
  · rintro ⟨htrade, hcanceled, hqty⟩
    have hsilent : ¬ SaysFilled r := by
      rw [SaysFilled, het, Option.some.injEq]
      exact not_or.mpr ⟨htrade, hqty⟩
    by_cases hrej : et = .rejected ∨ et = .expired
    · obtain ⟨hopen', hflag⟩ := onExecutionReport_rejected hid hopen het hrej nowNs
      refine ⟨fun _ => ?_, fun _ _ => hflag, fun hf => absurd hf hsilent⟩
      rw [hopen']
      simp
    · rw [not_or] at hrej
      have hfin : ¬ Finished r := by
        rw [Finished, het]
        simp [htrade, hcanceled, hrej.1, hrej.2]
      exact ⟨fun hf => absurd hf hfin, fun hf => absurd hf hfin, fun hf => absurd hf hsilent⟩

def oneBuy (cfg : RiskManager.Config ℚ) : OrderManager ℚ :=
  (({ riskMgr := { cfg } } : OrderManager ℚ).onLogon.sendIoc .buy 1 200000 1000000000 true).1

/-- An Expired report for the unfilled IOC order is handled. -/
theorem settles_expired :
    Settles (oneBuy {}) "SQ_1"
      { clordid := some "SQ_1", execType := some .expired, ordStatus := some .expired,
        lastQty := some 0 } 1001000000 :=
  (settles_iff rfl (by decide +kernel) rfl rfl _).mpr
    ⟨by decide, by decide, by simp [HasLastQty]⟩

/-- The complete fill of the order, as FIX 4.4 reports it, leaves it open. -/
theorem not_settles_trade :
    ¬ Settles (oneBuy {}) "SQ_1"
      { clordid := some "SQ_1", execType := some .trade, ordStatus := some .filled,
        lastPx := some 2000, lastQty := some 1 } 1001000000 := by
  intro h
  have hrem := h.removed (Or.inl ⟨rfl, rfl⟩)
  revert hrem
  decide +kernel

end SmartQuant.ExecutionReports
