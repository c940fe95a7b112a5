import SmartQuant.Engine.AlphaLoop

/-!
# A single order in flight

The flag `has_position_` stands for all open orders at once, and the handlers
that clear it do not look which order they are about. It is true to the table as
long as no order stays open when it is cleared: this excludes partial fills,
reports that end one of two open orders, and a force-close whose send fails.
-/
namespace SmartQuant.SingleOrder

open Std OrderManager Engine Runs

variable {R : Type*} [Field R]

/-- While an order is open the flag is set, every signal is blocked and the next handler call
of the alpha thread sends no signal order. -/
structure InFlightGuarded (s : Engine R) : Prop where
  flag : s.oms.openOrders ≠ ∅ → s.oms.riskMgr.hasPosition = true
  blocked : s.oms.openOrders ≠ ∅ → ∀ (sig : Signal R) (t : Nat),
    s.oms.riskMgr.checkSignal sig t = false
  noSecond : s.oms.openOrders ≠ ∅ → ∀ i, (s.alphaStep i).signalOrders = s.signalOrders

/-- The step does not clear the flag over an open order: a report the handler acts on is no
partial fill and leaves no other order open; a force-close that finds no session finds no
order open either. -/
def KeepsGuard (s : Engine R) : EngineLabel R → Prop
  | .alpha i => s.pc = .pop → s.oms.riskMgr.onTimer i.nowNs ≠ none → s.oms.loggedOn = true →
      i.session = false → s.oms.openOrders = ∅
  | .report r _ => ∀ id et, s.oms.Acts r id et →
      et ≠ .partialFill ∧ s.oms.openOrders.erase id = ∅
  | .logon => True
  | .logout => True

/-- The ids of open orders lie below the sequence, and a signal that was let through met an
empty table. -/
structure Settled (s : Engine R) : Prop where
  ids : s.oms.IdsBelow
  cleared : ∀ t sig, s.pc = .cleared t sig → s.oms.openOrders = ∅

theorem signalOrders_place_forceClose (s : Engine R) (side : Side) (qty px : Int) (t : Nat)
    (session : Bool) :
    (s.place .forceClose side qty px t session).signalOrders = s.signalOrders := by
  unfold signalOrders
  rw [place_sent_eq]
  split <;> simp

theorem signalOrders_alphaStep {s : Engine R} (h : ∀ t sig, s.pc ≠ .cleared t sig)
    (i : AlphaInput R) : (s.alphaStep i).signalOrders = s.signalOrders := by
  rw [alphaStep]
  split
  · split
    · rfl
    · exact signalOrders_place_forceClose _ _ _ _ _ _
  · split
    · rfl
    · split <;> rfl
  · rename_i t sig hpc
    exact absurd hpc (h t sig)

/-- Where cleared signals meet an empty table, the flag alone decides. -/
theorem guarded_iff {s : Engine R} (hs : Settled s) :
    InFlightGuarded s ↔ (s.oms.openOrders ≠ ∅ → s.oms.riskMgr.hasPosition = true) := by
  constructor
  · exact fun h => h.flag
  · intro h
    refine ⟨h, ?_, ?_⟩
    · intro hne sig t
      exact RiskManager.checkSignal_of_hasPosition (h hne) sig t
    · intro hne i
      exact signalOrders_alphaStep (fun t sig hpc => hne (hs.cleared t sig hpc)) i

theorem settled_init (cfg : RiskManager.Config R) : Settled (init cfg) := by
  refine ⟨fun id hid => ?_, fun t sig hpc => ?_⟩
  · simp [init] at hid
  · cases hpc

theorem guarded_init (cfg : RiskManager.Config R) : InFlightGuarded (init cfg) :=
  (guarded_iff (settled_init cfg)).mpr fun hne => absurd rfl hne

/-- Sending never leaves an open order without the flag, unless the send fails over one. -/
theorem guarded_sendIoc {m : OrderManager R} (hids : m.IdsBelow)
    (hflag : m.openOrders ≠ ∅ → m.riskMgr.hasPosition = true) (side : Side) (qty px : Int)
    (t : Nat) (session : Bool) :
    ((m.sendIoc side qty px t session).1.openOrders ≠ ∅ →
        (m.sendIoc side qty px t session).1.riskMgr.hasPosition = true) ↔
      (m.loggedOn = true → session = false → m.openOrders = ∅) := by
  cases hl : m.loggedOn with
  | false =>
    rw [sendIoc_offline hl]
    exact iff_of_true hflag (fun hc => absurd hc (by decide))
  | true =>
    cases session with
    | true =>
      rw [sendIoc_sent hl]
      exact iff_of_true (fun _ => rfl) (fun _ hc => absurd hc (by decide))
    | false =>
      rw [sendIoc_failed hl]
      simp only [hids.insert_erase, RiskManager.onReject]
      simp

/-- A signal is let through over a clear flag only. -/
theorem cleared_alphaStep {s : Engine R} (i : AlphaInput R) {t : Nat} {sig : Signal R}
    (h : (s.alphaStep i).pc = .cleared t sig) :
    (s.alphaStep i).oms.openOrders = s.oms.openOrders ∧ s.oms.riskMgr.hasPosition = false := by
  unfold alphaStep at h ⊢
  cases hpc : s.pc with
  | pop =>
    simp only [hpc] at h
    split at h
    · cases h
    · cases h
  | polled now =>
    simp only [hpc] at h ⊢
    cases hsig : i.signal with
    | none =>
      simp only [hsig] at h
      cases h
    | some sig' =>
      simp only [hsig] at h ⊢
      split at h
      · rename_i hcheck
        rw [if_pos hcheck]
        exact ⟨rfl, RiskManager.hasPosition_of_checkSignal hcheck⟩
      · cases h
  | cleared now sig' =>
    simp only [hpc] at h
    cases h

variable [LinearOrder R]

theorem openOrders_report_of_empty {m : OrderManager R} (h : m.openOrders = ∅)
    (r : ExecutionReport) (t : Nat) : (m.onExecutionReport r t).openOrders = ∅ := by
  have hnone : ∀ id et, ¬ m.Acts r id et := by
    intro id et hact
    obtain ⟨-, hmem, -⟩ := hact
    rw [h] at hmem
    simp at hmem
  obtain ⟨-, he⟩ | ⟨id, o, hact, -⟩ | ⟨id, o, hact, -⟩ | ⟨id, et, o, -, hact, -⟩ :=
    onExecutionReport_cases m r t
  · rw [he, h]
  · exact absurd hact (hnone _ _)
  · exact absurd hact (hnone _ _)
  · exact absurd hact (hnone _ _)

theorem settled_step {s : Engine R} (l : EngineLabel R) (hs : Settled s)
    (hg : InFlightGuarded s) : Settled (s.step l) := by
  refine ⟨idsBelow_step hs.ids l, ?_⟩
  intro t sig hpc
  cases l with
  | logon => exact hs.cleared t sig hpc
  | logout => exact hs.cleared t sig hpc
  | report r now => exact openOrders_report_of_empty (hs.cleared t sig hpc) r now
  | alpha i =>
    obtain ⟨hsame, hclear⟩ := cleared_alphaStep i hpc
    -- a signal that passes has met a clear flag, and so no open order
    by_contra hne
    have hflag := hg.flag fun hempty => hne (hsame.trans hempty)
    rw [hclear] at hflag
    cases hflag

theorem guarded_report {m : OrderManager R}
    (hflag : m.openOrders ≠ ∅ → m.riskMgr.hasPosition = true) (r : ExecutionReport) (t : Nat) :
    ((m.onExecutionReport r t).openOrders ≠ ∅ →
        (m.onExecutionReport r t).riskMgr.hasPosition = true) ↔
      ∀ id et, m.Acts r id et → et ≠ .partialFill ∧ m.openOrders.erase id = ∅ := by
  have hsame : ∀ {id et id' et'}, m.Acts r id et → m.Acts r id' et' → id = id' ∧ et = et' :=
    fun h h' => ⟨Option.some.inj (h.1.symm.trans h'.1),
      Option.some.inj (h.2.2.1.symm.trans h'.2.2.1)⟩
  obtain ⟨hno, he⟩ | ⟨id, o, hact, he⟩ | ⟨id, o, hact, he⟩ | ⟨id, et, o, het, hact, he⟩ :=
    onExecutionReport_cases m r t
  · rw [he]
    exact iff_of_true hflag (fun id et h => absurd h (hno id et))
  · rw [he]
    simp only [RiskManager.onFill_hasPosition, Bool.false_eq_true, imp_false, not_not]
    constructor
    · intro hempty id' et' h'
      obtain ⟨rfl, rfl⟩ := hsame hact h'
      exact ⟨by decide, hempty⟩
    · exact fun h => (h _ _ hact).2
  · rw [he]
    simp only [RiskManager.onFill_hasPosition, Bool.false_eq_true, imp_false, not_not]
    refine iff_of_false ?_ (fun h => (h _ _ hact).1 rfl)
    exact ExtTreeMap.insert_ne_empty
  · rw [he]
    simp only [RiskManager.onReject, Bool.false_eq_true, imp_false, not_not]
    constructor
    · intro hempty id' et' h'
      obtain ⟨rfl, rfl⟩ := hsame hact h'
      exact ⟨by rcases het with rfl | rfl <;> decide, hempty⟩
    · exact fun h => (h _ _ hact).2

theorem guarded_step_iff {s : Engine R} (l : EngineLabel R) (hs : Settled s)
    (hg : InFlightGuarded s) : InFlightGuarded (s.step l) ↔ KeepsGuard s l := by
  rw [guarded_iff (settled_step l hs hg)]
  cases l with
  | logon => exact iff_of_true hg.flag trivial
  | logout => exact iff_of_true hg.flag trivial
  | report r t => exact guarded_report hg.flag r t
  | alpha i =>
    simp only [step, alphaStep, KeepsGuard]
    cases hpc : s.pc with
    | pop =>
      cases ht : s.oms.riskMgr.onTimer i.nowNs with
      | none => exact iff_of_true hg.flag (fun _ hc => absurd rfl hc)
      | some o =>
        have hcancel : (s.oms.cancelOrder o.clordid).openOrders ≠ ∅ →
            (s.oms.cancelOrder o.clordid).riskMgr.hasPosition = true := by
          simpa using hg.flag
        have hsend := guarded_sendIoc (hs.ids.cancelOrder o.clordid) hcancel (closeSide o.side)
          o.qty (if o.side = Side.buy then i.bestBid else i.bestAsk) i.nowNs i.session
        simp only [cancelOrder_loggedOn, cancelOrder_openOrders] at hsend
        simpa [forceClose] using hsend
    | polled t =>
      refine iff_of_true ?_ (fun hc => by cases hc)
      cases i.signal with
      | none => exact hg.flag
      | some sig =>
        simp only
        split <;> exact hg.flag
    | cleared t sig =>
      refine iff_of_true ?_ (fun hc => by cases hc)
      exact (guarded_sendIoc hs.ids hg.flag _ _ _ _ _).mpr fun _ _ => hs.cleared t sig hpc

/-- Whatever the interleaving of alpha-loop steps and reports, every reachable state guards
its open order exactly when no step of the run clears the flag over an open order. -/
theorem guarded_iff_keepsGuard (cfg : RiskManager.Config R) (ls : List (EngineLabel R)) :
    (∀ pre, pre <+: ls → InFlightGuarded (run step (init cfg) pre)) ↔
      Along step KeepsGuard (init cfg) ls := by
  rw [← always_iff_along (I := Settled) (P := InFlightGuarded)
    (fun s l hs hg => settled_step l hs hg) (fun s l hs hg => guarded_step_iff l hs hg)
    (settled_init cfg) (guarded_init cfg), always_iff_forall_run]

/-- A buy order is sent and stays unanswered; the timeout sends a closing order, and the
session rejects that one. -/
def rejectedClose : List (EngineLabel ℚ) :=
  [.logon, .alpha { nowNs := 1000000000 },
    .alpha { signal := some { l1Price := 200000, direction := .buy } }, .alpha {},
    .alpha { nowNs := 6000000000, bestBid := 199900, bestAsk := 200000 },
    .report { clordid := some "SQ_3", execType := some .rejected, ordStatus := some .rejected }
      6001000000]

/-- The reject of `SQ_3` clears the flag while `SQ_1` is still open. -/
theorem not_guarded_rejectedClose :
    ¬ InFlightGuarded (run step (init {}) rejectedClose) := by
  intro h
  have hflag := h.flag (by decide +kernel)
  revert hflag
  decide +kernel

end SmartQuant.SingleOrder
