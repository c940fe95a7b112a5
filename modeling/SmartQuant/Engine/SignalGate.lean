import SmartQuant.Engine.SingleOrder

/-!
# The gate in front of the orders

`check_signal` and `send_ioc` are two calls of the alpha thread, and reports come in between.
A signal that has passed the check is therefore sent whatever happens meanwhile; apart from
this one the fuse is final. And since the check wants the flag clear and the send sets it, a
signal order costs a report that clears the flag, or a force-close whose send fails.
-/
namespace SmartQuant.SignalGate

open Std OrderManager Engine Runs SingleOrder

variable {R : Type*} [Field R]

/-- The order that carries out a signal which passed the check at `t`. -/
def CarriesOut (t : Nat) (sig : Signal R) (o : SentOrder) : Prop :=
  o.kind = .signal ∧ ∃ id, o.order = iocOrder id (signalSide sig) 1 sig.l1Price t

/-- The alpha thread stands between the check and the send. -/
def passed (s : Engine R) : Bool :=
  match s.pc with
  | .cleared _ _ => true
  | _ => false

/-- The signal orders sent, and the one that may follow without the flag being cleared. -/
def spent (s : Engine R) : Nat :=
  s.signalOrders.length + if passed s = true ∨ s.oms.riskMgr.hasPosition = false then 1 else 0

theorem passed_iff {s : Engine R} : passed s = true ↔ ∃ t sig, s.pc = .cleared t sig := by
  rw [passed]
  cases s.pc with
  | pop | polled t => simp
  | cleared t sig => simp

theorem signalOrders_place_signal (s : Engine R) (t : Nat) (sig : Signal R) (session : Bool) :
    (s.place .signal (signalSide sig) 1 sig.l1Price t session).signalOrders = s.signalOrders ∨
      ((s.place .signal (signalSide sig) 1 sig.l1Price t session).oms.riskMgr.hasPosition = true ∧
        ∃ o, CarriesOut t sig o ∧
          (s.place .signal (signalSide sig) 1 sig.l1Price t session).signalOrders =
            s.signalOrders ++ [o]) := by
  cases hl : s.oms.loggedOn with
  | false =>
    rw [place_offline hl]
    exact Or.inl rfl
  | true =>
    cases session with
    | false =>
      rw [place_failed hl]
      exact Or.inl rfl
    | true =>
      rw [place_sent hl, sendIoc_sent hl]
      refine Or.inr ⟨rfl, ⟨.signal, iocOrder (nextClordid s.oms.orderSeq) _ _ _ _⟩,
        ⟨rfl, _, rfl⟩, ?_⟩
      rw [signalOrders, List.filter_append]
      rfl

theorem fused_sendIoc (m : OrderManager R) (side : Side) (qty px : Int) (t : Nat)
    (session : Bool) : (m.sendIoc side qty px t session).1.riskMgr.fused = m.riskMgr.fused := by
  cases hl : m.loggedOn with
  | false => rw [sendIoc_offline hl]
  | true =>
    cases session with
    | true =>
      rw [sendIoc_sent hl]
      rfl
    | false =>
      rw [sendIoc_failed hl]
      rfl

theorem fused_alphaStep (s : Engine R) (i : AlphaInput R) :
    (s.alphaStep i).oms.riskMgr.fused = s.oms.riskMgr.fused := by
  obtain ⟨-, pc, he⟩ | ⟨o, -, -, he⟩ | ⟨t, sig, -, he⟩ := alphaStep_cases s i
  · rw [he]
  · rw [he]
    show (s.forceClose o i).oms.riskMgr.fused = s.oms.riskMgr.fused
    rw [forceClose, place_oms, fused_sendIoc]
    exact congrArg RiskManager.fused (cancelOrder_riskMgr s.oms o.clordid)
  · rw [he]
    exact fused_sendIoc _ _ _ _ _ _

/-- Only the check lets a signal through. -/
theorem passed_alphaStep {s : Engine R} {i : AlphaInput R} (h : passed (s.alphaStep i) = true) :
    (s.alphaStep i).oms = s.oms ∧ ∃ sig t, s.oms.riskMgr.checkSignal sig t = true := by
  obtain ⟨t, sig, hpc⟩ := passed_iff.mp h
  rw [alphaStep] at hpc ⊢
  cases hs : s.pc with
  | pop =>
    simp only [hs] at hpc
    split at hpc <;> cases hpc
  | polled now =>
    simp only [hs] at hpc ⊢
    cases hsig : i.signal with
    | none =>
      simp only [hsig] at hpc
      cases hpc
    | some sig' =>
      simp only [hsig] at hpc ⊢
      split at hpc
      · rename_i hcheck
        rw [if_pos hcheck]
        exact ⟨rfl, sig', now, hcheck⟩
      · cases hpc
  | cleared now sig' =>
    simp only [hs] at hpc
    cases hpc

/-- Behind the fuse nothing passes the check. -/
theorem passed_alphaStep_fused {s : Engine R} (h : s.oms.riskMgr.fused = true)
    (i : AlphaInput R) : passed (s.alphaStep i) = false := by
  by_contra hpassed
  obtain ⟨-, sig, t, hcheck⟩ := passed_alphaStep (by simpa using hpassed)
  rw [RiskManager.checkSignal_of_fused h] at hcheck
  cases hcheck

section Fuse

variable [LinearOrder R]

theorem fused_step {s : Engine R} (h : s.oms.riskMgr.fused = true) (l : EngineLabel R) :
    (s.step l).oms.riskMgr.fused = true := by
  cases l with
  | alpha i => exact (fused_alphaStep s i).trans h
  | logon => exact h
  | logout => exact h
  | report r t =>
    simp only [Engine.step]
    obtain ⟨-, he⟩ | ⟨_, o, -, he⟩ | ⟨_, o, -, he⟩ | ⟨_, _, o, -, -, he⟩ :=
      onExecutionReport_cases s.oms r t
    · rw [he]
      exact h
    · rw [he]
      simp only [RiskManager.onFill_fused, h]
      simp
    · rw [he]
      simp only [RiskManager.onFill_fused, h]
      simp
    · rw [he]
      exact h

theorem step_of_not_passed {s : Engine R} (h : s.oms.riskMgr.fused = true)
    (hpc : passed s = false) (l : EngineLabel R) :
    (s.step l).signalOrders = s.signalOrders ∧ passed (s.step l) = false := by
  cases l with
  | alpha i =>
    refine ⟨signalOrders_alphaStep (fun t sig hc => ?_) i, passed_alphaStep_fused h i⟩
    rw [passed_iff.mpr ⟨t, sig, hc⟩] at hpc
    cases hpc
  | report r t => exact ⟨rfl, hpc⟩
  | logon => exact ⟨rfl, hpc⟩
  | logout => exact ⟨rfl, hpc⟩

theorem run_of_not_passed {s : Engine R} (h : s.oms.riskMgr.fused = true)
    (hpc : passed s = false) (ls : List (EngineLabel R)) :
    (run step s ls).signalOrders = s.signalOrders := by
  induction ls generalizing s with
  | nil => rfl
  | cons l ls ih =>
    obtain ⟨hsame, hnot⟩ := step_of_not_passed h hpc l
    rw [run_cons, ih (fused_step h l) hnot, hsame]

/-- Once the fuse has tripped, whatever follows: no order goes out for a signal any more, except
for one that had passed the check by then. -/
theorem signalOrders_fused {s : Engine R} (h : s.oms.riskMgr.fused = true)
    (ls : List (EngineLabel R)) :
    (run step s ls).signalOrders = s.signalOrders ∨
      ∃ t sig o, s.pc = .cleared t sig ∧ CarriesOut t sig o ∧
        (run step s ls).signalOrders = s.signalOrders ++ [o] := by
  induction ls generalizing s with
  | nil => exact Or.inl rfl
  | cons l ls ih =>
    cases hpc : passed s with
    | false => exact Or.inl (run_of_not_passed h hpc (l :: ls))
    | true =>
      obtain ⟨t, sig, hcleared⟩ := passed_iff.mp hpc
      cases l with
      | report | logon | logout => exact ih (s := s.step _) (fused_step h _)
      | alpha i =>
        have hrest := run_of_not_passed (fused_step h (.alpha i)) (passed_alphaStep_fused h i) ls
        have hstep : s.step (.alpha i) =
            { s.place .signal (signalSide sig) 1 sig.l1Price t i.session with pc := .pop } := by
          rw [Engine.step, alphaStep, hcleared]
        rw [run_cons, hrest, hstep]
        obtain hsame | ⟨-, o, ho, hsent⟩ := signalOrders_place_signal s t sig i.session
        · exact Or.inl hsame
        · exact Or.inr ⟨t, sig, o, hcleared, ho, hsent⟩

/-- The fuse trips while a signal stands between the check and the send. -/
def trippedBetween (cfg : RiskManager.Config ℚ) : Engine ℚ where
  oms := { riskMgr := { cfg, fused := true }, loggedOn := true }
  pc := .cleared 5 { direction := .buy, l1Price := 200000 }

theorem signalOrders_fused_between :
    (run step (trippedBetween {}) [.alpha {}, .alpha {}]).signalOrders =
        (trippedBetween {}).signalOrders ∨
      ∃ t sig o, (trippedBetween {}).pc = .cleared t sig ∧ CarriesOut t sig o ∧
        (run step (trippedBetween {}) [.alpha {}, .alpha {}]).signalOrders =
          (trippedBetween {}).signalOrders ++ [o] :=
  signalOrders_fused rfl [.alpha {}, .alpha {}]

end Fuse

section Flag

variable [LinearOrder R]

/-- The step, if it clears the flag of a position. -/
def releases (s : Engine R) (l : EngineLabel R) : List (EngineLabel R) :=
  if s.oms.riskMgr.hasPosition && !(s.step l).oms.riskMgr.hasPosition then [l] else []

/-- A report the order manager acts on, or a force-close whose send finds no session. -/
def FreesPosition (s : Engine R) (l : EngineLabel R) : Prop :=
  (∃ r t id et, l = .report r t ∧ s.oms.Acts r id et) ∨
    ∃ i, l = .alpha i ∧ s.pc = .pop ∧ s.oms.riskMgr.onTimer i.nowNs ≠ none ∧
      s.oms.loggedOn = true ∧ i.session = false

theorem length_releases (s : Engine R) (l : EngineLabel R) : (releases s l).length =
    if s.oms.riskMgr.hasPosition && !(s.step l).oms.riskMgr.hasPosition then 1 else 0 := by
  rw [releases]
  split <;> rfl

/-- A step that sends no signal order costs a release at most. -/
theorem spent_of_same {s : Engine R} {l : EngineLabel R}
    (hsame : (s.step l).signalOrders = s.signalOrders)
    (hpassed : passed (s.step l) = true → passed s = true ∨ s.oms.riskMgr.hasPosition = false) :
    spent (s.step l) ≤ spent s + (releases s l).length := by
  rw [spent, spent, hsame, length_releases]
  cases hflag : s.oms.riskMgr.hasPosition with
  | false => split <;> simp
  | true =>
    cases hflag' : (s.step l).oms.riskMgr.hasPosition with
    | false =>
      show _ ≤ _ + 1
      split_ifs <;> omega
    | true =>
      rw [hflag] at hpassed
      by_cases hp : passed (s.step l) = true
      · rcases hpassed hp with hq | hq
        · simp [hp, hq]
        · cases hq
      · simp [hp]

theorem spent_step (s : Engine R) (l : EngineLabel R) :
    spent (s.step l) ≤ spent s + (releases s l).length := by
  cases l with
  | report r t => exact spent_of_same rfl Or.inl
  | logon => exact spent_of_same rfl Or.inl
  | logout => exact spent_of_same rfl Or.inl
  | alpha i =>
    by_cases hpc : passed s = true
    · obtain ⟨t, sig, hcleared⟩ := passed_iff.mp hpc
      have hstep : s.step (.alpha i) =
          { s.place .signal (signalSide sig) 1 sig.l1Price t i.session with pc := .pop } := by
        rw [Engine.step, alphaStep, hcleared]
      obtain hsame | ⟨hflag, o, -, hsent⟩ := signalOrders_place_signal s t sig i.session
      · refine spent_of_same ?_ fun _ => Or.inl hpc
        rw [hstep]
        exact hsame
      · have hlength : (s.step (.alpha i)).signalOrders.length = s.signalOrders.length + 1 := by
          rw [hstep]
          exact (congrArg List.length hsent).trans (List.length_append ..)
        have hdone : ¬ (passed (s.step (.alpha i)) = true ∨
            (s.step (.alpha i)).oms.riskMgr.hasPosition = false) := by
          rw [hstep]
          rintro (hp | hf)
          · cases hp
          · exact absurd (hflag.symm.trans hf) (by decide)
        rw [spent, spent, hlength, if_neg hdone, if_pos (Or.inl hpc)]
        omega
    · refine spent_of_same (signalOrders_alphaStep (fun t sig hc => ?_) i) fun hp => ?_
      · exact hpc (passed_iff.mpr ⟨t, sig, hc⟩)
      · obtain ⟨-, sig, t, hcheck⟩ := passed_alphaStep hp
        exact Or.inr (RiskManager.hasPosition_of_checkSignal hcheck)

/-- A signal that has passed the check is sent over a clear flag. -/
def ClearBehindCheck (s : Engine R) : Prop :=
  passed s = true → s.oms.riskMgr.hasPosition = false

theorem clearBehindCheck_step {s : Engine R} (h : ClearBehindCheck s) (l : EngineLabel R) :
    ClearBehindCheck (s.step l) := by
  cases l with
  | logon => exact h
  | logout => exact h
  | report r t =>
    intro hp
    by_contra hflag
    obtain ⟨hsame, -⟩ := onExecutionReport_of_hasPosition (m := s.oms) (r := r) (t := t)
      (by simpa [Engine.step] using hflag)
    refine hflag ?_
    show (s.oms.onExecutionReport r t).riskMgr.hasPosition = false
    rw [hsame]
    exact h hp
  | alpha i =>
    intro hp
    obtain ⟨homs, sig, t, hcheck⟩ := passed_alphaStep hp
    rw [Engine.step, homs]
    exact RiskManager.hasPosition_of_checkSignal hcheck

theorem freesPosition_of_cleared {s : Engine R} (h : ClearBehindCheck s) {l : EngineLabel R}
    (hheld : s.oms.riskMgr.hasPosition = true)
    (hfree : (s.step l).oms.riskMgr.hasPosition = false) : FreesPosition s l := by
  have hkept : ¬ (s.step l).oms.riskMgr.hasPosition = s.oms.riskMgr.hasPosition := by
    rw [hheld, hfree]
    decide
  cases l with
  | logon => exact absurd rfl hkept
  | logout => exact absurd rfl hkept
  | report r t =>
    obtain ⟨-, he⟩ | ⟨id, _, hact, -⟩ | ⟨id, _, hact, -⟩ | ⟨id, et, _, -, hact, -⟩ :=
      onExecutionReport_cases s.oms r t
    · refine absurd ?_ hkept
      rw [Engine.step, he]
    · exact Or.inl ⟨r, t, id, .fill, rfl, hact⟩
    · exact Or.inl ⟨r, t, id, .partialFill, rfl, hact⟩
    · exact Or.inl ⟨r, t, id, et, rfl, hact⟩
  | alpha i =>
    obtain ⟨-, pc, he⟩ | ⟨o, hpop, htimer, he⟩ | ⟨t, sig, hpc, -⟩ := alphaStep_cases s i
    · refine absurd ?_ hkept
      rw [Engine.step, he]
    · have hrisk := cancelOrder_riskMgr s.oms o.clordid
      have hlogged := cancelOrder_loggedOn s.oms o.clordid
      rw [Engine.step, he] at hfree hkept
      refine Or.inr ⟨i, rfl, hpop, by simp [htimer], ?_⟩
      cases hl : s.oms.loggedOn with
      | false =>
        refine absurd ?_ hkept
        show (s.forceClose o i).oms.riskMgr.hasPosition = _
        rw [forceClose, place_offline (hlogged.trans hl), hrisk]
      | true =>
        cases hsession : i.session with
        | false => exact ⟨rfl, rfl⟩
        | true =>
          refine absurd hfree ?_
          show ¬ (s.forceClose o i).oms.riskMgr.hasPosition = false
          rw [forceClose, place_oms, hsession, sendIoc_sent (hlogged.trans hl)]
          exact Bool.true_eq_false_eq_False
    · have hclear := h (passed_iff.mpr ⟨t, sig, hpc⟩)
      rw [hclear] at hheld
      cases hheld

/-- In every run of the alpha loop and the trade session: signal orders are at most one more than
the steps that clear the flag, and such a step is a report on an open order or a force-close
that finds no session. -/
theorem signalOrders_rationed (cfg : RiskManager.Config R) (ls : List (EngineLabel R)) :
    (run step (init cfg) ls).signalOrders.length ≤
        1 + (outputs step releases (init cfg) ls).length ∧
      Along step (fun s l => releases s l ≠ [] → FreesPosition s l) (init cfg) ls := by
  constructor
  · have hspent := run_le_add_length spent spent_step (init cfg) ls
    have hstart : spent (init cfg) = 1 := rfl
    have hle : (run step (init cfg) ls).signalOrders.length ≤ spent (run step (init cfg) ls) :=
      Nat.le_add_right _ _
    omega
  · refine along_of_invariant (I := ClearBehindCheck) (fun _ l h => clearBehindCheck_step h l)
      (fun s l h hreleased => ?_) (fun hc => by cases hc) ls
    rw [releases] at hreleased
    split at hreleased
    · rename_i hcleared
      rw [Bool.and_eq_true, Bool.not_eq_true'] at hcleared
      exact freesPosition_of_cleared h hcleared.1 hcleared.2
    · exact absurd rfl hreleased

end Flag

end SmartQuant.SignalGate
