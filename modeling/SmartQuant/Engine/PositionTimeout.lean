import SmartQuant.Engine.AlphaLoop

/-!
# The timeout of a held position

The flag the timer looks at means that an order was sent and not answered, and its
clock runs from the send. A fill that arrives as a Trade is not seen and leaves both as they
are. So an entry order is handed to the force-close callback as long as nothing has let it
go: a report of any open order that the handler acts on, or a timer call that was due by the
time of the send. What was let go is never handed over again.
-/
namespace SmartQuant.PositionTimeout

open Std OrderManager Engine Runs

variable {R : Type*} [Field R]

/-- The report says that its order is filled completely. -/
def SaysComplete (r : ExecutionReport) : Prop :=
  r.execType = some .trade ∧ r.ordStatus = some .filled ∨ r.execType = some .fill

/-- The report completes an open order that was sent on a signal. -/
structure EntryFilled (s : Engine R) (r : ExecutionReport) (entry : Order) : Prop where
  sent : ⟨.signal, entry⟩ ∈ s.sent
  reported : r.clordid = some entry.clordid
  isOpen : entry.clordid ∈ s.oms.openOrders
  complete : SaysComplete r

/-- The label reports a fill of an order on the other side than `entry`. -/
def FillsOpposite (entry : Order) (s : Engine R) : EngineLabel R → Prop
  | .report r _ => (r.execType = some .fill ∨ r.execType = some .partialFill ∨
      r.execType = some .trade) ∧ ∃ so ∈ s.sent, r.clordid = some so.order.clordid ∧
      so.order.side = closeSide entry.side
  | _ => False

/-- The step calls `on_timer` when the position timeout has passed since `t`. -/
def TimerDue (t : Nat) (s : Engine R) : EngineLabel R → Prop
  | .alpha i => s.pc = .pop ∧ t + s.oms.riskMgr.cfg.positionTimeoutNs ≤ i.nowNs
  | _ => False

/-- The position timeout has passed since the send, as the code computes it. -/
def SendDue (entry : Order) (s : Engine R) (i : AlphaInput R) : Prop :=
  s.oms.riskMgr.cfg.positionTimeoutNs ≤ Word64.sub i.nowNs entry.sentTsNs

/-- The step is one that takes a sent order out of the risk manager's hands: a report the
handler acts on, whichever open order it is about, or a logged-on timer call that is due by the
time of the send. -/
def LetsGo (entry : Order) (s : Engine R) : EngineLabel R → Prop
  | .report r _ => ∃ id et, s.oms.Acts r id et
  | .alpha i => s.pc = .pop ∧ s.oms.loggedOn = true ∧ SendDue entry s i
  | _ => False

/-- Once the order is sent, the step does not let it go. -/
def Retains (entry : Order) (s : Engine R) (l : EngineLabel R) : Prop :=
  ⟨.signal, entry⟩ ∈ s.sent → ¬ LetsGo entry s l

variable [LinearOrder R]

/-- After the run `pre`, the report `r` fills `entry` at time `t`. The run goes on with `mid`,
in which no opposite fill is reported and no timer call is due, and then comes to one that is. -/
structure FirstDue (cfg : RiskManager.Config R) (pre : List (EngineLabel R)) (r : ExecutionReport)
    (t : Nat) (mid : List (EngineLabel R)) (i : AlphaInput R) (entry : Order) : Prop where
  filled : EntryFilled (run step (init cfg) pre) r entry
  held : Along step (fun s l => ¬ FillsOpposite entry s l)
    (run step (init cfg) (pre ++ [.report r t])) mid
  first : Along step (fun s l => ¬ TimerDue t s l) (run step (init cfg) (pre ++ [.report r t])) mid
  due : TimerDue t (run step (init cfg) (pre ++ .report r t :: mid)) (.alpha i)

/-- The first due timer call after each complete fill of an entry order invokes the callback
for that order. -/
def TimesOut (cfg : RiskManager.Config R) (ls : List (EngineLabel R)) : Prop :=
  ∀ pre r t mid i post entry, ls = pre ++ .report r t :: (mid ++ .alpha i :: post) →
    FirstDue cfg pre r t mid i entry →
    ∃ o, (run step (init cfg) (pre ++ .report r t :: mid)).oms.riskMgr.onTimer i.nowNs = some o ∧
      o.clordid = entry.clordid

/-- The run never lets the order go, and the call that follows it is due by the time of the
send. -/
structure KeptUntil (cfg : RiskManager.Config R) (ls : List (EngineLabel R)) (i : AlphaInput R)
    (entry : Order) : Prop where
  retained : Along step (Retains entry) (init cfg) ls
  due : SendDue entry (run step (init cfg) ls) i

/-- The order is the one the risk manager holds, since its send, and no signal has been let
through after it. -/
structure Held (entry : Order) (s : Engine R) : Prop where
  sent : ⟨.signal, entry⟩ ∈ s.sent
  passed : ∃ k < s.oms.orderSeq, entry.clordid = nextClordid k
  flag : s.oms.riskMgr.hasPosition = true
  order : s.oms.riskMgr.openOrder = entry
  since : s.oms.riskMgr.positionOpenNs = entry.sentTsNs
  between : ∀ t sig, s.pc ≠ .cleared t sig

/-- The order with this id has been sent, and it is not the one the risk manager holds. -/
structure LetGo (id : String) (m : OrderManager R) : Prop where
  passed : ∃ k < m.orderSeq, id = nextClordid k
  notHeld : m.riskMgr.hasPosition = true → m.riskMgr.openOrder.clordid ≠ id

section Handlers

omit [LinearOrder R]

variable {id : String} {m : OrderManager R}

theorem LetGo.cancelOrder (h : LetGo id m) (id' : String) : LetGo id (m.cancelOrder id') := by
  obtain ⟨k, hk, he⟩ := h.passed
  exact ⟨⟨k, hk.trans_le (m.cancelOrder_orderSeq_ge id'), he⟩, by simpa using h.notHeld⟩

/-- A send that is logged on puts another order in its place, or none. -/
theorem letGo_sendIoc (hpassed : ∃ k < m.orderSeq, id = nextClordid k) (hl : m.loggedOn = true)
    (side : Side) (qty px : Int) (t : Nat) (session : Bool) :
    LetGo id (m.sendIoc side qty px t session).1 := by
  obtain ⟨k, hk, he⟩ := hpassed
  cases session with
  | true =>
    rw [sendIoc_sent hl]
    refine ⟨⟨k, Nat.lt_succ_of_lt hk, he⟩, fun _ hid => ?_⟩
    -- the order sent now carries an id the sequence had not reached
    have hseq : m.orderSeq = k := nextClordid_injective (hid.trans he)
    omega
  | false =>
    rw [sendIoc_failed hl]
    refine ⟨⟨k, Nat.lt_succ_of_lt hk, he⟩, fun hpos => ?_⟩
    simp [RiskManager.onReject] at hpos

theorem LetGo.sendIoc (h : LetGo id m) (side : Side) (qty px : Int) (t : Nat) (session : Bool) :
    LetGo id (m.sendIoc side qty px t session).1 := by
  cases hl : m.loggedOn with
  | false => rwa [sendIoc_offline hl]
  | true => exact letGo_sendIoc h.passed hl side qty px t session

end Handlers

theorem letGo_report {id : String} {m : OrderManager R} (h : LetGo id m) (r : ExecutionReport)
    (t : Nat) : LetGo id (m.onExecutionReport r t) := by
  refine ⟨?_, ?_⟩
  · rw [onExecutionReport_orderSeq]
    exact h.passed
  · intro hpos
    have he := (onExecutionReport_of_hasPosition hpos).1
    rw [he] at hpos ⊢
    exact h.notHeld hpos

theorem letGo_step {id : String} {s : Engine R} (h : LetGo id s.oms) (l : EngineLabel R) :
    LetGo id (s.step l).oms := by
  cases l with
  | logon => exact ⟨h.passed, h.notHeld⟩
  | logout => exact ⟨h.passed, h.notHeld⟩
  | report r t => exact letGo_report h r t
  | alpha i =>
    simp only [step]
    obtain ⟨-, pc, he⟩ | ⟨o, -, -, he⟩ | ⟨t, sig, -, he⟩ := alphaStep_cases s i
    · rw [he]
      exact h
    · rw [he]
      exact (h.cancelOrder _).sendIoc _ _ _ _ _
    · rw [he]
      exact h.sendIoc _ _ _ _ _

section Holding

variable {entry : Order} {s : Engine R}

omit [LinearOrder R] in
theorem Held.onTimer_eq (h : Held entry s) (i : AlphaInput R) : s.oms.riskMgr.onTimer i.nowNs =
    if s.oms.riskMgr.cfg.positionTimeoutNs ≤ Word64.sub i.nowNs entry.sentTsNs then some entry
    else none := by
  rw [RiskManager.onTimer, h.flag, h.order, h.since]
  rfl

omit [LinearOrder R] in
/-- The timer finds the order held, and finds it due. -/
theorem Held.onTimer_iff (h : Held entry s) (i : AlphaInput R) :
    (∃ o, s.oms.riskMgr.onTimer i.nowNs = some o ∧ o.clordid = entry.clordid) ↔
      SendDue entry s i := by
  rw [h.onTimer_eq, SendDue]
  split_ifs with hdue
  · exact iff_of_true ⟨entry, rfl, rfl⟩ hdue
  · refine iff_of_false ?_ hdue
    rintro ⟨o, ho, -⟩
    cases ho

omit [LinearOrder R] in
theorem LetGo.onTimer_ne {id : String} {m : OrderManager R} (h : LetGo id m) (now : Nat) :
    ¬ ∃ o, m.riskMgr.onTimer now = some o ∧ o.clordid = id := by
  rintro ⟨o, ho, hid⟩
  obtain ⟨hpos, rfl⟩ := RiskManager.onTimer_eq_some ho
  exact h.notHeld hpos hid

omit [LinearOrder R] in
/-- A due call that is not logged on cancels, and sends nothing. -/
theorem forceClose_offline (hl : s.oms.loggedOn = false) (o : Order) (i : AlphaInput R) :
    s.forceClose o i = { s with oms := s.oms.cancelOrder o.clordid } := by
  rw [forceClose, place_offline (by simpa using hl)]

omit [LinearOrder R] in
theorem held_alpha (h : Held entry s) {i : AlphaInput R}
    (hkeep : ¬ (s.pc = .pop ∧ s.oms.loggedOn = true ∧ SendDue entry s i)) :
    Held entry (s.alphaStep i) := by
  rw [alphaStep]
  cases hpc : s.pc with
  | pop =>
    simp only
    rw [h.onTimer_eq]
    split_ifs with hdue
    · have hoffline : s.oms.loggedOn = false := by
        by_contra hl
        exact hkeep ⟨hpc, by simpa using hl, hdue⟩
      obtain ⟨k, hk, hid⟩ := h.passed
      have hseq := s.oms.cancelOrder_orderSeq_ge entry.clordid
      simp only [forceClose_offline hoffline]
      exact
        { sent := h.sent
          passed := ⟨k, hk.trans_le hseq, hid⟩
          flag := by simpa using h.flag
          order := by simpa using h.order
          since := by simpa using h.since
          between := fun _ _ hc => by cases hc }
    · exact { h with between := fun _ _ hc => by cases hc }
  | polled t =>
    cases hsig : i.signal with
    | none => exact { h with between := fun _ _ hc => by cases hc }
    | some sig =>
      simp only [RiskManager.checkSignal_of_hasPosition h.flag]
      exact { h with between := fun _ _ hc => by cases hc }
  | cleared t sig => exact absurd hpc (h.between t sig)

/-- An order that is held stays held, unless the step lets it go. -/
theorem held_step (h : Held entry s) {l : EngineLabel R} (hkeep : ¬ LetsGo entry s l) :
    Held entry (s.step l) := by
  cases l with
  | logon => exact { h with }
  | logout => exact { h with }
  | alpha i => exact held_alpha h hkeep
  | report r t =>
    have hsame : s.oms.onExecutionReport r t = s.oms := by
      obtain ⟨-, he⟩ | ⟨id, o, hact, -⟩ | ⟨id, o, hact, -⟩ | ⟨id, et, o, -, hact, -⟩ :=
        onExecutionReport_cases s.oms r t
      · exact he
      · exact absurd ⟨id, _, hact⟩ hkeep
      · exact absurd ⟨id, _, hact⟩ hkeep
      · exact absurd ⟨id, _, hact⟩ hkeep
    simp only [step, hsame]
    exact h

theorem letGo_of_held (h : Held entry s) {l : EngineLabel R} (hgo : LetsGo entry s l) :
    LetGo entry.clordid (s.step l).oms := by
  cases l with
  | logon => cases hgo
  | logout => cases hgo
  | report r t =>
    obtain ⟨id, et, hact⟩ := hgo
    refine ⟨?_, fun hpos => ?_⟩
    · simp only [step, onExecutionReport_orderSeq]
      exact h.passed
    · exact absurd hact ((onExecutionReport_of_hasPosition hpos).2 _ _)
  | alpha i =>
    obtain ⟨hpc, hl, hdue⟩ := hgo
    have htimer : s.oms.riskMgr.onTimer i.nowNs = some entry := by
      rw [h.onTimer_eq]
      exact if_pos hdue
    obtain ⟨k, hk, hid⟩ := h.passed
    have hseq := s.oms.cancelOrder_orderSeq_ge entry.clordid
    simp only [step, alphaStep, hpc, htimer]
    exact letGo_sendIoc ⟨k, hk.trans_le hseq, hid⟩ (by simpa using hl) _ _ _ _ _

omit [LinearOrder R] in
theorem mem_sent_place {kind : SendKind} {side : Side} {qty px : Int} {t : Nat} {session : Bool}
    {so : SentOrder} (h : so ∈ (s.place kind side qty px t session).sent) : so ∈ s.sent ∨
      s.oms.loggedOn = true ∧ session = true ∧
        so = ⟨kind, iocOrder (nextClordid s.oms.orderSeq) side qty px t⟩ := by
  rw [place_sent_eq] at h
  split_ifs at h with hout
  · rw [List.mem_append, List.mem_singleton] at h
    exact h.imp_right fun hso => ⟨hout.1, hout.2, hso⟩
  · exact Or.inl h

/-- The step that puts a signal's order on record leaves it held. -/
theorem held_of_sent (hnew : ⟨.signal, entry⟩ ∉ s.sent) {l : EngineLabel R}
    (hsent : ⟨.signal, entry⟩ ∈ (s.step l).sent) : Held entry (s.step l) := by
  cases l with
  | logon => exact absurd hsent hnew
  | logout => exact absurd hsent hnew
  | report r t => exact absurd hsent hnew
  | alpha i =>
    simp only [step] at hsent ⊢
    obtain ⟨-, pc, he⟩ | ⟨o, -, -, he⟩ | ⟨t, sig, -, he⟩ := alphaStep_cases s i
    · rw [he] at hsent
      exact absurd hsent hnew
    · rw [he] at hsent
      obtain hold | ⟨-, -, hclose⟩ := mem_sent_place hsent
      · exact absurd hold hnew
      · cases hclose
    · rw [he] at hsent ⊢
      obtain hold | ⟨hl, hsession, hentry⟩ := mem_sent_place hsent
      · exact absurd hold hnew
      · obtain rfl : entry = iocOrder (nextClordid s.oms.orderSeq) (signalSide sig) 1
            sig.l1Price t := by
          cases hentry
          rfl
        rw [hsession, place_sent hl, sendIoc_sent hl]
        exact
          { sent := List.mem_append_right _ (List.mem_singleton.mpr rfl)
            passed := ⟨s.oms.orderSeq, Nat.lt_succ_self _, rfl⟩
            flag := rfl
            order := rfl
            since := rfl
            between := fun _ _ hc => by cases hc }

/-- From a state that holds the order, a run holds it to the end or lets it go for good. -/
theorem held_run (h : Held entry s) (ls : List (EngineLabel R)) :
    Along step (Retains entry) s ls ∧ Held entry (run step s ls) ∨
      ¬ Along step (Retains entry) s ls ∧ LetGo entry.clordid (run step s ls).oms := by
  induction ls generalizing s with
  | nil => exact Or.inl ⟨trivial, h⟩
  | cons l ls ih =>
    by_cases hgo : LetsGo entry s l
    · refine Or.inr ⟨fun halong => halong.1 h.sent hgo, ?_⟩
      exact run_invariant (I := fun s : Engine R => LetGo entry.clordid s.oms)
        (fun s l hs => letGo_step hs l) (letGo_of_held h hgo) ls
    · have hretains : Retains entry s l := fun _ => hgo
      refine (ih (held_step h hgo)).imp ?_ ?_
      · rintro ⟨halong, hheld⟩
        exact ⟨⟨hretains, halong⟩, hheld⟩
      · rintro ⟨hnot, hletGo⟩
        exact ⟨fun halong => hnot halong.2, hletGo⟩

/-- From a state that has not sent the order, a run that ends with it on record holds it or has
let it go. -/
theorem held_of_run (hnew : ⟨.signal, entry⟩ ∉ s.sent) (ls : List (EngineLabel R))
    (hsent : ⟨.signal, entry⟩ ∈ (run step s ls).sent) :
    Along step (Retains entry) s ls ∧ Held entry (run step s ls) ∨
      ¬ Along step (Retains entry) s ls ∧ LetGo entry.clordid (run step s ls).oms := by
  induction ls generalizing s with
  | nil => exact absurd hsent hnew
  | cons l ls ih =>
    have hretains : Retains entry s l := fun hold => absurd hold hnew
    have hrest : Along step (Retains entry) (s.step l) ls ∧
          Held entry (run step (s.step l) ls) ∨
        ¬ Along step (Retains entry) (s.step l) ls ∧
          LetGo entry.clordid (run step (s.step l) ls).oms := by
      by_cases hnext : ⟨.signal, entry⟩ ∈ (s.step l).sent
      · exact held_run (held_of_sent hnew hnext) ls
      · exact ih hnext hsent
    refine hrest.imp ?_ ?_
    · rintro ⟨halong, hheld⟩
      exact ⟨⟨hretains, halong⟩, hheld⟩
    · rintro ⟨hnot, hletGo⟩
      exact ⟨fun halong => hnot halong.2, hletGo⟩

end Holding

theorem sent_step {s : Engine R} {so : SentOrder} (h : so ∈ s.sent) (l : EngineLabel R) :
    so ∈ (s.step l).sent := by
  cases l with
  | logon => exact h
  | logout => exact h
  | report r t => exact h
  | alpha i =>
    have hplace : ∀ (s' : Engine R) kind side qty px t session, so ∈ s'.sent →
        so ∈ (s'.place kind side qty px t session).sent := by
      intro s' kind side qty px t session hso
      rw [place_sent_eq]
      split_ifs
      · exact List.mem_append_left _ hso
      · exact hso
    simp only [step]
    obtain ⟨-, pc, he⟩ | ⟨o, -, -, he⟩ | ⟨t, sig, -, he⟩ := alphaStep_cases s i
    · rw [he]
      exact h
    · rw [he]
      exact hplace { s with oms := s.oms.cancelOrder o.clordid } _ _ _ _ _ _ h
    · rw [he]
      exact hplace s _ _ _ _ _ _ h

/-- A timer call after the fill of an entry order hands the order over exactly when nothing has
let it go and the call is due by the time of the send. -/
theorem onTimer_entry_iff (cfg : RiskManager.Config R) {pre : List (EngineLabel R)}
    {r : ExecutionReport} {entry : Order} (h : EntryFilled (run step (init cfg) pre) r entry)
    (post : List (EngineLabel R)) (i : AlphaInput R) :
    (∃ o, (run step (init cfg) (pre ++ post)).oms.riskMgr.onTimer i.nowNs = some o ∧
      o.clordid = entry.clordid) ↔ KeptUntil cfg (pre ++ post) i entry := by
  have hsent : ⟨.signal, entry⟩ ∈ (run step (init cfg) (pre ++ post)).sent := by
    rw [run_append]
    exact run_invariant (I := fun s : Engine R => ⟨.signal, entry⟩ ∈ s.sent)
      (fun s l hs => sent_step hs l) h.sent post
  have hnew : ⟨.signal, entry⟩ ∉ (init cfg).sent := List.not_mem_nil
  obtain ⟨halong, hheld⟩ | ⟨hnot, hletGo⟩ := held_of_run hnew _ hsent
  · rw [hheld.onTimer_iff]
    exact ⟨fun hdue => ⟨halong, hdue⟩, fun hkept => hkept.due⟩
  · exact iff_of_false (hletGo.onTimer_ne _) fun hkept => hnot hkept.retained

/-- In every run the timeouts come at the calls the fills make due exactly when, up to each such
call, nothing has let the order go, and the call is due by the time of the send. -/
theorem timesOut_iff (cfg : RiskManager.Config R) (ls : List (EngineLabel R)) :
    TimesOut cfg ls ↔ ∀ pre r t mid i post entry,
      ls = pre ++ .report r t :: (mid ++ .alpha i :: post) →
        FirstDue cfg pre r t mid i entry → KeptUntil cfg (pre ++ .report r t :: mid) i entry := by
  constructor
  · intro h pre r t mid i post entry hls hdue
    exact (onTimer_entry_iff cfg hdue.filled _ i).mp (h pre r t mid i post entry hls hdue)
  · intro h pre r t mid i post entry hls hdue
    exact (onTimer_entry_iff cfg hdue.filled _ i).mpr (h pre r t mid i post entry hls hdue)

/-- A buy order is sent at 1 s. -/
def entrySent : List (EngineLabel ℚ) :=
  [.logon, .alpha { nowNs := 1000000000 },
    .alpha { signal := some { l1Price := 200000, direction := .buy } }, .alpha {}]

def entryFill : ExecutionReport where
  clordid := some "SQ_1"
  execType := some .trade
  ordStatus := some .filled
  lastPx := some 2000
  lastQty := some 1

/-- At 6 s the timer closes, though the fill is not five seconds old, and the closing order is
rejected. -/
def closeRejected : List (EngineLabel ℚ) :=
  [.alpha { nowNs := 6000000000, bestBid := 199900, bestAsk := 200000 }, .alpha {},
    .report { clordid := some "SQ_3", execType := some .rejected, ordStatus := some .rejected }
      6001000000]

def dueTimer : AlphaInput ℚ where
  nowNs := 6002000000
  bestBid := 199900
  bestAsk := 200000

/-- Five seconds after the fill the unit bought is still held, and the timer stays silent. -/
theorem not_timesOut_closeRejected :
    ¬ TimesOut {}
      (entrySent ++ .report entryFill 1001000000 :: (closeRejected ++ .alpha dueTimer :: [])) := by
  intro h
  have hdue : FirstDue {} entrySent entryFill 1001000000 closeRejected dueTimer
      (iocOrder "SQ_1" .buy 1 200000 1000000000) :=
    { filled :=
        { sent := by decide +kernel
          reported := rfl
          isOpen := by decide +kernel
          complete := Or.inl ⟨rfl, rfl⟩ }
      held := ⟨id, ⟨id, ⟨(by rintro ⟨h | h | h, -⟩ <;> cases h), trivial⟩⟩⟩
      first := ⟨fun h => absurd h.2 (by decide +kernel),
        ⟨fun h => absurd h.2 (by decide +kernel), ⟨id, trivial⟩⟩⟩
      due := ⟨rfl, by decide +kernel⟩ }
  obtain ⟨o, ho, -⟩ := h _ _ _ _ _ _ _ rfl hdue
  have hsilent : (run step (init {}) (entrySent ++ .report entryFill 1001000000 ::
      closeRejected)).oms.riskMgr.onTimer dueTimer.nowNs = none := by
    decide +kernel
  rw [hsilent] at ho
  cases ho

end SmartQuant.PositionTimeout
