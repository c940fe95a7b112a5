import SmartQuant.Alpha.SignalEngine
import SmartQuant.Engine.SingleOrder
import SmartQuant.Md.MarketFeed

/-!
# The live system

Three threads: the FIX thread of the market data feeds the queue, the alpha thread
pops an event, runs the timer, the signal engine and the risk check and sends, and
the trade session reports back. The book a step of the alpha thread reads is an input
of the step, so every race with the FIX thread is covered. An order sent for a signal
carries out what `on_event` came to on one event of the log, and no event is answered
twice.
-/
namespace SmartQuant

open MarketFeed Replay Runs
open SignalEngine (engineStep)

structure LiveSystem (R : Type*) [Field R] where
  feed : MarketFeed := {}
  signals : SignalEngine R
  trade : Engine R
  /-- The event the loop body works on; `none` at `queue.pop`. -/
  current : Option LOBEvent := none
  /-- The calls of `on_event` so far, each with the book as it was read. -/
  seen : List (LOBEvent × OrderBook) := []

/-- A move of the FIX thread of the market data, of the alpha thread, or of the trade session. -/
inductive SystemLabel where
  | fromApp (d : Delivery)
  | gateway
  | alpha (nowNs : Nat) (book : OrderBook) (session : Bool)
  | report (r : ExecutionReport) (nowNs : Nat)
  | logon
  | logout

namespace LiveSystem

open Engine

variable {R : Type*} [Field R]

/-- A micro-step of `queue.pop`; the last one hands over the event. -/
def popStep (s : LiveSystem R) : LiveSystem R :=
  { s with
    feed := s.feed.alphaStep kMdQueueCapacity
    current := match s.feed.threads.consumer with
      | .slotRead ev _ => some ev
      | _ => none }

variable [LinearOrder R] (sqrt : R → R)

/-- The loop body for a popped event: `on_timer`, then `on_event` and `check_signal`, then
`send_ioc`; it ends where the trading side is back at the pop. -/
def bodyStep (s : LiveSystem R) (ev : LOBEvent) (nowNs : Nat) (book : OrderBook)
    (session : Bool) : LiveSystem R :=
  let input : AlphaInput R := { nowNs, bestBid := book.bestBid, bestAsk := book.bestAsk, session }
  match s.trade.pc with
  | .pop => { s with trade := s.trade.alphaStep input }
  | .polled _ =>
    let res := s.signals.onEvent sqrt ev book
    let signal := if res.2 then some res.1.lastSignal else none
    let trade := s.trade.alphaStep { input with signal }
    { s with
      signals := res.1
      seen := s.seen ++ [(ev, book)]
      trade
      current := match trade.pc with
        | .pop => none
        | _ => some ev }
  | .cleared _ _ =>
    { s with
      trade := s.trade.alphaStep input
      current := none }

def step (s : LiveSystem R) : SystemLabel → LiveSystem R
  | .fromApp d => { s with feed := s.feed.fromApp d }
  | .gateway => { s with feed := s.feed.gatewayStep kMdQueueCapacity }
  | .alpha nowNs book session =>
    match s.current with
    | none => s.popStep
    | some ev => s.bodyStep sqrt ev nowNs book session
  | .report r nowNs => { s with trade := s.trade.step (.report r nowNs) }
  | .logon => { s with trade := s.trade.step .logon }
  | .logout => { s with trade := s.trade.step .logout }

/-- `main`: nothing received, nothing sent, not logged on. -/
def init (signals : SignalEngine R) (cfg : RiskManager.Config R) : LiveSystem R :=
  { signals, trade := Engine.init cfg }

theorem keys_single (k v : Int) : ((∅ : Levels).insert k v).keys = [k] := by
  have hlen : ((∅ : Levels).insert k v).keys.length = 1 := by
    simp [Std.ExtTreeMap.length_keys, Std.ExtTreeMap.size_insert]
  obtain ⟨a, ha⟩ := List.length_eq_one_iff.mp hlen
  have hmem : k ∈ ((∅ : Levels).insert k v).keys := by simp
  rw [ha, List.mem_singleton] at hmem
  rw [ha, hmem]

/-- A best bid and a best ask read at two moments are those of some book. -/
theorem exists_book (bid ask : Int) :
    ∃ book : OrderBook, book.bestBid = bid ∧ book.bestAsk = ask := by
  refine ⟨{ bids := (∅ : Levels).insert bid 1, asks := (∅ : Levels).insert ask 1 }, ?_, ?_⟩
  · rw [OrderBook.bestBid, keys_single]
    rfl
  · rw [OrderBook.bestAsk, keys_single]
    rfl

/-- The signals `on_event` returned true with, each with its event. -/
def fired (signals : SignalEngine R) (seen : List (LOBEvent × OrderBook)) :
    List (LOBEvent × Signal R) :=
  outputs (engineStep sqrt) (fun e x =>
    if (e.onEvent sqrt x.1 x.2).2 then [(x.1, (e.onEvent sqrt x.1 x.2).1.lastSignal)] else [])
    signals seen

/-- The order carries out the signal. -/
def CarriesOut (x : LOBEvent × Signal R) (o : SentOrder) : Prop :=
  o.order.side = signalSide x.2 ∧ o.order.signalL1 = x.2.l1Price ∧ o.order.qty = 1

/-- The event that is popped and has not come to `on_event`. -/
def unseen (s : LiveSystem R) : List LOBEvent :=
  match s.trade.pc with
  | .cleared _ _ => []
  | _ => s.current.toList

/-- What `on_event` has seen, and which of its signals were carried out. -/
structure Traces (signals : SignalEngine R) (s : LiveSystem R)
    (carried : List (LOBEvent × Signal R)) : Prop where
  /-- `on_event` was called for the popped events, one after the other. -/
  popped : BoundedFifo.pops s.feed.threads.history = s.seen.map Prod.fst ++ s.unseen
  engine : s.signals = run (engineStep sqrt) signals s.seen
  /-- The signals carried out are signals it fired, in its order, each once. -/
  returned : carried.Sublist (fired sqrt signals s.seen)
  orders : List.Forall₂ CarriesOut carried s.trade.signalOrders
  idle : s.current = none → s.trade.pc = .pop
  /-- A signal that passed the check was fired behind those carried out. -/
  cleared : ∀ t sig, s.trade.pc = .cleared t sig →
    ∃ ev, (carried ++ [(ev, sig)]).Sublist (fired sqrt signals s.seen)

theorem fired_concat (signals : SignalEngine R) (seen : List (LOBEvent × OrderBook))
    (ev : LOBEvent) (book : OrderBook) :
    fired sqrt signals (seen ++ [(ev, book)]) = fired sqrt signals seen ++
      let res := (run (engineStep sqrt) signals seen).onEvent sqrt ev book
      if res.2 then [(ev, res.1.lastSignal)] else [] := by
  rw [fired, outputs_append, outputs_cons, outputs_nil, List.append_nil]
  rfl

/-- A signal is one of an event that `on_event` has seen. -/
theorem fired_events (signals : SignalEngine R) (seen : List (LOBEvent × OrderBook)) :
    ((fired sqrt signals seen).map Prod.fst).Sublist (seen.map Prod.fst) := by
  induction seen using List.reverseRecOn with
  | nil => exact List.Sublist.refl _
  | append_singleton seen x ih =>
    obtain ⟨ev, book⟩ := x
    rw [fired_concat, List.map_append, List.map_append]
    refine ih.append ?_
    simp only
    split
    · exact List.Sublist.refl _
    · exact List.nil_sublist _

omit [LinearOrder R] in
theorem alphaStep_pop {e : Engine R} (h : e.pc = .pop) (i : AlphaInput R) :
    (e.alphaStep i).pc = .polled i.nowNs := by
  rw [Engine.alphaStep, h]
  simp only
  split <;> rfl

omit [LinearOrder R] in
/-- Behind the timer the loop goes back to the pop, or a fired signal has passed the check. -/
theorem alphaStep_polled {e : Engine R} {t : Nat} (h : e.pc = .polled t) (i : AlphaInput R) :
    e.alphaStep i = { e with pc := .pop } ∨
      ∃ sig, i.signal = some sig ∧ e.alphaStep i = { e with pc := .cleared t sig } := by
  rw [Engine.alphaStep, h]
  simp only
  split
  · exact Or.inl rfl
  · rename_i sig hsig
    split
    · exact Or.inr ⟨sig, hsig, rfl⟩
    · exact Or.inl rfl

omit [LinearOrder R] in
/-- The send of a signal that passed: one order with its side and price, or none. -/
theorem alphaStep_cleared {e : Engine R} {t : Nat} {sig : Signal R} (h : e.pc = .cleared t sig)
    (i : AlphaInput R) : (e.alphaStep i).pc = .pop ∧
      ((e.alphaStep i).signalOrders = e.signalOrders ∨
        ∃ o : SentOrder, (e.alphaStep i).signalOrders = e.signalOrders ++ [o] ∧
          o.order.side = signalSide sig ∧ o.order.signalL1 = sig.l1Price ∧ o.order.qty = 1) := by
  have hstep : e.alphaStep i =
      { e.place .signal (signalSide sig) 1 sig.l1Price t i.session with pc := .pop } := by
    rw [Engine.alphaStep, h]
  rw [hstep]
  refine ⟨rfl, ?_⟩
  simp only [signalOrders, place_sent_eq]
  split
  · exact Or.inr ⟨_, by rw [List.filter_append]; rfl, rfl, rfl, rfl⟩
  · exact Or.inl rfl

section Queue

open SpscThreads BoundedFifo

variable {α : Type*} (capacity : Nat)

theorem pops_popStep (s : SpscThreads α) : pops (s.popStep capacity).history =
    pops s.history ++ match s.consumer with
      | .slotRead x _ => [x]
      | _ => [] := by
  rw [SpscThreads.popStep]
  cases s.consumer with
  | idle | notEmpty => exact (List.append_nil _).symm
  | tailRead tail =>
    simp only
    split
    · simp [pops_concat]
    · exact (List.append_nil _).symm
  | slotRead x tail => exact pops_concat _ _

theorem pops_pushStep (s : SpscThreads α) (item : α) :
    pops (s.pushStep capacity item).history = pops s.history := by
  rw [pushStep]
  cases s.producer with
  | idle | notFull => rfl
  | headRead x head =>
    simp only
    split
    · simp [pops_concat]
    · rfl
  | slotWritten x next => simp [pops_concat]

end Queue

section Steps

variable {s : LiveSystem R} {signals : SignalEngine R} {carried : List (LOBEvent × Signal R)}
  {sqrt}

/-- Steps that neither pop nor send nor move the alpha thread. -/
theorem Traces.congr (h : Traces sqrt signals s carried) {s' : LiveSystem R}
    (hpops : BoundedFifo.pops s'.feed.threads.history = BoundedFifo.pops s.feed.threads.history)
    (hsignals : s'.signals = s.signals) (hseen : s'.seen = s.seen)
    (hcurrent : s'.current = s.current) (hpc : s'.trade.pc = s.trade.pc)
    (hsent : s'.trade.sent = s.trade.sent) : Traces sqrt signals s' carried := by
  constructor
  · rw [hpops, unseen, hpc, hcurrent, hseen]
    exact h.popped
  · rw [hsignals, hseen]
    exact h.engine
  · rw [hseen]
    exact h.returned
  · rw [signalOrders, hsent]
    exact h.orders
  · rw [hcurrent, hpc]
    exact h.idle
  · rw [hpc, hseen]
    exact h.cleared

theorem Traces.popStep (h : Traces sqrt signals s carried) (hnone : s.current = none) :
    Traces sqrt signals s.popStep carried := by
  have hpop := h.idle hnone
  have hpopped := h.popped
  rw [unseen, hpop, hnone] at hpopped
  constructor
  · rw [unseen, show s.popStep.trade.pc = .pop from hpop]
    show BoundedFifo.pops (s.feed.threads.popStep kMdQueueCapacity).history =
      s.seen.map Prod.fst ++ Option.toList (match s.feed.threads.consumer with
        | .slotRead ev _ => some ev
        | _ => none)
    rw [pops_popStep, hpopped]
    cases s.feed.threads.consumer <;> simp
  · exact h.engine
  · exact h.returned
  · exact h.orders
  · exact fun _ => hpop
  · intro t sig hc
    rw [show s.trade.pc = .cleared t sig from hc] at hpop
    cases hpop

/-- `on_event` takes the event up; behind it the loop is over, or a signal passed the check. -/
theorem Traces.polled (h : Traces sqrt signals s carried) {ev : LOBEvent}
    (hev : s.current = some ev) {t : Nat} (hpc : s.trade.pc = .polled t) (nowNs : Nat)
    (book : OrderBook) (session : Bool) :
    Traces sqrt signals (s.bodyStep sqrt ev nowNs book session) carried := by
  have hpopped : BoundedFifo.pops s.feed.threads.history =
      (s.seen ++ [(ev, book)]).map Prod.fst ++ [] := by
    rw [h.popped, unseen, hpc, hev, List.map_append, List.append_nil]
    rfl
  have hengine : (s.signals.onEvent sqrt ev book).1 =
      run (engineStep sqrt) signals (s.seen ++ [(ev, book)]) := by
    rw [run_concat, ← h.engine]
    rfl
  have hfired := fired_concat sqrt signals s.seen ev book
  rw [← h.engine] at hfired
  have hcarried : carried.Sublist (fired sqrt signals (s.seen ++ [(ev, book)])) := by
    rw [hfired]
    exact h.returned.trans (List.sublist_append_left _ _)
  rw [LiveSystem.bodyStep, hpc]
  simp only
  obtain hstep | ⟨sig, hsig, hstep⟩ := alphaStep_polled hpc
    { nowNs, bestBid := book.bestBid, bestAsk := book.bestAsk, session,
      signal := if (s.signals.onEvent sqrt ev book).2 then
        some (s.signals.onEvent sqrt ev book).1.lastSignal else none }
  · rw [hstep]
    exact ⟨hpopped, hengine, hcarried, h.orders, fun _ => rfl, fun t' sig hc => by cases hc⟩
  · rw [hstep]
    refine ⟨hpopped, hengine, hcarried, h.orders, (fun hc => by cases hc), fun t' sig' hc => ?_⟩
    cases hc
    simp only [Option.ite_none_right_eq_some, Option.some.injEq] at hsig
    obtain ⟨hres, hlast⟩ := hsig
    refine ⟨ev, ?_⟩
    rw [hfired]
    simp only [hres, if_true, hlast]
    exact h.returned.append (List.Sublist.refl _)

theorem Traces.bodyStep (h : Traces sqrt signals s carried) {ev : LOBEvent}
    (hev : s.current = some ev) (nowNs : Nat) (book : OrderBook) (session : Bool) :
    ∃ carried', Traces sqrt signals (s.bodyStep sqrt ev nowNs book session) carried' := by
  cases hpc : s.trade.pc with
  | pop =>
    have hpopped := h.popped
    rw [unseen, hpc] at hpopped
    let input : AlphaInput R :=
      { nowNs, bestBid := book.bestBid, bestAsk := book.bestAsk, session }
    have hstep : s.bodyStep sqrt ev nowNs book session =
        { s with trade := s.trade.alphaStep input } := by
      rw [LiveSystem.bodyStep, hpc]
    have hpolled : (s.trade.alphaStep input).pc = .polled nowNs := alphaStep_pop hpc input
    rw [hstep]
    refine ⟨carried, ?_, h.engine, h.returned, ?_, ?_, ?_⟩
    · rw [unseen, show ({ s with trade := s.trade.alphaStep input } : LiveSystem R).trade.pc =
        .polled nowNs from hpolled]
      exact hpopped
    · show List.Forall₂ CarriesOut carried (s.trade.alphaStep input).signalOrders
      rw [SingleOrder.signalOrders_alphaStep (fun t sig => by simp [hpc])]
      exact h.orders
    · intro hc
      rw [show s.current = none from hc] at hev
      cases hev
    · intro t sig hc
      rw [show (s.trade.alphaStep input).pc = .cleared t sig from hc] at hpolled
      cases hpolled
  | polled t => exact ⟨carried, h.polled hev hpc nowNs book session⟩
  | cleared t sig =>
    have hpopped := h.popped
    rw [unseen, hpc, List.append_nil] at hpopped
    obtain ⟨ev', hsub⟩ := h.cleared t sig hpc
    rw [LiveSystem.bodyStep, hpc]
    simp only
    obtain ⟨hpop, hsame | ⟨o, ho, hout⟩⟩ := alphaStep_cleared hpc
      { nowNs, bestBid := book.bestBid, bestAsk := book.bestAsk, session }
    · refine ⟨carried, ?_, h.engine, h.returned, ?_, fun _ => hpop, ?_⟩
      · simpa [unseen, hpop] using hpopped
      · simp only [hsame]
        exact h.orders
      · intro t' sig' hc
        rw [hpop] at hc
        cases hc
    · refine ⟨carried ++ [(ev', sig)], ?_, h.engine, hsub, ?_, fun _ => hpop, ?_⟩
      · simpa [unseen, hpop] using hpopped
      · simp only [ho]
        exact List.rel_append h.orders (.cons hout .nil)
      · intro t' sig' hc
        rw [hpop] at hc
        cases hc

end Steps

section Run

open SpscFifo

/-- The feed delivers, and the orders sent for signals are traced to the events of the feed. -/
structure Sound (signals : SignalEngine R) (s : LiveSystem R) : Prop where
  feeds : Feeds kMdQueueCapacity s.feed
  traced : ∃ carried, Traces sqrt signals s carried

theorem validCapacity_mdQueue : ValidCapacity kMdQueueCapacity := ⟨by decide, by decide⟩

theorem sound_init (signals : SignalEngine R) (cfg : RiskManager.Config R) :
    Sound sqrt signals (init signals cfg) := by
  refine ⟨feeds_init validCapacity_mdQueue, [], rfl, rfl, List.nil_sublist _, .nil,
    fun _ => rfl, ?_⟩
  intro t sig hc
  cases hc

theorem Sound.step {signals : SignalEngine R} {s : LiveSystem R} (h : Sound sqrt signals s)
    (l : SystemLabel) : Sound sqrt signals (s.step sqrt l) := by
  obtain ⟨hfeeds, carried, htraces⟩ := h
  cases l with
  | fromApp d =>
    refine ⟨hfeeds.step validCapacity_mdQueue (.fromApp d), carried, ?_⟩
    refine htraces.congr ?_ rfl rfl rfl rfl rfl
    show BoundedFifo.pops (s.feed.fromApp d).threads.history = _
    rw [fromApp_threads]
  | gateway =>
    refine ⟨hfeeds.step validCapacity_mdQueue .gateway, carried, ?_⟩
    refine htraces.congr ?_ rfl rfl rfl rfl rfl
    show BoundedFifo.pops (s.feed.gatewayStep kMdQueueCapacity).threads.history = _
    rcases (gatewayStep_threads kMdQueueCapacity s.feed).2 with hsame | ⟨ev, hpush⟩
    · rw [hsame]
    · rw [hpush, pops_pushStep]
  | alpha nowNs book session =>
    rw [LiveSystem.step]
    cases hcurrent : s.current with
    | none =>
      exact ⟨hfeeds.step validCapacity_mdQueue .alpha, carried, htraces.popStep hcurrent⟩
    | some ev =>
      refine ⟨?_, htraces.bodyStep hcurrent nowNs book session⟩
      simp only [LiveSystem.bodyStep]
      split <;> exact hfeeds
  | report r nowNs => exact ⟨hfeeds, carried, htraces.congr rfl rfl rfl rfl rfl rfl⟩
  | logon => exact ⟨hfeeds, carried, htraces.congr rfl rfl rfl rfl rfl rfl⟩
  | logout => exact ⟨hfeeds, carried, htraces.congr rfl rfl rfl rfl rfl rfl⟩

/-- In every run of the three threads `on_event` is called for the popped events one after
the other, and the orders sent for signals carry out, in its order and each once, signals it
returned true with. Each goes back to one event of the log. -/
theorem signalOrders_traced (signals : SignalEngine R) (cfg : RiskManager.Config R)
    (ls : List SystemLabel) :
    let s := run (step sqrt) (init signals cfg) ls
    BoundedFifo.pops s.feed.threads.history = s.seen.map Prod.fst ++ s.unseen ∧
      s.signals = run (engineStep sqrt) signals s.seen ∧
      ∃ carried : List (LOBEvent × Signal R),
        carried.Sublist (fired sqrt signals s.seen) ∧
        List.Forall₂ CarriesOut carried s.trade.signalOrders ∧
        (carried.map Prod.fst).Sublist s.feed.gateway.logged := by
  intro s
  obtain ⟨hfeeds, carried, htraces⟩ : Sound sqrt signals s :=
    run_invariant (I := Sound sqrt signals) (fun _ l h => h.step sqrt l)
      (sound_init sqrt signals cfg) ls
  have hseen : s.seen.map Prod.fst <+: BoundedFifo.pops s.feed.threads.history :=
    ⟨s.unseen, htraces.popped.symm⟩
  refine ⟨htraces.popped, htraces.engine, carried, htraces.returned, htraces.orders, ?_⟩
  have hcarried : (carried.map Prod.fst).Sublist (s.seen.map Prod.fst) :=
    (htraces.returned.map _).trans (fired_events sqrt signals s.seen)
  exact (hcarried.trans hseen.sublist).trans hfeeds.delivers.inOrder

end Run

end LiveSystem
end SmartQuant
