import SmartQuant.Common.SpscFifo
import SmartQuant.Md.EntryVisits

/-!
# The market feed

The FIX thread works through a message entry by entry: it logs the event, applies it
to the book and pushes it, and the alpha thread pops meanwhile. A push is four
micro-steps and may be refused. What the alpha thread gets is the log in its order,
less exactly the events whose push found the queue full; and between messages the gateway is
where the messages so far leave it, whatever the alpha thread did.
-/
namespace SmartQuant

open SpscThreads EntryVisits Replay

instance : Inhabited LOBEvent := ⟨{ timestampNs := 0, action := .new }⟩

def kMdQueueCapacity : Nat := 2 ^ 14

/-- Where the FIX thread stands: between messages, at the head of the entry loop, or inside
`queue_->push(ev)`. -/
inductive FeedPc where
  | idle
  | entries (incremental : Bool) (tsNs : Nat) (rest : List MDEntry)
  | pushing (ev : LOBEvent) (incremental : Bool) (tsNs : Nat) (rest : List MDEntry)

structure MarketFeed where
  gateway : FixMdGateway := {}
  threads : SpscThreads LOBEvent := .init
  pc : FeedPc := .idle
  /-- The messages taken up so far. -/
  taken : List Delivery := []

/-- The next move: a message for an idle FIX thread, or a micro-step of either thread. -/
inductive FeedLabel where
  | fromApp (d : Delivery)
  | gateway
  | alpha

namespace MarketFeed

def fromApp (s : MarketFeed) (d : Delivery) : MarketFeed :=
  match s.pc with
  | .idle =>
    { s with
      gateway := opened s.gateway d
      pc := if d.msg.msgType = "X" then .entries true d.tsNs (announced d.msg)
        else if d.msg.msgType = "W" then .entries false d.tsNs (announced d.msg)
        else .idle
      taken := s.taken ++ [d] }
  | _ => s

def gatewayStep (capacity : Nat) (s : MarketFeed) : MarketFeed :=
  match s.pc with
  | .idle => s
  | .entries _ _ [] => { s with pc := .idle }
  | .entries incremental tsNs (entry :: rest) =>
    match Visit.parsed { incremental, tsNs, book := s.gateway.book, entry } with
    | .fieldNotFound => { s with pc := .idle }
    | .skip => { s with pc := .entries incremental tsNs rest }
    | .event ev =>
      { s with
        gateway := s.gateway.emit ev
        pc := if s.gateway.queue then .pushing ev incremental tsNs rest
          else .entries incremental tsNs rest }
  | .pushing ev incremental tsNs rest =>
    let threads := s.threads.pushStep capacity ev
    match threads.producer with
    | .idle => { s with threads, pc := .entries incremental tsNs rest }
    | _ => { s with threads }

def alphaStep (capacity : Nat) (s : MarketFeed) : MarketFeed :=
  { s with threads := s.threads.popStep capacity }

def step (capacity : Nat) (s : MarketFeed) : FeedLabel → MarketFeed
  | .fromApp d => s.fromApp d
  | .gateway => s.gatewayStep capacity
  | .alpha => s.alphaStep capacity

/-- The gateway once the message under way is done. -/
def finished (s : MarketFeed) : FixMdGateway :=
  match s.pc with
  | .idle => s.gateway
  | .entries incremental tsNs rest | .pushing _ incremental tsNs rest =>
    FixMdGateway.handleEntries
      (fun book entry => Visit.parsed { incremental, tsNs, book, entry }) s.gateway rest

/-- Logged and applied, its push not yet over. -/
def inFlight (s : MarketFeed) : List LOBEvent :=
  match s.pc with
  | .pushing ev _ _ _ => [ev]
  | _ => []

section Finished

variable {capacity : Nat}

theorem finished_fromApp {s : MarketFeed} (h : s.pc = .idle) (d : Delivery) :
    (s.fromApp d).finished = deliver s.gateway d := by
  rw [fromApp, h, deliver_visits, messageVisits]
  by_cases hx : d.msg.msgType = "X"
  · have hw : d.msg.msgType ≠ "W" := by rw [hx]; decide
    have hbook : (opened s.gateway d).book = s.gateway.book := by rw [opened, if_neg hw]
    simp only [finished, if_pos hx]
    rw [handleEntries_visits (fun _ _ => rfl), hbook]
  · by_cases hw : d.msg.msgType = "W"
    · have hbook : (opened s.gateway d).book = s.gateway.book.clear := by rw [opened, if_pos hw]
      simp only [finished, if_neg hx, if_pos hw]
      rw [handleEntries_visits (fun _ _ => rfl), hbook]
    · simp only [finished, if_neg hx, if_neg hw]
      rfl

/-- A move of the entry loop leaves the end of the message where it is. -/
theorem finished_gatewayStep (s : MarketFeed) :
    (s.gatewayStep capacity).finished = s.finished := by
  rw [gatewayStep]
  cases hpc : s.pc with
  | idle => rfl
  | entries incremental tsNs rest =>
    cases rest with
    | nil =>
      rw [finished, finished, hpc]
      rfl
    | cons entry rest =>
      simp only
      cases hp : Visit.parsed { incremental, tsNs, book := s.gateway.book, entry } with
      | fieldNotFound => simp [finished, hpc, FixMdGateway.handleEntries, hp]
      | skip => simp [finished, hpc, FixMdGateway.handleEntries, hp]
      | event ev =>
        cases hq : s.gateway.queue <;>
          simp [finished, hpc, FixMdGateway.handleEntries, hp]
  | pushing ev incremental tsNs rest =>
    simp only
    split <;> simp [finished, hpc]

end Finished

end MarketFeed

section Calls

open BoundedFifo

variable {α : Type*} (capacity : Nat)

/-- A push under way is one of this item. -/
def Carries (item : α) : PushPc α → Prop
  | .idle => True
  | .headRead x _ | .notFull x _ _ | .slotWritten x _ => x = item

/-- A micro-step of a push ends it with an outcome, or leaves it under way. -/
theorem pushStep_cases {s : SpscThreads α} {item : α} (h : Carries item s.producer) :
    ((s.pushStep capacity item).producer = .idle ∧ ∃ o, (o = .full item ∨ o = .pushed item) ∧
      (s.pushStep capacity item).history = s.history ++ [o]) ∨
    ((s.pushStep capacity item).producer ≠ .idle ∧
      Carries item (s.pushStep capacity item).producer ∧
      (s.pushStep capacity item).history = s.history) := by
  rw [pushStep]
  cases hpc : s.producer with
  | idle => exact Or.inr ⟨by simp, rfl, rfl⟩
  | headRead x head =>
    rw [hpc] at h
    simp only
    split
    · obtain rfl := h
      exact Or.inl ⟨rfl, _, Or.inl rfl, rfl⟩
    · exact Or.inr ⟨by simp, h, rfl⟩
  | notFull x head next =>
    rw [hpc] at h
    exact Or.inr ⟨by simp, h, rfl⟩
  | slotWritten x next =>
    rw [hpc] at h
    obtain rfl := h
    exact Or.inl ⟨rfl, _, Or.inr rfl, rfl⟩

/-- A micro-step of a pop offers nothing. -/
theorem popStep_offers (s : SpscThreads α) :
    (s.popStep capacity).producer = s.producer ∧
      offers (s.popStep capacity).history = offers s.history := by
  rw [popStep]
  cases hpc : s.consumer with
  | idle | notEmpty => exact ⟨rfl, rfl⟩
  | tailRead tail =>
    simp only
    split
    · exact ⟨rfl, by simp [offers_concat]⟩
    · exact ⟨rfl, rfl⟩
  | slotRead x tail => exact ⟨rfl, by simp [offers_concat]⟩

end Calls

namespace MarketFeed

section Accounts

open BoundedFifo

variable {capacity : Nat} {s : MarketFeed}

/-- The pushes that are over, whatever came of them, and the one under way are those of the log,
event by event. -/
structure Accounts (s : MarketFeed) : Prop where
  queue : s.gateway.queue = true
  producer : (∀ ev ∈ s.inFlight, Carries ev s.threads.producer) ∧
    (s.inFlight = [] → s.threads.producer = .idle)
  logged : s.gateway.logged = offers s.threads.history ++ s.inFlight

theorem accounts_init : Accounts {} :=
  ⟨rfl, ⟨by simp [inFlight], fun _ => rfl⟩, rfl⟩

/-- Steps that leave log, queue and push alone. -/
theorem Accounts.congr (h : Accounts s) {s' : MarketFeed}
    (hqueue : s'.gateway.queue = s.gateway.queue)
    (hlogged : s'.gateway.logged = s.gateway.logged) (hthreads : s'.threads = s.threads)
    (hflight : s'.inFlight = s.inFlight) : Accounts s' := by
  constructor
  · rw [hqueue]
    exact h.queue
  · rw [hthreads, hflight]
    exact h.producer
  · rw [hlogged, hthreads, hflight]
    exact h.logged

theorem Accounts.fromApp (h : Accounts s) (d : Delivery) : Accounts (s.fromApp d) := by
  rw [MarketFeed.fromApp]
  cases hpc : s.pc with
  | idle =>
    apply h.congr (opened_queue _ _)
    · simp only [opened]
      split <;> rfl
    · rfl
    · simp only [inFlight, hpc]
      split_ifs <;> rfl
  | entries | pushing => exact h

theorem Accounts.alphaStep (h : Accounts s) : Accounts (s.alphaStep capacity) := by
  obtain ⟨hproducer, hoffers⟩ := popStep_offers capacity s.threads
  constructor
  · exact h.queue
  · show (∀ ev ∈ s.inFlight, Carries ev (s.threads.popStep capacity).producer) ∧
      (s.inFlight = [] → (s.threads.popStep capacity).producer = .idle)
    rw [hproducer]
    exact h.producer
  · show s.gateway.logged = offers (s.threads.popStep capacity).history ++ s.inFlight
    rw [hoffers]
    exact h.logged

/-- The event of an entry joins the log, its push about to begin. -/
theorem Accounts.emit (h : Accounts s) (hflight : s.inFlight = []) (ev : LOBEvent)
    (incremental : Bool) (tsNs : Nat) (rest : List MDEntry) :
    Accounts { s with
      gateway := s.gateway.emit ev, pc := .pushing ev incremental tsNs rest } := by
  have hlogged := h.logged
  rw [hflight, List.append_nil] at hlogged
  refine ⟨h.queue, ⟨?_, ?_⟩, ?_⟩
  · intro ev' _
    rw [h.producer.2 hflight]
    trivial
  · intro hc
    cases hc
  · show s.gateway.logged ++ [ev] = offers s.threads.history ++ [ev]
    rw [hlogged]

/-- A micro-step of a push: the event stays in flight until the outcome settles it. -/
theorem Accounts.push (h : Accounts s) {ev : LOBEvent} {incremental : Bool} {tsNs : Nat}
    {rest : List MDEntry} (hpc : s.pc = .pushing ev incremental tsNs rest) :
    Accounts (s.gatewayStep capacity) := by
  have hflight : s.inFlight = [ev] := by rw [inFlight, hpc]
  have hcarries : Carries ev s.threads.producer := h.producer.1 ev (by rw [hflight]; simp)
  have hlogged := h.logged
  rw [hflight] at hlogged
  rw [gatewayStep, hpc]
  obtain ⟨hidle, o, ho, hhist⟩ | ⟨hbusy, hstill, hhist⟩ :=
    pushStep_cases capacity hcarries
  · simp only [hidle]
    refine ⟨h.queue, ⟨by simp [inFlight], fun _ => hidle⟩, ?_⟩
    show s.gateway.logged = offers (s.threads.pushStep capacity ev).history ++ []
    rw [hlogged, hhist, offers_concat, List.append_nil]
    rcases ho with rfl | rfl <;> rfl
  · simp only
    refine ⟨h.queue, ⟨?_, ?_⟩, ?_⟩
    · intro ev' hev'
      rw [List.mem_singleton.mp hev']
      exact hstill
    · intro hc
      cases hc
    · show s.gateway.logged = offers (s.threads.pushStep capacity ev).history ++ [ev]
      rw [hhist]
      exact hlogged

theorem Accounts.gatewayStep (h : Accounts s) : Accounts (s.gatewayStep capacity) := by
  cases hpc : s.pc with
  | idle =>
    rw [MarketFeed.gatewayStep, hpc]
    exact h
  | entries incremental tsNs rest =>
    have hflight : s.inFlight = [] := by rw [inFlight, hpc]
    rw [MarketFeed.gatewayStep, hpc]
    cases rest with
    | nil => exact h.congr rfl rfl rfl hflight.symm
    | cons entry rest =>
      simp only
      split
      · exact h.congr rfl rfl rfl hflight.symm
      · exact h.congr rfl rfl rfl hflight.symm
      · rw [if_pos h.queue]
        exact h.emit hflight _ incremental tsNs rest
  | pushing ev incremental tsNs rest => exact h.push hpc

end Accounts

section Run

open BoundedFifo SpscFifo Runs

variable {capacity : Nat}

/-- The run has taken up these messages, keeps its accounts and simulates a bounded queue. -/
structure Feeds (capacity : Nat) (s : MarketFeed) : Prop where
  finished : s.finished = run deliver {} s.taken
  accounts : Accounts s
  queue : ∃ items, Simulates capacity s.threads items

theorem feeds_init (hcap : ValidCapacity capacity) : Feeds capacity {} :=
  ⟨rfl, accounts_init, simulates_run hcap []⟩

theorem fromApp_threads (s : MarketFeed) (d : Delivery) :
    (s.fromApp d).threads = s.threads := by
  rw [fromApp]
  split <;> rfl

/-- Of the queue a move of the FIX thread makes one micro-step at most. -/
theorem gatewayStep_threads (capacity : Nat) (s : MarketFeed) :
    (s.gatewayStep capacity).taken = s.taken ∧
      ((s.gatewayStep capacity).threads = s.threads ∨
        ∃ ev, (s.gatewayStep capacity).threads = s.threads.pushStep capacity ev) := by
  rw [gatewayStep]
  cases s.pc with
  | idle => exact ⟨rfl, Or.inl rfl⟩
  | entries incremental tsNs rest =>
    cases rest with
    | nil => exact ⟨rfl, Or.inl rfl⟩
    | cons entry rest =>
      simp only
      split <;> exact ⟨rfl, Or.inl rfl⟩
  | pushing ev incremental tsNs rest =>
    simp only
    split <;> exact ⟨rfl, Or.inr ⟨ev, rfl⟩⟩

theorem Feeds.step (hcap : ValidCapacity capacity) {s : MarketFeed} (h : Feeds capacity s)
    (l : FeedLabel) : Feeds capacity (s.step capacity l) := by
  obtain ⟨items, hsim⟩ := h.queue
  cases l with
  | fromApp d =>
    refine ⟨?_, h.accounts.fromApp d, items, ?_⟩
    · show (s.fromApp d).finished = run deliver {} (s.fromApp d).taken
      cases hpc : s.pc with
      | idle =>
        have htaken : (s.fromApp d).taken = s.taken ++ [d] := by rw [MarketFeed.fromApp, hpc]
        have hgateway : s.gateway = run deliver {} s.taken := by
          rw [← h.finished, MarketFeed.finished, hpc]
        rw [finished_fromApp hpc, htaken, run_concat, ← hgateway]
      | entries | pushing =>
        rw [MarketFeed.fromApp, hpc]
        exact h.finished
    · show Simulates capacity (s.fromApp d).threads items
      rw [fromApp_threads]
      exact hsim
  | gateway =>
    obtain ⟨htaken, hthreads⟩ := gatewayStep_threads capacity s
    refine ⟨?_, h.accounts.gatewayStep, ?_⟩
    · show (s.gatewayStep capacity).finished = run deliver {} (s.gatewayStep capacity).taken
      rw [finished_gatewayStep, htaken]
      exact h.finished
    · show ∃ items, Simulates capacity (s.gatewayStep capacity).threads items
      rcases hthreads with hsame | ⟨ev, hpush⟩
      · rw [hsame]
        exact ⟨items, hsim⟩
      · rw [hpush]
        exact simulates_pushStep hcap hsim ev
  | alpha =>
    refine ⟨h.finished, h.accounts.alphaStep, ?_⟩
    exact simulates_popStep hcap hsim

theorem feeds_run (hcap : ValidCapacity capacity) (ls : List FeedLabel) :
    Feeds capacity (run (step capacity) {} ls) :=
  run_invariant (I := Feeds capacity) (fun _ l h => h.step hcap l) (feeds_init hcap) ls

/-- What the alpha thread can rely on, and what may be lost. -/
structure Delivers (capacity : Nat) (s : MarketFeed) : Prop where
  /-- The pushes so far, successful or refused, and the one under way are those of the logged
  events, in the order of the log. -/
  offered : s.gateway.logged = offers s.threads.history ++ s.inFlight
  /-- The events whose push succeeded were popped in this order, or wait in it. -/
  delivered : ∃ waiting, waiting.length < capacity ∧
    pushes s.threads.history = pops s.threads.history ++ waiting
  /-- A push was refused only where the queue was full. -/
  full : ∀ pre ev, pre ++ [.full ev] <+: s.threads.history →
    (pushes pre).length = (pops pre).length + (capacity - 1)
  /-- Popped events are logged events, each at most once. -/
  inOrder : (pops s.threads.history).Sublist s.gateway.logged
  /-- A logged event was popped or refused, or waits in the queue, or is being pushed. -/
  accounted : ∃ waiting, waiting < capacity ∧ s.gateway.logged.length =
    (pops s.threads.history).length + waiting + (refusals s.threads.history).length +
      s.inFlight.length
  /-- As long as nothing is refused, what was popped is the log as far as it goes. -/
  lossless : refusals s.threads.history = [] → pops s.threads.history <+: s.gateway.logged
  /-- Between messages the gateway is where the messages so far leave it. -/
  settled : s.pc = .idle → s.gateway = run deliver {} s.taken

theorem Feeds.delivers {s : MarketFeed} (h : Feeds capacity s) : Delivers capacity s := by
  obtain ⟨hfinished, haccounts, items, hsim⟩ := h
  have hlogged := haccounts.logged
  obtain ⟨n, hrep⟩ := hsim.represents
  have hpushes := accepts_pushes hsim.accepts
  have hpops := pops_isPrefix hsim.accepts
  constructor
  · exact hlogged
  · exact ⟨items, hrep.room, hpushes⟩
  · intro pre ev hpre
    exact length_of_full hsim.accepts hpre
  · rw [hlogged]
    exact hpops.sublist.trans
      ((pushes_sublist_offers _).trans (List.sublist_append_left _ _))
  · refine ⟨items.length, hrep.room, ?_⟩
    rw [hlogged, List.length_append, length_offers, hpushes, List.length_append]
  · intro hnone
    rw [hlogged, ← pushes_eq_offers hnone]
    exact hpops.trans (List.prefix_append _ _)
  · intro hidle
    rw [← hfinished, MarketFeed.finished, hidle]

/-- Whatever messages come and however the two threads interleave, the alpha thread gets the
log in order, less exactly the events whose push found the queue full. -/
theorem delivers_run (hcap : ValidCapacity capacity) (ls : List FeedLabel) :
    Delivers capacity (run (step capacity) {} ls) := (feeds_run hcap ls).delivers

/-- A new bid comes in and is popped from the queue of the engine. -/
def oneBid : List FeedLabel :=
  .fromApp (refresh
      [{ updateAction := some '0', entryType := some '0', entryId := some "1"
         px := some 2000, size := some 1 }]) ::
    (List.replicate 6 .gateway ++ List.replicate 4 .alpha)

theorem delivers_oneBid :
    Delivers kMdQueueCapacity (run (step kMdQueueCapacity) {} oneBid) :=
  delivers_run ⟨by decide, by decide⟩ oneBid

end Run

end MarketFeed

end SmartQuant
