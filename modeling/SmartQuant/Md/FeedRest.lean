import SmartQuant.Common.SpscProgress
import SmartQuant.Md.MarketFeed

/-!
# The feed comes to rest

Neither thread ever waits for the other, so a number of own moves is enough: five of the FIX
thread for each entry of the message under way, whatever the alpha thread does meanwhile, and
then four of the alpha thread for each event the queue may hold. After that the alpha thread has
every event of the log but those whose push found the queue full.
-/
namespace SmartQuant.FeedRest

open BoundedFifo EntryVisits MarketFeed Replay Runs SpscFifo SpscProgress SpscThreads

variable (capacity : Nat)

/-- The moves the FIX thread still has to make for the message under way, at most. -/
def work (s : MarketFeed) : Nat :=
  match s.pc with
  | .idle => 0
  | .entries _ _ rest => 5 * rest.length + 1
  | .pushing _ _ _ rest => (4 - pushDone s.threads.producer) + (5 * rest.length + 1)

def isGateway : FeedLabel → Bool
  | .gateway => true
  | _ => false

def isAlpha : FeedLabel → Bool
  | .alpha => true
  | _ => false

/-- No message comes. -/
def Quiet (ls : List FeedLabel) : Prop := ∀ l ∈ ls, isGateway l = true ∨ isAlpha l = true

instance (ls : List FeedLabel) : Decidable (Quiet ls) :=
  inferInstanceAs (Decidable (∀ l ∈ ls, isGateway l = true ∨ isAlpha l = true))

/-- The message under way is done, and nothing waits in the queue. -/
structure AtRest (s s' : MarketFeed) : Prop where
  idle : s'.pc = .idle
  gateway : s'.gateway = run deliver {} s.taken
  /-- Every event of the log was offered to the queue once, in order. -/
  offered : s'.gateway.logged = offers s'.threads.history
  /-- Where the queue took it, it was popped. -/
  popped : pops s'.threads.history = pushes s'.threads.history
  accounted : s'.gateway.logged.length =
    (pops s'.threads.history).length + (refusals s'.threads.history).length
  lossless : refusals s'.threads.history = [] → pops s'.threads.history = s'.gateway.logged

/-- A micro-step of push brings it one further, or ends it. -/
theorem pushDone_pushStep (s : SpscThreads LOBEvent) (ev : LOBEvent) :
    (s.pushStep capacity ev).producer = .idle ∨
      pushDone (s.pushStep capacity ev).producer = pushDone s.producer + 1 := by
  rw [pushStep]
  cases hpc : s.producer with
  | idle => exact Or.inr rfl
  | headRead item head =>
    simp only
    split
    · exact Or.inl rfl
    · exact Or.inr rfl
  | notFull item head next => exact Or.inr rfl
  | slotWritten item next => exact Or.inl rfl

theorem work_gatewayStep (s : MarketFeed) : work (s.gatewayStep capacity) ≤ work s - 1 := by
  rw [gatewayStep]
  cases hpc : s.pc with
  | idle =>
    simp only
    rw [work, hpc]
    exact Nat.zero_le _
  | entries incremental tsNs rest =>
    cases rest with
    | nil => exact Nat.zero_le _
    | cons entry rest =>
      have hwork : work s = 5 * (rest.length + 1) + 1 := by
        rw [work, hpc]
        rfl
      rw [hwork]
      simp only
      cases Visit.parsed { incremental, tsNs, book := s.gateway.book, entry } with
      | fieldNotFound => exact Nat.zero_le _
      | skip =>
        show 5 * rest.length + 1 ≤ _
        omega
      | event ev =>
        cases s.gateway.queue with
        | false =>
          show 5 * rest.length + 1 ≤ _
          omega
        | true =>
          show 4 - pushDone s.threads.producer + (5 * rest.length + 1) ≤ _
          omega
  | pushing ev incremental tsNs rest =>
    have hdone := pushDone_lt s.threads.producer
    have hwork : work s = 4 - pushDone s.threads.producer + (5 * rest.length + 1) := by
      rw [work, hpc]
    rw [hwork]
    simp only
    split
    · show 5 * rest.length + 1 ≤ _
      omega
    · rename_i hbusy
      show 4 - pushDone (s.threads.pushStep capacity ev).producer + (5 * rest.length + 1) ≤ _
      rcases pushDone_pushStep capacity s.threads ev with hidle | hnext
      · exact absurd hidle hbusy
      · omega

theorem work_alphaStep (s : MarketFeed) : work (s.alphaStep capacity) = work s := by
  have hsame : (s.alphaStep capacity).threads.producer = s.threads.producer :=
    (popStep_offers capacity s.threads).1
  rw [work, work, hsame]
  rfl

/-- Whatever the alpha thread does in between. -/
theorem work_run {ls : List FeedLabel} (h : Quiet ls) (s : MarketFeed) :
    work (run (MarketFeed.step capacity) s ls) ≤ work s - ls.countP isGateway := by
  induction ls generalizing s with
  | nil => exact Nat.le_refl _
  | cons l ls ih =>
    have hrest := ih (fun l' hl' => h l' (List.mem_cons_of_mem _ hl')) (s.step capacity l)
    rw [run_cons]
    cases l with
    | fromApp d => simpa [isGateway, isAlpha] using h (.fromApp d) List.mem_cons_self
    | gateway =>
      have hstep : work (s.step capacity .gateway) ≤ work s - 1 := work_gatewayStep capacity s
      rw [List.countP_cons_of_pos rfl]
      omega
    | alpha =>
      have hstep : work (s.step capacity .alpha) = work s := work_alphaStep capacity s
      rw [List.countP_cons_of_neg (by decide)]
      omega

theorem idle_of_work {s : MarketFeed} (h : work s = 0) : s.pc = .idle := by
  rw [work] at h
  split at h
  · assumption
  · omega
  · omega

/-- An idle FIX thread leaves the queue to the alpha thread. -/
theorem run_idle {ls : List FeedLabel} (h : Quiet ls) {s : MarketFeed} (hidle : s.pc = .idle) :
    run (MarketFeed.step capacity) s ls =
      { s with
        threads := run (SpscThreads.step capacity) s.threads
          (List.replicate (ls.countP isAlpha) .consumer) } := by
  induction ls generalizing s with
  | nil => rfl
  | cons l ls ih =>
    have hrest : Quiet ls := fun l' hl' => h l' (List.mem_cons_of_mem _ hl')
    rw [run_cons]
    cases l with
    | fromApp d => simpa [isGateway, isAlpha] using h (.fromApp d) List.mem_cons_self
    | gateway =>
      have hstep : s.step capacity .gateway = s := by
        rw [MarketFeed.step, gatewayStep, hidle]
      rw [hstep, ih hrest hidle, List.countP_cons_of_neg (by decide)]
    | alpha =>
      rw [ih hrest (s := s.step capacity .alpha) hidle, List.countP_cons_of_pos rfl,
        List.replicate_succ, run_cons]
      rfl

theorem history_popStep_new (s : SpscThreads LOBEvent) :
    ∃ new, (s.popStep capacity).history = s.history ++ new ∧
      ∀ o ∈ new, o = .empty ∨ ∃ x, o = .popped x := by
  rw [popStep]
  cases s.consumer with
  | idle | notEmpty => exact ⟨[], (List.append_nil _).symm, by simp⟩
  | tailRead tail =>
    simp only
    split
    · exact ⟨[.empty], rfl, by simp⟩
    · exact ⟨[], (List.append_nil _).symm, by simp⟩
  | slotRead x tail => exact ⟨[.popped x], rfl, by simp⟩

/-- The consumer on its own only pops. -/
theorem history_consumer (s : SpscThreads LOBEvent) (n : Nat) :
    ∃ new, (run (SpscThreads.step capacity) s (List.replicate n .consumer)).history =
      s.history ++ new ∧ ∀ o ∈ new, o = .empty ∨ ∃ x, o = .popped x := by
  induction n generalizing s with
  | zero => exact ⟨[], (List.append_nil _).symm, by simp⟩
  | succ n ih =>
    obtain ⟨first, hfirst, hpops⟩ := history_popStep_new capacity s
    obtain ⟨rest, hrest, hpops'⟩ := ih (s.popStep capacity)
    refine ⟨first ++ rest, ?_, fun o ho => ?_⟩
    · rw [List.replicate_succ, run_cons]
      show (run (SpscThreads.step capacity) (s.popStep capacity) _).history = _
      rw [hrest, hfirst, List.append_assoc]
    · rcases List.mem_append.mp ho with ho | ho
      · exact hpops o ho
      · exact hpops' o ho

theorem consumerMoves_replicate (n : Nat) :
    consumerMoves (List.replicate n (.consumer : SpscLabel LOBEvent)) = n := by
  rw [consumerMoves, List.countP_replicate]
  exact if_pos rfl

variable {capacity}

/-- Four moves for each item empty the queue. -/
theorem drained_consumer (hcap : ValidCapacity capacity) {s : SpscThreads LOBEvent}
    {items : List LOBEvent} (hsim : Simulates capacity s items) {n : Nat}
    (hn : 4 * items.length ≤ n) :
    let s' := run (SpscThreads.step capacity) s (List.replicate n .consumer)
    pops s'.history = pushes s'.history := by
  intro s'
  obtain ⟨new, hnew, hpops⟩ := history_consumer capacity s n
  have hcalls := (wait_free capacity s (List.replicate n .consumer)).2
  rw [consumerMoves_replicate, calls, calls, hnew, List.countP_append] at hcalls
  have hlen : items.length ≤ new.length := by
    have := List.countP_le_length (p := fun o => popCost o ≠ 0) (l := new)
    omega
  obtain ⟨items', hsim'⟩ : ∃ items', Simulates capacity s' items' :=
    run_invariant (I := fun s => ∃ items, Simulates capacity s items) (fun s l h => by
      obtain ⟨items, h⟩ := h
      cases l with
      | producer item => exact simulates_pushStep hcap h item
      | consumer => exact simulates_popStep hcap h) ⟨items, hsim⟩ _
  have hempty : items' = [] := drained hsim.accepts (hnew ▸ hsim'.accepts) hpops hlen
  rw [accepts_pushes hsim'.accepts, hempty, List.append_nil]

theorem taken_run (capacity : Nat) {ls : List FeedLabel} (h : Quiet ls) (s : MarketFeed) :
    (run (MarketFeed.step capacity) s ls).taken = s.taken := by
  induction ls generalizing s with
  | nil => rfl
  | cons l ls ih =>
    rw [run_cons, ih fun l' hl' => h l' (List.mem_cons_of_mem _ hl')]
    cases l with
    | fromApp d => simpa [isGateway, isAlpha] using h (.fromApp d) List.mem_cons_self
    | gateway => exact (gatewayStep_threads capacity s).1
    | alpha => rfl

theorem atRest_of_popped {s s' : MarketFeed} (hfeeds : Feeds capacity s') (hidle : s'.pc = .idle)
    (htaken : s'.taken = s.taken)
    (hpopped : pops s'.threads.history = pushes s'.threads.history) : AtRest s s' := by
  have hdelivers := hfeeds.delivers
  have hoffered : s'.gateway.logged = offers s'.threads.history := by
    rw [hdelivers.offered, inFlight, hidle]
    exact List.append_nil _
  refine ⟨hidle, ?_, hoffered, hpopped, ?_, fun hnone => ?_⟩
  · rw [← htaken]
    exact hdelivers.settled hidle
  · rw [hoffered, length_offers, hpopped]
  · rw [hoffered, hpopped, pushes_eq_offers hnone]

/-- From any state of the feed: once the messages stop, as many moves of the FIX thread as the
message under way needs, and then four of the alpha thread for each place of the queue, bring
it to rest, whatever other moves are among them. -/
theorem comes_to_rest (hcap : ValidCapacity capacity) (ls : List FeedLabel)
    {finishing draining : List FeedLabel} (hquiet : Quiet (finishing ++ draining))
    (hwork : work (run (MarketFeed.step capacity) {} ls) ≤ finishing.countP isGateway)
    (hdrain : 4 * (capacity - 1) ≤ draining.countP isAlpha) :
    AtRest (run (MarketFeed.step capacity) {} ls)
      (run (MarketFeed.step capacity) {} (ls ++ (finishing ++ draining))) := by
  have hquiet₁ : Quiet finishing := fun l hl => hquiet l (List.mem_append_left _ hl)
  have hquiet₂ : Quiet draining := fun l hl => hquiet l (List.mem_append_right _ hl)
  have hfeeds := feeds_run hcap (ls ++ (finishing ++ draining))
  obtain ⟨items, hsim⟩ := (feeds_run hcap (ls ++ finishing)).queue
  obtain ⟨n, hrep⟩ := hsim.represents
  have hidle : (run (MarketFeed.step capacity) {} (ls ++ finishing)).pc = .idle := by
    apply idle_of_work
    have hle := work_run capacity hquiet₁ (run (MarketFeed.step capacity) {} ls)
    rw [run_append]
    omega
  have hdrained := drained_consumer hcap hsim (n := draining.countP isAlpha)
    (by have := hrep.room; omega)
  have hend := run_idle capacity hquiet₂ hidle
  rw [← List.append_assoc, run_append, hend] at hfeeds ⊢
  refine atRest_of_popped hfeeds hidle ?_ hdrained
  show (run (MarketFeed.step capacity) {} (ls ++ finishing)).taken = _
  rw [run_append, taken_run capacity hquiet₁]

/-- A bid on its way into a queue of one place, the alpha thread polling meanwhile. -/
theorem comes_to_rest_oneBid :
    AtRest (run (MarketFeed.step 2) {} (oneBid.take 2))
      (run (MarketFeed.step 2) {} (oneBid.take 2 ++
        ([.alpha, .gateway, .alpha, .gateway, .gateway, .gateway, .gateway] ++
          List.replicate 4 .alpha))) :=
  comes_to_rest ⟨by decide, by decide⟩ (oneBid.take 2) (by decide) (by decide +kernel)
    (by decide)

end SmartQuant.FeedRest
