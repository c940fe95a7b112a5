import Mathlib.Algebra.Ring.Nat
import SmartQuant.Common.SpscQueue
import SmartQuant.Lib.Runs

/-!
# Wait-freedom of the queue

A call is over after a fixed number of its own micro-steps, whatever the other
thread does in between: two where it finds the queue full or empty, four where it
moves an item. `spent` prices the finished calls of a thread and adds what the call
under way has taken so far; each micro-step of the thread adds one to it, and the
micro-steps of the other thread leave it alone.
-/
namespace SmartQuant.SpscProgress

open SpscThreads Runs

variable {α : Type*}

def pushCost : QueueOutcome α → Nat
  | .pushed _ => 4
  | .full _ => 2
  | .popped _ | .empty => 0

def popCost : QueueOutcome α → Nat
  | .popped _ => 4
  | .empty => 2
  | .pushed _ | .full _ => 0

/-- The micro-steps a `push` under way has made. -/
def pushDone : PushPc α → Nat
  | .idle => 0
  | .headRead _ _ => 1
  | .notFull _ _ _ => 2
  | .slotWritten _ _ => 3

def popDone : PopPc α → Nat
  | .idle => 0
  | .tailRead _ => 1
  | .notEmpty _ => 2
  | .slotRead _ _ => 3

def pushSpent (s : SpscThreads α) : Nat := (s.history.map pushCost).sum + pushDone s.producer

def popSpent (s : SpscThreads α) : Nat := (s.history.map popCost).sum + popDone s.consumer

/-- The finished calls that cost something. -/
def calls (cost : QueueOutcome α → Nat) (s : SpscThreads α) : Nat :=
  s.history.countP fun o => cost o ≠ 0

def isProducer : SpscLabel α → Bool
  | .producer _ => true
  | .consumer => false

def producerMoves (ls : List (SpscLabel α)) : Nat := ls.countP isProducer

def consumerMoves (ls : List (SpscLabel α)) : Nat := ls.countP fun l => !isProducer l

theorem pushDone_lt (pc : PushPc α) : pushDone pc < 4 := by
  cases pc <;> simp [pushDone]

theorem popDone_lt (pc : PopPc α) : popDone pc < 4 := by
  cases pc <;> simp [popDone]

theorem pushCost_le (o : QueueOutcome α) : pushCost o ≤ 4 := by
  cases o <;> simp [pushCost]

theorem popCost_le (o : QueueOutcome α) : popCost o ≤ 4 := by
  cases o <;> simp [popCost]

variable (capacity : Nat)

theorem spent_pushStep (s : SpscThreads α) (item : α) :
    pushSpent (s.pushStep capacity item) = pushSpent s + 1 ∧
      popSpent (s.pushStep capacity item) = popSpent s := by
  unfold pushSpent popSpent pushStep
  cases hpc : s.producer with
  | idle => exact ⟨rfl, rfl⟩
  | headRead item head =>
    simp only
    split
    · simp [pushCost, popCost, pushDone]
    · exact ⟨rfl, rfl⟩
  | notFull item head next => exact ⟨rfl, rfl⟩
  | slotWritten item next => simp [pushCost, popCost, pushDone]

theorem spent_popStep (s : SpscThreads α) :
    popSpent (s.popStep capacity) = popSpent s + 1 ∧
      pushSpent (s.popStep capacity) = pushSpent s := by
  unfold pushSpent popSpent popStep
  cases hpc : s.consumer with
  | idle => exact ⟨rfl, rfl⟩
  | tailRead tail =>
    simp only
    split
    · simp [pushCost, popCost, popDone]
    · exact ⟨rfl, rfl⟩
  | notEmpty tail => exact ⟨rfl, rfl⟩
  | slotRead item tail => simp [pushCost, popCost, popDone]

/-- The account of a thread grows by its own micro-steps. -/
theorem spent_run (s : SpscThreads α) (ls : List (SpscLabel α)) :
    pushSpent (run (step capacity) s ls) = pushSpent s + producerMoves ls ∧
      popSpent (run (step capacity) s ls) = popSpent s + consumerMoves ls := by
  induction ls generalizing s with
  | nil => exact ⟨rfl, rfl⟩
  | cons l ls ih =>
    obtain ⟨hpush, hpop⟩ := ih (s.step capacity l)
    rw [run_cons, hpush, hpop, producerMoves, consumerMoves, producerMoves, consumerMoves,
      List.countP_cons, List.countP_cons]
    cases l with
    | producer item =>
      obtain ⟨hown, hother⟩ := spent_pushStep capacity s item
      rw [step, hown, hother]
      constructor
      · rw [isProducer, if_pos rfl]
        omega
      · rw [isProducer, if_neg (by decide)]
        omega
    | consumer =>
      obtain ⟨hown, hother⟩ := spent_popStep capacity s
      rw [step, hown, hother]
      constructor
      · rw [isProducer, if_neg (by decide)]
        omega
      · rw [isProducer, if_pos (by decide)]
        omega

theorem history_pushStep (s : SpscThreads α) (item : α) :
    s.history <+: (s.pushStep capacity item).history := by
  unfold pushStep
  cases s.producer with
  | idle | notFull => exact List.prefix_refl _
  | headRead item head =>
    simp only
    split
    · exact List.prefix_append _ _
    · exact List.prefix_refl _
  | slotWritten => exact List.prefix_append _ _

theorem history_popStep (s : SpscThreads α) :
    s.history <+: (s.popStep capacity).history := by
  unfold popStep
  cases s.consumer with
  | idle | notEmpty => exact List.prefix_refl _
  | tailRead tail =>
    simp only
    split
    · exact List.prefix_append _ _
    · exact List.prefix_refl _
  | slotRead => exact List.prefix_append _ _

/-- What finished stays finished. -/
theorem history_run (s : SpscThreads α) (ls : List (SpscLabel α)) :
    s.history <+: (run (step capacity) s ls).history := by
  induction ls generalizing s with
  | nil => exact List.prefix_refl _
  | cons l ls ih =>
    refine List.IsPrefix.trans ?_ (ih (s.step capacity l))
    cases l with
    | producer item => exact history_pushStep capacity s item
    | consumer => exact history_popStep capacity s

/-- Calls are at most `4` micro-steps long each. -/
theorem sum_cost_le {cost : QueueOutcome α → Nat} (hcost : ∀ o, cost o ≤ 4)
    (h : List (QueueOutcome α)) : (h.map cost).sum ≤ 4 * h.countP fun o => cost o ≠ 0 := by
  induction h with
  | nil => exact le_rfl
  | cons o h ih =>
    have ho := hcost o
    rw [List.map_cons, List.sum_cons, List.countP_cons]
    by_cases hz : cost o = 0
    · rw [if_neg (by simpa using hz), hz]
      omega
    · rw [if_pos (by simpa using hz)]
      omega

theorem calls_of_moves {cost : QueueOutcome α → Nat} (hcost : ∀ o, cost o ≤ 4)
    {s s' : SpscThreads α} (hpre : s.history <+: s'.history) {done done' moves : Nat}
    (hdone : done' < 4) (h : (s'.history.map cost).sum + done' =
      (s.history.map cost).sum + done + moves) : calls cost s + moves / 4 ≤ calls cost s' := by
  obtain ⟨new, hnew⟩ := hpre
  have hle := sum_cost_le hcost new
  rw [← hnew, List.map_append, List.sum_append] at h
  rw [calls, calls, ← hnew, List.countP_append]
  omega

/-- From any state and under any interleaving, a thread finishes a call with every fourth of
its own micro-steps at the latest. -/
theorem wait_free (s : SpscThreads α) (ls : List (SpscLabel α)) :
    calls pushCost s + producerMoves ls / 4 ≤ calls pushCost (run (step capacity) s ls) ∧
      calls popCost s + consumerMoves ls / 4 ≤ calls popCost (run (step capacity) s ls) := by
  obtain ⟨hpush, hpop⟩ := spent_run capacity s ls
  have hpre := history_run capacity s ls
  exact ⟨calls_of_moves pushCost_le hpre (pushDone_lt _) hpush,
    calls_of_moves popCost_le hpre (popDone_lt _) hpop⟩

end SmartQuant.SpscProgress
