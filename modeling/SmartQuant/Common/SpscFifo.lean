import Mathlib.Data.Nat.ModEq
import SmartQuant.Common.SpscQueue
import SmartQuant.Lib.Runs

/-!
# The queue is a bounded FIFO

Every interleaving of micro-steps produces a history that a sequential queue for
`Capacity - 1` items accepts. A push takes effect where it publishes `head_`, a
refusal where it reads `tail_`, a pop where it publishes `tail_`, an empty pop where
it reads `head_`. `Represents` ties the masked indices to the list of items held.
-/
namespace SmartQuant.SpscFifo

open BoundedFifo SpscThreads Runs

variable {α : Type*} {capacity : Nat}

/-- The cells hold the list `items`, `n` items having been taken out before. -/
structure Represents (capacity : Nat) (q : SpscQueue α) (n : Nat) (items : List α) : Prop where
  room : items.length < capacity
  head : q.head = (n + items.length) % capacity
  tail : q.tail = n % capacity
  slots : ∀ i (h : i < items.length), q.buf ((n + i) % capacity) = items[i]

/-- What a `push` under way knows. Its view of `tail_` may be stale, but items only leave. -/
def PushKnows (capacity : Nat) (q : SpscQueue α) (items : List α) : PushPc α → Prop
  | .idle => True
  | .headRead _ head => head = q.head
  | .notFull _ head next =>
    head = q.head ∧ next = (q.head + 1) % capacity ∧ items.length + 1 < capacity
  | .slotWritten item next =>
    q.buf q.head = item ∧ next = (q.head + 1) % capacity ∧ items.length + 1 < capacity

/-- What a `pop` under way knows. Its view of `head_` may be stale, but items only arrive. -/
def PopKnows (q : SpscQueue α) (items : List α) : PopPc α → Prop
  | .idle => True
  | .tailRead tail => tail = q.tail
  | .notEmpty tail => tail = q.tail ∧ items ≠ []
  | .slotRead item tail => tail = q.tail ∧ items.head? = some item

/-- The threads carry out a history of a bounded queue that now holds `items`. -/
structure Simulates (capacity : Nat) (s : SpscThreads α) (items : List α) : Prop where
  accepts : Accepts (capacity - 1) s.history items
  represents : ∃ n, Represents capacity s.queue n items
  producer : PushKnows capacity s.queue items s.producer
  consumer : PopKnows s.queue items s.consumer

/-- The capacity of the template: a power of two, and room for one item at least. -/
structure ValidCapacity (capacity : Nat) : Prop where
  powerOfTwo : capacity &&& (capacity - 1) = 0
  two_le : 2 ≤ capacity

theorem ValidCapacity.mask (h : ValidCapacity capacity) (x : Nat) :
    x &&& kMask capacity = x % capacity := by
  have hne : capacity ≠ 0 := by
    have := h.two_le
    omega
  obtain ⟨k, rfl⟩ := (Nat.and_sub_one_eq_zero_iff_isPowerOfTwo hne).mp h.powerOfTwo
  exact Nat.and_two_pow_sub_one_eq_mod x k

/-- Two of `capacity` consecutive positions share a cell only if they are the same. -/
theorem cell_injective {n i j : Nat} (hi : i < capacity) (hj : j < capacity)
    (h : (n + i) % capacity = (n + j) % capacity) : i = j := by
  have hmod : i ≡ j [MOD capacity] := Nat.ModEq.add_left_cancel' n h
  rwa [Nat.ModEq, Nat.mod_eq_of_lt hi, Nat.mod_eq_of_lt hj] at hmod

section Represents

variable {q : SpscQueue α} {n : Nat} {items : List α}

theorem Represents.next (h : Represents capacity q n items) :
    (q.head + 1) % capacity = (n + (items.length + 1)) % capacity := by
  rw [h.head, Nat.mod_add_mod, Nat.add_assoc]

/-- The index after `head_` meets `tail_` exactly when all but one slot hold an item. -/
theorem Represents.full_iff (h : Represents capacity q n items) :
    (q.head + 1) % capacity = q.tail ↔ items.length = capacity - 1 := by
  have hroom := h.room
  rw [h.next, h.tail]
  constructor
  · intro heq
    by_contra hne
    have := cell_injective (n := n) (i := items.length + 1) (j := 0) (by omega) (by omega) heq
    omega
  · intro hlen
    rw [hlen, Nat.sub_add_cancel (by omega), Nat.add_mod_right]

theorem Represents.empty_iff (h : Represents capacity q n items) :
    q.tail = q.head ↔ items = [] := by
  have hroom := h.room
  rw [h.head, h.tail, ← List.length_eq_zero_iff]
  constructor
  · intro heq
    exact (cell_injective (n := n) (i := 0) (by omega) hroom heq).symm
  · intro hlen
    rw [hlen, Nat.add_zero]

/-- The slot at `head_` holds none of the items, so it may be overwritten. -/
theorem Represents.write (h : Represents capacity q n items) (item : α) :
    Represents capacity { q with buf := fun i => if i = q.head then item else q.buf i } n
      items := by
  have hroom := h.room
  refine ⟨h.room, h.head, h.tail, fun i hi => ?_⟩
  simp only
  rw [if_neg, h.slots i hi]
  intro hcell
  rw [h.head] at hcell
  have := cell_injective (by omega) hroom hcell
  omega

theorem Represents.publishHead (h : Represents capacity q n items)
    (hroom : items.length + 1 < capacity) :
    Represents capacity { q with head := (q.head + 1) % capacity } n
      (items ++ [q.buf q.head]) := by
  refine ⟨by simpa using hroom, by simpa using h.next, h.tail, fun i hi => ?_⟩
  rw [List.length_append, List.length_singleton] at hi
  by_cases hold : i < items.length
  · rw [List.getElem_append_left hold]
    exact h.slots i hold
  · have hlast : i = items.length := by omega
    subst hlast
    rw [List.getElem_concat_length rfl, h.head]

theorem Represents.publishTail {x : α} (h : Represents capacity q n (x :: items)) :
    Represents capacity { q with tail := (q.tail + 1) % capacity } (n + 1) items := by
  have hroom := h.room
  have hhead := h.head
  rw [List.length_cons] at hroom hhead
  refine ⟨by omega, ?_, ?_, fun i hi => ?_⟩
  · simp only [hhead]
    rw [Nat.add_assoc, Nat.add_comm 1]
  · simp only [h.tail, Nat.mod_add_mod]
  · have hslot := h.slots (i + 1) (by simpa using hi)
    rw [List.getElem_cons_succ] at hslot
    have hcell : n + 1 + i = n + (i + 1) := by omega
    rw [hcell]
    exact hslot

theorem Represents.oldest (h : Represents capacity q n items) (hne : items ≠ []) :
    items.head? = some (q.buf q.tail) := by
  cases items with
  | nil => exact absurd rfl hne
  | cons x items =>
    have hslot := h.slots 0 (by simp)
    rw [Nat.add_zero, ← h.tail] at hslot
    rw [hslot]
    rfl

end Represents

theorem PopKnows.push {q q' : SpscQueue α} {items : List α} {pc : PopPc α}
    (h : PopKnows q items pc) (htail : q'.tail = q.tail) (x : α) :
    PopKnows q' (items ++ [x]) pc := by
  cases pc with
  | idle => trivial
  | tailRead tail => exact h.trans htail.symm
  | notEmpty tail => exact ⟨h.1.trans htail.symm, by simp⟩
  | slotRead item tail =>
    refine ⟨h.1.trans htail.symm, ?_⟩
    rw [List.head?_append, h.2]
    rfl

theorem PushKnows.pop {q q' : SpscQueue α} {x : α} {items : List α} {pc : PushPc α}
    (h : PushKnows capacity q (x :: items) pc) (hhead : q'.head = q.head) (hbuf : q'.buf = q.buf) :
    PushKnows capacity q' items pc := by
  cases pc with
  | idle => trivial
  | headRead item head => exact h.trans hhead.symm
  | notFull item head next =>
    obtain ⟨h1, h2, h3⟩ := h
    rw [List.length_cons] at h3
    exact ⟨h1.trans hhead.symm, by rw [hhead]; exact h2, by omega⟩
  | slotWritten item next =>
    obtain ⟨h1, h2, h3⟩ := h
    rw [List.length_cons] at h3
    exact ⟨by rw [hhead, hbuf]; exact h1, by rw [hhead]; exact h2, by omega⟩

theorem simulates_pushStep (hcap : ValidCapacity capacity) {s : SpscThreads α} {items : List α}
    (h : Simulates capacity s items) (item : α) :
    ∃ items', Simulates capacity (s.pushStep capacity item) items' := by
  obtain ⟨hacc, ⟨n, hrep⟩, hprod, hcons⟩ := h
  rw [pushStep]
  cases hpc : s.producer with
  | idle => exact ⟨items, hacc, ⟨n, hrep⟩, rfl, hcons⟩
  | headRead item head =>
    rw [hpc] at hprod
    obtain rfl : head = s.queue.head := hprod
    simp only [hcap.mask]
    by_cases hfull : (s.queue.head + 1) % capacity = s.queue.tail
    · rw [if_pos hfull]
      exact ⟨items, .concat hacc (.full item (hrep.full_iff.mp hfull)), ⟨n, hrep⟩, trivial,
        hcons⟩
    · rw [if_neg hfull]
      have hroom := hrep.room
      have hlen : items.length ≠ capacity - 1 := fun hc => hfull (hrep.full_iff.mpr hc)
      exact ⟨items, hacc, ⟨n, hrep⟩, ⟨rfl, rfl, by omega⟩, hcons⟩
  | notFull item head next =>
    rw [hpc] at hprod
    obtain ⟨rfl, hnext, hroom⟩ := hprod
    refine ⟨items, hacc, ⟨n, hrep.write item⟩, ⟨if_pos rfl, hnext, hroom⟩, ?_⟩
    -- the slot being written is not one the consumer may be looking at
    cases hc : s.consumer with
    | idle => trivial
    | tailRead tail => rw [hc] at hcons; exact hcons
    | notEmpty tail => rw [hc] at hcons; exact hcons
    | slotRead item' tail => rw [hc] at hcons; exact hcons
  | slotWritten item next =>
    rw [hpc] at hprod
    obtain ⟨hslot, rfl, hroom⟩ := hprod
    have hpub := hrep.publishHead hroom
    rw [hslot] at hpub
    exact ⟨items ++ [item], .concat hacc (.pushed item (by omega)), ⟨n, hpub⟩, trivial,
      hcons.push rfl item⟩

theorem simulates_popStep (hcap : ValidCapacity capacity) {s : SpscThreads α} {items : List α}
    (h : Simulates capacity s items) :
    ∃ items', Simulates capacity (s.popStep capacity) items' := by
  obtain ⟨hacc, ⟨n, hrep⟩, hprod, hcons⟩ := h
  rw [popStep]
  cases hpc : s.consumer with
  | idle => exact ⟨items, hacc, ⟨n, hrep⟩, hprod, rfl⟩
  | tailRead tail =>
    rw [hpc] at hcons
    obtain rfl : tail = s.queue.tail := hcons
    simp only
    by_cases hempty : s.queue.tail = s.queue.head
    · rw [if_pos hempty]
      obtain rfl := hrep.empty_iff.mp hempty
      exact ⟨[], .concat hacc .empty, ⟨n, hrep⟩, hprod, trivial⟩
    · rw [if_neg hempty]
      exact ⟨items, hacc, ⟨n, hrep⟩, hprod, rfl, fun hc => hempty (hrep.empty_iff.mpr hc)⟩
  | notEmpty tail =>
    rw [hpc] at hcons
    obtain ⟨rfl, hne⟩ := hcons
    exact ⟨items, hacc, ⟨n, hrep⟩, hprod, rfl, hrep.oldest hne⟩
  | slotRead item tail =>
    rw [hpc] at hcons
    obtain ⟨rfl, hitem⟩ := hcons
    simp only [hcap.mask]
    cases items with
    | nil => cases hitem
    | cons x items =>
      obtain rfl := Option.some.inj hitem
      exact ⟨items, .concat hacc (.popped x), ⟨n + 1, hrep.publishTail⟩, hprod.pop rfl rfl, trivial⟩

theorem simulates_run [Inhabited α] (hcap : ValidCapacity capacity)
    (ls : List (SpscLabel α)) :
    ∃ items, Simulates capacity (run (step capacity) init ls) items := by
  have hinit : ∃ items, Simulates capacity (init : SpscThreads α) items := by
    refine ⟨[], .nil, ⟨0, ?_, ?_, ?_, fun i hi => absurd hi (Nat.not_lt_zero i)⟩, trivial, trivial⟩
    · have := hcap.two_le
      simp only [List.length_nil]
      omega
    · exact (Nat.zero_mod _).symm
    · exact (Nat.zero_mod _).symm
  refine run_invariant (I := fun s => ∃ items, Simulates capacity s items) ?_ hinit ls
  intro s l hsim
  obtain ⟨items, h⟩ := hsim
  cases l with
  | producer item => exact simulates_pushStep hcap h item
  | consumer => exact simulates_popStep hcap h

/-- For every capacity the template admits, every item sequence and every interleaving: what
was popped is a prefix of what was pushed, a refused push found `Capacity - 1` items not yet
popped when it read `tail_`, and an empty pop found none when it read `head_`. -/
theorem bounded_fifo [Inhabited α] (hcap : ValidCapacity capacity) (ls : List (SpscLabel α)) :
    let history := (run (step capacity) (init : SpscThreads α) ls).history
    pops history <+: pushes history ∧
      (∀ pre item, pre ++ [.full item] <+: history →
        (pushes pre).length = (pops pre).length + (capacity - 1)) ∧
      (∀ pre, pre ++ [.empty] <+: history → (pushes pre).length = (pops pre).length) := by
  obtain ⟨items, h⟩ := simulates_run (α := α) hcap ls
  exact ⟨pops_isPrefix h.accepts, fun pre item => length_of_full h.accepts,
    fun pre => length_of_empty h.accepts⟩

/-- Two slots: a push succeeds, the next is refused, the item is popped. -/
theorem bounded_fifo_two :
    let history := (run (step 2) (init : SpscThreads Nat)
      (List.replicate 4 (.producer 7) ++ List.replicate 2 (.producer 8) ++
        List.replicate 4 .consumer)).history
    pops history <+: pushes history ∧
      (∀ pre item, pre ++ [.full item] <+: history →
        (pushes pre).length = (pops pre).length + (2 - 1)) ∧
      (∀ pre, pre ++ [.empty] <+: history → (pushes pre).length = (pops pre).length) :=
  bounded_fifo ⟨by decide, by decide⟩ _

end SmartQuant.SpscFifo
