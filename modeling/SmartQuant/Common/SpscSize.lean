import SmartQuant.Common.SpscFifo
import SmartQuant.Common.SpscProgress
import SmartQuant.Lib.Word64

/-!
# What size and empty tell

`size()` and `empty()` load `head_` and then `tail_`, and the queue may move between
the two loads. Only a pop moves `tail_` and only a push moves `head_`, so for the two
threads of the queue the answer is exact: the consumer learns how many items there
were at its first load, the producer how many there are at its second. Any other
thread learns what was pushed before its first load less what was popped before its
second.
-/
namespace SmartQuant.SpscSize

open BoundedFifo SpscThreads SpscFifo SpscProgress Runs

variable {α : Type*} {capacity : Nat}

/-- `size()` by its two loads, in `size_t`. -/
def size (capacity head tail : Nat) : Nat := Word64.sub head tail &&& kMask capacity

/-- `empty()` by its two loads. -/
def empty (head tail : Nat) : Bool := head = tail

def pushed (s : SpscThreads α) : Nat := (pushes s.history).length

def popped (s : SpscThreads α) : Nat := (pops s.history).length

/-- The items pushed and not yet popped. -/
def held (s : SpscThreads α) : Nat := pushed s - popped s

/-- The indices count the pushes and the pops, modulo the capacity. -/
structure Counted (capacity : Nat) (s : SpscThreads α) : Prop where
  head : s.queue.head = pushed s % capacity
  tail : s.queue.tail = popped s % capacity

theorem Counted.congr {s s' : SpscThreads α} (h : Counted capacity s) (hqueue : s'.queue = s.queue)
    (hpush : pushed s' = pushed s) (hpop : popped s' = popped s) : Counted capacity s' := by
  constructor
  · rw [hqueue, hpush]
    exact h.head
  · rw [hqueue, hpop]
    exact h.tail

theorem counted_pushStep {s : SpscThreads α} {items : List α} (hsim : Simulates capacity s items)
    (h : Counted capacity s) (item : α) : Counted capacity (s.pushStep capacity item) ∧
      popped (s.pushStep capacity item) = popped s := by
  have hprod := hsim.producer
  rw [pushStep]
  cases hpc : s.producer with
  | idle => exact ⟨h.congr rfl rfl rfl, rfl⟩
  | headRead item head =>
    simp only
    split
    · have hpop : popped { s with producer := .idle, history := s.history ++ [.full item] } =
          popped s := by simp [popped, pops_concat]
      refine ⟨h.congr rfl ?_ hpop, hpop⟩
      simp [pushed, pushes_concat]
    · exact ⟨h.congr rfl rfl rfl, rfl⟩
  | notFull item head next => exact ⟨⟨h.head, h.tail⟩, rfl⟩
  | slotWritten item next =>
    rw [hpc] at hprod
    obtain ⟨-, rfl, -⟩ := hprod
    refine ⟨⟨?_, ?_⟩, ?_⟩
    · simp [pushed, pushes_concat, h.head]
    · simp [popped, pops_concat, h.tail]
    · simp [popped, pops_concat]

theorem counted_popStep (hcap : ValidCapacity capacity) {s : SpscThreads α} {items : List α}
    (hsim : Simulates capacity s items) (h : Counted capacity s) :
    Counted capacity (s.popStep capacity) ∧ pushed (s.popStep capacity) = pushed s := by
  have hcons := hsim.consumer
  rw [popStep]
  cases hpc : s.consumer with
  | idle => exact ⟨h.congr rfl rfl rfl, rfl⟩
  | tailRead tail =>
    simp only
    split
    · have hpush : pushed { s with consumer := .idle, history := s.history ++ [.empty] } =
          pushed s := by simp [pushed, pushes_concat]
      refine ⟨h.congr rfl hpush ?_, hpush⟩
      simp [popped, pops_concat]
    · exact ⟨h.congr rfl rfl rfl, rfl⟩
  | notEmpty tail => exact ⟨h.congr rfl rfl rfl, rfl⟩
  | slotRead item tail =>
    rw [hpc] at hcons
    obtain ⟨rfl, -⟩ := hcons
    refine ⟨⟨?_, ?_⟩, ?_⟩
    · simp [pushed, pushes_concat, h.head]
    · simp [popped, pops_concat, h.tail, hcap.mask]
    · simp [pushed, pushes_concat]

/-- What every run keeps: a bounded queue is simulated, and the indices count. -/
def Sound (capacity : Nat) (s : SpscThreads α) : Prop :=
  (∃ items, Simulates capacity s items) ∧ Counted capacity s

theorem sound_step (hcap : ValidCapacity capacity) {s : SpscThreads α} (h : Sound capacity s)
    (l : SpscLabel α) : Sound capacity (s.step capacity l) := by
  obtain ⟨⟨items, hsim⟩, hcount⟩ := h
  cases l with
  | producer item =>
    exact ⟨simulates_pushStep hcap hsim item, (counted_pushStep hsim hcount item).1⟩
  | consumer => exact ⟨simulates_popStep hcap hsim, (counted_popStep hcap hsim hcount).1⟩

theorem sound_run (hcap : ValidCapacity capacity) {s : SpscThreads α} (h : Sound capacity s)
    (ls : List (SpscLabel α)) : Sound capacity (run (step capacity) s ls) :=
  run_invariant (I := Sound capacity) (fun _ l h => sound_step hcap h l) h ls

theorem sound_init [Inhabited α] (hcap : ValidCapacity capacity) :
    Sound capacity (init : SpscThreads α) := by
  have hrun := simulates_run (α := α) hcap []
  exact ⟨hrun, (Nat.zero_mod _).symm, (Nat.zero_mod _).symm⟩

theorem popped_of_producer (hcap : ValidCapacity capacity) {s : SpscThreads α}
    (h : Sound capacity s) {mid : List (SpscLabel α)} (hmid : ∀ l ∈ mid, isProducer l = true) :
    popped (run (step capacity) s mid) = popped s := by
  induction mid generalizing s with
  | nil => rfl
  | cons l mid ih =>
    rw [run_cons, ih (sound_step hcap h l) fun l' hl => hmid l' (List.mem_cons_of_mem _ hl)]
    obtain ⟨⟨items, hsim⟩, hcount⟩ := h
    cases l with
    | producer item => exact (counted_pushStep hsim hcount item).2
    | consumer => exact absurd (hmid _ List.mem_cons_self) (by simp [isProducer])

theorem pushed_of_consumer (hcap : ValidCapacity capacity) {s : SpscThreads α}
    (h : Sound capacity s) {mid : List (SpscLabel α)} (hmid : ∀ l ∈ mid, isProducer l = false) :
    pushed (run (step capacity) s mid) = pushed s := by
  induction mid generalizing s with
  | nil => rfl
  | cons l mid ih =>
    rw [run_cons, ih (sound_step hcap h l) fun l' hl => hmid l' (List.mem_cons_of_mem _ hl)]
    obtain ⟨⟨items, hsim⟩, hcount⟩ := h
    cases l with
    | producer item => exact absurd (hmid _ List.mem_cons_self) (by simp [isProducer])
    | consumer => exact (counted_popStep hcap hsim hcount).2

/-- The queue never holds more than `Capacity - 1` items. -/
theorem held_of_sound {s : SpscThreads α} (h : Sound capacity s) :
    popped s ≤ pushed s ∧ held s < capacity := by
  obtain ⟨⟨items, hsim⟩, -⟩ := h
  obtain ⟨n, hrep⟩ := hsim.represents
  have hroom := hrep.room
  have hall : pushed s = popped s + items.length := by
    rw [pushed, popped, accepts_pushes hsim.accepts, List.length_append]
  rw [held]
  omega

theorem dvd_word (hcap : ValidCapacity capacity) (hword : capacity ≤ Word64.size) :
    capacity ∣ Word64.size := by
  have hne : capacity ≠ 0 := by
    have := hcap.two_le
    omega
  obtain ⟨k, rfl⟩ := (Nat.and_sub_one_eq_zero_iff_isPowerOfTwo hne).mp hcap.powerOfTwo
  rw [Word64.size] at hword ⊢
  exact Nat.pow_dvd_pow 2 ((Nat.pow_le_pow_iff_right (by decide)).mp hword)

theorem size_eq_mod (hcap : ValidCapacity capacity) (hword : capacity ≤ Word64.size)
    (p o : Nat) : size capacity (p % capacity) (o % capacity) =
      (p % capacity + (Word64.size - o % capacity)) % capacity := by
  have hpos : 0 < capacity := by
    have := hcap.two_le
    omega
  have ho : o % capacity < Word64.size := (Nat.mod_lt o hpos).trans_le hword
  rw [size, hcap.mask, Word64.sub, Nat.mod_eq_of_lt ho,
    Nat.mod_mod_of_dvd _ (dvd_word hcap hword)]

/-- The masked difference counts, where the numbers are less than a ring apart. -/
theorem size_eq (hcap : ValidCapacity capacity) (hword : capacity ≤ Word64.size) {p o : Nat}
    (hle : o ≤ p) (hlt : p - o < capacity) :
    size capacity (p % capacity) (o % capacity) = p - o := by
  have ho : o % capacity < Word64.size := (Nat.mod_lt o (by omega)).trans_le hword
  have hround : Word64.size ≡ 0 [MOD capacity] :=
    (Nat.modEq_zero_iff_dvd).mpr (dvd_word hcap hword)
  have hmod : p % capacity + (Word64.size - o % capacity) ≡ p - o [MOD capacity] := by
    apply Nat.ModEq.add_right_cancel' (o % capacity)
    calc p % capacity + (Word64.size - o % capacity) + o % capacity
        = p % capacity + Word64.size := by omega
      _ ≡ p + 0 [MOD capacity] := (Nat.mod_modEq p capacity).add hround
      _ = p - o + o := by omega
      _ ≡ p - o + o % capacity [MOD capacity] := (Nat.mod_modEq o capacity).symm.add_left _
  rw [size_eq_mod hcap hword, hmod, Nat.mod_eq_of_lt hlt]

theorem empty_eq {p o : Nat} (hle : o ≤ p) (hlt : p - o < capacity) :
    empty (p % capacity) (o % capacity) = true ↔ p - o = 0 := by
  rw [empty, decide_eq_true_eq]
  constructor
  · intro heq
    have hdvd : capacity ∣ p - o := (Nat.modEq_iff_dvd' hle).mp heq.symm
    exact Nat.eq_zero_of_dvd_of_lt hdvd hlt
  · intro hzero
    rw [show p = o by omega]

/-- Two loads, and the counts they stand for. -/
theorem loads {s₁ s₂ : SpscThreads α} (hcap : ValidCapacity capacity)
    (hword : capacity ≤ Word64.size) (h₁ : Counted capacity s₁) (h₂ : Counted capacity s₂)
    (hle : popped s₂ ≤ pushed s₁) (hlt : pushed s₁ - popped s₂ < capacity) :
    size capacity s₁.queue.head s₂.queue.tail = pushed s₁ - popped s₂ ∧
      (empty s₁.queue.head s₂.queue.tail = true ↔ pushed s₁ - popped s₂ = 0) := by
  rw [h₁.head, h₂.tail]
  exact ⟨size_eq hcap hword hle hlt, empty_eq hle hlt⟩

/-- `size()` and `empty()` answer exactly for both threads of the queue, in any interleaving:
for the consumer at the load of `head_`, for the producer at the load of `tail_`. The size
told to anyone is within the capacity. -/
theorem size_exact [Inhabited α] (hcap : ValidCapacity capacity)
    (hword : capacity ≤ Word64.size) (ls mid : List (SpscLabel α)) :
    let s₁ := run (step capacity) (init : SpscThreads α) ls
    let s₂ := run (step capacity) s₁ mid
    ((∀ l ∈ mid, isProducer l = true) →
      size capacity s₁.queue.head s₂.queue.tail = held s₁ ∧
        (empty s₁.queue.head s₂.queue.tail = true ↔ held s₁ = 0)) ∧
    ((∀ l ∈ mid, isProducer l = false) →
      size capacity s₁.queue.head s₂.queue.tail = held s₂ ∧
        (empty s₁.queue.head s₂.queue.tail = true ↔ held s₂ = 0)) ∧
    size capacity s₁.queue.head s₂.queue.tail ≤ capacity - 1 := by
  intro s₁ s₂
  have hsound₁ : Sound capacity s₁ := sound_run hcap (sound_init hcap) ls
  have hsound₂ : Sound capacity s₂ := sound_run hcap hsound₁ mid
  refine ⟨fun hmid => ?_, fun hmid => ?_, ?_⟩
  · have hpop : popped s₂ = popped s₁ := popped_of_producer hcap hsound₁ hmid
    obtain ⟨hle, hlt⟩ := held_of_sound hsound₁
    rw [held, ← hpop] at hlt ⊢
    exact loads hcap hword hsound₁.2 hsound₂.2 (hpop ▸ hle) hlt
  · have hpush : pushed s₂ = pushed s₁ := pushed_of_consumer hcap hsound₁ hmid
    obtain ⟨hle, hlt⟩ := held_of_sound hsound₂
    rw [held, hpush] at hlt ⊢
    exact loads hcap hword hsound₁.2 hsound₂.2 (hpush ▸ hle) hlt
  · rw [size, hcap.mask]
    have hpos := hcap.two_le
    have := Nat.mod_lt (Word64.sub s₁.queue.head s₂.queue.tail) (show 0 < capacity by omega)
    omega

/-- Four slots: the producer pushes twice while the consumer is between its loads. -/
theorem size_exact_four :
    let s₁ := run (step 4) (init : SpscThreads Nat) (List.replicate 4 (.producer 7))
    let s₂ := run (step 4) s₁ (List.replicate 4 (.producer 8))
    ((∀ l ∈ List.replicate 4 (.producer 8), isProducer l = true) →
      size 4 s₁.queue.head s₂.queue.tail = held s₁ ∧
        (empty s₁.queue.head s₂.queue.tail = true ↔ held s₁ = 0)) ∧
    ((∀ l ∈ List.replicate 4 (.producer 8), isProducer l = false) →
      size 4 s₁.queue.head s₂.queue.tail = held s₂ ∧
        (empty s₁.queue.head s₂.queue.tail = true ↔ held s₂ = 0)) ∧
    size 4 s₁.queue.head s₂.queue.tail ≤ 4 - 1 :=
  size_exact ⟨by decide, by decide⟩ (by decide) _ _

end SmartQuant.SpscSize
