import SmartQuant.Common.MemoryPool
import SmartQuant.Lib.Runs
import SmartQuant.Lib.ThreadedList

/-!
# The pool hands out a slot once

The free list and the pointers outstanding share the slots of the pool between
them: side by side they are a permutation of its slots. An allocation moves the
head of the one to the other, `free` moves it back, and what users write stays in
slots that are not on the free list.
-/
namespace SmartQuant.PoolSlots

open MemoryPool PoolUse ThreadedList Runs

variable {T : Type*} (punned : T → Option ℕ) {N : ℕ}

/-- What `free_count`, `alloc` and `alloc_raw` tell is true of the pointers outstanding. -/
structure Custody [Inhabited T] (N : ℕ) (u : PoolUse T) : Prop where
  distinct : u.outstanding.Nodup
  inside : ∀ s ∈ u.outstanding, s < N
  freeList : ∃ l, Threaded (u.pool.nextOf punned) u.pool.freeHead l ∧ l.Nodup ∧
    ∀ s, s ∈ l ↔ s < N ∧ s ∉ u.outstanding
  freeCount : u.pool.freeCount = N - u.outstanding.length
  alloc : (u.pool.alloc punned).2 = none ↔ u.outstanding.length = N
  allocRaw : (u.pool.allocRaw punned).2 = none ↔ u.outstanding.length = N

/-- The slots are dealt out between the free list `l` and the users. -/
structure Deals (N : ℕ) (u : PoolUse T) (l : List ℕ) : Prop where
  threaded : Threaded (u.pool.nextOf punned) u.pool.freeHead l
  slots : (l ++ u.outstanding).Perm (List.range N)
  count : u.pool.freeCount = l.length

variable {punned}

section Slots

variable {pool : MemoryPool T} {s q : ℕ}

theorem nextOf_update_of_ne {slots : ℕ → Slot T} {content : Slot T} {head : Option ℕ} {count : ℕ}
    (h : q ≠ s) : nextOf punned ⟨Function.update slots s content, head, count⟩ q =
      Slot.readNext punned (slots q) := by
  show Slot.readNext punned (Function.update slots s content q) = _
  rw [Function.update_of_ne h]

theorem nextOf_free : nextOf punned (pool.free (some s)) s = pool.freeHead := by
  show Slot.readNext punned (Function.update pool.slots s (.next pool.freeHead) s) = _
  rw [Function.update_self]
  rfl

theorem allocRaw_of_head (h : pool.freeHead = some s) : pool.allocRaw punned =
    ({ pool with freeHead := pool.nextOf punned s, freeCount := pool.freeCount - 1 }, some s) := by
  rw [allocRaw, h]

theorem alloc_of_head [Inhabited T] (h : pool.freeHead = some s) : pool.alloc punned =
    ({ pool with
        slots := Function.update pool.slots s (.storage default)
        freeHead := pool.nextOf punned s
        freeCount := pool.freeCount - 1 }, some s) := by
  rw [alloc, h]

theorem allocRaw_of_null (h : pool.freeHead = none) : pool.allocRaw punned = (pool, none) := by
  rw [allocRaw, h]

theorem alloc_of_null [Inhabited T] (h : pool.freeHead = none) :
    pool.alloc punned = (pool, none) := by
  rw [alloc, h]

end Slots

section Deals

variable {u : PoolUse T} {l : List ℕ} {s : ℕ}

theorem Deals.nodup (h : Deals punned N u l) : (l ++ u.outstanding).Nodup :=
  h.slots.nodup_iff.mpr List.nodup_range

theorem Deals.not_free (h : Deals punned N u l) (hs : s ∈ u.outstanding) : s ∉ l := by
  intro hl
  exact (List.disjoint_of_nodup_append h.nodup) hl hs

theorem Deals.length (h : Deals punned N u l) : l.length + u.outstanding.length = N := by
  rw [← List.length_append, h.slots.length_eq, List.length_range]

theorem Deals.mem_iff (h : Deals punned N u l) : s ∈ l ↔ s < N ∧ s ∉ u.outstanding := by
  have hmem : s ∈ l ++ u.outstanding ↔ s < N := by
    rw [h.slots.mem_iff, List.mem_range]
  rw [← hmem, List.mem_append]
  constructor
  · intro hl
    exact ⟨Or.inl hl, fun hs => h.not_free hs hl⟩
  · rintro ⟨hl | hs, hnot⟩
    · exact hl
    · exact absurd hs hnot

/-- The free list starts with the slot an allocation takes. -/
theorem Deals.pop (h : Deals punned N u l) (hhead : u.pool.freeHead = some s) :
    ∃ rest, l = s :: rest ∧ Threaded (u.pool.nextOf punned) (u.pool.nextOf punned s) rest ∧
      (rest ++ s :: u.outstanding).Perm (List.range N) ∧
      u.pool.freeCount - 1 = rest.length := by
  obtain ⟨rest, rfl, hrest⟩ := exists_cons_of_threaded (hhead ▸ h.threaded)
  refine ⟨rest, rfl, hrest, List.perm_middle.trans h.slots, ?_⟩
  rw [h.count, List.length_cons, Nat.add_sub_cancel]

variable [Inhabited T]

theorem deals_allocRaw (h : Deals punned N u l) :
    ∃ l', Deals punned N (u.step punned .allocRaw) l' := by
  cases hhead : u.pool.freeHead with
  | none =>
    refine ⟨l, ?_⟩
    rw [step, allocRaw_of_null hhead]
    exact h
  | some s =>
    obtain ⟨rest, -, hrest, hslots, hcount⟩ := h.pop hhead
    refine ⟨rest, ?_⟩
    rw [step, allocRaw_of_head hhead]
    exact ⟨hrest, hslots, hcount⟩

theorem deals_alloc (h : Deals punned N u l) :
    ∃ l', Deals punned N (u.step punned .alloc) l' := by
  cases hhead : u.pool.freeHead with
  | none =>
    refine ⟨l, ?_⟩
    rw [step, alloc_of_null hhead]
    exact h
  | some s =>
    obtain ⟨rest, rfl, hrest, hslots, hcount⟩ := h.pop hhead
    refine ⟨rest, ?_⟩
    rw [step, alloc_of_head hhead]
    -- the new object is in a slot that has left the free list
    refine ⟨hrest.congr fun q hq => nextOf_update_of_ne ?_, hslots, hcount⟩
    rintro rfl
    exact (List.nodup_cons.mp h.threaded.nodup).1 hq

theorem deals_free (h : Deals punned N u l) {p : Option ℕ} (hp : Proper u (.free p)) :
    ∃ l', Deals punned N (u.step punned (.free p)) l' := by
  cases p with
  | none => exact ⟨l, h⟩
  | some s =>
    have hs : s ∈ u.outstanding := hp
    refine ⟨s :: l, ?_, ?_, ?_⟩
    · refine h.threaded.push nextOf_free fun q hq => nextOf_update_of_ne ?_
      rintro rfl
      exact h.not_free hs hq
    · have hback : (s :: u.outstanding.erase s).Perm u.outstanding :=
        (List.perm_cons_erase hs).symm
      exact List.perm_middle.symm.trans ((hback.append_left l).trans h.slots)
    · show u.pool.freeCount + 1 = (s :: l).length
      rw [h.count, List.length_cons]

theorem deals_write (h : Deals punned N u l) {bytes : T} (hs : s ∈ u.outstanding) :
    Deals punned N (u.step punned (.write s bytes)) l := by
  refine ⟨h.threaded.congr fun q hq => nextOf_update_of_ne ?_, h.slots, h.count⟩
  rintro rfl
  exact h.not_free hs hq

theorem deals_step (h : ∃ l, Deals punned N u l) {call : PoolCall T} (hcall : Proper u call) :
    ∃ l, Deals punned N (u.step punned call) l := by
  obtain ⟨l, h⟩ := h
  cases call with
  | alloc => exact deals_alloc h
  | allocRaw => exact deals_allocRaw h
  | free p => exact deals_free h hcall
  | write s bytes => exact ⟨l, deals_write h hcall⟩

end Deals

/-- The rounds of the constructor link the slots they have passed. -/
theorem linked_eq (uninit : ℕ → Slot T) {n i : ℕ} (hi : i < n) :
    linked uninit n i = .next (some (i + 1)) := by
  induction n with
  | zero => omega
  | succ n ih =>
    rw [linked]
    by_cases heq : i = n
    · rw [heq, Function.update_self]
    · rw [Function.update_of_ne heq, ih (by omega)]

theorem deals_fresh (hN : 0 < N) (uninit : ℕ → Slot T) :
    Deals punned N (fresh N uninit) (List.range N) := by
  obtain ⟨n, rfl⟩ : ∃ n, N = n + 1 := ⟨N - 1, by omega⟩
  refine ⟨?_, ?_, ?_⟩
  · rw [List.range_eq_range']
    apply threaded_range'
    · intro i _ hi
      have hne : i ≠ n := by omega
      show Slot.readNext punned (Function.update (linked uninit n) n (.next none) i) = some (i + 1)
      rw [Function.update_of_ne hne, linked_eq uninit (by omega)]
      rfl
    · show Slot.readNext punned (Function.update (linked uninit n) n (.next none) (0 + n)) = none
      rw [Nat.zero_add, Function.update_self]
      rfl
  · show (List.range (n + 1) ++ []).Perm (List.range (n + 1))
    rw [List.append_nil]
  · exact List.length_range.symm

variable [Inhabited T]

theorem custody_of_deals {u : PoolUse T} {l : List ℕ} (h : Deals punned N u l) :
    Custody punned N u := by
  have hlen := h.length
  have hnull : u.pool.freeHead = none ↔ u.outstanding.length = N := by
    constructor
    · intro hhead
      have hthreaded := h.threaded
      rw [hhead] at hthreaded
      rw [eq_nil_of_threaded hthreaded, List.length_nil] at hlen
      omega
    · intro hall
      have hnil : l = [] := List.length_eq_zero_iff.mp (by omega)
      rw [hnil] at h
      exact threaded_nil.mp h.threaded
  refine ⟨h.nodup.of_append_right, ?_, ?_, ?_, ?_, ?_⟩
  · intro s hs
    exact List.mem_range.mp (h.slots.mem_iff.mp (List.mem_append_right l hs))
  · exact ⟨l, h.threaded, h.threaded.nodup, fun s => h.mem_iff⟩
  · rw [h.count]
    omega
  · rw [← hnull]
    cases hhead : u.pool.freeHead with
    | none => rw [alloc_of_null hhead]
    | some s => rw [alloc_of_head hhead]
  · rw [← hnull]
    cases hhead : u.pool.freeHead with
    | none => rw [allocRaw_of_null hhead]
    | some s => rw [allocRaw_of_head hhead]

/-- However a pool is used, no slot is in two hands, and the free list has all the others. -/
theorem custody_run (hN : 0 < N) (uninit : ℕ → Slot T) {calls : List (PoolCall T)}
    (h : Along (step punned) Proper (fresh N uninit) calls) :
    Custody punned N (run (step punned) (fresh N uninit) calls) := by
  have hstep : ∀ (u : PoolUse T) call, (∃ l, Deals punned N u l) → Proper u call →
      ∃ l, Deals punned N (u.step punned call) l := fun _ _ hu hcall => deals_step hu hcall
  have halways := always_of_along hstep ⟨_, deals_fresh hN uninit⟩ h
  obtain ⟨l, hdeals⟩ := always_iff_forall_run.mp halways calls (List.prefix_refl calls)
  exact custody_of_deals hdeals

/-- Two slots, both taken, the written one given back and taken again. -/
theorem custody_run_writtenSlot :
    Custody some 2 (run (step some) (fresh 2 fun _ => .storage 5)
      [.alloc, .write 0 7, .allocRaw, .free (some 0), .free none, .alloc]) :=
  custody_run (by decide) _ (by decide)

end SmartQuant.PoolSlots
