import Mathlib.Data.Nat.ModEq
import Mathlib.Logic.Function.Basic
import Mathlib.Data.List.GetD

/-!
# A stream in a ring of cells

A ring of `size` cells carries the end of an ever growing stream: position `p` of
the stream lives in cell `p % size`. `Holds` says that the cells carry the last
`size` positions. Writing at the end of the stream keeps it, and reading any
stretch it covers gives that stretch of the stream.
-/
namespace SmartQuant.RingStream

variable {β : Type*}

/-- Copy a list into the cells from `off` on (`memcpy`). -/
def blit (mem : ℕ → β) (off : ℕ) (src : List β) : ℕ → β := fun i =>
  if off ≤ i then src.getD (i - off) (mem i) else mem i

def slice (mem : ℕ → β) (off n : ℕ) : List β := (List.range n).map fun j => mem (off + j)

/-- Copy a list into the ring from cell `off` on, around the end if need be. -/
def ringWrite (size : ℕ) (mem : ℕ → β) (off : ℕ) (src : List β) : (ℕ → β) × ℕ :=
  let avail := size - off
  if src.length ≤ avail then (blit mem off src, off + src.length)
  else (blit (blit mem off (src.take avail)) 0 (src.drop avail), src.length - avail)

def ringRead (size : ℕ) (mem : ℕ → β) (pos n : ℕ) : List β :=
  let off := pos % size
  let avail := size - off
  if n ≤ avail then slice mem off n else slice mem off avail ++ slice mem 0 (n - avail)

/-- The cells carry the last `size` positions of the stream. -/
def Holds (size : ℕ) (mem : ℕ → β) (s : List β) : Prop :=
  ∀ p, (h : p < s.length) → s.length ≤ p + size → mem (p % size) = s[p]

theorem blit_of_lt {mem : ℕ → β} {off i : ℕ} {src : List β} (h : i < off) :
    blit mem off src i = mem i := if_neg (by omega)

theorem blit_of_ge {mem : ℕ → β} {off i : ℕ} {src : List β} (h : off + src.length ≤ i) :
    blit mem off src i = mem i := by
  rw [blit, if_pos (by omega), List.getD_eq_default _ _ (by omega)]

theorem blit_add {mem : ℕ → β} {off j : ℕ} {src : List β} (h : j < src.length) :
    blit mem off src (off + j) = src[j] := by
  rw [blit, if_pos (by omega), Nat.add_sub_cancel_left, List.getD_eq_getElem _ _ h]

theorem mod_of_le {size off j : ℕ} (h : off + j < 2 * size) :
    (off + j) % size = if off + j < size then off + j else off + j - size := by
  split
  · exact Nat.mod_eq_of_lt ‹_›
  · rw [Nat.mod_eq_sub_mod (by omega), Nat.mod_eq_of_lt (by omega)]

section Write

variable {size : ℕ} {mem : ℕ → β} {off : ℕ} {src : List β}

theorem ringWrite_of_fit (h : src.length ≤ size - off) :
    ringWrite size mem off src = (blit mem off src, off + src.length) := if_pos h

theorem ringWrite_of_wrap (h : ¬ src.length ≤ size - off) :
    ringWrite size mem off src =
      (blit (blit mem off (src.take (size - off))) 0 (src.drop (size - off)),
        src.length - (size - off)) := if_neg h

theorem ringWrite_at (hoff : off ≤ size) (hlen : src.length ≤ size) {j : ℕ}
    (hj : j < src.length) : (ringWrite size mem off src).1 ((off + j) % size) = src[j] := by
  by_cases hfit : src.length ≤ size - off
  · rw [ringWrite_of_fit hfit, Nat.mod_eq_of_lt (by omega)]
    exact blit_add hj
  · rw [ringWrite_of_wrap hfit, mod_of_le (by omega)]
    by_cases hlow : off + j < size
    · simp only [if_pos hlow]
      rw [blit_of_ge (by simp; omega), blit_add (by simp; omega), List.getElem_take]
    · have hcell : off + j - size = 0 + (j - (size - off)) := by omega
      simp only [if_neg hlow, hcell]
      rw [blit_add (by simp; omega), List.getElem_drop]
      congr 1
      omega

theorem ringWrite_frame (hoff : off ≤ size) (hlen : src.length ≤ size) {i : ℕ}
    (hi : i < size) (h : ∀ j < src.length, i ≠ (off + j) % size) :
    (ringWrite size mem off src).1 i = mem i := by
  by_cases hfit : src.length ≤ size - off
  · rw [ringWrite_of_fit hfit]
    by_cases hlow : i < off
    · exact blit_of_lt hlow
    · apply blit_of_ge
      by_contra hc
      have := h (i - off) (by omega)
      rw [Nat.mod_eq_of_lt (by omega)] at this
      omega
  · have hlow : src.length - (size - off) ≤ i := by
      by_contra hc
      have := h (size - off + i) (by omega)
      rw [mod_of_le (by omega), if_neg (by omega)] at this
      omega
    have hhigh : i < off := by
      by_contra hc
      have := h (i - off) (by omega)
      rw [mod_of_le (by omega), if_pos (by omega)] at this
      omega
    rw [ringWrite_of_wrap hfit]
    simp only
    rw [blit_of_ge (by simp; omega), blit_of_lt hhigh]

theorem ringWrite_off_le (hoff : off ≤ size) (hlen : src.length ≤ size) :
    (ringWrite size mem off src).2 ≤ size := by
  by_cases hfit : src.length ≤ size - off
  · rw [ringWrite_of_fit hfit]
    simp only
    omega
  · rw [ringWrite_of_wrap hfit]
    simp only
    omega

theorem ringWrite_off_mod (hoff : off ≤ size) :
    (ringWrite size mem off src).2 % size = (off + src.length) % size := by
  by_cases hfit : src.length ≤ size - off
  · rw [ringWrite_of_fit hfit]
  · have hturn : off + src.length = src.length - (size - off) + size := by omega
    rw [ringWrite_of_wrap hfit, hturn, Nat.add_mod_right]

/-- Writing at the end of the stream: the ring carries the longer stream. -/
theorem holds_ringWrite {s : List β} (hoff : off ≤ size) (hlen : src.length ≤ size)
    (hend : off % size = s.length % size) (h : Holds size mem s) :
    Holds size (ringWrite size mem off src).1 (s ++ src) := by
  intro p hp hlast
  rw [List.length_append] at hp hlast
  by_cases hold : p < s.length
  · rw [List.getElem_append_left hold, ← h p hold (by omega)]
    apply ringWrite_frame hoff hlen (Nat.mod_lt p (by omega))
    intro j hj hc
    -- a cell written now would be one full turn or more away from `p`
    have hmod : p ≡ s.length + j [MOD size] :=
      hc.trans (Nat.ModEq.add_right j hend)
    have hdvd : size ∣ s.length + j - p := (Nat.modEq_iff_dvd' (by omega)).mp hmod
    have hle := Nat.le_of_dvd (by omega) hdvd
    omega
  · rw [List.getElem_append_right (by omega)]
    have hcell : p % size = (off + (p - s.length)) % size := by
      have hmod : off + (p - s.length) ≡ s.length + (p - s.length) [MOD size] :=
        Nat.ModEq.add_right _ hend
      rw [hmod, Nat.add_sub_cancel' (by omega)]
    rw [hcell]
    exact ringWrite_at hoff hlen _

end Write

/-- A read of at most one turn visits the cells of consecutive stream positions. -/
theorem ringRead_eq {size : ℕ} (hsize : 0 < size) (mem : ℕ → β) (pos : ℕ) {n : ℕ}
    (hn : n ≤ size) :
    ringRead size mem pos n = (List.range n).map fun j => mem ((pos + j) % size) := by
  have hoff := Nat.mod_lt pos hsize
  have hcell : ∀ j, (pos + j) % size = (pos % size + j) % size := fun j =>
    (Nat.mod_add_mod pos size j).symm
  unfold ringRead
  simp only
  split
  · apply List.map_congr_left
    intro j hj
    have hj := List.mem_range.mp hj
    rw [hcell, mod_of_le (by omega), if_pos (by omega)]
  · have hn' : n = (size - pos % size) + (n - (size - pos % size)) := by omega
    conv_rhs => rw [hn', List.range_add, List.map_append, List.map_map]
    congr 1
    · apply List.map_congr_left
      intro j hj
      have hj := List.mem_range.mp hj
      rw [hcell, mod_of_le (by omega), if_pos (by omega)]
    · apply List.map_congr_left
      intro j hj
      have hj := List.mem_range.mp hj
      simp only [Function.comp_apply]
      rw [hcell, mod_of_le (by omega), if_neg (by omega)]
      congr 1
      omega

theorem length_ringRead (size : ℕ) (mem : ℕ → β) (pos n : ℕ) :
    (ringRead size mem pos n).length = n := by
  unfold ringRead
  simp only
  split
  · rw [slice, List.length_map, List.length_range]
  · simp only [slice, List.length_append, List.length_map, List.length_range]
    omega

/-- The cells from `off` on have got the list, around the end if need be, and no other cell
has changed. -/
structure Wrote (size : ℕ) (mem : ℕ → β) (off : ℕ) (src : List β) (mem' : ℕ → β) : Prop where
  cells : ∀ j, (hj : j < src.length) → mem' ((off + j) % size) = src[j]
  frame : ∀ i, (∀ j < src.length, i ≠ (off + j) % size) → mem' i = mem i

section Wrote

variable {size : ℕ} {mem mem' mem'' : ℕ → β} {off : ℕ} {src src' : List β}

theorem wrote_ringWrite (hoff : off ≤ size) (hlen : src.length ≤ size) :
    Wrote size mem off src (ringWrite size mem off src).1 where
  cells j hj := ringWrite_at hoff hlen hj
  frame i hi := by
    by_cases hin : i < size
    · exact ringWrite_frame hoff hlen hin hi
    · by_cases hfit : src.length ≤ size - off
      · rw [ringWrite_of_fit hfit]
        exact blit_of_ge (by omega)
      · rw [ringWrite_of_wrap hfit]
        simp only
        rw [blit_of_ge (by simp; omega), blit_of_ge (by simp; omega)]

theorem Wrote.unique (h : Wrote size mem off src mem') (h' : Wrote size mem off src mem'') :
    mem' = mem'' := by
  funext i
  by_cases hi : ∃ j < src.length, i = (off + j) % size
  · obtain ⟨j, hj, rfl⟩ := hi
    rw [h.cells j hj, h'.cells j hj]
  · have hframe : ∀ j < src.length, i ≠ (off + j) % size := fun j hj hc => hi ⟨j, hj, hc⟩
    rw [h.frame i hframe, h'.frame i hframe]

theorem Wrote.of_mod_eq {off' : ℕ} (h : Wrote size mem off src mem')
    (hoff : off % size = off' % size) : Wrote size mem off' src mem' := by
  have hcell : ∀ j, (off' + j) % size = (off + j) % size := fun j =>
    (Nat.ModEq.add_right j hoff).symm
  refine ⟨fun j hj => ?_, fun i hi => h.frame i fun j hj => ?_⟩
  · rw [hcell]
    exact h.cells j hj
  · rw [← hcell]
    exact hi j hj

/-- Two writes of at most one turn, the second behind the first, are one. -/
theorem Wrote.append (h : Wrote size mem off src mem')
    (h' : Wrote size mem' (off + src.length) src' mem'')
    (hlen : src.length + src'.length ≤ size) : Wrote size mem off (src ++ src') mem'' := by
  refine ⟨fun j hj => ?_, fun i hi => ?_⟩
  · rw [List.length_append] at hj
    by_cases hfirst : j < src.length
    · rw [List.getElem_append_left hfirst, ← h.cells j hfirst]
      apply h'.frame _
      intro k hk hc
      -- less than one turn lies between the two cells
      have hdvd : size ∣ off + src.length + k - (off + j) :=
        (Nat.modEq_iff_dvd' (by omega)).mp hc
      have hle := Nat.le_of_dvd (by omega) hdvd
      omega
    · rw [List.getElem_append_right (by omega), ← h'.cells (j - src.length) (by omega)]
      congr 2
      omega
  · rw [List.length_append] at hi
    rw [h'.frame i fun k hk => ?_, h.frame i fun j hj => hi j (by omega)]
    have hne := hi (src.length + k) (by omega)
    rwa [← Nat.add_assoc] at hne

end Wrote

/-- The cells of `n` items from cell `off` on, around the end once if need be. -/
def ringCells (size off n : ℕ) : List ℕ :=
  let avail := size - off
  if n ≤ avail then List.range' off n else List.range' off avail ++ List.range' 0 (n - avail)

/-- The cell behind `n` items. -/
def ringOff (size off n : ℕ) : ℕ :=
  let avail := size - off
  if n ≤ avail then off + n else n - avail

/-- Store a list into cells, one after the other. -/
def storeAt (mem : ℕ → β) : List ℕ → List β → ℕ → β
  | i :: cells, b :: src => storeAt (Function.update mem i b) cells src
  | _, _ => mem

section Cells

variable {size off n limit : ℕ} {mem : ℕ → β} {cells cells' : List ℕ} {src src' : List β}

@[simp] theorem length_ringCells : (ringCells size off n).length = n := by
  unfold ringCells
  simp only
  split
  · exact List.length_range'
  · rw [List.length_append, List.length_range', List.length_range']
    omega

theorem storeAt_append (h : cells.length = src.length) :
    storeAt mem (cells ++ cells') (src ++ src') = storeAt (storeAt mem cells src) cells' src' := by
  induction cells generalizing mem src with
  | nil =>
    rw [List.eq_nil_of_length_eq_zero h.symm]
    rfl
  | cons i cells ih =>
    cases src with
    | nil => cases h
    | cons b src => exact ih (Nat.succ.inj h)

theorem storeAt_of_not_mem {i : ℕ} (h : i ∉ cells) : storeAt mem cells src i = mem i := by
  induction cells generalizing mem src with
  | nil => rfl
  | cons c cells ih =>
    obtain ⟨hne, hrest⟩ := List.ne_and_not_mem_of_not_mem_cons h
    cases src with
    | nil => rfl
    | cons b src => rw [storeAt, ih hrest, Function.update_of_ne hne]

theorem blit_cons (b : β) :
    blit mem off (b :: src) = blit (Function.update mem off b) (off + 1) src := by
  funext i
  rcases Nat.lt_trichotomy i off with hlt | rfl | hgt
  · rw [blit_of_lt hlt, blit_of_lt (by omega), Function.update_of_ne (by omega)]
  · rw [blit_of_lt (Nat.lt_succ_self i), Function.update_self, blit, if_pos le_rfl, Nat.sub_self]
    rfl
  · obtain ⟨j, rfl⟩ : ∃ j, i = off + 1 + j := ⟨i - (off + 1), by omega⟩
    rw [blit, blit, if_pos (by omega), if_pos (by omega), Function.update_of_ne (by omega)]
    rw [show off + 1 + j - off = j + 1 by omega, Nat.add_sub_cancel_left, List.getD_cons_succ]

/-- `memcpy` stores to consecutive cells. -/
theorem blit_eq_storeAt : blit mem off src = storeAt mem (List.range' off src.length) src := by
  induction src generalizing mem off with
  | nil =>
    funext i
    by_cases hi : off ≤ i
    · exact blit_of_ge hi
    · exact blit_of_lt (by omega)
  | cons b src ih => rw [blit_cons, ih, List.length_cons, List.range'_succ, storeAt]

theorem ringWrite_eq_storeAt : ringWrite size mem off src =
    (storeAt mem (ringCells size off src.length) src, ringOff size off src.length) := by
  by_cases hfit : src.length ≤ size - off
  · rw [ringWrite_of_fit hfit, ringCells, ringOff, if_pos hfit, if_pos hfit, blit_eq_storeAt]
  · have hlen : (List.range' off (size - off)).length = (src.take (size - off)).length := by
      rw [List.length_range', List.length_take]
      omega
    have hsplit : storeAt mem (List.range' off (size - off) ++
        List.range' 0 (src.length - (size - off))) src =
        storeAt (storeAt mem (List.range' off (size - off)) (src.take (size - off)))
          (List.range' 0 (src.length - (size - off))) (src.drop (size - off)) := by
      rw [← storeAt_append hlen, List.take_append_drop]
    rw [ringWrite_of_wrap hfit, ringCells, ringOff, if_neg hfit, if_neg hfit, hsplit,
      blit_eq_storeAt, blit_eq_storeAt, List.length_drop, List.length_take,
      Nat.min_eq_left (by omega)]

theorem slice_eq_map : slice mem off n = (List.range' off n).map mem := by
  rw [slice, List.range'_eq_map_range, List.map_map]
  rfl

/-- A read gets the contents of its cells. -/
theorem ringRead_eq_map (pos : ℕ) :
    ringRead size mem pos n = (ringCells size (pos % size) n).map mem := by
  unfold ringRead ringCells
  simp only
  split
  · exact slice_eq_map
  · rw [List.map_append, slice_eq_map, slice_eq_map]

theorem forall_range'_lt : (∀ i ∈ List.range' off n, i < limit) ↔ n = 0 ∨ off + n ≤ limit := by
  constructor
  · intro h
    by_cases hn : n = 0
    · exact Or.inl hn
    · have hlast := h (off + (n - 1)) (List.mem_range'_1.mpr ⟨by omega, by omega⟩)
      omega
  · intro h i hi
    have hi := List.mem_range'_1.mp hi
    omega

end Cells

/-- Reading a stretch that the ring carries gives that stretch of the stream. -/
theorem ringRead_of_holds {size : ℕ} {mem : ℕ → β} {s : List β} (hsize : 0 < size)
    (h : Holds size mem s) {pos n : ℕ} (hfirst : s.length ≤ pos + size)
    (hlast : pos + n ≤ s.length) : ringRead size mem pos n = (s.drop pos).take n := by
  rw [ringRead_eq hsize mem pos (by omega)]
  apply List.ext_getElem
  · simp
    omega
  · intro j hj _
    simp only [List.length_map, List.length_range] at hj
    rw [List.getElem_map, List.getElem_range, List.getElem_take, List.getElem_drop]
    exact h (pos + j) (by omega) (by omega)

end SmartQuant.RingStream
