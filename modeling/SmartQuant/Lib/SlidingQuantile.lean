import Mathlib.Data.List.Sort
import Mathlib.Data.List.TakeWhile

/-!
# Quantiles of a sliding window

A queue that takes in records in the order of their times and lets go of its front
while that is too old holds the records of a window of time, however it is laid out
in columns. A place in the sorted list of its values splits them by rank.
-/
namespace SmartQuant.SlidingQuantile

section Window

variable {α β : Type*} {time : α → ℕ} {span : ℕ} {hist : List α} {x : α}

def InOrder (time : α → ℕ) (hist : List α) : Prop := hist.Pairwise fun a b => time a ≤ time b

/-- The time of the last record, 0 without any. -/
def latest (time : α → ℕ) (hist : List α) : ℕ := (hist.getLast?.map time).getD 0

/-- The records at most `span` older than the last. -/
def recent (time : α → ℕ) (span : ℕ) (hist : List α) : List α :=
  hist.filter fun x => latest time hist ≤ time x + span

theorem latest_concat : latest time (hist ++ [x]) = time x := by
  rw [latest, List.getLast?_append_of_ne_nil _ (List.cons_ne_nil x [])]
  rfl

theorem inOrder_concat :
    InOrder time (hist ++ [x]) ↔ InOrder time hist ∧ ∀ y ∈ hist, time y ≤ time x := by
  unfold InOrder
  rw [List.pairwise_append]
  constructor
  · rintro ⟨hhist, -, hlast⟩
    exact ⟨hhist, fun y hy => hlast y hy x List.mem_cons_self⟩
  · rintro ⟨hhist, hlast⟩
    refine ⟨hhist, List.pairwise_singleton _ _, fun y hy z hz => ?_⟩
    rw [List.mem_singleton.mp hz]
    exact hlast y hy

theorem latest_le (h : ∀ y ∈ hist, time y ≤ time x) : latest time hist ≤ time x := by
  rw [latest]
  cases hlast : hist.getLast? with
  | none => exact Nat.zero_le _
  | some y => exact h y (List.mem_of_getLast? hlast)

theorem dropWhile_eq_filter (h : InOrder time hist) (cutoff : ℕ) :
    hist.dropWhile (fun y => time y < cutoff) = hist.filter fun y => cutoff ≤ time y := by
  induction hist with
  | nil => rfl
  | cons y hist ih =>
    obtain ⟨hy, hrest⟩ := List.pairwise_cons.mp h
    by_cases hold : time y < cutoff
    · rw [List.dropWhile_cons_of_pos (by simpa using hold),
        List.filter_cons_of_neg (by simpa using hold), ih hrest]
    · have hkeep : ∀ z ∈ y :: hist, cutoff ≤ time z := by
        intro z hz
        rcases List.mem_cons.mp hz with rfl | hz
        · omega
        · have := hy z hz
          omega
      rw [List.dropWhile_cons_of_neg (by simpa using hold), eq_comm, List.filter_eq_self]
      simpa using hkeep

/-- Taking in a record and letting go of the front keeps the window. -/
theorem recent_concat (h : InOrder time (hist ++ [x])) :
    (recent time span hist ++ [x]).dropWhile (fun y => time y < time x - span) =
      recent time span (hist ++ [x]) := by
  obtain ⟨hhist, hlast⟩ := inOrder_concat.mp h
  have hlatest := latest_le hlast
  have hkept : InOrder time (recent time span hist ++ [x]) :=
    h.sublist (List.filter_sublist.append_right [x])
  have hold : (recent time span hist).filter (fun y => time x - span ≤ time y) =
      hist.filter fun y => time x ≤ time y + span := by
    rw [recent, List.filter_filter]
    apply List.filter_congr
    intro y hy
    rw [← Bool.decide_and]
    apply decide_eq_decide.mpr
    constructor <;> omega
  rw [dropWhile_eq_filter hkept, List.filter_append, hold, recent, latest_concat,
    List.filter_append]
  congr 1
  rw [List.filter_cons_of_pos (by simp), List.filter_cons_of_pos (by simp)]
  rfl

/-- A column of the queue loses as many entries as the column of the times. -/
theorem drop_length_takeWhile (p : α → Bool) (f : α → β) (xs : List α) :
    (xs.map f).drop (xs.takeWhile p).length = (xs.dropWhile p).map f := by
  have hdrop : xs.drop (xs.takeWhile p).length = xs.dropWhile p := by
    have happend : xs.takeWhile p ++ xs.dropWhile p = xs := List.takeWhile_append_dropWhile
    calc xs.drop (xs.takeWhile p).length
        = (xs.takeWhile p ++ xs.dropWhile p).drop (xs.takeWhile p).length := by rw [happend]
      _ = xs.dropWhile p := List.drop_left
  rw [← List.map_drop, hdrop]

end Window

section Rank

variable {R : Type*} [LinearOrder R] {xs : List R} {i : ℕ}

/-- One of the values, with more than `i` values up to it and no more than the others above. -/
structure IsQuantile (i : ℕ) (xs : List R) (t : R) : Prop where
  mem : t ∈ xs
  below : i + 1 ≤ xs.countP (· ≤ t)
  above : xs.countP (t < ·) ≤ xs.length - 1 - i

theorem isQuantile_getElem (h : xs.Pairwise (· ≤ ·)) (hi : i < xs.length) :
    IsQuantile i xs xs[i] := by
  have hfront : ∀ y ∈ xs.take (i + 1), y ≤ xs[i] := by
    intro y hy
    obtain ⟨j, hj, rfl⟩ := List.getElem_of_mem hy
    rw [List.length_take] at hj
    rw [List.getElem_take]
    rcases Nat.lt_or_eq_of_le (show j ≤ i by omega) with hlt | rfl
    · exact List.pairwise_iff_getElem.mp h j i (by omega) hi hlt
    · exact le_rfl
  refine ⟨List.getElem_mem hi, ?_, ?_⟩
  · have hall : (xs.take (i + 1)).countP (· ≤ xs[i]) = i + 1 := by
      rw [List.countP_eq_length.mpr fun y hy => decide_eq_true (hfront y hy), List.length_take]
      omega
    rw [← hall]
    exact (List.take_sublist (i + 1) xs).countP_le
  · have hnone : (xs.take (i + 1)).countP (xs[i] < ·) = 0 := by
      apply List.countP_eq_zero.mpr
      intro y hy
      simpa using hfront y hy
    have hsplit : xs.countP (xs[i] < ·) =
        (xs.take (i + 1)).countP (xs[i] < ·) + (xs.drop (i + 1)).countP (xs[i] < ·) := by
      rw [← List.countP_append, List.take_append_drop]
    rw [hsplit, hnone, Nat.zero_add]
    refine List.countP_le_length.trans ?_
    rw [List.length_drop]
    omega

/-- Sorting does not change ranks. -/
theorem isQuantile_insertionSort (d : R) (hi : i < xs.length) :
    IsQuantile i xs ((xs.insertionSort (· ≤ ·)).getD i d) := by
  have hperm := List.perm_insertionSort (· ≤ ·) xs
  have hi' : i < (xs.insertionSort (· ≤ ·)).length := by rwa [hperm.length_eq]
  obtain ⟨hmem, hbelow, habove⟩ :=
    isQuantile_getElem (List.pairwise_insertionSort (· ≤ ·) xs) hi'
  rw [List.getD_eq_getElem?_getD, List.getElem?_eq_getElem hi', Option.getD_some]
  rw [hperm.mem_iff] at hmem
  rw [hperm.countP_eq] at hbelow habove
  rw [hperm.length_eq] at habove
  exact ⟨hmem, hbelow, habove⟩

end Rank

end SmartQuant.SlidingQuantile
