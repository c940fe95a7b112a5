import Mathlib.Order.Bounds.Defs
import SmartQuant.Md.Replay

/-!
# The best prices of a book

`best_bid` and `best_ask` are the ends of two ordered maps: the highest bid and the lowest
ask there is, or 0. Two books with corresponding levels have corresponding ends.
-/
namespace SmartQuant.BestPrices

open Std OrderBook Replay

variable {b : OrderBook}

/-- A price has a level where the quantity at it is positive. -/
theorem mem_levels_iff {m : Levels} (h : LevelsPos m) {p : Int} : p ∈ m ↔ 0 < m.getD p 0 := by
  have hnn := getD_nonneg h p
  rw [ExtTreeMap.mem_iff_isSome_getElem?, getElem?_of_getD h]
  split
  · simp
    omega
  · simp
    omega

theorem keys_le (l : Levels) : l.keys.Pairwise (· ≤ ·) :=
  l.ordered_keys.imp fun hlt => (Int.compare_eq_lt.mp hlt).le

theorem bestBid_isGreatest {p : Int} (hp : p ∈ b.bids) : IsGreatest {p | p ∈ b.bids} b.bestBid := by
  have hne : b.bids.keys ≠ [] := List.ne_nil_of_mem (ExtTreeMap.mem_keys.mpr hp)
  rw [bestBid, List.getLast?_eq_getLast_of_ne_nil hne, Option.getD_some]
  constructor
  · exact ExtTreeMap.mem_keys.mp (List.getLast_mem hne)
  · intro p' hp'
    exact (keys_le b.bids).rel_getLast (ExtTreeMap.mem_keys.mpr hp')

theorem bestAsk_isLeast {p : Int} (hp : p ∈ b.asks) : IsLeast {p | p ∈ b.asks} b.bestAsk := by
  have hne : b.asks.keys ≠ [] := List.ne_nil_of_mem (ExtTreeMap.mem_keys.mpr hp)
  rw [bestAsk, List.head?_eq_some_head hne, Option.getD_some]
  constructor
  · exact ExtTreeMap.mem_keys.mp (List.head_mem hne)
  · intro p' hp'
    exact (keys_le b.asks).rel_head (ExtTreeMap.mem_keys.mpr hp')

theorem keys_eq_nil {m : Levels} (h : ∀ p, p ∉ m) : m.keys = [] := by
  rw [List.eq_nil_iff_forall_not_mem]
  exact fun p hp => h p (ExtTreeMap.mem_keys.mp hp)

theorem bestBid_of_none (h : ∀ p, p ∉ b.bids) : b.bestBid = 0 := by
  rw [bestBid, keys_eq_nil h]
  rfl

theorem bestAsk_of_none (h : ∀ p, p ∉ b.asks) : b.bestAsk = 0 := by
  rw [bestAsk, keys_eq_nil h]
  rfl

end SmartQuant.BestPrices
