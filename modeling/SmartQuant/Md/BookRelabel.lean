import Mathlib.Algebra.Group.Units.Equiv
import SmartQuant.Md.BookMap

/-!
# A book under other labels

A log may name its orders by other ids, count time from another moment, quote prices from
another level and quantities in another unit. The book it builds is the same book under
these labels: its best prices move by the difference in level.
-/
namespace SmartQuant.BookRelabel

open OrderBook BestPrices BookMap

/-- Other labels for a log. -/
structure Relabelling where
  id : Nat → Nat
  delay : Nat
  raise : Int
  scale : Int
  id_injective : Function.Injective id
  scale_pos : 0 < scale

namespace Relabelling

def event (L : Relabelling) (ev : LOBEvent) : LOBEvent :=
  { ev with
    timestampNs := ev.timestampNs + L.delay
    entryId := L.id ev.entryId
    price := ev.price + L.raise
    qty := L.scale * ev.qty }

/-- What the labels mean to a book, which keeps no times. -/
def map (L : Relabelling) : BookMap where
  id := L.id
  side := Equiv.refl _
  price := Equiv.addRight L.raise
  scale := L.scale
  id_injective := L.id_injective
  side_trade := rfl
  scale_pos := L.scale_pos

/-- The same price at both levels, or no price at either. -/
def SamePrice (L : Relabelling) (p p' : Int) : Prop :=
  (p = 0 ∧ p' = 0) ∨ (IsPrice p ∧ IsPrice p' ∧ p' = p + L.raise)

end Relabelling

open Relabelling

variable {L : Relabelling} {b b' : OrderBook}

theorem update_event (L : Relabelling) (b : OrderBook) (ev : LOBEvent) :
    b.update (L.event ev) = b.update (L.map.event ev) := rfl

theorem samePrice_bestBid (h : L.map.SameBook b b') : L.SamePrice b.bestBid b'.bestBid := by
  by_cases hnone : ∀ p, p ∉ b.bids
  · have hnone' : ∀ p, p ∉ b'.bids := fun p hp => hnone _ ((mem_levels_symm h .bid p).mp hp)
    exact Or.inl ⟨bestBid_of_none hnone, bestBid_of_none hnone'⟩
  · push Not at hnone
    obtain ⟨p, hp⟩ := hnone
    have hbest := bestBid_isGreatest hp
    have hraised : b'.bestBid = b.bestBid + L.raise := by
      apply (bestBid_isGreatest ((mem_levels_map h .bid p).mpr hp)).unique
      refine ⟨(mem_levels_map h .bid _).mpr hbest.1, fun p' hp' => ?_⟩
      have hle : p' - L.raise ≤ b.bestBid := hbest.2 ((mem_levels_symm h .bid p').mp hp')
      omega
    obtain ⟨hpos, hpos'⟩ := h.priced .bid _ hbest.1
    exact Or.inr ⟨hpos, hraised ▸ hpos', hraised⟩

theorem samePrice_bestAsk (h : L.map.SameBook b b') : L.SamePrice b.bestAsk b'.bestAsk := by
  by_cases hnone : ∀ p, p ∉ b.asks
  · have hnone' : ∀ p, p ∉ b'.asks := fun p hp => hnone _ ((mem_levels_symm h .offer p).mp hp)
    exact Or.inl ⟨bestAsk_of_none hnone, bestAsk_of_none hnone'⟩
  · push Not at hnone
    obtain ⟨p, hp⟩ := hnone
    have hbest := bestAsk_isLeast hp
    have hraised : b'.bestAsk = b.bestAsk + L.raise := by
      apply (bestAsk_isLeast ((mem_levels_map h .offer p).mpr hp)).unique
      refine ⟨(mem_levels_map h .offer _).mpr hbest.1, fun p' hp' => ?_⟩
      have hle : b.bestAsk ≤ p' - L.raise := hbest.2 ((mem_levels_symm h .offer p').mp hp')
      omega
    obtain ⟨hpos, hpos'⟩ := h.priced .offer _ hbest.1
    exact Or.inr ⟨hpos, hraised ▸ hpos', hraised⟩

end SmartQuant.BookRelabel
