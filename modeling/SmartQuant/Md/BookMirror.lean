import Mathlib.Algebra.Group.Units.Equiv
import Mathlib.Logic.Function.Basic
import SmartQuant.Md.BookMap

/-!
# The mirrored book

In the mirrored market bids are offers and every price is as far below an axis as it was
above. The best bid of the mirrored book is where the best ask was, and the other way round.
-/
namespace SmartQuant.BookMirror

open OrderBook BestPrices BookMap

def mirrorSide : MDEntryType → MDEntryType
  | .bid => .offer
  | .offer => .bid
  | .trade => .trade

theorem mirrorSide_involutive : Function.Involutive mirrorSide := by
  intro s
  cases s <;> rfl

def mirror (axis : Int) : BookMap where
  id := fun id => id
  side := mirrorSide_involutive.toPerm
  price := Equiv.subLeft axis
  scale := 1
  id_injective := Function.injective_id
  side_trade := rfl
  scale_pos := Int.one_pos

/-- Prices on both sides of the axis, or no price at either. -/
def Opposite (axis p p' : Int) : Prop :=
  (p = 0 ∧ p' = 0) ∨ (IsPrice p ∧ IsPrice p' ∧ p' = axis - p)

variable {axis : Int} {b b' : OrderBook}

theorem opposite_bestBid (h : (mirror axis).SameBook b b') :
    Opposite axis b.bestBid b'.bestAsk := by
  by_cases hnone : ∀ p, p ∉ b.bids
  · have hnone' : ∀ p, p ∉ b'.asks := fun p hp => hnone _ ((mem_levels_symm h .bid p).mp hp)
    exact Or.inl ⟨bestBid_of_none hnone, bestAsk_of_none hnone'⟩
  · push Not at hnone
    obtain ⟨p, hp⟩ := hnone
    have hbest := bestBid_isGreatest hp
    have hturned : b'.bestAsk = axis - b.bestBid := by
      apply (bestAsk_isLeast ((mem_levels_map h .bid p).mpr hp)).unique
      refine ⟨(mem_levels_map h .bid _).mpr hbest.1, fun p' hp' => ?_⟩
      have hle : axis - p' ≤ b.bestBid := by
        have hle := hbest.2 ((mem_levels_symm h .bid p').mp hp')
        rwa [mirror, Equiv.subLeft_symm_apply, neg_add_eq_sub] at hle
      omega
    obtain ⟨hpos, hpos'⟩ := h.priced .bid _ hbest.1
    exact Or.inr ⟨hpos, hturned ▸ hpos', hturned⟩

theorem opposite_bestAsk (h : (mirror axis).SameBook b b') :
    Opposite axis b.bestAsk b'.bestBid := by
  by_cases hnone : ∀ p, p ∉ b.asks
  · have hnone' : ∀ p, p ∉ b'.bids := fun p hp => hnone _ ((mem_levels_symm h .offer p).mp hp)
    exact Or.inl ⟨bestAsk_of_none hnone, bestBid_of_none hnone'⟩
  · push Not at hnone
    obtain ⟨p, hp⟩ := hnone
    have hbest := bestAsk_isLeast hp
    have hturned : b'.bestBid = axis - b.bestAsk := by
      apply (bestBid_isGreatest ((mem_levels_map h .offer p).mpr hp)).unique
      refine ⟨(mem_levels_map h .offer _).mpr hbest.1, fun p' hp' => ?_⟩
      have hle : b.bestAsk ≤ axis - p' := by
        have hle := hbest.2 ((mem_levels_symm h .offer p').mp hp')
        rwa [mirror, Equiv.subLeft_symm_apply, neg_add_eq_sub] at hle
      omega
    obtain ⟨hpos, hpos'⟩ := h.priced .offer _ hbest.1
    exact Or.inr ⟨hpos, hturned ▸ hpos', hturned⟩

end SmartQuant.BookMirror
