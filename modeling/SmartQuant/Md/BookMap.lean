import Mathlib.Logic.Equiv.Defs
import SmartQuant.Md.BestPrices

/-!
# A book seen through a map

Rename ids and sides, map prices one to one, scale quantities: the book of the mapped events
is the mapped book, level by level and entry by entry.
-/
namespace SmartQuant

open Std OrderBook BestPrices Replay Runs

structure BookMap where
  id : Nat → Nat
  side : MDEntryType ≃ MDEntryType
  price : Int ≃ Int
  scale : Int
  id_injective : Function.Injective id
  side_trade : side .trade = .trade
  scale_pos : 0 < scale

namespace BookMap

def event (M : BookMap) (ev : LOBEvent) : LOBEvent :=
  { ev with
    entryId := M.id ev.entryId
    side := M.side ev.side
    price := M.price ev.price
    qty := M.scale * ev.qty }

def info (M : BookMap) (e : EntryInfo) : EntryInfo :=
  { side := M.side e.side, price := M.price e.price, qty := M.scale * e.qty }

/-- A positive price that can be added to another in `int64_t`. -/
def IsPrice (p : Int) : Prop := 0 < p ∧ p < 2 ^ 62

/-- A price before and after the map. -/
def Prices (M : BookMap) (p : Int) : Prop := IsPrice p ∧ IsPrice (M.price p)

/-- The event is quoted at a price, unless it is a Delete, which goes by its id. -/
def Quoted (M : BookMap) (ev : LOBEvent) : Prop := ev.action ≠ .delete → M.Prices ev.price

instance (p : Int) : Decidable (IsPrice p) := inferInstanceAs (Decidable (_ ∧ _))

instance (M : BookMap) (p : Int) : Decidable (M.Prices p) := inferInstanceAs (Decidable (_ ∧ _))

instance (M : BookMap) (ev : LOBEvent) : Decidable (M.Quoted ev) :=
  inferInstanceAs (Decidable (_ → _))

/-- The second book is the first, mapped. -/
structure SameBook (M : BookMap) (b b' : OrderBook) : Prop where
  entries : ∀ id : Nat, b'.entries[M.id id]? = b.entries[id]?.map M.info
  levels : ∀ s p, (b'.levels (M.side s)).getD (M.price p) 0 = M.scale * (b.levels s).getD p 0
  pos : BookPos b
  pos' : BookPos b'
  priced : ∀ s, ∀ p ∈ b.levels s, M.Prices p
  entryPriced : ∀ (id : Nat) (e : EntryInfo), b.entries[id]? = some e → M.Prices e.price

variable {M : BookMap} {b b' : OrderBook}

theorem side_eq_trade_iff (M : BookMap) (s : MDEntryType) : M.side s = .trade ↔ s = .trade := by
  rw [← M.side_trade, M.side.apply_eq_iff_eq, M.side_trade]

theorem levels_empty (s : MDEntryType) : ({} : OrderBook).levels s = ∅ := by
  cases s <;> rfl

theorem sameBook_empty (M : BookMap) : M.SameBook {} {} where
  entries id := by simp
  levels s p := by
    rw [levels_empty, levels_empty]
    simp
  pos := bookPos_empty
  pos' := bookPos_empty
  priced s p hp := by
    rw [levels_empty] at hp
    simp at hp
  entryPriced id e he := by simp at he

/-- `level_add` at corresponding prices, with corresponding amounts. -/
theorem sameBook_addLevel (h : M.SameBook b b') (side : MDEntryType) {px : Int}
    (hpx : M.Prices px) (d : Int) :
    M.SameBook (b.addLevel side px d) (b'.addLevel (M.side side) (M.price px) (M.scale * d)) where
  entries := by
    rw [addLevel_entries, addLevel_entries]
    exact h.entries
  levels s p := by
    rw [addLevel_levels, addLevel_levels]
    simp only [M.side.apply_eq_iff_eq, ne_eq, side_eq_trade_iff]
    split
    · rw [levelAdd_getD, levelAdd_getD, h.levels s p]
      simp only [M.price.apply_eq_iff_eq]
      split
      · rw [← mul_add]
        rcases le_total 0 ((b.levels s).getD p 0 + d) with hle | hle
        · rw [max_eq_right hle, max_eq_right (mul_nonneg M.scale_pos.le hle)]
        · rw [max_eq_left hle, mul_zero,
            max_eq_left (mul_nonpos_of_nonneg_of_nonpos M.scale_pos.le hle)]
      · rfl
    · exact h.levels s p
  pos := bookPos_addLevel h.pos side px d
  pos' := bookPos_addLevel h.pos' (M.side side) _ _
  priced s p hp := by
    have hnew := bookPos_addLevel h.pos side px d s
    rw [mem_levels_iff hnew, addLevel_levels] at hp
    split at hp
    · rw [levelAdd_getD] at hp
      by_cases hpp : px = p
      · rwa [← hpp]
      · rw [if_neg hpp] at hp
        exact h.priced s p ((mem_levels_iff (h.pos s)).mpr hp)
    · exact h.priced s p ((mem_levels_iff (h.pos s)).mpr hp)
  entryPriced := by
    rw [addLevel_entries]
    exact h.entryPriced

theorem sameBook_withdraw (h : M.SameBook b b') {old : EntryInfo} (hold : M.Prices old.price) :
    M.SameBook (b.withdraw old) (b'.withdraw (M.info old)) := by
  have hadd := sameBook_addLevel h old.side hold (-old.qty)
  rw [mul_neg] at hadd
  exact hadd

theorem sameBook_forget (h : M.SameBook b b') (id : Nat) :
    M.SameBook (b.forget id) (b'.forget (M.id id)) where
  entries id' := by
    rw [forget_entries, forget_entries, ExtTreeMap.getElem?_erase, ExtTreeMap.getElem?_erase]
    by_cases hid : id = id'
    · subst hid
      simp
    · have hid' : M.id id ≠ M.id id' := fun hc => hid (M.id_injective hc)
      rw [if_neg (by simpa using hid'), if_neg (by simpa using hid), h.entries id']
  levels := by
    rw [forget_levels, forget_levels]
    exact h.levels
  pos := bookPos_forget h.pos id
  pos' := bookPos_forget h.pos' (M.id id)
  priced := by
    rw [forget_levels]
    exact h.priced
  entryPriced id' e he := by
    rw [forget_entries, ExtTreeMap.getElem?_erase] at he
    split at he
    · cases he
    · exact h.entryPriced id' e he

theorem sameBook_insert (h : M.SameBook b b') (id : Nat) {e : EntryInfo}
    (he : M.Prices e.price) :
    M.SameBook { b with entries := b.entries.insert id e }
      { b' with entries := b'.entries.insert (M.id id) (M.info e) } where
  entries id' := by
    rw [ExtTreeMap.getElem?_insert, ExtTreeMap.getElem?_insert]
    by_cases hid : id = id'
    · subst hid
      simp
    · have hid' : M.id id ≠ M.id id' := fun hc => hid (M.id_injective hc)
      rw [if_neg (by simpa using hid'), if_neg (by simpa using hid), h.entries id']
  levels s := by
    have hl := h.levels s
    cases s <;> exact hl
  pos s := by
    have hl := h.pos s
    cases s <;> exact hl
  pos' s := by
    have hl := h.pos' s
    cases s <;> exact hl
  priced s := by
    have hl := h.priced s
    cases s <;> exact hl
  entryPriced id' e' he' := by
    rw [ExtTreeMap.getElem?_insert] at he'
    split at he'
    · rw [← Option.some.inj he']
      exact he
    · exact h.entryPriced id' e' he'

theorem sameBook_store (h : M.SameBook b b') {ev : LOBEvent} (hev : M.Prices ev.price) :
    M.SameBook (b.store ev) (b'.store (M.event ev)) :=
  sameBook_addLevel (sameBook_insert h ev.entryId (e := ⟨ev.side, ev.price, ev.qty⟩) hev) ev.side
    hev ev.qty

/-- What is live under an id is withdrawn from both books. -/
theorem sameBook_elim_withdraw (h : M.SameBook b b') (id : Nat) :
    M.SameBook (b.entries[id]?.elim b b.withdraw)
      (b'.entries[M.id id]?.elim b' b'.withdraw) := by
  rw [h.entries id]
  cases hold : b.entries[id]? with
  | none => exact h
  | some old => exact sameBook_withdraw h (h.entryPriced id old hold)

/-- An event builds the same book under the labels. -/
theorem sameBook_update (h : M.SameBook b b') {ev : LOBEvent} (hev : M.Quoted ev) :
    M.SameBook (b.update ev) (b'.update (M.event ev)) := by
  have hsign : 0 < (M.event ev).qty ↔ 0 < ev.qty := mul_pos_iff_of_pos_left M.scale_pos
  cases hact : ev.action with
  | new =>
    have hprice := hev (by simp [hact])
    rw [update_new hact, update_new (by exact hact)]
    by_cases hqty : ev.qty ≤ 0
    · have hle : (M.event ev).qty ≤ 0 := by
        rw [← Int.not_lt, hsign, Int.not_lt]
        exact hqty
      rw [if_pos hqty, if_pos hle]
      exact h
    · have hpos : ¬ (M.event ev).qty ≤ 0 := by
        rw [Int.not_le, hsign, ← Int.not_le]
        exact hqty
      rw [if_neg hqty, if_neg hpos]
      exact sameBook_store h hprice
  | change =>
    have hprice := hev (by simp [hact])
    have hrest := sameBook_elim_withdraw h ev.entryId
    rw [update_change hact, update_change (by exact hact)]
    by_cases hqty : 0 < ev.qty
    · rw [if_pos hqty, if_pos (hsign.mpr hqty)]
      exact sameBook_store hrest hprice
    · rw [if_neg hqty, if_neg fun hc => hqty (hsign.mp hc)]
      exact sameBook_forget hrest ev.entryId
  | delete =>
    rw [update_delete hact, update_delete (by exact hact)]
    show M.SameBook _ (b'.entries[M.id ev.entryId]?.elim b' _)
    rw [h.entries ev.entryId]
    cases hold : b.entries[ev.entryId]? with
    | none => exact h
    | some old =>
      exact sameBook_forget (sameBook_withdraw h (h.entryPriced _ old hold)) ev.entryId

theorem mem_levels_map (h : M.SameBook b b') (s : MDEntryType) (p : Int) :
    M.price p ∈ b'.levels (M.side s) ↔ p ∈ b.levels s := by
  rw [mem_levels_iff (h.pos' (M.side s)), mem_levels_iff (h.pos s), h.levels s p,
    mul_pos_iff_of_pos_left M.scale_pos]

theorem mem_levels_symm (h : M.SameBook b b') (s : MDEntryType) (p : Int) :
    p ∈ b'.levels (M.side s) ↔ M.price.symm p ∈ b.levels s := by
  rw [← mem_levels_map h, Equiv.apply_symm_apply]

end BookMap
end SmartQuant
