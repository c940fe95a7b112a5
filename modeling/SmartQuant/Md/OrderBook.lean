import SmartQuant.Common.Types
import SmartQuant.Lib.KeyedSum

/-!
# The L3 order book

`OrderBook` keeps two ordered maps from price to aggregated quantity and the
table of live entries by MDEntryID. `update` follows the source's three
branches. The maps are extensional, so two books are equal when they answer
every lookup alike; sums of quantities are not reduced modulo 2^64.
-/
namespace SmartQuant

open Std

structure EntryInfo where
  side : MDEntryType
  price : Int
  qty : Int
  deriving DecidableEq, Repr

abbrev Levels := ExtTreeMap Int Int

structure OrderBook where
  bids : Levels := ∅
  asks : Levels := ∅
  entries : ExtTreeMap Nat EntryInfo := ∅

/-- `book[px] += delta`, removing the level when the sum is not positive. -/
def levelAdd (book : Levels) (px delta : Int) : Levels :=
  let slot := book.getD px 0 + delta
  if slot ≤ 0 then book.erase px else book.insert px slot

namespace OrderBook

/-- `level_add` on the map of the given side; trades have no level. -/
def addLevel (b : OrderBook) (side : MDEntryType) (px delta : Int) : OrderBook :=
  match side with
  | .bid => { b with bids := levelAdd b.bids px delta }
  | .offer => { b with asks := levelAdd b.asks px delta }
  | .trade => b

def store (b : OrderBook) (ev : LOBEvent) : OrderBook :=
  { b with entries := b.entries.insert ev.entryId ⟨ev.side, ev.price, ev.qty⟩ }.addLevel
    ev.side ev.price ev.qty

def withdraw (b : OrderBook) (old : EntryInfo) : OrderBook :=
  b.addLevel old.side old.price (-old.qty)

def forget (b : OrderBook) (id : Nat) : OrderBook := { b with entries := b.entries.erase id }

/-- The book after `OrderBook::update`. -/
def update (b : OrderBook) (ev : LOBEvent) : OrderBook :=
  match ev.action with
  | .new => if ev.qty ≤ 0 then b else b.store ev
  | .change =>
    let b := match b.entries[ev.entryId]? with
      | some old => b.withdraw old
      | none => b
    if 0 < ev.qty then b.store ev else b.forget ev.entryId
  | .delete =>
    match b.entries[ev.entryId]? with
    | some old => (b.withdraw old).forget ev.entryId
    | none => b

/-- 0 if the side is empty, else the last key of the map (`rbegin`). -/
def bestBid (b : OrderBook) : Int := b.bids.keys.getLast?.getD 0

/-- 0 if the side is empty, else the first key of the map (`begin`). -/
def bestAsk (b : OrderBook) : Int := b.asks.keys.head?.getD 0

def spread (b : OrderBook) : Int :=
  if 0 < b.bestBid ∧ 0 < b.bestAsk then b.bestAsk - b.bestBid else 0

def bidQtyAt (b : OrderBook) (p : Int) : Int := b.bids.getD p 0

def askQtyAt (b : OrderBook) (p : Int) : Int := b.asks.getD p 0

def bidDepth (b : OrderBook) : Nat := b.bids.size

def askDepth (b : OrderBook) : Nat := b.asks.size

def lookupEntry (b : OrderBook) (id : Nat) : Option EntryInfo := b.entries[id]?

def clear (_ : OrderBook) : OrderBook := {}

/-- The flag `update` returns: the best bid or the best ask moved. -/
def l1Changed (b : OrderBook) (ev : LOBEvent) : Bool :=
  (b.update ev).bestBid != b.bestBid || (b.update ev).bestAsk != b.bestAsk

/-- The event `update` hands to the trade callback, if any. -/
def tradeNotice (_ : OrderBook) (ev : LOBEvent) : Option LOBEvent :=
  if ev.action = .new ∧ 0 < ev.qty ∧ ev.side = .trade then some ev else none

/-- The event `update` hands to the cancel callback, if any: the deleted entry's own
side, price and quantity. -/
def cancelNotice (b : OrderBook) (ev : LOBEvent) : Option LOBEvent :=
  if ev.action = .delete then
    b.entries[ev.entryId]?.map fun old =>
      { ev with side := old.side, price := old.price, qty := old.qty }
  else none

def levels (b : OrderBook) : MDEntryType → Levels
  | .bid => b.bids
  | .offer => b.asks
  | .trade => ∅

@[simp] theorem levels_bid (b : OrderBook) : b.levels .bid = b.bids := rfl
@[simp] theorem levels_offer (b : OrderBook) : b.levels .offer = b.asks := rfl

@[simp] theorem addLevel_entries (b : OrderBook) (side : MDEntryType) (px d : Int) :
    (b.addLevel side px d).entries = b.entries := by
  cases side <;> rfl

@[simp] theorem store_entries (b : OrderBook) (ev : LOBEvent) :
    (b.store ev).entries = b.entries.insert ev.entryId ⟨ev.side, ev.price, ev.qty⟩ := by
  simp [store]

@[simp] theorem withdraw_entries (b : OrderBook) (old : EntryInfo) :
    (b.withdraw old).entries = b.entries := addLevel_entries _ _ _ _

@[simp] theorem forget_entries (b : OrderBook) (id : Nat) :
    (b.forget id).entries = b.entries.erase id := rfl

@[simp] theorem forget_levels (b : OrderBook) (id : Nat) : (b.forget id).levels = b.levels := by
  funext s
  cases s <;> rfl

theorem store_levels (b : OrderBook) (ev : LOBEvent) :
    (b.store ev).levels = (b.addLevel ev.side ev.price ev.qty).levels := by
  funext s
  unfold store addLevel
  cases ev.side <;> cases s <;> rfl

theorem addLevel_levels (b : OrderBook) (side s : MDEntryType) (px d : Int) :
    (b.addLevel side px d).levels s =
      if side = s ∧ s ≠ .trade then levelAdd (b.levels s) px d else b.levels s := by
  cases side <;> cases s <;> rfl

theorem update_new {b : OrderBook} {ev : LOBEvent} (h : ev.action = .new) :
    b.update ev = if ev.qty ≤ 0 then b else b.store ev := by
  rw [update, h]

theorem update_change {b : OrderBook} {ev : LOBEvent} (h : ev.action = .change) :
    b.update ev = if 0 < ev.qty then (b.entries[ev.entryId]?.elim b b.withdraw).store ev
      else (b.entries[ev.entryId]?.elim b b.withdraw).forget ev.entryId := by
  rw [update, h]
  cases b.entries[ev.entryId]? <;> rfl

theorem update_delete {b : OrderBook} {ev : LOBEvent} (h : ev.action = .delete) :
    b.update ev =
      b.entries[ev.entryId]?.elim b fun old => (b.withdraw old).forget ev.entryId := by
  rw [update, h]
  cases b.entries[ev.entryId]? <;> rfl

/-- All that `update` does to the book is to withdraw, store and forget, in some order: it
withdraws what is live under the id, and stores no Delete. -/
theorem update_preserves {P : OrderBook → Prop} {b : OrderBook} {ev : LOBEvent}
    (hwithdraw : ∀ b old, b.entries[ev.entryId]? = some old → P b → P (b.withdraw old))
    (hstore : ∀ b, ev.action ≠ .delete → 0 < ev.qty → P b → P (b.store ev))
    (hforget : ∀ b, P b → P (b.forget ev.entryId)) (h : P b) : P (b.update ev) := by
  cases hact : ev.action with
  | new =>
    rw [update_new hact]
    split
    · exact h
    · exact hstore b (by simp [hact]) (by omega) h
  | change =>
    have hb : P (b.entries[ev.entryId]?.elim b b.withdraw) := by
      cases hold : b.entries[ev.entryId]? with
      | none => exact h
      | some old => exact hwithdraw b old hold h
    rw [update_change hact]
    split
    · exact hstore _ (by simp [hact]) ‹_› hb
    · exact hforget _ hb
  | delete =>
    rw [update_delete hact]
    cases hold : b.entries[ev.entryId]? with
    | none => exact h
    | some old => exact hforget _ (hwithdraw b old hold h)

end OrderBook

/-- The quantity at a price after `level_add`; a sum that is not positive reads as 0. -/
theorem levelAdd_getD (m : Levels) (px p d : Int) :
    (levelAdd m px d).getD p 0 = if px = p then max 0 (m.getD p 0 + d) else m.getD p 0 := by
  simp only [levelAdd]
  by_cases hp : px = p
  · subst hp
    by_cases hs : m.getD px 0 + d ≤ 0
    · rw [if_pos hs, if_pos rfl, max_eq_left hs]
      simp
    · rw [if_neg hs, if_pos rfl, max_eq_right (by omega)]
      simp
  · rw [if_neg hp]
    split <;> simp [ExtTreeMap.getD_erase, ExtTreeMap.getD_insert, hp]

def LevelsPos (m : Levels) : Prop := ∀ (p : Int) (q : Int), m[p]? = some q → 0 < q

theorem levelsPos_empty : LevelsPos ∅ := by
  intro p q h
  simp at h

theorem levelAdd_pos {m : Levels} (h : LevelsPos m) (px d : Int) :
    LevelsPos (levelAdd m px d) := by
  intro p q hq
  simp only [levelAdd] at hq
  split at hq
  · rw [ExtTreeMap.getElem?_erase] at hq
    split at hq
    · simp at hq
    · exact h p q hq
  · rw [ExtTreeMap.getElem?_insert] at hq
    split at hq
    · have : m.getD px 0 + d = q := Option.some.inj hq
      omega
    · exact h p q hq

/-- Where every level is positive, the map is determined by the quantities it reports. -/
theorem getElem?_of_getD {m : Levels} (h : LevelsPos m) (p : Int) :
    m[p]? = if m.getD p 0 = 0 then none else some (m.getD p 0) := by
  rw [ExtTreeMap.getD_eq_getD_getElem?]
  cases hp : m[p]? with
  | none => simp
  | some q =>
    have hq := h p q hp
    simp only [Option.getD_some]
    rw [if_neg (by omega)]

theorem getD_nonneg {m : Levels} (h : LevelsPos m) (p : Int) : 0 ≤ m.getD p 0 := by
  have hp := getElem?_of_getD h p
  by_contra hneg
  rw [if_neg (by omega)] at hp
  have := h p _ hp
  omega

theorem levels_ext {m n : Levels} (hm : LevelsPos m) (hn : LevelsPos n)
    (h : ∀ p, m.getD p 0 = n.getD p 0) : m = n := by
  ext p q
  rw [getElem?_of_getD hm, getElem?_of_getD hn, h p]

end SmartQuant
