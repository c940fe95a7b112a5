import Mathlib.Data.Finset.Card
import SmartQuant.Lib.Runs
import SmartQuant.Md.OrderBook

/-!
# Levels against live entries

The book keeps each quantity twice: in its entry and in the sum of its level.
`Agrees` says that the two tables tell the same story. Change and Delete take the
old quantity out of its level before they rewrite the entry; New does not look
whether the id is live. The runs that stay in agreement are therefore exactly
those in which no New overwrites a live Bid or Offer.
-/
namespace SmartQuant.BookInvariant

open Std OrderBook KeyedSum Runs

/-- The part of one entry in the quantity of one side at one price. -/
def share (side : MDEntryType) (p : Int) (e : EntryInfo) : Int :=
  if e.side = side ∧ e.price = p then e.qty else 0

/-- The sum of the quantities of the live entries of one side at one price. -/
def liveQty (b : OrderBook) (side : MDEntryType) (p : Int) : Int := total b.entries (share side p)

def livePrices (b : OrderBook) (side : MDEntryType) : Finset Int :=
  (((b.entries.toList.map Prod.snd).filter fun e => e.side = side).map EntryInfo.price).toFinset

/-- Levels and entries tell the same quantities and depths. -/
structure Agrees (b : OrderBook) : Prop where
  bidQty : ∀ p, b.bidQtyAt p = liveQty b .bid p
  askQty : ∀ p, b.askQtyAt p = liveQty b .offer p
  bidPos : LevelsPos b.bids
  askPos : LevelsPos b.asks
  bidDepth : b.bidDepth = (livePrices b .bid).card
  askDepth : b.askDepth = (livePrices b .offer).card

/-- What a user of the book may do with it. -/
inductive BookOp where
  | update (ev : LOBEvent)
  | clear

def bookStep (b : OrderBook) : BookOp → OrderBook
  | .update ev => b.update ev
  | .clear => b.clear

/-- A New with a quantity does not carry the id of a live Bid or Offer. -/
def NoLiveOverwrite (b : OrderBook) : BookOp → Prop
  | .update ev => ev.action = .new → 0 < ev.qty →
      ∀ old, b.entries[ev.entryId]? = some old → old.side = .trade
  | .clear => True

def EntriesPos (b : OrderBook) : Prop :=
  ∀ (id : Nat) (e : EntryInfo), b.entries[id]? = some e → 0 < e.qty

/-- The levels are positive and sum the live entries other than `id`. -/
def TracksBut (b : OrderBook) (id : Nat) : Prop :=
  ∀ s, s ≠ .trade → LevelsPos (b.levels s) ∧
    ∀ p, (b.levels s).getD p 0 = liveQty (b.forget id) s p

def Tracks (b : OrderBook) : Prop :=
  ∀ s, s ≠ .trade → LevelsPos (b.levels s) ∧ ∀ p, (b.levels s).getD p 0 = liveQty b s p

theorem entriesPos_empty : EntriesPos {} := by
  intro id e he
  simp at he

theorem entriesPos_withdraw {b : OrderBook} (h : EntriesPos b) (old : EntryInfo) :
    EntriesPos (b.withdraw old) := by
  intro id e he
  rw [withdraw_entries] at he
  exact h id e he

theorem entriesPos_store {b : OrderBook} (h : EntriesPos b) {ev : LOBEvent} (hq : 0 < ev.qty) :
    EntriesPos (b.store ev) := by
  intro id e he
  rw [store_entries, ExtTreeMap.getElem?_insert] at he
  split at he
  · obtain rfl := Option.some.inj he
    exact hq
  · exact h id e he

theorem entriesPos_forget {b : OrderBook} (h : EntriesPos b) (id : Nat) :
    EntriesPos (b.forget id) := by
  intro a e he
  rw [forget_entries, ExtTreeMap.getElem?_erase] at he
  split at he
  · simp at he
  · exact h a e he

theorem entriesPos_update {b : OrderBook} (h : EntriesPos b) (ev : LOBEvent) :
    EntriesPos (b.update ev) := by
  apply update_preserves _ _ _ h
  · intro b old _ hb
    exact entriesPos_withdraw hb old
  · intro b _ hq hb
    exact entriesPos_store hb hq
  · intro b hb
    exact entriesPos_forget hb ev.entryId

theorem entriesPos_step {b : OrderBook} (op : BookOp) (h : EntriesPos b) :
    EntriesPos (bookStep b op) := by
  cases op with
  | update ev => exact entriesPos_update h ev
  | clear => exact entriesPos_empty

theorem share_nonneg {e : EntryInfo} (he : 0 < e.qty) (s : MDEntryType) (p : Int) :
    0 ≤ share s p e := by
  rw [share]
  split <;> omega

theorem liveQty_nonneg {b : OrderBook} (h : EntriesPos b) (s : MDEntryType) (p : Int) :
    0 ≤ liveQty b s p := by
  apply List.sum_nonneg
  intro x hx
  obtain ⟨⟨id, e⟩, he, rfl⟩ := List.mem_map.mp hx
  exact share_nonneg (h id e (ExtTreeMap.mem_toList_iff_getElem?_eq_some.mp he)) s p

theorem liveQty_forget (b : OrderBook) (id : Nat) (s : MDEntryType) (p : Int) :
    (b.entries[id]?.elim 0 (share s p)) + liveQty (b.forget id) s p = liveQty b s p :=
  total_erase_add b.entries id (share s p)

theorem liveQty_store (b : OrderBook) (ev : LOBEvent) (s : MDEntryType) (p : Int) :
    liveQty (b.store ev) s p =
      share s p ⟨ev.side, ev.price, ev.qty⟩ + liveQty (b.forget ev.entryId) s p := by
  unfold liveQty
  rw [store_entries, total_insert, forget_entries]

theorem liveQty_withdraw (b : OrderBook) (old : EntryInfo) (id : Nat) :
    liveQty ((b.withdraw old).forget id) = liveQty (b.forget id) := by
  funext s p
  unfold liveQty
  rw [forget_entries, forget_entries, withdraw_entries]

theorem tracksBut_of_tracks {b : OrderBook} (h : Tracks b) {id : Nat}
    (hid : ∀ old, b.entries[id]? = some old → old.side = .trade) : TracksBut b id := by
  intro s hs
  refine ⟨(h s hs).1, fun p => ?_⟩
  rw [(h s hs).2 p, ← liveQty_forget b id s p]
  cases he : b.entries[id]? with
  | none => simp
  | some old =>
    have hside : old.side ≠ s := fun hc => hs (hc.symm.trans (hid old he))
    simp [share, hside]

/-- Withdrawing the entry of `id` leaves the levels with the sums of the others. -/
theorem tracksBut_withdraw {b : OrderBook} (h : Tracks b) (hpos : EntriesPos b) {id : Nat}
    {old : EntryInfo} (hid : b.entries[id]? = some old) : TracksBut (b.withdraw old) id := by
  intro s hs
  have hlive := fun p => liveQty_forget b id s p
  simp only [hid, Option.elim_some] at hlive
  rw [liveQty_withdraw]
  rw [withdraw, addLevel_levels]
  by_cases hside : old.side = s
  · rw [if_pos ⟨hside, hs⟩]
    refine ⟨levelAdd_pos (h s hs).1 _ _, fun p => ?_⟩
    rw [levelAdd_getD, (h s hs).2, ← hlive p]
    have hnn := liveQty_nonneg (entriesPos_forget hpos id) s p
    by_cases hp : old.price = p
    · simp only [share, hside, hp, and_self, if_true]
      rw [max_eq_right (by omega)]
      omega
    · simp [share, hp]
  · rw [if_neg (fun hc => hside hc.1)]
    refine ⟨(h s hs).1, fun p => ?_⟩
    rw [(h s hs).2, ← hlive p]
    simp [share, hside]

theorem tracks_store {b : OrderBook} {ev : LOBEvent} (h : TracksBut b ev.entryId)
    (hpos : EntriesPos b) (hq : 0 < ev.qty) : Tracks (b.store ev) := by
  intro s hs
  rw [store_levels, addLevel_levels]
  by_cases hside : ev.side = s
  · rw [if_pos ⟨hside, hs⟩]
    refine ⟨levelAdd_pos (h s hs).1 _ _, fun p => ?_⟩
    rw [levelAdd_getD, liveQty_store, (h s hs).2]
    have hnn := liveQty_nonneg (entriesPos_forget hpos ev.entryId) s p
    by_cases hp : ev.price = p
    · simp only [share, hside, hp, and_self, if_true]
      rw [max_eq_right (by omega)]
      omega
    · simp [share, hp]
  · rw [if_neg (fun hc => hside hc.1)]
    refine ⟨(h s hs).1, fun p => ?_⟩
    rw [(h s hs).2, liveQty_store]
    simp [share, hside]

theorem tracks_forget {b : OrderBook} {id : Nat} (h : TracksBut b id) : Tracks (b.forget id) := by
  intro s hs
  rw [forget_levels]
  exact h s hs

/-- A New on a live Bid or Offer leaves its old quantity behind in the level. -/
theorem not_tracks_store {b : OrderBook} (h : Tracks b) (hpos : EntriesPos b) {ev : LOBEvent}
    (hq : 0 < ev.qty) {old : EntryInfo} (hid : b.entries[ev.entryId]? = some old)
    (hside : old.side ≠ .trade) : ¬ Tracks (b.store ev) := by
  intro hc
  have hnew := (hc old.side hside).2 old.price
  have hold := (h old.side hside).2 old.price
  have hlive := liveQty_forget b ev.entryId old.side old.price
  have hnn := liveQty_nonneg hpos old.side old.price
  have hoq := hpos _ _ hid
  simp only [hid, Option.elim_some, share, and_self, if_true] at hlive
  rw [liveQty_store, store_levels, addLevel_levels] at hnew
  by_cases hs : ev.side = old.side
  · rw [if_pos ⟨hs, hside⟩, levelAdd_getD, hold] at hnew
    by_cases hp : ev.price = old.price
    · simp only [share, hs, hp, and_self, if_true] at hnew
      rw [max_eq_right (by omega)] at hnew
      omega
    · simp only [share, hs, hp, and_false, if_false] at hnew
      omega
  · rw [if_neg (fun hx => hs hx.1), hold] at hnew
    simp only [share, hs, false_and, if_false] at hnew
    omega

theorem tracks_empty : Tracks {} := by
  intro s hs
  cases s <;> exact ⟨levelsPos_empty, fun p => by simp [levels, liveQty]⟩

theorem tracks_step_iff {b : OrderBook} (op : BookOp) (hpos : EntriesPos b) (h : Tracks b) :
    Tracks (bookStep b op) ↔ NoLiveOverwrite b op := by
  cases op with
  | clear => exact iff_of_true tracks_empty trivial
  | update ev =>
    show Tracks (b.update ev) ↔ NoLiveOverwrite b (.update ev)
    cases hact : ev.action with
    | new =>
      rw [update_new hact]
      by_cases hq : ev.qty ≤ 0
      · rw [if_pos hq]
        exact ⟨fun _ _ hq' => absurd hq' (by omega), fun _ => h⟩
      · rw [if_neg hq]
        constructor
        · intro ht _ hq' old hid
          by_contra hside
          exact not_tracks_store h hpos hq' hid hside ht
        · intro hn
          have hq' : 0 < ev.qty := by omega
          exact tracks_store (tracksBut_of_tracks h (hn hact hq')) hpos hq'
    | change =>
      rw [update_change hact]
      refine iff_of_true ?_ (fun hc => by simp [hact] at hc)
      cases hid : b.entries[ev.entryId]? with
      | none =>
        have hbut : TracksBut b ev.entryId := tracksBut_of_tracks h (by simp [hid])
        split
        · exact tracks_store hbut hpos ‹_›
        · exact tracks_forget hbut
      | some old =>
        have hbut := tracksBut_withdraw h hpos hid
        split
        · exact tracks_store hbut (entriesPos_withdraw hpos old) ‹_›
        · exact tracks_forget hbut
    | delete =>
      rw [update_delete hact]
      refine iff_of_true ?_ (fun hc => by simp [hact] at hc)
      cases hid : b.entries[ev.entryId]? with
      | none => exact h
      | some old => exact tracks_forget (tracksBut_withdraw h hpos hid)

theorem mem_livePrices {b : OrderBook} {s : MDEntryType} {p : Int} :
    p ∈ livePrices b s ↔
      ∃ (id : Nat) (e : EntryInfo), b.entries[id]? = some e ∧ e.side = s ∧ e.price = p := by
  simp only [livePrices, List.mem_toFinset, List.mem_map, List.mem_filter, decide_eq_true_eq]
  constructor
  · rintro ⟨e, ⟨⟨⟨id, e'⟩, hmem, rfl⟩, hside⟩, hprice⟩
    exact ⟨id, e', ExtTreeMap.mem_toList_iff_getElem?_eq_some.mp hmem, hside, hprice⟩
  · intro hlive
    obtain ⟨id, e, hid, hside, hprice⟩ := hlive
    exact ⟨e, ⟨⟨(id, e), ExtTreeMap.mem_toList_iff_getElem?_eq_some.mpr hid, rfl⟩, hside⟩, hprice⟩

theorem liveQty_pos_iff {b : OrderBook} (hpos : EntriesPos b) {s : MDEntryType} {p : Int} :
    0 < liveQty b s p ↔ p ∈ livePrices b s := by
  rw [mem_livePrices]
  constructor
  · intro h
    by_contra hc
    push Not at hc
    have hz : liveQty b s p = 0 := by
      apply total_eq_zero
      intro id e he
      rw [share, if_neg]
      intro hshare
      obtain ⟨hside, hprice⟩ := hshare
      exact hc id e he hside hprice
    omega
  · intro hlive
    obtain ⟨id, e, he, hside, hprice⟩ := hlive
    have hle := le_total (f := share s p)
      (fun k v hv => share_nonneg (hpos k v hv) s p) he
    have hq := hpos id e he
    simp only [share, hside, hprice, and_self, if_true] at hle
    rw [liveQty]
    omega

theorem depth_of_tracks {b : OrderBook} (hpos : EntriesPos b) (h : Tracks b) {s : MDEntryType}
    (hs : s ≠ .trade) : (b.levels s).size = (livePrices b s).card := by
  have hmem : ∀ p, p ∈ (b.levels s).keys ↔ p ∈ livePrices b s := by
    intro p
    rw [← liveQty_pos_iff hpos, ← (h s hs).2 p, ExtTreeMap.mem_keys,
      ExtTreeMap.mem_iff_isSome_getElem?, getElem?_of_getD (h s hs).1]
    have hnn := liveQty_nonneg hpos s p
    rw [← (h s hs).2 p] at hnn
    split
    · simp; omega
    · simp; omega
  have hnodup : (b.levels s).keys.Nodup :=
    (b.levels s).distinct_keys.imp fun hab hc => hab (by rw [hc]; exact ReflCmp.compare_self)
  rw [← ExtTreeMap.length_keys, ← List.toFinset_card_of_nodup hnodup]
  congr 1
  ext p
  rw [List.mem_toFinset, hmem]

theorem agrees_iff_tracks {b : OrderBook} (hpos : EntriesPos b) : Agrees b ↔ Tracks b := by
  constructor
  · intro h s hs
    cases s with
    | bid => exact ⟨h.bidPos, h.bidQty⟩
    | offer => exact ⟨h.askPos, h.askQty⟩
    | trade => exact absurd rfl hs
  · intro h
    obtain ⟨hbp, hbq⟩ := h .bid (by decide)
    obtain ⟨hap, haq⟩ := h .offer (by decide)
    exact ⟨hbq, haq, hbp, hap, depth_of_tracks hpos h (s := .bid) (by decide),
      depth_of_tracks hpos h (s := .offer) (by decide)⟩

/-- A run over the empty book keeps levels and entries in agreement after every step
exactly when no New with a quantity overwrites a live Bid or Offer. -/
theorem agrees_iff_noLiveOverwrite (ops : List BookOp) :
    (∀ pre, pre <+: ops → Agrees (run bookStep {} pre)) ↔
      Along bookStep NoLiveOverwrite {} ops := by
  rw [← always_iff_along (I := EntriesPos) (P := Tracks) (fun b op h _ => entriesPos_step op h)
    (fun b op => tracks_step_iff op) entriesPos_empty tracks_empty, always_iff_forall_run]
  refine forall_congr' fun pre => imp_congr_right fun _ => agrees_iff_tracks ?_
  exact run_invariant (fun b op => entriesPos_step op) entriesPos_empty pre

/-- Two quotes without tag 278 share the id 0: the level keeps both quantities, the table
only the second. -/
theorem not_agrees_repeated_id :
    ¬ Agrees (run bookStep {}
      [.update { timestampNs := 0, price := 200000, qty := 5, action := .new },
       .update { timestampNs := 1, price := 200000, qty := 3, action := .new }]) := by
  intro h
  have hq := h.bidQty 200000
  revert hq
  decide

end SmartQuant.BookInvariant
