import SmartQuant.Md.BookHistory
import SmartQuant.Md.EntryVisits

/-!
# Price 0 against the empty side

A best price of 0 is read as an empty side everywhere. The gateway fills an absent
MDEntryPx with 0 and looks nothing up for it, so a quote without a price makes a level
at 0, and so does a Change that leaves its entry's price out.
-/
namespace SmartQuant.PriceSentinel

open Std OrderBook FixMdGateway Replay Runs EntryVisits BookInvariant

/-- Every MDEntryPx that is present is positive after `to_price`. -/
def PositivePrices (ds : List Delivery) : Prop :=
  ∀ d ∈ ds, ∀ e ∈ d.msg.groups, ∀ px ∈ e.px, 0 < toPrice px

instance (ds : List Delivery) : Decidable (PositivePrices ds) :=
  inferInstanceAs (Decidable (∀ d ∈ ds, _))

def LevelsPriced (m : Levels) : Prop := ∀ p ∈ m, 0 < p

/-- Every level has a price, and a best price of 0 means that the side is empty. -/
structure ZeroIsEmpty (b : OrderBook) : Prop where
  bids : LevelsPriced b.bids
  asks : LevelsPriced b.asks
  bestBid : b.bestBid = 0 ↔ b.bids = ∅
  bestAsk : b.bestAsk = 0 ↔ b.asks = ∅

/-- An entry still live after a Change without a price has the price it had. -/
def KeepsPrice (v : Visit) : Prop :=
  v.action = some .change → v.entry.px = none → ∀ old ∈ v.book.lookupEntry v.entry.id,
    ∀ new ∈ v.after.lookupEntry v.entry.id, new.price = old.price

/-- Price 0 means "no quote" after every message and every visit, and a Change without a
price keeps the price. -/
structure ZeroMeansNoQuote (ds : List Delivery) : Prop where
  messages : ∀ pre, pre <+: ds → ZeroIsEmpty (run deliver {} pre).book
  entries : ∀ v ∈ visits {} ds, ZeroIsEmpty v.after
  changes : ∀ v ∈ visits {} ds, KeepsPrice v

/-- Without a price the entry is stored at 0, as a quote or over an entry with a price. -/
def StoredAtZero (v : Visit) : Prop :=
  v.entry.px = none ∧ 0 < v.entry.qty ∧
    ((v.action = some .new ∨ v.action = some .change) ∧
        (v.side = some .bid ∨ v.side = some .offer) ∨
      v.action = some .change ∧ v.side = some .trade ∧
        ∃ old ∈ v.book.lookupEntry v.entry.id, old.price ≠ 0)

instance : DecidablePred StoredAtZero := fun _ => inferInstanceAs (Decidable (_ ∧ _ ∧ _))

theorem bestBid_eq_zero_iff {b : OrderBook} (h : LevelsPriced b.bids) :
    b.bestBid = 0 ↔ b.bids = ∅ := by
  rw [← ExtTreeMap.keys_eq_nil_iff, bestBid]
  cases hlast : b.bids.keys.getLast? with
  | none => simp [List.getLast?_eq_none_iff.mp hlast]
  | some p =>
    have hp := h p (ExtTreeMap.mem_keys.mp (List.mem_of_getLast? hlast))
    have hne : b.bids.keys ≠ [] := by
      intro hc
      simp [hc] at hlast
    exact iff_of_false (by simp; omega) hne

theorem bestAsk_eq_zero_iff {b : OrderBook} (h : LevelsPriced b.asks) :
    b.bestAsk = 0 ↔ b.asks = ∅ := by
  rw [← ExtTreeMap.keys_eq_nil_iff, bestAsk]
  cases hhead : b.asks.keys.head? with
  | none => simp [List.head?_eq_none_iff.mp hhead]
  | some p =>
    have hp := h p (ExtTreeMap.mem_keys.mp (List.mem_of_mem_head? hhead))
    have hne : b.asks.keys ≠ [] := by
      intro hc
      simp [hc] at hhead
    exact iff_of_false (by simp; omega) hne

theorem zeroIsEmpty_of_priced {b : OrderBook} (h : ∀ s, LevelsPriced (b.levels s)) :
    ZeroIsEmpty b :=
  ⟨h .bid, h .offer, bestBid_eq_zero_iff (h .bid), bestAsk_eq_zero_iff (h .offer)⟩

theorem levelAdd_priced {m : Levels} (h : LevelsPriced m) {px d : Int}
    (hpx : 0 < m.getD px 0 + d → 0 < px) : LevelsPriced (levelAdd m px d) := by
  intro p hp
  simp only [levelAdd] at hp
  split at hp
  · exact h p (ExtTreeMap.mem_of_mem_erase hp)
  · rcases ExtTreeMap.mem_insert.mp hp with heq | hmem
    · have : px = p := by simpa using heq
      have := hpx (by omega)
      omega
    · exact h p hmem

/-- The book's levels are at positive prices, and its live entries have quantities. -/
structure Priced (b : OrderBook) : Prop where
  entries : EntriesPos b
  levels : ∀ s, LevelsPriced (b.levels s)

theorem priced_empty : Priced {} where
  entries := entriesPos_empty
  levels s p hp := by cases s <;> simp [OrderBook.levels] at hp

theorem priced_addLevel {b : OrderBook} (h : ∀ s, LevelsPriced (b.levels s)) {side : MDEntryType}
    {px d : Int} (hpx : side ≠ .trade → 0 < (b.levels side).getD px 0 + d → 0 < px)
    (s : MDEntryType) : LevelsPriced ((b.addLevel side px d).levels s) := by
  rw [addLevel_levels]
  split
  · rename_i hs
    obtain ⟨rfl, hs⟩ := hs
    exact levelAdd_priced (h side) (hpx hs)
  · exact h s

theorem priced_update {b : OrderBook} (h : Priced b) {ev : LOBEvent}
    (hpx : ev.action ≠ .delete → 0 < ev.qty → ev.side ≠ .trade → 0 < ev.price) :
    Priced (b.update ev) := by
  refine update_preserves ?_ ?_ ?_ h
  · intro b old hold hb
    refine ⟨entriesPos_withdraw hb.entries old, priced_addLevel hb.levels fun _ hslot => ?_⟩
    have hq := hb.entries _ _ hold
    apply hb.levels old.side old.price
    by_contra hmem
    rw [ExtTreeMap.getD_eq_fallback hmem] at hslot
    omega
  · intro b hact hq hb
    refine ⟨entriesPos_store hb.entries hq, fun s => ?_⟩
    rw [store_levels]
    exact priced_addLevel hb.levels (fun hs _ => hpx hact hq hs) s
  · intro b hb
    exact ⟨entriesPos_forget hb.entries _, fun s => by rw [forget_levels]; exact hb.levels s⟩

/-- A quote has a level at its price once it is stored. -/
theorem mem_store_levels {b : OrderBook} (h : BookPos b) {ev : LOBEvent} (hq : 0 < ev.qty)
    (hs : ev.side ≠ .trade) : ev.price ∈ (b.store ev).levels ev.side := by
  rw [store_levels, addLevel_levels, if_pos ⟨rfl, hs⟩]
  have hnn := getD_nonneg (h ev.side) ev.price
  simp only [levelAdd]
  rw [if_neg (by omega)]
  exact ExtTreeMap.mem_insert_self

theorem mem_update_levels {b : OrderBook} (h : BookPos b) {ev : LOBEvent}
    (hact : ev.action ≠ .delete) (hq : 0 < ev.qty) (hs : ev.side ≠ .trade) :
    ev.price ∈ (b.update ev).levels ev.side := by
  cases ha : ev.action with
  | delete => exact absurd ha hact
  | new =>
    rw [update_new ha, if_neg (by omega)]
    exact mem_store_levels h hq hs
  | change =>
    rw [update_change ha, if_pos hq]
    apply mem_store_levels _ hq hs
    cases b.entries[ev.entryId]? with
    | none => exact h
    | some old => exact bookPos_addLevel h _ _ _

theorem price_of_absent {e : MDEntry} (h : e.px = none) : e.price = 0 := by
  simp [MDEntry.price, h]

theorem priced_after {v : Visit} (hpx : ∀ px ∈ v.entry.px, 0 < toPrice px) (h : Priced v.book)
    (hv : ¬ StoredAtZero v) : Priced v.after := by
  cases hev : v.event with
  | none => simpa [Visit.after, hev] using h
  | some ev =>
    rw [Visit.after_of_event hev]
    apply priced_update h
    intro hact hq hs
    obtain ⟨ha, hside, -, hprice, hqty⟩ := Visit.entry_of_event hev hact
    cases hp : v.entry.px with
    | some px => simpa [hprice, MDEntry.price, hp] using hpx px hp
    | none =>
      refine absurd ⟨hp, by rwa [← hqty], Or.inl ⟨?_, ?_⟩⟩ hv
      · cases hx : ev.action <;> simp_all
      · cases hx : ev.side <;> simp_all

/-- What a New or a Change leaves under its id. -/
theorem lookup_after {v : Visit} {side : MDEntryType} (hact : v.action = some .change)
    (hside : v.side = some side) : v.after.lookupEntry v.entry.id =
      if 0 < v.entry.qty then some ⟨side, v.entry.price, v.entry.qty⟩ else none := by
  rw [Visit.after_of_event (Visit.event_of_entry hact (by decide) hside), OrderBook.lookupEntry]
  exact BookHistory.update_entries_self _ _

theorem keepsPrice_of_not_storedAtZero {v : Visit} (h : ¬ StoredAtZero v) : KeepsPrice v := by
  intro hact hpx old hold new hnew
  cases hside : v.side with
  | none =>
    have hev : v.event = none := by
      rw [Visit.event_of_ne_delete (by simp [hact]), hact, hside]
      rfl
    simp only [Visit.after, hev] at hnew
    rw [Option.mem_def.mp hold] at hnew
    rw [Option.some.inj hnew]
  | some side =>
    rw [lookup_after hact hside, price_of_absent hpx] at hnew
    split at hnew
    · rename_i hq
      obtain rfl := Option.some.inj hnew
      by_contra hne
      refine h ⟨hpx, hq, ?_⟩
      cases side with
      | bid => exact Or.inl ⟨Or.inr hact, Or.inl hside⟩
      | offer => exact Or.inl ⟨Or.inr hact, Or.inr hside⟩
      | trade => exact Or.inr ⟨hact, hside, old, hold, fun hc => hne hc.symm⟩
    · cases hnew

theorem not_storedAtZero {v : Visit} (hpos : BookPos v.book) (hz : ZeroIsEmpty v.after)
    (hk : KeepsPrice v) : ¬ StoredAtZero v := by
  intro hstored
  obtain ⟨hpx, hq, ⟨hact, hside⟩ | ⟨hact, hside, old, hold, hne⟩⟩ := hstored
  · have hlevel : ∀ a s, v.action = some a → a ≠ .delete → v.side = some s → s ≠ .trade →
        (0 : Int) ∈ v.after.levels s := by
      intro a s ha hdel hs htrade
      rw [Visit.after_of_event (Visit.event_of_entry ha hdel hs), ← price_of_absent hpx]
      exact mem_update_levels hpos hdel hq htrade
    obtain ⟨a, ha, hdel⟩ : ∃ a, v.action = some a ∧ a ≠ .delete := by
      rcases hact with ha | ha
      · exact ⟨_, ha, by decide⟩
      · exact ⟨_, ha, by decide⟩
    rcases hside with hs | hs
    · exact absurd (hz.bids 0 (hlevel a _ ha hdel hs (by decide))) (by decide)
    · exact absurd (hz.asks 0 (hlevel a _ ha hdel hs (by decide))) (by decide)
  · have hnew := lookup_after hact hside
    rw [if_pos hq, price_of_absent hpx] at hnew
    exact hne (hk hact hpx old hold _ hnew).symm

theorem visits_subset_of_isPrefix {pre ds : List Delivery} (h : pre <+: ds) :
    visits {} pre ⊆ visits {} ds := by
  obtain ⟨rest, rfl⟩ := h
  unfold visits
  rw [outputs_append]
  exact List.subset_append_left _ _

/-- Over any session whose prices are positive where present, price 0 means "no quote" and a
Change without a price keeps the price, exactly when no entry without a price is stored as a
quote, or as a trade over an entry with a price. -/
theorem zeroMeansNoQuote_iff (ds : List Delivery) (hpx : PositivePrices ds) :
    ZeroMeansNoQuote ds ↔ ∀ v ∈ visits {} ds, ¬ StoredAtZero v := by
  constructor
  · intro h v hv
    have hpos := book_of_updates bookPos_empty (fun _ ev hb => bookPos_update hb ev) ds v hv
    exact not_storedAtZero hpos (h.entries v hv) (h.changes v hv)
  · intro h
    have hstep : ∀ v ∈ visits {} ds, Priced v.book → Priced v.after := by
      intro v hv hb
      obtain ⟨d, hd, he⟩ := entry_mem_of_visits hv
      exact priced_after (hpx d hd v.entry he) hb (h v hv)
    have hbooks := (book_of_visits priced_empty priced_empty hstep).1
    refine ⟨fun pre hpre => ?_, fun v hv => ?_, fun v hv => keepsPrice_of_not_storedAtZero (h v hv)⟩
    · have hsub := visits_subset_of_isPrefix hpre
      have hlast := (book_of_visits priced_empty priced_empty fun v hv => hstep v (hsub hv)).2
      exact zeroIsEmpty_of_priced hlast.levels
    · exact zeroIsEmpty_of_priced (hstep v hv (hbooks v hv)).levels

def quote : MDEntry :=
  { updateAction := some '0', entryType := some '0', entryId := some "1", px := some 2000
    size := some 5 }

def reduced (px : Option ℚ) : MDEntry :=
  { updateAction := some '1', entryType := some '0', entryId := some "1", px, size := some 3 }

theorem zeroMeansNoQuote_iff_reduced :
    ZeroMeansNoQuote [refresh [quote, reduced (some 2000)]] :=
  (zeroMeansNoQuote_iff _ (by decide +kernel)).mpr (by decide +kernel)

/-- A Change that only tells the new size moves the bid to price 0, and the side reads as
empty. -/
theorem not_zeroMeansNoQuote_reduced : ¬ ZeroMeansNoQuote [refresh [quote, reduced none]] := by
  intro h
  have hbid := (h.messages _ (List.prefix_refl _)).bestBid
  have hzero : (run deliver {} [refresh [quote, reduced none]]).book.bestBid = 0 := by
    decide +kernel
  have hdepth := congrArg ExtTreeMap.size (hbid.mp hzero)
  revert hdepth
  decide +kernel

end SmartQuant.PriceSentinel
