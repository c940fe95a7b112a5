import SmartQuant.Lib.KeyedRuns
import SmartQuant.Md.BookInvariant

/-!
# The book does not remember how it came about

While every New carries an id that is not live, the levels sum the live entries,
so two runs that end with the same entries end with the same levels. What a run
leaves under an id depends on the events of that id alone, and so events of
different ids may change places.
-/
namespace SmartQuant.BookHistory

open Std OrderBook Runs KeyedRuns BookInvariant

/-- A New carries an id that is not live. -/
def FreshNew (b : OrderBook) (ev : LOBEvent) : Prop :=
  ev.action = .new → ev.entryId ∉ b.entries

instance (b : OrderBook) (ev : LOBEvent) : Decidable (FreshNew b ev) :=
  inferInstanceAs (Decidable (_ → _))

/-- Nobody can tell the books apart by their quotes. -/
structure SameQuotes (b c : OrderBook) : Prop where
  bestBid : b.bestBid = c.bestBid
  bestAsk : b.bestAsk = c.bestAsk
  bidDepth : b.bidDepth = c.bidDepth
  askDepth : b.askDepth = c.askDepth
  bidQty : ∀ p, b.bidQtyAt p = c.bidQtyAt p
  askQty : ∀ p, b.askQtyAt p = c.askQtyAt p

theorem sameQuotes_of_levels {b c : OrderBook} (hbids : b.bids = c.bids) (hasks : b.asks = c.asks) :
    SameQuotes b c where
  bestBid := by rw [OrderBook.bestBid, OrderBook.bestBid, hbids]
  bestAsk := by rw [OrderBook.bestAsk, OrderBook.bestAsk, hasks]
  bidDepth := by rw [OrderBook.bidDepth, OrderBook.bidDepth, hbids]
  askDepth := by rw [OrderBook.askDepth, OrderBook.askDepth, hasks]
  bidQty p := by rw [bidQtyAt, bidQtyAt, hbids]
  askQty p := by rw [askQtyAt, askQtyAt, hasks]

theorem noLiveOverwrite_of_fresh {b : OrderBook} {ev : LOBEvent} (h : FreshNew b ev) :
    NoLiveOverwrite b (.update ev) := by
  intro hnew _ old hold
  rw [ExtTreeMap.getElem?_eq_none (h hnew)] at hold
  cases hold

theorem tracks_run {evs : List LOBEvent} (h : Along update FreshNew {} evs) :
    Tracks (run update {} evs) := by
  have hstep : ∀ b ev, EntriesPos b ∧ Tracks b → FreshNew b ev →
      EntriesPos (b.update ev) ∧ Tracks (b.update ev) := by
    intro b ev htracks hfresh
    obtain ⟨hpos, ht⟩ := htracks
    exact ⟨entriesPos_update hpos ev,
      (tracks_step_iff (.update ev) hpos ht).mpr (noLiveOverwrite_of_fresh hfresh)⟩
  exact (always_iff_forall_run.mp (always_of_along hstep ⟨entriesPos_empty, tracks_empty⟩ h) evs
    (List.prefix_refl evs)).2

theorem levels_of_entries {b c : OrderBook} (hb : Tracks b) (hc : Tracks c)
    (h : b.entries = c.entries) : b.bids = c.bids ∧ b.asks = c.asks := by
  have hside : ∀ s, s ≠ .trade → b.levels s = c.levels s := by
    intro s hs
    apply levels_ext (hb s hs).1 (hc s hs).1
    intro p
    rw [(hb s hs).2 p, (hc s hs).2 p, liveQty, liveQty, h]
  exact ⟨hside .bid (by decide), hside .offer (by decide)⟩

theorem update_entries_self (b : OrderBook) (ev : LOBEvent) :
    (b.update ev).entries[ev.entryId]? =
      match ev.action with
      | .new => if ev.qty ≤ 0 then b.entries[ev.entryId]? else some ⟨ev.side, ev.price, ev.qty⟩
      | .change => if 0 < ev.qty then some ⟨ev.side, ev.price, ev.qty⟩ else none
      | .delete => none := by
  cases hact : ev.action with
  | new =>
    rw [update_new hact]
    split
    · rfl
    · simp
  | change =>
    rw [update_change hact]
    split
    · simp
    · simp
  | delete =>
    rw [update_delete hact]
    cases hold : b.entries[ev.entryId]? with
    | none => exact hold
    | some old => simp

theorem update_entries_other (b : OrderBook) {ev : LOBEvent} {id : Nat} (h : ev.entryId ≠ id) :
    (b.update ev).entries[id]? = b.entries[id]? := by
  refine update_preserves (P := fun b' => b'.entries[id]? = b.entries[id]?) ?_ ?_ ?_ rfl
  · intro b' old _ hb'
    rwa [withdraw_entries]
  · intro b' _ _ hb'
    rw [store_entries, ExtTreeMap.getElem?_insert, if_neg (by simpa using h), hb']
  · intro b' hb'
    rw [forget_entries, ExtTreeMap.getElem?_erase, if_neg (by simpa using h), hb']

/-- What a run leaves under an id, the events of that id alone leave there too. -/
theorem run_entries_filter {id : Nat} {b c : OrderBook} (h : b.entries[id]? = c.entries[id]?)
    (evs : List LOBEvent) : (run update b evs).entries[id]? =
      (run update c (evs.filter fun ev => ev.entryId = id)).entries[id]? := by
  induction evs generalizing b c with
  | nil => exact h
  | cons ev evs ih =>
    rw [run_cons]
    by_cases hid : ev.entryId = id
    · rw [List.filter_cons_of_pos (by simpa using hid), run_cons]
      subst hid
      exact ih (by rw [update_entries_self, update_entries_self, h])
    · rw [List.filter_cons_of_neg (by simpa using hid)]
      exact ih (by rw [update_entries_other b hid, h])

theorem entries_of_sameOrder {evs evs' : List LOBEvent} (h : SameByKey LOBEvent.entryId evs evs') :
    (run update {} evs).entries = (run update {} evs').entries := by
  apply ExtTreeMap.ext_getElem?
  intro id
  rw [run_entries_filter rfl, h id, ← run_entries_filter rfl]

/-- Fresh ids stay fresh when events of different ids change places. -/
theorem fresh_of_sameOrder {evs evs' : List LOBEvent} (h : SameByKey LOBEvent.entryId evs evs')
    (hfresh : Along update FreshNew {} evs) : Along update FreshNew {} evs' := by
  rw [along_iff_forall_split] at hfresh ⊢
  rintro pre' ev post' rfl hnew
  have hev := h ev.entryId
  rw [List.filter_append, List.filter_cons_of_pos (by simp)] at hev
  obtain ⟨pre, rest, rfl, hpre, hrest⟩ := List.filter_eq_append_iff.mp hev
  obtain ⟨skipped, post, rfl, hskipped, -, -⟩ := List.filter_eq_cons_iff.mp hrest
  have hone := hfresh (pre ++ skipped) ev post (by simp) hnew
  have hnone : skipped.filter (fun e => e.entryId = ev.entryId) = [] := by
    rw [List.filter_eq_nil_iff]
    exact hskipped
  rw [ExtTreeMap.mem_iff_isSome_getElem?] at hone ⊢
  rwa [run_entries_filter rfl, List.filter_append, hpre, hnone, List.append_nil,
    ← run_entries_filter rfl] at hone

/-- Two runs in which every New is fresh and that end with the same entries end with the same
levels; and a run may be reordered, each id keeping its order, without any quote changing. -/
theorem book_independent_of_history {evs evs' : List LOBEvent}
    (h : Along update FreshNew {} evs) :
    (Along update FreshNew {} evs' →
      (run update {} evs).entries = (run update {} evs').entries →
      (run update {} evs).bids = (run update {} evs').bids ∧
        (run update {} evs).asks = (run update {} evs').asks) ∧
    (SameByKey LOBEvent.entryId evs evs' →
      SameQuotes (run update {} evs) (run update {} evs')) := by
  have hlevels : Along update FreshNew {} evs' →
      (run update {} evs).entries = (run update {} evs').entries →
      (run update {} evs).bids = (run update {} evs').bids ∧
        (run update {} evs).asks = (run update {} evs').asks :=
    fun h' he => levels_of_entries (tracks_run h) (tracks_run h') he
  refine ⟨hlevels, fun hsame => ?_⟩
  obtain ⟨hbids, hasks⟩ := hlevels (fresh_of_sameOrder hsame h) (entries_of_sameOrder hsame)
  exact sameQuotes_of_levels hbids hasks

def quoteBid : LOBEvent :=
  { timestampNs := 0, entryId := 1, price := 200000, qty := 5, action := .new }

def quoteAsk : LOBEvent :=
  { timestampNs := 1, entryId := 2, price := 200100, qty := 3, action := .new, side := .offer }

def withdrawBid : LOBEvent := { timestampNs := 2, entryId := 1, action := .delete }

def bidFirst : List LOBEvent := [quoteBid, withdrawBid, quoteAsk]

def askFirst : List LOBEvent := [quoteAsk, quoteBid, withdrawBid]

theorem sameOrder_askFirst : SameByKey LOBEvent.entryId bidFirst askFirst := by
  intro id
  by_cases h1 : 1 = id
  · subst h1
    decide
  · by_cases h2 : 2 = id
    · subst h2
      decide
    · simp [bidFirst, askFirst, quoteBid, quoteAsk, withdrawBid, h1, h2]

theorem book_independent_of_history_askFirst :
    ((run update {} bidFirst).bids = (run update {} askFirst).bids ∧
      (run update {} bidFirst).asks = (run update {} askFirst).asks) ∧
    SameQuotes (run update {} bidFirst) (run update {} askFirst) :=
  ⟨(book_independent_of_history (by decide +kernel)).1 (by decide +kernel)
      (entries_of_sameOrder sameOrder_askFirst),
    (book_independent_of_history (by decide +kernel)).2 sameOrder_askFirst⟩

end SmartQuant.BookHistory
