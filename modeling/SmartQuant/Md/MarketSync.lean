import Mathlib.Algebra.BigOperators.Fin
import SmartQuant.Md.BestPrices
import SmartQuant.Md.BookHistory
import SmartQuant.Md.EntryCodec
import SmartQuant.Md.EntryVisits

/-!
# The book as a picture of the market

The market is what rests at the broker: at most one quote for each order id. The
broker sends it whole in a snapshot and tells each change in a refresh. Whatever the
gateway held before, from the first snapshot on its book shows the market as the
messages leave it, and its log tells each change with the quote it concerns.
-/
namespace SmartQuant.MarketSync

open Std OrderBook BestPrices BookInvariant BookHistory EntryCodec EntryVisits KeyedSum Replay Runs

abbrev OrderId := Fin Word64.size

/-- A resting order, of a price and a quantity that doubles carry. -/
structure Quote where
  side : MDEntryType
  price : Int
  qty : Int
  side_ne : side ≠ .trade
  price_pos : 0 < price
  price_le : price ≤ 2 ^ 50
  qty_pos : 0 < qty
  qty_le : qty ≤ 2 ^ 53

def Quote.info (q : Quote) : EntryInfo := ⟨q.side, q.price, q.qty⟩

abbrev Market := OrderId → Option Quote

inductive MarketOp where
  | place (id : OrderId) (q : Quote)
  | amend (id : OrderId) (q : Quote)
  | cancel (id : OrderId)

inductive MarketMessage where
  | snapshot (quotes : List (OrderId × Quote))
  | refresh (ops : List MarketOp)

namespace Market

def apply (m : Market) : MarketOp → Market
  | .place id q | .amend id q => Function.update m id (some q)
  | .cancel id => Function.update m id none

/-- An id is placed when it is free, and amended and cancelled while it rests. -/
def Admits (m : Market) : MarketOp → Prop
  | .place id _ => m id = none
  | .amend id _ | .cancel id => (m id).isSome

/-- A snapshot starts over. -/
def start (m : Market) : MarketMessage → Market
  | .snapshot _ => fun _ => none
  | .refresh _ => m

def prices (m : Market) (side : MDEntryType) : Set Int :=
  {p | ∃ id q, m id = some q ∧ q.side = side ∧ q.price = p}

/-- The quantity resting on one side at one price. -/
def qtyAt (m : Market) (side : MDEntryType) (p : Int) : Int :=
  ∑ id, match m id with
    | some q => if q.side = side ∧ q.price = p then q.qty else 0
    | none => 0

/-- What a change looks like in the log; the end of a quote tells which quote it was. -/
def event (m : Market) (tsNs : Nat) : MarketOp → LOBEvent
  | .place id q =>
    { timestampNs := tsNs, entryId := id, action := .new
      side := q.side, price := q.price, qty := q.qty }
  | .amend id q =>
    { timestampNs := tsNs, entryId := id, action := .change
      side := q.side, price := q.price, qty := q.qty }
  | .cancel id =>
    match m id with
    | some q =>
      { timestampNs := tsNs, entryId := id, action := .delete
        side := q.side, price := q.price, qty := q.qty }
    | none => { timestampNs := tsNs, entryId := id, action := .delete }

end Market

/-- The entry of a refresh for a change. -/
def MarketOp.entry (op : MarketOp) : MDEntry := ofEvent (Market.event (fun _ => none) 0 op)

/-- The entry of a snapshot for a quote. -/
def MarketOp.quoteEntry (op : MarketOp) : MDEntry := ofQuote (Market.event (fun _ => none) 0 op)

namespace MarketMessage

def ops : MarketMessage → List MarketOp
  | .snapshot quotes => quotes.map fun x => .place x.1 x.2
  | .refresh ops => ops

/-- The message on the wire. -/
def encode (msg : MarketMessage) (tsNs : Nat) : Delivery :=
  match msg with
  | .snapshot _ =>
    { msg :=
        { msgType := "W", noMDEntries := some msg.ops.length
          groups := msg.ops.map MarketOp.quoteEntry }
      tsNs }
  | .refresh _ =>
    { msg :=
        { msgType := "X", noMDEntries := some msg.ops.length
          groups := msg.ops.map MarketOp.entry }
      tsNs }

end MarketMessage

/-- The market after a message. -/
def receive (m : Market) (x : MarketMessage × Nat) : Market :=
  run Market.apply (m.start x.1) x.1.ops

/-- Each change of the message is one the market admits. -/
def Sends (m : Market) (x : MarketMessage × Nat) : Prop :=
  Along Market.apply Market.Admits (m.start x.1) x.1.ops

/-- The changes of the message, as they are logged. -/
def events (m : Market) (x : MarketMessage × Nat) : List LOBEvent :=
  outputs Market.apply (fun m op => [m.event x.2 op]) (m.start x.1) x.1.ops

def IsSnapshot : MarketMessage → Prop
  | .snapshot _ => True
  | .refresh _ => False

/-- What the book tells of the market. -/
structure Shows (b : OrderBook) (m : Market) : Prop where
  lookup : ∀ id : OrderId, b.lookupEntry id = (m id).map Quote.info
  bidQty : ∀ p, b.bidQtyAt p = m.qtyAt .bid p
  askQty : ∀ p, b.askQtyAt p = m.qtyAt .offer p
  bestBid : (m.prices .bid).Nonempty → IsGreatest (m.prices .bid) b.bestBid
  bestAsk : (m.prices .offer).Nonempty → IsLeast (m.prices .offer) b.bestAsk
  noBid : m.prices .bid = ∅ → b.bestBid = 0
  noAsk : m.prices .offer = ∅ → b.bestAsk = 0

/-- The entry the table has for an id. -/
def entryAt (m : Market) (id : Nat) : Option EntryInfo :=
  if h : id < Word64.size then (m ⟨id, h⟩).map Quote.info else none

/-- The table holds the quotes and the levels follow the table. -/
structure Holds (b : OrderBook) (m : Market) : Prop where
  tracks : Tracks b
  pos : EntriesPos b
  entries : ∀ id : Nat, b.entries[id]? = entryAt m id

theorem holds_empty : Holds {} fun _ => none := by
  refine ⟨tracks_empty, entriesPos_empty, fun id => ?_⟩
  simp [entryAt]

theorem entryAt_val (m : Market) (id : OrderId) : entryAt m id = (m id).map Quote.info := by
  rw [entryAt, dif_pos id.isLt]

theorem entryAt_update_self (m : Market) (id : OrderId) (x : Option Quote) :
    entryAt (Function.update m id x) id = x.map Quote.info := by
  rw [entryAt_val, Function.update_self]

theorem entryAt_update_other (m : Market) (id : OrderId) (x : Option Quote) {k : Nat}
    (h : (id : Nat) ≠ k) : entryAt (Function.update m id x) k = entryAt m k := by
  unfold entryAt
  split
  · rename_i hk
    rw [Function.update_of_ne]
    rintro rfl
    exact h rfl
  · rfl

theorem event_entryId (m : Market) (tsNs : Nat) (op : MarketOp) :
    (m.event tsNs op).entryId = match op with
      | .place id _ | .amend id _ | .cancel id => (id : Nat) := by
  cases op with
  | place id q | amend id q => rfl
  | cancel id =>
    rw [Market.event]
    split <;> rfl

theorem apply_other (m : Market) (tsNs : Nat) (op : MarketOp) {k : Nat}
    (h : (m.event tsNs op).entryId ≠ k) : entryAt (m.apply op) k = entryAt m k := by
  rw [event_entryId] at h
  cases op with
  | place id q | amend id q | cancel id => exact entryAt_update_other m id _ h

theorem event_cancel (m : Market) (tsNs : Nat) (id : OrderId) :
    (m.event tsNs (.cancel id)).action = .delete := by
  rw [Market.event]
  split <;> rfl

theorem entries_stored (b : OrderBook) {ev : LOBEvent} (hact : ev.action ≠ .delete)
    (hq : 0 < ev.qty) :
    (b.update ev).entries[ev.entryId]? = some ⟨ev.side, ev.price, ev.qty⟩ := by
  rw [update_entries_self]
  split
  · rw [if_neg (by omega)]
  · rw [if_pos hq]
  · exact absurd ‹_› hact

theorem entries_deleted (b : OrderBook) {ev : LOBEvent} (hact : ev.action = .delete) :
    (b.update ev).entries[ev.entryId]? = none := by
  rw [update_entries_self, hact]

section Change

variable {b : OrderBook} {m : Market} {op : MarketOp}

theorem noLiveOverwrite_of_admits (h : Holds b m) (hop : m.Admits op) (tsNs : Nat) :
    NoLiveOverwrite b (.update (m.event tsNs op)) := by
  intro hnew _ old hold
  rw [h.entries] at hold
  cases op with
  | place id q =>
    have hfree : m id = none := hop
    rw [show (m.event tsNs (.place id q)).entryId = (id : Nat) from rfl, entryAt_val, hfree]
      at hold
    cases hold
  | amend id q => cases hnew
  | cancel id =>
    rw [event_cancel] at hnew
    cases hnew

/-- A change the market admits goes over into the book. -/
theorem holds_apply (h : Holds b m) (hop : m.Admits op) (tsNs : Nat) :
    Holds (b.update (m.event tsNs op)) (m.apply op) := by
  refine ⟨?_, entriesPos_update h.pos _, fun k => ?_⟩
  · exact (tracks_step_iff (.update _) h.pos h.tracks).mpr
      (noLiveOverwrite_of_admits h hop tsNs)
  · by_cases hk : (m.event tsNs op).entryId = k
    · subst hk
      rw [event_entryId]
      cases op with
      | place id q =>
        exact (entries_stored b (by simp [Market.event]) q.qty_pos).trans
          (entryAt_update_self m id (some q)).symm
      | amend id q =>
        exact (entries_stored b (by simp [Market.event]) q.qty_pos).trans
          (entryAt_update_self m id (some q)).symm
      | cancel id =>
        have hnone := entries_deleted b (event_cancel m tsNs id)
        rw [event_entryId] at hnone
        exact hnone.trans (entryAt_update_self m id none).symm
    · rw [update_entries_other b hk, h.entries, apply_other m tsNs op hk]

theorem Quote.fitsWire (q : Quote) (id : OrderId) (tsNs : Nat) (action : MDUpdateAction) :
    FitsWire { timestampNs := tsNs, entryId := id, action
               side := q.side, price := q.price, qty := q.qty } := by
  have hqty : |q.qty| ≤ 2 ^ 53 := by
    rw [abs_of_pos q.qty_pos]
    exact q.qty_le
  exact ⟨id.isLt, q.price_pos.le, q.price_le, hqty⟩

/-- What the loop makes of the entry for a change. -/
theorem parse_change (h : Holds b m) (hop : m.Admits op) (tsNs : Nat) :
    parseIncremental tsNs b op.entry = .event (m.event tsNs op) := by
  cases op with
  | place id q =>
    exact parseIncremental_ofEvent b (m.event tsNs (.place id q)) (q.fitsWire id tsNs _)
  | amend id q =>
    exact parseIncremental_ofEvent b (m.event tsNs (.amend id q)) (q.fitsWire id tsNs _)
  | cancel id =>
    obtain ⟨q, hq⟩ := Option.isSome_iff_exists.mp hop
    have hlive : b.lookupEntry (id : Nat) = some q.info := by
      rw [lookupEntry, h.entries, entryAt_val, hq]
      rfl
    have hparse := parseIncremental_ofEvent b
      { timestampNs := tsNs, entryId := id, action := .delete }
      ⟨id.isLt, le_rfl, by norm_num, by norm_num⟩
    rw [if_pos rfl, resolved, hlive] at hparse
    rw [Market.event, hq]
    exact hparse

theorem parse_quote (id : OrderId) (q : Quote) (tsNs : Nat) :
    parseSnapshot tsNs (MarketOp.place id q).quoteEntry = .event (m.event tsNs (.place id q)) :=
  parseSnapshot_ofQuote (m.event tsNs (.place id q)) (q.fitsWire id tsNs _) rfl q.side_ne

end Change

open FixMdGateway

/-- The loop over the written changes of a message emits the changes and keeps the picture. -/
theorem handleEntries_changes {parse : OrderBook → MDEntry → Parsed} {write : MarketOp → MDEntry}
    {tsNs : Nat} {ops : List MarketOp}
    (hparse : ∀ b m, ∀ op ∈ ops, Holds b m → m.Admits op →
      parse b (write op) = .event (m.event tsNs op))
    {g : FixMdGateway} {m : Market} (h : Holds g.book m)
    (hops : Along Market.apply Market.Admits m ops) :
    Holds (handleEntries parse g (ops.map write)).book (run Market.apply m ops) ∧
      (handleEntries parse g (ops.map write)).logged =
        g.logged ++ outputs Market.apply (fun m op => [m.event tsNs op]) m ops := by
  induction ops generalizing g m with
  | nil => exact ⟨h, (List.append_nil _).symm⟩
  | cons op ops ih =>
    obtain ⟨hop, hrest⟩ := hops
    rw [List.map_cons, handleEntries, hparse g.book m op List.mem_cons_self h hop]
    obtain ⟨hholds, hlogged⟩ := ih
      (fun b m op' hop' => hparse b m op' (List.mem_cons_of_mem _ hop'))
      (g := g.emit (m.event tsNs op)) (holds_apply h hop tsNs) hrest
    refine ⟨hholds, hlogged.trans ?_⟩
    rw [outputs_cons, emit, List.append_assoc]

theorem deliver_refresh (g : FixMdGateway) (ops : List MarketOp) (tsNs : Nat) :
    deliver g ((MarketMessage.refresh ops).encode tsNs) =
      handleEntries (parseIncremental tsNs) g (ops.map MarketOp.entry) := by
  show handleEntries (parseIncremental tsNs) g ((ops.map MarketOp.entry).take ops.length) = _
  rw [List.take_of_length_le (by simp)]

theorem deliver_snapshot (g : FixMdGateway) (quotes : List (OrderId × Quote)) (tsNs : Nat) :
    deliver g ((MarketMessage.snapshot quotes).encode tsNs) =
      handleEntries (fun _ => parseSnapshot tsNs) { g with book := {} }
        ((MarketMessage.snapshot quotes).ops.map MarketOp.quoteEntry) := by
  show handleEntries (fun _ => parseSnapshot tsNs) { g with book := {} }
    (((MarketMessage.snapshot quotes).ops.map MarketOp.quoteEntry).take
      (MarketMessage.snapshot quotes).ops.length) = _
  rw [List.take_of_length_le (by simp)]

/-- A snapshot, or a refresh of a book that shows the market. -/
theorem deliver_message {g : FixMdGateway} {m : Market} {x : MarketMessage × Nat}
    (h : IsSnapshot x.1 ∨ Holds g.book m) (hs : Sends m x) :
    Holds (deliver g (x.1.encode x.2)).book (receive m x) ∧
      (deliver g (x.1.encode x.2)).logged = g.logged ++ events m x := by
  obtain ⟨msg, tsNs⟩ := x
  cases msg with
  | refresh ops =>
    rw [deliver_refresh]
    exact handleEntries_changes (fun b m op _ hb hop => parse_change hb hop tsNs)
      (h.resolve_left id) hs
  | snapshot quotes =>
    rw [deliver_snapshot]
    refine handleEntries_changes (fun b m op hmem _ _ => ?_) (g := { g with book := {} })
      holds_empty hs
    obtain ⟨⟨id, q⟩, -, rfl⟩ := List.mem_map.mp hmem
    exact parse_quote id q tsNs

theorem deliver_messages {g : FixMdGateway} {m : Market} (h : Holds g.book m)
    {msgs : List (MarketMessage × Nat)} (hs : Along receive Sends m msgs) :
    Holds (run deliver g (msgs.map fun x => x.1.encode x.2)).book (run receive m msgs) ∧
      (run deliver g (msgs.map fun x => x.1.encode x.2)).logged =
        g.logged ++ outputs receive events m msgs := by
  induction msgs generalizing g m with
  | nil => exact ⟨h, (List.append_nil _).symm⟩
  | cons x msgs ih =>
    obtain ⟨hx, hrest⟩ := hs
    obtain ⟨hholds, hlogged⟩ := deliver_message (Or.inr h) hx
    obtain ⟨hlast, hall⟩ := ih hholds hrest
    refine ⟨hlast, hall.trans ?_⟩
    rw [hlogged, outputs_cons, List.append_assoc]

section Shows

variable {b : OrderBook} {m : Market}

theorem lookup_of_holds (h : Holds b m) (id : OrderId) :
    b.lookupEntry id = (m id).map Quote.info := by
  rw [lookupEntry, h.entries, entryAt_val]

/-- The level of a price sums the quotes at it. -/
theorem qty_of_holds (h : Holds b m) {s : MDEntryType} (hs : s ≠ .trade) (p : Int) :
    (b.levels s).getD p 0 = m.qtyAt s p := by
  have hkeys : ∀ id ∈ b.entries, id ∈ Finset.range Word64.size := by
    intro id hid
    rw [ExtTreeMap.mem_iff_isSome_getElem?, h.entries, entryAt] at hid
    rw [Finset.mem_range]
    by_contra hc
    rw [dif_neg hc] at hid
    cases hid
  rw [(h.tracks s hs).2 p, liveQty, total_eq_sum hkeys, ← Fin.sum_univ_eq_sum_range, Market.qtyAt]
  apply Finset.sum_congr rfl
  intro id _
  rw [h.entries, entryAt_val]
  cases m id with
  | none => rfl
  | some q => rfl

theorem mem_levels_of_holds (h : Holds b m) {s : MDEntryType} (hs : s ≠ .trade) {p : Int} :
    p ∈ b.levels s ↔ p ∈ m.prices s := by
  have hpos : p ∈ b.levels s ↔ 0 < liveQty b s p := by
    rw [mem_levels_iff (h.tracks s hs).1, (h.tracks s hs).2 p]
  rw [hpos, liveQty_pos_iff h.pos, mem_livePrices]
  constructor
  · rintro ⟨id, e, he, hside, hprice⟩
    rw [h.entries, entryAt] at he
    split at he
    · obtain ⟨q, hq, rfl⟩ := Option.map_eq_some_iff.mp he
      exact ⟨_, q, hq, hside, hprice⟩
    · cases he
  · rintro ⟨id, q, hq, hside, hprice⟩
    refine ⟨id, q.info, ?_, hside, hprice⟩
    rw [h.entries, entryAt_val, hq]
    rfl

theorem shows_of_holds (h : Holds b m) : Shows b m := by
  have hbids : {p | p ∈ b.bids} = m.prices .bid :=
    Set.ext fun p => mem_levels_of_holds h (s := .bid) (by decide)
  have hasks : {p | p ∈ b.asks} = m.prices .offer :=
    Set.ext fun p => mem_levels_of_holds h (s := .offer) (by decide)
  constructor
  · exact lookup_of_holds h
  · exact qty_of_holds h (s := .bid) (by decide)
  · exact qty_of_holds h (s := .offer) (by decide)
  · intro hne
    rw [← hbids] at hne ⊢
    exact bestBid_isGreatest hne.some_mem
  · intro hne
    rw [← hasks] at hne ⊢
    exact bestAsk_isLeast hne.some_mem
  · intro hnone
    refine bestBid_of_none fun p hp => ?_
    have hmem : p ∈ m.prices .bid := hbids ▸ hp
    rw [hnone] at hmem
    exact hmem
  · intro hnone
    refine bestAsk_of_none fun p hp => ?_
    have hmem : p ∈ m.prices .offer := hasks ▸ hp
    rw [hnone] at hmem
    exact hmem

end Shows

/-- From a snapshot on, whatever the gateway was before and however the changes are grouped into
messages, the book shows the market and the log has every change. -/
theorem gateway_shows_market (g : FixMdGateway) {x : MarketMessage × Nat}
    (hx : IsSnapshot x.1) {msgs : List (MarketMessage × Nat)}
    (hs : Along receive Sends (fun _ => none) (x :: msgs)) :
    let g' := run deliver g ((x :: msgs).map fun x => x.1.encode x.2)
    Shows g'.book (run receive (fun _ => none) (x :: msgs)) ∧
      g'.logged = g.logged ++ outputs receive events (fun _ => none) (x :: msgs) := by
  obtain ⟨hfirst, hrest⟩ := hs
  obtain ⟨hholds, hlogged⟩ := deliver_message (g := g) (Or.inl hx) hfirst
  obtain ⟨hlast, hall⟩ := deliver_messages hholds hrest
  refine ⟨shows_of_holds hlast, hall.trans ?_⟩
  rw [hlogged, outputs_cons, List.append_assoc]

theorem wordSize_pos : 0 < Word64.size := by decide

theorem bid_ne_trade : MDEntryType.bid ≠ .trade := by decide

def firstId : OrderId := ⟨0, wordSize_pos⟩

theorem one_le_bounds : (1 : Int) ≤ 2 ^ 50 ∧ (1 : Int) ≤ 2 ^ 53 := by decide

def oneBid : Quote :=
  ⟨.bid, 1, 1, bid_ne_trade, Int.one_pos, one_le_bounds.1, Int.one_pos, one_le_bounds.2⟩

/-- A market with one bid, which is cancelled. -/
theorem gateway_shows_market_cancelled :
    let msgs := [(MarketMessage.snapshot [(firstId, oneBid)], 10),
      (MarketMessage.refresh [.cancel firstId], 20)]
    let g' := run deliver {} (msgs.map fun x => x.1.encode x.2)
    Shows g'.book (run receive (fun _ => none) msgs) ∧
      g'.logged = [] ++ outputs receive events (fun _ => none) msgs := by
  intro msgs
  have hcancel : (Function.update (fun _ => none) firstId (some oneBid) firstId).isSome = true := by
    rw [Function.update_self]
    rfl
  exact gateway_shows_market {} (x := (MarketMessage.snapshot [(firstId, oneBid)], 10)) trivial
    ⟨⟨rfl, trivial⟩, ⟨hcancel, trivial⟩, trivial⟩

end SmartQuant.MarketSync
